import Mathlib.Data.List.Nodup
import Mathlib.Data.List.Perm.Basic
import Vere.Lib.Fuel
import Vere.Lib.Sparse
import Vere.Noun.Basic

/-!
# The hash table

`pkg/noun/hashtable.c`: a hash array mapped trie over the 31 bits of a mug. The root has 64 slots
for the first six bits, below it are up to five levels of nodes of 32 slots, five bits each, and
below the last bits are buckets of colliding keys. A table can be trimmed by a clock arm that runs
over the mugs, cools the warm entries it meets and removes the cold ones.
-/

set_option autoImplicit false

namespace Vere.Noun.Hashtable

open Lib.Sparse Lib.Fuel

/-- A key-value cell. -/
structure Kev where
  key : Noun
  val : Noun
  deriving DecidableEq, Repr

/-- `u3h_slot`, other than null: a key-value cell with its warm bit, a node with the bitmap of its
occupied slots, or a bucket. -/
inductive Slot
  | noun (kev : Kev) (warm : Bool) : Slot
  | node (map_w : ℕ) (sot_w : List Slot) : Slot
  | buck (sot_w : List (Kev × Bool)) : Slot

/-- The clock arm. -/
structure Arm where
  mug_w : ℕ
  inx_w : ℕ
  deriving DecidableEq, Repr

/-- `u3h_root`. -/
structure Root where
  max_w : ℕ
  use_w : ℕ
  arm_u : Arm
  sot_w : Fin 64 → Option Slot

/-- `CUT_END`: the low bits of a word. -/
def cutEnd (a_w b_w : ℕ) : ℕ := a_w &&& (1 <<< b_w - 1)

/-- `_ch_popcount()`. -/
def chPopcount (num_w : ℕ) : ℕ := rank num_w 32

/-- `u3h_new_cache()`. -/
def newCache (max_w : ℕ) : Root := ⟨max_w, 0, ⟨0, 0⟩, fun _ ↦ none⟩

/-- `u3h_new()`. -/
def new : Root := newCache 0

variable (mug : Noun → Fin (2 ^ 31))

/-! ### Insertion -/

/-- `_ch_buck_add()`: the bucket and the number of entries added. -/
def chBuckAdd (kev : Kev) (sot_w : List (Kev × Bool)) : List (Kev × Bool) × ℕ :=
  match sot_w.findIdx? fun kov ↦ kev.key = kov.1.key with
  | some i_w => (sot_w.set i_w (kev, true), 0)
  | none => ((kev, true) :: sot_w, 1)

/-- `_ch_two()`, with `5 * lev` bits left. -/
def chTwo (had_w add_w : Kev × Bool) : ℕ → ℕ → ℕ → Slot
  | 0, _, _ => .buck [had_w, add_w]
  | lev + 1, ham_w, mad_w =>
    let hop_w := ham_w >>> (5 * lev)
    let tad_w := mad_w >>> (5 * lev)
    if hop_w = tad_w then
      .node (1 <<< hop_w)
        [chTwo had_w add_w lev (cutEnd ham_w (5 * lev)) (cutEnd mad_w (5 * lev))]
    else
      .node ((1 <<< hop_w) ||| (1 <<< tad_w))
        (if hop_w < tad_w then [.noun had_w.1 had_w.2, .noun add_w.1 add_w.2]
          else [.noun add_w.1 add_w.2, .noun had_w.1 had_w.2])

/-- `_ch_node_add()` on a node with `5 * (lev + 1)` bits left; `put` is `_ch_slot_put()` on a slot
with `5 * lev` bits left. -/
def chNodeAdd (put : ℕ → Slot → Slot × ℕ) (kev : Kev) (lev map_w : ℕ) (sot_w : List Slot)
    (rem_w : ℕ) : Slot × ℕ :=
  let bit_w := rem_w >>> (5 * lev)
  let rem_w := cutEnd rem_w (5 * lev)
  let inx_w := chPopcount (cutEnd map_w bit_w)
  if map_w.testBit bit_w then
    match sot_w[inx_w]? with
    | some tos_w =>
      let (tos_w, use_w) := put rem_w tos_w
      (.node map_w (sot_w.set inx_w tos_w), use_w)
    | none => (.node map_w sot_w, 0)
  else (.node (map_w ||| (1 <<< bit_w)) (sot_w.insertIdx inx_w (.noun kev true)), 1)

/-- `_ch_slot_put()`: the slot and the number of entries added. A node with no bits left and a
bucket with bits left do not occur (`Ok`). -/
def chSlotPut (kev : Kev) : ℕ → ℕ → Slot → Slot × ℕ
  | lev, rem_w, .noun kov warm =>
    if kev.key = kov.key then (.noun kev true, 0)
    else
      (chTwo (kov, warm) (kev, true) lev (cutEnd (mug kov.key) (5 * lev)) rem_w, 1)
  | 0, _, .buck sot_w =>
    let (sot_w, use_w) := chBuckAdd kev sot_w
    (.buck sot_w, use_w)
  | lev + 1, rem_w, .node map_w sot_w =>
    chNodeAdd (fun rem_w tos_w ↦ chSlotPut kev lev rem_w tos_w) kev lev map_w sot_w rem_w
  | _, _, sot_w => (sot_w, 0)

/-! ### Trimming -/

/-- `_ch_skip_slot()`: the arm past a hash prefix. -/
def chSkipSlot (mug_w lef_w : ℕ) : ℕ := cutEnd (mug_w >>> lef_w + 1) (31 - lef_w) <<< lef_w

/-- `_ch_trim_buck()`: whether an entry was removed, the arm and the slot. -/
def chTrimBuck (arm_u : Arm) (sot_w : List (Kev × Bool)) : Bool × Arm × Slot :=
  match hinx : sot_w[arm_u.inx_w]? with
  | none => (false, ⟨(arm_u.mug_w + 1) &&& 0x7FFFFFFF, 0⟩, .buck sot_w)
  | some (kev, true) =>
    chTrimBuck { arm_u with inx_w := arm_u.inx_w + 1 } (sot_w.set arm_u.inx_w (kev, false))
  | some (_, false) =>
    let ken_w : ℕ := if arm_u.inx_w = 0 then 1 else 0
    if sot_w.length = 2 then
      match sot_w[ken_w]? with
      | some (kov, warm) => (true, { arm_u with inx_w := 0 }, .noun kov warm)
      | none => (true, arm_u, .buck sot_w)
    else
      (true, { arm_u with inx_w := arm_u.inx_w + 1 }, .buck (sot_w.eraseIdx arm_u.inx_w))
termination_by sot_w.length - arm_u.inx_w
decreasing_by
  have hlt := (List.getElem?_eq_some_iff.mp hinx).1
  simp only [List.length_set]
  omega

/-- The end of `_ch_trim_node()`, for a slot that was emptied: a single key-value cell left over
takes the place of the node, and otherwise the node is shrunk in place. -/
def chShrink (map_w bit_w inx_w : ℕ) (sot_w : List Slot) : Slot :=
  let shrunk := Slot.node (map_w &&& (0xFFFFFFFF ^^^ (1 <<< bit_w))) (sot_w.eraseIdx inx_w)
  let ken_w : ℕ := if inx_w = 0 then 1 else 0
  if chPopcount map_w = 2 then
    match sot_w[ken_w]? with
    | some (.noun kov warm) => .noun kov warm
    | _ => shrunk
  else shrunk

/-- `_ch_trim_node()` on a node with `5 * (lev + 1)` bits left; `trim` is `_ch_trim_slot()` on a
slot with `5 * lev` bits left, whose null result is the emptied slot. -/
def chTrimNode (trim : ℕ → Slot → Bool × Arm × Option Slot) (arm_u : Arm) (lev map_w : ℕ)
    (sot_w : List Slot) (rem_w : ℕ) : Bool × Arm × Slot :=
  let bit_w := rem_w >>> (5 * lev)
  if map_w.testBit bit_w then
    let rem_w := cutEnd rem_w (5 * lev)
    let inx_w := chPopcount (cutEnd map_w bit_w)
    match sot_w[inx_w]? with
    | none => (false, arm_u, .node map_w sot_w)
    | some tos_w =>
      match trim rem_w tos_w with
      | (ret, arm_u, some tos_w) => (ret, arm_u, .node map_w (sot_w.set inx_w tos_w))
      | (ret, arm_u, none) => (ret, arm_u, chShrink map_w bit_w inx_w sot_w)
  else (false, { arm_u with mug_w := chSkipSlot arm_u.mug_w (5 * lev) }, .node map_w sot_w)

/-- `_ch_trim_slot()`, with `_ch_trim_kev()` on a key-value cell. -/
def chTrimSlot (arm_u : Arm) : ℕ → ℕ → Slot → Bool × Arm × Option Slot
  | lev, _, .noun kev warm =>
    let arm_u := { arm_u with mug_w := chSkipSlot arm_u.mug_w (5 * lev) }
    if warm then (false, arm_u, some (.noun kev false)) else (true, arm_u, none)
  | 0, _, .buck sot_w =>
    let (ret, arm_u, sot_w) := chTrimBuck arm_u sot_w
    (ret, arm_u, some sot_w)
  | lev + 1, rem_w, .node map_w sot_w =>
    let (ret, arm_u, sot_w) := chTrimNode (fun rem_w tos_w ↦ chTrimSlot arm_u lev rem_w tos_w)
      arm_u lev map_w sot_w rem_w
    (ret, arm_u, some sot_w)
  | _, _, sot_w => (false, arm_u, some sot_w)

/-- The index of the root slot of a mug. -/
def rootIndex (mug_w : ℕ) : Fin 64 := Fin.ofNat 64 (mug_w >>> 25)

/-- `_ch_trim_root()`. -/
def chTrimRoot (har_u : Root) : Bool × Root :=
  let mug_w := har_u.arm_u.mug_w
  let inx_w := rootIndex mug_w
  match har_u.sot_w inx_w with
  | none =>
    (false, { har_u with arm_u := { har_u.arm_u with mug_w := chSkipSlot mug_w 25 } })
  | some sot_w =>
    let (ret, arm_u, sot_w) := chTrimSlot har_u.arm_u 5 (cutEnd mug_w 25) sot_w
    (ret, { har_u with arm_u := arm_u, sot_w := Function.update har_u.sot_w inx_w sot_w })

/-- `u3h_trim_to()`. -/
def trimTo (n_w : ℕ) : ℕ → Root → Option Root
  | 0, _ => none
  | fuel + 1, har_u =>
    if n_w < har_u.use_w then
      match chTrimRoot har_u with
      | (true, har_u) => trimTo n_w fuel { har_u with use_w := har_u.use_w - 1 }
      | (false, har_u) => trimTo n_w fuel har_u
    else some har_u

/-! ### The operations -/

/-- `u3h_put()`. The fuel is for the trimming of a table of bounded size. -/
def put (fuel : ℕ) (har_u : Root) (key val : Noun) : Option Root :=
  let kev : Kev := ⟨key, val⟩
  let mug_w := mug key
  let inx_w := rootIndex mug_w
  let rem_w := cutEnd mug_w 25
  let har_u :=
    match har_u.sot_w inx_w with
    | none =>
      { har_u with
        sot_w := Function.update har_u.sot_w inx_w (some (.noun kev true))
        use_w := har_u.use_w + 1 }
    | some sot_w =>
      let (sot_w, use_w) := chSlotPut mug kev 5 rem_w sot_w
      { har_u with
        sot_w := Function.update har_u.sot_w inx_w (some sot_w), use_w := har_u.use_w + use_w }
  if 0 < har_u.max_w then trimTo har_u.max_w fuel har_u else some har_u

/-- `_ch_buck_git()`. -/
def chBuckGit (key : Noun) (sot_w : List (Kev × Bool)) : Option Noun :=
  (sot_w.find? fun kev ↦ key = kev.1.key).map fun kev ↦ kev.1.val

/-- `_ch_node_git()` on a node with `5 * (lev + 1)` bits left. -/
def chNodeGit (key : Noun) (lev map_w : ℕ) (sot_w : List Slot) (rem_w : ℕ) : Option Noun :=
  let bit_w := rem_w >>> (5 * lev)
  let rem_w := cutEnd rem_w (5 * lev)
  if map_w.testBit bit_w then
    match lev, sot_w[chPopcount (cutEnd map_w bit_w)]? with
    | _, some (.noun kev _) => if key = kev.key then some kev.val else none
    | 0, some (.buck sot_w) => chBuckGit key sot_w
    | lev + 1, some (.node map_w sot_w) => chNodeGit key lev map_w sot_w rem_w
    | _, _ => none
  else none

/-- `u3h_git()`: the value, and the table with a root entry that was read warmed. -/
def git (har_u : Root) (key : Noun) : Option Noun × Root :=
  let mug_w := mug key
  let inx_w := rootIndex mug_w
  let rem_w := cutEnd mug_w 25
  match har_u.sot_w inx_w with
  | none => (none, har_u)
  | some (.noun kev _) =>
    if key = kev.key then
      (some kev.val,
        { har_u with sot_w := Function.update har_u.sot_w inx_w (some (.noun kev true)) })
    else (none, har_u)
  | some (.node map_w sot_w) => (chNodeGit key 4 map_w sot_w rem_w, har_u)
  | some (.buck _) => (none, har_u)

/-- `u3h_get()`: `u3h_git()` with the reference to the value counted. -/
def get (har_u : Root) (key : Noun) : Option Noun × Root := git mug har_u key

/-- The entries below a slot with `5 * lev` bits left, with their warm bits, in the order of
`_ch_walk_node()` and `_ch_walk_buck()`. -/
def cells : ℕ → Slot → List (Kev × Bool)
  | _, .noun kev warm => [(kev, warm)]
  | 0, .buck sot_w => sot_w
  | lev + 1, .node _ sot_w => sot_w.flatMap fun tos_w ↦ cells lev tos_w
  | _, _ => []

/-- The entries of a slot that may be null. -/
def cellsOf (lev : ℕ) : Option Slot → List (Kev × Bool)
  | none => []
  | some sot_w => cells lev sot_w

/-- The entries of a table, in the order of `u3h_walk_with()`. -/
def walk (har_u : Root) : List (Kev × Bool) :=
  (List.finRange 64).flatMap fun inx_w ↦ cellsOf 5 (har_u.sot_w inx_w)

/-- `u3h_uni()`: put every entry of the second table into the first. -/
def uni (fuel : ℕ) (har_u rah_u : Root) : Option Root :=
  (walk rah_u).foldlM (fun har_u kev ↦ put mug fuel har_u kev.1.key kev.1.val) har_u

/-! ### The representation invariant -/

/-- The invariant of a slot with `5 * lev` bits left below the hash prefix `pre`: a key-value cell
is under the prefix of its mug; a node has as many slots as set bits, each in order below its
prefix; a bucket occurs only with no bits left, has at least two entries with different keys, and
all have the prefix for mug. -/
def Ok : ℕ → ℕ → Slot → Prop
  | lev, pre, .noun kev _ => (mug kev.key : ℕ) / 2 ^ (5 * lev) = pre
  | 0, pre, .buck sot_w =>
    2 ≤ sot_w.length ∧ (sot_w.map fun kev ↦ kev.1.key).Nodup ∧
      ∀ kev ∈ sot_w, (mug kev.1.key : ℕ) = pre
  | lev + 1, pre, .node map_w sot_w =>
    map_w < 2 ^ 32 ∧ sot_w.length = chPopcount map_w ∧
      ∀ bit_w < 32, ∀ tos_w, Lib.Sparse.get map_w sot_w bit_w = some tos_w →
        Ok lev (32 * pre + bit_w) tos_w
  | _, _, _ => False

/-- The invariant of a table: every root slot is in order below its index, the count is the number
of entries, and the arm is a mug. -/
structure RootOk (har_u : Root) : Prop where
  slot : ∀ inx_w sot_w, har_u.sot_w inx_w = some sot_w → Ok mug 5 inx_w sot_w
  use : har_u.use_w = (walk har_u).length
  arm : har_u.arm_u.mug_w < 2 ^ 31

variable {key val : Noun} {lef_w mug_w : ℕ}

section Slots

variable {mug}

variable {kev : Kev} {lev pre map_w bit_w : ℕ} {warm : Bool} {sot_w : List Slot} {old : Slot}

theorem ok_noun : Ok mug lev pre (.noun kev warm) ↔ (mug kev.key : ℕ) / 2 ^ (5 * lev) = pre := by
  cases lev <;> rfl

@[simp] theorem cells_noun (lev : ℕ) (kev : Kev) (warm : Bool) :
    cells lev (.noun kev warm) = [(kev, warm)] := by
  cases lev <;> rfl

theorem cutEnd_eq (a_w b_w : ℕ) : cutEnd a_w b_w = a_w % 2 ^ b_w := by
  rw [cutEnd, Nat.one_shiftLeft, Nat.and_two_pow_sub_one_eq_mod]

/-- A prefix is extended by five bits from one level to the next. -/
theorem div_succ (mug_w lev : ℕ) :
    mug_w / 2 ^ (5 * (lev + 1)) = mug_w / 2 ^ (5 * lev) / 32 := by
  rw [Nat.mul_add, Nat.pow_add, ← Nat.div_div_eq_div_mul]

/-- The position of a mug in a node, the low bits that remain, and the prefix below it. -/
theorem fragment (mug_w lev : ℕ) :
    (mug_w % 2 ^ (5 * (lev + 1))) >>> (5 * lev) < 32 ∧
      cutEnd (mug_w % 2 ^ (5 * (lev + 1))) (5 * lev) = mug_w % 2 ^ (5 * lev) ∧
      mug_w / 2 ^ (5 * lev) =
        32 * (mug_w / 2 ^ (5 * (lev + 1))) + (mug_w % 2 ^ (5 * (lev + 1))) >>> (5 * lev) := by
  have hpow : 2 ^ (5 * (lev + 1)) = 2 ^ (5 * lev) * 32 := by
    rw [Nat.mul_add, Nat.pow_add]
  have hpos : 0 < 2 ^ (5 * lev) := Nat.two_pow_pos _
  rw [Nat.shiftRight_eq_div_pow, cutEnd_eq, hpow]
  have hmod : mug_w % (2 ^ (5 * lev) * 32) / 2 ^ (5 * lev) = mug_w / 2 ^ (5 * lev) % 32 :=
    Nat.mod_mul_right_div_self mug_w (2 ^ (5 * lev)) 32
  refine ⟨?_, ?_, ?_⟩
  · rw [hmod]
    exact Nat.mod_lt _ (by decide)
  · exact Nat.mod_mul_right_mod mug_w (2 ^ (5 * lev)) 32
  · rw [hmod, ← Nat.div_div_eq_div_mul]
    exact (Nat.div_add_mod _ _).symm

theorem mem_cells_node (hlength : sot_w.length = chPopcount map_w) {kev : Kev × Bool} :
    kev ∈ cells (lev + 1) (.node map_w sot_w) ↔ ∃ bit_w < 32, ∃ tos_w,
      Lib.Sparse.get map_w sot_w bit_w = some tos_w ∧ kev ∈ cells lev tos_w := by
  simp only [cells, List.mem_flatMap]
  constructor
  · rintro ⟨tos_w, hmem, hkev⟩
    obtain ⟨bit_w, hbit, hget⟩ := exists_get_of_mem hlength hmem
    exact ⟨bit_w, hbit, tos_w, hget, hkev⟩
  · rintro ⟨bit_w, _, tos_w, hget, hkev⟩
    exact ⟨tos_w, mem_of_get hget, hkev⟩

/-- Every entry below a slot has the prefix of the slot. -/
theorem Ok.div_eq {sot_w : Slot} (hok : Ok mug lev pre sot_w) {kev : Kev × Bool}
    (hmem : kev ∈ cells lev sot_w) : (mug kev.1.key : ℕ) / 2 ^ (5 * lev) = pre := by
  induction lev generalizing pre sot_w with
  | zero =>
    cases sot_w with
    | noun kov warm =>
      rw [cells_noun, List.mem_singleton] at hmem
      rw [hmem]
      exact hok
    | buck sots =>
      rw [hok.2.2 kev hmem]
      simp
    | node map_w sots => exact hok.elim
  | succ lev ih =>
    cases sot_w with
    | noun kov warm =>
      rw [cells_noun, List.mem_singleton] at hmem
      rw [hmem]
      exact hok
    | buck sots => exact hok.elim
    | node map_w sots =>
      obtain ⟨_, hlength, hslots⟩ := hok
      obtain ⟨bit_w, hbit, tos_w, hget, hkev⟩ := (mem_cells_node hlength).mp hmem
      rw [div_succ, ih (hslots bit_w hbit tos_w hget) hkev]
      omega

theorem chPopcount_cutEnd (map_w : ℕ) (hbit : bit_w < 32) :
    chPopcount (cutEnd map_w bit_w) = rank map_w bit_w := by
  rw [chPopcount, cutEnd_eq, rank_mod_two_pow map_w (Nat.le_of_lt hbit)]

/-- The position of a mug in a node with `5 * (lev + 1)` bits left. -/
def bitOf (mug_w lev : ℕ) : ℕ := (mug_w % 2 ^ (5 * (lev + 1))) >>> (5 * lev)

theorem shiftRight_eq_bitOf (mug_w lev : ℕ) :
    (mug_w % 2 ^ (5 * (lev + 1))) >>> (5 * lev) = bitOf mug_w lev := by
  rw [bitOf]

theorem bitOf_lt (mug_w lev : ℕ) : bitOf mug_w lev < 32 := (fragment mug_w lev).1

/-- A mug has the position that its prefix has. -/
theorem bitOf_congr {mug_w' : ℕ} (hle : lef_w ≤ 5 * lev)
    (hpre : mug_w' / 2 ^ lef_w = mug_w / 2 ^ lef_w) : bitOf mug_w' lev = bitOf mug_w lev := by
  have hmod : ∀ mug_w, bitOf mug_w lev = mug_w / 2 ^ lef_w / 2 ^ (5 * lev - lef_w) % 32 := by
    intro mug_w
    rw [bitOf, Nat.shiftRight_eq_div_pow, Nat.mul_add, Nat.pow_add, Nat.mod_mul_right_div_self,
      Nat.div_div_eq_div_mul, ← Nat.pow_add, Nat.add_sub_cancel' hle]
  rw [hmod, hmod, hpre]

theorem div_eq_bitOf (hpre : mug_w / 2 ^ (5 * (lev + 1)) = pre) :
    mug_w / 2 ^ (5 * lev) = 32 * pre + bitOf mug_w lev :=
  hpre ▸ (fragment mug_w lev).2.2

theorem bitOf_eq (hpre : mug_w / 2 ^ (5 * (lev + 1)) = pre)
    (hdiv : mug_w / 2 ^ (5 * lev) = 32 * pre + bit_w) : bit_w = bitOf mug_w lev := by
  rw [div_eq_bitOf hpre] at hdiv
  omega

theorem Ok.mem_node (hok : Ok mug (lev + 1) pre (.node map_w sot_w)) {kev : Kev × Bool}
    (hpre : (mug kev.1.key : ℕ) / 2 ^ (5 * (lev + 1)) = pre) :
    kev ∈ cells (lev + 1) (.node map_w sot_w) ↔
      ∃ tos_w, Lib.Sparse.get map_w sot_w (bitOf (mug kev.1.key) lev) = some tos_w ∧
        kev ∈ cells lev tos_w := by
  obtain ⟨_, hlength, hslots⟩ := hok
  rw [mem_cells_node hlength]
  constructor
  · rintro ⟨bit_w, hbit, tos_w, hget, hmem⟩
    rw [bitOf_eq hpre ((hslots bit_w hbit tos_w hget).div_eq hmem)] at hget
    exact ⟨tos_w, hget, hmem⟩
  · rintro ⟨tos_w, hget, hmem⟩
    exact ⟨_, bitOf_lt _ _, tos_w, hget, hmem⟩

theorem Ok.nodup {sot_w : Slot} (hok : Ok mug lev pre sot_w) :
    ((cells lev sot_w).map fun kev ↦ kev.1.key).Nodup := by
  induction lev generalizing pre sot_w with
  | zero =>
    cases sot_w with
    | noun kev warm => simp
    | buck sots => exact hok.2.1
    | node map_w sots => exact hok.elim
  | succ lev ih =>
    cases sot_w with
    | noun kev warm => simp
    | buck sots => exact hok.elim
    | node map_w sots =>
      obtain ⟨_, hlength, hslots⟩ := hok
      rw [cells, List.map_flatMap, List.nodup_flatMap]
      constructor
      · intro tos_w hmem
        obtain ⟨bit_w, hbit, hget⟩ := exists_get_of_mem hlength hmem
        exact ih (hslots bit_w hbit tos_w hget)
      · rw [List.pairwise_iff_getElem]
        intro i j hi hj hij
        obtain ⟨bit_i, hbit_i, hset_i, hrank_i⟩ := exists_rank_eq (hlength ▸ hi)
        obtain ⟨bit_j, hbit_j, hset_j, hrank_j⟩ := exists_rank_eq (hlength ▸ hj)
        have hget_i : Lib.Sparse.get map_w sots bit_i = some sots[i] :=
          get_eq_some_iff.mpr ⟨hset_i, by rw [hrank_i, List.getElem?_eq_getElem hi]⟩
        have hget_j : Lib.Sparse.get map_w sots bit_j = some sots[j] :=
          get_eq_some_iff.mpr ⟨hset_j, by rw [hrank_j, List.getElem?_eq_getElem hj]⟩
        have hne : bit_i ≠ bit_j := by
          rintro rfl
          omega
        -- entries of different slots differ in the prefix of their mugs
        intro key hmem_i hmem_j
        obtain ⟨kev_i, hkev_i, rfl⟩ := List.mem_map.mp hmem_i
        obtain ⟨kev_j, hkev_j, hkey⟩ := List.mem_map.mp hmem_j
        have hdiv_i := (hslots bit_i hbit_i _ hget_i).div_eq hkev_i
        have hdiv_j := (hslots bit_j hbit_j _ hget_j).div_eq hkev_j
        rw [hkey, hdiv_i] at hdiv_j
        omega

/-! ### Lookup -/

theorem chBuckGit_eq_some {sot_w : List (Kev × Bool)}
    (hnodup : (sot_w.map fun kev ↦ kev.1.key).Nodup) :
    chBuckGit key sot_w = some val ↔ ∃ warm, (⟨key, val⟩, warm) ∈ sot_w := by
  rw [chBuckGit, Option.map_eq_some_iff]
  constructor
  · rintro ⟨⟨⟨key', val'⟩, warm⟩, hfind, rfl⟩
    have hkey : key = key' := by simpa using List.find?_some hfind
    subst hkey
    exact ⟨warm, List.mem_of_find?_eq_some hfind⟩
  · rintro ⟨warm, hmem⟩
    refine ⟨(⟨key, val⟩, warm), ?_, rfl⟩
    have hsome : (sot_w.find? fun kev ↦ key = kev.1.key).isSome := by
      rw [List.find?_isSome]
      exact ⟨_, hmem, by simp⟩
    obtain ⟨kev, hfind⟩ := Option.isSome_iff_exists.mp hsome
    have hkey : key = kev.1.key := by simpa using List.find?_some hfind
    rw [hfind, List.inj_on_of_nodup_map hnodup (List.mem_of_find?_eq_some hfind) hmem hkey.symm]

/-- A slot holds a key and its value. -/
def Holds (lev : ℕ) (sot_w : Slot) (key val : Noun) : Prop :=
  ∃ warm, (⟨key, val⟩, warm) ∈ cells lev sot_w

theorem holds_noun : Holds lev (.noun kev warm) key val ↔ kev = ⟨key, val⟩ := by
  simp [Holds, eq_comm]

/-- What a node holds for a key is what the slot at the position of its mug holds. -/
theorem Ok.holds_node (hok : Ok mug (lev + 1) pre (.node map_w sot_w))
    (hpre : (mug key : ℕ) / 2 ^ (5 * (lev + 1)) = pre) :
    Holds (lev + 1) (.node map_w sot_w) key val ↔
      ∃ tos_w, Lib.Sparse.get map_w sot_w (bitOf (mug key) lev) = some tos_w ∧
        Holds lev tos_w key val := by
  constructor
  · rintro ⟨warm, hmem⟩
    obtain ⟨tos_w, hget, hmem⟩ := (hok.mem_node hpre).mp hmem
    exact ⟨tos_w, hget, warm, hmem⟩
  · rintro ⟨tos_w, hget, warm, hmem⟩
    exact ⟨warm, (hok.mem_node hpre).mpr ⟨tos_w, hget, hmem⟩⟩

/-- Reading below a slot with `5 * lev` bits left. -/
def slotGit (key : Noun) : ℕ → ℕ → Slot → Option Noun
  | _, _, .noun kev _ => if key = kev.key then some kev.val else none
  | 0, _, .buck sot_w => chBuckGit key sot_w
  | lev + 1, rem_w, .node map_w sot_w => chNodeGit key lev map_w sot_w rem_w
  | _, _, _ => none

theorem slotGit_noun (key : Noun) (lev rem_w : ℕ) (kev : Kev) (warm : Bool) :
    slotGit key lev rem_w (.noun kev warm) = if key = kev.key then some kev.val else none := by
  cases lev <;> rfl

/-- Reading in a node reads below the slot at the position of the mug. -/
theorem chNodeGit_eq (key : Noun) (lev map_w : ℕ) (sot_w : List Slot) (mug_w : ℕ) :
    chNodeGit key lev map_w sot_w (mug_w % 2 ^ (5 * (lev + 1))) =
      (Lib.Sparse.get map_w sot_w (bitOf mug_w lev)).bind
        (slotGit key lev (mug_w % 2 ^ (5 * lev))) := by
  obtain ⟨hlt, hrem, _⟩ := fragment mug_w lev
  unfold chNodeGit Lib.Sparse.get bitOf
  simp only [hrem, chPopcount_cutEnd map_w hlt]
  split_ifs
  · cases hitem : sot_w[rank map_w ((mug_w % 2 ^ (5 * (lev + 1))) >>> (5 * lev))]? with
    | none => rfl
    | some tos_w => cases tos_w <;> cases lev <;> rfl
  · rfl

theorem slotGit_eq_some {sot_w : Slot} (hok : Ok mug lev pre sot_w)
    (hpre : (mug key : ℕ) / 2 ^ (5 * lev) = pre) :
    slotGit key lev ((mug key : ℕ) % 2 ^ (5 * lev)) sot_w = some val ↔
      Holds lev sot_w key val := by
  have hnoun : ∀ lev' kev warm, slotGit key lev' ((mug key : ℕ) % 2 ^ (5 * lev'))
      (.noun kev warm) = some val ↔ Holds lev' (.noun kev warm) key val := by
    intro lev' kev warm
    rw [slotGit_noun, holds_noun]
    obtain ⟨key', val'⟩ := kev
    by_cases hkey : key = key'
    · simp [hkey]
    · simp [hkey, Ne.symm hkey]
  induction lev generalizing pre sot_w with
  | zero =>
    cases sot_w with
    | noun kev warm => exact hnoun 0 kev warm
    | buck sots => exact chBuckGit_eq_some hok.2.1
    | node map_w sots => exact hok.elim
  | succ lev ih =>
    cases sot_w with
    | noun kev warm => exact hnoun (lev + 1) kev warm
    | buck sots => exact hok.elim
    | node map_w sots =>
      rw [slotGit, chNodeGit_eq, hok.holds_node hpre, Option.bind_eq_some_iff]
      refine exists_congr fun tos_w ↦ and_congr_right fun hget ↦ ?_
      exact ih (hok.2.2 _ (bitOf_lt _ _) tos_w hget) (div_eq_bitOf hpre)

/-! ### Insertion keeps the invariant -/

theorem Ok.pre_of_holds {sot_w : Slot} (hok : Ok mug lev pre sot_w)
    (hholds : Holds lev sot_w key val) : (mug key : ℕ) / 2 ^ (5 * lev) = pre := by
  obtain ⟨warm, hmem⟩ := hholds
  exact hok.div_eq hmem

/-- What putting an entry below a slot does: the slot stays in order, holds the entry and what it
held for other keys, and has `use_w` more entries. -/
structure Added (mug : Noun → Fin (2 ^ 31)) (lev pre : ℕ) (kev : Kev) (sot_w tos_w : Slot)
    (use_w : ℕ) : Prop where
  ok : Ok mug lev pre tos_w
  holds : ∀ key val, Holds lev tos_w key val ↔
    if key = kev.key then val = kev.val else Holds lev sot_w key val
  count : (cells lev tos_w).length = (cells lev sot_w).length + use_w

/-- A node whose slot at one position was changed holds for every key what it held, except below
that position. -/
theorem Ok.node_update {map_w' : ℕ} {sot_w' : List Slot} {tos_w : Slot}
    (hok : Ok mug (lev + 1) pre (.node map_w sot_w)) (hmap : map_w' < 2 ^ 32)
    (hlength : sot_w'.length = chPopcount map_w') (hget : ∀ bit, Lib.Sparse.get map_w' sot_w' bit =
      if bit = bit_w then some tos_w else Lib.Sparse.get map_w sot_w bit)
    (htos : Ok mug lev (32 * pre + bit_w) tos_w) :
    Ok mug (lev + 1) pre (.node map_w' sot_w') ∧
      ∀ key val, Holds (lev + 1) (.node map_w' sot_w') key val ↔
        (mug key : ℕ) / 2 ^ (5 * (lev + 1)) = pre ∧
          if bitOf (mug key) lev = bit_w then Holds lev tos_w key val
          else Holds (lev + 1) (.node map_w sot_w) key val := by
  have hok' : Ok mug (lev + 1) pre (.node map_w' sot_w') := by
    refine ⟨hmap, hlength, fun bit hbit sot hsot ↦ ?_⟩
    rw [hget] at hsot
    split_ifs at hsot with heq
    · rw [Option.some.injEq] at hsot
      rw [heq, ← hsot]
      exact htos
    · exact hok.2.2 bit hbit sot hsot
  refine ⟨hok', fun key val ↦ ?_⟩
  by_cases hpre : (mug key : ℕ) / 2 ^ (5 * (lev + 1)) = pre
  · rw [hok'.holds_node hpre, hok.holds_node hpre, hget]
    by_cases heq : bitOf (mug key) lev = bit_w
    · simp [heq, hpre]
    · simp [heq, hpre]
  · constructor
    · intro hholds
      exact absurd (hok'.pre_of_holds hholds) hpre
    · rintro ⟨hpre', _⟩
      exact absurd hpre' hpre

theorem length_cells_set (lev map_w : ℕ) {inx_w : ℕ} (new : Slot)
    (hold : sot_w[inx_w]? = some old) :
    (cells (lev + 1) (.node map_w (sot_w.set inx_w new))).length + (cells lev old).length =
      (cells (lev + 1) (.node map_w sot_w)).length + (cells lev new).length := by
  obtain ⟨before, after, hsplit, hset, _⟩ := exists_split hold
  simp only [cells, hset, List.flatMap_append, List.flatMap_cons, List.length_append]
  rw [hsplit]
  simp only [List.flatMap_append, List.flatMap_cons, List.length_append]
  omega

theorem Added.node_set {new : Slot} {use_w : ℕ} (hok : Ok mug (lev + 1) pre (.node map_w sot_w))
    (hpre : (mug kev.key : ℕ) / 2 ^ (5 * (lev + 1)) = pre)
    (hold : Lib.Sparse.get map_w sot_w (bitOf (mug kev.key) lev) = some old)
    (hadded : Added mug lev (32 * pre + bitOf (mug kev.key) lev) kev old new use_w) :
    Added mug (lev + 1) pre kev (.node map_w sot_w)
      (.node map_w (sot_w.set (rank map_w (bitOf (mug kev.key) lev)) new)) use_w := by
  obtain ⟨hok', hholds⟩ := hok.node_update hok.1 (by rw [List.length_set]; exact hok.2.1)
    (get_set hold) hadded.ok
  refine ⟨hok', fun key val ↦ ?_, ?_⟩
  · rw [hholds]
    by_cases hkey : key = kev.key
    · subst hkey
      simp [hpre, hadded.holds]
    · rw [if_neg hkey]
      by_cases hkpre : (mug key : ℕ) / 2 ^ (5 * (lev + 1)) = pre
      · by_cases hbit : bitOf (mug key) lev = bitOf (mug kev.key) lev
        · rw [if_pos hbit, hadded.holds, if_neg hkey, hok.holds_node hkpre, hbit, hold]
          simp [hkpre]
        · simp [hbit, hkpre]
      · constructor
        · rintro ⟨hkpre', _⟩
          exact absurd hkpre' hkpre
        · intro hheld
          exact absurd (hok.pre_of_holds hheld) hkpre
  · have hlength := length_cells_set lev map_w new (get_eq_some_iff.mp hold).2
    have hcount := hadded.count
    omega

/-- Filling a free slot of a node. -/
theorem Added.node_insert (kev : Kev) (warm : Bool) (hok : Ok mug (lev + 1) pre (.node map_w sot_w))
    (hpre : (mug kev.key : ℕ) / 2 ^ (5 * (lev + 1)) = pre)
    (hclear : ¬ map_w.testBit (bitOf (mug kev.key) lev)) :
    Added mug (lev + 1) pre kev (.node map_w sot_w)
      (.node (map_w ||| 1 <<< bitOf (mug kev.key) lev)
        (sot_w.insertIdx (rank map_w (bitOf (mug kev.key) lev)) (.noun kev warm))) 1 := by
  have hbit := bitOf_lt (mug kev.key) lev
  have hext := extends_or hclear
  have hle : rank map_w (bitOf (mug kev.key) lev) ≤ sot_w.length :=
    hok.2.1 ▸ rank_mono map_w (Nat.le_of_lt hbit)
  have hmap : map_w ||| 1 <<< bitOf (mug kev.key) lev < 2 ^ 32 := by
    rw [Nat.one_shiftLeft]
    exact Nat.or_lt_two_pow hok.1 (Nat.pow_lt_pow_right (by decide) hbit)
  have hlength : (sot_w.insertIdx (rank map_w (bitOf (mug kev.key) lev)) (.noun kev warm)).length =
      chPopcount (map_w ||| 1 <<< bitOf (mug kev.key) lev) := by
    rw [List.length_insertIdx_of_le_length hle, hok.2.1, chPopcount, chPopcount, hext.rank_eq,
      if_pos hbit]
  have hnoun : Ok mug lev (32 * pre + bitOf (mug kev.key) lev) (.noun kev warm) :=
    ok_noun.mpr (div_eq_bitOf hpre)
  obtain ⟨hok', hholds⟩ := hok.node_update hmap hlength
    (get_insertIdx hext hbit hok.2.1 (.noun kev warm)) hnoun
  refine ⟨hok', fun key val ↦ ?_, ?_⟩
  · rw [hholds, holds_noun]
    by_cases hkey : key = kev.key
    · subst hkey
      obtain ⟨key', val'⟩ := kev
      simp [hpre, eq_comm]
    · have hne : kev ≠ ⟨key, val⟩ := by
        rintro rfl
        exact hkey rfl
      rw [if_neg hkey]
      by_cases hkpre : (mug key : ℕ) / 2 ^ (5 * (lev + 1)) = pre
      · by_cases heq : bitOf (mug key) lev = bitOf (mug kev.key) lev
        · rw [hok.holds_node hkpre, heq, get_of_not_testBit hclear]
          simp [hne]
        · simp [heq, hkpre]
      · constructor
        · rintro ⟨hkpre', _⟩
          exact absurd hkpre' hkpre
        · intro hheld
          exact absurd (hok.pre_of_holds hheld) hkpre
  · have hperm := List.perm_insertIdx (Slot.noun kev warm) sot_w hle
    have hcells := (hperm.flatMap_right fun tos_w ↦ cells lev tos_w).length_eq
    simp only [cells, hcells, List.flatMap_cons, cells_noun, List.length_append,
      List.length_singleton]
    omega

/-- A node with one slot. -/
theorem ok_node_single {tos_w : Slot} (hbit : bit_w < 32)
    (hok : Ok mug lev (32 * pre + bit_w) tos_w) :
    Ok mug (lev + 1) pre (.node (1 <<< bit_w) [tos_w]) := by
  have hext := extends_single bit_w
  have hget : ∀ bit, Lib.Sparse.get (1 <<< bit_w) ([].insertIdx (rank 0 bit_w) tos_w) bit =
      if bit = bit_w then some tos_w else Lib.Sparse.get 0 [] bit :=
    get_insertIdx hext hbit (by simp) tos_w
  rw [rank_zero] at hget
  refine ⟨?_, ?_, fun bit _ sot hsot ↦ ?_⟩
  · rw [Nat.one_shiftLeft]
    exact Nat.pow_lt_pow_right (by decide) hbit
  · rw [chPopcount, hext.rank_eq, rank_zero, if_pos hbit]
    rfl
  · have hsot' := (hget bit).symm.trans hsot
    split_ifs at hsot' with heq
    · rw [Option.some.injEq] at hsot'
      rw [heq, ← hsot']
      exact hok
    · simp [Lib.Sparse.get] at hsot'

theorem cells_chTwo (had_w add_w : Kev × Bool) (lev ham_w mad_w : ℕ) :
    (cells lev (chTwo had_w add_w lev ham_w mad_w)).Perm [add_w, had_w] := by
  induction lev generalizing ham_w mad_w with
  | zero => exact List.Perm.swap add_w had_w []
  | succ lev ih =>
    simp only [chTwo]
    split_ifs
    · simpa [cells] using ih _ _
    · simpa [cells] using List.Perm.swap add_w had_w []
    · simp [cells]

/-- `_ch_two` puts two different keys under one prefix in order. -/
theorem ok_chTwo {had_w add_w : Kev × Bool} (hne : had_w.1.key ≠ add_w.1.key)
    (hhad : (mug had_w.1.key : ℕ) / 2 ^ (5 * lev) = pre)
    (hadd : (mug add_w.1.key : ℕ) / 2 ^ (5 * lev) = pre) :
    Ok mug lev pre (chTwo had_w add_w lev ((mug had_w.1.key : ℕ) % 2 ^ (5 * lev))
      ((mug add_w.1.key : ℕ) % 2 ^ (5 * lev))) := by
  induction lev generalizing pre with
  | zero =>
    refine ⟨by simp, by simpa using hne, fun kev hmem ↦ ?_⟩
    rcases List.mem_pair.mp hmem with rfl | rfl
    · simpa using hhad
    · simpa using hadd
  | succ lev ih =>
    obtain ⟨hlt, hrem, _⟩ := fragment (mug had_w.1.key) lev
    obtain ⟨_, hrem', _⟩ := fragment (mug add_w.1.key) lev
    have hhad' := div_eq_bitOf hhad
    have hadd' := div_eq_bitOf hadd
    simp only [chTwo, hrem, hrem', shiftRight_eq_bitOf]
    by_cases heq : bitOf (mug had_w.1.key) lev = bitOf (mug add_w.1.key) lev
    · rw [if_pos heq]
      rw [← heq] at hadd'
      exact ok_node_single hlt (ih hhad' hadd')
    · rw [if_neg heq]
      -- the second entry fills a free slot of the node that holds the first
      have hsingle : Ok mug (lev + 1) pre
          (.node (1 <<< bitOf (mug had_w.1.key) lev) [.noun had_w.1 had_w.2]) :=
        ok_node_single hlt (ok_noun.mpr hhad')
      have hclear : ¬ (1 <<< bitOf (mug had_w.1.key) lev).testBit
          (bitOf (mug add_w.1.key) lev) := by
        rw [Nat.one_shiftLeft, Nat.testBit_two_pow]
        simpa using heq
      have hadded := (Added.node_insert add_w.1 add_w.2 hsingle hadd hclear).ok
      have hrank : rank (1 <<< bitOf (mug had_w.1.key) lev) (bitOf (mug add_w.1.key) lev) =
          if bitOf (mug had_w.1.key) lev < bitOf (mug add_w.1.key) lev then 1 else 0 := by
        rw [(extends_single _).rank_eq, rank_zero, Nat.zero_add]
      rw [hrank] at hadded
      by_cases hbefore : bitOf (mug had_w.1.key) lev < bitOf (mug add_w.1.key) lev
      · rw [if_pos hbefore] at hadded ⊢
        exact hadded
      · rw [if_neg hbefore] at hadded ⊢
        exact hadded

/-- A new entry in front of entries of other keys. -/
theorem holds_buck_cons {rest : List (Kev × Bool)} (hother : ∀ kov ∈ rest, kov.1.key ≠ kev.key)
    (key val : Noun) :
    Holds 0 (.buck ((kev, true) :: rest)) key val ↔
      if key = kev.key then val = kev.val else Holds 0 (.buck rest) key val := by
  simp only [Holds, cells, List.mem_cons, Prod.mk.injEq]
  by_cases hkey : key = kev.key
  · subst hkey
    rw [if_pos rfl]
    constructor
    · rintro ⟨warm, ⟨heq, _⟩ | hmem⟩
      · rw [← heq]
      · exact absurd rfl (hother _ hmem)
    · rintro rfl
      exact ⟨true, Or.inl ⟨rfl, rfl⟩⟩
  · have hne : kev ≠ ⟨key, val⟩ := by
      rintro rfl
      exact hkey rfl
    simp [hkey, hne.symm]

/-- Adding to a bucket. -/
theorem Added.buck {sot_w : List (Kev × Bool)} (hok : Ok mug 0 pre (.buck sot_w))
    (hpre : (mug kev.key : ℕ) = pre) :
    Added mug 0 pre kev (.buck sot_w) (.buck (chBuckAdd kev sot_w).1) (chBuckAdd kev sot_w).2 := by
  obtain ⟨hlength, hnodup, hmugs⟩ := hok
  cases hfind : sot_w.findIdx? fun kov ↦ kev.key = kov.1.key with
  | none =>
    have hadd : chBuckAdd kev sot_w = ((kev, true) :: sot_w, 1) := by
      rw [chBuckAdd, hfind]
    have hnot : ∀ kov ∈ sot_w, ¬ kev.key = kov.1.key := by
      simpa using List.findIdx?_eq_none_iff.mp hfind
    rw [hadd]
    refine ⟨⟨?_, ?_, ?_⟩, fun key val ↦ ?_, rfl⟩
    · simp only [List.length_cons]
      omega
    · refine List.nodup_cons.mpr ⟨fun hmem ↦ ?_, hnodup⟩
      obtain ⟨kov, hkov, hkey⟩ := List.mem_map.mp hmem
      exact hnot kov hkov hkey.symm
    · intro kov hmem
      rcases List.mem_cons.mp hmem with rfl | hmem
      · exact hpre
      · exact hmugs kov hmem
    · exact holds_buck_cons (fun kov hmem heq ↦ hnot kov hmem heq.symm) key val
  | some i_w =>
    have hadd : chBuckAdd kev sot_w = (sot_w.set i_w (kev, true), 0) := by
      rw [chBuckAdd, hfind]
    obtain ⟨hlt, hkov, _⟩ := List.findIdx?_eq_some_iff_getElem.mp hfind
    have hkov : kev.key = sot_w[i_w].1.key := by simpa using hkov
    obtain ⟨before, after, hsplit, hset, _⟩ := exists_split (List.getElem?_eq_getElem hlt)
    have hperm : (sot_w.set i_w (kev, true)).Perm ((kev, true) :: (before ++ after)) :=
      hset _ ▸ List.perm_middle
    have hperm' : sot_w.Perm (sot_w[i_w] :: (before ++ after)) := by
      nth_rewrite 1 [hsplit]
      exact List.perm_middle
    have hnodup' := (hperm'.map fun kov ↦ kov.1.key).nodup_iff.mp hnodup
    have hother : ∀ kov ∈ before ++ after, kov.1.key ≠ kev.key := by
      intro kov hmem heq
      exact (List.nodup_cons.mp hnodup').1 (List.mem_map.mpr ⟨kov, hmem, heq.trans hkov⟩)
    rw [hadd]
    refine ⟨⟨by simpa using hlength, ?_, ?_⟩, fun key val ↦ ?_, by simp [cells]⟩
    · refine (hperm.map fun kov ↦ kov.1.key).nodup_iff.mpr ?_
      rw [List.map_cons] at hnodup' ⊢
      rw [hkov]
      exact hnodup'
    · intro kov hmem
      rcases List.mem_cons.mp (hperm.mem_iff.mp hmem) with rfl | hmem
      · exact hpre
      · exact hmugs kov (hperm'.mem_iff.mpr (List.mem_cons_of_mem _ hmem))
    · have hholds : Holds 0 (.buck (sot_w.set i_w (kev, true))) key val ↔
          Holds 0 (.buck ((kev, true) :: (before ++ after))) key val :=
        exists_congr fun warm ↦ hperm.mem_iff
      rw [hholds, holds_buck_cons hother]
      by_cases hkey : key = kev.key
      · rw [if_pos hkey, if_pos hkey]
      · rw [if_neg hkey, if_neg hkey]
        refine exists_congr fun warm ↦ ?_
        have hne : (⟨key, val⟩, warm) ≠ sot_w[i_w] := fun heq ↦
          hkey (hkov ▸ congrArg (fun kov ↦ kov.1.key) heq)
        change _ ↔ (_ : Kev × Bool) ∈ sot_w
        rw [hperm'.mem_iff, List.mem_cons]
        exact (or_iff_right hne).symm

/-- Putting an entry in a slot that has a key-value cell. -/
theorem Added.noun {kov : Kev} (hkov : (mug kov.key : ℕ) / 2 ^ (5 * lev) = pre)
    (hkev : (mug kev.key : ℕ) / 2 ^ (5 * lev) = pre) :
    Added mug lev pre kev (.noun kov warm)
      (chSlotPut mug kev lev ((mug kev.key : ℕ) % 2 ^ (5 * lev)) (.noun kov warm)).1
      (chSlotPut mug kev lev ((mug kev.key : ℕ) % 2 ^ (5 * lev)) (.noun kov warm)).2 := by
  have hput : chSlotPut mug kev lev ((mug kev.key : ℕ) % 2 ^ (5 * lev)) (.noun kov warm) =
      if kev.key = kov.key then (.noun kev true, 0)
      else (chTwo (kov, warm) (kev, true) lev (cutEnd (mug kov.key) (5 * lev))
        ((mug kev.key : ℕ) % 2 ^ (5 * lev)), 1) := by
    cases lev <;> rfl
  rw [hput, cutEnd_eq]
  by_cases hkey : kev.key = kov.key
  · rw [if_pos hkey]
    refine ⟨ok_noun.mpr hkev, fun key val ↦ ?_, by simp⟩
    obtain ⟨key', val'⟩ := kev
    obtain ⟨key'', val''⟩ := kov
    subst hkey
    by_cases heq : key = key'
    · simp [holds_noun, heq, eq_comm]
    · simp [holds_noun, heq, Ne.symm heq]
  · rw [if_neg hkey]
    have hperm := cells_chTwo (kov, warm) (kev, true) lev ((mug kov.key : ℕ) % 2 ^ (5 * lev))
      ((mug kev.key : ℕ) % 2 ^ (5 * lev))
    refine ⟨ok_chTwo (Ne.symm hkey) hkov hkev, fun key val ↦ ?_, by simp [hperm.length_eq]⟩
    have hother : ∀ kov' ∈ [(kov, warm)], kov'.1.key ≠ kev.key := by
      simpa using Ne.symm hkey
    have hholds : Holds lev (chTwo (kov, warm) (kev, true) lev
        ((mug kov.key : ℕ) % 2 ^ (5 * lev)) ((mug kev.key : ℕ) % 2 ^ (5 * lev))) key val ↔
        Holds 0 (.buck [(kev, true), (kov, warm)]) key val :=
      exists_congr fun warm' ↦ hperm.mem_iff
    rw [hholds, holds_buck_cons hother]
    simp [Holds, cells]

theorem added_chSlotPut {sot_w : Slot} (hok : Ok mug lev pre sot_w)
    (hpre : (mug kev.key : ℕ) / 2 ^ (5 * lev) = pre) :
    Added mug lev pre kev sot_w
      (chSlotPut mug kev lev ((mug kev.key : ℕ) % 2 ^ (5 * lev)) sot_w).1
      (chSlotPut mug kev lev ((mug kev.key : ℕ) % 2 ^ (5 * lev)) sot_w).2 := by
  induction lev generalizing pre sot_w with
  | zero =>
    cases sot_w with
    | noun kov warm => exact Added.noun hok hpre
    | buck sots => exact Added.buck hok (by simpa using hpre)
    | node map_w sots => exact hok.elim
  | succ lev ih =>
    cases sot_w with
    | noun kov warm => exact Added.noun hok hpre
    | buck sots => exact hok.elim
    | node map_w sots =>
      obtain ⟨hlt, hrem, _⟩ := fragment (mug kev.key) lev
      simp only [chSlotPut, chNodeAdd, hrem, shiftRight_eq_bitOf,
        chPopcount_cutEnd map_w (bitOf_lt _ _)]
      by_cases hset : map_w.testBit (bitOf (mug kev.key) lev) = true
      · obtain ⟨old, hget, hindex⟩ := get_isSome hok.2.1 (bitOf_lt _ _) hset
        simp only [if_pos hset, hindex]
        exact Added.node_set hok hpre hget
          (ih (hok.2.2 _ (bitOf_lt _ _) old hget) (div_eq_bitOf hpre))
      · rw [if_neg hset]
        exact Added.node_insert kev true hok hpre hset

/-! ### Trimming keeps the invariant -/

/-- The number of warm entries. -/
def warmth (kevs : List (Kev × Bool)) : ℕ := kevs.countP fun kev ↦ kev.2

/-- What a turn of the clock does to the entries: it removes one of them, or it keeps them and may
cool some. -/
def Trims (ret : Bool) (kevs kovs : List (Kev × Bool)) : Prop :=
  if ret then ∃ kev, (kevs.map Prod.fst).Perm (kev :: kovs.map Prod.fst)
  else kovs.map Prod.fst = kevs.map Prod.fst ∧ warmth kovs ≤ warmth kevs

theorem Trims.refl (kevs : List (Kev × Bool)) : Trims false kevs kevs := ⟨rfl, Nat.le_refl _⟩

/-- The entries around a slot stay as they are. -/
theorem Trims.append {ret : Bool} {kevs kovs : List (Kev × Bool)} (htrims : Trims ret kevs kovs)
    (before after : List (Kev × Bool)) :
    Trims ret (before ++ (kevs ++ after)) (before ++ (kovs ++ after)) := by
  cases ret with
  | true =>
    obtain ⟨kev, hperm⟩ := htrims
    refine ⟨kev, ?_⟩
    simp only [List.map_append]
    calc (before.map Prod.fst ++ (kevs.map Prod.fst ++ after.map Prod.fst)).Perm
          (before.map Prod.fst ++ (kev :: kovs.map Prod.fst ++ after.map Prod.fst)) :=
        (hperm.append_right _).append_left _
      _ |>.Perm _ := List.perm_middle
  | false =>
    obtain ⟨hsame, hwarm⟩ := htrims
    refine ⟨by simp only [List.map_append, hsame], ?_⟩
    simp only [warmth, List.countP_append] at hwarm ⊢
    omega

/-- A bucket with one entry cooled. -/
theorem warmth_set {sot_w : List (Kev × Bool)} {inx_w : ℕ}
    (hwarm : sot_w[inx_w]? = some (kev, true)) :
    (sot_w.set inx_w (kev, false)).map Prod.fst = sot_w.map Prod.fst ∧
      warmth (sot_w.set inx_w (kev, false)) + 1 = warmth sot_w := by
  obtain ⟨before, after, hsplit, hset, _⟩ := exists_split hwarm
  rw [hset, hsplit]
  simp only [warmth, List.map_append, List.map_cons, List.countP_append, List.countP_cons]
  refine ⟨trivial, ?_⟩
  simp
  omega

theorem ok_buck_congr {sot_w tos_w : List (Kev × Bool)}
    (hsame : tos_w.map Prod.fst = sot_w.map Prod.fst) :
    Ok mug 0 pre (.buck tos_w) ↔ Ok mug 0 pre (.buck sot_w) := by
  have hlength : tos_w.length = sot_w.length := by simpa using congrArg List.length hsame
  have hkeys : tos_w.map (fun kev ↦ kev.1.key) = sot_w.map fun kev ↦ kev.1.key := by
    simpa [Function.comp_def] using congrArg (List.map Kev.key) hsame
  have hmem : ∀ sots : List (Kev × Bool), (∀ kev ∈ sots, (mug kev.1.key : ℕ) = pre) ↔
      ∀ key ∈ sots.map fun kev ↦ kev.1.key, (mug key : ℕ) = pre :=
    fun sots ↦ by rw [List.forall_mem_map]
  simp only [Ok, hmem, hlength, hkeys]

theorem chTrimBuck_spec (arm_u : Arm) (sot_w : List (Kev × Bool))
    (hok : Ok mug 0 pre (.buck sot_w)) :
    Ok mug 0 pre (chTrimBuck arm_u sot_w).2.2 ∧
      Trims (chTrimBuck arm_u sot_w).1 sot_w (cells 0 (chTrimBuck arm_u sot_w).2.2) ∧
      (arm_u.mug_w < 2 ^ 31 → (chTrimBuck arm_u sot_w).2.1.mug_w < 2 ^ 31) ∧
      ((chTrimBuck arm_u sot_w).1 = false → (chTrimBuck arm_u sot_w).2.1.inx_w = 0 ∧
        (arm_u.inx_w < sot_w.length →
          warmth (cells 0 (chTrimBuck arm_u sot_w).2.2) < warmth sot_w)) := by
  fun_induction chTrimBuck arm_u sot_w with
  | case1 arm_u sot_w hnone =>
    have hge : sot_w.length ≤ arm_u.inx_w := List.getElem?_eq_none_iff.mp hnone
    refine ⟨hok, Trims.refl _, fun _ ↦ ?_, fun _ ↦ ⟨rfl, fun hlt ↦ by omega⟩⟩
    exact Nat.lt_of_le_of_lt Nat.and_le_right (by decide)
  | case2 arm_u sot_w kev hwarm ih =>
    obtain ⟨hsame, hcount⟩ := warmth_set hwarm
    have hturn := ih ((ok_buck_congr hsame).mpr hok)
    generalize chTrimBuck { arm_u with inx_w := arm_u.inx_w + 1 }
      (sot_w.set arm_u.inx_w (kev, false)) = turn at hturn ⊢
    obtain ⟨ret, arm_u', tos_w⟩ := turn
    obtain ⟨hok', htrims, hmug, hcool⟩ := hturn
    cases ret with
    | true =>
      obtain ⟨kov, hperm⟩ := htrims
      exact ⟨hok', ⟨kov, hsame ▸ hperm⟩, hmug, by simp⟩
    | false =>
      obtain ⟨hsame', hwarmth⟩ := htrims
      have hlt : warmth (cells 0 tos_w) < warmth sot_w := by
        simp only at hwarmth
        omega
      exact ⟨hok', ⟨hsame'.trans hsame, Nat.le_of_lt hlt⟩, hmug,
        fun _ ↦ ⟨(hcool rfl).1, fun _ ↦ hlt⟩⟩
  | case3 arm_u sot_w kev hcold ken_w htwo kov warm hken =>
    obtain ⟨other, hother, hperm, _⟩ := exists_perm_pair htwo hcold
    obtain rfl : (kov, warm) = other := Option.some.inj (hken.symm.trans hother)
    refine ⟨?_, ⟨kev, by simpa using hperm.map Prod.fst⟩, id, by simp⟩
    rw [ok_noun, hok.2.2 _ (List.mem_of_getElem? hken)]
    simp
  | case4 arm_u sot_w kev hcold ken_w htwo hken =>
    obtain ⟨other, hother, _⟩ := exists_perm_pair htwo hcold
    exact absurd (hken.symm.trans hother) (by simp)
  | case5 arm_u sot_w kev hcold htwo =>
    obtain ⟨hlength, hnodup, hmugs⟩ := hok
    obtain ⟨before, after, hsplit, _, herase⟩ := exists_split hcold
    have hperm : sot_w.Perm ((kev, false) :: sot_w.eraseIdx arm_u.inx_w) := by
      rw [herase]
      nth_rewrite 1 [hsplit]
      exact List.perm_middle
    refine ⟨⟨?_, ?_, ?_⟩, ⟨kev, hperm.map Prod.fst⟩, id, by simp⟩
    · have hcount := hperm.length_eq
      rw [List.length_cons] at hcount
      omega
    · exact (List.nodup_cons.mp ((hperm.map fun kov ↦ kov.1.key).nodup_iff.mp hnodup)).2
    · intro kov hmem
      exact hmugs kov (hperm.mem_iff.mpr (List.mem_cons_of_mem _ hmem))

/-- Whether the slots on the way of a mug end in an entry or a bucket. -/
def reaches : ℕ → ℕ → Slot → Bool
  | _, _, .noun _ _ => true
  | 0, _, .buck _ => true
  | lev + 1, mug_w, .node map_w sot_w =>
    match Lib.Sparse.get map_w sot_w (bitOf mug_w lev) with
    | some tos_w => reaches lev mug_w tos_w
    | none => false
  | _, _, _ => false

/-- The turn of the clock on a node goes on to the slot at the position of the mug, if it is
occupied. -/
theorem chTrimSlot_node (hlength : sot_w.length = chPopcount map_w) (arm_u : Arm) (lev mug_w : ℕ) :
    chTrimSlot arm_u (lev + 1) (mug_w % 2 ^ (5 * (lev + 1))) (.node map_w sot_w) =
      match Lib.Sparse.get map_w sot_w (bitOf mug_w lev) with
      | none => (false, { arm_u with mug_w := chSkipSlot arm_u.mug_w (5 * lev) },
          some (.node map_w sot_w))
      | some tos_w =>
        match chTrimSlot arm_u lev (mug_w % 2 ^ (5 * lev)) tos_w with
        | (ret, arm_u, some tos_w) =>
          (ret, arm_u, some (.node map_w (sot_w.set (rank map_w (bitOf mug_w lev)) tos_w)))
        | (ret, arm_u, none) => (ret, arm_u, some
            (chShrink map_w (bitOf mug_w lev) (rank map_w (bitOf mug_w lev)) sot_w)) := by
  obtain ⟨_, hrem, _⟩ := fragment mug_w lev
  simp only [chTrimSlot, chTrimNode, hrem, shiftRight_eq_bitOf,
    chPopcount_cutEnd map_w (bitOf_lt _ _)]
  by_cases hset : map_w.testBit (bitOf mug_w lev) = true
  · obtain ⟨tos_w, hget, hindex⟩ := get_isSome hlength (bitOf_lt _ _) hset
    simp only [if_pos hset, hget, hindex]
    split <;> simp_all
  · simp only [if_neg hset, get_of_not_testBit hset]

/-- Clearing a position of a node. -/
theorem Ok.node_erase (hok : Ok mug (lev + 1) pre (.node map_w sot_w)) (hbit : bit_w < 32)
    (hold : Lib.Sparse.get map_w sot_w bit_w = some old) :
    Ok mug (lev + 1) pre (.node (map_w &&& (0xFFFFFFFF ^^^ (1 <<< bit_w)))
      (sot_w.eraseIdx (rank map_w bit_w))) := by
  obtain ⟨hset, hindex⟩ := get_eq_some_iff.mp hold
  have hext : Extends (map_w &&& (0xFFFFFFFF ^^^ (1 <<< bit_w))) map_w bit_w :=
    extends_clear hset hok.1
  refine ⟨Nat.lt_of_le_of_lt Nat.and_le_left hok.1, ?_, fun bit hbit' tos_w hget ↦ ?_⟩
  · have hlt := (List.getElem?_eq_some_iff.mp hindex).1
    have hrank := hext.rank_eq 32
    rw [if_pos hbit] at hrank
    rw [List.length_eraseIdx_of_lt hlt, hok.2.1, chPopcount, chPopcount, hrank]
    rfl
  · rw [get_eraseIdx hext] at hget
    split_ifs at hget
    exact hok.2.2 bit hbit' tos_w hget

theorem Ok.chShrink (hok : Ok mug (lev + 1) pre (.node map_w sot_w)) (hbit : bit_w < 32)
    (hold : Lib.Sparse.get map_w sot_w bit_w = some old) :
    Ok mug (lev + 1) pre (chShrink map_w bit_w (rank map_w bit_w) sot_w) ∧
      cells (lev + 1) (Hashtable.chShrink map_w bit_w (rank map_w bit_w) sot_w) =
        (sot_w.eraseIdx (rank map_w bit_w)).flatMap fun tos_w ↦ cells lev tos_w := by
  have herase := hok.node_erase hbit hold
  unfold Hashtable.chShrink
  by_cases htwo : chPopcount map_w = 2
  · obtain ⟨other, hother, _, hrest⟩ := exists_perm_pair (hok.2.1.trans htwo)
      (get_eq_some_iff.mp hold).2
    simp only [if_pos htwo, hother]
    cases other with
    | noun kov warm =>
      have hmem := List.mem_of_getElem? hother
      obtain ⟨bit, hbit', hget⟩ := exists_get_of_mem hok.2.1 hmem
      have hdiv := ok_noun.mp (hok.2.2 bit hbit' _ hget)
      refine ⟨ok_noun.mpr ?_, ?_⟩
      · rw [div_succ, hdiv]
        omega
      · simp [hrest]
    | node map_w' sots => exact ⟨herase, rfl⟩
    | buck sots => exact ⟨herase, rfl⟩
  · simp only [if_neg htwo]
    exact ⟨herase, rfl⟩

/-- What a turn of the clock at a mug does below a slot: the slot stays in order, an entry is
removed or all are kept, and at a mug that reaches an entry either an entry is removed, or one is
cooled, or the index into a bucket is reset. -/
structure Turned (mug : Noun → Fin (2 ^ 31)) (lev pre mug_w : ℕ) (arm_u : Arm) (sot_w : Slot)
    (turn : Bool × Arm × Option Slot) : Prop where
  ok : ∀ tos_w, turn.2.2 = some tos_w → Ok mug lev pre tos_w
  trims : Trims turn.1 (cells lev sot_w) (cellsOf lev turn.2.2)
  arm : arm_u.mug_w < 2 ^ 31 → turn.2.1.mug_w < 2 ^ 31
  cools : turn.1 = false → reaches lev mug_w sot_w = true →
    warmth (cellsOf lev turn.2.2) < warmth (cells lev sot_w) ∨
      arm_u.inx_w ≠ 0 ∧ turn.2.1.inx_w = 0

theorem chSkipSlot_lt (mug_w : ℕ) (hle : lef_w ≤ 31) : chSkipSlot mug_w lef_w < 2 ^ 31 := by
  have hpow : 2 ^ 31 = 2 ^ (31 - lef_w) * 2 ^ lef_w := by
    rw [← Nat.pow_add]
    congr 1
    omega
  rw [chSkipSlot, cutEnd_eq, Nat.shiftLeft_eq, hpow]
  exact Nat.mul_lt_mul_of_pos_right (Nat.mod_lt _ (Nat.two_pow_pos _)) (Nat.two_pow_pos _)

/-- The turn of the clock on a key-value cell. -/
theorem turned_noun (hlev : lev ≤ 5) (mug_w : ℕ) (arm_u : Arm)
    (hok : Ok mug lev pre (.noun kev warm)) (rem_w : ℕ) :
    Turned mug lev pre mug_w arm_u (.noun kev warm)
      (chTrimSlot arm_u lev rem_w (.noun kev warm)) := by
  have hturn : chTrimSlot arm_u lev rem_w (.noun kev warm) =
      if warm then (false, { arm_u with mug_w := chSkipSlot arm_u.mug_w (5 * lev) },
        some (.noun kev false))
      else (true, { arm_u with mug_w := chSkipSlot arm_u.mug_w (5 * lev) }, none) := by
    cases lev <;> rfl
  have hskip := chSkipSlot_lt arm_u.mug_w (show 5 * lev ≤ 31 by omega)
  rw [hturn]
  cases warm with
  | true =>
    refine ⟨?_, ?_, fun _ ↦ hskip, fun _ _ ↦ Or.inl ?_⟩
    · intro tos_w htos
      obtain rfl := Option.some.inj htos
      exact ok_noun.mpr (ok_noun.mp hok)
    · simp [Trims, cellsOf, warmth]
    · simp [cellsOf, warmth]
  | false =>
    refine ⟨by simp, ?_, fun _ ↦ hskip, by simp⟩
    exact ⟨kev, by simp [cellsOf]⟩

theorem Turned.node {pre' : ℕ} {arm_u : Arm} {sot_w tos_w : Slot} {turn : Bool × Arm × Option Slot}
    {before after : List (Kev × Bool)} (hturn : Turned mug lev pre' mug_w arm_u old turn)
    (hcells : cells (lev + 1) sot_w = before ++ (cells lev old ++ after))
    (hreach : reaches (lev + 1) mug_w sot_w = reaches lev mug_w old)
    (hok : Ok mug (lev + 1) pre tos_w)
    (hcells' : cells (lev + 1) tos_w = before ++ (cellsOf lev turn.2.2 ++ after)) :
    Turned mug (lev + 1) pre mug_w arm_u sot_w (turn.1, turn.2.1, some tos_w) := by
  refine ⟨?_, ?_, hturn.arm, fun hret hreaches ↦ ?_⟩
  · intro tos_w' htos
    obtain rfl := Option.some.inj htos
    exact hok
  · simp only [cellsOf, hcells, hcells']
    exact hturn.trims.append before after
  · rcases hturn.cools hret (hreach ▸ hreaches) with hcool | hreset
    · refine Or.inl ?_
      simp only [cellsOf, hcells, hcells', warmth, List.countP_append] at hcool ⊢
      omega
    · exact Or.inr hreset

/-- The turn of the clock on a slot. -/
theorem turned_chTrimSlot (hlev : lev ≤ 5) (mug_w : ℕ) (arm_u : Arm) {sot_w : Slot}
    (hok : Ok mug lev pre sot_w) :
    Turned mug lev pre mug_w arm_u sot_w
      (chTrimSlot arm_u lev (mug_w % 2 ^ (5 * lev)) sot_w) := by
  induction lev generalizing pre sot_w with
  | zero =>
    cases sot_w with
    | noun kev warm => exact turned_noun hlev mug_w arm_u hok _
    | node map_w sots => exact hok.elim
    | buck sots =>
      obtain ⟨hok', htrims, harm, hcool⟩ := chTrimBuck_spec arm_u sots hok
      refine ⟨?_, htrims, harm, fun hret _ ↦ ?_⟩
      · intro tos_w htos
        obtain rfl := Option.some.inj htos
        exact hok'
      · obtain ⟨hreset, hwarm⟩ := hcool hret
        by_cases hlt : arm_u.inx_w < sots.length
        · exact Or.inl (hwarm hlt)
        · have hlength := hok.1
          exact Or.inr ⟨by omega, hreset⟩
  | succ lev ih =>
    cases sot_w with
    | noun kev warm => exact turned_noun hlev mug_w arm_u hok _
    | buck sots => exact hok.elim
    | node map_w sots =>
      rw [chTrimSlot_node hok.2.1]
      cases hget : Lib.Sparse.get map_w sots (bitOf mug_w lev) with
      | none =>
        refine ⟨?_, Trims.refl _, fun _ ↦ chSkipSlot_lt _ (by omega), fun _ hreach ↦ ?_⟩
        · intro tos_w htos
          obtain rfl := Option.some.inj htos
          exact hok
        · simp [reaches, hget] at hreach
      | some old =>
        have hturn := ih (by omega) (hok.2.2 _ (bitOf_lt _ _) old hget)
        have hindex := (get_eq_some_iff.mp hget).2
        obtain ⟨before, after, hsplit, hset, herase⟩ := exists_split hindex
        have hcells : cells (lev + 1) (.node map_w sots) =
            before.flatMap (fun tos_w ↦ cells lev tos_w) ++
              (cells lev old ++ after.flatMap fun tos_w ↦ cells lev tos_w) := by
          rw [cells, hsplit, List.flatMap_append, List.flatMap_cons]
        have hreach : reaches (lev + 1) mug_w (.node map_w sots) = reaches lev mug_w old := by
          simp [reaches, hget]
        dsimp only
        generalize chTrimSlot arm_u lev (mug_w % 2 ^ (5 * lev)) old = turn at hturn ⊢
        obtain ⟨ret, arm_u', tos_w⟩ := turn
        cases tos_w with
        | some tos_w =>
          have hok' := (hok.node_update hok.1 (by rw [List.length_set]; exact hok.2.1)
            (get_set hget) (hturn.ok tos_w rfl)).1
          refine hturn.node hcells hreach hok' ?_
          rw [cells, hset, List.flatMap_append, List.flatMap_cons]
          rfl
        | none =>
          obtain ⟨hok', hcells'⟩ := hok.chShrink (bitOf_lt _ _) hget
          refine hturn.node hcells hreach hok' ?_
          rw [hcells', herase, List.flatMap_append]
          rfl

/-- An entry is reached at the mug of its key. -/
theorem Ok.reaches_of_mem {sot_w : Slot} (hok : Ok mug lev pre sot_w) {kev : Kev × Bool}
    (hmem : kev ∈ cells lev sot_w) : reaches lev (mug kev.1.key) sot_w = true := by
  induction lev generalizing pre sot_w with
  | zero =>
    cases sot_w with
    | noun kov warm => rfl
    | buck sots => rfl
    | node map_w sots => exact hok.elim
  | succ lev ih =>
    cases sot_w with
    | noun kov warm => rfl
    | buck sots => exact hok.elim
    | node map_w sots =>
      obtain ⟨tos_w, hget, hmem'⟩ := (hok.mem_node (hok.div_eq hmem)).mp hmem
      simp only [reaches, hget]
      exact ih (hok.2.2 _ (bitOf_lt _ _) tos_w hget) hmem'

/-- At a mug that reaches nothing, the turn of the clock only moves the arm past a prefix of the
mug, and no mug with that prefix reaches anything. -/
theorem chTrimSlot_of_not_reaches {sot_w : Slot} (hok : Ok mug lev pre sot_w) (arm_u : Arm)
    (hreach : reaches lev mug_w sot_w = false) :
    ∃ lef_w ≤ 5 * lev, chTrimSlot arm_u lev (mug_w % 2 ^ (5 * lev)) sot_w =
        (false, { arm_u with mug_w := chSkipSlot arm_u.mug_w lef_w }, some sot_w) ∧
      ∀ mug_w', mug_w' / 2 ^ lef_w = mug_w / 2 ^ lef_w → reaches lev mug_w' sot_w = false := by
  induction lev generalizing pre sot_w with
  | zero =>
    cases sot_w with
    | noun kov warm => simp [reaches] at hreach
    | buck sots => simp [reaches] at hreach
    | node map_w sots => exact hok.elim
  | succ lev ih =>
    cases sot_w with
    | noun kov warm => simp [reaches] at hreach
    | buck sots => exact hok.elim
    | node map_w sots =>
      rw [chTrimSlot_node hok.2.1]
      cases hget : Lib.Sparse.get map_w sots (bitOf mug_w lev) with
      | none =>
        refine ⟨5 * lev, by omega, rfl, fun mug_w' heq ↦ ?_⟩
        simp only [reaches, bitOf_congr (Nat.le_refl _) heq, hget]
      | some old =>
        simp only [reaches, hget] at hreach
        obtain ⟨lef_w, hle, hturn, hall⟩ := ih (hok.2.2 _ (bitOf_lt _ _) old hget) hreach
        refine ⟨lef_w, by omega, ?_, fun mug_w' heq ↦ ?_⟩
        · have hsame : sots.set (rank map_w (bitOf mug_w lev)) old = sots := by
            obtain ⟨hlt, hold⟩ := List.getElem?_eq_some_iff.mp (get_eq_some_iff.mp hget).2
            rw [← hold, List.set_getElem_self]
          simp only [hturn, hsame]
        · simp only [reaches, bitOf_congr hle heq, hget]
          exact hall mug_w' heq

end Slots

/-! ### Tables -/

section Tables

variable {mug} {har_u : Root}

/-- A table holds a key and its value. -/
def RootHolds (har_u : Root) (key val : Noun) : Prop := ∃ warm, (⟨key, val⟩, warm) ∈ walk har_u

/-- The entries of a table around those of one root slot. -/
theorem exists_walk_split (har_u : Root) (inx_w : Fin 64) : ∃ before after,
    walk har_u = before ++ (cellsOf 5 (har_u.sot_w inx_w) ++ after) ∧
      ∀ max_w use_w arm_u sot_w,
        walk ⟨max_w, use_w, arm_u, Function.update har_u.sot_w inx_w sot_w⟩ =
          before ++ (cellsOf 5 sot_w ++ after) := by
  obtain ⟨low, high, hrange⟩ := List.append_of_mem (List.mem_finRange inx_w)
  have hnodup := List.nodup_finRange 64
  rw [hrange, List.nodup_middle, List.nodup_cons, List.mem_append, not_or] at hnodup
  obtain ⟨⟨hlow, hhigh⟩, _⟩ := hnodup
  have hsame : ∀ (range : List (Fin 64)) sot_w, ¬ inx_w ∈ range →
      range.flatMap (fun inx ↦ cellsOf 5 (Function.update har_u.sot_w inx_w sot_w inx)) =
        range.flatMap fun inx ↦ cellsOf 5 (har_u.sot_w inx) := by
    intro range sot_w hnot
    refine List.flatMap_congr fun inx hinx ↦ ?_
    rw [Function.update_of_ne (fun heq : inx = inx_w ↦ hnot (heq ▸ hinx))]
  refine ⟨low.flatMap fun inx ↦ cellsOf 5 (har_u.sot_w inx),
    high.flatMap fun inx ↦ cellsOf 5 (har_u.sot_w inx), ?_, fun max_w use_w arm_u sot_w ↦ ?_⟩
  · rw [walk, hrange, List.flatMap_append, List.flatMap_cons]
  · simp only [walk, hrange, List.flatMap_append, List.flatMap_cons, hsame _ _ hlow,
      hsame _ _ hhigh, Function.update_self]

variable {har_u' : Root}

theorem walk_congr (hsame : har_u'.sot_w = har_u.sot_w) : walk har_u' = walk har_u := by
  rw [walk, walk, hsame]

theorem mem_walk {kev : Kev × Bool} : kev ∈ walk har_u ↔
    ∃ inx_w sot_w, har_u.sot_w inx_w = some sot_w ∧ kev ∈ cells 5 sot_w := by
  simp only [walk, List.mem_flatMap, List.mem_finRange, true_and]
  refine exists_congr fun inx_w ↦ ?_
  cases har_u.sot_w inx_w with
  | none => simp [cellsOf]
  | some sot_w => simp [cellsOf]

theorem rootIndex_val (hlt : mug_w < 2 ^ 31) : (rootIndex mug_w : ℕ) = mug_w / 2 ^ (5 * 5) := by
  have hdiv : mug_w / 2 ^ 25 < 64 := by omega
  simp only [rootIndex, Fin.val_ofNat, Nat.shiftRight_eq_div_pow]
  exact Nat.mod_eq_of_lt hdiv

/-- What a table holds for a key is what the root slot of its mug holds. -/
theorem RootOk.holds_iff (hok : RootOk mug har_u) :
    RootHolds har_u key val ↔
      ∃ sot_w, har_u.sot_w (rootIndex (mug key)) = some sot_w ∧ Holds 5 sot_w key val := by
  constructor
  · rintro ⟨warm, hmem⟩
    obtain ⟨inx_w, sot_w, hslot, hmem⟩ := mem_walk.mp hmem
    have hinx : inx_w = rootIndex (mug key) := by
      apply Fin.ext
      rw [rootIndex_val (mug key).isLt]
      exact ((hok.slot inx_w sot_w hslot).div_eq hmem).symm
    exact ⟨sot_w, hinx ▸ hslot, warm, hmem⟩
  · rintro ⟨sot_w, hslot, warm, hmem⟩
    exact ⟨warm, mem_walk.mpr ⟨_, sot_w, hslot, hmem⟩⟩

theorem RootOk.nodup (hok : RootOk mug har_u) :
    ((walk har_u).map fun kev ↦ kev.1.key).Nodup := by
  rw [walk, List.map_flatMap, List.nodup_flatMap]
  constructor
  · intro inx_w _
    cases hslot : har_u.sot_w inx_w with
    | none => simp [cellsOf]
    | some sot_w => exact (hok.slot inx_w sot_w hslot).nodup
  · refine (List.nodup_finRange 64).imp fun {inx inx'} hne key hmem hmem' ↦ ?_
    obtain ⟨kev, hkev, rfl⟩ := List.mem_map.mp hmem
    obtain ⟨kev', hkev', hkey⟩ := List.mem_map.mp hmem'
    have hinx : ∀ inx (kev : Kev × Bool), kev ∈ cellsOf 5 (har_u.sot_w inx) →
        (inx : ℕ) = (mug kev.1.key : ℕ) / 2 ^ (5 * 5) := by
      intro inx kev hkev
      cases hslot : har_u.sot_w inx with
      | none => simp [hslot, cellsOf] at hkev
      | some sot_w =>
        rw [hslot] at hkev
        exact ((hok.slot inx sot_w hslot).div_eq hkev).symm
    exact hne (Fin.ext ((hinx inx kev hkev).trans (hkey ▸ (hinx inx' kev' hkev').symm)))

theorem RootOk.move (hok : RootOk mug har_u) (hsame : har_u'.sot_w = har_u.sot_w)
    (huse : har_u'.use_w = har_u.use_w) (harm : har_u'.arm_u.mug_w < 2 ^ 31) :
    RootOk mug har_u' := by
  refine ⟨?_, ?_, harm⟩
  · rw [hsame]
    exact hok.slot
  · rw [huse, walk_congr hsame]
    exact hok.use

theorem RootOk.update (hok : RootOk mug har_u) {inx_w : Fin 64} {sot_w : Option Slot} {use_w : ℕ}
    {arm_u : Arm} (hslot : ∀ tos_w, sot_w = some tos_w → Ok mug 5 inx_w tos_w)
    (hcount : use_w + (cellsOf 5 (har_u.sot_w inx_w)).length =
      har_u.use_w + (cellsOf 5 sot_w).length)
    (harm : arm_u.mug_w < 2 ^ 31) :
    RootOk mug ⟨har_u.max_w, use_w, arm_u, Function.update har_u.sot_w inx_w sot_w⟩ := by
  refine ⟨fun inx tos_w hinx ↦ ?_, ?_, harm⟩
  · by_cases heq : inx = inx_w
    · subst heq
      simp only [Function.update_self] at hinx
      exact hslot tos_w hinx
    · simp only [Function.update_of_ne heq] at hinx
      exact hok.slot inx tos_w hinx
  · obtain ⟨before, after, hwalk, hwalk'⟩ := exists_walk_split har_u inx_w
    have huse := hok.use
    rw [hwalk] at huse
    simp only [hwalk', List.length_append] at huse ⊢
    omega

theorem RootOk.git_eq_some (hok : RootOk mug har_u) :
    (git mug har_u key).1 = some val ↔ RootHolds har_u key val := by
  rw [hok.holds_iff]
  cases hslot : har_u.sot_w (rootIndex (mug key)) with
  | none => simp [git, hslot]
  | some sot_w =>
    have hsok := hok.slot _ _ hslot
    have hread : slotGit key 5 ((mug key : ℕ) % 2 ^ (5 * 5)) sot_w = some val ↔
        Holds 5 sot_w key val :=
      slotGit_eq_some hsok (rootIndex_val (mug key).isLt).symm
    have hgit : (git mug har_u key).1 = slotGit key 5 ((mug key : ℕ) % 2 ^ (5 * 5)) sot_w := by
      cases sot_w with
      | noun kev warm =>
        simp only [git, hslot, slotGit]
        split_ifs <;> rfl
      | node map_w sots => simp only [git, hslot, slotGit, cutEnd_eq]
      | buck sots => exact hsok.elim
    rw [hgit, hread]
    simp

theorem RootOk.git (hok : RootOk mug har_u) (key : Noun) :
    RootOk mug (git mug har_u key).2 ∧ (git mug har_u key).2.max_w = har_u.max_w ∧
      (walk (Hashtable.git mug har_u key).2).map Prod.fst = (walk har_u).map Prod.fst := by
  have hkept : RootOk mug har_u ∧ har_u.max_w = har_u.max_w ∧
      (walk har_u).map Prod.fst = (walk har_u).map Prod.fst := ⟨hok, rfl, rfl⟩
  cases hslot : har_u.sot_w (rootIndex (mug key)) with
  | none => simpa only [Hashtable.git, hslot] using hkept
  | some sot_w =>
    cases sot_w with
    | noun kev warm =>
      simp only [Hashtable.git, hslot]
      split_ifs with hkey
      · obtain ⟨before, after, hwalk, hwalk'⟩ := exists_walk_split har_u (rootIndex (mug key))
        refine ⟨hok.update ?_ (by simp [hslot, cellsOf]) hok.arm, rfl, ?_⟩
        · intro tos_w htos
          obtain rfl := Option.some.inj htos
          exact ok_noun.mpr (ok_noun.mp (hok.slot _ _ hslot))
        · rw [hwalk', hwalk, hslot]
          simp [cellsOf]
      · exact hkept
    | node map_w sots => simpa only [Hashtable.git, hslot] using hkept
    | buck sots => simpa only [Hashtable.git, hslot] using hkept

theorem rootHolds_iff_mem_map :
    RootHolds har_u key val ↔ ⟨key, val⟩ ∈ (walk har_u).map Prod.fst := by
  simp [RootHolds]

theorem RootOk.put (hok : RootOk mug har_u) (hmax : har_u.max_w = 0) (key val : Noun) :
    ∃ har_u', (∀ fuel, put mug fuel har_u key val = some har_u') ∧ RootOk mug har_u' ∧
      har_u'.max_w = 0 ∧ ∀ key' val', RootHolds har_u' key' val' ↔
        if key' = key then val' = val else RootHolds har_u key' val' := by
  have hinx := (rootIndex_val (mug key).isLt).symm
  -- the root slot after the insertion, and the number of entries added
  obtain ⟨tos_w, use_w, hput, hok', hcount, hholds⟩ : ∃ tos_w use_w,
      (∀ fuel, Hashtable.put mug fuel har_u key val = some ⟨har_u.max_w, har_u.use_w + use_w,
        har_u.arm_u, Function.update har_u.sot_w (rootIndex (mug key)) (some tos_w)⟩) ∧
      Ok mug 5 (rootIndex (mug key)) tos_w ∧
      (cells 5 tos_w).length = (cellsOf 5 (har_u.sot_w (rootIndex (mug key)))).length + use_w ∧
      ∀ key' val', Holds 5 tos_w key' val' ↔ if key' = key then val' = val else
        ∃ sot_w, har_u.sot_w (rootIndex (mug key)) = some sot_w ∧ Holds 5 sot_w key' val' := by
    cases hslot : har_u.sot_w (rootIndex (mug key)) with
    | none =>
      refine ⟨.noun ⟨key, val⟩ true, 1, ?_, ok_noun.mpr hinx, by simp [cellsOf], ?_⟩
      · simp [Hashtable.put, hslot, hmax]
      · intro key' val'
        rw [holds_noun]
        by_cases hkey : key' = key
        · simp [hkey, eq_comm]
        · simp [hkey, Ne.symm hkey]
    | some sot_w =>
      have hadded : Added mug 5 (rootIndex (mug key)) ⟨key, val⟩ sot_w _ _ :=
        added_chSlotPut (hok.slot _ _ hslot) hinx
      refine ⟨_, _, ?_, hadded.ok, hadded.count, fun key' val' ↦ ?_⟩
      · simp [Hashtable.put, hslot, hmax, cutEnd_eq]
      · rw [hadded.holds]
        simp
  have hok'' : RootOk mug ⟨har_u.max_w, har_u.use_w + use_w, har_u.arm_u,
      Function.update har_u.sot_w (rootIndex (mug key)) (some tos_w)⟩ := by
    refine hok.update (fun _ htos ↦ Option.some.inj htos ▸ hok') ?_ hok.arm
    simp only [cellsOf, hcount]
    omega
  refine ⟨_, hput, hok'', hmax, fun key' val' ↦ ?_⟩
  rw [hok''.holds_iff, hok.holds_iff]
  by_cases hsame : rootIndex (mug key') = rootIndex (mug key)
  · simp [hsame, hholds]
  · have hne : key' ≠ key := fun heq ↦ hsame (by rw [heq])
    simp [Function.update_of_ne hsame, hne]

/-- Whether the slots on the way of a mug end in an entry or a bucket. -/
def rootReaches (har_u : Root) (mug_w : ℕ) : Bool :=
  match har_u.sot_w (rootIndex mug_w) with
  | none => false
  | some sot_w => reaches 5 mug_w sot_w

/-- The table after a turn of the clock, with a removed entry discounted. -/
def afterTurn (turn : Bool × Root) : Root :=
  ⟨turn.2.max_w, if turn.1 then turn.2.use_w - 1 else turn.2.use_w, turn.2.arm_u, turn.2.sot_w⟩

theorem trimTo_succ (n_w fuel : ℕ) (har_u : Root) :
    trimTo n_w (fuel + 1) har_u =
      if n_w < har_u.use_w then trimTo n_w fuel (afterTurn (chTrimRoot har_u)) else some har_u := by
  rw [trimTo]
  cases hone : chTrimRoot har_u with
  | mk ret har_u₁ => cases ret <;> rfl

/-- A turn of the clock on a table. -/
structure RootTurned (mug : Noun → Fin (2 ^ 31)) (har_u : Root) (turn : Bool × Root) : Prop where
  ok : RootOk mug (afterTurn turn)
  use : turn.2.use_w = har_u.use_w
  max : turn.2.max_w = har_u.max_w
  trims : Trims turn.1 (walk har_u) (walk turn.2)
  cools : turn.1 = false → rootReaches har_u har_u.arm_u.mug_w = true →
    warmth (walk turn.2) < warmth (walk har_u) ∨
      har_u.arm_u.inx_w ≠ 0 ∧ turn.2.arm_u.inx_w = 0

theorem Trims.length_eq {ret : Bool} {kevs kovs : List (Kev × Bool)}
    (htrims : Trims ret kevs kovs) : kevs.length = kovs.length + if ret then 1 else 0 := by
  cases ret with
  | true =>
    obtain ⟨kev, hperm⟩ := htrims
    simpa using hperm.length_eq
  | false => simpa using (congrArg List.length htrims.1).symm

theorem RootOk.turned_chTrimRoot (hok : RootOk mug har_u) :
    RootTurned mug har_u (chTrimRoot har_u) := by
  cases hslot : har_u.sot_w (rootIndex har_u.arm_u.mug_w) with
  | none =>
    have hskip : chTrimRoot har_u = (false, { har_u with arm_u :=
        { har_u.arm_u with mug_w := chSkipSlot har_u.arm_u.mug_w 25 } }) := by
      simp only [chTrimRoot, hslot]
    have hwalk : walk (chTrimRoot har_u).2 = walk har_u := walk_congr (by rw [hskip])
    rw [hskip] at hwalk ⊢
    have hlt : chSkipSlot har_u.arm_u.mug_w 25 < 2 ^ 31 := chSkipSlot_lt _ (by decide)
    refine ⟨hok.move ?_ ?_ hlt, ?_, ?_, ?_, fun _ hreach ↦ ?_⟩
    · simp only [afterTurn]
    · simp [afterTurn]
    · simp only
    · simp only
    · rw [hwalk]
      exact Trims.refl _
    · simp [rootReaches, hslot] at hreach
  | some sot_w =>
    have hturn := turned_chTrimSlot (Nat.le_refl 5) har_u.arm_u.mug_w har_u.arm_u
      (hok.slot _ _ hslot)
    rw [← cutEnd_eq] at hturn
    simp only [chTrimRoot, hslot]
    generalize chTrimSlot har_u.arm_u 5 (cutEnd har_u.arm_u.mug_w 25) sot_w = turn at hturn ⊢
    obtain ⟨ret, arm_u, tos_w⟩ := turn
    obtain ⟨before, after, hwalk, hwalk'⟩ :=
      exists_walk_split har_u (rootIndex har_u.arm_u.mug_w)
    rw [hslot] at hwalk
    refine ⟨?_, rfl, rfl, ?_, fun hret hreach ↦ ?_⟩
    · have hlength := hturn.trims.length_eq
      have huse := hok.use
      rw [hwalk] at huse
      refine hok.update hturn.ok ?_ (hturn.arm hok.arm)
      rw [hslot]
      simp only [cellsOf, List.length_append] at hlength huse ⊢
      cases ret with
      | true =>
        simp only [if_true] at hlength ⊢
        omega
      | false =>
        simp only [if_false, Bool.false_eq_true] at hlength ⊢
        omega
    · rw [hwalk, hwalk']
      exact hturn.trims.append before after
    · have hreach' : reaches 5 har_u.arm_u.mug_w sot_w = true := by
        simpa [rootReaches, hslot] using hreach
      rcases hturn.cools hret hreach' with hcool | hreset
      · refine Or.inl ?_
        rw [hwalk, hwalk']
        simp only [cellsOf, warmth, List.countP_append] at hcool ⊢
        omega
      · exact Or.inr hreset

theorem rootIndex_congr {mug_w' : ℕ} (hle : lef_w ≤ 25)
    (hpre : mug_w' / 2 ^ lef_w = mug_w / 2 ^ lef_w) : rootIndex mug_w' = rootIndex mug_w := by
  have hdiv : ∀ mug_w, mug_w >>> 25 = mug_w / 2 ^ lef_w / 2 ^ (25 - lef_w) := by
    intro mug_w
    rw [Nat.shiftRight_eq_div_pow, Nat.div_div_eq_div_mul, ← Nat.pow_add,
      Nat.add_sub_cancel' hle]
  rw [rootIndex, rootIndex, hdiv, hdiv, hpre]

/-- At a mug that reaches nothing, the turn of the clock only moves the arm past a prefix of the
mug, and no mug with that prefix reaches anything. -/
theorem RootOk.chTrimRoot_of_not_reaches (hok : RootOk mug har_u)
    (hreach : rootReaches har_u har_u.arm_u.mug_w = false) :
    ∃ lef_w ≤ 25, chTrimRoot har_u = (false, { har_u with arm_u :=
        { har_u.arm_u with mug_w := chSkipSlot har_u.arm_u.mug_w lef_w } }) ∧
      ∀ mug_w', mug_w' / 2 ^ lef_w = har_u.arm_u.mug_w / 2 ^ lef_w →
        rootReaches har_u mug_w' = false := by
  cases hslot : har_u.sot_w (rootIndex har_u.arm_u.mug_w) with
  | none =>
    refine ⟨25, Nat.le_refl _, by simp [chTrimRoot, hslot], fun mug_w' heq ↦ ?_⟩
    simp [rootReaches, rootIndex_congr (Nat.le_refl 25) heq, hslot]
  | some sot_w =>
    have hreach' : reaches 5 har_u.arm_u.mug_w sot_w = false := by
      simpa [rootReaches, hslot] using hreach
    obtain ⟨lef_w, hle, hturn, hall⟩ :=
      chTrimSlot_of_not_reaches (hok.slot _ _ hslot) har_u.arm_u hreach'
    refine ⟨lef_w, hle, ?_, fun mug_w' heq ↦ ?_⟩
    · have hsame : Function.update har_u.sot_w (rootIndex har_u.arm_u.mug_w) (some sot_w) =
          har_u.sot_w := by
        rw [← hslot, Function.update_eq_self]
      simp only [chTrimRoot, hslot, cutEnd_eq, hturn, hsame]
    · simp only [rootReaches, rootIndex_congr hle heq, hslot]
      exact hall mug_w' heq

/-- Some mug reaches an entry of a table that is not empty. -/
theorem RootOk.exists_reaches (hok : RootOk mug har_u) (hpos : 0 < har_u.use_w) :
    ∃ mug_w < 2 ^ 31, rootReaches har_u mug_w = true := by
  rw [hok.use] at hpos
  obtain ⟨kev, hmem⟩ := List.exists_mem_of_length_pos hpos
  obtain ⟨inx_w, sot_w, hslot, hmem⟩ := mem_walk.mp hmem
  have hsok := hok.slot inx_w sot_w hslot
  have hinx : rootIndex (mug kev.1.key) = inx_w := by
    apply Fin.ext
    rw [rootIndex_val (mug kev.1.key).isLt]
    exact hsok.div_eq hmem
  refine ⟨mug kev.1.key, (mug kev.1.key).isLt, ?_⟩
  simp only [rootReaches, hinx, hslot]
  exact hsok.reaches_of_mem hmem

/-- Skipping a prefix brings the arm nearer to every mug without that prefix. -/
theorem exists_skip_dist {dis : ℕ} (hmug : mug_w < 2 ^ 31) (hle : lef_w ≤ 31)
    (hother : (mug_w + dis) % 2 ^ 31 / 2 ^ lef_w ≠ mug_w / 2 ^ lef_w) :
    ∃ dis' < dis, (chSkipSlot mug_w lef_w + dis') % 2 ^ 31 = (mug_w + dis) % 2 ^ 31 := by
  have hpow : 2 ^ 31 = 2 ^ (31 - lef_w) * 2 ^ lef_w := by
    rw [← Nat.pow_add, Nat.sub_add_cancel hle]
  have hpos : 0 < 2 ^ lef_w := Nat.two_pow_pos _
  obtain ⟨next, hnext⟩ : ∃ next, next = (mug_w / 2 ^ lef_w + 1) * 2 ^ lef_w := ⟨_, rfl⟩
  have hskip : chSkipSlot mug_w lef_w = next % 2 ^ 31 := by
    rw [chSkipSlot, cutEnd_eq, Nat.shiftRight_eq_div_pow, Nat.shiftLeft_eq, hnext, hpow,
      Nat.mul_mod_mul_right]
  have hlow : mug_w / 2 ^ lef_w * 2 ^ lef_w ≤ mug_w := Nat.div_mul_le_self _ _
  have hhigh : mug_w < next := by
    rw [hnext, Nat.mul_comm]
    exact Nat.lt_mul_div_succ mug_w hpos
  have hnextle : next ≤ 2 ^ 31 := by
    rw [hnext, hpow]
    refine Nat.mul_le_mul_right _ (Nat.div_lt_of_lt_mul ?_)
    rw [Nat.mul_comm, ← hpow]
    exact hmug
  -- the target is not before the end of the prefix
  have hfar : next - mug_w ≤ dis := by
    by_contra hnear
    refine hother ?_
    rw [Nat.mod_eq_of_lt (by omega)]
    refine Nat.div_eq_of_lt_le (by omega) ?_
    rw [← hnext]
    omega
  refine ⟨dis - (next - mug_w), by omega, ?_⟩
  rw [hskip, Nat.mod_add_mod]
  congr 1
  omega

/-- Some distance from the arm reaches an entry of a table over its bound. -/
theorem RootOk.exists_dist (hok : RootOk mug har_u) (n_w : ℕ) : ∃ dis,
    n_w < har_u.use_w → rootReaches har_u ((har_u.arm_u.mug_w + dis) % 2 ^ 31) = true := by
  by_cases hover : n_w < har_u.use_w
  · obtain ⟨mug_w, hmug, hreach⟩ := hok.exists_reaches (by omega)
    have harm := hok.arm
    refine ⟨mug_w + 2 ^ 31 - har_u.arm_u.mug_w, fun _ ↦ ?_⟩
    have hmod : (har_u.arm_u.mug_w + (mug_w + 2 ^ 31 - har_u.arm_u.mug_w)) % 2 ^ 31 = mug_w := by
      omega
    rw [hmod]
    exact hreach
  · exact ⟨0, fun hover' ↦ absurd hover' hover⟩

theorem Trims.rootHolds {ret : Bool} (htrims : Trims ret (walk har_u) (walk har_u'))
    (hholds : RootHolds har_u' key val) : RootHolds har_u key val := by
  rw [rootHolds_iff_mem_map] at hholds ⊢
  cases ret with
  | true =>
    obtain ⟨kev, hperm⟩ := htrims
    exact hperm.mem_iff.mpr (List.mem_cons_of_mem _ hholds)
  | false => exact htrims.1 ▸ hholds

theorem rootHolds_congr (hsame : har_u'.sot_w = har_u.sot_w) :
    RootHolds har_u' key val ↔ RootHolds har_u key val := by
  rw [RootHolds, RootHolds, walk_congr hsame]

/-- A turn at a mug that reaches an entry removes one, cools one, or resets the index. -/
theorem RootTurned.progress {turn : Bool × Root} (hturn : RootTurned mug har_u turn)
    (hpos : 0 < har_u.use_w) (hreach : rootReaches har_u har_u.arm_u.mug_w = true) :
    (afterTurn turn).use_w < har_u.use_w ∨ (afterTurn turn).use_w = har_u.use_w ∧
      (warmth (walk (afterTurn turn)) < warmth (walk har_u) ∨
        warmth (walk (afterTurn turn)) = warmth (walk har_u) ∧
          har_u.arm_u.inx_w ≠ 0 ∧ (afterTurn turn).arm_u.inx_w = 0) := by
  have hwalk : walk (afterTurn turn) = walk turn.2 := walk_congr (by rw [afterTurn])
  have huse := hturn.use
  rw [hwalk]
  obtain ⟨ret, har_u'⟩ := turn
  cases ret with
  | true =>
    refine Or.inl ?_
    simp only [afterTurn, if_true] at huse ⊢
    omega
  | false =>
    refine Or.inr ⟨huse, ?_⟩
    have hwarm := hturn.trims.2
    rcases hturn.cools rfl hreach with hcool | hreset
    · exact Or.inl hcool
    · rcases Nat.lt_or_eq_of_le hwarm with hlt | heq
      · exact Or.inl hlt
      · exact Or.inr ⟨heq, hreset⟩

/-- The induction for `u3h_trim_to`: the distance from the arm to a mug that reaches an entry bounds
the turns that change no entry. -/
theorem RootOk.trimTo_of_dist (n_w : ℕ) (har_u : Root) (hok : RootOk mug har_u) (dis : ℕ)
    (hdis : n_w < har_u.use_w → rootReaches har_u ((har_u.arm_u.mug_w + dis) % 2 ^ 31) = true) :
    ∃ har_u', Returns (fun fuel ↦ trimTo n_w fuel har_u) har_u' ∧ RootOk mug har_u' ∧
      har_u'.max_w = har_u.max_w ∧ har_u'.use_w = min har_u.use_w n_w ∧
      ∀ key val, RootHolds har_u' key val → RootHolds har_u key val := by
  by_cases hover : n_w < har_u.use_w
  · have hturn := hok.turned_chTrimRoot
    cases hreach : rootReaches har_u har_u.arm_u.mug_w with
    | false =>
      obtain ⟨lef_w, hle, heq, hall⟩ := hok.chTrimRoot_of_not_reaches hreach
      have hother : (har_u.arm_u.mug_w + dis) % 2 ^ 31 / 2 ^ lef_w ≠
          har_u.arm_u.mug_w / 2 ^ lef_w := fun hpre ↦
        Bool.false_ne_true ((hall _ hpre).symm.trans (hdis hover))
      obtain ⟨dis', hlt, hsame⟩ := exists_skip_dist hok.arm (by omega) hother
      rw [heq] at hturn
      obtain ⟨har_u', hret, hrest⟩ := trimTo_of_dist n_w _ hturn.ok dis' (fun _ ↦ by
        simp only [afterTurn, hsame]
        exact hdis hover)
      refine ⟨har_u', hret.of_succ fun fuel ↦ ?_, hrest⟩
      rw [trimTo_succ, if_pos hover, heq]
    | true =>
      obtain ⟨dis', hdis'⟩ := hturn.ok.exists_dist n_w
      obtain ⟨har_u', hret, hok', hmax, huse, hheld⟩ := trimTo_of_dist n_w _ hturn.ok dis' hdis'
      have huse' := hturn.use
      refine ⟨har_u', hret.of_succ fun fuel ↦ ?_, hok', hmax.trans hturn.max, ?_, ?_⟩
      · rw [trimTo_succ, if_pos hover]
      · simp only [huse, afterTurn, huse']
        split_ifs <;> omega
      · exact fun key val hholds ↦
          hturn.trims.rootHolds ((rootHolds_congr rfl).mp (hheld key val hholds))
  · refine ⟨har_u, ⟨1, fun fuel hfuel ↦ ?_⟩, hok, rfl, by omega, fun _ _ hholds ↦ hholds⟩
    obtain ⟨more, rfl⟩ : ∃ more, fuel = more + 1 := ⟨fuel - 1, by omega⟩
    simp only [trimTo_succ, if_neg hover]
termination_by (har_u.use_w, warmth (walk har_u), (if har_u.arm_u.inx_w = 0 then 0 else 1 : ℕ), dis)
decreasing_by
  · have hwalk : ∀ max_w use_w arm_u, walk ⟨max_w, use_w, arm_u, har_u.sot_w⟩ = walk har_u :=
      fun _ _ _ ↦ walk_congr (by simp only)
    simp [Prod.lex_def, afterTurn, hwalk, hlt]
  · have hless := hturn.progress (by omega) hreach
    simp only [Prod.lex_def]
    rcases hless with huse | ⟨huse, hwarm | ⟨hwarm, hinx, hinx'⟩⟩
    · exact Or.inl huse
    · exact Or.inr ⟨huse, Or.inl hwarm⟩
    · refine Or.inr ⟨huse, Or.inr ⟨hwarm, Or.inl ?_⟩⟩
      simp [hinx, hinx']

/-- `u3h_trim_to` returns: it removes the entries over the bound and keeps the others. -/
theorem RootOk.trimTo (hok : RootOk mug har_u) (n_w : ℕ) :
    ∃ har_u', Returns (fun fuel ↦ trimTo n_w fuel har_u) har_u' ∧ RootOk mug har_u' ∧
      har_u'.max_w = har_u.max_w ∧ har_u'.use_w = min har_u.use_w n_w ∧
      ∀ key val, RootHolds har_u' key val → RootHolds har_u key val := by
  obtain ⟨dis, hdis⟩ := hok.exists_dist n_w
  exact trimTo_of_dist n_w har_u hok dis hdis

end Tables

end Vere.Noun.Hashtable
