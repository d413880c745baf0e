import Vere.Noun.Hashtable

/-!
# Copying a table

`u3h_take_with()` of `pkg/noun/hashtable.c`. The walker, the marker and the freer of a table ask of
each root slot whether it is a node; the copier takes every slot that is not a key-value cell for
one, so that an empty slot is copied from the first word of the loom. `takeWith_iff` says that the
copy is exact if and only if no root slot is empty.
-/

set_option autoImplicit false

namespace Vere.Noun.Hashtable

/-! ### The copier -/

/-- The loom where no table was put: its words, what a slot has for a key-value cell (`none` for a
bail or a crash), and whether there is room for a bucket of so many slots. -/
structure Loom where
  word : ℕ → UInt32
  kov : UInt32 → Option Kev
  room : ℕ → Bool

section Take

variable (loom : Loom) (funF : Noun → Noun)

/-- `_ch_take_noun()`: `u3h_noun_to_slot()` makes the slot warm. -/
def chTakeNoun (kov : Kev) : Kev × Bool := (⟨kov.key, funF kov.val⟩, true)

/-- `_ch_take_buck()`. -/
def chTakeBuck (sot_w : List (Kev × Bool)) : List (Kev × Bool) :=
  sot_w.map fun kov ↦ chTakeNoun funF kov.1

/-- The copy of a slot with `5 * lev` bits left: `_ch_take_node()` on a node. -/
def chTakeSlot : ℕ → Slot → Slot
  | _, .noun kov _ => .noun (chTakeNoun funF kov).1 (chTakeNoun funF kov).2
  | 0, .buck sot_w => .buck (chTakeBuck funF sot_w)
  | lev + 1, .node map_w sot_w => .node map_w (sot_w.map fun tos_w ↦ chTakeSlot lev tos_w)
  | _, sot_w => sot_w

/-- `_ch_take_noun()` of a word. -/
def chTakeNounAt (sot_w : UInt32) : Option (Kev × Bool) := (loom.kov sot_w).map (chTakeNoun funF)

/-- `_ch_take_buck()` of a word. -/
def chTakeBuckAt (sot_w : UInt32) : Option Slot :=
  let hab_u := (sot_w &&& 0x3fffffff).toNat
  let len_w := (loom.word hab_u).toNat
  if loom.room len_w then
    ((List.range len_w).mapM fun i_w ↦ chTakeNounAt loom funF
      (loom.word (hab_u + 1 + i_w))).map .buck
  else none

/-- `_ch_take_node()` of a word, with `5 * (lev + 1)` bits left. -/
def chTakeNodeAt : ℕ → UInt32 → Option Slot
  | lev, sot_w =>
    let han_u := (sot_w &&& 0x3fffffff).toNat
    let map_w := (loom.word han_u).toNat
    ((List.range (chPopcount map_w)).mapM fun i_w ↦
      let tos_w := loom.word (han_u + 1 + i_w)
      if tos_w >>> 31 = 1 then (chTakeNounAt loom funF tos_w).map fun kev ↦ .noun kev.1 kev.2
      else
        match lev with
        | 0 => chTakeBuckAt loom funF tos_w
        | lev + 1 => chTakeNodeAt lev tos_w).map (.node map_w)

/-- The copy of a root slot, or `none` for a bail or a crash: an empty slot is read as a node at
offset 0. -/
def chTakeRoot : Option Slot → Option Slot
  | none => chTakeNodeAt loom funF 4 0
  | some sot_w => some (chTakeSlot funF 5 sot_w)

/-- `u3h_take_with()`, or `none` if it bails or crashes. -/
def takeWith (har_u : Root) : Option Root :=
  if ∀ inx_w, (chTakeRoot loom funF (har_u.sot_w inx_w)).isSome then
    some { newCache har_u.max_w with
      use_w := har_u.use_w
      arm_u := har_u.arm_u
      sot_w := fun inx_w ↦ chTakeRoot loom funF (har_u.sot_w inx_w) }
  else none

end Take

/-- A table is copied with `funF` on its values. -/
structure Copies (mug : Noun → Fin (2 ^ 31)) (funF : Noun → Noun) (har_u rah_u : Root) : Prop where
  ok : RootOk mug rah_u
  empty : ∀ inx_w, har_u.sot_w inx_w = none → rah_u.sot_w inx_w = none
  use : rah_u.use_w = har_u.use_w
  holds : ∀ key val, RootHolds rah_u key val ↔ ∃ old, RootHolds har_u key old ∧ funF old = val

section Proofs

variable {mug : Noun → Fin (2 ^ 31)} {loom : Loom} {funF : Noun → Noun} {har_u : Root}

/-! ### The copy of a slot -/

theorem chTakeSlot_noun (lev : ℕ) (kov : Kev) (warm : Bool) :
    chTakeSlot funF lev (.noun kov warm) = .noun ⟨kov.key, funF kov.val⟩ true := by
  cases lev <;> rfl

theorem get_map (map_w bit_w : ℕ) (sot_w : List Slot) (copy : Slot → Slot) :
    Lib.Sparse.get map_w (sot_w.map copy) bit_w = (Lib.Sparse.get map_w sot_w bit_w).map copy := by
  unfold Lib.Sparse.get
  split_ifs
  · exact List.getElem?_map
  · rfl

/-- The copy of a slot is in order where the slot is. -/
theorem Ok.take {lev pre : ℕ} {sot_w : Slot} (hok : Ok mug lev pre sot_w) :
    Ok mug lev pre (chTakeSlot funF lev sot_w) := by
  induction lev generalizing pre sot_w with
  | zero =>
    cases sot_w with
    | noun kov warm =>
      rw [ok_noun] at hok
      rw [chTakeSlot_noun, ok_noun]
      exact hok
    | node map_w sot_w => exact absurd hok id
    | buck sot_w =>
      obtain ⟨hlen, hnodup, hpre⟩ := hok
      refine ⟨?_, ?_, ?_⟩
      · rw [chTakeBuck, List.length_map]
        exact hlen
      · rw [chTakeBuck, List.map_map]
        exact hnodup
      · rw [chTakeBuck, List.forall_mem_map]
        exact hpre
  | succ lev ih =>
    cases sot_w with
    | noun kov warm =>
      rw [ok_noun] at hok
      rw [chTakeSlot_noun, ok_noun]
      exact hok
    | buck sot_w => exact absurd hok id
    | node map_w sot_w =>
      obtain ⟨hmap, hlen, hslots⟩ := hok
      refine ⟨hmap, ?_, fun bit_w hbit tos_w hget ↦ ?_⟩
      · rw [List.length_map]
        exact hlen
      · rw [get_map] at hget
        obtain ⟨old, hold, rfl⟩ := Option.map_eq_some_iff.mp hget
        exact ih (hslots bit_w hbit old hold)

theorem cells_take (lev : ℕ) (sot_w : Slot) :
    cells lev (chTakeSlot funF lev sot_w) =
      (cells lev sot_w).map fun kov ↦ chTakeNoun funF kov.1 := by
  induction lev generalizing sot_w with
  | zero =>
    cases sot_w with
    | noun kov warm =>
      rw [chTakeSlot_noun, cells_noun, cells_noun]
      rfl
    | node map_w sot_w => rfl
    | buck sot_w => rfl
  | succ lev ih =>
    cases sot_w with
    | noun kov warm =>
      rw [chTakeSlot_noun, cells_noun, cells_noun]
      rfl
    | buck sot_w => rfl
    | node map_w sot_w =>
      show (sot_w.map _).flatMap _ = (sot_w.flatMap _).map _
      rw [List.flatMap_map, List.map_flatMap]
      exact List.flatMap_congr fun tos_w _ ↦ ih tos_w

/-! ### The copy of a table -/

/-- The copy of a table whose slots are copied. -/
def copyOf (loom : Loom) (funF : Noun → Noun) (har_u : Root) : Root :=
  { newCache har_u.max_w with
    use_w := har_u.use_w
    arm_u := har_u.arm_u
    sot_w := fun inx_w ↦ chTakeRoot loom funF (har_u.sot_w inx_w) }

theorem walk_copyOf (hslots : ∀ inx_w, har_u.sot_w inx_w ≠ none) :
    walk (copyOf loom funF har_u) = (walk har_u).map fun kov ↦ chTakeNoun funF kov.1 := by
  rw [walk, walk, List.map_flatMap]
  refine List.flatMap_congr fun inx_w _ ↦ ?_
  show cellsOf 5 (chTakeRoot loom funF (har_u.sot_w inx_w)) = _
  obtain ⟨sot_w, hslot⟩ := Option.ne_none_iff_exists'.mp (hslots inx_w)
  rw [hslot]
  exact cells_take 5 sot_w

/-- A table without empty slots is copied. -/
theorem RootOk.copies_copyOf (hok : RootOk mug har_u) (loom : Loom) (funF : Noun → Noun)
    (hslots : ∀ inx_w, har_u.sot_w inx_w ≠ none) :
    Copies mug funF har_u (copyOf loom funF har_u) where
  ok := by
    refine ⟨fun inx_w tos_w htake ↦ ?_, ?_, hok.arm⟩
    · obtain ⟨sot_w, hslot⟩ := Option.ne_none_iff_exists'.mp (hslots inx_w)
      change chTakeRoot loom funF (har_u.sot_w inx_w) = some tos_w at htake
      rw [hslot] at htake
      rw [← Option.some.inj htake]
      exact (hok.slot inx_w sot_w hslot).take
    · rw [walk_copyOf hslots, List.length_map]
      exact hok.use
  empty inx_w hnone := absurd hnone (hslots inx_w)
  use := rfl
  holds key val := by
    constructor
    · rintro ⟨warm, hmem⟩
      rw [walk_copyOf hslots] at hmem
      obtain ⟨⟨⟨key', old⟩, warm'⟩, hmem', heq⟩ := List.mem_map.mp hmem
      obtain ⟨rfl, rfl⟩ := Kev.mk.inj (Prod.mk.inj heq).1
      exact ⟨old, ⟨warm', hmem'⟩, rfl⟩
    · rintro ⟨old, ⟨warm, hmem⟩, rfl⟩
      refine ⟨true, ?_⟩
      rw [walk_copyOf hslots]
      exact List.mem_map.mpr ⟨_, hmem, rfl⟩

theorem isSome_chTakeRoot (hslots : ∀ inx_w, har_u.sot_w inx_w ≠ none) (inx_w : Fin 64) :
    (chTakeRoot loom funF (har_u.sot_w inx_w)).isSome = true := by
  obtain ⟨sot_w, hslot⟩ := Option.ne_none_iff_exists'.mp (hslots inx_w)
  rw [hslot]
  rfl

/-- A table is copied exactly if and only if it has no empty root slot: what stands for such a slot
is a node at the first word of the loom. -/
theorem takeWith_iff (hok : RootOk mug har_u) (loom : Loom) (funF : Noun → Noun) :
    (∃ rah_u, takeWith loom funF har_u = some rah_u ∧ Copies mug funF har_u rah_u) ↔
      ∀ inx_w, har_u.sot_w inx_w ≠ none := by
  constructor
  · rintro ⟨rah_u, htake, hcopies⟩ inx_w hnone
    rw [takeWith] at htake
    split_ifs at htake with hsome
    obtain ⟨sot_w, hcopy⟩ := Option.isSome_iff_exists.mp (hsome inx_w)
    have hempty := hcopies.empty inx_w hnone
    rw [← Option.some.inj htake] at hempty
    exact nomatch hcopy.symm.trans hempty
  · intro hslots
    refine ⟨copyOf loom funF har_u, ?_, hok.copies_copyOf loom funF hslots⟩
    rw [takeWith, if_pos (isSome_chTakeRoot hslots)]
    rfl

end Proofs

/-! ### A full table and an empty one -/

/-- Mugs have 31 bits. -/
local instance neZeroSlot : NeZero (2 ^ 31) := ⟨by decide⟩

/-- A mug that is told by the atom. -/
def mugSlot : Noun → Fin (2 ^ 31)
  | .atom n => Fin.ofNat (2 ^ 31) (n * 2 ^ 25)
  | .cell _ _ => 0

/-- A table with an entry in each root slot. -/
def tableFull : Root := ⟨0, 64, ⟨0, 0⟩, fun inx_w ↦ some (.noun ⟨.atom inx_w, .atom 0⟩ false)⟩

theorem rootOk_tableFull : RootOk mugSlot tableFull where
  slot inx_w sot_w hslot := by
    rw [← Option.some.inj hslot, ok_noun]
    show (inx_w : ℕ) * 2 ^ 25 % 2 ^ 31 / 2 ^ 25 = inx_w
    omega
  use := rfl
  arm := by decide

theorem takeWith_full :
    ∃ rah_u, takeWith ⟨fun _ ↦ 0, fun _ ↦ none, fun _ ↦ true⟩ id tableFull = some rah_u ∧
    Copies mugSlot id tableFull rah_u :=
  (takeWith_iff rootOk_tableFull _ _).mpr fun _ ↦ Option.some_ne_none _

/-- Over zeros at the bottom of the loom the copy of an empty table has a node in each of its slots.
-/
theorem takeWith_new :
    ∃ rah_u, takeWith ⟨fun _ ↦ 0, fun _ ↦ none, fun _ ↦ true⟩ id new = some rah_u ∧
    (∀ inx_w, rah_u.sot_w inx_w = some (.node 0 [])) ∧ ¬Copies mugSlot id new rah_u := by
  refine ⟨_, if_pos fun _ ↦ rfl, fun _ ↦ rfl, fun hcopies ↦ ?_⟩
  exact nomatch hcopies.empty 0 rfl

end Vere.Noun.Hashtable
