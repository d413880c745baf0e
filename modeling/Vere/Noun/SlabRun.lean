import Mathlib.Data.Nat.Digits.Defs
import Vere.Noun.Slab

/-!
# The life of a slab

A slab of `pkg/noun/imprison.c` from its configuration over any number of growings to the atom that
is made of it. A slab of one word is in static storage and a longer one on the heap. Growing to a
smaller size changes the length only, so that a slab on the heap can be of one word, and one in
static storage of none: then `u3i_slab_free()`, `u3i_slab_mint()` and `u3i_slab_moot()` fail their
assertions. `SlabRun` are the runs that leave no static slab without a word, and in them all else is
as it should be (`slab_run`).

The allocator is what `u3a_walloc()` gives for a number of words: the words that are in the memory,
or a bail.
-/

set_option autoImplicit false

namespace Vere.Noun.Imprison

open Serial

/-! ### Slabs -/

/-- A bail, a failed `c3_assert()`, or an access behind the end of a buffer. -/
inductive SlabFault
  | bail : SlabFault
  | assertion : SlabFault
  | overrun : SlabFault
  deriving DecidableEq

/-- `u3a_atom`, in memory of a number of words. -/
structure Atom where
  mug_w : UInt32
  len_w : ℕ
  buf_w : List UInt32

/-- Where `buf_w` of a slab points to: the static word, or the words of the heap atom. -/
inductive Buf
  | sat : Buf
  | vat : Buf
  deriving DecidableEq

/-- `u3i_slab`. -/
structure Slab where
  vat_u : Option Atom
  sat_w : UInt32
  buf_w : Buf
  len_w : ℕ

/-- The memory of the buffer. -/
def Slab.room (sab_u : Slab) : List UInt32 :=
  match sab_u.buf_w with
  | .sat => [sab_u.sat_w]
  | .vat => (sab_u.vat_u.map Atom.buf_w).getD []

/-- The memory of the buffer, with other words in it. -/
def Slab.fill (sab_u : Slab) (room : List UInt32) : Slab :=
  match sab_u.buf_w with
  | .sat => { sab_u with sat_w := room.headD 0 }
  | .vat => { sab_u with vat_u := sab_u.vat_u.map fun vat_u ↦ { vat_u with buf_w := room } }

/-- The words of the buffer. -/
def Slab.words (sab_u : Slab) : Except SlabFault (List UInt32) :=
  if sab_u.len_w ≤ sab_u.room.length then .ok (sab_u.room.take sab_u.len_w) else .error .overrun

/-- Words that are written from an index on. -/
def Slab.put (sab_u : Slab) (i_w : ℕ) (words : List UInt32) : Except SlabFault Slab :=
  if i_w + words.length ≤ sab_u.room.length then
    .ok (sab_u.fill (sab_u.room.take i_w ++ words ++ sab_u.room.drop (i_w + words.length)))
  else .error .overrun

/-- What `u3a_walloc()` and `u3a_malloc()` give. -/
abbrev Alloc : Type := ℕ → Option (List UInt32)

/-! ### Configuration and growth -/

section Operations

variable (walloc : Alloc) (met_g len_d : ℕ)

/-- `_ci_slab_init()`. -/
def Slab.ciInit (sab_u : Slab) (len_w : ℕ) : Except SlabFault Slab :=
  match walloc ((len_w + wiseofAtom) % 2 ^ 32) with
  | none => .error .bail
  | some nov_w =>
    .ok { sab_u with
      vat_u := some ⟨0, len_w, nov_w.drop wiseofAtom⟩, buf_w := .vat, len_w := len_w }

/-- `u3a_wealloc()`: all words of the old memory are copied, and more where the new memory is
longer; those from behind the old memory can be anything. Without old memory it is `u3a_malloc()` of
as many bytes. -/
def wealloc (old_w : Option (List UInt32)) (len_w : ℕ) : Option (List UInt32) :=
  match old_w with
  | none => walloc ((len_w + 3) / 4)
  | some old_w => (walloc len_w).map fun new_w ↦ old_w.take new_w.length ++ new_w.drop old_w.length

/-- The words of an atom in memory, its mug and its length in front. -/
def Atom.memory (vat_u : Atom) : List UInt32 :=
  vat_u.mug_w :: UInt32.ofNat vat_u.len_w :: vat_u.buf_w

/-- `_ci_slab_grow()`. -/
def Slab.ciGrow (sab_u : Slab) (len_w : ℕ) : Except SlabFault Slab :=
  match wealloc walloc (sab_u.vat_u.map Atom.memory) ((len_w + wiseofAtom) % 2 ^ 32) with
  | none => .error .bail
  | some nov_w =>
    .ok { sab_u with
      vat_u := some ⟨nov_w.headD 0, len_w, nov_w.drop wiseofAtom⟩, buf_w := .vat, len_w := len_w }

/-- `u3i_slab_bare()`, on a slab that is not initialized. -/
def slabBareOn (sab_u : Slab) : Except SlabFault Slab :=
  match ciSlabSize met_g len_d with
  | none => .error .bail
  | some wor_w =>
    if wor_w = 0 ∨ wor_w = 1 then .ok { sab_u with vat_u := none, buf_w := .sat, len_w := 1 }
    else sab_u.ciInit walloc wor_w

/-- `u3i_slab_init()`. -/
def slabInitOn (sab_u : Slab) : Except SlabFault Slab := do
  let sab_u ← slabBareOn walloc met_g len_d sab_u
  sab_u.put 0 (List.replicate sab_u.len_w 0)

/-- A word of an atom. -/
def wordOf (a i_w : ℕ) : UInt32 := UInt32.ofNat (a / 2 ^ (32 * i_w))

/-- `u3r_words()`, from the first word of an atom on. The count of the bytes to be copied or set is
a word. -/
def Slab.rWords (sab_u : Slab) (b_w a : ℕ) : Except SlabFault Slab :=
  if b_w = 0 then .ok sab_u
  else if a < 2 ^ 31 then do
    let sab_u ← sab_u.put 0 [UInt32.ofNat a]
    sab_u.put 1 (List.replicate ((b_w - 1) * 4 % 2 ^ 32 / 4) 0)
  else do
    let len_w := (a.size + 31) / 32
    let z_w := min b_w len_w
    let sab_u ← sab_u.put 0 ((List.range (z_w * 4 % 2 ^ 32 / 4)).map (wordOf a))
    if len_w < b_w then sab_u.put z_w (List.replicate ((b_w - len_w) * 4 % 2 ^ 32 / 4) 0)
      else .ok sab_u

/-- `u3i_slab_from()`. -/
def slabFromOn (a : ℕ) (sab_u : Slab) : Except SlabFault Slab := do
  let sab_u ← slabBareOn walloc met_g len_d sab_u
  sab_u.rWords sab_u.len_w a

/-- The memory for a longer slab: from static storage it is an upgrade, and otherwise the memory is
reallocated. -/
def Slab.enlarge (sab_u : Slab) (wor_w : ℕ) : Except SlabFault Slab :=
  if sab_u.len_w = 1 then do
    let dat_w := sab_u.room.headD 0
    let grown ← sab_u.ciInit walloc wor_w
    grown.put 0 [dat_w]
  else sab_u.ciGrow walloc wor_w

/-- `u3i_slab_grow()`. -/
def Slab.grow (sab_u : Slab) : Except SlabFault Slab :=
  match ciSlabSize met_g len_d with
  | none => .error .bail
  | some wor_w =>
    if wor_w ≤ sab_u.len_w then .ok { sab_u with len_w := wor_w }
    else do
      let grown ← sab_u.enlarge walloc wor_w
      grown.put sab_u.len_w (List.replicate (wor_w - sab_u.len_w) 0)

end Operations

/-! ### The end of a slab -/

/-- `tav_w == (c3_w*)vat_u`: the buffer is that of the heap atom. -/
def Slab.Tied (sab_u : Slab) : Prop := sab_u.buf_w = .vat ∧ sab_u.vat_u.isSome

instance (sab_u : Slab) : Decidable sab_u.Tied := inferInstanceAs (Decidable (_ ∧ _))

/-- `u3_atom`, as it is made: a direct atom, or an atom on the heap. -/
inductive Minted
  | cat (dat_w : UInt32) : Minted
  | pug (vat_u : Atom) : Minted

/-- `u3i_slab_free()`. -/
def Slab.free (sab_u : Slab) : Except SlabFault Unit :=
  if sab_u.len_w = 1 then if sab_u.vat_u.isNone then .ok () else .error .assertion
  else if sab_u.Tied then .ok () else .error .assertion

/-- `u3i_word()`. -/
def iWord (walloc : Alloc) (dat_w : UInt32) : Except SlabFault Minted :=
  if dat_w < 0x80000000 then .ok (.cat dat_w)
  else
    match walloc (1 + wiseofAtom) with
    | none => .error .bail
    | some _ => .ok (.pug ⟨0, 1, [dat_w]⟩)

/-- `u3a_wtrim()`, of the words of an atom. -/
def wtrimAtom (vat_u : Atom) (old_w len_w : ℕ) : Atom :=
  if len_w < old_w ∧ Allocate.minimum ≤ old_w - len_w then
    { vat_u with buf_w := vat_u.buf_w.take len_w } else vat_u

/-- `_ci_atom_mint()`. -/
def ciAtomMint (vat_u : Atom) (len_w : ℕ) : Minted :=
  let dat_w := vat_u.buf_w.headD 0
  if len_w = 0 then .cat 0
  else if len_w = 1 ∧ dat_w < 0x80000000 then .cat dat_w
  else .pug { (if len_w < vat_u.len_w then wtrimAtom vat_u vat_u.len_w len_w
    else vat_u) with len_w := len_w }

/-- The loop of `u3i_slab_mint()` over the zeros at the end. -/
def trimZeros (words : List UInt32) : ℕ → ℕ
  | 0 => 0
  | len_w + 1 => if words.getD len_w 0 = 0 then trimZeros words len_w else len_w + 1

/-- What `u3i_slab_mint()` and `u3i_slab_moot()` share: a static slab is a word, and a heap atom is
made of the words up to a length. -/
def Slab.finish (walloc : Alloc) (sab_u : Slab) (len : List UInt32 → ℕ → ℕ) :
    Except SlabFault Minted := do
  let words ← sab_u.words
  if sab_u.len_w = 1 then
    if sab_u.vat_u.isNone then iWord walloc (words.headD 0) else .error .assertion
  else
    match sab_u.vat_u with
    | none => .error .assertion
    | some vat_u =>
      if sab_u.Tied then .ok (ciAtomMint vat_u (len words sab_u.len_w)) else .error .assertion

/-- `u3i_slab_mint()`, and `u3i_slab_mint_bytes()`. -/
def Slab.mint (walloc : Alloc) (sab_u : Slab) : Except SlabFault Minted :=
  sab_u.finish walloc trimZeros

/-- `u3i_slab_moot()`. -/
def Slab.moot (walloc : Alloc) (sab_u : Slab) : Except SlabFault Minted :=
  sab_u.finish walloc fun _ len_w ↦ len_w

/-! ### Runs -/

/-- An allocator gives as many words as it is asked for, and the loom has at most `2 ^ 30`. -/
structure Honest (walloc : Alloc) : Prop where
  length : ∀ {len_w : ℕ} {nov_w : List UInt32}, walloc len_w = some nov_w → nov_w.length = len_w
  loom : ∀ {len_w : ℕ} {nov_w : List UInt32}, walloc len_w = some nov_w → len_w ≤ 2 ^ 30

/-- A slab that is reached, with the number of words that it was last asked for, the words that it
should have, and whether it was ever asked for more than one word; else it is not asked for none. -/
inductive SlabRun : Slab → ℕ → List UInt32 → Bool → Prop
  | init {walloc : Alloc} {met_g len_d : ℕ} {sab_u s : Slab} (hhonest : Honest walloc)
      (hfits : wordsOf met_g len_d ≤ 2 ^ 32 - 6)
      (hinit : slabInitOn walloc met_g len_d sab_u = .ok s) :
      SlabRun s (max 1 (wordsOf met_g len_d)) (List.replicate (max 1 (wordsOf met_g len_d)) 0)
        (1 < wordsOf met_g len_d)
  | bare {walloc : Alloc} {met_g len_d : ℕ} {sab_u s : Slab} (hhonest : Honest walloc)
      (hfits : wordsOf met_g len_d ≤ 2 ^ 32 - 6)
      (hbare : slabBareOn walloc met_g len_d sab_u = .ok s) :
      SlabRun s (max 1 (wordsOf met_g len_d)) (s.room.take (max 1 (wordsOf met_g len_d)))
        (1 < wordsOf met_g len_d)
  | from_ {walloc : Alloc} {met_g len_d a : ℕ} {sab_u s : Slab} (hhonest : Honest walloc)
      (hfits : wordsOf met_g len_d ≤ 2 ^ 32 - 6)
      (hfrom : slabFromOn walloc met_g len_d a sab_u = .ok s) :
      SlabRun s (max 1 (wordsOf met_g len_d))
        ((List.range (max 1 (wordsOf met_g len_d))).map (wordOf a))
        (1 < wordsOf met_g len_d)
  | grow {walloc : Alloc} {met_g len_d len : ℕ} {s s' : Slab} {words : List UInt32} {large : Bool}
      (hrun : SlabRun s len words large) (hhonest : Honest walloc)
      (hfits : wordsOf met_g len_d ≤ 2 ^ 32 - 6)
      (hsome : wordsOf met_g len_d = 0 → large = true)
      (hgrow : s.grow walloc met_g len_d = .ok s') :
      SlabRun s' (wordsOf met_g len_d)
        (words.take (wordsOf met_g len_d) ++ List.replicate (wordsOf met_g len_d - len) 0)
        (large || 1 < wordsOf met_g len_d)
  | write {len i_w : ℕ} {v : UInt32} {s s' : Slab} {words : List UInt32} {large : Bool}
      (hrun : SlabRun s len words large) (hlt : i_w < len) (hput : s.put i_w [v] = .ok s') :
      SlabRun s' len (words.set i_w v) large

/-- The number of words, the least significant first. -/
def valueOf (words : List UInt32) : ℕ := Nat.ofDigits (2 ^ 32) (words.map UInt32.toNat)

/-- The words of an atom that was made. -/
def Minted.value : Minted → ℕ
  | .cat dat_w => dat_w.toNat
  | .pug vat_u => valueOf (vat_u.buf_w.take vat_u.len_w)

/-- A direct atom is below `2 ^ 31`. One on the heap is not, it is in memory, and its last word is
not zero. -/
def Minted.Canonical : Minted → Prop
  | .cat dat_w => dat_w < 0x80000000
  | .pug vat_u => 2 ^ 31 ≤ valueOf (vat_u.buf_w.take vat_u.len_w) ∧
      ∃ low top, vat_u.buf_w.take vat_u.len_w = low ++ [top] ∧
      low.length + 1 = vat_u.len_w ∧ top ≠ 0

/-- The allocator refuses the memory of an atom of as many words or less, or of an atom of one word.
-/
def Refuses (walloc : Alloc) (words : ℕ) : Prop := ∃ k ≤ max 3 (words + 2), walloc k = none

/-- The call returns what it should, or bails because it is refused memory. -/
def Gives {α : Type} (walloc : Alloc) (words : ℕ) (res : Except SlabFault α)
    (P : α → Prop) : Prop :=
  match res with
  | .ok a => P a
  | .error f => f = .bail ∧ Refuses walloc words

/-! ### What a slab is in a run -/

/-- Either the static word, and never anything else, or the heap atom with at least as many words.
-/
inductive SlabOk : Slab → ℕ → List UInt32 → Bool → Prop
  | static (sat_w : UInt32) : SlabOk ⟨none, sat_w, .sat, 1⟩ 1 [sat_w] false
  | heap (sat_w mug_w : UInt32) {len : ℕ} {room : List UInt32} (hle : len ≤ room.length)
  (hpos : 1 ≤ room.length) :
      SlabOk ⟨some ⟨mug_w, room.length, room⟩, sat_w, .vat, len⟩ len (room.take len) true

section Overlay

variable {α : Type} {l ws : List α} {i n : ℕ}

theorem getElem?_overlay (hle : i + ws.length ≤ l.length) (j : ℕ) :
    (l.take i ++ ws ++ l.drop (i + ws.length))[j]? =
      if i ≤ j ∧ j < i + ws.length then ws[j - i]? else l[j]? := by
  have hlength : (l.take i).length = i := by
    rw [List.length_take]
    omega
  by_cases hbefore : j < i
  · rw [if_neg (by omega), List.append_assoc, List.getElem?_append_left (by omega),
      List.getElem?_take_of_lt hbefore]
  · by_cases hin : j < i + ws.length
    · rw [if_pos (by omega), List.getElem?_append_left (by rw [List.length_append]; omega),
        List.getElem?_append_right (by omega), hlength]
    · rw [if_neg (by omega), List.getElem?_append_right (by rw [List.length_append]; omega),
        List.length_append, hlength, List.getElem?_drop]
      congr 1
      omega

/-- Words that are written into the front of a buffer. -/
theorem take_overlay (hle : i + ws.length ≤ n) (hn : n ≤ l.length) :
    (l.take i ++ ws ++ l.drop (i + ws.length)).take n =
      (l.take n).take i ++ ws ++ (l.take n).drop (i + ws.length) := by
  have hlength : (l.take n).length = n := by
    rw [List.length_take]
    omega
  apply List.ext_getElem?
  intro j
  rw [getElem?_overlay (by rw [hlength]; exact hle)]
  by_cases hj : j < n
  · rw [List.getElem?_take_of_lt hj, List.getElem?_take_of_lt hj,
      getElem?_overlay (Nat.le_trans hle hn)]
  · rw [List.getElem?_take_eq_none (Nat.le_of_not_lt hj),
      List.getElem?_take_eq_none (Nat.le_of_not_lt hj), if_neg (by omega)]

end Overlay

section SlabOk

variable {s s' : Slab} {len i_w : ℕ} {words ws : List UInt32} {large : Bool} {walloc : Alloc}
  {met_g len_d wor_w : ℕ}

theorem SlabOk.words_eq (hok : SlabOk s len words large) :
    s.words = .ok words ∧ words.length = len := by
  cases hok with
  | static sat_w => exact ⟨rfl, rfl⟩
  | heap sat_w mug_w hle hpos =>
    refine ⟨if_pos hle, ?_⟩
    rw [List.length_take]
    exact Nat.min_eq_left hle

theorem SlabOk.len_eq (hok : SlabOk s len words large) : s.len_w = len := by
  cases hok with
  | static sat_w => rfl
  | heap sat_w mug_w hle hpos => rfl

theorem SlabOk.le_room (hok : SlabOk s len words large) :
    len ≤ s.room.length ∧ s.room.take len = words := by
  cases hok with
  | static sat_w => exact ⟨Nat.le_refl 1, rfl⟩
  | heap sat_w mug_w hle hpos => exact ⟨hle, rfl⟩

/-- A write inside the buffer. -/
theorem SlabOk.put (hok : SlabOk s len words large) (hle : i_w + ws.length ≤ len) :
    ∃ s', s.put i_w ws = .ok s' ∧
    SlabOk s' len (words.take i_w ++ ws ++ words.drop (i_w + ws.length)) large := by
  obtain ⟨hroom, -⟩ := hok.le_room
  refine ⟨_, if_pos (Nat.le_trans hle hroom), ?_⟩
  cases hok with
  | static sat_w =>
    obtain ⟨rfl, rfl⟩ | ⟨rfl, rfl⟩ | ⟨rfl, sat', rfl⟩ : (i_w = 0 ∧ ws = []) ∨ (i_w = 1 ∧ ws = []) ∨
        (i_w = 0 ∧ ∃ sat', ws = [sat']) := by
      rcases ws with - | ⟨sat', - | ⟨more, ws⟩⟩
      · rcases Nat.le_one_iff_eq_zero_or_eq_one.mp hle with rfl | rfl
        · exact Or.inl ⟨rfl, rfl⟩
        · exact Or.inr (Or.inl ⟨rfl, rfl⟩)
      · rw [List.length_singleton] at hle
        exact Or.inr (Or.inr ⟨by omega, sat', rfl⟩)
      · rw [List.length_cons, List.length_cons] at hle
        omega
    · exact .static sat_w
    · exact .static sat_w
    · exact .static sat'
  | @heap sat_w mug_w len room hfit hpos =>
    rw [← take_overlay hle hfit]
    have hlength : (room.take i_w ++ ws ++ room.drop (i_w + ws.length)).length = room.length := by
      rw [List.length_append, List.length_append, List.length_take, List.length_drop]
      omega
    have hheap := @SlabOk.heap sat_w mug_w len (room.take i_w ++ ws ++ room.drop (i_w + ws.length))
      (by rw [hlength]; exact hfit) (by rw [hlength]; exact hpos)
    rw [hlength] at hheap
    exact hheap

/-- A heap atom of more than one word, of the memory that is given. -/
theorem ciInit_gives (hhonest : Honest walloc) (s : Slab) (hmany : 1 ≤ wor_w)
    (hfits : wor_w ≤ 2 ^ 32 - 6) :
    Gives walloc wor_w (s.ciInit walloc wor_w) fun s' ↦ wor_w < 2 ^ 30 ∧
    SlabOk s' wor_w (s'.room.take wor_w) true := by
  have hword : (wor_w + wiseofAtom) % 2 ^ 32 = wor_w + 2 :=
    Nat.mod_eq_of_lt (by unfold wiseofAtom; omega)
  unfold Slab.ciInit
  rw [hword]
  cases hwalloc : walloc (wor_w + 2) with
  | none => exact ⟨rfl, _, le_max_right _ _, hwalloc⟩
  | some nov_w =>
    have hlength := hhonest.length hwalloc
    have hloom := hhonest.loom hwalloc
    have hroom : (nov_w.drop wiseofAtom).length = wor_w := by
      rw [List.length_drop, hlength]
      rfl
    have hheap := @SlabOk.heap s.sat_w 0 wor_w (nov_w.drop wiseofAtom) (by rw [hroom])
      (by rw [hroom]; exact hmany)
    rw [hroom] at hheap
    exact ⟨by omega, hheap⟩

theorem slabBareOn_gives (hhonest : Honest walloc) (s : Slab)
    (hfits : wordsOf met_g len_d ≤ 2 ^ 32 - 6) :
    Gives walloc (wordsOf met_g len_d) (slabBareOn walloc met_g len_d s) fun s' ↦
      max 1 (wordsOf met_g len_d) < 2 ^ 30 ∧
      SlabOk s' (max 1 (wordsOf met_g len_d)) (s'.room.take (max 1 (wordsOf met_g len_d)))
        (1 < wordsOf met_g len_d) := by
  unfold slabBareOn
  rw [ciSlabSize_of_le hfits]
  dsimp only
  split
  · rename_i hfew
    have hone : max 1 (wordsOf met_g len_d) = 1 := by omega
    have hsmall : decide (1 < wordsOf met_g len_d) = false := decide_eq_false (by omega)
    rw [hone, hsmall]
    exact ⟨by decide, .static s.sat_w⟩
  · rename_i hmany
    have hmax : max 1 (wordsOf met_g len_d) = wordsOf met_g len_d := by omega
    have hlarge : decide (1 < wordsOf met_g len_d) = true := decide_eq_true (by omega)
    rw [hmax, hlarge]
    exact ciInit_gives hhonest s (by omega) hfits

/-- A step on what a call gives. -/
theorem Gives.bind {α β : Type} {res : Except SlabFault α} {next : α → Except SlabFault β}
    {P : α → Prop} {Q : β → Prop} {n : ℕ} (hres : Gives walloc n res P)
    (hnext : ∀ a, P a → Gives walloc n (next a) Q) : Gives walloc n (res >>= next) Q := by
  cases res with
  | ok a => exact hnext a hres
  | error f => exact hres

theorem Gives.imp {α : Type} {res : Except SlabFault α} {P Q : α → Prop} {n : ℕ}
    (hres : Gives walloc n res P) (himp : ∀ a, P a → Q a) : Gives walloc n res Q := by
  cases res with
  | ok a => exact himp a hres
  | error f => exact hres

/-- A call that may bail for want of few words may bail for want of more. -/
theorem Gives.mono {α : Type} {res : Except SlabFault α} {P : α → Prop} {n n' : ℕ}
    (hres : Gives walloc n res P) (hle : n ≤ n') : Gives walloc n' res P := by
  cases res with
  | ok a => exact hres
  | error f =>
    obtain ⟨hbail, k, hk, hnone⟩ := hres
    exact ⟨hbail, k, by omega, hnone⟩

/-- With enough memory the call returns. -/
theorem Gives.ok {α : Type} {res : Except SlabFault α} {P : α → Prop} {n : ℕ}
    (hres : Gives walloc n res P) (henough : ¬Refuses walloc n) : ∃ a, res = .ok a ∧ P a := by
  cases res with
  | ok a => exact ⟨a, rfl, hres⟩
  | error f => exact absurd hres.2 henough

theorem SlabOk.put_gives (hok : SlabOk s len words large) (walloc : Alloc) (n i_w : ℕ)
    (ws : List UInt32) (hle : i_w + ws.length ≤ len) :
    Gives walloc n (s.put i_w ws) fun s' ↦
      SlabOk s' len (words.take i_w ++ ws ++ words.drop (i_w + ws.length)) large := by
  obtain ⟨s', hput, hok'⟩ := hok.put hle
  rw [hput]
  exact hok'

theorem slabInitOn_gives (hhonest : Honest walloc) (s : Slab)
    (hfits : wordsOf met_g len_d ≤ 2 ^ 32 - 6) :
    Gives walloc (wordsOf met_g len_d) (slabInitOn walloc met_g len_d s) fun s' ↦
      SlabOk s' (max 1 (wordsOf met_g len_d))
      (List.replicate (max 1 (wordsOf met_g len_d)) 0) (1 < wordsOf met_g len_d) := by
  refine (slabBareOn_gives hhonest s hfits).bind fun s' ⟨_, hok⟩ ↦ ?_
  have hlength : (List.replicate s'.len_w (0 : UInt32)).length = max 1 (wordsOf met_g len_d) := by
    rw [List.length_replicate, hok.len_eq]
  have hput := hok.put_gives walloc (wordsOf met_g len_d) 0 (List.replicate s'.len_w 0) (by omega)
  have hwords := hok.words_eq.2
  rw [List.take_zero, List.nil_append, hlength, Nat.zero_add,
    List.drop_of_length_le (Nat.le_of_eq hwords), List.append_nil, hok.len_eq] at hput
  rw [hok.len_eq]
  exact hput

/-- Behind its words an atom has zeros. -/
theorem map_wordOf {a z_w len_w : ℕ} (hle : z_w ≤ len_w) (hlt : a < 2 ^ (32 * z_w)) :
    (List.range len_w).map (wordOf a) =
      (List.range z_w).map (wordOf a) ++ List.replicate (len_w - z_w) 0 := by
  obtain ⟨more, rfl⟩ := Nat.exists_eq_add_of_le hle
  rw [List.range_add, List.map_append, List.map_map, Nat.add_sub_cancel_left]
  congr 1
  refine List.eq_replicate_iff.mpr ⟨by rw [List.length_map, List.length_range], fun w hw ↦ ?_⟩
  obtain ⟨i, -, rfl⟩ := List.mem_map.mp hw
  have hpow : 2 ^ (32 * z_w) ≤ 2 ^ (32 * (z_w + i)) := Nat.pow_le_pow_right (by decide) (by omega)
  show wordOf a (z_w + i) = 0
  rw [wordOf, Nat.div_eq_of_lt (Nat.lt_of_lt_of_le hlt hpow)]
  rfl

theorem SlabOk.rWords_gives {n : ℕ} (hok : SlabOk s len words large) (hpos : 1 ≤ len)
    (hloom : len < 2 ^ 30) (a : ℕ) :
    Gives walloc n (s.rWords len a) fun s' ↦ SlabOk s' len
      ((List.range len).map (wordOf a)) large := by
  have hcount : ∀ k ≤ len, k * 4 % 2 ^ 32 / 4 = k := fun k hk ↦ by omega
  have hwords := hok.words_eq.2
  unfold Slab.rWords
  rw [if_neg (by omega)]
  split
  · rename_i hcat
    refine (hok.put_gives walloc n 0 [UInt32.ofNat a] hpos).bind fun s₁ hok₁ ↦ ?_
    have hput :=
      hok₁.put_gives walloc n 1 (List.replicate (len - 1) 0) (by rw [List.length_replicate]; omega)
    have hsmall : a < 2 ^ (32 * 1) := Nat.lt_trans hcat (by decide)
    rw [hcount _ (Nat.sub_le _ _), map_wordOf hpos hsmall]
    rw [List.length_replicate, Nat.add_sub_cancel' hpos,
      List.drop_of_length_le (Nat.le_of_eq hok₁.words_eq.2), List.append_nil] at hput
    have hfst : (List.range 1).map (wordOf a) = [UInt32.ofNat a] := by
      show [UInt32.ofNat (a / 2 ^ (32 * 0))] = [UInt32.ofNat a]
      rw [Nat.mul_zero, Nat.pow_zero, Nat.div_one]
    rw [hfst]
    exact hput
  · have hsize : a < 2 ^ (32 * ((a.size + 31) / 32)) := by
      refine Nat.lt_of_lt_of_le a.lt_size_self (Nat.pow_le_pow_right (by decide) ?_)
      omega
    generalize (a.size + 31) / 32 = len_w at hsize ⊢
    dsimp only
    rw [hcount _ (Nat.min_le_left _ _)]
    have hmap : ((List.range (min len len_w)).map (wordOf a)).length = min len len_w := by
      rw [List.length_map, List.length_range]
    refine (hok.put_gives walloc n 0 _ (by rw [hmap, Nat.zero_add]; exact Nat.min_le_left _ _)).bind
      fun s₁ hok₁ ↦ ?_
    rw [hmap, List.take_zero, List.nil_append, Nat.zero_add] at hok₁
    split
    · rename_i hmore
      rw [Nat.min_eq_right (Nat.le_of_lt hmore)] at hok₁ ⊢
      have hlength : (List.replicate (len - len_w) (0 : UInt32)).length = len - len_w :=
        List.length_replicate
      have hput := hok₁.put_gives walloc n len_w (List.replicate (len - len_w) 0) (by omega)
      rw [hlength, Nat.add_sub_cancel' (Nat.le_of_lt hmore),
        List.drop_of_length_le (Nat.le_of_eq hok₁.words_eq.2), List.append_nil,
        List.take_left' (by rw [List.length_map, List.length_range])] at hput
      rw [hcount _ (Nat.sub_le _ _), map_wordOf (Nat.le_of_lt hmore) hsize]
      exact hput
    · rename_i hfew
      rw [Nat.min_eq_left (Nat.le_of_not_lt hfew), List.drop_of_length_le (Nat.le_of_eq hwords),
        List.append_nil] at hok₁
      exact hok₁

theorem slabFromOn_gives (hhonest : Honest walloc) (s : Slab)
    (hfits : wordsOf met_g len_d ≤ 2 ^ 32 - 6) (a : ℕ) :
    Gives walloc (wordsOf met_g len_d) (slabFromOn walloc met_g len_d a s) fun s' ↦
      SlabOk s' (max 1 (wordsOf met_g len_d))
      ((List.range (max 1 (wordsOf met_g len_d))).map (wordOf a)) (1 < wordsOf met_g len_d) := by
  refine (slabBareOn_gives hhonest s hfits).bind fun s' ⟨hloom, hok⟩ ↦ ?_
  rw [hok.len_eq]
  exact hok.rWords_gives (Nat.le_max_left _ _) hloom a

/-- `_ci_slab_grow()` keeps the words that were there. -/
theorem ciGrow_gives (hhonest : Honest walloc) (sat_w mug_w : UInt32) {room : List UInt32}
    (hle : len ≤ room.length) (hless : len < wor_w) (hfits : wor_w ≤ 2 ^ 32 - 6) :
    Gives walloc wor_w (Slab.ciGrow walloc ⟨some ⟨mug_w, room.length, room⟩, sat_w, .vat,
    len⟩ wor_w) fun s' ↦
      ∃ ws, SlabOk s' wor_w ws true ∧ ws.take len = room.take len := by
  have hword : (wor_w + wiseofAtom) % 2 ^ 32 = wor_w + 2 :=
    Nat.mod_eq_of_lt (by unfold wiseofAtom; omega)
  unfold Slab.ciGrow
  rw [hword]
  simp only [Option.map_some, wealloc, Atom.memory]
  cases hwalloc : walloc (wor_w + 2) with
  | none => exact ⟨rfl, _, le_max_right _ _, hwalloc⟩
  | some new_w =>
    have hlength := hhonest.length hwalloc
    simp only [Option.map_some, hlength, List.length_cons, List.take_succ_cons, List.cons_append,
      wiseofAtom, List.drop_succ_cons, List.drop_zero, List.headD_cons]
    have hroom : (room.take wor_w ++ new_w.drop (room.length + 1 + 1)).length = wor_w := by
      rw [List.length_append, List.length_take, List.length_drop]
      omega
    have hheap := @SlabOk.heap sat_w mug_w wor_w
      (room.take wor_w ++ new_w.drop (room.length + 1 + 1)) (by rw [hroom]) (by rw [hroom]; omega)
    rw [hroom] at hheap
    refine ⟨_, hheap, ?_⟩
    rw [List.take_take, Nat.min_eq_left (Nat.le_of_lt hless), List.take_append_of_le_length
      (by rw [List.length_take]; omega), List.take_take, Nat.min_eq_left (Nat.le_of_lt hless)]

/-- A longer slab has the words that were there. -/
theorem SlabOk.enlarge_gives (hok : SlabOk s len words large) (hhonest : Honest walloc)
    (hless : len < wor_w) (hfits : wor_w ≤ 2 ^ 32 - 6) :
    Gives walloc wor_w (s.enlarge walloc wor_w) fun s' ↦ ∃ ws, SlabOk s' wor_w ws true ∧
    ws.take len = words := by
  unfold Slab.enlarge
  rw [hok.len_eq]
  by_cases hone : len = 1
  · rw [if_pos hone]
    refine (ciInit_gives hhonest s (by omega) hfits).bind fun s₁ ⟨_, hok₁⟩ ↦ ?_
    obtain ⟨s₂, hput, hok₂⟩ :=
      @SlabOk.put _ _ 0 _ [s.room.headD 0] _ hok₁ (by rw [List.length_singleton]; omega)
    rw [hput]
    refine ⟨_, hok₂, ?_⟩
    obtain ⟨hroom, htake⟩ := hok.le_room
    rw [hone] at hroom htake ⊢
    rw [← htake, List.take_zero, List.nil_append, List.take_append_of_le_length (Nat.le_refl 1)]
    cases hroom' : s.room with
    | nil =>
      rw [hroom'] at hroom
      cases hroom
    | cons dat_w room => rfl
  · rw [if_neg hone]
    cases hok with
    | static sat_w => exact absurd rfl hone
    | @heap sat_w mug_w len room hle hpos => exact ciGrow_gives hhonest sat_w mug_w hle hless hfits

/-- Growing keeps the words that have place, and zeros the others. -/
theorem SlabOk.grow_gives (hok : SlabOk s len words large) (hhonest : Honest walloc)
    (hfits : wordsOf met_g len_d ≤ 2 ^ 32 - 6) (hsome : wordsOf met_g len_d = 0 → large = true) :
    Gives walloc (wordsOf met_g len_d) (s.grow walloc met_g len_d) fun s' ↦
      SlabOk s' (wordsOf met_g len_d)
        (words.take (wordsOf met_g len_d) ++ List.replicate (wordsOf met_g len_d - len) 0)
      (large || 1 < wordsOf met_g len_d) := by
  have hwords := hok.words_eq.2
  unfold Slab.grow
  rw [ciSlabSize_of_le hfits]
  generalize wordsOf met_g len_d = wor_w at hfits hsome ⊢
  dsimp only
  rw [hok.len_eq]
  split
  · rename_i hshrink
    rw [Nat.sub_eq_zero_of_le hshrink, List.replicate_zero, List.append_nil]
    cases hok with
    | static sat_w =>
      have hne : wor_w ≠ 0 := fun hzero ↦ by cases hsome hzero
      obtain rfl : wor_w = 1 := by omega
      exact .static sat_w
    | @heap sat_w mug_w len room hle hpos =>
      rw [List.take_take, Nat.min_eq_left hshrink]
      exact .heap sat_w mug_w (Nat.le_trans hshrink hle) hpos
  · rename_i hmore
    have hlarge : (large || decide (1 < wor_w)) = true := by
      cases hok with
      | static sat_w => exact decide_eq_true (by omega)
      | heap => rfl
    refine (hok.enlarge_gives hhonest (Nat.lt_of_not_le hmore) hfits).bind fun s₁ ⟨ws, hok₁,
      hkeep⟩ ↦ ?_
    have hlength : (List.replicate (wor_w - len) (0 : UInt32)).length = wor_w - len :=
      List.length_replicate
    have hput := hok₁.put_gives walloc wor_w len (List.replicate (wor_w - len) 0) (by omega)
    rw [hlength, Nat.add_sub_cancel' (by omega),
      List.drop_of_length_le (Nat.le_of_eq hok₁.words_eq.2), List.append_nil, hkeep] at hput
    rw [hlarge, List.take_of_length_le (by omega)]
    exact hput

theorem SlabRun.ok (hrun : SlabRun s len words large) : SlabOk s len words large := by
  induction hrun with
  | @init walloc met_g len_d sab_u s hhonest hfits hinit =>
    have hgives := slabInitOn_gives hhonest sab_u hfits
    rw [hinit] at hgives
    exact hgives
  | @bare walloc met_g len_d sab_u s hhonest hfits hbare =>
    have hgives := slabBareOn_gives hhonest sab_u hfits
    rw [hbare] at hgives
    exact hgives.2
  | @from_ walloc met_g len_d a sab_u s hhonest hfits hfrom =>
    have hgives := slabFromOn_gives hhonest sab_u hfits a
    rw [hfrom] at hgives
    exact hgives
  | grow _ hhonest hfits hsome hgrow ih =>
    have hgives := ih.grow_gives hhonest hfits hsome
    rw [hgrow] at hgives
    exact hgives
  | @write len i_w v s s' words large _ hlt hput ih =>
    obtain ⟨s₁, hput₁, hgives⟩ := ih.put (show i_w + [v].length ≤ len from hlt)
    have hwords := ih.words_eq.2
    rw [hput] at hput₁
    cases hput₁
    rw [List.set_eq_take_append_cons_drop, if_pos (by omega)]
    rw [List.append_assoc, List.singleton_append] at hgives
    exact hgives

/-! ### What is made of a slab -/

theorem valueOf_append_zeros (words : List UInt32) (more : ℕ) :
    valueOf (words ++ List.replicate more 0) = valueOf words := by
  rw [valueOf, List.map_append, List.map_replicate]
  exact Nat.ofDigits_append_replicate_zero _

theorem valueOf_concat (low : List UInt32) (top : UInt32) :
    valueOf (low ++ [top]) = valueOf low + (2 ^ 32) ^ low.length * top.toNat := by
  rw [valueOf, List.map_append, Nat.ofDigits_append, List.length_map, List.map_singleton,
    Nat.ofDigits_singleton]
  rfl

/-- Up to the last word that is not zero, the words are those of the buffer, and behind it are
zeros. -/
theorem trimZeros_spec {n : ℕ} (hle : n ≤ words.length) : trimZeros words n ≤ n ∧
    words.take n = words.take (trimZeros words n) ++ List.replicate (n - trimZeros words n) 0 ∧
    ∀ k, trimZeros words n = k + 1 → ∃ top, words.take (k + 1) = words.take k ++ [top] ∧
    top ≠ 0 := by
  induction n with
  | zero => exact ⟨Nat.le_refl 0, rfl, fun k hk ↦ by cases hk⟩
  | succ n ih =>
    have hlt : n < words.length := hle
    have htake : words.take (n + 1) = words.take n ++ [words[n]] :=
      List.take_succ_eq_append_getElem hlt
    have hget : words.getD n 0 = words[n] := by
      rw [List.getD_eq_getElem?_getD, List.getElem?_eq_getElem hlt, Option.getD_some]
    rw [trimZeros, hget]
    split
    · rename_i hzero
      obtain ⟨hmost, hsplit, htop⟩ := ih (Nat.le_of_lt hlt)
      refine ⟨by omega, ?_, htop⟩
      rw [htake, hsplit, hzero, List.append_assoc, ← List.replicate_succ', Nat.sub_add_comm hmost]
    · rename_i hne
      refine ⟨Nat.le_refl _, ?_, fun k hk ↦ ?_⟩
      · rw [Nat.sub_self, List.replicate_zero, List.append_nil]
      · obtain rfl : n = k := Nat.succ.inj hk
        exact ⟨_, htake, hne⟩

/-- The atom of the words of a heap atom up to a length. -/
theorem ciAtomMint_value (mug_w : UInt32) {room : List UInt32} {k : ℕ} (hle : k ≤ room.length) :
    (ciAtomMint ⟨mug_w, room.length, room⟩ k).value = valueOf (room.take k) ∧
      ((∀ j, k = j + 1 → ∃ top, room.take (j + 1) = room.take j ++ [top] ∧ top ≠ 0) →
        (ciAtomMint ⟨mug_w, room.length, room⟩ k).Canonical) := by
  unfold ciAtomMint
  dsimp only
  by_cases hzero : k = 0
  · rw [if_pos hzero, hzero]
    exact ⟨rfl, fun _ ↦ show (0 : UInt32) < 0x80000000 by decide⟩
  rw [if_neg hzero]
  by_cases hcat : k = 1 ∧ room.headD 0 < 0x80000000
  · rw [if_pos hcat]
    obtain ⟨rfl, hsmall⟩ := hcat
    cases room with
    | nil => cases hle
    | cons dat_w room =>
      refine ⟨?_, fun _ ↦ hsmall⟩
      show dat_w.toNat = Nat.ofDigits (2 ^ 32) [dat_w.toNat]
      rw [Nat.ofDigits_singleton]
  rw [if_neg hcat]
  -- trimming leaves the words up to the length
  obtain ⟨vat_u, hvat, htake⟩ : ∃ vat_u : Atom, (if k < room.length then
      wtrimAtom ⟨mug_w, room.length, room⟩ room.length k else ⟨mug_w, room.length, room⟩) = vat_u ∧
        vat_u.buf_w.take k = room.take k := by
    refine ⟨_, rfl, ?_⟩
    unfold wtrimAtom
    split
    · split
      · exact (List.take_take ..).trans (by rw [Nat.min_self])
      · rfl
    · rfl
  rw [hvat]
  refine ⟨congrArg valueOf htake, fun htop ↦ ?_⟩
  obtain ⟨j, rfl⟩ := Nat.exists_eq_succ_of_ne_zero hzero
  obtain ⟨top, hconcat, hne⟩ := htop j rfl
  have hlow : (room.take j).length = j := by
    rw [List.length_take]
    omega
  refine ⟨?_, room.take j, top, htake.trans hconcat, by rw [hlow], hne⟩
  have hpos : 0 < top.toNat := Nat.pos_of_ne_zero fun heq ↦ hne (UInt32.toNat_inj.mp heq)
  show 2 ^ 31 ≤ valueOf (vat_u.buf_w.take (j + 1))
  rw [htake, hconcat, valueOf_concat, hlow]
  cases j with
  | zero =>
    -- a word that is not direct
    cases room with
    | nil => cases hle
    | cons dat_w room =>
      obtain rfl : dat_w = top := (List.cons.inj hconcat).1
      have hlarge : ¬ dat_w < 0x80000000 := fun hsmall ↦ hcat ⟨rfl, hsmall⟩
      rw [UInt32.lt_iff_toNat_lt] at hlarge
      have hbound : (0x80000000 : UInt32).toNat = 2 ^ 31 := rfl
      rw [Nat.pow_zero, Nat.one_mul]
      omega
  | succ j =>
    have hbase : 2 ^ 31 ≤ (2 ^ 32) ^ (j + 1) := by
      rw [← Nat.pow_mul]
      exact Nat.pow_le_pow_right (by decide) (by omega)
    exact Nat.le_add_left_of_le (Nat.le_trans hbase (Nat.le_mul_of_pos_right _ hpos))

/-- A slab ends without a failed assertion unless it is on the heap and has one word. -/
theorem SlabOk.free_eq (hok : SlabOk s len words large) :
    s.free = if len = 1 ∧ large = true then .error .assertion else .ok () := by
  cases hok with
  | static sat_w => rfl
  | @heap sat_w mug_w len room hle hpos =>
    unfold Slab.free Slab.Tied
    by_cases hone : len = 1
    · have hboth : len = 1 ∧ true = true := ⟨hone, rfl⟩
      rw [if_pos hone, if_pos hboth]
      rfl
    · have hneither : ¬ (len = 1 ∧ true = true) := fun hboth ↦ hone hboth.1
      rw [if_neg hone, if_neg hneither]
      rfl

theorem Slab.finish_eq (hwords : s.words = .ok words) (size : List UInt32 → ℕ → ℕ) :
    s.finish walloc size =
    if s.len_w = 1 then if s.vat_u.isNone then iWord walloc (words.headD 0) else .error .assertion
    else
      match s.vat_u with
      | none => .error .assertion
      | some vat_u =>
        if s.Tied then .ok (ciAtomMint vat_u (size words s.len_w)) else .error .assertion := by
  unfold Slab.finish
  rw [hwords]
  rfl

theorem SlabOk.finish_one (hok : SlabOk s len words large) (hone : len = 1 ∧ large = true)
    (size : List UInt32 → ℕ → ℕ) :
    s.finish walloc size = .error .assertion := by
  have hwords := hok.words_eq.1
  cases hok with
  | static sat_w => cases hone.2
  | @heap sat_w mug_w len room hle hpos =>
    rw [Slab.finish_eq hwords, if_pos hone.1]
    rfl

/-- What is made of a static slab is its word, and of a heap atom its words up to a length. -/
theorem SlabOk.finish_gives (hok : SlabOk s len words large) (hend : ¬ (len = 1 ∧ large = true))
    (size : List UInt32 → ℕ → ℕ) (hsize : size words len ≤ len) :
    Gives walloc 0 (s.finish walloc size) fun m ↦ (large = false → m.Canonical ∧
    m.value = valueOf words) ∧
      (large = true → m.value = valueOf (words.take (size words len)) ∧
        ((∀ j, size words len = j + 1 → ∃ top, words.take (j + 1) = words.take j ++ [top] ∧
        top ≠ 0) → m.Canonical)) := by
  have hwords := hok.words_eq.1
  rw [Slab.finish_eq hwords]
  cases hok with
  | static sat_w =>
    have hvalue : valueOf [sat_w] = sat_w.toNat := Nat.ofDigits_singleton
    show Gives walloc 0 (iWord walloc sat_w) _
    unfold iWord
    split
    · rename_i hcat
      exact ⟨fun _ ↦ ⟨hcat, hvalue.symm⟩, fun hlarge ↦ by cases hlarge⟩
    · rename_i hlarge
      cases hwalloc : walloc (1 + wiseofAtom) with
      | none => exact ⟨rfl, _, le_max_left _ _, hwalloc⟩
      | some nov_w =>
        refine ⟨fun _ ↦ ⟨⟨?_, [], sat_w, rfl, rfl, fun hzero ↦ hlarge (by rw [hzero]; decide)⟩,
          rfl⟩, fun hlarge ↦ by cases hlarge⟩
        show 2 ^ 31 ≤ valueOf [sat_w]
        rw [UInt32.lt_iff_toNat_lt] at hlarge
        rw [hvalue]
        exact Nat.le_of_not_lt hlarge
  | @heap sat_w mug_w len room hle hpos =>
    have hne : len ≠ 1 := fun hone ↦ hend ⟨hone, rfl⟩
    have htied : Slab.Tied ⟨some ⟨mug_w, room.length, room⟩, sat_w, .vat, len⟩ := ⟨rfl, rfl⟩
    dsimp only
    rw [if_neg hne, if_pos htied]
    generalize size (room.take len) len = k at hsize ⊢
    obtain ⟨hvalue, hcanon⟩ := ciAtomMint_value mug_w (Nat.le_trans hsize hle)
    have htake : ∀ j ≤ k, (room.take len).take j = room.take j := fun j hj ↦ by
      rw [List.take_take, Nat.min_eq_left (Nat.le_trans hj hsize)]
    refine ⟨fun hsmall ↦ (by cases hsmall), fun _ ↦ ⟨?_, fun htop ↦ hcanon fun j hj ↦ ?_⟩⟩
    · rw [htake k (Nat.le_refl k)]
      exact hvalue
    · obtain ⟨top, hconcat, hnonzero⟩ := htop j hj
      rw [htake _ (Nat.le_of_eq hj.symm), htake _ (by omega)] at hconcat
      exact ⟨top, hconcat, hnonzero⟩

theorem SlabOk.mint_gives (hok : SlabOk s len words large) (hend : ¬ (len = 1 ∧ large = true)) :
    Gives walloc 0 (s.mint walloc) fun m ↦ m.Canonical ∧ m.value = valueOf words := by
  have hlength := hok.words_eq.2
  obtain ⟨hmost, hsplit, htop⟩ := trimZeros_spec (Nat.le_of_eq hlength.symm)
  have hgives := @SlabOk.finish_gives s len words large walloc hok hend trimZeros hmost
  unfold Slab.mint
  cases hres : s.finish walloc trimZeros with
  | error f =>
    rw [hres] at hgives
    exact hgives
  | ok m =>
    rw [hres] at hgives
    obtain ⟨hstatic, hheap⟩ := hgives
    cases large with
    | false => exact hstatic rfl
    | true =>
      obtain ⟨hvalue, hcanon⟩ := hheap rfl
      refine ⟨hcanon htop, hvalue.trans ?_⟩
      rw [List.take_of_length_le (Nat.le_of_eq hlength)] at hsplit
      conv_rhs => rw [hsplit]
      exact (valueOf_append_zeros _ _).symm

theorem SlabOk.moot_gives (hok : SlabOk s len words large) (hend : ¬ (len = 1 ∧ large = true)) :
    Gives walloc 0 (s.moot walloc) fun m ↦ m.value = valueOf words := by
  have hgives := @SlabOk.finish_gives s len words large walloc hok hend (fun _ len_w ↦ len_w)
    (Nat.le_refl len)
  unfold Slab.moot
  cases hres : s.finish walloc fun _ len_w ↦ len_w with
  | error f =>
    rw [hres] at hgives
    exact hgives
  | ok m =>
    rw [hres] at hgives
    obtain ⟨hstatic, hheap⟩ := hgives
    cases large with
    | false => exact (hstatic rfl).2
    | true =>
      have hvalue := (hheap rfl).1
      rwa [List.take_of_length_le (Nat.le_of_eq hok.words_eq.2)] at hvalue

end SlabOk

/-- What configuration and every run give: configuration and growth leave the words that are asked
for, or bail because the allocator refuses them; no assertion fails at the end unless a slab that
was longer has one word; what is minted is canonical. -/
theorem slab_run (walloc : Alloc) (met_g len_d : ℕ) (s : Slab) (a len : ℕ) (words : List UInt32)
    (large : Bool) :
    (Honest walloc → wordsOf met_g len_d ≤ 2 ^ 32 - 6 →
      Gives walloc (wordsOf met_g len_d) (slabInitOn walloc met_g len_d s)
        (fun s' ↦ s'.words = .ok (List.replicate (max 1 (wordsOf met_g len_d)) 0)) ∧
      Gives walloc (wordsOf met_g len_d) (slabBareOn walloc met_g len_d s)
        (fun s' ↦ ∃ words, s'.words = .ok words ∧ words.length = max 1 (wordsOf met_g len_d)) ∧
      Gives walloc (wordsOf met_g len_d) (slabFromOn walloc met_g len_d a s)
        fun s' ↦ s'.words = .ok ((List.range (max 1 (wordsOf met_g len_d))).map (wordOf a))) ∧
    (SlabRun s len words large →
      (s.words = .ok words ∧ words.length = len) ∧
      (Honest walloc → wordsOf met_g len_d ≤ 2 ^ 32 - 6 →
        (wordsOf met_g len_d = 0 → large = true) →
        Gives walloc (wordsOf met_g len_d) (s.grow walloc met_g len_d) fun s' ↦ s'.words =
          .ok (words.take (wordsOf met_g len_d) ++ List.replicate (wordsOf met_g len_d - len) 0)) ∧
      (¬ (len = 1 ∧ large = true) → s.free = .ok () ∧
        Gives walloc 0 (s.mint walloc) (fun m ↦ m.Canonical ∧ m.value = valueOf words) ∧
        Gives walloc 0 (s.moot walloc) fun m ↦ m.value = valueOf words) ∧
      (len = 1 ∧ large = true → s.free = .error .assertion ∧ s.mint walloc = .error .assertion ∧
        s.moot walloc = .error .assertion)) := by
  refine ⟨fun hhonest hfits ↦ ⟨?_, ?_, ?_⟩, fun hrun ↦ ⟨hrun.ok.words_eq, ?_, ?_⟩⟩
  · exact (slabInitOn_gives hhonest s hfits).imp fun s' hok ↦ hok.words_eq.1
  · exact (slabBareOn_gives hhonest s hfits).imp fun s' hok ↦ ⟨_, hok.2.words_eq⟩
  · exact (slabFromOn_gives hhonest s hfits a).imp fun s' hok ↦ hok.words_eq.1
  · intro hhonest hfits hsome
    exact (hrun.ok.grow_gives hhonest hfits hsome).imp fun s' hok ↦ hok.words_eq.1
  · refine ⟨fun hend ↦ ⟨?_, hrun.ok.mint_gives hend, hrun.ok.moot_gives hend⟩, fun hend ↦
      ⟨?_, hrun.ok.finish_one hend _, hrun.ok.finish_one hend _⟩⟩
    · rw [hrun.ok.free_eq, if_neg hend]
    · rw [hrun.ok.free_eq, if_pos hend]

/-- An allocator whose memory is full of sevens. -/
def sevens : Alloc := fun len_w ↦ if len_w ≤ 2 ^ 30 then some (List.replicate len_w 7) else none

theorem honest_sevens : Honest sevens := by
  refine ⟨fun {len_w nov_w} hsome ↦ ?_, fun {len_w nov_w} hsome ↦ ?_⟩
  · unfold sevens at hsome
    split at hsome
    · rw [← Option.some.inj hsome, List.length_replicate]
    · cases hsome
  · unfold sevens at hsome
    split at hsome
    · assumption
    · cases hsome

theorem sevens_gives {k : ℕ} (hk : k ≤ 2 ^ 30) : sevens k ≠ none := by
  unfold sevens
  rw [if_pos hk]
  nofun

theorem not_refuses_sevens {words : ℕ} (hwords : words < 2 ^ 29) : ¬Refuses sevens words := by
  rintro ⟨k, hk, hnone⟩
  exact sevens_gives (by omega) hnone

/-- A slab that is not initialized. -/
def slabRaw : Slab := ⟨none, 9, .sat, 0⟩

/-- Two words that grow to three, of which the first is written. -/
theorem slab_run_three : ∃ s m, SlabRun s 3 [5, 0, 0] true ∧ s.mint sevens = .ok m ∧ m.Canonical ∧
    m.value = valueOf [5, 0, 0] := by
  have hinit : ∃ s, slabInitOn sevens 5 2 slabRaw = .ok s ∧ ∃ s', s.grow sevens 5 3 = .ok s' ∧
      ∃ s'', s'.put 0 [5] = .ok s'' ∧ ∃ m, s''.mint sevens = .ok m :=
        ⟨_, rfl, _, rfl, _, rfl, _, rfl⟩
  obtain ⟨s, hinit, s', hgrow, s'', hput, m, hmint⟩ := hinit
  have hrun : SlabRun s'' 3 [5, 0, 0] true :=
    .write (.grow (.init honest_sevens (by decide) hinit) honest_sevens (by decide)
      (by decide) hgrow) (by decide) hput
  have hgives := ((slab_run sevens 5 3 s'' 0 3 [5, 0, 0] true).2 hrun).2.2.1 (by decide)
  rw [hmint] at hgives
  exact ⟨s'', m, hrun, hmint, hgives.2.1⟩

/-- A slab of two words that grows to one, and one of a word that grows to none. -/
theorem slab_asserts : (∃ s s', slabInitOn sevens 5 2 slabRaw = .ok s ∧ s.grow sevens 5 1 = .ok s' ∧
      s'.free = .error .assertion ∧ s'.mint sevens = .error .assertion ∧
      s'.moot sevens = .error .assertion) ∧
    ∃ s s', slabInitOn sevens 5 1 slabRaw = .ok s ∧ s.grow sevens 5 0 = .ok s' ∧
      s'.free = .error .assertion ∧ s'.mint sevens = .error .assertion ∧
      s'.grow sevens 5 8 = .error .overrun :=
  ⟨⟨_, _, rfl, rfl, rfl, rfl, rfl⟩, _, _, rfl, rfl, rfl, rfl, rfl⟩

end Vere.Noun.Imprison
