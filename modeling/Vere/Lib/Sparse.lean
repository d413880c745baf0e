import Mathlib.Data.List.Basic
import Mathlib.Data.List.InsertIdx
import Mathlib.Data.List.Range
import Mathlib.Data.Nat.Bitwise

/-!
# Sparse arrays

A sparse array of at most `width` elements is a word, whose set bits are the occupied positions,
and the list of the elements in the order of their positions. The element at an occupied position
is found at its rank, the number of set bits below it.

`get` reads such an array as a partial function. Replacing, inserting and removing at the rank of
a position changes that function there and nowhere else (`get_set`, `get_insertIdx`,
`get_eraseIdx`), and every element of the list is at some position (`exists_get_of_mem`).
-/

set_option autoImplicit false

namespace Vere.Lib.Sparse

/-- The number of set bits of `map` below position `bound`. -/
def rank (map bound : ℕ) : ℕ := (List.range bound).countP fun bit ↦ map.testBit bit

theorem rank_succ (map bit : ℕ) :
    rank map (bit + 1) = rank map bit + if map.testBit bit then 1 else 0 := by
  simp only [rank, List.range_succ, List.countP_append, List.countP_cons, List.countP_nil]
  omega

theorem rank_mono (map : ℕ) {low high : ℕ} (hle : low ≤ high) : rank map low ≤ rank map high := by
  induction high, hle using Nat.le_induction with
  | base => exact Nat.le_refl _
  | succ high _ ih =>
    rw [rank_succ]
    omega

variable {map bit width index : ℕ}

theorem rank_lt_of_testBit {low high : ℕ} (hbit : map.testBit low = true) (hlt : low < high) :
    rank map low < rank map high := by
  have hsucc := rank_succ map low
  rw [if_pos hbit] at hsucc
  have hle : rank map (low + 1) ≤ rank map high := rank_mono map hlt
  omega

theorem rank_ne_of_testBit {bit' : ℕ} (hbit : map.testBit bit = true)
    (hbit' : map.testBit bit' = true) (hne : bit ≠ bit') : rank map bit ≠ rank map bit' := by
  rcases Nat.lt_or_gt_of_ne hne with hlt | hgt
  · exact Nat.ne_of_lt (rank_lt_of_testBit hbit hlt)
  · exact Nat.ne_of_gt (rank_lt_of_testBit hbit' hgt)

theorem rank_congr {map' : ℕ} {bound : ℕ}
    (hbits : ∀ bit < bound, map'.testBit bit = map.testBit bit) :
    rank map' bound = rank map bound := by
  refine List.countP_congr fun bit hbit ↦ ?_
  rw [hbits bit (List.mem_range.mp hbit)]

/-- Cutting a word off at a position keeps the bits that its rank counts. -/
theorem rank_mod_two_pow (map : ℕ) (hle : bit ≤ width) :
    rank (map % 2 ^ bit) width = rank map bit := by
  have hlow : rank (map % 2 ^ bit) bit = rank map bit := by
    refine rank_congr fun i hi ↦ ?_
    simp [Nat.testBit_mod_two_pow, hi]
  have hhigh : rank (map % 2 ^ bit) width = rank (map % 2 ^ bit) bit := by
    induction width, hle using Nat.le_induction with
    | base => rfl
    | succ width hle ih =>
      have hclear : (map % 2 ^ bit).testBit width = false := by
        simp [Nat.testBit_mod_two_pow, Nat.not_lt.mpr hle]
      rw [rank_succ, ih, hclear]
      simp
  rw [hhigh, hlow]

/-- Every number below the rank of the width is the rank of a set bit. -/
theorem exists_rank_eq (hlt : index < rank map width) :
    ∃ bit < width, map.testBit bit = true ∧ rank map bit = index := by
  induction width with
  | zero => simp [rank] at hlt
  | succ width ih =>
    by_cases hbelow : index < rank map width
    · obtain ⟨bit, hbit, hset, hrank⟩ := ih hbelow
      exact ⟨bit, by omega, hset, hrank⟩
    · rw [rank_succ] at hlt
      by_cases hset : map.testBit width = true
      · rw [if_pos hset] at hlt
        exact ⟨width, by omega, hset, by omega⟩
      · rw [if_neg hset] at hlt
        omega

section Get

variable {α : Type*}

/-- The element at a position. -/
def get (map : ℕ) (items : List α) (bit : ℕ) : Option α :=
  if map.testBit bit then items[rank map bit]? else none

variable {item : α} {items : List α}

theorem get_eq_some_iff :
    get map items bit = some item ↔
      map.testBit bit = true ∧ items[rank map bit]? = some item := by
  unfold get
  split_ifs with hset <;> simp [hset]

theorem get_of_not_testBit (hclear : ¬ map.testBit bit) : get map items bit = none := if_neg hclear

theorem exists_get_of_mem (hlength : items.length = rank map width) (hmem : item ∈ items) :
    ∃ bit < width, get map items bit = some item := by
  obtain ⟨index, hindex, hitem⟩ := List.mem_iff_getElem.mp hmem
  obtain ⟨bit, hbit, hset, hrank⟩ := exists_rank_eq (hlength ▸ hindex)
  refine ⟨bit, hbit, (get_eq_some_iff).mpr ⟨hset, ?_⟩⟩
  rw [hrank, List.getElem?_eq_getElem hindex, hitem]

theorem mem_of_get (hget : get map items bit = some item) : item ∈ items :=
  List.mem_of_getElem? ((get_eq_some_iff).mp hget).2

theorem get_isSome (hlength : items.length = rank map width) (hbit : bit < width)
    (hset : map.testBit bit = true) :
    ∃ item, get map items bit = some item ∧ items[rank map bit]? = some item := by
  have hlt : rank map bit < items.length := hlength ▸ rank_lt_of_testBit hset hbit
  refine ⟨items[rank map bit], (get_eq_some_iff).mpr ⟨hset, ?_⟩, ?_⟩ <;>
    exact List.getElem?_eq_getElem hlt

/-- The elements at the positions below a bound are those in front of its rank. -/
theorem flatMap_get {β : Type*} (f : α → List β) {map bound : ℕ} {items : List α}
    (hle : rank map bound ≤ items.length) :
    ((List.range bound).flatMap fun bit ↦ (get map items bit).elim [] f) =
      (items.take (rank map bound)).flatMap f := by
  induction bound with
  | zero =>
    rw [rank, List.range_zero]
    rfl
  | succ bound ih =>
    have hsucc := rank_succ map bound
    rw [List.range_succ, List.flatMap_append, ih (by omega), List.flatMap_singleton, get]
    by_cases hset : map.testBit bound = true
    · rw [if_pos hset] at hsucc ⊢
      have hlt : rank map bound < items.length := by omega
      rw [hsucc, List.take_add_one, List.getElem?_eq_getElem hlt, List.flatMap_append]
      simp
    · rw [if_neg hset] at hsucc ⊢
      rw [hsucc, Nat.add_zero]
      simp

/-- A list around the element at an index, with the element replaced and removed. -/
theorem exists_split (hitem : items[index]? = some item) :
    ∃ before after, items = before ++ item :: after ∧
      (∀ new, items.set index new = before ++ new :: after) ∧
      items.eraseIdx index = before ++ after := by
  obtain ⟨hlt, rfl⟩ := List.getElem?_eq_some_iff.mp hitem
  refine ⟨items.take index, items.drop (index + 1), ?_, fun new ↦ ?_, ?_⟩
  · rw [List.getElem_cons_drop, List.take_append_drop]
  · rw [List.set_eq_take_append_cons_drop, if_pos hlt]
  · rw [List.eraseIdx_eq_take_drop_succ]

/-- A list with an element inserted, around it. -/
theorem insertIdx_eq (hle : index ≤ items.length) (item : α) :
    items.insertIdx index item = items.take index ++ item :: items.drop index := by
  induction items generalizing index with
  | nil =>
    obtain rfl : index = 0 := Nat.le_zero.mp hle
    rfl
  | cons first items ih =>
    cases index with
    | zero => rfl
    | succ index =>
      rw [List.insertIdx_succ_cons, ih (Nat.le_of_succ_le_succ hle), List.take_succ_cons,
        List.drop_succ_cons, List.cons_append]

/-- A list of two elements, taken apart into the one at an index and the other one. -/
theorem exists_perm_pair (htwo : items.length = 2) (hitem : items[index]? = some item) :
    ∃ other, items[if index = 0 then 1 else 0]? = some other ∧ items.Perm [item, other] ∧
      items.eraseIdx index = [other] := by
  obtain ⟨first, second, rfl⟩ := List.length_eq_two.mp htwo
  match index with
  | 0 =>
    have heq : first = item := by simpa using hitem
    exact ⟨second, rfl, heq ▸ List.Perm.refl _, rfl⟩
  | 1 =>
    have heq : second = item := by simpa using hitem
    exact ⟨first, rfl, heq ▸ List.Perm.swap _ _ _, rfl⟩
  | index + 2 => simp at hitem

/-- Replacing the element at an occupied position. -/
theorem get_set {map : ℕ} {items : List α} {bit : ℕ} {old item : α}
    (hold : get map items bit = some old) (bit' : ℕ) :
    get map (items.set (rank map bit) item) bit' =
      if bit' = bit then some item else get map items bit' := by
  obtain ⟨hset, hget⟩ := (get_eq_some_iff).mp hold
  by_cases heq : bit' = bit
  · have hlt : rank map bit < items.length := (List.getElem?_eq_some_iff.mp hget).1
    subst heq
    rw [if_pos rfl, get, if_pos hset, List.getElem?_set_self hlt]
  · rw [if_neg heq]
    unfold get
    split_ifs with hset'
    · rw [List.getElem?_set_ne (rank_ne_of_testBit hset hset' (Ne.symm heq))]
    · rfl

/-- The word `full` has the bits of `map` and bit `bit`, which `map` does not have. -/
structure Extends (map full bit : ℕ) : Prop where
  clear : map.testBit bit = false
  bits : ∀ bit', full.testBit bit' = (map.testBit bit' || decide (bit' = bit))

theorem Extends.rank_eq {full : ℕ} (hext : Extends map full bit) (bound : ℕ) :
    rank full bound = rank map bound + if bit < bound then 1 else 0 := by
  induction bound with
  | zero => simp [rank]
  | succ bound ih =>
    rw [rank_succ, rank_succ, ih, hext.bits]
    rcases Nat.lt_trichotomy bit bound with hlt | rfl | hgt
    · simp [hlt, Nat.ne_of_gt hlt, Nat.lt_succ_of_lt hlt]
      omega
    · simp [hext.clear]
    · have hge : ¬ bit < bound := by omega
      have hge' : ¬ bit < bound + 1 := by omega
      simp [hge, hge', Nat.ne_of_lt hgt]

/-- Setting a clear bit. -/
theorem extends_or (hclear : ¬ map.testBit bit) : Extends map (map ||| 1 <<< bit) bit := by
  refine ⟨by simpa using hclear, fun bit' ↦ ?_⟩
  rw [Nat.testBit_or, Nat.one_shiftLeft, Nat.testBit_two_pow]
  simp [eq_comm]

@[simp] theorem rank_zero (bound : ℕ) : rank 0 bound = 0 := by simp [rank]

/-- A word with one bit. -/
theorem extends_single (bit : ℕ) : Extends 0 (1 <<< bit) bit := by
  have hext : Extends 0 (0 ||| 1 <<< bit) bit := extends_or (by simp)
  rwa [Nat.zero_or] at hext

/-- Clearing a set bit of a word of `width` bits. -/
theorem extends_clear (hset : map.testBit bit = true) (hmap : map < 2 ^ width) :
    Extends (map &&& ((2 ^ width - 1) ^^^ (1 <<< bit))) map bit := by
  have hbits : ∀ bit', (map &&& ((2 ^ width - 1) ^^^ (1 <<< bit))).testBit bit' =
      (map.testBit bit' && !decide (bit = bit')) := by
    intro bit'
    rw [Nat.testBit_and, Nat.testBit_xor, Nat.testBit_two_pow_sub_one, Nat.one_shiftLeft,
      Nat.testBit_two_pow]
    by_cases hlt : bit' < width
    · simp [hlt]
    · have hclear : map.testBit bit' = false :=
        Nat.testBit_lt_two_pow (hmap.trans_le (Nat.pow_le_pow_right (by decide) (by omega)))
      simp [hclear]
  refine ⟨by simp [hbits], fun bit' ↦ ?_⟩
  rw [hbits]
  by_cases heq : bit' = bit
  · simp [heq, hset]
  · simp [heq, Ne.symm heq]

/-- Inserting an element at a free position. -/
theorem get_insertIdx {map full bit width : ℕ} (hext : Extends map full bit) (hbit : bit < width)
    {items : List α} (hlength : items.length = rank map width) (item : α) (bit' : ℕ) :
    get full (items.insertIdx (rank map bit) item) bit' =
      if bit' = bit then some item else get map items bit' := by
  have hle : rank map bit ≤ items.length := hlength ▸ rank_mono map (Nat.le_of_lt hbit)
  by_cases heq : bit' = bit
  · subst heq
    have hset : full.testBit bit' = true := by simp [hext.bits]
    have hrank : rank full bit' = rank map bit' := by simp [hext.rank_eq]
    rw [if_pos rfl, get, if_pos hset, hrank, List.getElem?_insertIdx_self, if_pos hle]
  · have hsame : full.testBit bit' = map.testBit bit' := by simp [hext.bits, heq]
    rw [if_neg heq]
    unfold get
    rw [hsame]
    split_ifs with hset
    · rw [hext.rank_eq]
      rcases Nat.lt_or_gt_of_ne heq with hlt | hgt
      · have hrank := rank_lt_of_testBit hset hlt
        rw [if_neg (by omega), Nat.add_zero, List.getElem?_insertIdx_of_lt hrank]
      · have hrank := rank_mono map (Nat.le_of_lt hgt)
        rw [if_pos hgt, List.getElem?_insertIdx_of_gt (by omega), Nat.add_sub_cancel]
    · rfl

/-- Removing the element at an occupied position. -/
theorem get_eraseIdx {full : ℕ} (hext : Extends map full bit) (items : List α) (bit' : ℕ) :
    get map (items.eraseIdx (rank full bit)) bit' =
      if bit' = bit then none else get full items bit' := by
  have hrank : rank full bit = rank map bit := by simp [hext.rank_eq]
  by_cases heq : bit' = bit
  · subst heq
    rw [if_pos rfl, get_of_not_testBit (by simp [hext.clear])]
  · have hsame : full.testBit bit' = map.testBit bit' := by simp [hext.bits, heq]
    rw [if_neg heq]
    unfold get
    rw [hsame]
    split_ifs with hset
    · rw [hext.rank_eq bit', hrank]
      rcases Nat.lt_or_gt_of_ne heq with hlt | hgt
      · rw [if_neg (by omega), Nat.add_zero,
          List.getElem?_eraseIdx_of_lt (rank_lt_of_testBit hset hlt)]
      · rw [if_pos hgt, List.getElem?_eraseIdx_of_ge (rank_mono map (Nat.le_of_lt hgt))]
    · rfl

end Get

end Vere.Lib.Sparse
