import Vere.Noun.Axis

/-!
# The words of an atom

A direct atom is its one word and an indirect one has `lenW` words `bufW`. An atom is its words
(`eq_of_bufW`), the highest different word of two atoms decides which is less (`lt_of_bufW`), and a
slice inside a word is one of the atom (`slice_bufW`).
-/

set_option autoImplicit false

namespace Vere.Noun

open Nock

variable {a : ℕ}

/-- An atom is its words. -/
theorem eq_of_bufW {b : ℕ} (hwords : ∀ k, bufW a k = bufW b k) : a = b := by
  refine Nat.eq_of_testBit_eq fun i ↦ ?_
  have hbit := congrArg (fun w ↦ w.testBit (i % 32)) (hwords (i / 32))
  simp only [testBit_bufW, Nat.div_add_mod] at hbit
  simpa only [decide_eq_true (Nat.mod_lt i (by decide : 0 < 32)), Bool.true_and] using hbit

/-- The highest different word decides which of two atoms is less. -/
theorem lt_of_bufW {b j : ℕ} (habove : ∀ k > j, bufW a k = bufW b k) (hlt : bufW a j < bufW b j) :
    a < b := by
  have hsplit : ∀ x, x >>> (32 * j) = 2 ^ 32 * (x >>> (32 * (j + 1))) + bufW x j := fun x ↦ by
    rw [bufW, Nat.mul_succ, Nat.shiftRight_add, Nat.shiftRight_eq_div_pow _ 32]
    exact (Nat.div_add_mod _ _).symm
  have hrest : a >>> (32 * (j + 1)) = b >>> (32 * (j + 1)) := eq_of_bufW fun k ↦ by
    have hword := habove (j + 1 + k) (by omega)
    unfold bufW at hword ⊢
    rwa [← Nat.shiftRight_add, ← Nat.shiftRight_add, ← Nat.mul_add]
  by_contra hge
  have hle : b >>> (32 * j) ≤ a >>> (32 * j) := by
    rw [Nat.shiftRight_eq_div_pow, Nat.shiftRight_eq_div_pow]
    exact Nat.div_le_div_right (Nat.not_lt.mp hge)
  rw [hsplit, hsplit, hrest] at hle
  omega

theorem bufW_eq_zero {k : ℕ} (hk : lenW a ≤ k) : bufW a k = 0 := by
  have hsize : a.size ≤ 32 * k := by
    unfold lenW at hk
    omega
  have hlt : a < 2 ^ (32 * k) := Nat.size_le.mp hsize
  rw [bufW, Nat.shiftRight_eq_div_pow, Nat.div_eq_of_lt hlt]
  rfl

/-- Different atoms have a highest word in which they differ. -/
theorem exists_highest {b : ℕ} (hne : a ≠ b) :
    ∃ j, (∀ k > j, bufW a k = bufW b k) ∧ bufW a j ≠ bufW b j := by
  obtain ⟨k, hk⟩ : ∃ k, bufW a k ≠ bufW b k := by
    by_contra hnot
    exact hne (eq_of_bufW fun k ↦ not_not.mp fun hk ↦ hnot ⟨k, hk⟩)
  have hbound : ∀ k, bufW a k ≠ bufW b k → k ≤ max (lenW a) (lenW b) := fun k hk ↦ by
    by_contra hlarge
    exact hk ((bufW_eq_zero (by omega)).trans (bufW_eq_zero (by omega)).symm)
  refine ⟨Nat.findGreatest (fun k ↦ bufW a k ≠ bufW b k) (max (lenW a) (lenW b)), fun m hm ↦ ?_, ?_⟩
  · by_contra hdiffer
    exact Nat.findGreatest_is_greatest hm (hbound m hdiffer) hdiffer
  · exact Nat.findGreatest_spec (P := fun k ↦ bufW a k ≠ bufW b k) (hbound k hk) hk

theorem lenW_direct (ha : a < 2 ^ 31) : lenW a = if a = 0 then 0 else 1 := by
  have hsize : a.size ≤ 31 := Nat.size_le.mpr ha
  unfold lenW
  by_cases hzero : a = 0
  · rw [if_pos hzero, hzero, Nat.size_zero]
  · have hpos : 0 < a.size := Nat.size_pos.mpr (Nat.pos_of_ne_zero hzero)
    rw [if_neg hzero]
    omega

theorem bufW_direct (ha : a < 2 ^ 32) : bufW a 0 = a := Nat.mod_eq_of_lt ha

/-- `u3a_maximum`: the words of a loom of `2 ^ 30`, less those in front of the words of an atom. -/
def maximum : ℕ := 2 ^ 30 - (2 + 2)

/-- An atom that fits on the loom. -/
structure LoomAtom where
  val : ℕ
  fits : lenW val ≤ maximum

/-- Bits of an atom from a position on. -/
def slice (d pos wid : ℕ) : ℕ := (d >>> pos) % 2 ^ wid

theorem testBit_slice (d pos wid i : ℕ) :
    (slice d pos wid).testBit i = (decide (i < wid) && d.testBit (pos + i)) := by
  rw [slice, Nat.testBit_mod_two_pow, Nat.testBit_shiftRight]

/-- A slice inside a word. -/
theorem slice_bufW {d i r wid : ℕ} (hinside : r + wid ≤ 32) :
    slice (bufW d i) r wid = slice d (32 * i + r) wid := by
  refine Nat.eq_of_testBit_eq fun j ↦ ?_
  rw [testBit_slice, testBit_slice, testBit_bufW, Nat.add_assoc]
  by_cases hj : j < wid
  · rw [decide_eq_true (show r + j < 32 by omega), Bool.true_and]
  · rw [decide_eq_false hj, Bool.false_and, Bool.false_and]

theorem lt_lenW (d : ℕ) : d < 2 ^ (32 * lenW d) := by
  refine d.lt_size_self.trans_le (Nat.pow_le_pow_right (by decide) ?_)
  unfold lenW
  omega

/-- There are zeros past the top. -/
theorem slice_past {d pos wid : ℕ} (hpast : 32 * lenW d ≤ pos) : slice d pos wid = 0 := by
  have hlt : d < 2 ^ pos := (lt_lenW d).trans_le (Nat.pow_le_pow_right (by decide) hpast)
  rw [slice, Nat.shiftRight_eq_div_pow, Nat.div_eq_of_lt hlt, Nat.zero_mod]

end Vere.Noun
