import Mathlib.Data.Nat.Notation
import Mathlib.Logic.Function.Basic
import Mathlib.Tactic.SplitIfs

/-!
# Copies within a memory

A loop that copies words one by one, the lowest first (`ascending`). To lower addresses, or to
addresses that are apart, it is a copy of what was there (`ascending_down`). To higher addresses
that overlap it repeats the words that it is moved by (`ascending_up`), and it is a copy if and only
if they repeat (`repeated_iff`).
-/

set_option autoImplicit false

namespace Vere.Lib.Copy

variable {α : Type*}

/-- Copy some words, the lowest first, by how many there are. -/
def ascending (new old : ℕ) : ℕ → (ℕ → α) → ℕ → α
  | 0, mem => mem
  | count + 1, mem =>
    let mem := ascending new old count mem
    Function.update mem (new + count) (mem (old + count))

variable {new old count : ℕ} {mem : ℕ → α}

theorem ascending_succ (new old count : ℕ) (mem : ℕ → α) (w : ℕ) :
    ascending new old (count + 1) mem w =
      if w = new + count then ascending new old count mem (old + count)
      else ascending new old count mem w :=
  Function.update_apply ..

/-- The other words are as they were. -/
theorem ascending_frame {w : ℕ} (hw : w < new ∨ new + count ≤ w) :
    ascending new old count mem w = mem w := by
  induction count with
  | zero => rfl
  | succ count ih =>
    rw [ascending_succ, if_neg (by omega)]
    exact ih (by omega)

variable {i : ℕ}

/-- A word that has been copied is not written again. -/
theorem ascending_le {count' : ℕ} (hle : count ≤ count') (hi : i < count) :
    ascending new old count' mem (new + i) = ascending new old count mem (new + i) := by
  induction hle with
  | refl => rfl
  | @step count' hle ih =>
    have hlt : i < count' := Nat.lt_of_lt_of_le hi hle
    rw [ascending_succ, if_neg (by omega)]
    exact ih

/-- A word is copied from what the loop before it has left. -/
theorem ascending_at (hi : i < count) :
    ascending new old count mem (new + i) = ascending new old i mem (old + i) := by
  rw [ascending_le (Nat.succ_le_of_lt hi) (Nat.lt_succ_self i), ascending_succ, if_pos rfl]

/-- A copy to lower addresses. -/
theorem ascending_down (hdown : new ≤ old) (hi : i < count) :
    ascending new old count mem (new + i) = mem (old + i) := by
  rw [ascending_at hi]
  exact ascending_frame (.inr (by omega))

/-- A copy to higher addresses repeats the words that it is moved by. -/
theorem ascending_up {d : ℕ} (hup : new = old + d) (hpos : 0 < d) (hi : i < count) :
    ascending new old count mem (new + i) =
      if i < d then mem (old + i) else ascending new old count mem (new + (i - d)) := by
  rw [ascending_at hi]
  split_ifs with hlow
  · exact ascending_frame (.inl (by omega))
  · rw [show old + i = new + (i - d) by omega]
    exact (ascending_le (Nat.le_of_lt hi) (by omega)).symm

/-- Words that repeat those that were written before are right if and only if the words that are
copied repeat. -/
theorem repeated_iff {pre post : ℕ → α} {d : ℕ} (hpos : 0 < d)
    (hpost : ∀ i < count, post i = if i < d then pre i else post (i - d)) :
    (∀ i < count, post i = pre i) ↔ ∀ i < count, d ≤ i → pre i = pre (i - d) := by
  constructor
  · intro hcopy i hi hd
    rw [← hcopy i hi, ← hcopy (i - d) (by omega), hpost i hi, if_neg (by omega)]
  · intro hrepeat i hi
    induction i using Nat.strongRecOn with
    | ind i ih =>
      rw [hpost i hi]
      split_ifs with hlow
      · rfl
      · rw [hrepeat i hi (by omega)]
        exact ih (i - d) (by omega) (by omega)

end Vere.Lib.Copy
