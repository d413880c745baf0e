import Mathlib.Data.List.Basic

/-!
# Searching strings

`strchr()` and `strrchr()` on strings of any alphabet, with the string before the character that is
found and the one behind it, and how they split a string that is put together from two.
-/

set_option autoImplicit false

namespace Vere.Lib.CString

variable {α : Type} [DecidableEq α] {c : α} {s pre post : List α}

/-- `strchr()`: what is before the first occurrence of a character, and behind it. -/
def strchr (c : α) : List α → Option (List α × List α)
  | [] => none
  | x :: s => if x = c then some ([], s) else (strchr c s).map fun (pre, post) ↦ (x :: pre, post)

/-- `strrchr()`: what is before the last occurrence of a character, and behind it. -/
def strrchr (c : α) : List α → Option (List α × List α)
  | [] => none
  | x :: s =>
    match strrchr c s with
    | some (pre, post) => some (x :: pre, post)
    | none => if x = c then some ([], s) else none

theorem strchr_of_notMem (hnot : c ∉ s) : strchr c s = none := by
  induction s with
  | nil => rfl
  | cons x s ih =>
    obtain ⟨hne, hnot⟩ := List.ne_and_not_mem_of_not_mem_cons hnot
    rw [strchr, if_neg (Ne.symm hne), ih hnot]
    rfl

theorem strchr_append (hnot : c ∉ pre) (post : List α) :
    strchr c (pre ++ c :: post) = some (pre, post) := by
  induction pre with
  | nil => exact if_pos rfl
  | cons x pre ih =>
    obtain ⟨hne, hnot⟩ := List.ne_and_not_mem_of_not_mem_cons hnot
    rw [List.cons_append, strchr, if_neg (Ne.symm hne), ih hnot]
    rfl

theorem strrchr_of_notMem (hnot : c ∉ s) : strrchr c s = none := by
  induction s with
  | nil => rfl
  | cons x s ih =>
    obtain ⟨hne, hnot⟩ := List.ne_and_not_mem_of_not_mem_cons hnot
    rw [strrchr, ih hnot]
    exact if_neg (Ne.symm hne)

theorem strrchr_append (pre : List α) (hnot : c ∉ post) :
    strrchr c (pre ++ c :: post) = some (pre, post) := by
  induction pre with
  | nil =>
    rw [List.nil_append, strrchr, strrchr_of_notMem hnot]
    exact if_pos rfl
  | cons x pre ih => rw [List.cons_append, strrchr, ih]

/-- A string has no such character, or it is split at the first one. -/
theorem strchr_cases (c : α) (s : List α) : c ∉ s ∧ strchr c s = none ∨
    ∃ pre post, s = pre ++ c :: post ∧ c ∉ pre ∧ strchr c s = some (pre, post) := by
  by_cases hmem : c ∈ s
  · obtain ⟨pre, post, rfl, hnot⟩ := List.eq_append_cons_of_mem hmem
    exact Or.inr ⟨pre, post, rfl, hnot, strchr_append hnot post⟩
  · exact Or.inl ⟨hmem, strchr_of_notMem hmem⟩

omit [DecidableEq α] in
theorem exists_last (hmem : c ∈ s) : ∃ pre post, s = pre ++ c :: post ∧ c ∉ post := by
  obtain ⟨pre, post, hsplit, hnot⟩ := List.eq_append_cons_of_mem (List.mem_reverse.mpr hmem)
  refine ⟨post.reverse, pre.reverse, ?_, fun h ↦ hnot (List.mem_reverse.mp h)⟩
  rw [← List.reverse_reverse s, hsplit]
  simp

theorem length_of_strchr (hsome : strchr c s = some (pre, post)) : post.length < s.length := by
  obtain ⟨-, hnone⟩ | ⟨pre', post', rfl, -, heq⟩ := strchr_cases c s
  · cases hnone.symm.trans hsome
  · cases heq.symm.trans hsome
    rw [List.length_append, List.length_cons]
    omega

end Vere.Lib.CString
