import Mathlib.Data.List.Nodup

/-!
# Interning

A list in which every member has one index: `intern` finds a member or appends it. The index leads
back to the member (`getElem?_intern`), older indices stay (`prefix_intern`), and no member is there
twice (`nodup_intern`).
-/

set_option autoImplicit false

namespace Vere.Lib

variable {α : Type*} [DecidableEq α]

/-- The index of a member, which is appended when it is not there yet. -/
def intern (l : List α) (x : α) : ℕ × List α :=
  if x ∈ l then (l.idxOf x, l) else (l.length, l ++ [x])

theorem getElem?_intern (l : List α) (x : α) : (intern l x).2[(intern l x).1]? = some x := by
  unfold intern
  split
  · exact List.getElem?_idxOf ‹_›
  · exact List.getElem?_concat_length

theorem prefix_intern (l : List α) (x : α) : l <+: (intern l x).2 := by
  unfold intern
  split
  · exact List.prefix_refl l
  · exact List.prefix_append l [x]

theorem nodup_intern {l : List α} (hnodup : l.Nodup) (x : α) : (intern l x).2.Nodup := by
  unfold intern
  split
  · exact hnodup
  · exact List.nodup_append'.mpr ⟨hnodup, List.nodup_singleton x, by simpa using ‹x ∉ l›⟩

/-- What the list holds after an interning, by index. -/
theorem getElem?_intern_or {l : List α} {x y : α} {i : ℕ} (hget : (intern l x).2[i]? = some y) :
    l[i]? = some y ∨ i = l.length ∧ y = x := by
  unfold intern at hget
  split at hget
  · exact Or.inl hget
  · rcases Nat.lt_trichotomy i l.length with hlt | rfl | hgt
    · rw [List.getElem?_append_left hlt] at hget
      exact Or.inl hget
    · rw [List.getElem?_concat_length, Option.some.injEq] at hget
      exact Or.inr ⟨rfl, hget.symm⟩
    · rw [List.getElem?_eq_none (by simp; omega)] at hget
      simp at hget

end Vere.Lib
