import Mathlib.Data.List.Basic

/-!
# Second-chance clocks

A clock has a ring of entries that are warm or cold, and an arm. The list of the entries from the
arm on, all around, says what it does next: it cools the warm entries that it comes to and removes
the first cold one. `victim` is the entry that it removes, which cooling a warm entry and going on
to the next does not change (`victim_sweep`).
-/

set_option autoImplicit false

namespace Vere.Lib.Clock

variable {α : Type*}

/-- The entries, cold. -/
def cool (ring : List (α × Bool)) : List (α × Bool) := ring.map fun entry ↦ (entry.1, false)

/-- The entry that is removed: the first cold one, or the first one if all are warm. -/
def victim (ring : List (α × Bool)) : Option α :=
  ((ring.find? fun entry ↦ !entry.2).or ring.head?).map Prod.fst

variable {ring swept rest : List (α × Bool)} {entry : α}

theorem cool_fst (ring : List (α × Bool)) : (cool ring).map Prod.fst = ring.map Prod.fst := by
  rw [cool, List.map_map]
  rfl

theorem length_cool (ring : List (α × Bool)) : (cool ring).length = ring.length := List.length_map _

theorem find?_warm (hwarm : ∀ entry ∈ swept, entry.2 = true) :
    (swept.find? fun entry ↦ !entry.2) = none := by
  rw [List.find?_eq_none]
  intro entry hentry
  rw [hwarm entry hentry]
  exact Bool.false_ne_true

/-- Cooling warm entries, on the way of the arm, leaves the victim. -/
theorem victim_sweep (hwarm : ∀ entry ∈ swept, entry.2 = true) :
    victim (rest ++ cool swept) = victim (swept ++ rest) := by
  unfold victim
  rw [List.find?_append, List.find?_append, find?_warm hwarm]
  cases rest.find? fun entry ↦ !entry.2 with
  | some found => rfl
  | none =>
    cases swept with
    | nil =>
      show ((List.head? (rest ++ [])).map Prod.fst) = (rest.head?).map Prod.fst
      rw [List.append_nil]
    | cons first more => rfl

/-- The first cold entry is the victim. -/
theorem victim_cold (hwarm : ∀ entry ∈ swept, entry.2 = true) :
    victim (swept ++ (entry, false) :: rest) = some entry := by
  unfold victim
  rw [List.find?_append, find?_warm hwarm]
  rfl

/-- If all entries are warm, the first one is the victim. -/
theorem victim_warm (hwarm : ∀ entry ∈ ring, entry.2 = true) :
    victim ring = (ring.head?).map Prod.fst := by
  unfold victim
  rw [find?_warm hwarm]
  rfl

/-- If there are cold entries, the victim is one of them. -/
theorem exists_victim_cold {cold : α × Bool} (hcold : cold.2 = false) (hmem : cold ∈ ring) :
    ∃ entry, victim ring = some entry ∧ (entry, false) ∈ ring := by
  have hsome : (ring.find? fun entry ↦ !entry.2).isSome := by
    rw [List.find?_isSome]
    exact ⟨cold, hmem, by rw [hcold]; rfl⟩
  obtain ⟨⟨entry, warm⟩, hfound⟩ := Option.isSome_iff_exists.mp hsome
  have hpred := List.find?_some hfound
  obtain rfl : warm = false := by
    simpa using hpred
  refine ⟨entry, ?_, List.mem_of_find?_eq_some hfound⟩
  unfold victim
  rw [hfound]
  rfl

/-- The first entry from the arm on, when the arm has passed `cut` entries. -/
theorem head?_drop_take (ring : List (α × Bool)) (cut : ℕ) :
    (ring.drop cut ++ ring.take cut).head? = ring[if cut < ring.length then cut else 0]? := by
  rw [List.head?_append, List.head?_drop]
  split_ifs with hlt
  · rw [List.getElem?_eq_getElem hlt]
    rfl
  · rw [List.getElem?_eq_none (Nat.le_of_not_lt hlt), List.take_of_length_le (Nat.le_of_not_lt hlt),
      List.head?_eq_getElem?]
    rfl

end Vere.Lib.Clock
