import Mathlib.Order.Basic

/-!
# Fuel

A recursion that terminates on the inputs it is meant for, but not for a reason that the recursion
itself shows, is written over an amount of fuel and returns `none` when it has run out.
`Returns run c` says that some amount of fuel, and any more, gives the result `c`.
-/

set_option autoImplicit false

namespace Vere.Lib.Fuel

/-- Some amount of fuel, and any more, gives the result `c`. -/
def Returns {β : Type*} (run : ℕ → Option β) (c : β) : Prop :=
  ∃ need, ∀ fuel, need ≤ fuel → run fuel = some c

universe u

variable {β γ : Type u} {c : β} {d : γ}

theorem Returns.pure : Returns (fun _ ↦ some c) c := ⟨0, fun _ _ ↦ rfl⟩

theorem Returns.bind {run : ℕ → Option β} {next : ℕ → β → Option γ} (hrun : Returns run c)
    (hnext : Returns (fun fuel ↦ next fuel c) d) :
    Returns (fun fuel ↦ run fuel >>= next fuel) d := by
  obtain ⟨need, hneed⟩ := hrun
  obtain ⟨need', hneed'⟩ := hnext
  refine ⟨max need need', fun fuel hfuel ↦ ?_⟩
  simp only [hneed fuel (by omega), Option.bind_eq_bind, Option.bind_some]
  exact hneed' fuel (by omega)

variable {run : ℕ → Option β}

theorem Returns.map (f : β → γ) (hrun : Returns run c) :
    Returns (fun fuel ↦ (run fuel).map f) (f c) := by
  obtain ⟨need, hneed⟩ := hrun
  exact ⟨need, fun fuel hfuel ↦ by simp only [hneed fuel hfuel, Option.map_some]⟩

theorem Returns.congr {run' : ℕ → Option β} (hrun : Returns run c)
    (hsame : ∀ fuel, run fuel = run' fuel) : Returns run' c := by
  obtain ⟨need, hneed⟩ := hrun
  exact ⟨need, fun fuel hfuel ↦ (hsame fuel).symm.trans (hneed fuel hfuel)⟩

/-- A call that returns as soon as it has any fuel. -/
theorem Returns.succ (hrun : ∀ fuel, run (fuel + 1) = some c) : Returns run c := by
  refine ⟨1, fun fuel hfuel ↦ ?_⟩
  obtain ⟨more, rfl⟩ : ∃ more, fuel = more + 1 := ⟨fuel - 1, by omega⟩
  exact hrun more

/-- A call that spends one unit of fuel before it goes on. -/
theorem Returns.of_succ {next : ℕ → Option β} (hrun : ∀ fuel, run (fuel + 1) = next fuel)
    (hnext : Returns next c) : Returns run c := by
  obtain ⟨need, hneed⟩ := hnext
  refine ⟨need + 1, fun fuel hfuel ↦ ?_⟩
  obtain ⟨more, rfl⟩ : ∃ more, fuel = more + 1 := ⟨fuel - 1, by omega⟩
  rw [hrun]
  exact hneed more (by omega)

end Vere.Lib.Fuel
