import Mathlib.Order.Defs.Unbundled
import Vere.Noun.Basic

/-!
# The orders on nouns

The orders behind `pkg/noun/jets/c/dor.c`, `gor.c` and `mor.c`, as they are where the code gives an
answer; `OrderMet` has the functions themselves, which bail on some large atoms. `dor` compares
nouns in depth-first order, atoms before cells; `gor` compares them by mug and `mor` by the mug of
the mug, both with `dor` for the nouns that collide. All three are linear orders, whatever the mug
(`isLinearOrder_dor`, `isLinearOrder_gor`, `isLinearOrder_mor`).
-/

set_option autoImplicit false

namespace Vere.Noun

/-- Depth-first order. -/
def dor (a b : Noun) : Bool :=
  if a = b then true
  else
    match a, b with
    | .atom a, .atom b => decide (a < b)
    | .atom _, .cell _ _ => true
    | .cell _ _, .atom _ => false
    | .cell h_a t_a, .cell h_b t_b => if h_a = h_b then dor t_a t_b else dor h_a h_b

variable (mug : Noun → ℕ)

/-- The order of mugs. -/
def gor (a b : Noun) : Bool :=
  let c_w := mug a
  let d_w := mug b
  if c_w = d_w then dor a b else decide (c_w < d_w)

/-- The order of the mugs of mugs. -/
def mor (a b : Noun) : Bool :=
  let c_w := mug (.atom (mug a))
  let d_w := mug (.atom (mug b))
  if c_w = d_w then dor a b else decide (c_w < d_w)

theorem dor_refl (a : Noun) : dor a a = true := by
  cases a
  · exact if_pos rfl
  · exact if_pos rfl

@[simp] theorem dor_atom_cell {a : ℕ} {h t : Noun} : dor (.atom a) (.cell h t) = true :=
  if_neg nofun

@[simp] theorem dor_cell_atom {b : ℕ} {h t : Noun} : dor (.cell h t) (.atom b) = false :=
  if_neg nofun

theorem dor_cell {h_a t_a h_b t_b : Noun} :
    dor (.cell h_a t_a) (.cell h_b t_b) = if h_a = h_b then dor t_a t_b else dor h_a h_b := by
  by_cases heq : Noun.cell h_a t_a = Noun.cell h_b t_b
  · obtain ⟨rfl, rfl⟩ := Noun.cell.inj heq
    simp [dor_refl]
  · exact if_neg heq

theorem dor_atom {a b : ℕ} : dor (.atom a) (.atom b) = decide (a ≤ b) := by
  by_cases heq : Noun.atom a = Noun.atom b
  · simp [Noun.atom.inj heq, dor_refl]
  · have hne : a ≠ b := fun h ↦ heq (congrArg _ h)
    refine (if_neg heq).trans ?_
    exact decide_eq_decide.mpr (Nat.lt_iff_le_and_ne.trans (and_iff_left hne))

theorem dor_total (a b : Noun) : dor a b = true ∨ dor b a = true := by
  induction a generalizing b with
  | atom a =>
    cases b with
    | atom b => simpa only [dor_atom, decide_eq_true_eq] using Nat.le_total a b
    | cell h t => exact Or.inl dor_atom_cell
  | cell h t ihh iht =>
    cases b with
    | atom b => exact Or.inr dor_atom_cell
    | cell h' t' =>
      simp only [dor_cell]
      by_cases heq : h = h'
      · simpa [heq] using iht t'
      · simpa [heq, Ne.symm heq] using ihh h'

theorem dor_antisymm {a b : Noun} (hab : dor a b = true) (hba : dor b a = true) : a = b := by
  induction a generalizing b with
  | atom a =>
    cases b with
    | atom b =>
      simp only [dor_atom, decide_eq_true_eq] at hab hba
      exact congrArg _ (Nat.le_antisymm hab hba)
    | cell h t => simp at hba
  | cell h t ihh iht =>
    cases b with
    | atom b => simp at hab
    | cell h' t' =>
      rw [dor_cell] at hab hba
      by_cases heq : h = h'
      · rw [if_pos heq] at hab
        rw [if_pos heq.symm] at hba
        rw [heq, iht hab hba]
      · rw [if_neg heq] at hab
        rw [if_neg (Ne.symm heq)] at hba
        exact absurd (ihh hab hba) heq

theorem dor_trans {a b c : Noun} (hab : dor a b = true) (hbc : dor b c = true) :
    dor a c = true := by
  induction a generalizing b c with
  | atom a =>
    cases c with
    | cell h t => exact dor_atom_cell
    | atom c =>
      cases b with
      | cell h t => simp at hbc
      | atom b =>
        simp only [dor_atom, decide_eq_true_eq] at hab hbc ⊢
        exact Nat.le_trans hab hbc
  | cell h t ihh iht =>
    cases b with
    | atom b => simp at hab
    | cell h' t' =>
      cases c with
      | atom c => simp at hbc
      | cell h'' t'' =>
        rw [dor_cell] at hab hbc ⊢
        by_cases hfirst : h = h'
        · subst hfirst
          rw [if_pos rfl] at hab
          by_cases hsecond : h = h''
          · rw [if_pos hsecond] at hbc ⊢
            exact iht hab hbc
          · rw [if_neg hsecond] at hbc ⊢
            exact hbc
        · rw [if_neg hfirst] at hab
          by_cases hsecond : h' = h''
          · subst hsecond
            rw [if_neg hfirst]
            exact hab
          · rw [if_neg hsecond] at hbc
            by_cases hthird : h = h''
            · subst hthird
              exact absurd (dor_antisymm hab hbc) hfirst
            · rw [if_neg hthird]
              exact ihh hab hbc

/-- Comparison by a number, with `dor` for the nouns of the same number. -/
theorem isLinearOrder_thenDor (f : Noun → ℕ) : IsLinearOrder Noun
    (fun a b ↦ (if f a = f b then dor a b else decide (f a < f b)) = true) where
  refl a := by simp [dor_refl]
  trans a b c hab hbc := by
    by_cases hfirst : f a = f b <;> by_cases hsecond : f b = f c
    · simp only [hfirst, hsecond, if_true] at hab hbc ⊢
      exact dor_trans hab hbc
    · simpa [hfirst, hsecond] using hbc
    · rw [← hsecond, if_neg hfirst]
      rwa [if_neg hfirst] at hab
    · simp only [hfirst, hsecond, if_false, decide_eq_true_eq] at hab hbc
      have hlt : f a < f c := Nat.lt_trans hab hbc
      simp [Nat.ne_of_lt hlt, hlt]
  antisymm a b hab hba := by
    by_cases heq : f a = f b
    · simp only [heq, if_true] at hab hba
      exact dor_antisymm hab hba
    · simp only [heq, Ne.symm heq, if_false, decide_eq_true_eq] at hab hba
      exact absurd hab (Nat.lt_asymm hba)
  total a b := by
    by_cases heq : f a = f b
    · simpa [heq] using dor_total a b
    · simp only [heq, Ne.symm heq, if_false, decide_eq_true_eq]
      exact Nat.lt_or_gt_of_ne heq

/-- `gor` as a relation. -/
abbrev Gor (a b : Noun) : Prop := gor mug a b = true

/-- `mor` as a relation. -/
abbrev Mor (a b : Noun) : Prop := mor mug a b = true

instance isLinearOrder_gor : IsLinearOrder Noun (Gor mug) := isLinearOrder_thenDor mug

instance isLinearOrder_mor : IsLinearOrder Noun (Mor mug) :=
  isLinearOrder_thenDor fun a ↦ mug (.atom (mug a))

end Vere.Noun
