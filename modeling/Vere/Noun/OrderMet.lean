import Vere.Noun.Order
import Vere.Noun.SerialCue

/-!
# The orders on nouns with large atoms

`u3qa_lth()` of `pkg/noun/jets/a/lth.c` measures two indirect atoms with `u3r_met()` before it
compares them, and `u3r_met()` bails on an atom of `2 ^ 27` words or more. So `u3qc_dor()` bails
where the first difference of two nouns is between atoms of which one is that large (`Clash`,
`qcDor_eq`), and so do `u3qc_gor()` and `u3qc_mor()` on such nouns with equal mugs. Elsewhere the
answers are those of the linear orders of `Order`, and `orders_total` states what is left of each
order.
-/

set_option autoImplicit false

namespace Vere.Noun

/-! ### The comparisons -/

/-- `u3qa_lth()`. -/
def qaLth (a b : ℕ) : Option Bool :=
  if a < 2 ^ 31 ∧ b < 2 ^ 31 then some (decide (a < b))
  else if a = 0 then some true
  else if b = 0 then some false
  else do
    let a_w ← Serial.rMet a
    let b_w ← Serial.rMet b
    if a_w ≠ b_w then some (decide (a_w < b_w)) else some (decide (a < b))

/-- `u3qc_dor()`, where `none` is a bail. -/
def qcDor (a b : Noun) : Option Bool :=
  if a = b then some true
  else
    match a, b with
    | .atom a, .atom b => qaLth a b
    | .atom _, .cell _ _ => some true
    | .cell _ _, .atom _ => some false
    | .cell h_a t_a, .cell h_b t_b => if h_a = h_b then qcDor t_a t_b else qcDor h_a h_b

section Mug

variable (mug : Noun → ℕ)

/-- `u3qc_gor()`, where `none` is a bail. -/
def qcGor (a b : Noun) : Option Bool :=
  let c_w := mug a
  let d_w := mug b
  if c_w = d_w then qcDor a b else some (decide (c_w < d_w))

/-- `u3qc_mor()`, where `none` is a bail. -/
def qcMor (a b : Noun) : Option Bool :=
  let c_w := mug (.atom (mug a))
  let d_w := mug (.atom (mug b))
  if c_w = d_w then qcDor a b else some (decide (c_w < d_w))

end Mug

/-! ### Where they bail -/

/-- Two nouns that differ first in two atoms, neither of them zero and one of `2 ^ 27` words or
more. -/
inductive Clash : Noun → Noun → Prop
  | atom {a b : ℕ} (hne : a ≠ b) (ha : a ≠ 0) (hb : b ≠ 0)
      (hlarge : 2 ^ 32 - 32 < a.size ∨ 2 ^ 32 - 32 < b.size) : Clash (.atom a) (.atom b)
  | head {h_a t_a h_b t_b : Noun} (hclash : Clash h_a h_b) : Clash (.cell h_a t_a) (.cell h_b t_b)
  | tail {h t_a t_b : Noun} (hclash : Clash t_a t_b) : Clash (.cell h t_a) (.cell h t_b)

theorem clash_atom {a b : ℕ} : Clash (.atom a) (.atom b) ↔
    a ≠ b ∧ a ≠ 0 ∧ b ≠ 0 ∧ (2 ^ 32 - 32 < a.size ∨ 2 ^ 32 - 32 < b.size) := by
  constructor
  · rintro ⟨⟩
    exact ⟨‹_›, ‹_›, ‹_›, ‹_›⟩
  · exact fun ⟨hne, ha, hb, hlarge⟩ ↦ .atom hne ha hb hlarge

variable {a b : Noun}

theorem Clash.ne (hclash : Clash a b) : a ≠ b := by
  induction hclash with
  | atom hne => exact fun heq ↦ hne (Noun.atom.inj heq)
  | head _ ih => exact fun heq ↦ ih (Noun.cell.inj heq).1
  | tail _ ih => exact fun heq ↦ ih (Noun.cell.inj heq).2

theorem Clash.symm (hclash : Clash a b) : Clash b a := by
  induction hclash with
  | atom hne ha hb hlarge => exact .atom hne.symm hb ha hlarge.symm
  | head _ ih => exact .head ih
  | tail _ ih => exact .tail ih

theorem size_direct {a : ℕ} (ha : a < 2 ^ 31) : ¬2 ^ 32 - 32 < a.size := by
  have hsize : a.size ≤ 31 := Nat.size_le.mpr ha
  omega

/-- `u3qa_lth()` of different atoms. -/
theorem qaLth_eq {a b : ℕ} (hne : a ≠ b) :
    (Clash (.atom a) (.atom b) ∧ qaLth a b = none) ∨
      (¬Clash (.atom a) (.atom b) ∧ qaLth a b = some (decide (a < b))) := by
  rw [clash_atom]
  unfold qaLth
  by_cases hdirect : a < 2 ^ 31 ∧ b < 2 ^ 31
  · rw [if_pos hdirect]
    refine .inr ⟨?_, rfl⟩
    rintro ⟨-, -, -, hlarge⟩
    exact hlarge.elim (size_direct hdirect.1) (size_direct hdirect.2)
  rw [if_neg hdirect]
  by_cases ha : a = 0
  · rw [if_pos ha]
    refine .inr ⟨fun ⟨_, ha', _, _⟩ ↦ ha' ha, ?_⟩
    rw [decide_eq_true (show a < b by omega)]
  rw [if_neg ha]
  by_cases hb : b = 0
  · rw [if_pos hb]
    refine .inr ⟨fun ⟨_, _, hb', _⟩ ↦ hb' hb, ?_⟩
    rw [decide_eq_false (show ¬a < b by omega)]
  rw [if_neg hb, Serial.rMet_eq, Serial.rMet_eq]
  by_cases hlarge : 2 ^ 32 - 32 < a.size ∨ 2 ^ 32 - 32 < b.size
  · refine .inl ⟨⟨hne, ha, hb, hlarge⟩, ?_⟩
    rcases hlarge with hlarge | hlarge
    · rw [if_neg (Nat.not_le.mpr hlarge)]
      rfl
    · rw [if_neg (Nat.not_le.mpr hlarge)]
      cases (if a.size ≤ 2 ^ 32 - 32 then some a.size else none) <;> rfl
  · refine .inr ⟨fun ⟨_, _, _, hlarge'⟩ ↦ hlarge hlarge', ?_⟩
    rw [not_or, Nat.not_lt, Nat.not_lt] at hlarge
    rw [if_pos hlarge.1, if_pos hlarge.2]
    show (if a.size ≠ b.size then some (decide (a.size < b.size)) else some (decide (a < b))) = _
    by_cases hsize : a.size = b.size
    · rw [if_neg (not_not.mpr hsize)]
    · rw [if_pos hsize]
      congr 1
      rw [decide_eq_decide]
      constructor
      · intro hlt
        by_contra hge
        exact absurd (Nat.size_le_size (Nat.not_lt.mp hge)) (Nat.not_le.mpr hlt)
      · intro hlt
        exact lt_of_le_of_ne (Nat.size_le_size hlt.le) hsize

theorem qcDor_self (a : Noun) : qcDor a a = some true := by
  unfold qcDor
  exact if_pos rfl

theorem qcDor_cell {h_a t_a h_b t_b : Noun} : qcDor (.cell h_a t_a) (.cell h_b t_b) =
    if h_a = h_b then qcDor t_a t_b else qcDor h_a h_b := by
  by_cases heq : Noun.cell h_a t_a = Noun.cell h_b t_b
  · obtain ⟨rfl, rfl⟩ := Noun.cell.inj heq
    simp only [qcDor_self, if_true]
  · rw [qcDor, if_neg heq]

/-- `u3qc_dor()` bails on a clash, and is the order of `Order` elsewhere. -/
theorem qcDor_eq (a b : Noun) :
    (Clash a b ∧ qcDor a b = none) ∨ (¬Clash a b ∧ qcDor a b = some (dor a b)) := by
  induction a generalizing b with
  | atom a =>
    cases b with
    | cell h_b t_b => exact .inr ⟨nofun, by rw [qcDor, dor_atom_cell, if_neg nofun]⟩
    | atom b =>
      by_cases hne : a = b
      · subst hne
        exact .inr ⟨fun hclash ↦ hclash.ne rfl, by rw [qcDor_self, dor_refl]⟩
      · have hne' : Noun.atom a ≠ .atom b := fun heq ↦ hne (Noun.atom.inj heq)
        rw [qcDor, if_neg hne', dor, if_neg hne']
        exact qaLth_eq hne
  | cell h_a t_a ihh iht =>
    cases b with
    | atom b => exact .inr ⟨nofun, by rw [qcDor, dor_cell_atom, if_neg nofun]⟩
    | cell h_b t_b =>
      rw [qcDor_cell, dor_cell]
      by_cases heq : h_a = h_b
      · subst heq
        rw [if_pos rfl, if_pos rfl]
        refine (iht t_b).imp (.imp_left .tail) (.imp_left fun hnot hclash ↦ ?_)
        rcases hclash with _ | hclash | hclash
        · exact hclash.ne rfl
        · exact hnot hclash
      · rw [if_neg heq, if_neg heq]
        refine (ihh h_b).imp (.imp_left .head) (.imp_left fun hnot hclash ↦ ?_)
        rcases hclash with _ | hclash | hclash
        · exact hnot hclash
        · exact heq rfl

theorem qcDor_eq_none : qcDor a b = none ↔ Clash a b := by
  rcases qcDor_eq a b with ⟨hclash, hnone⟩ | ⟨hnot, hsome⟩
  · exact iff_of_true hnone hclash
  · exact iff_of_false (by rw [hsome]; nofun) hnot

theorem dor_of_qcDorM {out : Bool} (hout : qcDor a b = some out) : dor a b = out := by
  rcases qcDor_eq a b with ⟨_, hnone⟩ | ⟨_, hsome⟩
  · cases hnone.symm.trans hout
  · exact Option.some.inj (hsome.symm.trans hout)

/-- Nouns that clash do so with every noun between them. -/
theorem Clash.between {c : Noun} (hclash : Clash a c) (hab : dor a b = true)
    (hbc : dor b c = true) :
    Clash a b ∨ Clash b c := by
  induction hclash generalizing b with
  | @atom a c hne ha hc hlarge =>
    cases b with
    | cell h_b t_b => simp at hbc
    | atom b =>
      rw [dor_atom, decide_eq_true_eq] at hab hbc
      have hb : b ≠ 0 := by omega
      have hlarge : 2 ^ 32 - 32 < c.size :=
        hlarge.elim (fun hlt ↦ hlt.trans_le (Nat.size_le_size (hab.trans hbc))) id
      by_cases heq : b = c
      · subst heq
        exact .inl (.atom hne ha hc (.inr hlarge))
      · exact .inr (.atom heq hb hc (.inr hlarge))
  | @head h_a t_a h_c t_c hclash ih =>
    cases b with
    | atom b => simp at hab
    | cell h_b t_b =>
      rw [dor_cell] at hab hbc
      by_cases hfirst : h_a = h_b
      · subst hfirst
        exact .inr (.head hclash)
      · rw [if_neg hfirst] at hab
        by_cases hsecond : h_b = h_c
        · subst hsecond
          exact .inl (.head hclash)
        · rw [if_neg hsecond] at hbc
          exact (ih hab hbc).imp .head .head
  | @tail h t_a t_c hclash ih =>
    cases b with
    | atom b => simp at hab
    | cell h_b t_b =>
      rw [dor_cell] at hab hbc
      by_cases heq : h = h_b
      · subst heq
        rw [if_pos rfl] at hab hbc
        exact (ih hab hbc).imp .tail .tail
      · rw [if_neg heq] at hab
        rw [if_neg (Ne.symm heq)] at hbc
        exact absurd (dor_antisymm hab hbc) heq

/-! ### What is left of the orders -/

/-- A comparison that bails on some nouns and is otherwise a linear order. -/
structure TotalBut (rel : Noun → Noun → Option Bool) (bails : Noun → Noun → Prop) : Prop where
  refl : ∀ a, rel a a = some true
  antisymm : ∀ a b, rel a b = some true → rel b a = some true → a = b
  trans : ∀ a b c, rel a b = some true → rel b c = some true → rel a c = some true
  total : ∀ a b, ¬bails a b → rel a b = some true ∨ rel b a = some true
  bails : ∀ a b, rel a b = none ↔ bails a b

/-- A number that is compared first. -/
theorem totalBut_thenDor (f : Noun → ℕ) :
    TotalBut (fun a b ↦ if f a = f b then qcDor a b else some (decide (f a < f b)))
      fun a b ↦ f a = f b ∧ Clash a b where
  refl a := by rw [if_pos rfl, qcDor_self]
  antisymm a b hab hba := by
    by_cases heq : f a = f b
    · rw [if_pos heq] at hab
      rw [if_pos heq.symm] at hba
      exact dor_antisymm (dor_of_qcDorM hab) (dor_of_qcDorM hba)
    · rw [if_neg heq, Option.some.injEq, decide_eq_true_eq] at hab
      rw [if_neg (Ne.symm heq), Option.some.injEq, decide_eq_true_eq] at hba
      exact absurd hab (Nat.lt_asymm hba)
  trans a b c hab hbc := by
    by_cases hfirst : f a = f b <;> by_cases hsecond : f b = f c
    · rw [if_pos hfirst] at hab
      rw [if_pos hsecond] at hbc
      rw [if_pos (hfirst.trans hsecond)]
      rcases qcDor_eq a c with ⟨hclash, _⟩ | ⟨_, hsome⟩
      · rcases hclash.between (dor_of_qcDorM hab) (dor_of_qcDorM hbc) with hclash | hclash
        · cases (qcDor_eq_none.mpr hclash).symm.trans hab
        · cases (qcDor_eq_none.mpr hclash).symm.trans hbc
      · rw [hsome, dor_trans (dor_of_qcDorM hab) (dor_of_qcDorM hbc)]
    · rw [if_neg hsecond] at hbc
      rwa [hfirst, if_neg hsecond]
    · rw [if_neg hfirst] at hab
      rwa [← hsecond, if_neg hfirst]
    · rw [if_neg hfirst, Option.some.injEq, decide_eq_true_eq] at hab
      rw [if_neg hsecond, Option.some.injEq, decide_eq_true_eq] at hbc
      rw [if_neg (hab.trans hbc).ne, decide_eq_true (hab.trans hbc)]
  total a b hnot := by
    by_cases heq : f a = f b
    · rw [if_pos heq, if_pos heq.symm]
      have hclash : ¬Clash a b := fun hclash ↦ hnot ⟨heq, hclash⟩
      have hab := (qcDor_eq a b).resolve_left fun hboth ↦ hclash hboth.1
      have hba := (qcDor_eq b a).resolve_left fun hboth ↦ hclash hboth.1.symm
      rw [hab.2, hba.2]
      exact (dor_total a b).imp (congrArg some) (congrArg some)
    · rw [if_neg heq, if_neg (Ne.symm heq)]
      exact (Nat.lt_or_gt_of_ne heq).imp (congrArg some <| decide_eq_true ·)
        (congrArg some <| decide_eq_true ·)
  bails a b := by
    by_cases heq : f a = f b
    · rw [if_pos heq, qcDor_eq_none, and_iff_right heq]
    · rw [if_neg heq]
      exact iff_of_false nofun fun hboth ↦ heq hboth.1

/-- The three orders are total but for clashes, and `dor` is numeric on atoms. -/
theorem orders_total (mug : Noun → ℕ) :
    TotalBut qcDor Clash ∧ TotalBut (qcGor mug) (fun a b ↦ mug a = mug b ∧ Clash a b) ∧
      TotalBut (qcMor mug) (fun a b ↦ mug (.atom (mug a)) = mug (.atom (mug b)) ∧ Clash a b) ∧
      ∀ a b :
      ℕ, ¬Clash (.atom a) (.atom b) → qcDor (.atom a) (.atom b) = some (decide (a ≤ b)) := by
  refine ⟨?_, totalBut_thenDor mug, totalBut_thenDor fun a ↦ mug (.atom (mug a)), fun a b hnot ↦ ?_⟩
  · have hdor := totalBut_thenDor fun _ ↦ 0
    simpa only [if_true, true_and] using hdor
  · rw [← dor_atom]
    exact ((qcDor_eq _ _).resolve_left fun hboth ↦ hnot hboth.1).2

/-- Two different atoms of `2 ^ 27` words and one bit, or more. -/
theorem clash_large {a b : ℕ} (hne : a ≠ b) (ha : 2 ^ 2 ^ 32 ≤ a) (hb : 2 ^ 2 ^ 32 ≤ b) :
    Clash (.atom a) (.atom b) := by
  obtain ⟨k, hk⟩ : ∃ k, k = 2 ^ 32 := ⟨_, rfl⟩
  rw [← hk] at ha hb
  have hpos : 0 < 2 ^ k := Nat.two_pow_pos k
  have hlarge : 2 ^ 32 - 32 < a.size := by
    have hsize := Nat.size_le_size ha
    rw [Nat.size_pow] at hsize
    omega
  exact .atom hne (by omega) (by omega) (.inl hlarge)

theorem clash_succ : Clash (.atom (2 ^ 2 ^ 32)) (.atom (2 ^ 2 ^ 32 + 1)) :=
  clash_large (Nat.lt_add_one _).ne le_rfl (Nat.lt_add_one _).le

/-- Two different atoms that `u3qc_dor()` does not compare. -/
theorem qcDor_large : qcDor (.atom (2 ^ 2 ^ 32)) (.atom (2 ^ 2 ^ 32 + 1)) = none ∧
    qcDor (.atom (2 ^ 2 ^ 32 + 1)) (.atom (2 ^ 2 ^ 32)) = none :=
  ⟨qcDor_eq_none.mpr clash_succ, qcDor_eq_none.mpr clash_succ.symm⟩

end Vere.Noun
