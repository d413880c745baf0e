import Vere.Noun.Words

/-!
# The order of `u3r_nord()`

`u3r_nord()` of `pkg/noun/retrieve.c` answers 0, 1 or 2 for a noun below, equal to or above another
one. Atoms are compared by their lengths and then word by word from the lowest word up, so the
answer is that of a strict order on nouns (`Below`, `rNord_eq`), but on long atoms not that of their
values. `nord_ok_iff` says on which atoms it is: those whose lowest different word is in the order
of their highest one. Where two equal nouns are one pointer is a parameter of the model, and has no
effect.
-/

set_option autoImplicit false

namespace Vere.Noun

open Nock

/-! ### The comparison -/

/-- The loop of `u3r_nord()` over the words of two atoms, with `n` words to go. -/
def nordWords (a b i_w : ℕ) : ℕ → ℕ
  | 0 => 1
  | n + 1 =>
    let ai_w := bufW a i_w
    let bi_w := bufW b i_w
    if ai_w ≠ bi_w then (if ai_w < bi_w then 0 else 2) else nordWords a b (i_w + 1) n

/-- `u3r_nord()` of two atoms that are not one pointer. -/
def nordAtoms (a b : ℕ) : ℕ :=
  if a < 2 ^ 31 then
    if b < 2 ^ 31 then (if a < b then 0 else 2) else 0
  else if b < 2 ^ 31 then 2
  else
    let w_rez := lenW a
    let w_mox := lenW b
    if w_rez ≠ w_mox then (if w_rez < w_mox then 0 else 2) else nordWords a b 0 w_rez

/-- Whether two nouns are one word in C: equal direct atoms are, and other equal nouns may be. -/
def samePointer (same : Bool) (a b : Noun) : Bool :=
  decide (a = b) && (same || match a with | .atom a => decide (a < 2 ^ 31) | .cell _ _ => false)

/-- `u3r_nord()`. `same` tells at which positions of the nouns equal parts are one pointer. -/
def rNord (same : List Bool → Bool) (a b : Noun) : ℕ :=
  if samePointer (same []) a b then 1
  else
    match a, b with
    | .atom a, .atom b => nordAtoms a b
    | .atom _, .cell _ _ => 0
    | .cell _ _, .atom _ => 2
    | .cell h_a t_a, .cell h_b t_b =>
      let c := rNord (fun way ↦ same (false :: way)) h_a h_b
      if c = 1 then rNord (fun way ↦ same (true :: way)) t_a t_b else c

/-! ### The order -/

/-- The lowest different word of two atoms is less in the first one. -/
def LowBelow (a b : ℕ) : Prop := ∃ i, (∀ k < i, bufW a k = bufW b k) ∧ bufW a i < bufW b i

/-- The order of atoms by length and then from the lowest word up. -/
def Under (a b : ℕ) : Prop := lenW a < lenW b ∨ lenW a = lenW b ∧ LowBelow a b

/-- The order of nouns. -/
def Below : Noun → Noun → Prop
  | .atom a, .atom b => Under a b
  | .atom _, .cell _ _ => True
  | .cell _ _, .atom _ => False
  | .cell h_a t_a, .cell h_b t_b => Below h_a h_b ∨ h_a = h_b ∧ Below t_a t_b

variable {a b : ℕ} {same : List Bool → Bool}

theorem LowBelow.trans {c : ℕ} (hab : LowBelow a b) (hbc : LowBelow b c) : LowBelow a c := by
  obtain ⟨i, hi, hlti⟩ := hab
  obtain ⟨j, hj, hltj⟩ := hbc
  rcases Nat.lt_trichotomy i j with hlt | rfl | hlt
  · exact ⟨i, fun k hk ↦ (hi k hk).trans (hj k (hk.trans hlt)), hlti.trans_eq (hj i hlt)⟩
  · exact ⟨i, fun k hk ↦ (hi k hk).trans (hj k hk), hlti.trans hltj⟩
  · exact ⟨j, fun k hk ↦ (hi k (hk.trans hlt)).trans (hj k hk), (hi j hlt).trans_lt hltj⟩

theorem LowBelow.irrefl (a : ℕ) : ¬LowBelow a a := fun ⟨_, _, hlt⟩ ↦ Nat.lt_irrefl _ hlt

theorem Under.trans {c : ℕ} (hab : Under a b) (hbc : Under b c) : Under a c := by
  rcases hab with hab | ⟨heab, hab⟩ <;> rcases hbc with hbc | ⟨hebc, hbc⟩
  · exact .inl (hab.trans hbc)
  · exact .inl (hab.trans_eq hebc)
  · exact .inl (heab.trans_lt hbc)
  · exact .inr ⟨heab.trans hebc, hab.trans hbc⟩

theorem Under.irrefl (a : ℕ) : ¬Under a a := by
  rintro (hlt | ⟨_, hlow⟩)
  · exact Nat.lt_irrefl _ hlt
  · exact LowBelow.irrefl a hlow

theorem Below.trans {a b c : Noun} (hab : Below a b) (hbc : Below b c) : Below a c := by
  induction a generalizing b c with
  | atom a =>
    cases b with
    | atom b =>
      cases c with
      | atom c => exact Under.trans hab hbc
      | cell h_c t_c => trivial
    | cell h_b t_b =>
      cases c with
      | atom c => exact hbc.elim
      | cell h_c t_c => trivial
  | cell h_a t_a ihh iht =>
    cases b with
    | atom b => exact hab.elim
    | cell h_b t_b =>
      cases c with
      | atom c => exact hbc.elim
      | cell h_c t_c =>
        rcases hab with hab | ⟨rfl, hab⟩ <;> rcases hbc with hbc | ⟨rfl, hbc⟩
        · exact .inl (ihh hab hbc)
        · exact .inl hab
        · exact .inl hbc
        · exact .inr ⟨rfl, iht hab hbc⟩

theorem Below.irrefl (a : Noun) : ¬Below a a := by
  induction a with
  | atom a => exact Under.irrefl a
  | cell h t ihh iht =>
    rintro (hhead | ⟨_, htail⟩)
    · exact ihh hhead
    · exact iht htail

/-! ### What the comparison answers -/

theorem nordWords_eq (a b i_w n : ℕ) :
    ((∀ k, i_w ≤ k → k < i_w + n → bufW a k = bufW b k) ∧ nordWords a b i_w n = 1) ∨
      ∃ i, i_w ≤ i ∧ (∀ k, i_w ≤ k → k < i → bufW a k = bufW b k) ∧
        (bufW a i < bufW b i ∧ nordWords a b i_w n = 0 ∨ bufW b i < bufW a i ∧
        nordWords a b i_w n = 2) := by
  induction n generalizing i_w with
  | zero => exact .inl ⟨fun k hle hlt ↦ absurd hlt (by omega), rfl⟩
  | succ n ih =>
    rw [nordWords]
    by_cases hword : bufW a i_w = bufW b i_w
    · rw [if_neg (not_not.mpr hword)]
      rcases ih (i_w + 1) with ⟨hall, hone⟩ | ⟨i, hle, hsame, hout⟩
      · refine .inl ⟨fun k hk hlt ↦ ?_, hone⟩
        rcases Nat.eq_or_lt_of_le hk with rfl | hk
        · exact hword
        · exact hall k hk (by omega)
      · refine .inr ⟨i, by omega, fun k hk hlt ↦ ?_, hout⟩
        rcases Nat.eq_or_lt_of_le hk with rfl | hk
        · exact hword
        · exact hsame k hk hlt
    · rw [if_pos hword]
      refine .inr ⟨i_w, le_rfl, fun k hk hlt ↦ absurd hlt (by omega), ?_⟩
      rcases Nat.lt_or_gt_of_ne hword with hlt | hgt
      · exact .inl ⟨hlt, if_pos hlt⟩
      · exact .inr ⟨hgt, if_neg (Nat.lt_asymm hgt)⟩

/-- A direct atom is under the atoms that are greater. -/
theorem under_of_direct (ha : a < 2 ^ 31) (hlt : a < b) : Under a b := by
  by_cases hlarge : b < 2 ^ 32
  · have hlen : lenW b = 1 := by
      have hpos : 0 < b.size := Nat.size_pos.mpr (by omega)
      have hsize : b.size ≤ 32 := Nat.size_le.mpr hlarge
      unfold lenW
      omega
    unfold Under
    rw [hlen, lenW_direct ha]
    by_cases hzero : a = 0
    · rw [if_pos hzero]
      exact .inl Nat.zero_lt_one
    · rw [if_neg hzero]
      refine .inr ⟨rfl, 0, fun k hk ↦ absurd hk (Nat.not_lt_zero k), ?_⟩
      rwa [bufW_direct (by omega), bufW_direct hlarge]
  · have hsize : 32 < b.size := Nat.lt_size.mpr (Nat.not_lt.mp hlarge)
    refine .inl ?_
    rw [lenW_direct ha]
    unfold lenW
    split_ifs <;> omega

theorem nordAtoms_eq (hne : a ≠ b) :
    (Under a b ∧ nordAtoms a b = 0) ∨ (Under b a ∧ nordAtoms a b = 2) := by
  unfold nordAtoms
  by_cases ha : a < 2 ^ 31
  · rw [if_pos ha]
    by_cases hb : b < 2 ^ 31
    · rw [if_pos hb]
      rcases Nat.lt_or_gt_of_ne hne with hlt | hgt
      · exact .inl ⟨under_of_direct ha hlt, if_pos hlt⟩
      · exact .inr ⟨under_of_direct hb hgt, if_neg (Nat.lt_asymm hgt)⟩
    · rw [if_neg hb]
      exact .inl ⟨under_of_direct ha (by omega), rfl⟩
  · rw [if_neg ha]
    by_cases hb : b < 2 ^ 31
    · rw [if_pos hb]
      exact .inr ⟨under_of_direct hb (by omega), rfl⟩
    · rw [if_neg hb]
      dsimp only
      by_cases hlen : lenW a = lenW b
      · rw [if_neg (not_not.mpr hlen)]
        rcases nordWords_eq a b 0 (lenW a) with ⟨hall, _⟩ | ⟨i, _, hsame, hout⟩
        · refine absurd (eq_of_bufW fun k ↦ ?_) hne
          by_cases hk : k < lenW a
          · exact hall k (Nat.zero_le k) (by omega)
          · rw [bufW_eq_zero (by omega), bufW_eq_zero (by omega)]
        · have hbelow : ∀ k < i, bufW a k = bufW b k := fun k hk ↦ hsame k (Nat.zero_le k) hk
          refine hout.imp (fun ⟨hlt, hzero⟩ ↦ ⟨.inr ⟨hlen, i, hbelow, hlt⟩, hzero⟩) ?_
          exact fun ⟨hgt, htwo⟩ ↦ ⟨.inr ⟨hlen.symm, i, fun k hk ↦ (hbelow k hk).symm, hgt⟩, htwo⟩
      · rw [if_pos hlen]
        rcases Nat.lt_or_gt_of_ne hlen with hlt | hgt
        · exact .inl ⟨.inl hlt, if_pos hlt⟩
        · exact .inr ⟨.inl hgt, if_neg (Nat.lt_asymm hgt)⟩

theorem nordAtoms_self (ha : ¬a < 2 ^ 31) : nordAtoms a a = 1 := by
  unfold nordAtoms
  rw [if_neg ha, if_neg ha]
  dsimp only
  rw [if_neg (not_not.mpr rfl)]
  rcases nordWords_eq a a 0 (lenW a) with ⟨_, hone⟩ | ⟨i, _, _, ⟨hlt, _⟩ | ⟨hlt, _⟩⟩
  · exact hone
  · exact absurd hlt (Nat.lt_irrefl _)
  · exact absurd hlt (Nat.lt_irrefl _)

theorem samePointer_true {same : Bool} {a b : Noun} (hsame : samePointer same a b = true) :
    a = b := by
  unfold samePointer at hsame
  exact of_decide_eq_true (Bool.and_eq_true_iff.mp hsame).1

theorem nordAtoms_of_apart {same : Bool} (hapart : ¬samePointer same (.atom a) (.atom a) = true) :
    nordAtoms a a = 1 := by
  refine nordAtoms_self fun hdirect ↦ hapart ?_
  show (decide (Noun.atom a = .atom a) && (same || decide (a < 2 ^ 31))) = true
  rw [decide_eq_true rfl, decide_eq_true hdirect, Bool.or_true, Bool.and_true]

/-- `u3r_nord()` answers by the order, wherever equal nouns are one pointer. -/
theorem rNord_eq (same : List Bool → Bool) (a b : Noun) :
    (a = b ∧ rNord same a b = 1) ∨ (Below a b ∧ rNord same a b = 0) ∨
    (Below b a ∧ rNord same a b = 2) := by
  induction a generalizing same b with
  | atom a =>
    rw [rNord.eq_def]
    by_cases hpointer : samePointer (same []) (.atom a) b = true
    · rw [if_pos hpointer]
      exact .inl ⟨samePointer_true hpointer, rfl⟩
    · rw [if_neg hpointer]
      cases b with
      | atom b =>
        by_cases hne : a = b
        · subst hne
          exact .inl ⟨rfl, nordAtoms_of_apart hpointer⟩
        · exact .inr (nordAtoms_eq hne)
      | cell h_b t_b => exact .inr (.inl ⟨trivial, rfl⟩)
  | cell h_a t_a ihh iht =>
    rw [rNord.eq_def]
    by_cases hpointer : samePointer (same []) (.cell h_a t_a) b = true
    · rw [if_pos hpointer]
      exact .inl ⟨samePointer_true hpointer, rfl⟩
    · rw [if_neg hpointer]
      cases b with
      | atom b => exact .inr (.inr ⟨trivial, rfl⟩)
      | cell h_b t_b =>
        dsimp only
        rcases ihh (fun way ↦ same (false :: way)) h_b with ⟨rfl, hone⟩ | ⟨hbelow, hzero⟩ | ⟨habove,
        htwo⟩
        · rw [if_pos hone]
          rcases iht (fun way ↦ same (true :: way)) t_b with ⟨rfl, htail⟩ | ⟨hbelow, htail⟩ |
            ⟨habove,
          htail⟩
          · exact .inl ⟨rfl, htail⟩
          · exact .inr (.inl ⟨.inr ⟨rfl, hbelow⟩, htail⟩)
          · exact .inr (.inr ⟨.inr ⟨rfl, habove⟩, htail⟩)
        · rw [hzero]
          exact .inr (.inl ⟨.inl hbelow, rfl⟩)
        · rw [htwo]
          exact .inr (.inr ⟨.inl habove, rfl⟩)

theorem rNord_eq_zero {a b : Noun} : rNord same a b = 0 ↔ Below a b := by
  rcases rNord_eq same a b with ⟨rfl, hout⟩ | ⟨hbelow, hout⟩ | ⟨habove, hout⟩
  · exact iff_of_false (by omega) (Below.irrefl a)
  · exact iff_of_true hout hbelow
  · exact iff_of_false (by omega) fun hbelow ↦ Below.irrefl a (hbelow.trans habove)

theorem rNord_eq_one {a b : Noun} : rNord same a b = 1 ↔ a = b := by
  rcases rNord_eq same a b with ⟨heq, hout⟩ | ⟨hbelow, hout⟩ | ⟨habove, hout⟩
  · exact iff_of_true hout heq
  · refine iff_of_false (by omega) ?_
    rintro rfl
    exact Below.irrefl a hbelow
  · refine iff_of_false (by omega) ?_
    rintro rfl
    exact Below.irrefl a habove

theorem rNord_eq_two {a b : Noun} : rNord same a b = 2 ↔ Below b a := by
  rcases rNord_eq same a b with ⟨rfl, hout⟩ | ⟨hbelow, hout⟩ | ⟨habove, hout⟩
  · exact iff_of_false (by omega) (Below.irrefl a)
  · exact iff_of_false (by omega) fun habove ↦ Below.irrefl a (hbelow.trans habove)
  · exact iff_of_true hout habove

/-! ### Against the values -/

/-- The lowest different word is less in the first atom, and the highest one in the second atom. -/
def Crossed (a b : ℕ) : Prop :=
  ∃ i j, (∀ k < i, bufW a k = bufW b k) ∧ (∀ k > j, bufW a k = bufW b k) ∧ bufW a i < bufW b i ∧
    bufW b j < bufW a j

/-- Indirect atoms of one length whose lowest and highest different words are in different orders.
-/
def Misplaced (a b : ℕ) : Prop :=
  2 ^ 31 ≤ a ∧ 2 ^ 31 ≤ b ∧ lenW a = lenW b ∧ (Crossed a b ∨ Crossed b a)

theorem Crossed.under (hcross : Crossed a b) (hlen : lenW a = lenW b) : Under a b ∧ b < a := by
  obtain ⟨i, j, hlow, hhigh, hlti, hltj⟩ := hcross
  exact ⟨.inr ⟨hlen, i, hlow, hlti⟩, lt_of_bufW (fun k hk ↦ (hhigh k hk).symm) hltj⟩

theorem lt_of_lenW (hlen : lenW a < lenW b) : a < b := by
  by_contra hge
  have hsize := Nat.size_le_size (Nat.not_lt.mp hge)
  unfold lenW at hlen
  omega

theorem Under.lt (hunder : Under a b) (hnot : ¬Misplaced a b) : a < b := by
  rcases hunder with hlt | ⟨hlen, i, hlow, hlti⟩
  · exact lt_of_lenW hlt
  have hne : a ≠ b := by
    rintro rfl
    exact Nat.lt_irrefl _ hlti
  by_contra hge
  have hgt : b < a := lt_of_le_of_ne (Nat.not_lt.mp hge) hne.symm
  by_cases hdirect : b < 2 ^ 31
  · exact Under.irrefl a (Under.trans (.inr ⟨hlen, i, hlow, hlti⟩) (under_of_direct hdirect hgt))
  · refine hnot ⟨by omega, by omega, hlen, .inl ?_⟩
    obtain ⟨j, hhigh, hdiffer⟩ := exists_highest hne
    rcases Nat.lt_or_gt_of_ne hdiffer with hltj | hltj
    · exact absurd (lt_of_bufW hhigh hltj) hge
    · exact ⟨i, j, hlow, hhigh, hlti, hltj⟩

theorem Misplaced.symm (hmis : Misplaced a b) : Misplaced b a :=
  ⟨hmis.2.1, hmis.1, hmis.2.2.1.symm, hmis.2.2.2.symm⟩

/-- What is expected of `u3r_nord()` on three nouns. -/
structure NordOk (a b c : Noun) : Prop where
  antisymm : ∀ s t, rNord s a b ≠ 2 → rNord t b a ≠ 2 → a = b
  swap : ∀ s t, rNord s a b = 0 ↔ rNord t b a = 2
  trans : ∀ s t u, rNord s a b ≠ 2 → rNord t b c ≠ 2 → rNord u a c ≠ 2
  equal : ∀ s, rNord s a b = 1 ↔ a = b
  numeric : ∀ s x y, a = .atom x → b = .atom y → (rNord s a b = 0 ↔ x < y)

/-- `u3r_nord()` is as expected unless the first two nouns are misplaced atoms. -/
theorem nord_ok_iff (a b c : Noun) :
    NordOk a b c ↔ ∀ x y, a = .atom x → b = .atom y → ¬Misplaced x y := by
  constructor
  · rintro hok x y rfl rfl ⟨_, _, hlen, hcross | hcross⟩
    · obtain ⟨hunder, hgt⟩ := hcross.under hlen
      have hlt := (hok.numeric (fun _ ↦ false) x y rfl rfl).mp (rNord_eq_zero.mpr hunder)
      exact Nat.lt_asymm hlt hgt
    · obtain ⟨hunder, hlt⟩ := hcross.under hlen.symm
      have hzero := (hok.numeric (fun _ ↦ false) x y rfl rfl).mpr hlt
      have hback : Under x y := rNord_eq_zero.mp hzero
      exact Under.irrefl x (hback.trans hunder)
  · intro hnot
    refine ⟨fun s t hab hba ↦ ?_, fun s t ↦ rNord_eq_zero.trans rNord_eq_two.symm,
      fun s t u hab hbc ↦ ?_,
      fun s ↦ rNord_eq_one, ?_⟩
    · rcases rNord_eq s a b with ⟨heq, _⟩ | ⟨hbelow, _⟩ | ⟨_, htwo⟩
      · exact heq
      · exact absurd (rNord_eq_two.mpr hbelow) hba
      · exact absurd htwo hab
    · rw [Ne, rNord_eq_two] at hab hbc ⊢
      intro habove
      rcases rNord_eq s a b with ⟨rfl, _⟩ | ⟨hbelow, _⟩ | ⟨hbelow, _⟩
      · exact hbc habove
      · exact hbc (habove.trans hbelow)
      · exact hab hbelow
    · rintro s x y rfl rfl
      rw [rNord_eq_zero]
      constructor
      · exact fun hunder ↦ Under.lt hunder (hnot x y rfl rfl)
      · intro hlt
        rcases rNord_eq s (.atom x) (.atom y) with ⟨heq, _⟩ | ⟨hbelow, _⟩ | ⟨hunder, _⟩
        · exact absurd (Noun.atom.inj heq) hlt.ne
        · exact hbelow
        · have hgt : y < x := Under.lt hunder fun hmis ↦ hnot x y rfl rfl hmis.symm
          exact absurd hlt (Nat.lt_asymm hgt)

/-- An atom that is answered to be above a greater one. -/
theorem rNord_crossed : rNord (fun _ ↦ false) (.atom (2 ^ 32 + 2)) (.atom (2 ^ 33 + 1)) = 2 ∧
    2 ^ 32 + 2 < 2 ^ 33 + 1 := by
  have hlen : lenW (2 ^ 32 + 2) = 2 ∧ lenW (2 ^ 33 + 1) = 2 := by
    constructor
    · have hlow : 32 < (2 ^ 32 + 2).size := Nat.lt_size.mpr (by decide)
      have hhigh : (2 ^ 32 + 2).size ≤ 33 := Nat.size_le.mpr (by decide)
      unfold lenW
      omega
    · have hlow : 33 < (2 ^ 33 + 1).size := Nat.lt_size.mpr (by decide)
      have hhigh : (2 ^ 33 + 1).size ≤ 34 := Nat.size_le.mpr (by decide)
      unfold lenW
      omega
  refine ⟨?_, by decide⟩
  rw [rNord, if_neg (by decide)]
  show nordAtoms _ _ = 2
  rw [nordAtoms, if_neg (by decide), if_neg (by decide), hlen.1, hlen.2]
  decide

end Vere.Noun
