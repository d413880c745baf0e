import Vere.Noun.Nock
import Vere.Noun.NockRules

/-!
# The check of formulas and the compiler

`_n_formulaic` and `_n_comp` are two traversals of formulas. The check wants an atom for the tag of
a hint and for the axis of a 10, and the compiler takes any noun there; the check takes any atom for
the arm of a 9, and the compiler bails on zero. `formulaic_iff_comp_iff` says for which formulas the
two agree.
-/

set_option autoImplicit false

namespace Vere.Noun.Nock

open Serial

/-! ### Shapes of formulas -/

/-- An arm that `u3qc_cap()` bails on: zero, or more bits than `u3r_met()` counts. -/
def armless (arm : ℕ) : Bool := arm = 0 ∨ rMet arm = none

/-- A cell, `u3du()`. -/
def isCell : Noun → Bool
  | .atom _ => false
  | .cell _ _ => true

/-- A cell stands for the tag of a hint or for the axis of a 10, outside of the branches of a 6. -/
def tagged : Noun → Bool
  | .atom _ => false
  | .cell (.cell h t) ar => tagged (.cell h t) || tagged ar
  | .cell (.atom cod) ar =>
    match cod, ar with
    | 3, ar => tagged ar
    | 4, ar => tagged ar
    | 2, .cell a b => tagged a || tagged b
    | 5, .cell a b => tagged a || tagged b
    | 7, .cell a b => tagged a || tagged b
    | 8, .cell a b => tagged a || tagged b
    | 12, .cell a b => tagged a || tagged b
    | 6, .cell a (.cell _ _) => tagged a
    | 9, .cell (.atom _) b => tagged b
    | 10, .cell (.cell axe a) b => isCell axe || tagged a || tagged b
    | 11, .cell (.atom _) b => tagged b
    | 11, .cell (.cell tag a) b => isCell tag || tagged a || tagged b
    | _, _ => false

/-- A formula, up to cells that stand for tags and axes; of the branches of a 6 one is a formula. -/
def shaped : Noun → Bool
  | .atom _ => false
  | .cell (.cell h t) ar => shaped (.cell h t) && shaped ar
  | .cell (.atom cod) ar =>
    match cod, ar with
    | 0, .atom _ => true
    | 1, _ => true
    | 3, ar => shaped ar
    | 4, ar => shaped ar
    | 2, .cell a b => shaped a && shaped b
    | 5, .cell a b => shaped a && shaped b
    | 7, .cell a b => shaped a && shaped b
    | 8, .cell a b => shaped a && shaped b
    | 12, .cell a b => shaped a && shaped b
    | 6, .cell a (.cell b c) =>
      shaped a && ((shaped b && !tagged b) || (shaped c && !tagged c))
    | 9, .cell (.atom _) b => shaped b
    | 10, .cell (.cell _ a) b => shaped a && shaped b
    | 11, .cell (.atom _) b => shaped b
    | 11, .cell (.cell _ a) b => shaped a && shaped b
    | _, _ => false

/-- There is a 9 without an arm, at a place that is compiled: of the branches of a 6 those that are
formulas. -/
def hollow : Noun → Bool
  | .atom _ => false
  | .cell (.cell h t) ar => hollow (.cell h t) || hollow ar
  | .cell (.atom cod) ar =>
    match cod, ar with
    | 3, ar => hollow ar
    | 4, ar => hollow ar
    | 2, .cell a b => hollow a || hollow b
    | 5, .cell a b => hollow a || hollow b
    | 7, .cell a b => hollow a || hollow b
    | 8, .cell a b => hollow a || hollow b
    | 12, .cell a b => hollow a || hollow b
    | 6, .cell a (.cell b c) => hollow a || (shaped b && !tagged b && hollow b) ||
        (shaped c && !tagged c && hollow c)
    | 9, .cell (.atom arm) b => armless arm || hollow b
    | 10, .cell (.cell _ a) b => hollow a || hollow b
    | 11, .cell (.atom _) b => hollow b
    | 11, .cell (.cell _ a) b => hollow a || hollow b
    | _, _ => false

attribute [grind =] tagged shaped hollow

/-! ### What the check accepts -/

theorem and_not_and_not (s t s' t' : Bool) :
    (s && !t && (s' && !t')) = (s && s' && (!t && !t')) := by
  ac_rfl

theorem not_or_and (s t h : Bool) : (!(s && !t) || (s && !h)) = !(s && !t && h) := by
  cases s <;> cases t <;> cases h <;> rfl

/-- The check accepts the formulas with atoms for tags and axes. -/
theorem formulaic_eq (f : Noun) : formulaic f = (shaped f && !tagged f) := by
  fun_induction formulaic f with
  | case17 cod ar h1 h3 h4 h0 h2 h5 h7 h8 h12 h6 h9 h10 h11 h11' =>
    unfold shaped tagged
    split <;> try simp_all
    -- a cell for the axis of a 10 or the tag of an 11
    case h_12 axe a b => cases axe <;> simp_all [isCell]
    case h_14 tag a b => cases tag <;> simp_all [isCell]
  | case12 a b c iha ihb ihc =>
    simp only [shaped, tagged, iha, ihb, ihc]
    ac_rfl
  | case16 tag a b ihb iha =>
    simp only [shaped, tagged, iha, ihb, isCell, Bool.false_or, Bool.not_or]
    ac_rfl
  | _ => simp_all [shaped, tagged, isCell, and_not_and_not]

/-! ### What the compiler accepts -/

/-- The compiler returns. -/
def isOk {α : Type} : Except Crash α → Bool
  | .ok _ => true
  | .error _ => false

theorem isOk_iff {α : Type} (x : Except Crash α) : isOk x = true ↔ ∃ v, x = .ok v := by
  cases x with
  | ok v => simp [isOk]
  | error e => simp [isOk]

/-- Two parts that are compiled one after the other. -/
theorem isOk_bind_bind {x y : Except Crash (List Op)} {g : List Op → List Op → List Op} :
    isOk (x >>= fun v ↦ y >>= fun w ↦ .ok (g v w)) = (isOk x && isOk y) := by
  cases x <;> cases y <;> rfl

theorem isOk_bind_ok {x : Except Crash (List Op)} {g : List Op → List Op} :
    isOk (x >>= fun v ↦ .ok (g v)) = isOk x := by
  cases x <;> rfl

section Hints

variable {nef : Noun} {comp : Bool → Bool → Except Crash (List Op)} {b : Bool}

theorem isOk_bintAtom (hcomp : ∀ los tel, isOk (comp los tel) = b) (los tel : Bool) (hif : ℕ) :
    isOk (bintAtom nef comp los tel hif) = b := by
  unfold bintAtom
  split
  · rw [isOk_bind_ok, hcomp]
  · exact hcomp los tel

theorem isOk_bintCell (hcomp : ∀ los tel, isOk (comp los tel) = b) (los tel : Bool) (zep : Noun)
    (hod : Except Crash (List Op)) :
    isOk (bintCell nef comp los tel zep hod) = (isOk hod && b) := by
  unfold bintCell
  cases zep with
  | cell h t => rw [isOk_bind_bind, hcomp]
  | atom zep =>
    by_cases hhooked : zep ∈ hooked
    · simp only [if_pos hhooked]
      rw [isOk_bind_bind, hcomp, Bool.and_comm]
    · simp only [if_neg hhooked]
      repeat' split
      all_goals rw [isOk_bind_bind, hcomp]

end Hints

theorem isOk_cap {arm : ℕ} (hne : arm ≠ 1) : isOk (cap (.atom arm)) = !armless arm := by
  unfold armless
  rw [cap]
  cases hmet : rMet arm with
  | none => simp [isOk]
  | some met =>
    rw [rMet_eq] at hmet
    have hsize : arm.size = met := by
      split at hmet
      · exact Option.some.inj hmet
      · cases hmet
    have hshort : met < 2 ↔ arm = 0 := by
      rw [← hsize, Nat.lt_succ_iff, Nat.size_le]
      omega
    by_cases hzero : arm = 0
    · simp [hshort.mpr hzero, hzero, isOk]
    · simp [mt hshort.mp hzero, hzero, isOk]

theorem isOk_compFrag (axe : ℕ) (los : Bool) : isOk (compFrag (.atom axe) los) = true := by
  unfold compFrag
  split <;> simp_all [isOk]

variable {f a : Noun}

theorem shaped_of_isLit {lit : Noun} (hlit : isLit f = some lit) :
    shaped f = true ∧ hollow f = false := by
  unfold isLit at hlit
  split at hlit
  · simp [shaped, hollow]
  · cases hlit

/-- Comparisons are compiled whether or not a side is a literal. -/
theorem isOk_comp_same {b : Noun} {okA okB : Bool} (hcompA : ∀ los tel, isOk (comp a los tel) = okA)
    (hcompB : ∀ los tel, isOk (comp b los tel) = okB)
    (hlitA : ∀ lit, isLit a = some lit → okA = true)
    (hlitB : ∀ lit, isLit b = some lit → okB = true) (los tel : Bool) :
    isOk (comp (.cell (.atom 5) (.cell a b)) los tel) = (okA && okB) := by
  cases a with
  | atom a =>
    rw [← hcompA los tel]
    rfl
  | cell ah at' =>
    cases b with
    | atom b =>
      rw [← hcompB los tel]
      simp [comp, isOk]
    | cell bh bt =>
      rw [comp]
      split
      · next hedLit talLit hhed htal =>
        rw [hlitA _ hhed, hlitB _ htal]
        rfl
      · rw [isOk_bind_bind, hcompA, hcompB]
      · next lit hhed htal => rw [isOk_bind_ok, hcompB, hlitA _ hhed, Bool.true_and]
      · next lit hhed htal => rw [isOk_bind_ok, hcompA, hlitB _ htal, Bool.and_true]

/-- Of the branches of a conditional, those that are not formulas are not compiled. -/
theorem isOk_comp_cond {b c : Noun} {okA okB okC : Bool}
    (hcompA : ∀ los tel, isOk (comp a los tel) = okA)
    (hcompB : ∀ los tel, isOk (comp b los tel) = okB)
    (hcompC : ∀ los tel, isOk (comp c los tel) = okC) (los tel : Bool) :
    isOk (comp (.cell (.atom 6) (.cell a (.cell b c))) los tel) =
      (okA && (formulaic b || formulaic c) && (!formulaic b || okB) && (!formulaic c || okC)) := by
  rw [comp, ← hcompA false false, ← hcompB los tel, ← hcompC los tel]
  cases comp a false false with
  | error e => rfl
  | ok hed =>
    cases formulaic b <;> cases formulaic c <;> cases comp b los tel <;>
      cases comp c los tel <;> rfl

/-- The arm of a 9 is checked, by `u3qc_cap()`, only for what is wrong with it. -/
theorem isOk_comp_kick {arm : ℕ} {b : Noun} {okB : Bool}
    (hcomp : ∀ los tel, isOk (comp b los tel) = okB) (los tel : Bool) :
    isOk (comp (.cell (.atom 9) (.cell (.atom arm) b)) los tel) = (!armless arm && okB) := by
  rw [comp]
  by_cases hone : arm = 1
  · subst hone
    have harm : armless 1 = false := by decide
    rw [harm, ← hcomp los false]
    cases comp b los false <;> rfl
  · rw [if_neg (by simpa using hone), ← isOk_cap hone]
    cases cap (.atom arm) with
    | error e => rfl
    | ok side =>
      show isOk (if decide (side = 3) = true then _ else _) = _
      split
      · rw [isOk_bind_bind, hcomp, isOk_compFrag, Bool.and_true]
        rfl
      · rw [isOk_bind_ok, hcomp]
        rfl

/-- The compiler accepts the formulas without a hollow 9 at a place that it compiles. -/
theorem isOk_comp (f : Noun) (los tel : Bool) :
    isOk (comp f los tel) = (shaped f && !hollow f) := by
  fun_induction shaped f generalizing los tel with
  | case1 => rfl
  | case2 h t ar ihh iha =>
    rw [comp, isOk_bind_bind, ihh, iha, hollow, Bool.not_or, and_not_and_not]
  | case3 axe =>
    rw [comp, isOk_compFrag]
    simp [hollow]
  | case4 lit => simp [comp, isOk, hollow]
  | case5 ar ih | case6 ar ih => rw [comp, isOk_bind_ok, ih, hollow]
  | case7 a b iha ihb | case9 a b iha ihb | case10 a b iha ihb | case11 a b iha ihb =>
    rw [comp, isOk_bind_bind, iha, ihb, hollow, Bool.not_or, and_not_and_not]
  | case8 a b iha ihb =>
    have hlit : ∀ {g lit : Noun}, isLit g = some lit → (shaped g && !hollow g) = true := by
      intro g lit hg
      simp [shaped_of_isLit hg]
    rw [isOk_comp_same iha ihb (fun _ ↦ hlit) (fun _ ↦ hlit), hollow, Bool.not_or, and_not_and_not]
  | case12 a b c iha ihb ihc =>
    rw [isOk_comp_cond iha ihb ihc, hollow, formulaic_eq, formulaic_eq, not_or_and, not_or_and]
    simp only [Bool.not_or]
    ac_rfl
  | case13 arm b ih =>
    rw [isOk_comp_kick ih, hollow, Bool.not_or]
    ac_rfl
  | case14 axe a b iha ihb =>
    rw [comp, isOk_bind_bind, iha, ihb, hollow, Bool.not_or, and_not_and_not]
    ac_rfl
  | case15 tag b ih => rw [comp, isOk_bintAtom ih, hollow]
  | case16 tag a b iha ihb =>
    rw [comp, isOk_bintCell ihb, iha, hollow, Bool.not_or, and_not_and_not]
  | case17 cod ar h0 h1 h3 h4 h2 h5 h7 h8 h12 h6 h9 h10 h11 h11' =>
    unfold comp
    split <;> simp_all
    case h_1 => cases ar <;> simp_all [compFrag, isOk]
    case h_10 hed tal =>
      cases hed with
      | atom arm => exact absurd rfl (h9 arm)
      | cell h t => rfl
    case h_15 => rfl

/-! ### Where the two agree -/

theorem formulaic_iff_comp_iff (f : Noun) (los tel : Bool) :
    (formulaic f = true ↔ ∃ ops, comp f los tel = .ok ops) ↔
      (shaped f = true → (tagged f = true ↔ hollow f = true)) := by
  rw [← isOk_iff, isOk_comp, formulaic_eq]
  cases shaped f <;> cases tagged f <;> cases hollow f <;> decide

/-- Neither a cell for a tag or an axis nor a 9 without an arm, in both branches of every 6. -/
def clean : Noun → Bool
  | .atom _ => true
  | .cell (.cell h t) ar => clean (.cell h t) && clean ar
  | .cell (.atom cod) ar =>
    match cod, ar with
    | 3, ar => clean ar
    | 4, ar => clean ar
    | 2, .cell a b => clean a && clean b
    | 5, .cell a b => clean a && clean b
    | 7, .cell a b => clean a && clean b
    | 8, .cell a b => clean a && clean b
    | 12, .cell a b => clean a && clean b
    | 6, .cell a (.cell b c) => clean a && clean b && clean c
    | 9, .cell (.atom arm) b => !armless arm && clean b
    | 10, .cell (.cell axe a) b => !isCell axe && clean a && clean b
    | 11, .cell (.atom _) b => clean b
    | 11, .cell (.cell tag a) b => !isCell tag && clean a && clean b
    | _, _ => true

attribute [grind =] clean

theorem not_hollow_of_clean (f : Noun) (hclean : clean f = true) : hollow f = false := by
  fun_induction hollow f <;> simp_all [clean]

/-- What has a product is a formula. -/
theorem formulaic_of_product {p : Noun} (hproduct : Product a f p) (hclean : clean f = true) :
    formulaic f = true := by
  induction hproduct with
  | frag | lit => simp [formulaic]
  | @clue a b c d clu p hc hd ihc ihd =>
    cases b with
    | atom tag => simp_all [clean, formulaic]
    | cell h t => simp [clean, isCell] at hclean
  | _ => simp_all [clean, formulaic]

/-- A formula that is clean and has a product is compiled. -/
theorem comp_of_product {p : Noun} (hproduct : Product a f p) (hclean : clean f = true)
    (los tel : Bool) : ∃ ops, comp f los tel = .ok ops := by
  have hformulaic := formulaic_of_product hproduct hclean
  rw [formulaic_eq, Bool.and_eq_true] at hformulaic
  rw [← isOk_iff, isOk_comp, hformulaic.1, not_hollow_of_clean f hclean]
  rfl

/-- The instructions of a conditional, from those of its parts. -/
def condOps (hed yep nop : List Op) : List Op :=
  hed ++ [⟨.sbin, some (.atom (yep.length + 1))⟩] ++
    (yep ++ [⟨.sbip, some (.atom nop.length)⟩]) ++ nop

/-- A branch of a conditional: a formula is compiled, and any other noun becomes a bail. -/
def compBranch (f : Noun) (los tel : Bool) : Except Crash (List Op) :=
  if formulaic f then comp f los tel else .ok [op .bail]

theorem comp_cond {b c d : Noun} {hed yep nop : List Op} {los tel : Bool}
    (hhed : comp b false false = .ok hed) (hformulaic : formulaic c = true ∨ formulaic d = true)
    (hyep : compBranch c los tel = .ok yep) (hnop : compBranch d los tel = .ok nop) :
    comp (.cell (.atom 6) (.cell b (.cell c d))) los tel = .ok (condOps hed yep nop) := by
  rw [comp, hhed]
  cases hfc : formulaic c <;> cases hfd : formulaic d <;>
    simp_all [compBranch, condOps, bind, Except.bind]

/-- A branch of a conditional that is clean is compiled. -/
theorem compBranch_ok (hclean : clean f = true) (los tel : Bool) :
    ∃ ops, compBranch f los tel = .ok ops := by
  unfold compBranch
  by_cases hformulaic : formulaic f = true
  · rw [if_pos hformulaic, ← isOk_iff, isOk_comp, not_hollow_of_clean f hclean]
    rw [formulaic_eq, Bool.and_eq_true] at hformulaic
    rw [hformulaic.1]
    rfl
  · exact ⟨[op .bail], if_neg hformulaic⟩

/-- The check accepts `f` exactly if the compiler does, for the formulas with both or neither of a
cell for a tag or an axis and a 9 without an arm. A clean conditional that has a product is
compiled, and the branch that is taken is not replaced. -/
theorem formulaic_agrees (f a b c d p : Noun) (los tel : Bool) :
    ((formulaic f = true ↔ ∃ ops, comp f los tel = .ok ops) ↔
      (shaped f = true → (tagged f = true ↔ hollow f = true))) ∧
    (clean (.cell (.atom 6) (.cell b (.cell c d))) = true →
      Product a (.cell (.atom 6) (.cell b (.cell c d))) p →
      ∃ hed yep nop, comp (.cell (.atom 6) (.cell b (.cell c d))) los tel =
        .ok (condOps hed yep nop) ∧
        comp b false false = .ok hed ∧
        ((Product a b (.atom 0) ∧ Product a c p ∧ comp c los tel = .ok yep) ∨
          (Product a b (.atom 1) ∧ Product a d p ∧ comp d los tel = .ok nop))) := by
  refine ⟨formulaic_iff_comp_iff f los tel, fun hclean hproduct ↦ ?_⟩
  have hclean' : (clean b = true ∧ clean c = true) ∧ clean d = true := by
    simpa [clean] using hclean
  obtain ⟨⟨hb, hc⟩, hd⟩ := hclean'
  obtain ⟨yep, hyep⟩ := compBranch_ok hc los tel
  obtain ⟨nop, hnop⟩ := compBranch_ok hd los tel
  cases hproduct with
  | yes htest hrun =>
    obtain ⟨hed, hhed⟩ := comp_of_product htest hb false false
    have hformulaic := formulaic_of_product hrun hc
    refine ⟨hed, yep, nop, comp_cond hhed (Or.inl hformulaic) hyep hnop, hhed,
      Or.inl ⟨htest, hrun, ?_⟩⟩
    rwa [compBranch, if_pos hformulaic] at hyep
  | no htest hrun =>
    obtain ⟨hed, hhed⟩ := comp_of_product htest hb false false
    have hformulaic := formulaic_of_product hrun hd
    refine ⟨hed, yep, nop, comp_cond hhed (Or.inr hformulaic) hyep hnop, hhed,
      Or.inr ⟨htest, hrun, ?_⟩⟩
    rwa [compBranch, if_pos hformulaic] at hnop

theorem formulaic_agrees_six :
    (formulaic (.cell (.atom 1) (.atom 5)) = true ↔
      ∃ ops, comp (.cell (.atom 1) (.atom 5)) true true = .ok ops) ∧
    ∃ hed yep nop, comp (.cell (.atom 6) (.cell (.cell (.atom 1) (.atom 0))
      (.cell (.cell (.atom 1) (.atom 5)) (.atom 7)))) true true = .ok (condOps hed yep nop) ∧
      comp (.cell (.atom 1) (.atom 0)) false false = .ok hed ∧
        ((Product (.atom 3) (.cell (.atom 1) (.atom 0)) (.atom 0) ∧
            Product (.atom 3) (.cell (.atom 1) (.atom 5)) (.atom 5) ∧
            comp (.cell (.atom 1) (.atom 5)) true true = .ok yep) ∨
          (Product (.atom 3) (.cell (.atom 1) (.atom 0)) (.atom 1) ∧
          Product (.atom 3) (.atom 7) (.atom 5) ∧
            comp (.atom 7) true true = .ok nop)) :=
  have hboth := formulaic_agrees (.cell (.atom 1) (.atom 5)) (.atom 3) (.cell (.atom 1) (.atom 0))
    (.cell (.atom 1) (.atom 5)) (.atom 7) (.atom 5) true true
  ⟨hboth.1.mpr (by decide), hboth.2 (by decide) (.yes .lit .lit)⟩

/-- `[9 0 [0 1]]` is accepted by the check, and the compiler bails on it, also where it stands in
the branch of a conditional that is not taken; the branch `[11 [[1 2] [1 0]] [1 5]]` is replaced by
a bail though it has a product. -/
theorem formulaic_nine_zero :
    (formulaic (.cell (.atom 9) (.cell (.atom 0) (.cell (.atom 0) (.atom 1)))) = true ∧
      comp (.cell (.atom 9) (.cell (.atom 0) (.cell (.atom 0) (.atom 1)))) true true =
        .error .bail) ∧
    (Product (.atom 3)
      (.cell (.atom 6) (.cell (.cell (.atom 1) (.atom 0)) (.cell (.cell (.atom 1) (.atom 5))
        (.cell (.atom 9) (.cell (.atom 0) (.cell (.atom 0) (.atom 1))))))) (.atom 5) ∧
      comp (.cell (.atom 6) (.cell (.cell (.atom 1) (.atom 0)) (.cell (.cell (.atom 1) (.atom 5))
        (.cell (.atom 9) (.cell (.atom 0) (.cell (.atom 0) (.atom 1))))))) true true =
          .error .bail) ∧
    Product (.atom 3) (.cell (.atom 6) (.cell (.cell (.atom 1) (.atom 0)) (.cell (.cell (.atom 11)
        (.cell (.cell (.cell (.atom 1) (.atom 2)) (.cell (.atom 1) (.atom 0)))
          (.cell (.atom 1) (.atom 5))))
        (.cell (.atom 1) (.atom 7))))) (.atom 5) ∧
      comp (.cell (.atom 6) (.cell (.cell (.atom 1) (.atom 0)) (.cell (.cell (.atom 11)
        (.cell (.cell (.cell (.atom 1) (.atom 2)) (.cell (.atom 1) (.atom 0)))
          (.cell (.atom 1) (.atom 5))))
        (.cell (.atom 1) (.atom 7))))) true true =
        .ok (condOps [op .lit0] [op .bail] [⟨.lilb, some (.atom 7)⟩]) :=
  ⟨⟨by decide, by decide⟩, ⟨.yes .lit .lit, by decide⟩, .yes .lit (.clue .lit .lit), by decide⟩

end Vere.Noun.Nock
