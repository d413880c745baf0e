import Vere.Noun.NockMachine

/-!
# The stack discipline

Code is typed by the words that it finds on the stack above the frame it returns to, and by the
number of traces that it has to drop. The ops of a formula are typed (`typed_of_compiled`), unless a
cell stands in it for an axis.
-/

set_option autoImplicit false

namespace Vere.Noun.Nock

/-! ### Types of code -/

/-- What is known of a word of the stack. -/
inductive Ty
  | any
  /-- The loobean that a fore hook returns. -/
  | yes
  /-- A token of an atomic hint. -/
  | hilt
  /-- A token of a hint with a clue. -/
  | hint
  deriving DecidableEq, Repr

/-- The nouns of a type. -/
def Ty.Has : Ty → Noun → Prop
  | .any, _ => True
  | .yes, n => n = .atom 0
  | .hilt, n => n = .nul ∨ ∃ start, n = .cell (.atom mBout) (.atom start)
  | .hint, n => n = .nul ∨ ∃ pri tan start, n = .trel (.atom mBout) (.cell pri tan) (.atom start)

/-- What an op that goes on with the next one does to the stack. -/
def effect : Opcode → List Ty → Option (List Ty)
  | .copy, .any :: tys => some (.any :: .any :: tys)
  | .swap, .any :: .any :: tys => some (.any :: .any :: tys)
  | .toss, .any :: tys => some tys
  | .auto, .any :: .any :: .any :: tys => some (.any :: .any :: tys)
  | .ault, .any :: .any :: .any :: tys => some (.any :: tys)
  | .snoc, .any :: .any :: tys => some (.any :: .any :: tys)
  | .snol, .any :: .any :: tys => some (.any :: tys)
  | .head, .any :: tys | .tail, .any :: tys => some (.any :: .any :: tys)
  | .held, .any :: tys | .tall, .any :: tys => some (.any :: tys)
  | .fabk, .any :: tys | .fask, .any :: tys | .fibk, .any :: tys => some (.any :: .any :: tys)
  | .fabl, .any :: tys | .fasl, .any :: tys | .fibl, .any :: tys => some (.any :: tys)
  | .lit0, tys | .lit1, tys | .litb, tys | .lits, tys | .libk, tys => some (.any :: tys)
  | .lil0, .any :: tys | .lil1, .any :: tys | .lilb, .any :: tys | .lils, .any :: tys
  | .libl, .any :: tys => some (.any :: tys)
  | .nolk, .any :: .any :: .any :: tys => some (.any :: tys)
  | .nock, .any :: .any :: .any :: tys => some (.any :: .any :: tys)
  | .deep, .any :: tys | .bump, .any :: tys | .sam0, .any :: tys | .sam1, .any :: tys
  | .samb, .any :: tys | .sams, .any :: tys | .sanb, .any :: tys => some (.any :: tys)
  | .same, .any :: .any :: .any :: tys => some (.any :: .any :: tys)
  | .salm, .any :: .any :: .any :: tys => some (.any :: tys)
  | .kicb, .any :: tys => some (.any :: tys)
  | .wish, .any :: .any :: .any :: tys => some (.any :: .any :: tys)
  | .wils, .any :: .any :: .any :: tys => some (.any :: tys)
  | .heck, .any :: tys | .slog, .any :: tys => some tys
  | .bast, .any :: .any :: .any :: tys => some (.any :: .any :: tys)
  | .balt, .any :: .any :: .any :: tys => some (.any :: tys)
  | .save, .any :: .any :: tys => some (.any :: tys)
  | .hilb, .any :: tys => some (.yes :: .any :: .hilt :: tys)
  | .hinb, .any :: .any :: tys => some (.yes :: .any :: .hint :: tys)
  | .hilk, .any :: .any :: .hilt :: tys => some (.any :: .any :: tys)
  | .hill, .any :: .hilt :: tys => some (.any :: tys)
  | .hink, .any :: .any :: .hint :: tys => some (.any :: .any :: tys)
  | .hinl, .any :: .hint :: tys => some (.any :: tys)
  | .muth, .any :: .any :: .any :: tys | .mutt, .any :: .any :: .any :: tys
  | .musm, .any :: .any :: .any :: tys | .mutb, .any :: .any :: .any :: tys
  | .muts, .any :: .any :: .any :: tys | .mitb, .any :: .any :: .any :: tys => some (.any :: tys)
  | .kuth, .any :: .any :: .any :: tys | .kutt, .any :: .any :: .any :: tys
  | .kusm, .any :: .any :: .any :: tys | .kutb, .any :: .any :: .any :: tys
  | .kuts, .any :: .any :: .any :: tys | .kitb, .any :: .any :: .any :: tys =>
    some (.any :: .any :: tys)
  | _, _ => none

/-- A literal for an axis to edit is an atom. -/
def Op.sane (o : Op) : Prop :=
  o.cod = .mitb ∨ o.cod = .kitb → ∃ axe, o.arg = some (.atom axe)

/-- Code by the types of the stack above its frame, and the traces it has to drop. -/
inductive Typed : List Op → List Ty → ℕ → Prop
  | halt : Typed [] [.any] 0
  | bail {rest : List Op} {tys : List Ty} {k : ℕ} : Typed (op .bail :: rest) tys k
  | call {rest : List Op} : Typed (op .noct :: rest) [.any, .any, .any] 0
  | tick {axe : Noun} {rest : List Op} (hrest : Typed rest [.any] 0) :
      Typed (⟨.ticb, some axe⟩ :: rest) [.any] 0
  | skip {n : ℕ} {rest : List Op} {tys : List Ty} {k : ℕ} (hrest : Typed (rest.drop n) tys k) :
      Typed (⟨.sbip, some (.atom n)⟩ :: rest) tys k
  | test {n : ℕ} {rest : List Op} {tys : List Ty} {k : ℕ} (hyes : Typed rest tys k)
      (hno : Typed (rest.drop n) tys k) : Typed (⟨.sbin, some (.atom n)⟩ :: rest) (.any :: tys) k
  | pass {n : ℕ} {rest : List Op} {tys : List Ty} {k : ℕ} (hyes : Typed rest tys k) :
      Typed (⟨.sbin, some (.atom n)⟩ :: rest) (.yes :: tys) k
  | keep {n : ℕ} {key : Noun} {rest : List Op} {tys : List Ty} {k : ℕ}
      (hmiss : Typed rest (.any :: .any :: .any :: tys) k)
      (hhit : Typed (rest.drop n) (.any :: .any :: tys) k) :
      Typed (⟨.skib, some (.cell (.atom n) key)⟩ :: rest) (.any :: tys) k
  | lose {n : ℕ} {key : Noun} {rest : List Op} {tys : List Ty} {k : ℕ}
      (hmiss : Typed rest (.any :: .any :: tys) k) (hhit : Typed (rest.drop n) (.any :: tys) k) :
      Typed (⟨.slib, some (.cell (.atom n) key)⟩ :: rest) (.any :: tys) k
  | push {x : Noun} {rest : List Op} {tys : List Ty} {k : ℕ} (hrest : Typed rest tys (k + 1)) :
      Typed (⟨.bush, some x⟩ :: rest) (.any :: tys) k
  | drop {rest : List Op} {tys : List Ty} {k : ℕ} (hrest : Typed rest tys k) :
      Typed (op .drop :: rest) tys (k + 1)
  | plain {o : Op} {rest : List Op} {tys tys' : List Ty} {k : ℕ}
    (heffect : effect o.cod tys = some tys')
      (hsane : o.sane) (hrest : Typed rest tys' k) : Typed (o :: rest) tys k

/-! ### Formulas that are typed -/

/-- No cell stands for the arm of a 9 or for the axis of a 10, at any place of a formula that is
compiled: a branch of a 6 is where it is well formed. -/
def square : Noun → Bool
  | .atom _ => true
  | .cell (.cell h t) ar => square (.cell h t) && square ar
  | .cell (.atom cod) ar =>
    match cod, ar with
    | 3, ar => square ar
    | 4, ar => square ar
    | 2, .cell a b => square a && square b
    | 5, .cell a b => square a && square b
    | 7, .cell a b => square a && square b
    | 8, .cell a b => square a && square b
    | 12, .cell a b => square a && square b
    | 6, .cell a (.cell b c) => square a && (!formulaic b || square b) && (!formulaic c || square c)
    | 9, .cell (.atom _) b => square b
    | 9, .cell (.cell _ _) _ => false
    | 10, .cell (.cell (.atom _) a) b => square a && square b
    | 10, .cell (.cell (.cell _ _) _) _ => false
    | 11, .cell (.atom _) b => square b
    | 11, .cell (.cell _ a) b => square a && square b
    | _, _ => true

variable {k : ℕ} {rest : List Op} {tys : List Ty} {ar : Noun} {los : Bool}

theorem typed_op {cod : Opcode} {tys' : List Ty} (heffect : effect cod tys = some tys')
    (hcod : cod ≠ .mitb ∧ cod ≠ .kitb) (hrest : Typed rest tys' k) {ar : Option Noun} :
    Typed (⟨cod, ar⟩ :: rest) tys k :=
  .plain heffect (fun h ↦ absurd h (by simp [hcod])) hrest

theorem effect_sized {byte short index : Opcode} {tys' : List Ty}
    (hbyte : effect byte tys = some tys') (hshort : effect short tys = some tys')
    (hindex : effect index tys = some tys') :
    effect (sized ar byte short index) tys = some tys' := by
  unfold sized
  split_ifs <;> assumption

theorem typed_sized {byte short index : Opcode} {tys' : List Ty}
    (hbyte : effect byte tys = some tys') (hshort : effect short tys = some tys')
    (hindex : effect index tys = some tys')
    (hcods : ∀ cod ∈ [byte, short, index], cod ≠ .mitb ∧ cod ≠ .kitb) (hrest : Typed rest tys' k) :
    Typed (⟨sized ar byte short index, some ar⟩ :: rest) tys k := by
  refine typed_op (effect_sized hbyte hshort hindex) (hcods _ ?_) hrest
  unfold sized
  split_ifs <;> simp

/-- The stack after a formula: its product, over the subject where that is kept. -/
def after (los : Bool) (tys : List Ty) : List Ty := .any :: if los then tys else .any :: tys

theorem typed_frag {ops : List Op} (hfrag : compFrag ar los = .ok ops)
    (hrest : Typed rest (after los tys) k) : Typed (ops ++ rest) (.any :: tys) k := by
  unfold compFrag at hfrag
  split at hfrag
  all_goals cases hfrag
  · exact .bail
  · cases los with
    | false => exact typed_op rfl (by decide) hrest
    | true => exact hrest
  · cases los <;> exact typed_op rfl (by decide) hrest
  · cases los <;> exact typed_op rfl (by decide) hrest
  · cases los <;> exact typed_sized rfl rfl rfl (by decide) hrest

theorem typed_lit (hrest : Typed rest (after los tys) k) :
    Typed (compLit ar los ++ rest) (.any :: tys) k := by
  unfold compLit
  split
  · cases los <;> exact typed_op rfl (by decide) hrest
  · cases los <;> exact typed_op rfl (by decide) hrest
  · cases los <;> exact typed_sized rfl rfl rfl (by decide) hrest

theorem typed_same {v : Noun} (hrest : Typed rest (.any :: tys) k) :
    Typed (compSame v :: rest) (.any :: tys) k := by
  unfold compSame
  split
  · exact typed_op rfl (by decide) hrest
  · exact typed_op rfl (by decide) hrest
  · exact typed_sized rfl rfl rfl (by decide) hrest

theorem typed_edit {axe : ℕ} (hrest : Typed rest (after los tys) k) :
    Typed (compEdit (.atom axe) los :: rest) (.any :: .any :: .any :: tys) k := by
  unfold compEdit
  split
  · cases los <;> exact typed_op rfl (by decide) hrest
  · cases los <;> exact typed_op rfl (by decide) hrest
  · cases los <;> exact typed_op rfl (by decide) hrest
  · refine .plain ?_ (fun _ ↦ ⟨axe, rfl⟩) hrest
    cases los <;> exact effect_sized rfl rfl rfl

/-- Two formulas on one subject, and what is done with their products. -/
theorem typed_pair {hed tal : List Op} {last : Op}
    (hhed : ∀ {rest tys k}, Typed rest (after false tys) k → Typed (hed ++ rest) (.any :: tys) k)
    (htal : ∀ {rest tys k}, Typed rest (after false tys) k → Typed (tal ++ rest) (.any :: tys) k)
    (hlast : Typed (last :: rest) (.any :: .any :: .any :: tys) k) :
    Typed (hed ++ [op .swap] ++ tal ++ [last] ++ rest) (.any :: tys) k := by
  have hswap : Typed (op .swap :: (tal ++ (last :: rest))) (after false tys) k :=
    typed_op rfl (by decide) (htal hlast)
  simpa [List.append_assoc] using hhed hswap

theorem typed_skip_one {o : Op} (hrest : Typed rest tys k) :
    Typed (⟨.sbip, some (.atom 1)⟩ :: o :: rest) tys k :=
  .skip (show Typed ((o :: rest).drop 1) tys k from hrest)

/-- The ops of a formula take the subject from the stack, or leave it, and put the product on it. In
tail position there is nothing else above the frame. -/
theorem typed_of_compiled {f : Noun} {tel : Bool} {ops : List Op} (h : Compiled f los tel ops)
    (hsquare : square f = true) (htel : tel = true → los = true ∧ tys = [] ∧ k = 0)
    (hrest : Typed rest (after los tys) k) : Typed (ops ++ rest) (.any :: tys) k := by
  induction h generalizing rest tys k with
  | frag hfrag => exact typed_frag hfrag hrest
  | lit => exact typed_lit hrest
  | @cons h t ar los tel hed tal hhed htal ihhed ihtal =>
    simp only [square, Bool.and_eq_true] at hsquare
    refine typed_pair (ihhed hsquare.1 (by simp)) (ihtal hsquare.2 (by simp)) ?_
    cases los <;> exact typed_op rfl (by decide) hrest
  | @nock b c los tel hed tal hhed htal ihhed ihtal =>
    simp only [square, Bool.and_eq_true] at hsquare
    refine typed_pair (ihhed hsquare.1 (by simp)) (ihtal hsquare.2 (by simp)) ?_
    cases tel with
    | true =>
      obtain ⟨-, rfl, rfl⟩ := htel rfl
      exact .call
    | false => cases los <;> exact typed_op rfl (by decide) hrest
  | @deep b los tel ops hops ih =>
    simp only [square] at hsquare
    rw [List.append_assoc]
    refine ih hsquare (by simp) ?_
    cases los <;> exact typed_op rfl (by decide) hrest
  | @bump b los tel ops hops ih =>
    simp only [square] at hsquare
    rw [List.append_assoc]
    refine ih hsquare (by simp) ?_
    cases los <;> exact typed_op rfl (by decide) hrest
  | @fold b c v w los tel hb hc => split <;> cases los <;> exact typed_op rfl (by decide) hrest
  | @same b c los tel hed tal hhed htal ihhed ihtal =>
    simp only [square, Bool.and_eq_true] at hsquare
    refine typed_pair (ihhed hsquare.1 (by simp)) (ihtal hsquare.2 (by simp)) ?_
    cases los <;> exact typed_op rfl (by decide) hrest
  | litLeft hb htal ih =>
    simp only [square, Bool.and_eq_true] at hsquare
    rw [List.append_assoc]
    exact ih hsquare.2 (by simp) (typed_same hrest)
  | litRight hhed hc ih =>
    simp only [square, Bool.and_eq_true] at hsquare
    rw [List.append_assoc]
    exact ih hsquare.1 (by simp) (typed_same hrest)
  | @cond b c d los tel hed yep nop hhed hbranch hyep hnop hyep' hnop' ihhed ihyep ihnop =>
    simp only [square, Bool.and_eq_true, Bool.or_eq_true, Bool.not_eq_true'] at hsquare
    obtain ⟨⟨hb, hc⟩, hd⟩ := hsquare
    have hnopTyped : Typed (nop ++ rest) (.any :: tys) k := by
      cases hfd : formulaic d with
      | true => exact ihnop hfd (hd.resolve_left (by simp [hfd])) htel hrest
      | false =>
        rw [hnop' hfd]
        exact .bail
    have hskip : Typed (⟨.sbip, some (.atom nop.length)⟩ :: (nop ++ rest)) (after los tys) k :=
      .skip (by rw [List.drop_left]; exact hrest)
    have hyepTyped : Typed (yep ++ (⟨.sbip, some (.atom nop.length)⟩ :: (nop ++ rest)))
        (.any :: tys) k := by
      cases hfc : formulaic c with
      | true => exact ihyep hfc (hc.resolve_left (by simp [hfc])) htel hskip
      | false =>
        rw [hyep' hfc]
        exact .bail
    have htest : Typed (⟨.sbin, some (.atom (yep.length + 1))⟩ ::
        (yep ++ (⟨.sbip, some (.atom nop.length)⟩ :: (nop ++ rest)))) (after false tys) k := by
      refine .test hyepTyped ?_
      have hdrop : (yep ++ (⟨.sbip, some (.atom nop.length)⟩ :: (nop ++ rest))).drop
        (yep.length + 1) =
          nop ++ rest := by simp
      rw [hdrop]
      exact hnopTyped
    simpa [List.append_assoc] using ihhed hb (by simp) htest
  | @comp b c los tel hed tal hhed htal ihhed ihtal =>
    simp only [square, Bool.and_eq_true] at hsquare
    rw [List.append_assoc]
    refine ihhed hsquare.1 (by simp) ?_
    cases los with
    | true => exact ihtal hsquare.2 htel hrest
    | false => exact ihtal hsquare.2 (fun h ↦ by simpa using htel h) hrest
  | @push b c los tel hed tal hhed htal ihhed ihtal =>
    simp only [square, Bool.and_eq_true] at hsquare
    have hmid : Typed (op (if los then .snol else .snoc) :: (tal ++ rest)) (after false tys) k := by
      cases los with
      | true => exact typed_op rfl (by decide) (ihtal hsquare.2 htel hrest)
      | false =>
        exact typed_op rfl (by decide) (ihtal hsquare.2 (fun h ↦ by simpa using htel h) hrest)
    simpa [List.append_assoc] using ihhed hsquare.1 (by simp) hmid
  | @arm b c los tel hed tal hcap htal hhed ihtal =>
    have hc : square c = true := by
      cases b with
      | cell h t => simp [square] at hsquare
      | atom b => simpa [square] using hsquare
    have hlast : Typed (op (if tel then .noct else .nolk) :: rest)
        (.any :: .any :: .any :: if los then tys else .any :: tys) k := by
      cases tel with
      | true =>
        obtain ⟨rfl, rfl, rfl⟩ := htel rfl
        exact .call
      | false => exact typed_op rfl (by decide) hrest
    have hfrag := typed_frag hhed hlast
    have hswap : Typed (op .swap :: (hed ++ (op (if tel then .noct else .nolk) :: rest)))
        (.any :: .any :: if los then tys else .any :: tys) k := typed_op rfl (by decide) hfrag
    have hcopy : Typed
      (op .copy :: op .swap :: (hed ++ (op (if tel then .noct else .nolk) :: rest)))
        (after los tys) k := typed_op rfl (by decide) hswap
    simpa [List.append_assoc] using ihtal hc (by simp) hcopy
  | @kick b c los tel tal hcap htal ihtal =>
    have hc : square c = true := by
      cases b with
      | cell h t => simp [square] at hsquare
      | atom b => simpa [square] using hsquare
    rw [List.append_assoc]
    refine ihtal hc (by simp) ?_
    cases tel with
    | true =>
      obtain ⟨rfl, rfl, rfl⟩ := htel rfl
      exact .tick hrest
    | false => exact typed_op rfl (by decide) hrest
  | @hax axe c d los tel tal nef htal hnef ihtal ihnef =>
    cases axe with
    | cell h t => simp [square] at hsquare
    | atom axe =>
      simp only [square, Bool.and_eq_true] at hsquare
      exact typed_pair (ihtal hsquare.2 (by simp)) (ihnef hsquare.1 (by simp)) (typed_edit hrest)
  | hint hhif hnef ih => exact ih (by simpa [square] using hsquare) htel hrest
  | @hilt hif d los tel fen hhif hfen ih =>
    have hhind : Typed (op (if los then .hill else .hilk) :: ⟨.sbip, some (.atom 1)⟩ ::
        op (if los then .toss else .swap) :: rest) (after los (.hilt :: tys)) k := by
      cases los <;> exact typed_op rfl (by decide) (typed_skip_one hrest)
    have hfen := ih (by simpa [square] using hsquare) (by simp) hhind
    have hhilb : Typed (⟨.hilb, some (.cell (.atom hif) d)⟩ :: ⟨.sbin,
      some (.atom (fen.length + 2))⟩ ::
        (fen ++ (op (if los then .hill else .hilk) :: ⟨.sbip, some (.atom 1)⟩ ::
          op (if los then .toss else .swap) :: rest))) (.any :: tys) k :=
      typed_op rfl (by decide) (.pass hfen)
    simpa [List.append_assoc, hindOps] using hhilb
  | @toss zep c d los tel hod nef hzep hhod hnef ihhod ihnef =>
    simp only [square, Bool.and_eq_true] at hsquare
    have htoss : Typed (op .toss :: (nef ++ rest)) (after false tys) k :=
      typed_op rfl (by decide) (ihnef hsquare.2 htel hrest)
    simpa [List.append_assoc] using ihhod hsquare.1 (by simp) htoss
  | @hook zep c d los tel hod fen hzep hhod hfen ihhod ihfen =>
    simp only [square, Bool.and_eq_true] at hsquare
    have hhind : Typed (op (if los then .hinl else .hink) :: ⟨.sbip, some (.atom 1)⟩ ::
        op (if los then .toss else .swap) :: rest) (after los (.hint :: tys)) k := by
      cases los <;> exact typed_op rfl (by decide) (typed_skip_one hrest)
    have hfen := ihfen hsquare.2 (by simp) hhind
    have hhinb : Typed (⟨.hinb, some (.cell (.atom zep) d)⟩ :: ⟨.sbin,
      some (.atom (fen.length + 2))⟩ ::
        (fen ++ (op (if los then .hinl else .hink) :: ⟨.sbip, some (.atom 1)⟩ ::
          op (if los then .toss else .swap) :: rest))) (after false tys) k :=
      typed_op rfl (by decide) (.pass hfen)
    simpa [List.append_assoc, hindOps] using ihhod hsquare.1 (by simp) hhinb
  | @trace zep c d los tel hod nef hzep hhod hnef ihhod ihnef =>
    simp only [square, Bool.and_eq_true] at hsquare
    have hnef := ihnef hsquare.2 (by simp) (.drop hrest)
    have hpush : Typed (⟨.bush, some (.atom zep)⟩ :: (nef ++ (op .drop :: rest)))
      (after false tys) k :=
      .push hnef
    simpa [List.append_assoc] using ihhod hsquare.1 (by simp) hpush
  | @live c d los tel hod nef hhod hnef ihhod ihnef =>
    simp only [square, Bool.and_eq_true] at hsquare
    have hheck : Typed (op .heck :: (nef ++ rest)) (after false tys) k :=
      typed_op rfl (by decide) (ihnef hsquare.2 htel hrest)
    simpa [List.append_assoc] using ihhod hsquare.1 (by simp) hheck
  | @slog c d los tel hod nef hhod hnef ihhod ihnef =>
    simp only [square, Bool.and_eq_true] at hsquare
    have hslog : Typed (op .slog :: (nef ++ rest)) (after false tys) k :=
      typed_op rfl (by decide) (ihnef hsquare.2 htel hrest)
    simpa [List.append_assoc] using ihhod hsquare.1 (by simp) hslog
  | @fast c d los tel hod nef hhod hnef ihhod ihnef =>
    simp only [square, Bool.and_eq_true] at hsquare
    refine typed_pair (ihhod hsquare.1 (by simp)) (ihnef hsquare.2 (by simp)) ?_
    cases los <;> exact typed_op rfl (by decide) hrest
  | @memo c d los tel hod mem hhod hmem ihhod ihmem =>
    simp only [square, Bool.and_eq_true] at hsquare
    have hdrop : (mem ++ (op .save :: rest)).drop (mem.length + 1) = rest := by simp
    have hmemo : Typed (⟨if los then .slib else .skib, some (.cell (.atom (mem.length + 1)) d)⟩ ::
        (mem ++ (op .save :: rest))) (.any :: tys) k := by
      cases los with
      | true =>
        have hsave : Typed (op .save :: rest) (after true (.any :: tys)) k :=
          typed_op rfl (by decide) hrest
        exact .lose (ihmem hsquare.2 (by simp) hsave) (by rw [hdrop]; exact hrest)
      | false =>
        have hsave : Typed (op .save :: rest) (after true (.any :: .any :: tys)) k :=
          typed_op rfl (by decide) hrest
        exact .keep (ihmem hsquare.2 (by simp) hsave) (by rw [hdrop]; exact hrest)
    have htoss : Typed (op .toss :: ⟨if los then .slib else .skib,
      some (.cell (.atom (mem.length + 1)) d)⟩ ::
        (mem ++ (op .save :: rest))) (after false tys) k := typed_op rfl (by decide) hmemo
    simpa [List.append_assoc] using ihhod hsquare.1 (by simp) htoss
  | @wish b c los tel hed tal hhed htal ihhed ihtal =>
    simp only [square, Bool.and_eq_true] at hsquare
    refine typed_pair (ihhed hsquare.1 (by simp)) (ihtal hsquare.2 (by simp)) ?_
    cases los <;> exact typed_op rfl (by decide) hrest

end Vere.Noun.Nock
