import Vere.Noun.NockHooks

/-!
# The interpreter computes products

`Does a los tel ops p` says that ops put `p` on the stack for the subject `a`, wherever they stand
in a program. The ops of a formula do so for its product (`does_compiled`), by induction on the
evaluation, with one lemma for each form of code. A program then runs to its product
(`burnOn_evaluates`).
-/

set_option autoImplicit false

namespace Vere.Noun.Nock

section Correct

variable {C W : Type} {S : Setting C W}

variable (S) in
/-- Ops that take a subject from the stack, or leave it, and put a product on it. In tail position
there is nothing else above the frame. -/
def Setting.Does (a : Noun) (los tel : Bool) (ops : List Op) (p : Noun) : Prop :=
  ∀ rest st fam tax, (tel = true → los = true ∧ st = []) →
    S.Arrives tel ⟨ops ++ rest, a :: st, fam, tax⟩ ⟨rest, p :: kept los a st, fam, tax⟩

variable {a p q v : Noun} {los tel : Bool} {ops hed tal rest : List Op} {st : List Noun}
  {fam : List (Frame C)}
  {tax : List Noun}

theorem Setting.Does.goes (hdoes : S.Does a los false ops p) (rest : List Op) (st : List Noun)
    (fam : List (Frame C)) (tax : List Noun) :
    S.Goes ⟨ops ++ rest, a :: st, fam, tax⟩ ⟨rest, p :: kept los a st, fam, tax⟩ :=
  (hdoes rest st fam tax (by simp)).goes

/-- Ops that go to the product whatever their position. -/
theorem does_of_goes (hgoes : ∀ rest st fam tax,
    S.Goes ⟨ops ++ rest, a :: st, fam, tax⟩ ⟨rest, p :: kept los a st, fam, tax⟩) :
    S.Does a los tel ops p :=
  fun rest st fam tax _ ↦ (hgoes rest st fam tax).arrives

/-- Ops, and one more that takes their product. -/
theorem does_then {last : Op} (hops : S.Does a los false ops p)
    (hlast : ∀ rest st fam tax, S.Goes ⟨last :: rest, p :: st, fam, tax⟩ ⟨rest, q :: st,
    fam, tax⟩) :
    S.Does a los tel (ops ++ [last]) q := by
  apply does_of_goes
  intro rest st fam tax
  rw [List.append_assoc]
  exact (hops.goes _ st fam tax).trans (hlast rest _ fam tax)

/-- Two formulas on one subject. -/
theorem goes_pair {last : Op} (hhed : S.Does a false false hed p)
    (htal : S.Does a false false tal q) :
    S.Goes ⟨hed ++ [op .swap] ++ tal ++ [last] ++ rest, a :: st, fam, tax⟩
      ⟨last :: rest, q :: a :: p :: st, fam, tax⟩ := by
  have hswap : S.Goes ⟨op .swap :: (tal ++ (last :: rest)), p :: a :: st, fam, tax⟩
      ⟨tal ++ (last :: rest), a :: p :: st, fam, tax⟩ := goes_bare rfl fun _ ↦ rfl
  have hrun := ((hhed.goes _ st fam tax).trans hswap).trans (htal.goes _ _ fam tax)
  simpa [List.append_assoc] using hrun

theorem does_pair {last : Op} {r : Noun} (hhed : S.Does a false false hed p)
    (htal : S.Does a false false tal q) (hlast : ∀ rest st fam tax,
      S.Goes ⟨last :: rest, q :: a :: p :: st, fam, tax⟩ ⟨rest, r :: kept los a st, fam, tax⟩) :
    S.Does a los tel (hed ++ [op .swap] ++ tal ++ [last]) r :=
  does_of_goes fun rest st fam tax ↦ (goes_pair hhed htal).trans (hlast rest st fam tax)

/-! ### Fragments and literals -/

theorem slot_two {n : Noun} (hslot : slot 2 n = some p) : ∃ t, n = .cell p t := by
  cases n with
  | atom a => cases hslot
  | cell h t => exact ⟨t, by cases hslot; rfl⟩

theorem slot_three {n : Noun} (hslot : slot 3 n = some p) : ∃ h, n = .cell h p := by
  cases n with
  | atom a => cases hslot
  | cell h t => exact ⟨h, by cases hslot; rfl⟩

theorem does_frag {axe : ℕ} (hfrag : compFrag (.atom axe) los = .ok ops)
    (hslot : slot axe a = some p) :
    S.Does a los tel ops p := by
  apply does_of_goes
  intro rest st fam tax
  unfold compFrag at hfrag
  split at hfrag
  · next h => cases h
  · next h =>
    cases h
    cases hslot
  · next h =>
    cases h
    cases hfrag
    cases hslot
    cases los with
    | true => exact .refl
    | false => exact goes_bare rfl fun _ ↦ rfl
  · next h =>
    cases h
    cases hfrag
    obtain ⟨t, rfl⟩ := slot_two hslot
    cases los <;> exact goes_bare rfl fun _ ↦ rfl
  · next h =>
    cases h
    cases hfrag
    obtain ⟨h, rfl⟩ := slot_three hslot
    cases los <;> exact goes_bare rfl fun _ ↦ rfl
  · cases hfrag
    have hpush : ∀ (s : State C W) st, s.push (xAt (.atom axe) a) st = s.put (p :: st) := by
      intro s st
      rw [xAt_of_slot hslot]
      rfl
    cases los <;> exact goes_sized (by decide) (by decide) (by decide) (fun s ↦ hpush s _)
      (fun s ↦ hpush s _) fun s ↦ hpush s _

theorem does_lit : S.Does a los tel (compLit v los) v := by
  apply does_of_goes
  intro rest st fam tax
  unfold compLit
  split
  · cases los <;> exact goes_bare rfl fun _ ↦ rfl
  · cases los <;> exact goes_bare rfl fun _ ↦ rfl
  · cases los <;> exact goes_sized (by decide) (by decide) (by decide) (fun _ ↦ rfl) (fun _ ↦ rfl)
      fun _ ↦ rfl

/-- The comparison with a literal. -/
theorem goes_same (v : Noun) :
    S.Goes ⟨compSame v :: rest, p :: st, fam, tax⟩ ⟨rest, tis p v :: st, fam, tax⟩ := by
  unfold compSame
  split
  · exact goes_bare rfl fun _ ↦ rfl
  · exact goes_bare rfl fun _ ↦ rfl
  · exact goes_sized (by decide) (by decide) (by decide) (fun _ ↦ rfl) (fun _ ↦ rfl) fun _ ↦ rfl

/-- The edit of a noun. -/
theorem goes_edit {axe : ℕ} {big : Noun} (hmet : axe.size ≤ 2 ^ 31)
    (hedit : edit axe v big = some p) :
    S.Goes ⟨compEdit (.atom axe) los :: rest, v :: a :: big :: st, fam, tax⟩
      ⟨rest, p :: kept los a st, fam, tax⟩ := by
  have hpush : ∀ (s : State C W) st, s.push (iEdit big (.atom axe) v) st = s.put (p :: st) := by
    intro s st
    rw [iEdit_of_edit hmet hedit]
    rfl
  unfold compEdit
  split
  · next h =>
    cases h
    cases big with
    | atom n => cases hedit
    | cell h t =>
      cases hedit
      cases los <;> exact goes_bare rfl fun _ ↦ rfl
  · next h =>
    cases h
    cases big with
    | atom n => cases hedit
    | cell h t =>
      cases hedit
      cases los <;> exact goes_bare rfl fun _ ↦ rfl
  · next h =>
    cases h
    cases big with
    | atom n => cases hedit
    | cell h t =>
      cases t with
      | atom n => cases hedit
      | cell th tt =>
        cases hedit
        cases los <;> exact goes_bare rfl fun _ ↦ rfl
  · cases los <;> exact goes_sized (by decide) (by decide) (by decide) (fun s ↦ hpush s _)
      (fun s ↦ hpush s _) fun s ↦ hpush s _

/-! ### Formulas -/

variable {f : Noun}

theorem eq_of_isLit (hlit : isLit f = some v) : f = .cell (.atom 1) v := by
  unfold isLit at hlit
  split at hlit
  · cases hlit
    rfl
  · cases hlit

theorem tis_comm (n m : Noun) : tis n m = tis m n := by
  unfold tis
  exact if_congr eq_comm rfl rfl

/-- The program of a formula that can be assembled. -/
theorem calls_of_does (hrunnable : Runnable f)
    (hdoes : ∀ ops, Compiled f true true ops → S.Does a true true ops p) : S.Calls a f p := by
  obtain ⟨ops, hfits⟩ := hrunnable
  refine ⟨ops, hfits, fun fam tax ↦ ?_⟩
  have harrives := hdoes ops (compiled_of_comp hfits.comp) [] [] fam tax fun _ ↦ ⟨rfl, rfl⟩
  rw [List.append_nil] at harrives
  exact harrives.goes_end

/-- The branch of a conditional that is taken when the test gives 0, and the skip behind it. -/
theorem does_yes {yep nop : List Op} (hhed : S.Does a false false hed (.atom 0))
    (hyep : S.Does a los tel yep p) :
    S.Does a los tel (hed ++ [⟨.sbin, some (.atom (yep.length + 1))⟩] ++
      (yep ++ [⟨.sbip, some (.atom nop.length)⟩]) ++ nop) p := by
  intro rest st fam tax htel
  have hskip : S.Goes ⟨⟨.sbip, some (.atom nop.length)⟩ :: (nop ++ rest), p :: kept los a st,
    fam, tax⟩
      ⟨rest, p :: kept los a st, fam, tax⟩ := by
    have hgoes : S.Goes ⟨⟨.sbip, some (.atom nop.length)⟩ :: (nop ++ rest), p :: kept los a st,
      fam, tax⟩
        ⟨(nop ++ rest).drop nop.length, p :: kept los a st, fam, tax⟩ := goes_skip
    rwa [List.drop_left] at hgoes
  have hbranch :=
    (hyep (⟨.sbip, some (.atom nop.length)⟩ :: (nop ++ rest)) st fam tax htel).trans_goes hskip
  have hrun :=
    ((hhed.goes _ st fam tax).trans (goes_yes (n := yep.length + 1))).trans_arrives hbranch
  simpa [List.append_assoc] using hrun

/-- The branch that is taken when the test gives 1. -/
theorem does_no {yep nop : List Op} (hhed : S.Does a false false hed (.atom 1))
    (hnop : S.Does a los tel nop p) :
    S.Does a los tel (hed ++ [⟨.sbin, some (.atom (yep.length + 1))⟩] ++
      (yep ++ [⟨.sbip, some (.atom nop.length)⟩]) ++ nop) p := by
  intro rest st fam tax htel
  have htest : S.Goes ⟨⟨.sbin, some (.atom (yep.length + 1))⟩ ::
      (yep ++ (⟨.sbip, some (.atom nop.length)⟩ :: (nop ++ rest))), .atom 1 :: a :: st, fam, tax⟩
      ⟨nop ++ rest, a :: st, fam, tax⟩ := by
    have hdrop : (yep ++ (⟨.sbip, some (.atom nop.length)⟩ :: (nop ++ rest))).drop
      (yep.length + 1) =
        nop ++ rest := by simp
    have hgoes : S.Goes ⟨⟨.sbin, some (.atom (yep.length + 1))⟩ ::
        (yep ++ (⟨.sbip, some (.atom nop.length)⟩ :: (nop ++ rest))), .atom 1 :: a :: st, fam, tax⟩
        ⟨(yep ++ (⟨.sbip, some (.atom nop.length)⟩ :: (nop ++ rest))).drop (yep.length + 1),
        a :: st, fam, tax⟩ :=
      goes_no
    rwa [hdrop] at hgoes
  have hrun := ((hhed.goes _ st fam tax).trans htest).trans_arrives (hnop rest st fam tax htel)
  simpa [List.append_assoc] using hrun

/-- One formula after another, on the product of the first. -/
theorem does_comp {s : Noun} (hhed : S.Does a los false hed s) (htal : S.Does s true tel tal p) :
    S.Does a los tel (hed ++ tal) p := by
  intro rest st fam tax htel
  rw [List.append_assoc]
  refine (hhed.goes _ st fam tax).trans_arrives (htal rest _ fam tax fun h ↦ ⟨rfl, ?_⟩)
  obtain ⟨rfl, rfl⟩ := htel h
  rfl

/-- A call of the arm at an axis that is not in the battery. -/
theorem does_arm {cor : Noun} {axe : ℕ} (htal : S.Does a los false tal cor)
    (hhed : compFrag (.atom axe) false = .ok hed) (hslot : slot axe cor = some f)
    (hcalls : S.Calls cor f p) :
    S.Does a los tel
      (tal ++ ([op .copy] ++ [op .swap] ++ hed ++ [op (if tel then .noct else .nolk)])) p := by
  intro rest st fam tax htel
  have hfrag : S.Does cor false false hed f := does_frag hhed hslot
  have hcopy : S.Goes ⟨op .copy :: op .swap :: (hed ++ (op (if tel then .noct else .nolk) :: rest)),
      cor :: kept los a st, fam,
      tax⟩ ⟨op .swap :: (hed ++ (op (if tel then .noct else .nolk) :: rest)),
      cor :: cor :: kept los a st, fam, tax⟩ := goes_bare rfl fun _ ↦ rfl
  have hswap : S.Goes ⟨op .swap :: (hed ++ (op (if tel then .noct else .nolk) :: rest)),
      cor :: cor :: kept los a st, fam, tax⟩ ⟨hed ++ (op (if tel then .noct else .nolk) :: rest),
      cor :: cor :: kept los a st, fam, tax⟩ := goes_bare rfl fun _ ↦ rfl
  have hrun := (((htal.goes _ st fam tax).trans hcopy).trans hswap).trans (hfrag.goes _ _ fam tax)
  have hlast : S.Arrives tel ⟨op (if tel then .noct else .nolk) :: rest,
      f :: cor :: cor :: kept los a st, fam, tax⟩ ⟨rest, p :: kept los a st, fam, tax⟩ := by
    cases tel with
    | true =>
      obtain ⟨rfl, rfl⟩ := htel rfl
      exact arrives_call hcalls
    | false => exact (goes_call hcalls rfl fun _ ↦ rfl).arrives
  simpa [List.append_assoc] using hrun.trans_arrives hlast

/-! ### Hints -/

section Hints

variable {clu : Noun} {hod nef : List Op} (hhod : S.Does a false false hod clu)
include hhod

/-- A clue that is taken from the stack before the formula. -/
theorem does_after {first : Op}
    (hfirst : ∀ rest st fam tax, S.Goes ⟨first :: rest, clu :: st, fam, tax⟩ ⟨rest, st, fam, tax⟩)
    (hnef : S.Does a los tel nef p) : S.Does a los tel (hod ++ [first] ++ nef) p := by
  intro rest st fam tax htel
  have hrun := ((hhod.goes _ st fam tax).trans (hfirst (nef ++ rest) _ fam tax)).trans_arrives
    (hnef rest st fam tax htel)
  simpa [List.append_assoc] using hrun

/-- A clue that goes to the hooks of its hint. -/
theorem does_hook {tag d : Noun} {fen : List Op} (htakes : Takes S.env S.Good tag clu p)
    (hfen : S.Does a los false fen p) :
    S.Does a los tel (hod ++ [⟨.hinb, some (.cell tag d)⟩,
    ⟨.sbin, some (.atom (fen.length + 2))⟩] ++
      hindOps fen (if los then .hinl else .hink) ++ [op (if los then .toss else .swap)]) p := by
  apply does_of_goes
  intro rest st fam tax
  have hhooks : S.Goes ⟨[⟨.hinb, some (.cell tag d)⟩, ⟨.sbin, some (.atom (fen.length + 2))⟩] ++
      hindOps fen (if los then .hinl else .hink) ++ [op (if los then .toss else .swap)] ++ rest,
      clu :: a :: st, fam, tax⟩ ⟨rest, p :: kept los a st, fam, tax⟩ :=
    goes_hint (fun st rest ↦ hfen.goes rest st fam tax) htakes.bout htakes.xray
  have hrun := (hhod.goes _ st fam tax).trans hhooks
  simpa only [List.append_assoc] using hrun

/-- A clue that is on the trace during the formula. -/
theorem does_trace {tag : Noun} (hnef : S.Does a los false nef p) :
    S.Does a los tel (hod ++ [⟨.bush, some tag⟩] ++ nef ++ [op .drop]) p := by
  apply does_of_goes
  intro rest st fam tax
  have hrun := (((hhod.goes _ st fam tax).trans goes_bush).trans
    (hnef.goes (op .drop :: rest) st fam (.cell tag clu :: tax))).trans goes_drop
  simpa [List.append_assoc] using hrun

/-- A core that is registered. -/
theorem does_fast (henrolls : S.env.Enrolls S.Good clu p) (hnef : S.Does a false false nef p) :
    S.Does a los tel (hod ++ [op .swap] ++ nef ++ [op (if los then .balt else .bast)]) p := by
  refine does_pair hhod hnef fun rest st fam tax ↦ ?_
  have hview : (op (if los then .balt else .bast)).view = some .rite := by
    cases los <;> rfl
  refine goes_op hview fun s dist inx hstk htax hgood ↦ ?_
  obtain ⟨w, hmine⟩ := henrolls s.world ⟨S.mac.fol s.code, inx⟩ hgood
  refine ⟨w, ?_, S.sound.mine hgood hmine⟩
  cases los with
  | true =>
    show exec S.env S.mac s (.rite .balt inx) = _
    unfold exec
    rw [hstk, ← htax]
    show Outcome.of ((S.env.mine s.world ⟨S.mac.fol s.code, inx⟩ clu p).map _) = _
    rw [hmine]
    rfl
  | false =>
    show exec S.env S.mac s (.rite .bast inx) = _
    unfold exec
    rw [hstk, ← htax]
    show Outcome.of ((S.env.mine s.world ⟨S.mac.fol s.code, inx⟩ clu p).map _) = _
    rw [hmine]
    rfl

/-- A formula whose product is kept. -/
theorem does_memo {d : Noun} {mem : List Op} (hproduct : Product a d p)
    (hmem : S.Does a true false mem p) :
    S.Does a los tel (hod ++ [op .toss] ++
      [⟨if los then .slib else .skib, some (.cell (.atom (mem.length + 1)) d)⟩] ++
        (mem ++ [op .save])) p := by
  apply does_of_goes
  intro rest st fam tax
  have htoss : S.Goes ⟨op .toss :: ⟨if los then .slib else .skib,
    some (.cell (.atom (mem.length + 1)) d)⟩ ::
      (mem ++ (op .save :: rest)), clu :: a :: st, fam, tax⟩
      ⟨⟨if los then .slib else .skib,
      some (.cell (.atom (mem.length + 1)) d)⟩ :: (mem ++ (op .save :: rest)),
        a :: st, fam, tax⟩ := goes_bare rfl fun _ ↦ rfl
  have hmiss : S.Goes ⟨mem ++ (op .save :: rest), a :: .cell a d :: kept los a st, fam, tax⟩
      ⟨rest, p :: kept los a st, fam, tax⟩ := (hmem.goes _ _ fam tax).trans (goes_save hproduct)
  have hhit : S.Goes ⟨(mem ++ (op .save :: rest)).drop (mem.length + 1), p :: kept los a st,
    fam, tax⟩
      ⟨rest, p :: kept los a st, fam, tax⟩ := by
    have hdrop : (mem ++ (op .save :: rest)).drop (mem.length + 1) = rest := by simp
    rw [hdrop]
    exact .refl
  have hrecall : S.Goes ⟨⟨if los then .slib else .skib, some (.cell (.atom (mem.length + 1)) d)⟩ ::
      (mem ++ (op .save :: rest)), a :: st, fam, tax⟩ ⟨rest, p :: kept los a st, fam, tax⟩ := by
    refine goes_recall hproduct ?_ hmiss hhit
    cases los
    · exact Or.inl ⟨rfl, rfl⟩
    · exact Or.inr ⟨rfl, rfl⟩
  have hrun := ((hhod.goes _ st fam tax).trans htoss).trans hrecall
  simpa [List.append_assoc] using hrun

end Hints

theorem goes_heck (clu : Noun) :
    S.Goes ⟨op .heck :: rest, clu :: st, fam, tax⟩ ⟨rest, st, fam, tax⟩ := by
  cases clu with
  | cell h t => exact goes_bare rfl fun _ ↦ rfl
  | atom n =>
    refine goes_hook rfl fun s hgood ↦ ?_
    obtain ⟨w, hheck, hlater⟩ := S.sound.heck hgood n
    refine ⟨w, ?_, hlater⟩
    show Outcome.of ((orBail (S.env.heck s.world n)).map _) = _
    rw [hheck]
    rfl

theorem goes_slog (clu : Noun) :
    S.Goes ⟨op .slog :: rest, clu :: st, fam, tax⟩ ⟨rest, st, fam, tax⟩ := by
  refine goes_hook rfl fun s hgood ↦ ?_
  by_cases hquiet : S.env.quiet = true
  · refine ⟨s.world, ?_, hgood, le_rfl⟩
    show (if S.env.quiet then _ else _) = _
    rw [if_pos hquiet]
    rfl
  · obtain ⟨w, hslog, hlater⟩ := S.sound.slog hgood clu
    refine ⟨w, ?_, hlater⟩
    show (if S.env.quiet then _ else Outcome.of ((orBail (S.env.slog s.world clu)).map _)) = _
    rw [if_neg hquiet, hslog]
    rfl

/-- The ops of a formula put its product on the stack. -/
theorem does_compiled (heval : Evaluates S.env S.Good a f p) (hcomp : Compiled f los tel ops) :
    S.Does a los tel ops p := by
  induction heval generalizing los tel ops with
  | cons _ _ ihb ihd =>
    cases hcomp with
    | cons hhed htal =>
      refine does_pair (ihb hhed) (ihd htal) fun rest st fam tax ↦ ?_
      cases los <;> exact goes_bare rfl fun _ ↦ rfl
  | frag hslot =>
    cases hcomp with
    | frag hfrag => exact does_frag hfrag hslot
  | lit =>
    cases hcomp with
    | lit => exact does_lit
  | @nock a b c s f p _ _ hrunnable _ ihb ihc ihrun =>
    cases hcomp with
    | nock hhed htal =>
      have hcalls := calls_of_does hrunnable fun ops ↦ ihrun
      intro rest st fam tax htel
      refine (goes_pair (ihb hhed) (ihc htal)).trans_arrives ?_
      cases tel with
      | true =>
        obtain ⟨rfl, rfl⟩ := htel rfl
        exact arrives_call hcalls
      | false =>
        apply Setting.Goes.arrives
        cases los
        · exact goes_call hcalls rfl fun _ ↦ rfl
        · exact goes_call hcalls rfl fun _ ↦ rfl
  | deep _ ihb =>
    cases hcomp with
    | deep hops => exact does_then (ihb hops) fun _ _ _ _ ↦ goes_bare rfl fun _ ↦ rfl
  | bump _ ihb =>
    cases hcomp with
    | bump hops => exact does_then (ihb hops) fun _ _ _ _ ↦ goes_bare rfl fun _ ↦ rfl
  | same hb hc ihb ihc =>
    cases hcomp with
    | fold hbLit hcLit =>
      cases eq_of_isLit hbLit
      cases eq_of_isLit hcLit
      cases hb
      cases hc
      apply does_of_goes
      intro rest st fam tax
      unfold tis
      split <;> cases los <;> exact goes_bare rfl fun _ ↦ rfl
    | same hhed htal =>
      refine does_pair (ihb hhed) (ihc htal) fun rest st fam tax ↦ ?_
      rw [tis_comm]
      cases los <;> exact goes_bare rfl fun _ ↦ rfl
    | litLeft hbLit htal =>
      cases eq_of_isLit hbLit
      cases hb
      rw [tis_comm]
      exact does_then (ihc htal) fun _ _ _ _ ↦ goes_same _
    | litRight hhed hcLit =>
      cases eq_of_isLit hcLit
      cases hc
      exact does_then (ihb hhed) fun _ _ _ _ ↦ goes_same _
  | yes _ hformulaic _ ihb ihc =>
    cases hcomp with
    | cond hhed _ hyep => exact does_yes (ihb hhed) (ihc (hyep hformulaic))
  | no _ hformulaic _ ihb ihd =>
    cases hcomp with
    | cond hhed _ _ hnop => exact does_no (ihb hhed) (ihd (hnop hformulaic))
  | comp _ _ ihb ihc =>
    cases hcomp with
    | comp hhed htal => exact does_comp (ihb hhed) (ihc htal)
  | @push a b c s p _ _ ihb ihc =>
    cases hcomp with
    | push hhed htal =>
      refine does_comp (s := .cell s a) ?_ (ihc htal)
      apply does_of_goes
      intro rest st fam tax
      rw [List.append_assoc]
      refine ((ihb hhed).goes _ st fam tax).trans ?_
      cases los <;> exact goes_bare rfl fun _ ↦ rfl
  | @kick a c cor f p b _ hslot hkicks hrunnable hrun ihc ihrun =>
    have hcalls : S.Calls cor f p := calls_of_does hrunnable fun ops ↦ ihrun
    cases hcomp with
    | arm _ htal hhed => exact does_arm (ihc htal) hhed hslot hcalls
    | kick hcap htal =>
      intro rest st fam tax htel
      rw [List.append_assoc]
      refine ((ihc htal).goes _ st fam tax).trans_arrives ?_
      cases tel with
      | true =>
        obtain ⟨rfl, rfl⟩ := htel rfl
        exact arrives_tick hslot (product_of_evaluates hrun) (hkicks hcap) hcalls
      | false => exact (goes_kick hslot (product_of_evaluates hrun) (hkicks hcap) hcalls).arrives
  | hax _ _ hedit hmet ihc ihd =>
    cases hcomp with
    | hax htal hnef => exact does_pair (ihd htal) (ihc hnef) fun _ _ _ _ ↦ goes_edit hmet hedit
  | @clue a b c d clu p _ hd htakes ihc ihd =>
    cases hcomp with
    | toss _ hhod hnef =>
      exact does_after (ihc hhod) (fun _ _ _ _ ↦ goes_bare rfl fun _ ↦ rfl) (ihd hnef)
    | hook _ hhod hfen => exact does_hook (ihc hhod) htakes (ihd hfen)
    | trace _ hhod hnef => exact does_trace (ihc hhod) (ihd hnef)
    | live hhod hnef => exact does_after (ihc hhod) (fun _ _ _ _ ↦ goes_heck clu) (ihd hnef)
    | slog hhod hnef => exact does_after (ihc hhod) (fun _ _ _ _ ↦ goes_slog clu) (ihd hnef)
    | fast hhod hnef => exact does_fast (ihc hhod) (htakes.fast rfl) (ihd hnef)
    | memo hhod hmem => exact does_memo (ihc hhod) (product_of_evaluates hd) (ihd hmem)
  | hint _ hxray ihd =>
    cases hcomp with
    | hint _ hnef => exact ihd hnef
    | hilt _ hfen =>
      apply does_of_goes
      intro rest st fam tax
      exact goes_hilt (fun st rest ↦ (ihd hfen).goes rest st fam tax) fun h ↦
        hxray (Noun.atom.inj h)

end Correct

end Vere.Noun.Nock
