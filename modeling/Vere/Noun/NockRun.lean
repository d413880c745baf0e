import Vere.Lib.Leads
import Vere.Noun.NockEvaluates

/-!
# Runs of ops

A `Setting` is a machine that runs ops and an environment that the interpreter can rely on. `Conf`
is what a state says of its code, stack, frames and traces; `Goes c c'` that every state at `c` runs
to one at `c'`, with the clock not before where it was. There is one lemma for each kind of op.
-/

set_option autoImplicit false

namespace Vere.Noun.Nock

open Vere.Lib

/-! ### The setting -/

/-- A later world in which what is kept can still be relied on. -/
structure Later {W : Type} (Good : W → Prop) (clock : W → ℕ) (w w' : W) : Prop where
  good : Good w'
  time : clock w ≤ clock w'

/-- What the interpreter relies on: the hooks return, the clock does not go back, the dashboard is
one that its own programs lead to, and the products of jets and of the memo cache are true. -/
structure Sound {W : Type} (env : Env W) (Good : W → Prop) (clock : W → ℕ) : Prop where
  traceTime : ∀ {w}, Good w → clock w ≤ (env.traceTime w).1 ∧
    (env.traceTime w).1 ≤ clock (env.traceTime w).2 ∧ Good (env.traceTime w).2
  slog : ∀ {w}, Good w → ∀ n, ∃ w', env.slog w n = some w' ∧ Later Good clock w w'
  slogNara : ∀ {w}, Good w → ∀ pri tax, ∃ w', env.slogNara w pri tax = some w' ∧
    Later Good clock w w'
  slogHela : ∀ {w}, Good w → ∀ pri tax, ∃ w', env.slogHela w pri tax = some w' ∧
    Later Good clock w w'
  heck : ∀ {w}, Good w → ∀ a, ∃ w', env.heck w a = some w' ∧ Later Good clock w w'
  reach : ∀ {w}, Good w → Jets.Reaches env.dash (env.jets w)
  mine : ∀ {w w'}, Good w → ∀ {site clu cor}, env.mine w site clu cor = .ok w' →
    Later Good clock w w'
  kick : ∀ {w w'}, Good w → ∀ {site axe cor fol res}, slot axe cor = some fol →
    env.kick w site (.atom axe) cor = some (res, w') → Later Good clock w w' ∧
      ∀ pro, res = some pro → Product cor fol pro
  find : ∀ {w}, Good w → ∀ {bus key pro}, env.find w (.cell bus key) = some pro →
    Product bus key pro
  save : ∀ {w}, Good w → ∀ {bus key pro}, Product bus key pro →
    Later Good clock w (env.save w (.cell bus key) pro)

/-- A machine that runs ops, in an environment to rely on. -/
structure Setting (C W : Type) where
  env : Env W
  mac : Machine C
  Codes : C → List Op → Prop
  Good : W → Prop
  clock : W → ℕ
  faithful : Faithful mac Codes
  sound : Sound env Good clock

/-- The ops ahead, the stack above the last frame, the frames and the traces. -/
structure Conf (C : Type) where
  ops : List Op
  stk : List Noun
  fam : List (Frame C)
  tax : List Noun

section Runs

variable {C W : Type} (S : Setting C W)

/-- One step of the interpreter. -/
def Setting.Step (s s' : State C W) : Prop := step S.env S.mac s = .next s'

/-- A state is at a configuration, with its clock not before a time. -/
structure Setting.At (time : ℕ) (c : Conf C) (s : State C W) : Prop where
  code : S.Codes s.code c.ops
  stk : s.stk = c.stk
  fam : s.fam = c.fam
  tax : s.tax = c.tax
  good : S.Good s.world
  time : time ≤ S.clock s.world

/-- Every state at a configuration runs to one at another. -/
def Setting.Goes (c c' : Conf C) : Prop := ∀ time, Leads S.Step (S.At time c) (S.At time c')

/-- The same; in tail position a run may also come to the end of another program. -/
def Setting.Arrives (tel : Bool) (c c' : Conf C) : Prop :=
  ∀ time, Leads S.Step (S.At time c)
    fun s ↦ S.At time c' s ∨ tel = true ∧ S.At time { c' with ops := [] } s

variable {S} {c c' c'' : Conf C} {tel : Bool}

theorem Setting.Goes.refl : S.Goes c c := fun _ ↦ .of_imp fun _ ↦ id

theorem Setting.Goes.trans (hleft : S.Goes c c') (hright : S.Goes c' c'') : S.Goes c c'' :=
  fun time ↦ (hleft time).trans (hright time)

theorem Setting.Goes.arrives (hgoes : S.Goes c c') : S.Arrives tel c c' :=
  fun time ↦ (hgoes time).mono fun _ ↦ Or.inl

theorem Setting.Goes.trans_arrives (hleft : S.Goes c c') (hright : S.Arrives tel c' c'') :
    S.Arrives tel c c'' :=
  fun time ↦ (hleft time).trans (hright time)

theorem Setting.Arrives.goes (harrives : S.Arrives false c c') : S.Goes c c' :=
  fun time ↦ (harrives time).mono fun _ h ↦ h.resolve_right (by simp)

/-- A run that ends where its program ends. -/
theorem Setting.Arrives.goes_end {stk : List Noun} {fam : List (Frame C)} {tax : List Noun}
    (harrives : S.Arrives tel c ⟨[], stk, fam, tax⟩) : S.Goes c ⟨[], stk, fam, tax⟩ :=
  fun time ↦ (harrives time).mono fun _ h ↦ h.elim id And.right

/-- More ops after those of a formula in tail position. -/
theorem Setting.Arrives.trans_goes {ops rest : List Op} {stk : List Noun} {fam : List (Frame C)}
    {tax : List Noun} (harrives : S.Arrives tel c ⟨ops, stk, fam, tax⟩)
    (hgoes : S.Goes ⟨ops, stk, fam, tax⟩ ⟨rest, stk, fam, tax⟩) :
    S.Arrives tel c ⟨rest, stk, fam, tax⟩ := by
  intro time
  refine (harrives time).trans (.or ?_ (.of_imp fun _ ↦ Or.inr))
  exact (hgoes time).mono fun _ ↦ Or.inl

/-! ### Single ops -/

variable {o : Op} {v : View} {rest : List Op} {st st' : List Noun} {fam : List (Frame C)}
  {tax tax' : List Noun}

theorem Setting.At.eq {time : ℕ} {ops : List Op} {s : State C W}
    (hs : S.At time ⟨ops, st, fam, tax⟩ s) :
    ∃ code world, s = ⟨code, st, fam, tax, world⟩ ∧ S.Codes code ops ∧ S.Good world ∧
      time ≤ S.clock world := by
  obtain ⟨code, stk, fams, traces, world⟩ := s
  obtain ⟨hcode, hstk, hfam, htax, hgood, htime⟩ := hs
  cases hstk
  cases hfam
  cases htax
  exact ⟨code, world, rfl, hcode, hgood, htime⟩

theorem step_of_fetch {s s' : State C W} {instr : Instr} {code : C}
    (hfetch : S.mac.fetch s.code = some (instr, code))
    (hexec : exec S.env S.mac { s with code := code } instr = .next s') : S.Step s s' :=
  (step_eq hfetch).trans hexec

/-- An op that goes on with the next one. -/
theorem goes_op (hview : o.view = some v)
    (hexec : ∀ (s : State C W) dist inx, s.stk = st → s.tax = tax → S.Good s.world →
      ∃ w, exec S.env S.mac s (v.instr o.cod dist inx) =
        .next { s with stk := st', tax := tax', world := w } ∧
        Later S.Good S.clock s.world w) :
    S.Goes ⟨o :: rest, st, fam, tax⟩ ⟨rest, st', fam, tax'⟩ := by
  intro time
  apply Leads.step
  intro s hs
  obtain ⟨v', dist, inx, code, hview', hfetch, hcodes, -⟩ := S.faithful.fetch hs.code
  cases hview.symm.trans hview'
  obtain ⟨w, hnext, hlater⟩ := hexec { s with code := code } dist inx hs.stk hs.tax hs.good
  refine ⟨_, step_of_fetch hfetch hnext, hcodes, rfl, hs.fam, rfl, hlater.good,
    hs.time.trans hlater.time⟩

variable {cod : Opcode} {n : ℕ}

/-- An op without an operand that only changes the stack. -/
theorem goes_bare (hview : (op cod).view = some .bare)
    (hbare : ∀ s : State C W, bare S.env S.mac s cod st = s.put st') :
    S.Goes ⟨op cod :: rest, st, fam, tax⟩ ⟨rest, st', fam, tax⟩ := by
  refine goes_op hview fun s dist inx hstk htax hgood ↦ ⟨s.world, ?_, hgood, le_rfl⟩
  show bare S.env S.mac s cod s.stk = _
  rw [hstk, hbare, ← htax]
  rfl

/-- An op without an operand that calls a hook. -/
theorem goes_hook (hview : (op cod).view = some .bare)
    (hbare : ∀ s : State C W, S.Good s.world → ∃ w,
      bare S.env S.mac s cod st = .next { s with stk := st', world := w } ∧
      Later S.Good S.clock s.world w) :
    S.Goes ⟨op cod :: rest, st, fam, tax⟩ ⟨rest, st', fam, tax⟩ := by
  refine goes_op hview fun s dist inx hstk htax hgood ↦ ?_
  obtain ⟨w, hnext, hlater⟩ := hbare s hgood
  refine ⟨w, ?_, hlater⟩
  show bare S.env S.mac s cod s.stk = _
  rw [hstk, hnext, ← htax]

/-- The view of an op with the opcode for the size of its argument. -/
theorem view_sized (ar : Noun) {byte short index : Opcode}
    (hbyte : operand byte = some (.val, byte) ∧ arg byte = 1)
    (hshort : operand short = some (.val, short) ∧ arg short = 2)
    (hindex : operand index = some (.lit, index)) :
    (∃ x, ar = .atom x ∧ (⟨sized ar byte short index, some ar⟩ : Op).view = some (.val x)) ∨
      (⟨sized ar byte short index, some ar⟩ : Op).view = some (.lit ar) := by
  unfold sized
  split
  · next h =>
    obtain ⟨x, rfl, hx⟩ := small_atom h
    refine Or.inl ⟨x, rfl, ?_⟩
    simp [Op.view, hbyte]
    omega
  · split
    · next h =>
      obtain ⟨x, rfl, hx⟩ := small_atom h
      refine Or.inl ⟨x, rfl, ?_⟩
      simp [Op.view, hshort]
      omega
    · right
      cases ar <;> simp [Op.view, hindex]

/-- An op with an argument that only changes the stack. -/
theorem goes_sized {ar : Noun} {byte short index : Opcode}
    (hbyte : operand byte = some (.val, byte) ∧ arg byte = 1)
    (hshort : operand short = some (.val, short) ∧ arg short = 2)
    (hindex : operand index = some (.lit, index))
    (hvbyte : ∀ s : State C W, valued S.env s byte ar st = s.put st')
    (hvshort : ∀ s : State C W, valued S.env s short ar st = s.put st')
    (hvindex : ∀ s : State C W, valued S.env s index ar st = s.put st') :
    S.Goes ⟨⟨sized ar byte short index, some ar⟩ :: rest, st, fam, tax⟩ ⟨rest, st', fam, tax⟩ := by
  have hvalued : ∀ s : State C W, valued S.env s (sized ar byte short index) ar st = s.put st' := by
    intro s
    unfold sized
    split_ifs
    · exact hvbyte s
    · exact hvshort s
    · exact hvindex s
  have hput : ∀ s : State C W, s.stk = st → s.tax = tax →
      valued S.env s (sized ar byte short index) ar s.stk =
        .next { s with stk := st', tax := tax } := by
    intro s hstk htax
    rw [hstk, hvalued, ← htax]
    rfl
  obtain ⟨x, rfl, hview⟩ | hview := view_sized ar hbyte hshort hindex
  · exact goes_op hview fun s _ _ hstk htax hgood ↦ ⟨s.world, hput s hstk htax, hgood, le_rfl⟩
  · exact goes_op hview fun s _ _ hstk htax hgood ↦ ⟨s.world, hput s hstk htax, hgood, le_rfl⟩

/-- A skip. -/
theorem goes_skip :
    S.Goes ⟨⟨.sbip, some (.atom n)⟩ :: rest, st, fam, tax⟩ ⟨rest.drop n, st, fam, tax⟩ := by
  intro time
  apply Leads.step
  intro s hs
  obtain ⟨v', dist, inx, code, hview, hfetch, -, hskip⟩ := S.faithful.fetch hs.code
  cases hview
  exact ⟨_, step_of_fetch hfetch rfl, hskip, hs.stk, hs.fam, hs.tax, hs.good, hs.time⟩

/-- A test that finds 0 goes on. -/
theorem goes_yes :
    S.Goes ⟨⟨.sbin, some (.atom n)⟩ :: rest, .atom 0 :: st, fam, tax⟩ ⟨rest, st, fam, tax⟩ := by
  refine goes_op rfl fun s dist inx hstk htax hgood ↦ ⟨s.world, ?_, hgood, le_rfl⟩
  unfold exec
  rw [hstk, ← htax]
  rfl

/-- A test that finds 1 skips. -/
theorem goes_no :
    S.Goes ⟨⟨.sbin, some (.atom n)⟩ :: rest, .atom 1 :: st, fam, tax⟩ ⟨rest.drop n, st, fam,
    tax⟩ := by
  intro time
  apply Leads.step
  intro s hs
  obtain ⟨code, world, rfl, hcodes, hgood, htime⟩ := hs.eq
  obtain ⟨v', dist, inx, code', hview, hfetch, -, hskip⟩ := S.faithful.fetch hcodes
  cases hview
  exact ⟨_, step_of_fetch hfetch rfl, hskip, rfl, rfl, rfl, hgood, htime⟩

/-! ### Traces -/

theorem goes_bush {tag clu : Noun} :
    S.Goes ⟨⟨.bush, some tag⟩ :: rest, clu :: st, fam, tax⟩ ⟨rest, st, fam,
    .cell tag clu :: tax⟩ := by
  have hview : (⟨.bush, some tag⟩ : Op).view = some (.lit tag) := by
    cases tag <;> rfl
  refine goes_op hview fun s dist inx hstk htax hgood ↦ ⟨s.world, ?_, hgood, le_rfl⟩
  show valued S.env s .bush tag s.stk = _
  rw [hstk, ← htax]
  rfl

theorem goes_drop {trace : Noun} :
    S.Goes ⟨op .drop :: rest, st, fam, trace :: tax⟩ ⟨rest, st, fam, tax⟩ := by
  refine goes_op rfl fun s dist inx hstk htax hgood ↦ ⟨s.world, ?_, hgood, le_rfl⟩
  show bare S.env S.mac s .drop s.stk = _
  unfold bare
  rw [htax, hstk]

/-! ### Calls -/

/-- The end of a program that was called. -/
theorem goes_halt {pro : Noun} {code : C} (hcodes : S.Codes code rest) :
    S.Goes ⟨[], [pro], ⟨code, st⟩ :: fam, tax⟩ ⟨rest, pro :: st, fam, tax⟩ := by
  intro time
  apply Leads.step
  intro s hs
  obtain ⟨here, world, rfl, hhere, hgood, htime⟩ := hs.eq
  obtain ⟨code', hfetch⟩ := S.faithful.halt hhere
  exact ⟨_, step_of_fetch hfetch rfl, hcodes, rfl, rfl, rfl, hgood, htime⟩

/-- The program of a formula, from its first op to its end. -/
def Setting.Calls (S : Setting C W) (bus fol pro : Noun) : Prop :=
  ∃ ops, Fits fol ops ∧ ∀ fam tax, S.Goes ⟨ops, [bus], fam, tax⟩ ⟨[], [pro], fam, tax⟩

variable {bus fol pro : Noun}

/-- A program is entered, and runs to its end. -/
theorem leads_enter (hcalls : S.Calls bus fol pro) (s : State C W) (fam : List (Frame C)) {time : ℕ}
    (hgood : S.Good s.world) (htime : time ≤ S.clock s.world) (htax : s.tax = tax) :
    ∃ s', s.enter S.mac fol [bus] fam = .next s' ∧ ∃ s'', Relation.ReflTransGen S.Step s' s'' ∧
      S.At time ⟨[], [pro], fam, tax⟩ s'' := by
  obtain ⟨ops, hfits, hgoes⟩ := hcalls
  obtain ⟨code, hfind, hcodes⟩ := S.faithful.fits hfits
  refine ⟨{ s with code := code, stk := [bus], fam := fam }, ?_, ?_⟩
  · unfold State.enter
    rw [hfind]
    rfl
  · exact hgoes fam tax time _ ⟨hcodes, rfl, rfl, htax, hgood, htime⟩

/-- A call from which the program goes on. -/
theorem goes_call (hcalls : S.Calls bus fol pro) (hview : (op cod).view = some .bare)
    (hbare : ∀ s : State C W, bare S.env S.mac s cod st =
      s.enter S.mac fol [bus] (⟨s.code, st'⟩ :: s.fam)) :
    S.Goes ⟨op cod :: rest, st, fam, tax⟩ ⟨rest, pro :: st', fam, tax⟩ := by
  intro time s hs
  obtain ⟨code, world, rfl, hcodes, hgood, htime⟩ := hs.eq
  obtain ⟨v, dist, inx, code', hview', hfetch, hnext, -⟩ := S.faithful.fetch hcodes
  cases hview.symm.trans hview'
  obtain ⟨s₁, henter, s₂, hrun, hs₂⟩ := leads_enter hcalls ⟨code', st, fam, tax, world⟩
    (⟨code', st'⟩ :: fam) hgood htime rfl
  have hstep : S.Step ⟨code, st, fam, tax, world⟩ s₁ :=
    step_of_fetch hfetch ((hbare _).trans henter)
  obtain ⟨s₃, hrun', hs₃⟩ := goes_halt hnext time s₂ hs₂
  exact ⟨s₃, (hrun.trans hrun').head hstep, hs₃⟩

/-- A call in tail position: the program is left for the one that is called. -/
theorem arrives_call (hcalls : S.Calls bus fol pro) {old : Noun} :
    S.Arrives true ⟨op .noct :: rest, [fol, old, bus], fam, tax⟩ ⟨rest, [pro], fam, tax⟩ := by
  intro time s hs
  obtain ⟨code, world, rfl, hcodes, hgood, htime⟩ := hs.eq
  obtain ⟨v, dist, inx, code', hview, hfetch, -, -⟩ := S.faithful.fetch hcodes
  cases hview
  obtain ⟨s₁, henter, s₂, hrun, hs₂⟩ := leads_enter hcalls
    ⟨code', [fol, old, bus], fam, tax, world⟩ fam hgood htime rfl
  have hstep : S.Step ⟨code, [fol, old, bus], fam, tax, world⟩ s₁ := step_of_fetch hfetch henter
  exact ⟨s₂, hrun.head hstep, Or.inr ⟨rfl, hs₂⟩⟩

theorem xAt_of_slot {cor : Noun} {axe : ℕ} (hslot : slot axe cor = some fol) :
    xAt (.atom axe) cor = .ok fol := by
  simp only [xAt, hslot]

section Kicks

variable {cor : Noun} {axe : ℕ} (hslot : slot axe cor = some fol) (hproduct : Product cor fol pro)
  (hkicks : S.env.Kicks S.Good axe cor)
include hslot hproduct hkicks

/-- A kick goes to a jet that gives the product, or to the program at the axis. -/
theorem kick_cases {w : W} (hgood : S.Good w) (site : Site) :
    ∃ w', Later S.Good S.clock w w' ∧ (S.env.kick w site (.atom axe) cor = some (some pro, w') ∨
      S.env.kick w site (.atom axe) cor = some (none, w')) := by
  obtain ⟨⟨res, w'⟩, hkick⟩ := Option.ne_none_iff_exists'.mp (hkicks w site hgood)
  obtain ⟨hlater, hres⟩ := S.sound.kick hgood hslot hkick
  refine ⟨w', hlater, ?_⟩
  cases res with
  | none => exact Or.inr hkick
  | some pro' =>
    left
    rw [hkick, product_unique (hres pro' rfl) hproduct]

theorem goes_kick (hcalls : S.Calls cor fol pro) :
    S.Goes ⟨⟨.kicb, some (.atom axe)⟩ :: rest, cor :: st, fam, tax⟩ ⟨rest, pro :: st, fam,
    tax⟩ := by
  intro time s hs
  obtain ⟨code, world, rfl, hcodes, hgood, htime⟩ := hs.eq
  obtain ⟨v, dist, inx, code', hview, hfetch, hnext, -⟩ := S.faithful.fetch hcodes
  cases hview
  obtain ⟨w, hlater, hkick | hkick⟩ := kick_cases hslot hproduct hkicks hgood ⟨S.mac.fol code', inx⟩
  · have hexec : State.kick S.env S.mac ⟨code', cor :: st, fam, tax,
      world⟩ inx (.atom axe) cor st false =
        .next ⟨code', pro :: st, fam, tax, w⟩ := by
      unfold State.kick
      rw [hkick]
    exact ⟨_, .single (step_of_fetch hfetch hexec), hnext, rfl, rfl, rfl, hlater.good,
      htime.trans hlater.time⟩
  · obtain ⟨s₁, henter, s₂, hrun, hs₂⟩ := leads_enter hcalls ⟨code', cor :: st, fam, tax, w⟩
      (⟨code', st⟩ :: fam) hlater.good (htime.trans hlater.time) rfl
    have hexec : State.kick S.env S.mac ⟨code', cor :: st, fam, tax,
      world⟩ inx (.atom axe) cor st false =
        .next s₁ := by
      unfold State.kick
      rw [hkick, xAt_of_slot hslot]
      exact henter
    obtain ⟨s₃, hrun', hs₃⟩ := goes_halt hnext time s₂ hs₂
    exact ⟨s₃, (hrun.trans hrun').head (step_of_fetch hfetch hexec), hs₃⟩

/-- A kick in tail position. -/
theorem arrives_tick (hcalls : S.Calls cor fol pro) :
    S.Arrives true ⟨⟨.ticb, some (.atom axe)⟩ :: rest, [cor], fam, tax⟩ ⟨rest, [pro], fam,
    tax⟩ := by
  intro time s hs
  obtain ⟨code, world, rfl, hcodes, hgood, htime⟩ := hs.eq
  obtain ⟨v, dist, inx, code', hview, hfetch, hnext, -⟩ := S.faithful.fetch hcodes
  cases hview
  obtain ⟨w, hlater, hkick | hkick⟩ := kick_cases hslot hproduct hkicks hgood ⟨S.mac.fol code', inx⟩
  · have hexec : State.kick S.env S.mac ⟨code', [cor], fam, tax, world⟩ inx (.atom axe) cor
      [] true =
        .next ⟨code', [pro], fam, tax, w⟩ := by
      unfold State.kick
      rw [hkick]
    exact ⟨_, .single (step_of_fetch hfetch hexec), Or.inl ⟨hnext, rfl, rfl, rfl, hlater.good,
      htime.trans hlater.time⟩⟩
  · obtain ⟨s₁, henter, s₂, hrun, hs₂⟩ := leads_enter hcalls ⟨code', [cor], fam, tax, w⟩
      fam hlater.good (htime.trans hlater.time) rfl
    have hexec : State.kick S.env S.mac ⟨code', [cor], fam, tax, world⟩ inx (.atom axe) cor
      [] true =
        .next s₁ := by
      unfold State.kick
      rw [hkick, xAt_of_slot hslot]
      exact henter
    exact ⟨s₂, hrun.head (step_of_fetch hfetch hexec), Or.inr ⟨rfl, hs₂⟩⟩

end Kicks

/-! ### Memos -/

section Memos

variable {key : Noun} (hproduct : Product bus key pro)
include hproduct

/-- A memo is found, with the product of the formula, or the formula is run. -/
theorem goes_recall (hcod : (cod = .skib ∧ st' = bus :: st) ∨ (cod = .slib ∧ st' = st))
    (hmiss : S.Goes ⟨rest, bus :: .cell bus key :: st', fam, tax⟩ c)
    (hhit : S.Goes ⟨rest.drop n, pro :: st', fam, tax⟩ c) :
    S.Goes ⟨⟨cod, some (.cell (.atom n) key)⟩ :: rest, bus :: st, fam, tax⟩ c := by
  intro time s hs
  obtain ⟨code, world, rfl, hcodes, hgood, htime⟩ := hs.eq
  obtain ⟨v, dist, inx, code', hview, hfetch, hnext, hskip⟩ := S.faithful.fetch hcodes
  have hmemo : v = .memo n key := by
    obtain ⟨rfl, -⟩ | ⟨rfl, -⟩ := hcod <;> exact (Option.some.inj hview).symm
  subst hmemo
  have hexec : exec S.env S.mac ⟨code', bus :: st, fam, tax, world⟩ (.memo cod inx ⟨dist n, key⟩) =
      State.recall S.env S.mac ⟨code', bus :: st, fam, tax, world⟩ bus ⟨dist n, key⟩ st' := by
    obtain ⟨rfl, rfl⟩ | ⟨rfl, rfl⟩ := hcod <;> rfl
  cases hfind : S.env.find world (.cell bus key) with
  | some pro' =>
    obtain rfl : pro' = pro := product_unique (S.sound.find hgood hfind) hproduct
    have hstep : S.Step ⟨code, bus :: st, fam, tax, world⟩
        ⟨S.mac.skip code' (dist n), pro' :: st', fam, tax, world⟩ := by
      refine step_of_fetch hfetch (hexec.trans ?_)
      unfold State.recall
      rw [hfind]
    obtain ⟨s', hrun, hs'⟩ := hhit time ⟨S.mac.skip code' (dist n), pro' :: st', fam, tax, world⟩
      ⟨hskip, rfl, rfl, rfl, hgood, htime⟩
    exact ⟨s', hrun.head hstep, hs'⟩
  | none =>
    have hstep : S.Step ⟨code, bus :: st, fam, tax, world⟩
        ⟨code', bus :: .cell bus key :: st', fam, tax, world⟩ := by
      refine step_of_fetch hfetch (hexec.trans ?_)
      unfold State.recall
      rw [hfind]
      rfl
    obtain ⟨s', hrun, hs'⟩ := hmiss time ⟨code', bus :: .cell bus key :: st', fam, tax, world⟩
      ⟨hnext, rfl, rfl, rfl, hgood, htime⟩
    exact ⟨s', hrun.head hstep, hs'⟩

theorem goes_save :
    S.Goes ⟨op .save :: rest, pro :: .cell bus key :: st, fam, tax⟩ ⟨rest, pro :: st, fam,
    tax⟩ := by
  refine goes_hook rfl fun s hgood ↦ ?_
  refine ⟨if S.env.home then s.world else S.env.save s.world (.cell bus key) pro, rfl, ?_⟩
  split
  · exact ⟨hgood, le_rfl⟩
  · exact S.sound.save hgood hproduct

end Memos

end Runs

end Vere.Noun.Nock
