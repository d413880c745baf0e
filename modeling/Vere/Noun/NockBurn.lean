import Vere.Noun.Jets
import Vere.Noun.NockAsm

/-!
# The Nock interpreter

`pkg/noun/nock.c`: `_n_burn` runs a program on a stack of nouns and of frames, which hold where a
caller goes on. The step is a function of a `Machine`, which fetches instructions, skips and finds
the program of a formula: `bytes` is the one of the source, and `NockMachine` has one on the ops of
the compiler. What the interpreter calls outside of it is an `Env`: the kicks of jets, the memo
cache, the clock, the hooks that print, the scry gates. These return or bail. Cores are registered
in the dashboard of `Jets`.
-/

set_option autoImplicit false

namespace Vere.Noun.Nock

open Serial

/-! ### Editing -/

/-- `u3qc_mas()`. -/
def mas : Noun → Except Crash ℕ
  | .cell _ _ => .error .assert
  | .atom a =>
    match rMet a with
    | none => .error .bail
    | some met =>
      if met < 2 then .error .bail
      else
        match qcBex (met - 1), qcBex (met - 2) with
        | some c, some d => .ok ((a - c) ||| d)
        | _, _ => .error .bail

/-- `_edit()` and `_edit_cat()`; the mutating versions give the same noun. -/
def editMore : Noun → Noun → Noun → Except Crash Noun
  | .atom _, _, _ => .error .bail
  | .cell h t, axe, som =>
    if axe = .atom 2 then .ok (.cell som t)
    else if axe = .atom 3 then .ok (.cell h som)
    else do
      let mor ← mas axe
      let side ← cap axe
      if side = 2 then do
        let h ← editMore h (.atom mor) som
        .ok (.cell h t)
      else do
        let t ← editMore t (.atom mor) som
        .ok (.cell h t)

/-- `u3i_edit()`. -/
def iEdit (big axe som : Noun) : Except Crash Noun :=
  match axe with
  | .atom 0 => .error .bail
  | .atom 1 => .ok som
  | axe => editMore big axe som

/-- `u3x_at()`. -/
def xAt (axe big : Noun) : Except Crash Noun :=
  match axe with
  | .cell _ _ => .error .bail
  | .atom axe =>
    match slot axe big with
    | some n => .ok n
    | none => .error .bail

/-! ### The environment -/

/-- A call site or a registration site: the formula of its program, and its index there. -/
structure Site where
  fol : Noun
  inx : ℕ
  deriving DecidableEq, Repr

/-- What the interpreter calls. A call that bails returns none. -/
structure Env (W : Type) where
  /-- There is a scry gate: `0 != u3R->ski.gul`. -/
  gul : Bool
  /-- The road is the home road. -/
  home : Bool
  /-- `u3o_quiet`. -/
  quiet : Bool
  /-- `u3t_trace_time()`. -/
  traceTime : W → ℕ × W
  /-- `u3t_slog()`. -/
  slog : W → Noun → Option W
  /-- `u3t_slog_nara()`, with the trace of the road. -/
  slogNara : W → ℕ → List Noun → Option W
  /-- `u3t_slog_hela()`, with the trace of the road. -/
  slogHela : W → ℕ → List Noun → Option W
  /-- `u3t_heck()`. -/
  heck : W → ℕ → Option W
  /-- The text that `_cn_etch_bytecode()` makes of a program. -/
  etch : Prog → Noun
  /-- The text of `u3a_print_time()` for a number of microseconds. -/
  printTime : ℕ → Noun
  /-- The table that the dashboard is compiled into. -/
  dash : Jets.Dash
  /-- The jet state of the roads. -/
  jets : W → Jets.State
  /-- `u3j_rite`: the clue and the fink of a registration site. -/
  rite : W → Site → Option (Noun × Jets.Fink)
  /-- The site and the jet state after a registration. -/
  enroll : W → Site → Option (Noun × Jets.Fink) → Jets.State → W
  /-- `u3j_site_kick()`, by the axis and the core: a product, or none for the program at the axis.
  -/
  kick : W → Site → Noun → Noun → Option (Option Noun × W)
  /-- `u3z_find_m()`, by the subject and the formula. -/
  find : W → Noun → Option Noun
  /-- `u3z_save_m()`. -/
  save : W → Noun → Noun → W
  /-- `u3m_soft_esc()`, where there is a scry gate. -/
  esc : W → Noun → Noun → Option (Noun × W)

/-- A call that returns or bails. -/
def orBail {α : Type} : Option α → Except Crash α
  | some v => .ok v
  | none => .error .bail

section Hooks

variable {W : Type} (env : Env W)

/-- `u3t_slog_cap()`. -/
def slogCap (w : W) (pri : ℕ) (cap tan : Noun) : Except Crash W :=
  orBail (env.slog w (.cell (.atom pri) (.trel (.atom (s4 'r' 'o' 's' 'e'))
    (.trel (.trel (.atom 58) (.atom 32) .nul) .nul .nul) (.trel cap tan .nul))))

/-- A priority: a direct atom, or zero. -/
def priority : Noun → ℕ
  | .atom a => if a < 2 ^ 31 then a else 0
  | .cell _ _ => 0

/-- `_cn_intlen()`. -/
def intlen (num_w : ℕ) : ℕ := if num_w = 0 then 0 else (Nat.toDigits 10 num_w).length

/-- The loops of `_cn_etch_bytecode()`: the characters that the first one counts, and those that the
second one writes. -/
def etchLens (pog_y : List ℕ) : ℕ → ℕ → ℕ × ℕ
  | 0, _ => (0, 0)
  | more + 1, ip_w =>
    match pog_y[ip_w]? with
    | none => (0, 0)
    | some bop_w =>
      let par_w := arg (Opcode.ofNat bop_w)
      let dex_w := if (operand (Opcode.ofNat bop_w)).map Prod.fst = some .lit then 2 else 0
      let num_w := (number pog_y (ip_w + 1) par_w).getD 0
      let (len_c, str_c) := etchLens pog_y more (ip_w + 1 + par_w)
      if par_w = 0 then (5 + len_c, 5 + str_c)
      -- a zero has a digit, which is not counted
      else (8 + dex_w + intlen num_w + len_c, 8 + dex_w + max 1 (intlen num_w) + str_c)

/-- `_cn_etch_bytecode()`. A closing brace and a zero byte are written after the instructions. -/
def etchBytecode (fol : Noun) : Except Crash Noun := do
  let pog ← bite fol
  let (len_c, str_c) := etchLens pog.ops pog.ops.length 0
  if str_c + 2 ≤ 1 + len_c then .ok (env.etch pog) else .error .assert

/-- `_n_hilt_fore()`: the token. -/
def hiltFore (w : W) (tax : List Noun) : Noun → Except Crash (Noun × W)
  | .atom _ => .error .bail
  | .cell tag fol =>
    if tag = .atom mBout then
      let (now, w) := env.traceTime w
      .ok (.cell tag (.atom now), w)
    else if tag = .atom mNara then do
      let w ← orBail (env.slogNara w 0 tax)
      .ok (.nul, w)
    else if tag = .atom mHela then do
      let w ← orBail (env.slogHela w 0 tax)
      .ok (.nul, w)
    else if tag = .atom mXray then do
      let text ← etchBytecode env fol
      let w ← orBail (env.slog w (.cell (.atom 0) text))
      .ok (.nul, w)
    else .ok (.nul, w)

/-- `_n_hilt_hind()`. -/
def hiltHind (w : W) (tok : Noun) : Except Crash W :=
  match tok with
  | .cell (.atom tag) start =>
    if tag = mBout then
      let (now, w) := env.traceTime w
      match start with
      | .cell _ _ => .error .assert
      | .atom start =>
        if now < start then .error .bail
        else orBail (env.slog w (.cell (.atom 0) (env.printTime (now - start))))
    else .error .assert
  | tok => if tok = .nul then .ok w else .error .assert

/-- `_n_hint_fore()`: the token, by the clue. -/
def hintFore (w : W) (tax : List Noun) (hin clu : Noun) : Except Crash (Noun × W) :=
  match hin with
  | .atom _ => .error .bail
  | .cell tag fol =>
    if tag = .atom mBout then
      let (now, w) := env.traceTime w
      .ok (.trel tag clu (.atom now), w)
    else
      match clu with
      | .atom _ => .ok (.nul, w)
      | .cell pri tan =>
        if tag = .atom mNara then do
          let w ← slogCap env w (priority pri) (.atom 0x666f206563617274) tan
          let w ← orBail (env.slogNara w (priority pri) tax)
          .ok (.nul, w)
        else if tag = .atom mHela then do
          let w ← slogCap env w (priority pri) (.atom 0x666f206563617274) tan
          let w ← orBail (env.slogHela w (priority pri) tax)
          .ok (.nul, w)
        else if tag = .atom mXray then do
          let text ← etchBytecode env fol
          let w ← slogCap env w (priority pri) tan text
          .ok (.nul, w)
        else .ok (.nul, w)

/-- `_n_hint_hind()`. -/
def hintHind (w : W) (tok : Noun) : Except Crash W :=
  match tok with
  | .cell (.atom tag) (.cell clu start) =>
    if tag = mBout then
      let (now, w) := env.traceTime w
      match start with
      | .cell _ _ => .error .assert
      | .atom start =>
        if now < start then .error .bail
        else
          match clu with
          | .atom _ => .error .assert
          | .cell pri tan => slogCap env w (priority pri) tan (env.printTime (now - start))
    else .error .assert
  | tok => if tok = .nul then .ok w else .error .assert

/-- `u3j_rite_mine()`. -/
def Env.mine (w : W) (site : Site) (clu cor : Noun) : Except Crash W :=
  match Jets.riteMine env.dash (env.rite w site) clu cor (env.jets w) with
  | .ok (rit_u, st) => .ok (env.enroll w site rit_u st)
  | .error .assert | .error .unwarm => .error .assert
  | .error _ => .error .bail

end Hooks

/-! ### The machine -/

/-- How code is read: the formula of a program, the next instruction, skips, and `_n_find()`. -/
structure Machine (C : Type) where
  fol : C → Noun
  fetch : C → Option (Instr × C)
  skip : C → ℕ → C
  find : Noun → Except Crash C

/-- A `burnframe`: where a caller goes on, with the nouns between it and the next frame. -/
structure Frame (C : Type) where
  code : C
  stk : List Noun

/-- The state of `_n_burn()`: where it is in a program, the nouns above the last frame, the frames,
the trace of the road, and what is outside. -/
structure State (C W : Type) where
  code : C
  stk : List Noun
  fam : List (Frame C)
  tax : List Noun
  world : W

/-- What a step leads to. -/
inductive Outcome (C W : Type)
  | next (s : State C W)
  /-- `_n_burn()` returns: the stack is as it was before the subject was pushed. -/
  | done (pro : Noun) (tax : List Noun) (world : W)
  | crash (e : Crash)
  /-- A frame is used as a noun or a noun as a frame, the stack is used below where it was, or the
  program is left. -/
  | wild

section Step

variable {C W : Type} (env : Env W) (mac : Machine C)

/-- A step that may crash. -/
def Outcome.of (x : Except Crash (State C W)) : Outcome C W :=
  match x with
  | .ok s => .next s
  | .error e => .crash e

variable (s : State C W)

/-- The same state with another stack. -/
def State.put (st : List Noun) : Outcome C W := .next { s with stk := st }

/-- A value that may crash is pushed. -/
def State.push (x : Except Crash Noun) (st : List Noun) : Outcome C W :=
  .of (x.map fun n ↦ { s with stk := n :: st })

/-- A program is entered. -/
def State.enter (fol : Noun) (st : List Noun) (fam : List (Frame C)) : Outcome C W :=
  .of ((mac.find fol).map fun code ↦ { s with code := code, stk := st, fam := fam })

/-- The head or the tail of a cell, `_n_kale()`. -/
def side (tail : Bool) : Noun → Except Crash Noun
  | .atom _ => .error .bail
  | .cell h t => .ok (if tail then t else h)

/-- `u3i_vint()`. -/
def vint : Noun → Except Crash Noun
  | .atom a => .ok (.atom (a + 1))
  | .cell _ _ => .error .bail

/-- The product of a scry: `u3t(u3t(x))`. -/
def escaped : Noun → Except Crash Noun
  | .cell _ (.cell _ pro) => .ok pro
  | _ => .error .bail

/-- A scry, with what is done with its product. -/
def State.scry (ref gof : Noun) (st : List Noun) : Outcome C W :=
  if env.gul then
    .of (do
      let (x, w) ← orBail (env.esc s.world ref gof)
      let pro ← escaped x
      .ok { s with stk := pro :: st, world := w })
  else .crash .assert

/-- An axis of which the head is 2 or 3, or the sample. -/
def mutate (cod : Opcode) (big som : Noun) : Except Crash Noun :=
  match cod, big with
  | .muth, .cell _ t | .kuth, .cell _ t => .ok (.cell som t)
  | .mutt, .cell h _ | .kutt, .cell h _ => .ok (.cell h som)
  | .musm, .cell h (.cell _ t) | .kusm, .cell h (.cell _ t) => .ok (.trel h som t)
  | _, _ => .error .bail

/-- The instructions without an operand. -/
def bare (cod : Opcode) (st : List Noun) : Outcome C W :=
  match cod, st with
  | .halt, [x] =>
    match s.fam with
    | [] => .done x s.tax s.world
    | fam :: fams => .next { s with code := fam.code, stk := x :: fam.stk, fam := fams }
  | .bail, _ => .crash .bail
  | .copy, x :: st => s.put (x :: x :: st)
  | .swap, x :: y :: st => s.put (y :: x :: st)
  | .toss, _ :: st => s.put st
  | .auto, tel :: bus :: hed :: st => s.put (.cell hed tel :: bus :: st)
  | .ault, tel :: _ :: hed :: st => s.put (.cell hed tel :: st)
  | .snoc, x :: bus :: st => s.put (.cell x bus :: bus :: st)
  | .snol, x :: bus :: st => s.put (.cell x bus :: st)
  | .head, x :: st => s.push (side false x) (x :: st)
  | .held, x :: st => s.push (side false x) st
  | .tail, x :: st => s.push (side true x) (x :: st)
  | .tall, x :: st => s.push (side true x) st
  | .lit0, st => s.put (.atom 0 :: st)
  | .lit1, st => s.put (.atom 1 :: st)
  | .lil0, _ :: st => s.put (.atom 0 :: st)
  | .lil1, _ :: st => s.put (.atom 1 :: st)
  | .noct, fol :: _ :: bus :: st => s.enter mac fol (bus :: st) s.fam
  | .nolk, fol :: _ :: bus :: st => s.enter mac fol [bus] (⟨s.code, st⟩ :: s.fam)
  | .nock, fol :: old :: bus :: st => s.enter mac fol [bus] (⟨s.code, old :: st⟩ :: s.fam)
  | .deep, x :: st => s.put (wut x :: st)
  | .bump, x :: st => s.push (vint x) st
  | .sam0, x :: st => s.put (tis x (.atom 0) :: st)
  | .sam1, x :: st => s.put (tis x (.atom 1) :: st)
  | .same, x :: bus :: o :: st => s.put (tis x o :: bus :: st)
  | .salm, x :: _ :: o :: st => s.put (tis x o :: st)
  | .samc, x :: st =>
    s.push (do
      let h ← side false x
      let t ← side true x
      .ok (tis h t)) st
  | .wils, gof :: _ :: ref :: st => s.scry env ref gof st
  | .wish, gof :: bus :: ref :: st => s.scry env ref gof (bus :: st)
  | .drop, st =>
    match s.tax with
    | [] => .crash .assert
    | _ :: tax => .next { s with stk := st, tax := tax }
  | .heck, x :: st =>
    match x with
    | .cell _ _ => s.put st
    | .atom a => .of ((orBail (env.heck s.world a)).map fun w ↦ { s with stk := st, world := w })
  | .slog, x :: st =>
    if env.quiet then s.put st
    else .of ((orBail (env.slog s.world x)).map fun w ↦ { s with stk := st, world := w })
  | .save, x :: key :: st =>
    .next { s with
      stk := x :: st, world := if env.home then s.world else env.save s.world key x }
  | .hilk, pro :: bus :: tok :: st =>
    .of ((hiltHind env s.world tok).map fun w ↦ { s with stk := pro :: bus :: st, world := w })
  | .hill, pro :: tok :: st =>
    .of ((hiltHind env s.world tok).map fun w ↦ { s with stk := pro :: st, world := w })
  | .hink, pro :: bus :: tok :: st =>
    .of ((hintHind env s.world tok).map fun w ↦ { s with stk := pro :: bus :: st, world := w })
  | .hinl, pro :: tok :: st =>
    .of ((hintHind env s.world tok).map fun w ↦ { s with stk := pro :: st, world := w })
  | .muth, x :: _ :: o :: st => s.push (mutate .muth o x) st
  | .mutt, x :: _ :: o :: st => s.push (mutate .mutt o x) st
  | .musm, x :: _ :: o :: st => s.push (mutate .musm o x) st
  | .kuth, x :: bus :: o :: st => s.push (mutate .kuth o x) (bus :: st)
  | .kutt, x :: bus :: o :: st => s.push (mutate .kutt o x) (bus :: st)
  | .kusm, x :: bus :: o :: st => s.push (mutate .kusm o x) (bus :: st)
  | _, _ => .wild

/-- The instructions with a number or a literal for their operand. -/
def valued (cod : Opcode) (x : Noun) (st : List Noun) : Outcome C W :=
  match cod, st with
  | .fabk, bus :: st | .fask, bus :: st | .fibk, bus :: st => s.push (xAt x bus) (bus :: st)
  | .fabl, bus :: st | .fasl, bus :: st | .fibl, bus :: st => s.push (xAt x bus) st
  | .litb, st | .lits, st | .libk, st => s.put (x :: st)
  | .lilb, _ :: st | .lils, _ :: st | .libl, _ :: st => s.put (x :: st)
  | .samb, o :: st | .sams, o :: st | .sanb, o :: st => s.put (tis o x :: st)
  | .bush, o :: st => .next { s with stk := st, tax := .cell x o :: s.tax }
  | .hilb, bus :: st =>
    .of ((hiltFore env s.world s.tax x).map fun (tok, w) ↦
      { s with stk := .atom 0 :: bus :: tok :: st, world := w })
  | .hinb, clu :: bus :: st =>
    .of ((hintFore env s.world s.tax x clu).map fun (tok, w) ↦
      { s with stk := .atom 0 :: bus :: tok :: st, world := w })
  | .mutb, o :: _ :: big :: st | .muts, o :: _ :: big :: st
  | .mitb, o :: _ :: big :: st => s.push (iEdit big x o) st
  | .kutb, o :: bus :: big :: st | .kuts, o :: bus :: big :: st
  | .kitb, o :: bus :: big :: st => s.push (iEdit big x o) (bus :: st)
  | _, _ => .wild

/-- A kick: by a jet, or by the program at the axis. -/
def State.kick (inx : ℕ) (axe cor : Noun) (st : List Noun) (tick : Bool) : Outcome C W :=
  match env.kick s.world ⟨mac.fol s.code, inx⟩ axe cor with
  | none => .crash .bail
  | some (some pro, w) => .next { s with stk := pro :: st, world := w }
  | some (none, w) =>
    match xAt axe cor with
    | .error e => .crash e
    | .ok fol =>
      if tick then State.enter mac { s with world := w } fol (cor :: st) s.fam
      else State.enter mac { s with world := w } fol [cor] (⟨s.code, st⟩ :: s.fam)

/-- A memo: the product that is kept, or its key with the subject. -/
def State.recall (bus : Noun) (mem : Memo) (st : List Noun) : Outcome C W :=
  match env.find s.world (.cell bus mem.key) with
  | some pro => .next { s with code := mac.skip s.code mem.sip, stk := pro :: st }
  | none => s.put (bus :: .cell bus mem.key :: st)

/-- The instruction that was fetched, with the code behind it. -/
def exec (instr : Instr) : Outcome C W :=
  match instr, s.stk with
  | .bare cod, st => bare env mac s cod st
  | .val cod x, st => valued env s cod (.atom x) st
  | .lit cod x, st => valued env s cod x st
  | .skip .sbip sip, st => .next { s with code := mac.skip s.code sip, stk := st }
  | .skip .sbin sip, x :: st =>
    if x = .atom 1 then .next { s with code := mac.skip s.code sip, stk := st }
    else if x = .atom 0 then s.put st
    else .crash .bail
  | .memo .skib _ mem, bus :: st => s.recall env mac bus mem (bus :: st)
  | .memo .slib _ mem, bus :: st => s.recall env mac bus mem st
  | .site .kicb inx axe, cor :: st => s.kick env mac inx axe cor st false
  | .site .ticb inx axe, cor :: st => s.kick env mac inx axe cor st true
  | .rite .bast inx, pro :: bus :: clu :: st =>
    .of ((env.mine s.world ⟨mac.fol s.code, inx⟩ clu pro).map fun w ↦
      { s with stk := pro :: bus :: st, world := w })
  | .rite .balt inx, pro :: _ :: clu :: st =>
    .of ((env.mine s.world ⟨mac.fol s.code, inx⟩ clu pro).map fun w ↦
      { s with stk := pro :: st, world := w })
  | _, _ => .wild

/-- One instruction of `_n_burn()`. -/
def step : Outcome C W :=
  match mac.fetch s.code with
  | none => .wild
  | some (instr, code) => exec env mac { s with code := code } instr

end Step

/-- A place in a program. -/
structure Place where
  fol : Noun
  pog : Prog
  ip : ℕ
  deriving DecidableEq, Repr

/-- The machine on bytes. `_n_find()` keeps the programs that it has compiled, by their formulas. -/
def byteMachine : Machine Place where
  fol := Place.fol
  fetch at' := (at'.pog.fetch at'.ip).map fun (instr, ip) ↦ (instr, { at' with ip := ip })
  skip at' sip := { at' with ip := at'.ip + sip }
  find fol := (bite fol).map fun pog ↦ ⟨fol, pog, 0⟩

/-- `_n_burn()` for a number of steps. -/
def burn {C W : Type} (env : Env W) (mac : Machine C) : ℕ → State C W → Outcome C W
  | 0, s => .next s
  | n + 1, s =>
    match step env mac s with
    | .next s => burn env mac n s
    | out => out

end Vere.Noun.Nock
