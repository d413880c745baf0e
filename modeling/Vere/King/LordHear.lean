import Vere.King.LordPier
import Vere.Lib.Runs

/-!
# What the lord makes of any plea

`pkg/vere/lord.c`: the handlers of pleas, on the nouns that come from the serf. The lord keeps the
writs that it has sent in a list, takes the oldest one off for a plea, and looks at the data of the
plea after that. A plea that it does not like ends in `_lord_bail`, after which the lord is gone.
`_lord_writ_pop` asserts that there is a writ, and the handlers of `%work`, `%peek` and `%play` read
the writ that `_lord_writ_need` did not return. What a handler has understood goes to the pier,
which asserts things of its own.

`onPlea_sound` says that no such fault comes of a plea just when it is `Expected`, and
`court_survives` that then every run answers the writs in the order in which they were sent.
-/

set_option autoImplicit false

namespace Vere.King.LordHear

open Vere.Noun

/-! ### The state -/

/-- `u3_pico_type`. -/
inductive Pico
  | full
  | once
  deriving DecidableEq

/-- `u3_peek`, with the call for the answer. -/
structure Peek where
  typ_e : Pico
  fun_f : Noun → Bool

/-- `u3_writ`. A batch of facts has a first one. -/
inductive Writ
  | work (egg_u : Ovum) (job : Noun)
  | peek (pek_u : Peek)
  | play (ext_u : Fact) (nex_u : List Fact)
  | save
  | cram
  | meld
  | pack
  | exit

/-- `u3_lord`. -/
structure Lord where
  liv_o : Bool
  eve_d : ℕ
  mug_l : ℕ
  hon_y : ℕ
  noc_y : ℕ
  pin_o : Bool
  dep_w : ℕ
  ext_u : List Writ

/-- `u3_lord_init()`. -/
def lordInit : Lord := ⟨false, 0, 0, 0, 0, false, 0, []⟩

/-- What comes of a plea. -/
inductive Outcome
  | next (god_u : Lord)
  /-- The pier has shut down, and has halted the lord. -/
  | quit (god_u : Lord)
  /-- `_lord_bail()`: the lord is gone. -/
  | bail
  | fault (e : Fault)

/-! ### Nouns -/

def mWork : ℕ := Nock.s4 'w' 'o' 'r' 'k'

def mPeek : ℕ := Nock.s4 'p' 'e' 'e' 'k'

def mPlay : ℕ := Nock.s4 'p' 'l' 'a' 'y'

def mLive : ℕ := Nock.s4 'l' 'i' 'v' 'e'

def mSlog : ℕ := Nock.s4 's' 'l' 'o' 'g'

def mFlog : ℕ := Nock.s4 'f' 'l' 'o' 'g'

def mRipe : ℕ := Nock.s4 'r' 'i' 'p' 'e'

def mDone : ℕ := Nock.s4 'd' 'o' 'n' 'e'

def mBail : ℕ := Nock.s4 'b' 'a' 'i' 'l'

def mSwap : ℕ := Nock.s4 's' 'w' 'a' 'p'

def mOmen : ℕ := Nock.s4 'o' 'm' 'e' 'n'

/-- `u3r_trel()`. -/
def rTrel : Noun → Option (Noun × Noun × Noun)
  | .cell a (.cell b c) => some (a, b, c)
  | _ => none

/-- `u3r_safe_byte()`, `u3r_safe_word()` and `u3r_safe_chub()`, by the width. -/
def rSafe (bits : ℕ) : Noun → Option ℕ
  | .atom a => if a < 2 ^ bits then some a else none
  | .cell _ _ => none

/-! ### Hearing -/

section Hear

variable (pir_u : Pier) (god_u : Lord)

/-- What comes of a call to the pier. -/
def heed : Except Fault Heed → Outcome
  | .ok .on => .next god_u
  | .ok .quit => .quit god_u
  | .error e => .fault e

/-- `_lord_plea_foul()`. -/
def pleaFoul : Outcome := .bail

def Writ.isWork : Writ → Bool
  | .work _ _ => true
  | _ => false

/-- `_lord_writ_pop()`, with what is done with the writ. -/
def writPop (next : Writ → Lord → Outcome) : Outcome :=
  match god_u.ext_u with
  | [] => .fault .assertion
  | wit_u :: nex_u => next wit_u { god_u with ext_u := nex_u, dep_w := god_u.dep_w - 1 }

/-- `_lord_plea_live()`. -/
def pleaLive (dat : Noun) : Outcome :=
  writPop god_u fun wit_u god_u ↦
    if dat ≠ nul then pleaFoul
    else
      match wit_u with
      | .save => heed god_u pierOnLordSave
      | .cram => heed god_u (pierOnLordCram pir_u)
      | .meld => .next god_u
      | .pack => .next god_u
      | _ => pleaFoul

/-- `_lord_plea_ripe()`. -/
def pleaRipe (dat : Noun) : Outcome :=
  if god_u.liv_o then .bail
  else
    match rTrel dat with
    | none => pleaFoul
    | some (ver, eve, mug) =>
      match rTrel ver with
      | none => pleaFoul
      | some (pro, hon, noc) =>
        match rSafe 8 pro, rSafe 8 hon, rSafe 8 noc, rSafe 64 eve, rSafe 32 mug with
        | some pro_y, some hon_y, some noc_y, some eve_d, some mug_l =>
          if pro_y ≠ 1 then .bail
          else heed { god_u with
            liv_o := true, eve_d := eve_d, mug_l := mug_l, hon_y := hon_y, noc_y := noc_y }
            (pierOnLordLive pir_u eve_d)
        | _, _, _, _, _ => pleaFoul

/-- `_lord_plea_slog()`. -/
def pleaSlog (dat : Noun) : Outcome :=
  match dat with
  | .atom _ => pleaFoul
  | .cell pri tan =>
    match rSafe 32 pri with
    | some pri_w => heed god_u (pierOnLordSlog pir_u pri_w tan)
    | none => pleaFoul

/-- `_lord_plea_flog()`. -/
def pleaFlog (dat : Noun) : Outcome :=
  match dat with
  | .atom _ => heed god_u (pierFlog pir_u dat)
  | .cell _ _ => pleaFoul

/-- The product of a peek in `_lord_plea_peek_done()`: `[~ %omen beam data]` becomes `[~ data]`. -/
def peekProduct : Noun → Noun
  | .cell a (.cell tag (.cell b dat)) =>
    if tag = .atom mOmen then .cell nul dat else .cell a (.cell tag (.cell b dat))
  | rep => rep

/-- The call of those who asked for a peek. -/
def Peek.call (pek_u : Peek) (rep : Noun) : Except Fault Heed :=
  if pek_u.fun_f rep then .ok .on else .error .exit

/-- `_lord_plea_peek_done()`. -/
def pleaPeekDone (pek_u : Peek) (rep : Noun) : Outcome :=
  if pek_u.typ_e = .once ∧ rep ≠ nul then
    match rep with
    | .atom _ => .fault .exit
    | .cell _ _ => heed god_u (pek_u.call (peekProduct rep))
  else heed god_u (pek_u.call rep)

/-- `_lord_plea_peek_bail()`. -/
def pleaPeekBail (pek_u : Peek) (dud : Noun) : Outcome :=
  heed god_u do
    puntGoof pir_u dud
    pek_u.call nul

/-- `_lord_plea_peek()`. The writ that `_lord_writ_need()` requires is read, whether there is one or
not. -/
def pleaPeek (dat : Noun) : Outcome :=
  writPop god_u fun wit_u god_u ↦
    match wit_u with
    | .peek pek_u =>
      match dat with
      | .atom _ => pleaFoul
      | .cell tag dat =>
        if tag = .atom mDone then pleaPeekDone god_u pek_u dat
        else if tag = .atom mBail then pleaPeekBail pir_u god_u pek_u dat
        else pleaFoul
    | _ => .fault .absent

/-- `_lord_plea_play_bail()`. -/
def pleaPlayBail (ext_u : Fact) (nex_u : List Fact) (dat : Noun) : Outcome :=
  match rTrel dat with
  | none => pleaFoul
  | some (eve, mug, dud) =>
    match rSafe 64 eve, rSafe 32 mug, dud with
    | some eve_d, some mug_l, .cell h t =>
      heed { god_u with eve_d := chubDec eve_d, mug_l := mug_l }
        (pierOnLordPlayBail pir_u (ext_u :: nex_u) eve_d (.cell h t))
    | _, _, _ => pleaFoul

/-- The number of the last fact of a batch. -/
def lastNumber (ext_u : Fact) (nex_u : List Fact) : ℕ := ((ext_u :: nex_u).getLast (by simp)).eve_d

/-- `_lord_plea_play_done()`. -/
def pleaPlayDone (ext_u : Fact) (nex_u : List Fact) (dat : Noun) : Outcome :=
  match rSafe 32 dat with
  | none => pleaFoul
  | some mug_l =>
    heed { god_u with eve_d := lastNumber ext_u nex_u, mug_l := mug_l }
      (pierOnLordPlayDone pir_u (lastNumber ext_u nex_u))

/-- `_lord_plea_play()`. -/
def pleaPlay (dat : Noun) : Outcome :=
  writPop god_u fun wit_u god_u ↦
    match wit_u with
    | .play ext_u nex_u =>
      match dat with
      | .atom _ => pleaFoul
      | .cell tag dat =>
        if tag = .atom mDone then pleaPlayDone pir_u god_u ext_u nex_u dat
        else if tag = .atom mBail then pleaPlayBail pir_u god_u ext_u nex_u dat
        else pleaFoul
    | _ => .fault .absent

/-- `_lord_work_spin()`, with what is done after it. The pier asserts that it is in a state for work
when the spinner stops, and when it starts again. -/
def workSpin (next : Lord → Outcome) : Outcome :=
  if god_u.pin_o = false then .fault .assertion
  else if pir_u.sat_e.spins = false then .fault .assertion
  else next { god_u with pin_o := god_u.ext_u.any Writ.isWork }

/-- `_lord_work_done()`. -/
def workDone (eve_d mug_l : ℕ) (act : Noun) : Outcome :=
  workSpin pir_u { god_u with mug_l := mug_l, eve_d := eve_d } fun god_u ↦
    heed god_u (pierOnLordWorkDone pir_u eve_d act)

/-- `_lord_plea_work_swap()`. On the way out of a foul plea it frees the job, which is set only when
the data has four parts. -/
def pleaWorkSwap (dat : Noun) : Outcome :=
  match rQual dat with
  | none => .fault .unset
  | some (eve, mug, job, act) =>
    match rSafe 64 eve, rSafe 32 mug, job with
    | some eve_d, some mug_l, .cell _ _ => workDone pir_u god_u eve_d mug_l act
    | _, _, _ => pleaFoul

/-- `_lord_plea_work_done()`. -/
def pleaWorkDone (dat : Noun) : Outcome :=
  match rTrel dat with
  | none => pleaFoul
  | some (eve, mug, act) =>
    match rSafe 64 eve, rSafe 32 mug with
    | some eve_d, some mug_l => workDone pir_u god_u eve_d mug_l act
    | _, _ => pleaFoul

/-- `_lord_plea_work_bail()`. -/
def pleaWorkBail (egg_u : Ovum) (lud : Noun) : Outcome :=
  workSpin pir_u god_u fun god_u ↦ heed god_u (pierOnLordWorkBail pir_u egg_u lud)

/-- `_lord_plea_work()`. The job goes into the fact, of which the pier reads the number. -/
def pleaWork (dat : Noun) : Outcome :=
  writPop god_u fun wit_u god_u ↦
    match wit_u with
    | .work egg_u _ =>
      match dat with
      | .atom _ => pleaFoul
      | .cell tag dat =>
        if tag = .atom mDone then pleaWorkDone pir_u god_u dat
        else if tag = .atom mSwap then pleaWorkSwap pir_u god_u dat
        else if tag = .atom mBail then pleaWorkBail pir_u god_u egg_u dat
        else pleaFoul
    | _ => .fault .absent

/-- `_lord_on_plea()`, with none for bytes that are not a noun. -/
def onPlea : Option Noun → Outcome
  | none => pleaFoul
  | some (.atom _) => pleaFoul
  | some (.cell tag dat) =>
    if tag = .atom mWork then pleaWork pir_u god_u dat
    else if tag = .atom mPeek then pleaPeek pir_u god_u dat
    else if tag = .atom mSlog then pleaSlog pir_u god_u dat
    else if tag = .atom mFlog then pleaFlog pir_u god_u dat
    else if tag = .atom mPlay then pleaPlay pir_u god_u dat
    else if tag = .atom mLive then pleaLive pir_u god_u dat
    else if tag = .atom mRipe then pleaRipe pir_u god_u dat
    else pleaFoul

end Hear

/-! ### Sending -/

/-- `_lord_writ_plan()`: the writ is the last of the list, and is sent. -/
def writPlan (god_u : Lord) (wit_u : Writ) : Except Fault Lord :=
  if god_u.ext_u.isEmpty then
    if god_u.dep_w ≠ 0 then .error .assertion
    else .ok { god_u with dep_w := 1, ext_u := [wit_u] }
  else .ok { god_u with dep_w := god_u.dep_w + 1, ext_u := god_u.ext_u ++ [wit_u] }

/-- The calls that send a writ, with the writs that are sent. `u3_lord_work()` starts the spinner
where it does not spin, and `u3_lord_save()` and `u3_lord_cram()` do nothing while a writ is
outstanding. -/
def send (pir_u : Pier) (god_u : Lord) : Writ → Except Fault (Lord × List Writ)
  | .work egg_u job =>
    if god_u.pin_o = false ∧ pir_u.sat_e.spins = false then .error .assertion
    else (writPlan { god_u with pin_o := true } (.work egg_u job)).map fun god_u ↦
      (god_u, [.work egg_u job])
  | .save =>
    if god_u.dep_w ≠ 0 then .ok (god_u, []) else (writPlan god_u .save).map fun god_u ↦ (god_u,
      [.save])
  | .cram =>
    if god_u.dep_w ≠ 0 then .ok (god_u, []) else (writPlan god_u .cram).map fun god_u ↦ (god_u,
      [.cram])
  | wit_u => (writPlan god_u wit_u).map fun god_u ↦ (god_u, [wit_u])

/-! ### Expected pleas -/

/-- The tag of a plea that takes a writ off the list. -/
def Writ.tag : Writ → ℕ
  | .work _ _ => mWork
  | .peek _ => mPeek
  | .play _ _ => mPlay
  | .save | .cram | .meld | .pack | .exit => mLive

/-- The product of a peek as those who asked for it get it. -/
def Peek.answer (pek_u : Peek) (rep : Noun) : Noun :=
  if pek_u.typ_e = .once then peekProduct rep else rep

/-- The data of an answer to `%work`: an event that is done is the next of the log, a `%swap` has
four parts, and the report of a failure can be taken. -/
structure Pier.TakesWork (pir_u : Pier) (egg_u : Ovum) (dat : Noun) : Prop where
  done : ∀ pro eve mug act eve_d mug_l, dat = .cell (.atom mDone) pro →
    rTrel pro = some (eve, mug, act) →
    rSafe 64 eve = some eve_d → rSafe 32 mug = some mug_l → pir_u.Plans eve_d act
  swap : ∀ pro, dat = .cell (.atom mSwap) pro → ∃ eve mug job act, rQual pro =
    some (eve, mug, job, act) ∧
    ∀ eve_d mug_l h t, rSafe 64 eve = some eve_d → rSafe 32 mug = some mug_l → job = .cell h t →
      pir_u.Plans eve_d act
  bail : ∀ lud, dat = .cell (.atom mBail) lud → pir_u.Fails egg_u lud

/-- The data of an answer to `%peek`: that of a `%once` is `~` or a cell, and the crash report can
be printed. -/
structure Pier.TakesPeek (pir_u : Pier) (pek_u : Peek) (dat : Noun) : Prop where
  done : ∀ rep, dat = .cell (.atom mDone) rep →
    (pek_u.typ_e = .once → rep ≠ nul → ∃ h t, rep = .cell h t) ∧
    pek_u.fun_f (pek_u.answer rep) = true
  bail : ∀ dud, dat = .cell (.atom mBail) dud → pir_u.Goof dud ∧ pek_u.fun_f nul = true

/-- The data of an answer to `%play`: the batch does not go past the replay, and fails at one of its
events. -/
structure Pier.TakesPlay (pir_u : Pier) (ext_u : Fact) (nex_u : List Fact) (dat : Noun) : Prop where
  done : ∀ pro mug_l, dat = .cell (.atom mDone) pro → rSafe 32 pro = some mug_l →
    pir_u.Replays (lastNumber ext_u nex_u)
  bail : ∀ pro eve mug h t eve_d mug_l, dat = .cell (.atom mBail) pro →
    rTrel pro = some (eve, mug, .cell h t) →
    rSafe 64 eve = some eve_d → rSafe 32 mug = some mug_l →
    pir_u.Breaks (ext_u :: nex_u) eve_d (.cell h t)

/-- The data that can be looked at for a writ. -/
def Pier.Takes (pir_u : Pier) : Writ → Noun → Prop
  | .work egg_u _, dat => pir_u.TakesWork egg_u dat
  | .peek pek_u, dat => pir_u.TakesPeek pek_u dat
  | .play ext_u nex_u, dat => pir_u.TakesPlay ext_u nex_u dat
  | _, _ => True

/-- The data of a `%ripe`, if the lord takes it for one. -/
def Pier.TakesRipe (pir_u : Pier) (god_u : Lord) (dat : Noun) : Prop :=
  ∀ ver eve mug pro hon noc hon_y noc_y eve_d mug_l, god_u.liv_o = false →
    rTrel dat = some (ver, eve, mug) →
    rTrel ver = some (pro, hon, noc) → rSafe 8 pro = some 1 → rSafe 8 hon = some hon_y →
    rSafe 8 noc = some noc_y →
    rSafe 64 eve = some eve_d → rSafe 32 mug = some mug_l → pir_u.Starts eve_d

/-- A plea with the tag of a writ comes when a writ is outstanding; a `%work`, `%peek` or `%play`
when the oldest one is of its kind; its data is such that the handlers can look at it; and the pier
can start from a `%ripe`. -/
def Expected (pir_u : Pier) (god_u : Lord) : Option Noun → Prop
  | some (.cell (.atom tag) dat) =>
    (tag ∈ [mWork, mPeek, mPlay, mLive] → ∃ wit_u nex_u, god_u.ext_u = wit_u :: nex_u ∧
      (tag = mLive ∨ wit_u.tag = tag) ∧ (wit_u.tag = tag → pir_u.Takes wit_u dat)) ∧
    (tag = mRipe → pir_u.TakesRipe god_u dat) ∧
    (tag = mSlog → ∀ pri tan pri_w, dat = .cell pri tan → rSafe 32 pri = some pri_w →
      pir_u.sog_f pri_w tan = true ∧ pierTank pir_u tan = true) ∧
    (tag = mFlog → ∀ a, dat = .atom a → pir_u.sog_f 0 dat = true)
  | _ => True

/-- The count of outstanding writs and the spinner are right. -/
structure Lord.Wf (god_u : Lord) : Prop where
  dep : god_u.dep_w = god_u.ext_u.length
  pin : god_u.pin_o = god_u.ext_u.any Writ.isWork

/-- The lord after a plea that was heard: the oldest writ is answered by a plea with its tag, or a
plea without a writ is heard. -/
def Answers (god_u : Lord) (jar : Option Noun) (god_u' : Lord) : Prop :=
  ∃ tag dat, jar = some (.cell (.atom tag) dat) ∧ god_u'.Wf ∧
    if tag ∈ [mWork, mPeek, mPlay, mLive] then ∃ wit_u, god_u.ext_u = wit_u :: god_u'.ext_u ∧
    wit_u.tag = tag
    else god_u'.ext_u = god_u.ext_u

/-- What is heard is an answer. -/
def Matched (god_u : Lord) (jar : Option Noun) : Outcome → Prop
  | .next god_u' | .quit god_u' => Answers god_u jar god_u'
  | _ => True

def Outcome.Sound : Outcome → Prop
  | .fault _ => False
  | _ => True

variable {jar : Option Noun}

section Step

variable {pir_u : Pier} {god_u god_u' : Lord} {wit_u : Writ} {nex_u : List Writ} {dat : Noun}
  {tag : ℕ}

theorem heed_sound {res : Except Fault Heed} : (heed god_u res).Sound ↔ ∃ out, res = .ok out := by
  cases res with
  | error e => exact ⟨False.elim, nofun⟩
  | ok out =>
    cases out with
    | on => exact ⟨fun _ ↦ ⟨_, rfl⟩, fun _ ↦ trivial⟩
    | quit => exact ⟨fun _ ↦ ⟨_, rfl⟩, fun _ ↦ trivial⟩

theorem heed_matched (hanswers : Answers god_u jar god_u') (res : Except Fault Heed) :
    Matched god_u jar (heed god_u' res) := by
  cases res with
  | error e => trivial
  | ok out =>
    cases out with
    | on => exact hanswers
    | quit => exact hanswers

theorem tag_isWork (htag : wit_u.tag ≠ mWork) : wit_u.isWork = false := by
  cases wit_u with
  | work egg_u job => exact absurd rfl htag
  | _ => rfl

/-- The lord without its oldest writ, which was not work. -/
theorem Lord.Wf.pop (hwf : god_u.Wf) (hext : god_u.ext_u = wit_u :: nex_u)
    (htag : wit_u.tag ≠ mWork) :
    Lord.Wf { god_u with ext_u := nex_u, dep_w := god_u.dep_w - 1 } where
  dep := by
    show god_u.dep_w - 1 = nex_u.length
    rw [hwf.dep, hext, List.length_cons]
    omega
  pin := by
    show god_u.pin_o = nex_u.any Writ.isWork
    rw [hwf.pin, hext, List.any_cons, tag_isWork htag, Bool.false_or]

/-- The lord without its oldest writ, after the spinner. -/
theorem Lord.Wf.spin (hwf : god_u.Wf) (hext : god_u.ext_u = wit_u :: nex_u) (eve_d mug_l : ℕ) :
    Lord.Wf { god_u with
      ext_u := nex_u, dep_w := god_u.dep_w - 1, eve_d := eve_d, mug_l := mug_l,
      pin_o := nex_u.any Writ.isWork } where
  dep := by
    show god_u.dep_w - 1 = nex_u.length
    rw [hwf.dep, hext, List.length_cons]
    omega
  pin := rfl

/-- A writ is answered by a plea with its tag. -/
theorem answers_writ (hext : god_u.ext_u = wit_u :: nex_u) (hwf : god_u'.Wf)
    (hnex : god_u'.ext_u = nex_u) :
    Answers god_u (some (.cell (.atom wit_u.tag) dat)) god_u' := by
  refine ⟨wit_u.tag, dat, rfl, hwf, ?_⟩
  have hmem : wit_u.tag ∈ [mWork, mPeek, mPlay, mLive] := by
    cases wit_u <;> dsimp only [Writ.tag] <;> decide
  rw [if_pos hmem, hnex]
  exact ⟨wit_u, hext, rfl⟩

/-- A plea without a writ. -/
theorem answers_info (hwf : god_u'.Wf) (htag : tag ∉ [mWork, mPeek, mPlay, mLive])
    (hext : god_u'.ext_u = god_u.ext_u) : Answers god_u (some (.cell (.atom tag) dat)) god_u' :=
  ⟨tag, dat, rfl, hwf, by rw [if_neg htag]; exact hext⟩

theorem writPop_cons (hext : god_u.ext_u = wit_u :: nex_u) (next : Writ → Lord → Outcome) :
    writPop god_u next = next wit_u { god_u with ext_u := nex_u, dep_w := god_u.dep_w - 1 } := by
  unfold writPop
  rw [hext]

theorem writPop_nil (hext : god_u.ext_u = []) (next : Writ → Lord → Outcome) :
    writPop god_u next = .fault .assertion := by
  unfold writPop
  rw [hext]

/-! #### `%live` -/

theorem pleaLive_matched (hwf : god_u.Wf) :
    Matched god_u (some (.cell (.atom mLive) dat)) (pleaLive pir_u god_u dat) := by
  unfold pleaLive
  cases hext : god_u.ext_u with
  | nil =>
    rw [writPop_nil hext]
    trivial
  | cons wit_u nex_u =>
    rw [writPop_cons hext]
    split_ifs with hdat
    · trivial
    · cases wit_u with
      | save => exact heed_matched (answers_writ hext (hwf.pop hext (by decide)) rfl) _
      | cram => exact heed_matched (answers_writ hext (hwf.pop hext (by decide)) rfl) _
      | meld => exact answers_writ hext (hwf.pop hext (by decide)) rfl
      | pack => exact answers_writ hext (hwf.pop hext (by decide)) rfl
      | _ => trivial

theorem pleaLive_sound : (pleaLive pir_u god_u dat).Sound ↔ god_u.ext_u ≠ [] := by
  unfold pleaLive
  cases hext : god_u.ext_u with
  | nil =>
    rw [writPop_nil hext]
    exact ⟨False.elim, fun h ↦ absurd rfl h⟩
  | cons wit_u nex_u =>
    rw [writPop_cons hext]
    refine ⟨fun _ ↦ List.cons_ne_nil _ _, fun _ ↦ ?_⟩
    split_ifs with hdat
    · trivial
    · cases wit_u with
      | save => exact heed_sound.mpr ⟨.on, rfl⟩
      | cram => exact heed_sound.mpr pierOnLordCram_ok
      | _ => trivial

/-! #### `%peek` -/

section Peek

variable {pek_u : Peek} (hext : god_u.ext_u = .peek pek_u :: nex_u)
include hext

theorem pleaPeek_matched (hwf : god_u.Wf) :
    Matched god_u (some (.cell (.atom mPeek) dat)) (pleaPeek pir_u god_u dat) := by
  have hanswers := fun dat ↦ @answers_writ god_u _ _ nex_u dat hext
    (hwf.pop hext (by dsimp only [Writ.tag]; decide)) rfl
  unfold pleaPeek
  rw [writPop_cons hext]
  cases dat with
  | atom a => trivial
  | cell tag dat =>
    dsimp only
    split_ifs
    · unfold pleaPeekDone
      split_ifs
      · split
        · trivial
        · exact heed_matched (hanswers _) _
      · exact heed_matched (hanswers _) _
    · exact heed_matched (hanswers _) _
    · trivial

omit hext in
theorem call_iff {rep : Noun} : (∃ out, pek_u.call rep = .ok out) ↔ pek_u.fun_f rep = true := by
  unfold Peek.call
  split_ifs with hfun
  · exact ⟨fun _ ↦ hfun, fun _ ↦ ⟨.on, rfl⟩⟩
  · exact ⟨nofun, fun h ↦ absurd h hfun⟩

omit hext in
theorem pleaPeekDone_sound {rep : Noun} : (pleaPeekDone god_u pek_u rep).Sound ↔
    (pek_u.typ_e = .once → rep ≠ nul → ∃ h t, rep = .cell h t) ∧ pek_u.fun_f (pek_u.answer rep) =
      true := by
  unfold pleaPeekDone Peek.answer
  by_cases honce : pek_u.typ_e = .once
  · rw [if_pos honce]
    cases rep with
    | atom a =>
      by_cases ha : Noun.atom a = nul
      · rw [if_neg (fun h ↦ h.2 ha), heed_sound, call_iff]
        exact ⟨fun h ↦ ⟨fun _ hne ↦ absurd ha hne, h⟩, fun h ↦ h.2⟩
      · rw [if_pos ⟨honce, ha⟩]
        refine ⟨False.elim, fun h ↦ ?_⟩
        obtain ⟨_, _, hcell⟩ := h.1 honce ha
        cases hcell
    | cell h t =>
      rw [if_pos ⟨honce, by simp [nul]⟩]
      dsimp only
      rw [heed_sound, call_iff]
      exact ⟨fun hfun ↦ ⟨fun _ _ ↦ ⟨h, t, rfl⟩, hfun⟩, fun hboth ↦ hboth.2⟩
  · rw [if_neg honce, if_neg (fun h ↦ honce h.1), heed_sound, call_iff]
    exact ⟨fun h ↦ ⟨fun hone ↦ absurd hone honce, h⟩, fun h ↦ h.2⟩

omit hext in
theorem pleaPeekBail_sound {dud : Noun} :
    (pleaPeekBail pir_u god_u pek_u dud).Sound ↔ pir_u.Goof dud ∧ pek_u.fun_f nul = true := by
  unfold pleaPeekBail
  rw [heed_sound, ← puntGoof_iff, ← call_iff]
  constructor
  · rintro ⟨out, hok⟩
    exact ⟨(ok_bind_iff.mp hok).1, out, (ok_bind_iff.mp hok).2⟩
  · rintro ⟨hgoof, out, hcall⟩
    exact ⟨out, ok_bind_iff.mpr ⟨hgoof, hcall⟩⟩

theorem pleaPeek_sound : (pleaPeek pir_u god_u dat).Sound ↔ pir_u.TakesPeek pek_u dat := by
  unfold pleaPeek
  rw [writPop_cons hext]
  cases dat with
  | atom a => exact ⟨fun _ ↦ ⟨nofun, nofun⟩, fun _ ↦ trivial⟩
  | cell tag dat =>
    dsimp only
    split_ifs with hdone hbail
    · subst hdone
      rw [pleaPeekDone_sound]
      constructor
      · intro h
        refine ⟨?_, ?_⟩
        · rintro _ ⟨⟩
          exact h
        · rintro _ ⟨⟩
      · intro h
        exact h.done dat rfl
    · subst hbail
      rw [pleaPeekBail_sound]
      constructor
      · intro h
        refine ⟨?_, ?_⟩
        · rintro _ ⟨⟩
        · rintro _ ⟨⟩
          exact h
      · intro h
        exact h.bail dat rfl
    · refine ⟨fun _ ↦ ⟨?_, ?_⟩, fun _ ↦ trivial⟩
      · rintro _ ⟨⟩
        exact absurd rfl hdone
      · rintro _ ⟨⟩
        exact absurd rfl hbail

end Peek

/-! #### `%play` -/

variable {pro : Noun}

section Play

variable {ext_u : Fact} {more_u : List Fact} (hext : god_u.ext_u = .play ext_u more_u :: nex_u)
include hext

theorem pleaPlay_matched (hwf : god_u.Wf) :
    Matched god_u (some (.cell (.atom mPlay) dat)) (pleaPlay pir_u god_u dat) := by
  have hpop := hwf.pop hext (by dsimp only [Writ.tag]; decide)
  unfold pleaPlay
  rw [writPop_cons hext]
  cases dat with
  | atom a => trivial
  | cell tag dat =>
    dsimp only
    split_ifs
    · unfold pleaPlayDone
      split
      · trivial
      · refine heed_matched (answers_writ hext ?_ rfl) _
        exact ⟨hpop.dep, hpop.pin⟩
    · unfold pleaPlayBail
      split
      · trivial
      · split
        · refine heed_matched (answers_writ hext ?_ rfl) _
          exact ⟨hpop.dep, hpop.pin⟩
        · trivial
    · trivial

omit hext in
theorem pleaPlayDone_sound : (pleaPlayDone pir_u god_u ext_u more_u pro).Sound ↔
    ∀ mug_l, rSafe 32 pro = some mug_l → pir_u.Replays (lastNumber ext_u more_u) := by
  unfold pleaPlayDone
  cases hmug : rSafe 32 pro with
  | none => exact ⟨fun _ ↦ nofun, fun _ ↦ trivial⟩
  | some mug_l =>
    dsimp only
    rw [heed_sound, pierOnLordPlayDone_iff]
    exact ⟨fun h _ _ ↦ h, fun h ↦ h mug_l rfl⟩

omit hext in
theorem pleaPlayBail_sound : (pleaPlayBail pir_u god_u ext_u more_u pro).Sound ↔
    ∀ eve mug h t eve_d mug_l, rTrel pro = some (eve, mug, .cell h t) → rSafe 64 eve = some eve_d →
      rSafe 32 mug = some mug_l → pir_u.Breaks (ext_u :: more_u) eve_d (.cell h t) := by
  unfold pleaPlayBail
  cases htrel : rTrel pro with
  | none => exact ⟨fun _ ↦ nofun, fun _ ↦ trivial⟩
  | some trel =>
    obtain ⟨eve, mug, dud⟩ := trel
    dsimp only
    split
    · next eve_d mug_l h t heve hmug =>
      rw [heed_sound, pierOnLordPlayBail_iff]
      constructor
      · rintro hbreaks _ _ _ _ _ _ ⟨⟩ heve' hmug'
        rw [heve] at heve'
        cases heve'
        exact hbreaks
      · intro hall
        exact hall eve mug h t eve_d mug_l rfl heve hmug
    · next hother =>
      refine ⟨?_, fun _ ↦ trivial⟩
      rintro - _ _ h t eve_d mug_l ⟨⟩ heve hmug
      exact absurd rfl (hother eve_d mug_l h t heve hmug)

theorem pleaPlay_sound : (pleaPlay pir_u god_u dat).Sound ↔ pir_u.TakesPlay ext_u more_u dat := by
  unfold pleaPlay
  rw [writPop_cons hext]
  cases dat with
  | atom a => exact ⟨fun _ ↦ ⟨nofun, nofun⟩, fun _ ↦ trivial⟩
  | cell tag dat =>
    dsimp only
    split_ifs with hdone hbail
    · subst hdone
      rw [pleaPlayDone_sound]
      constructor
      · intro h
        refine ⟨?_, ?_⟩
        · rintro _ mug_l ⟨⟩
          exact h mug_l
        · rintro _ _ _ _ _ _ _ ⟨⟩
      · intro h mug_l
        exact h.done dat mug_l rfl
    · subst hbail
      rw [pleaPlayBail_sound]
      constructor
      · intro h
        refine ⟨?_, ?_⟩
        · rintro _ _ ⟨⟩
        · rintro _ _ _ _ _ _ _ ⟨⟩
          exact h _ _ _ _ _ _
      · intro h eve mug hed tel eve_d mug_l
        exact h.bail dat eve mug hed tel eve_d mug_l rfl
    · refine ⟨fun _ ↦ ⟨?_, ?_⟩, fun _ ↦ trivial⟩
      · rintro _ _ ⟨⟩
        exact absurd rfl hdone
      · rintro _ _ _ _ _ _ _ ⟨⟩
        exact absurd rfl hbail

end Play

/-! #### `%work` -/

section Work

variable {egg_u : Ovum} {job : Noun} (hwf : god_u.Wf)
  (hext : god_u.ext_u = .work egg_u job :: nex_u)

theorem Pier.Plans.spins {eve_d : ℕ} {act : Noun} (hplans : pir_u.Plans eve_d act) :
    pir_u.sat_e.spins = true := by
  unfold Pier.Plans at hplans
  cases hsat : pir_u.sat_e with
  | wyrd => rfl
  | work wok_u => rfl
  | done rest => rfl
  | _ =>
    rw [hsat] at hplans
    exact hplans.elim

theorem Pier.Fails.spins {lud : Noun} (hfails : pir_u.Fails egg_u lud) :
    pir_u.sat_e.spins = true := by
  unfold Pier.Fails at hfails
  cases hsat : pir_u.sat_e with
  | wyrd => rfl
  | work wok_u => rfl
  | done rest => rfl
  | _ =>
    rw [hsat] at hfails
    exact hfails.elim

include hwf hext

/-- With the oldest writ the spinner spins, and only the pier can object. -/
theorem workSpin_eq (eve_d mug_l : ℕ) (next : Lord → Outcome) :
    workSpin pir_u { god_u with
        ext_u := nex_u, dep_w := god_u.dep_w - 1, eve_d := eve_d, mug_l := mug_l } next =
      if pir_u.sat_e.spins = false then .fault .assertion
      else next { god_u with
        ext_u := nex_u, dep_w := god_u.dep_w - 1, eve_d := eve_d, mug_l := mug_l,
        pin_o := nex_u.any Writ.isWork } := by
  have hpin : god_u.pin_o = true := by
    rw [hwf.pin, hext]
    rfl
  unfold workSpin
  rw [if_neg (by rw [hpin]; decide)]

theorem workSpin_matched (eve_d mug_l : ℕ) (res : Except Fault Heed) :
    Matched god_u (some (.cell (.atom mWork) dat))
      (workSpin pir_u { god_u with
          ext_u := nex_u, dep_w := god_u.dep_w - 1, eve_d := eve_d, mug_l := mug_l }
        fun god_u ↦ heed god_u res) := by
  rw [workSpin_eq hwf hext]
  split_ifs
  · trivial
  · exact heed_matched (answers_writ hext (hwf.spin hext eve_d mug_l) rfl) _

theorem workSpin_sound {res : Except Fault Heed} {cond : Prop}
    (hres : (∃ out, res = .ok out) ↔ cond) (hspins : cond → pir_u.sat_e.spins = true)
    (eve_d mug_l : ℕ) :
    (workSpin pir_u { god_u with
        ext_u := nex_u, dep_w := god_u.dep_w - 1, eve_d := eve_d, mug_l := mug_l }
      fun god_u ↦ heed god_u res).Sound ↔ cond := by
  rw [workSpin_eq hwf hext]
  split_ifs with hstill
  · exact ⟨False.elim, fun h ↦ by rw [hspins h] at hstill; cases hstill⟩
  · rw [heed_sound, hres]

theorem pleaWork_matched :
    Matched god_u (some (.cell (.atom mWork) dat)) (pleaWork pir_u god_u dat) := by
  unfold pleaWork
  rw [writPop_cons hext]
  cases dat with
  | atom a => trivial
  | cell tag dat =>
    dsimp only
    split_ifs
    · unfold pleaWorkDone
      split
      · trivial
      · split
        · exact workSpin_matched hwf hext _ _ _
        · trivial
    · unfold pleaWorkSwap
      split
      · trivial
      · split
        · exact workSpin_matched hwf hext _ _ _
        · trivial
    · exact workSpin_matched hwf hext god_u.eve_d god_u.mug_l _
    · trivial

theorem pleaWorkDone_sound :
    (pleaWorkDone pir_u { god_u with ext_u := nex_u, dep_w := god_u.dep_w - 1 } pro).Sound ↔
      ∀ eve mug act eve_d mug_l, rTrel pro = some (eve, mug, act) → rSafe 64 eve = some eve_d →
        rSafe 32 mug = some mug_l → pir_u.Plans eve_d act := by
  unfold pleaWorkDone
  cases htrel : rTrel pro with
  | none => exact ⟨fun _ ↦ nofun, fun _ ↦ trivial⟩
  | some trel =>
    obtain ⟨eve, mug, act⟩ := trel
    dsimp only
    split
    · next eve_d mug_l heve hmug =>
      unfold workDone
      rw [workSpin_sound hwf hext pierOnLordWorkDone_iff Pier.Plans.spins]
      constructor
      · rintro hplans _ _ _ _ _ ⟨⟩ heve' hmug'
        rw [heve] at heve'
        cases heve'
        exact hplans
      · intro hall
        exact hall eve mug act eve_d mug_l rfl heve hmug
    · next hother =>
      refine ⟨?_, fun _ ↦ trivial⟩
      rintro - _ _ _ eve_d mug_l ⟨⟩ heve hmug
      exact absurd hmug (hother eve_d mug_l heve)

theorem pleaWorkSwap_sound :
    (pleaWorkSwap pir_u { god_u with ext_u := nex_u, dep_w := god_u.dep_w - 1 } pro).Sound ↔
      ∃ eve mug job act, rQual pro = some (eve, mug, job, act) ∧
        ∀ eve_d mug_l h t, rSafe 64 eve = some eve_d → rSafe 32 mug = some mug_l → job = .cell h t →
          pir_u.Plans eve_d act := by
  unfold pleaWorkSwap
  cases hqual : rQual pro with
  | none => exact ⟨False.elim, nofun⟩
  | some qual =>
    obtain ⟨eve, mug, job, act⟩ := qual
    dsimp only
    split
    · next eve_d mug_l h t heve hmug =>
      unfold workDone
      rw [workSpin_sound hwf hext pierOnLordWorkDone_iff Pier.Plans.spins]
      constructor
      · intro hplans
        refine ⟨eve, mug, .cell h t, act, rfl, ?_⟩
        intro eve_d' mug_l' h' t' heve' hmug' hjob
        rw [heve] at heve'
        cases heve'
        exact hplans
      · rintro ⟨_, _, _, _, ⟨⟩, hall⟩
        exact hall eve_d mug_l h t heve hmug rfl
    · next hother =>
      refine ⟨fun _ ↦ ⟨_, _, _, _, rfl, ?_⟩, fun _ ↦ trivial⟩
      intro eve_d mug_l h t heve hmug hjob
      exact absurd hjob (hother eve_d mug_l h t heve hmug)

theorem pleaWork_sound : (pleaWork pir_u god_u dat).Sound ↔ pir_u.TakesWork egg_u dat := by
  unfold pleaWork
  rw [writPop_cons hext]
  cases dat with
  | atom a => exact ⟨fun _ ↦ ⟨nofun, nofun, nofun⟩, fun _ ↦ trivial⟩
  | cell tag dat =>
    dsimp only
    split_ifs with hdone hswap hbail
    · subst hdone
      rw [pleaWorkDone_sound hwf hext]
      constructor
      · intro h
        refine ⟨?_, ?_, ?_⟩
        · rintro _ _ _ _ _ _ ⟨⟩
          exact h _ _ _ _ _
        · rintro _ ⟨⟩
        · rintro _ ⟨⟩
      · intro h eve mug act eve_d mug_l
        exact h.done dat eve mug act eve_d mug_l rfl
    · subst hswap
      rw [pleaWorkSwap_sound hwf hext]
      constructor
      · intro h
        refine ⟨?_, ?_, ?_⟩
        · rintro _ _ _ _ _ _ ⟨⟩
        · rintro _ ⟨⟩
          exact h
        · rintro _ ⟨⟩
      · intro h
        exact h.swap dat rfl
    · subst hbail
      unfold pleaWorkBail
      rw [workSpin_sound hwf hext pierOnLordWorkBail_iff Pier.Fails.spins god_u.eve_d god_u.mug_l]
      constructor
      · intro h
        refine ⟨?_, ?_, ?_⟩
        · rintro _ _ _ _ _ _ ⟨⟩
        · rintro _ ⟨⟩
        · rintro _ ⟨⟩
          exact h
      · intro h
        exact h.bail dat rfl
    · refine ⟨fun _ ↦ ⟨?_, ?_, ?_⟩, fun _ ↦ trivial⟩
      · rintro _ _ _ _ _ _ ⟨⟩
        exact absurd rfl hdone
      · rintro _ ⟨⟩
        exact absurd rfl hswap
      · rintro _ ⟨⟩
        exact absurd rfl hbail

end Work

/-! #### Pleas without a writ -/

theorem pleaRipe_matched (hwf : god_u.Wf) :
    Matched god_u (some (.cell (.atom mRipe) dat)) (pleaRipe pir_u god_u dat) := by
  unfold pleaRipe
  split_ifs
  · trivial
  · split
    · trivial
    · split
      · trivial
      · split
        · split_ifs
          · trivial
          · refine heed_matched (answers_info ?_ (by decide) rfl) _
            exact ⟨hwf.dep, hwf.pin⟩
        · trivial

theorem pleaRipe_sound : (pleaRipe pir_u god_u dat).Sound ↔ pir_u.TakesRipe god_u dat := by
  unfold pleaRipe Pier.TakesRipe
  split_ifs with hliv
  · refine ⟨fun _ ↦ ?_, fun _ ↦ trivial⟩
    rintro _ _ _ _ _ _ _ _ _ _ hdead
    rw [hliv] at hdead
    cases hdead
  cases htrel : rTrel dat with
  | none => exact ⟨fun _ ↦ by rintro _ _ _ _ _ _ _ _ _ _ - ⟨⟩, fun _ ↦ trivial⟩
  | some trel =>
    obtain ⟨ver, eve, mug⟩ := trel
    dsimp only
    cases hver : rTrel ver with
    | none =>
      refine ⟨fun _ ↦ ?_, fun _ ↦ trivial⟩
      rintro _ _ _ _ _ _ _ _ _ _ - ⟨⟩ hver'
      rw [hver] at hver'
      cases hver'
    | some vers =>
      obtain ⟨pro, hon, noc⟩ := vers
      dsimp only
      split
      · next pro_y hon_y noc_y eve_d mug_l hpro hhon hnoc heve hmug =>
        split_ifs with hone
        · refine ⟨fun _ ↦ ?_, fun _ ↦ trivial⟩
          rintro _ _ _ _ _ _ _ _ _ _ - ⟨⟩ hver' hpro'
          rw [hver] at hver'
          cases hver'
          rw [hpro] at hpro'
          cases hpro'
          exact absurd rfl hone
        · rw [heed_sound, pierOnLordLive_iff]
          constructor
          · rintro hstarts _ _ _ _ _ _ _ _ _ _ - ⟨⟩ - - - - heve' -
            rw [heve] at heve'
            cases heve'
            exact hstarts
          · intro hall
            exact hall ver eve mug pro hon noc hon_y noc_y eve_d mug_l
              (by simpa using hliv) rfl hver
              (by rw [hpro, not_not.mp hone]) hhon hnoc heve hmug
      · next hother =>
        refine ⟨fun _ ↦ ?_, fun _ ↦ trivial⟩
        rintro _ _ _ _ _ _ hon_y noc_y eve_d mug_l - ⟨⟩ hver' hpro hhon hnoc heve hmug
        rw [hver] at hver'
        cases hver'
        exact absurd hmug (hother 1 hon_y noc_y eve_d mug_l hpro hhon hnoc heve)

theorem pleaSlog_matched (hwf : god_u.Wf) :
    Matched god_u (some (.cell (.atom mSlog) dat)) (pleaSlog pir_u god_u dat) := by
  unfold pleaSlog
  split
  · trivial
  · split
    · refine heed_matched (answers_info hwf ?_ rfl) _
      decide
    · trivial

theorem pleaSlog_sound : (pleaSlog pir_u god_u dat).Sound ↔
    ∀ pri tan pri_w, dat = .cell pri tan → rSafe 32 pri = some pri_w →
      pir_u.sog_f pri_w tan = true ∧ pierTank pir_u tan = true := by
  unfold pleaSlog
  cases dat with
  | atom a => exact ⟨fun _ ↦ nofun, fun _ ↦ trivial⟩
  | cell pri tan =>
    dsimp only
    cases hpri : rSafe 32 pri with
    | none =>
      refine ⟨fun _ ↦ ?_, fun _ ↦ trivial⟩
      rintro _ _ _ ⟨⟩ hpri'
      rw [hpri] at hpri'
      cases hpri'
    | some pri_w =>
      dsimp only
      unfold pierOnLordSlog
      rw [heed_sound]
      constructor
      · rintro ⟨out, hok⟩ _ _ _ ⟨⟩ hpri'
        rw [hpri] at hpri'
        cases hpri'
        split_ifs at hok with hboth
        exact Bool.and_eq_true_iff.mp hboth
      · intro hall
        exact ⟨.on, if_pos (Bool.and_eq_true_iff.mpr (hall pri tan pri_w rfl hpri))⟩

theorem pleaFlog_matched (hwf : god_u.Wf) :
    Matched god_u (some (.cell (.atom mFlog) dat)) (pleaFlog pir_u god_u dat) := by
  unfold pleaFlog
  split
  · refine heed_matched (answers_info hwf ?_ rfl) _
    decide
  · trivial

theorem pleaFlog_sound :
    (pleaFlog pir_u god_u dat).Sound ↔ ∀ a, dat = .atom a → pir_u.sog_f 0 dat = true := by
  unfold pleaFlog
  cases dat with
  | cell h t => exact ⟨fun _ ↦ nofun, fun _ ↦ trivial⟩
  | atom a =>
    dsimp only
    unfold pierFlog
    rw [heed_sound]
    constructor
    · rintro ⟨out, hok⟩ _ -
      split_ifs at hok with hsog
      exact hsog
    · intro hall
      exact ⟨.on, if_pos (hall a rfl)⟩

/-! #### All pleas -/

/-- What is heard answers the oldest writ, or none. -/
theorem onPlea_matched {jar : Option Noun} (hwf : god_u.Wf) :
    Matched god_u jar (onPlea pir_u god_u jar) := by
  unfold onPlea
  split
  · trivial
  · trivial
  · next tag dat =>
    split_ifs with hwork hpeek hslog hflog hplay hlive hripe
    · subst hwork
      cases hext : god_u.ext_u with
      | nil =>
        rw [pleaWork, writPop_nil hext]
        trivial
      | cons wit_u nex_u =>
        cases wit_u with
        | work egg_u job => exact pleaWork_matched hwf hext
        | _ =>
          rw [pleaWork, writPop_cons hext]
          trivial
    · subst hpeek
      cases hext : god_u.ext_u with
      | nil =>
        rw [pleaPeek, writPop_nil hext]
        trivial
      | cons wit_u nex_u =>
        cases wit_u with
        | peek pek_u => exact pleaPeek_matched hext hwf
        | _ =>
          rw [pleaPeek, writPop_cons hext]
          trivial
    · subst hslog
      exact pleaSlog_matched hwf
    · subst hflog
      exact pleaFlog_matched hwf
    · subst hplay
      cases hext : god_u.ext_u with
      | nil =>
        rw [pleaPlay, writPop_nil hext]
        trivial
      | cons wit_u nex_u =>
        cases wit_u with
        | play ext_u more_u => exact pleaPlay_matched hext hwf
        | _ =>
          rw [pleaPlay, writPop_cons hext]
          trivial
    · subst hlive
      exact pleaLive_matched hwf
    · subst hripe
      exact pleaRipe_matched hwf
    · trivial

/-- A handler of an answer, for whatever the oldest writ is: it is sound just when the writ is of
its kind and takes the data. -/
theorem writ_sound {out : Outcome} (htag : tag ≠ mLive)
    (hnil : god_u.ext_u = [] → ¬out.Sound)
    (hsame : ∀ wit_u nex_u, god_u.ext_u = wit_u :: nex_u → wit_u.tag = tag →
    (out.Sound ↔ pir_u.Takes wit_u dat)) (hother : ∀ wit_u nex_u, god_u.ext_u = wit_u :: nex_u →
    wit_u.tag ≠ tag → ¬out.Sound) :
    out.Sound ↔ ∃ wit_u nex_u, god_u.ext_u = wit_u :: nex_u ∧ (tag = mLive ∨ wit_u.tag = tag) ∧
      (wit_u.tag = tag → pir_u.Takes wit_u dat) := by
  constructor
  · intro hsound
    cases hext : god_u.ext_u with
    | nil => exact absurd hsound (hnil hext)
    | cons wit_u nex_u =>
      by_cases hkind : wit_u.tag = tag
      · exact ⟨wit_u, nex_u, rfl, Or.inr hkind, fun _ ↦ (hsame wit_u nex_u hext hkind).mp hsound⟩
      · exact absurd hsound (hother wit_u nex_u hext hkind)
  · rintro ⟨wit_u, nex_u, hext, hlive | hkind, htakes⟩
    · exact absurd hlive htag
    · exact (hsame wit_u nex_u hext hkind).mpr (htakes hkind)

theorem pleaWork_expected (hwf : god_u.Wf) : (pleaWork pir_u god_u dat).Sound ↔
    ∃ wit_u nex_u, god_u.ext_u = wit_u :: nex_u ∧ (mWork = mLive ∨ wit_u.tag = mWork) ∧
      (wit_u.tag = mWork → pir_u.Takes wit_u dat) := by
  refine writ_sound (by decide) (fun hext ↦ ?_) (fun wit_u nex_u hext htag ↦ ?_)
    (fun wit_u nex_u hext htag ↦ ?_)
  · rw [pleaWork, writPop_nil hext]
    exact id
  · cases wit_u with
    | work egg_u job => exact pleaWork_sound hwf hext
    | _ => exact absurd htag (by dsimp only [Writ.tag]; decide)
  · rw [pleaWork, writPop_cons hext]
    cases wit_u with
    | work egg_u job => exact absurd rfl htag
    | _ => exact id

theorem pleaPeek_expected : (pleaPeek pir_u god_u dat).Sound ↔
    ∃ wit_u nex_u, god_u.ext_u = wit_u :: nex_u ∧ (mPeek = mLive ∨ wit_u.tag = mPeek) ∧
      (wit_u.tag = mPeek → pir_u.Takes wit_u dat) := by
  refine writ_sound (by decide) (fun hext ↦ ?_) (fun wit_u nex_u hext htag ↦ ?_)
    (fun wit_u nex_u hext htag ↦ ?_)
  · rw [pleaPeek, writPop_nil hext]
    exact id
  · cases wit_u with
    | peek pek_u => exact pleaPeek_sound hext
    | _ => exact absurd htag (by dsimp only [Writ.tag]; decide)
  · rw [pleaPeek, writPop_cons hext]
    cases wit_u with
    | peek pek_u => exact absurd rfl htag
    | _ => exact id

theorem pleaPlay_expected : (pleaPlay pir_u god_u dat).Sound ↔
    ∃ wit_u nex_u, god_u.ext_u = wit_u :: nex_u ∧ (mPlay = mLive ∨ wit_u.tag = mPlay) ∧
      (wit_u.tag = mPlay → pir_u.Takes wit_u dat) := by
  refine writ_sound (by decide) (fun hext ↦ ?_) (fun wit_u nex_u hext htag ↦ ?_)
    (fun wit_u nex_u hext htag ↦ ?_)
  · rw [pleaPlay, writPop_nil hext]
    exact id
  · cases wit_u with
    | play ext_u more_u => exact pleaPlay_sound hext
    | _ => exact absurd htag (by dsimp only [Writ.tag]; decide)
  · rw [pleaPlay, writPop_cons hext]
    cases wit_u with
    | play ext_u more_u => exact absurd rfl htag
    | _ => exact id

theorem pleaLive_expected : (pleaLive pir_u god_u dat).Sound ↔
    ∃ wit_u nex_u, god_u.ext_u = wit_u :: nex_u ∧ (mLive = mLive ∨ wit_u.tag = mLive) ∧
      (wit_u.tag = mLive → pir_u.Takes wit_u dat) := by
  rw [pleaLive_sound]
  constructor
  · intro hne
    obtain ⟨wit_u, nex_u, hext⟩ := List.exists_cons_of_ne_nil hne
    refine ⟨wit_u, nex_u, hext, Or.inl rfl, ?_⟩
    cases wit_u with
    | work egg_u job => exact fun htag ↦ absurd htag (by dsimp only [Writ.tag]; decide)
    | peek pek_u => exact fun htag ↦ absurd htag (by dsimp only [Writ.tag]; decide)
    | play ext_u more_u => exact fun htag ↦ absurd htag (by dsimp only [Writ.tag]; decide)
    | _ => exact fun _ ↦ trivial
  · rintro ⟨wit_u, nex_u, hext, -⟩
    rw [hext]
    exact List.cons_ne_nil _ _

/-- There is no fault of a plea just when it is expected. -/
theorem onPlea_sound (hwf : god_u.Wf) :
    (onPlea pir_u god_u jar).Sound ↔ Expected pir_u god_u jar := by
  unfold onPlea Expected
  cases jar with
  | none => exact ⟨fun _ ↦ trivial, fun _ ↦ trivial⟩
  | some jar =>
    cases jar with
    | atom a => exact ⟨fun _ ↦ trivial, fun _ ↦ trivial⟩
    | cell tag dat =>
      cases tag with
      | cell h t => exact ⟨fun _ ↦ trivial, fun _ ↦ trivial⟩
      | atom tag =>
        simp only [Noun.atom.injEq, List.mem_cons, List.not_mem_nil, or_false]
        split_ifs with hwork hpeek hslog hflog hplay hlive hripe
        · subst hwork
          rw [pleaWork_expected hwf]
          refine ⟨fun h ↦ ⟨fun _ ↦ h, ?_, ?_, ?_⟩, fun h ↦ h.1 (by decide)⟩ <;>
            exact fun h ↦ absurd h (by decide)
        · subst hpeek
          rw [pleaPeek_expected]
          refine ⟨fun h ↦ ⟨fun _ ↦ h, ?_, ?_, ?_⟩, fun h ↦ h.1 (by decide)⟩ <;>
            exact fun h ↦ absurd h (by decide)
        · subst hslog
          rw [pleaSlog_sound]
          exact ⟨fun h ↦ ⟨fun h ↦ absurd h (by decide), fun h ↦ absurd h (by decide), fun _ ↦ h,
            fun h ↦ absurd h (by decide)⟩, fun h ↦ h.2.2.1 rfl⟩
        · subst hflog
          rw [pleaFlog_sound]
          exact ⟨fun h ↦ ⟨fun h ↦ absurd h (by decide), fun h ↦ absurd h (by decide),
            fun h ↦ absurd h (by decide), fun _ ↦ h⟩, fun h ↦ h.2.2.2 rfl⟩
        · subst hplay
          rw [pleaPlay_expected]
          refine ⟨fun h ↦ ⟨fun _ ↦ h, ?_, ?_, ?_⟩, fun h ↦ h.1 (by decide)⟩ <;>
            exact fun h ↦ absurd h (by decide)
        · subst hlive
          rw [pleaLive_expected]
          refine ⟨fun h ↦ ⟨fun _ ↦ h, ?_, ?_, ?_⟩, fun h ↦ h.1 (by decide)⟩ <;>
            exact fun h ↦ absurd h (by decide)
        · subst hripe
          rw [pleaRipe_sound]
          exact ⟨fun h ↦ ⟨fun h ↦ absurd h (by decide), fun _ ↦ h, fun h ↦ absurd h (by decide),
            fun h ↦ absurd h (by decide)⟩, fun h ↦ h.2.1 rfl⟩
        · refine ⟨fun _ ↦ ⟨?_, fun h ↦ absurd h hripe, fun h ↦ absurd h hslog,
            fun h ↦ absurd h hflog⟩, fun _ ↦ trivial⟩
          rintro (h | h | h | h)
          · exact absurd h hwork
          · exact absurd h hpeek
          · exact absurd h hplay
          · exact absurd h hlive

end Step

/-! ### Runs -/

/-- What happens to a lord, with the pier as it is then. -/
inductive Event
  | send (pir_u : Pier) (wit_u : Writ)
  | plea (pir_u : Pier) (jar : Option Noun)

/-- A lord, or none once it is gone, with the writs that it has sent, those that were answered, by
which plea, and the number of times that it has bailed and that the pier has shut down. -/
structure Court where
  god_u : Option Lord
  sent : List Writ
  answered : List (Writ × Option Noun)
  bails : ℕ
  quits : ℕ

/-- A lord that has just been made. -/
def courtInit : Court := ⟨some lordInit, [], [], 0, 0⟩

/-- The writs that are answered when a lord becomes another. -/
def Court.hear (court : Court) (god_u god_u' : Lord) (jar : Option Noun) : Court :=
  { court with
    god_u := some god_u'
    answered := court.answered ++
      (god_u.ext_u.take (god_u.ext_u.length - god_u'.ext_u.length)).map fun wit_u ↦ (wit_u, jar) }

/-- One event. Once the lord is gone it is not called any more, and its pipes are closed. -/
def courtStep (court : Court) (event : Event) : Except Fault Court :=
  match court.god_u, event with
  | none, _ => .ok court
  | some god_u, .send pir_u wit_u =>
    (send pir_u god_u wit_u).map fun (god_u, sent) ↦
      { court with god_u := some god_u, sent := court.sent ++ sent }
  | some god_u, .plea pir_u jar =>
    match onPlea pir_u god_u jar with
    | .next god_u' => .ok (court.hear god_u god_u' jar)
    | .quit god_u' => .ok { court.hear god_u god_u' jar with
        god_u := none, quits := court.quits + 1 }
    | .bail => .ok { court with god_u := none, bails := court.bails + 1 }
    | .fault e => .error e

/-- The pier sends work in a state for it, and the pleas that come are expected. -/
def courtGood (court : Court) : Event → Prop
  | .send pir_u wit_u => wit_u.isWork = true → pir_u.sat_e.spins = true
  | .plea pir_u jar => ∀ god_u, court.god_u = some god_u → Expected pir_u god_u jar

/-- The count is right, the writs are answered in the order in which they were sent and by pleas
with their tags, and the lord bails or is halted at most once. -/
structure Court.Inv (court : Court) : Prop where
  wf : ∀ god_u, court.god_u = some god_u →
    god_u.Wf ∧ court.sent = court.answered.map Prod.fst ++ god_u.ext_u ∧ court.bails = 0 ∧
    court.quits = 0
  gone : court.god_u = none →
    court.bails + court.quits = 1 ∧ ∃ left, court.sent = court.answered.map Prod.fst ++ left
  tags : ∀ item ∈ court.answered, ∃ dat, item.2 = some (.cell (.atom item.1.tag) dat)

theorem courtInit_inv : courtInit.Inv where
  wf := by
    rintro god_u ⟨⟩
    exact ⟨⟨rfl, rfl⟩, rfl, rfl, rfl⟩
  gone := nofun
  tags := nofun

section Run

variable {god_u god_u' : Lord} {court court' : Court}

/-- A writ that is sent is the last of the list. -/
theorem writPlan_ok (hdep : god_u.dep_w = god_u.ext_u.length) (wit_u : Writ) :
    writPlan god_u wit_u =
      .ok { god_u with dep_w := god_u.dep_w + 1, ext_u := god_u.ext_u ++ [wit_u] } := by
  unfold writPlan
  split_ifs with hempty hne
  · rw [hdep, List.isEmpty_iff.mp hempty] at hne
    exact absurd rfl hne
  · have hzero : god_u.dep_w = 0 := not_not.mp hne
    rw [hzero, List.isEmpty_iff.mp hempty]
    rfl
  · rfl

theorem send_wf {pir_u : Pier} (hwf : god_u.Wf) (wit_u : Writ)
    (hspins : wit_u.isWork = true → pir_u.sat_e.spins = true) :
    ∃ god_u' sent, send pir_u god_u wit_u = .ok (god_u', sent) ∧ god_u'.Wf ∧
      god_u'.ext_u = god_u.ext_u ++ sent := by
  have hpush : ∀ wit_u : Writ, wit_u.isWork = false →
      Lord.Wf { god_u with dep_w := god_u.dep_w + 1, ext_u := god_u.ext_u ++ [wit_u] } := by
    intro wit_u hwork
    constructor
    · show god_u.dep_w + 1 = (god_u.ext_u ++ [wit_u]).length
      rw [hwf.dep, List.length_append]
      rfl
    · show god_u.pin_o = (god_u.ext_u ++ [wit_u]).any Writ.isWork
      rw [hwf.pin, List.any_append, List.any_cons, hwork]
      simp
  have hplan : ∀ wit_u : Writ, (writPlan god_u wit_u).map (fun god_u ↦ (god_u, [wit_u])) =
      .ok ({ god_u with dep_w := god_u.dep_w + 1, ext_u := god_u.ext_u ++ [wit_u] }, [wit_u]) := by
    intro wit_u
    rw [writPlan_ok hwf.dep]
    rfl
  cases wit_u with
  | work egg_u job =>
    have hwork := @writPlan_ok { god_u with pin_o := true } hwf.dep (.work egg_u job)
    refine ⟨{ god_u with
      pin_o := true, dep_w := god_u.dep_w + 1, ext_u := god_u.ext_u ++ [.work egg_u job] },
        [.work egg_u job],
      ?_, ⟨?_, ?_⟩, rfl⟩
    · unfold send
      dsimp only
      rw [if_neg (by rw [hspins rfl]; simp), hwork]
      rfl
    · show god_u.dep_w + 1 = (god_u.ext_u ++ [Writ.work egg_u job]).length
      rw [hwf.dep, List.length_append]
      rfl
    · show true = (god_u.ext_u ++ [Writ.work egg_u job]).any Writ.isWork
      simp [Writ.isWork]
  | save =>
    by_cases hdep : god_u.dep_w = 0
    · refine ⟨_, [.save], ?_, hpush .save rfl, rfl⟩
      unfold send
      dsimp only
      rw [if_neg (not_not.mpr hdep), hplan]
    · refine ⟨god_u, [], ?_, hwf, (List.append_nil _).symm⟩
      unfold send
      dsimp only
      rw [if_pos hdep]
  | cram =>
    by_cases hdep : god_u.dep_w = 0
    · refine ⟨_, [.cram], ?_, hpush .cram rfl, rfl⟩
      unfold send
      dsimp only
      rw [if_neg (not_not.mpr hdep), hplan]
    · refine ⟨god_u, [], ?_, hwf, (List.append_nil _).symm⟩
      unfold send
      dsimp only
      rw [if_pos hdep]
  | peek pek_u => exact ⟨_, _, hplan (.peek pek_u), hpush _ rfl, rfl⟩
  | play ext_u nex_u => exact ⟨_, _, hplan (.play ext_u nex_u), hpush _ rfl, rfl⟩
  | meld => exact ⟨_, _, hplan .meld, hpush _ rfl, rfl⟩
  | pack => exact ⟨_, _, hplan .pack, hpush _ rfl, rfl⟩
  | exit => exact ⟨_, _, hplan .exit, hpush _ rfl, rfl⟩

/-- The answer that is written down is the oldest writ, by a plea with its tag. -/
theorem Court.Inv.hear (hinv : court.Inv) (hlord : court.god_u = some god_u)
    (hanswers : Answers god_u jar god_u') :
    (court.hear god_u god_u' jar).sent =
      (court.hear god_u god_u' jar).answered.map Prod.fst ++ god_u'.ext_u ∧
      ∀ item ∈ (court.hear god_u god_u' jar).answered, ∃ dat, item.2 =
        some (.cell (.atom item.1.tag) dat) := by
  obtain ⟨-, hsent, -⟩ := hinv.wf god_u hlord
  obtain ⟨tag, dat, rfl, -, hext⟩ := hanswers
  unfold Court.hear
  dsimp only
  split_ifs at hext with hmem
  · obtain ⟨wit_u, hext, htag⟩ := hext
    refine ⟨by rw [hsent, hext]; simp, ?_⟩
    intro item hitem
    obtain hold | hnew := List.mem_append.mp hitem
    · exact hinv.tags item hold
    · rw [hext] at hnew
      obtain rfl : item = (wit_u, _) := by simpa using hnew
      exact ⟨dat, by rw [htag]⟩
  · refine ⟨by rw [hsent, hext]; simp, ?_⟩
    intro item hitem
    obtain hold | hnew := List.mem_append.mp hitem
    · exact hinv.tags item hold
    · rw [hext] at hnew
      simp at hnew

/-- A good event has no fault, and keeps the order of the writs. -/
theorem courtStep_inv {event : Event} (hinv : court.Inv) (hgood : courtGood court event) :
    ∃ court', courtStep court event = .ok court' ∧ court'.Inv := by
  cases hlord : court.god_u with
  | none =>
    refine ⟨court, ?_, hinv⟩
    unfold courtStep
    rw [hlord]
  | some god_u =>
    obtain ⟨hwf, hsent, hbails, hquits⟩ := hinv.wf god_u hlord
    cases event with
    | send pir_u wit_u =>
      obtain ⟨god_u', sent, hsend, hwf', hext⟩ := send_wf hwf wit_u hgood
      refine ⟨{ court with god_u := some god_u', sent := court.sent ++ sent },
        ?_, ?_, nofun, hinv.tags⟩
      · unfold courtStep
        rw [hlord]
        dsimp only
        rw [hsend]
        rfl
      · rintro _ ⟨⟩
        refine ⟨hwf', ?_, hbails, hquits⟩
        show court.sent ++ sent = court.answered.map Prod.fst ++ god_u'.ext_u
        rw [hsent, hext, List.append_assoc]
    | plea pir_u jar =>
      have hmatched := @onPlea_matched pir_u god_u jar hwf
      have hsound := (onPlea_sound hwf).mpr (hgood god_u hlord)
      unfold courtStep
      rw [hlord]
      dsimp only
      cases hplea : onPlea pir_u god_u jar with
      | fault e =>
        rw [hplea] at hsound
        exact hsound.elim
      | bail =>
        refine ⟨_, rfl, nofun, fun _ ↦ ⟨?_, god_u.ext_u, hsent⟩, hinv.tags⟩
        show court.bails + 1 + court.quits = 1
        rw [hbails, hquits]
      | next god_u' =>
        rw [hplea] at hmatched
        obtain ⟨hsent', htags⟩ := hinv.hear hlord hmatched
        obtain ⟨_, _, -, hwf', -⟩ := hmatched
        refine ⟨_, rfl, ?_, nofun, htags⟩
        rintro _ ⟨⟩
        exact ⟨hwf', hsent', hbails, hquits⟩
      | quit god_u' =>
        rw [hplea] at hmatched
        obtain ⟨hsent', htags⟩ := hinv.hear hlord hmatched
        refine ⟨_, rfl, nofun, fun _ ↦ ⟨?_, god_u'.ext_u, hsent'⟩, htags⟩
        show court.bails + (court.quits + 1) = 1
        rw [hbails, hquits]

/-- In every run whose pleas are expected, the writs are answered in the order in which they were
sent, each by a plea with its tag; the count of the outstanding ones is right; and what comes next
is an answer, unless the lord bails or the plea is a fault, just when it is not expected. -/
theorem court_survives
    (hreach : Lib.Runs.Reach (fun court event ↦
      (courtStep court event).toOption) courtGood courtInit court) :
    court.Inv ∧
      (∀ event, courtGood court event → ∃ court', courtStep court event = .ok court') ∧
      ∀ god_u, court.god_u = some god_u → ∀ pir_u jar,
        Matched god_u jar (onPlea pir_u god_u jar) ∧
        ((onPlea pir_u god_u jar).Sound ↔ Expected pir_u god_u jar) := by
  have hinv : court.Inv := by
    refine hreach.invariant courtInit_inv fun court event next hinv hgood hstep ↦ ?_
    obtain ⟨court', hok, hinv'⟩ := courtStep_inv hinv hgood
    rw [hok] at hstep
    cases hstep
    exact hinv'
  refine ⟨hinv, ?_, ?_⟩
  · intro event hgood
    obtain ⟨court', hok, -⟩ := courtStep_inv hinv hgood
    exact ⟨court', hok⟩
  · intro god_u hlord pir_u jar
    have hwf := (hinv.wf god_u hlord).1
    exact ⟨onPlea_matched hwf, onPlea_sound hwf⟩

/-- A pier without events, in a state, without a kernel and with drivers that take everything. -/
def pierAt (sat_e : Psat) :
    Pier := ⟨sat_e, ⟨0, 0, le_refl 0⟩, none, none, fun _ ↦ true, fun _ ↦ true, fun _ _ ↦ true⟩

def idleEgg : Ovum := ⟨nul, .cell (.atom mLive) nul, none⟩

/-- A `%pack` and a `%work` are sent, and both are answered: the event is the first one. -/
def courtPack : Court where
  god_u := some { lordInit with eve_d := 1, pin_o := false, dep_w := 0, ext_u := [] }
  sent := [.pack, .work idleEgg nul]
  answered := [(.pack, some (.cell (.atom mLive) nul)), (.work idleEgg nul,
    some (.cell (.atom mWork) (.cell (.atom mDone) (.cell (.atom 1) (.cell (.atom 0) nul)))))]
  bails := 0
  quits := 0

theorem court_survives_pack :
    courtPack.Inv ∧
      (∀ event, courtGood courtPack event → ∃ court', courtStep courtPack event = .ok court') ∧
      ∀ god_u, courtPack.god_u = some god_u → ∀ pir_u jar,
        Matched god_u jar (onPlea pir_u god_u jar) ∧
          ((onPlea pir_u god_u jar).Sound ↔ Expected pir_u god_u jar) := by
  refine court_survives ?_
  refine .step (.plea (pierAt (.work ⟨0, []⟩))
    (some (.cell (.atom mWork) (.cell (.atom mDone) (.cell (.atom 1) (.cell (.atom 0) nul))))))
    (.step (.plea (pierAt (.work ⟨0, []⟩)) (some (.cell (.atom mLive) nul)))
      (.step (.send (pierAt (.work ⟨0, []⟩)) (.work idleEgg nul))
        (.step (.send (pierAt (.work ⟨0, []⟩)) .pack) .refl nofun rfl)
        (fun _ ↦ rfl) rfl) ?_ rfl) ?_ rfl
  · rintro god_u ⟨⟩
    refine ⟨fun _ ↦ ⟨.pack, [.work idleEgg nul], rfl, Or.inl rfl, fun _ ↦ trivial⟩, ?_, ?_, ?_⟩ <;>
      exact fun h ↦ absurd h (by decide)
  · rintro god_u ⟨⟩
    refine ⟨fun _ ↦ ⟨.work idleEgg nul, [], rfl, Or.inr rfl, fun _ ↦ ⟨?_, ?_, ?_⟩⟩, ?_, ?_, ?_⟩
    · rintro _ _ _ _ _ _ ⟨⟩ ⟨⟩ heve -
      obtain rfl : 1 = _ := Option.some.inj heve
      exact ⟨rfl, le_refl 0, rfl, nofun⟩
    · rintro _ ⟨⟩
    · rintro _ ⟨⟩
    · exact fun h ↦ absurd h (by decide)
    · exact fun h ↦ absurd h (by decide)
    · exact fun h ↦ absurd h (by decide)

/-- A `%live` that nobody waits for fails the assertion of `_lord_writ_pop()`; a `%peek` for a
`%work` reads a writ that is not there; a `%swap` without four parts frees what was never set; an
atom for the answer of a `%once` peek bails; and the pier asserts that a serf is not further than
the log, and that the event which is done is the next one. -/
theorem onPlea_faults :
    onPlea (pierAt .init) lordInit (some (.cell (.atom mLive) nul)) = .fault .assertion ∧
    onPlea (pierAt (.work ⟨0, []⟩))
      { lordInit with pin_o := true, dep_w := 1, ext_u := [.work idleEgg nul] }
      (some (.cell (.atom mPeek) nul)) = .fault .absent ∧
    onPlea (pierAt (.work ⟨0, []⟩))
      { lordInit with pin_o := true, dep_w := 1, ext_u := [.work idleEgg nul] }
      (some (.cell (.atom mWork) (.cell (.atom mSwap) nul))) = .fault .unset ∧
    onPlea (pierAt (.work ⟨0, []⟩))
      { lordInit with dep_w := 1, ext_u := [.peek ⟨.once, fun _ ↦ true⟩] }
      (some (.cell (.atom mPeek) (.cell (.atom mDone) (.atom 1)))) = .fault .exit ∧
    onPlea (pierAt .init) lordInit (some (.cell (.atom mRipe)
      (.cell (.cell (.atom 1) (.cell (.atom 0) (.atom 0))) (.cell (.atom 99) (.atom 0))))) =
        .fault .assertion ∧
    onPlea (pierAt (.work ⟨0, []⟩))
      { lordInit with pin_o := true, dep_w := 1, ext_u := [.work idleEgg nul] }
      (some (.cell (.atom mWork) (.cell (.atom mDone) (.cell (.atom 99) (.cell (.atom 0) nul))))) =
        .fault .assertion :=
  ⟨rfl, rfl, rfl, rfl, rfl, rfl⟩

end Run

end Vere.King.LordHear
