import Vere.King.Serf

/-!
# The lord

`pkg/vere/lord.c`: the king's side of the serf. Writs go down a pipe to the serf, and are kept in a
list until the plea that answers them comes back up another pipe. Both sides count events: the lord
in `eve_d`, from what the pleas say, and the serf in `dun_d`.

`Net` is the two sides with the two pipes. `net_agree` says that they agree whenever no writ is
outstanding, in every run in which the kernel accepts the events of the log. `net_disagree` is a run
in which it does not: after `%play %bail` the lord is one event behind.
-/

set_option autoImplicit false

namespace Vere.King

open Vere.Noun

/-! ### Writs and pleas -/

/-- `u3_writ`. -/
inductive Writ
  | work (job : Noun)
  | peek
  | play (fon_u : List Fact)
  | save
  | cram
  | meld
  | pack
  | exit

/-- A writ as it goes to the serf. -/
inductive Jar
  | work (job : Noun)
  | peek
  | play (eve_d : ℕ) (lit : List Noun)
  | save (eve_d : ℕ)
  | cram (eve_d : ℕ)
  | meld
  | pack
  | exit

/-- A plea, without the products of `%peek`. -/
inductive Plea
  | work (pro : Work)
  | play (pro : Play)
  | peek
  | live

/-- `u3_gift`: the effects of an event. -/
structure Gift where
  eve_d : ℕ
  act : Noun
  deriving DecidableEq

/-- What the lord calls back with. -/
inductive Callback
  | workDone (tac_u : Fact) (gif_u : Gift)
  | workBail
  | playDone (fon_u : List Fact) (mug_l : UInt32)
  | playBail (fon_u : List Fact) (mug_l : UInt32) (eve_d : ℕ)
  | peek
  | save
  | cram
  | none

/-- `u3_lord`. `ext_u` is the list of outstanding writs. -/
structure Lord where
  eve_d : ℕ
  mug_l : UInt32
  dep_w : ℕ
  ext_u : List Writ
  pin_o : Bool

/-- A plea that the lord does not expect, or a failed `c3_assert()`. -/
inductive LordFault
  | foul
  | assertion
  deriving DecidableEq

/-! ### Sending -/

def Writ.isWork : Writ → Bool
  | .work _ => true
  | _ => false

/-- `_lord_writ_make()`. -/
def lordWritMake (god_u : Lord) : Writ → Jar
  | .work job => .work job
  | .peek => .peek
  | .play fon_u =>
    .play ((fon_u.head?.map fun tac_u ↦ tac_u.eve_d).getD 0) (fon_u.map fun tac_u ↦ tac_u.job)
  | .save => .save god_u.eve_d
  | .cram => .cram god_u.eve_d
  | .meld => .meld
  | .pack => .pack
  | .exit => .exit

/-- `_lord_writ_plan()`: enqueue a writ and send. -/
def lordWritPlan (god_u : Lord) (wit_u : Writ) : Except LordFault (Lord × Jar) :=
  if god_u.ext_u.isEmpty then
    if god_u.dep_w ≠ 0 then .error .assertion
    else .ok ({ god_u with dep_w := 1, ext_u := [wit_u] }, lordWritMake god_u wit_u)
  else .ok ({ god_u with dep_w := god_u.dep_w + 1, ext_u := god_u.ext_u ++ [wit_u] },
    lordWritMake god_u wit_u)

/-- The calls that send a writ. `u3_lord_work()` starts the spinner, and `u3_lord_save()` and
`u3_lord_cram()` do nothing while a writ is outstanding. -/
def lordSend (god_u : Lord) : Writ → Except LordFault (Lord × Option Jar)
  | .work job => do
    let (god_u, jar) ← lordWritPlan { god_u with pin_o := true } (.work job)
    .ok (god_u, some jar)
  | .save =>
    if god_u.dep_w ≠ 0 then .ok (god_u, none)
    else do
      let (god_u, jar) ← lordWritPlan god_u .save
      .ok (god_u, some jar)
  | .cram =>
    if god_u.dep_w ≠ 0 then .ok (god_u, none)
    else do
      let (god_u, jar) ← lordWritPlan god_u .cram
      .ok (god_u, some jar)
  | wit_u => do
    let (god_u, jar) ← lordWritPlan god_u wit_u
    .ok (god_u, some jar)

/-! ### Hearing -/

/-- `_lord_writ_pop()`. -/
def lordWritPop (god_u : Lord) : Except LordFault (Writ × Lord) :=
  match god_u.ext_u with
  | [] => .error .assertion
  | wit_u :: nex_u => .ok (wit_u, { god_u with ext_u := nex_u, dep_w := god_u.dep_w - 1 })

/-- `_lord_work_spin()`. -/
def lordWorkSpin (god_u : Lord) : Except LordFault Lord :=
  if god_u.pin_o = false then .error .assertion
  else .ok { god_u with pin_o := god_u.ext_u.any Writ.isWork }

/-- `_lord_work_done()`. -/
def lordWorkDone (god_u : Lord) (eve_d : ℕ) (mug_l : UInt32) (job act : Noun) :
    Except LordFault (Lord × Callback) := do
  let god_u ← lordWorkSpin { god_u with mug_l := mug_l, eve_d := eve_d }
  .ok (god_u, .workDone ⟨eve_d, mug_l, job⟩ ⟨eve_d, act⟩)

/-- `_lord_plea_work()`. -/
def lordPleaWork (god_u : Lord) (pro : Work) : Except LordFault (Lord × Callback) := do
  let (wit_u, god_u) ← lordWritPop god_u
  match wit_u, pro with
  | .work job, .done eve_d mug_l vir => lordWorkDone god_u eve_d mug_l job vir
  | .work _, .swap eve_d mug_l job vir => lordWorkDone god_u eve_d mug_l job vir
  | .work _, .bail _ => do
    let god_u ← lordWorkSpin god_u
    .ok (god_u, .workBail)
  | _, _ => .error .foul

/-- `eve_d - 1ULL`. -/
def chubDec (eve_d : ℕ) : ℕ := (eve_d + 2 ^ 64 - 1) % 2 ^ 64

/-- `_lord_plea_play()`. -/
def lordPleaPlay (god_u : Lord) (pro : Play) : Except LordFault (Lord × Callback) := do
  let (wit_u, god_u) ← lordWritPop god_u
  match wit_u, pro with
  | .play fon_u, .done mug_l =>
    match fon_u.getLast? with
    | some ent_u => .ok ({ god_u with eve_d := ent_u.eve_d, mug_l := mug_l }, .playDone fon_u mug_l)
    | none => .error .assertion
  | .play fon_u, .bail eve_d mug_l _ =>
    .ok ({ god_u with eve_d := chubDec eve_d, mug_l := mug_l },
      .playBail fon_u mug_l eve_d)
  | _, _ => .error .foul

/-- `_lord_plea_peek()`. -/
def lordPleaPeek (god_u : Lord) : Except LordFault (Lord × Callback) := do
  let (wit_u, god_u) ← lordWritPop god_u
  match wit_u with
  | .peek => .ok (god_u, .peek)
  | _ => .error .foul

/-- `_lord_plea_live()`. -/
def lordPleaLive (god_u : Lord) : Except LordFault (Lord × Callback) := do
  let (wit_u, god_u) ← lordWritPop god_u
  match wit_u with
  | .save => .ok (god_u, .save)
  | .cram => .ok (god_u, .cram)
  | .meld => .ok (god_u, .none)
  | .pack => .ok (god_u, .none)
  | _ => .error .foul

/-- `_lord_on_plea()`. -/
def lordOnPlea (god_u : Lord) : Plea → Except LordFault (Lord × Callback)
  | .work pro => lordPleaWork god_u pro
  | .play pro => lordPleaPlay god_u pro
  | .peek => lordPleaPeek god_u
  | .live => lordPleaLive god_u

/-! ### The serf -/

/-- `u3_serf_writ()`, with `u3_serf_live()`: the plea, and the state after it. The serf stops when
it exits, when the number of a `%save` or a `%cram` is not its own, and when the mug is not that of
the kernel that was written. -/
def serfWrit (arv : Arvo) (lim : Limits) (sef_u : Serf) : Jar → Option (Plea × Serf)
  | .work job => do
    let (pro, sef_u) ← u3SerfWork arv lim sef_u job
    some (.work pro, sef_u)
  | .peek => some (.peek, sef_u)
  | .play eve_d lit =>
    if lit.isEmpty then none
    else do
      let (pro, sef_u) ← u3SerfPlay arv sef_u eve_d lit
      some (.play pro, sef_u)
  | .save eve_d => if eve_d ≠ sef_u.dun_d then none else some (.live, sef_u)
  | .cram eve_d =>
    if eve_d ≠ sef_u.dun_d then none
    else if arv.mug sef_u.roc ≠ sef_u.mug_l then none
    else some (.live, sef_u)
  | .meld => some (.live, sef_u)
  | .pack => some (.live, sef_u)
  | .exit => none

/-! ### The two sides -/

/-- The lord and the serf, with the pipes between them. -/
structure Net where
  god_u : Lord
  inn : List Jar
  sef_u : Serf
  out : List Plea

/-- What can happen: the lord sends a writ, the serf takes the next one, or the lord hears the next
plea. -/
inductive NetEvent
  | send (wit_u : Writ)
  | serf (lim : Limits)
  | hear

def netSend (net : Net) (wit_u : Writ) : Option Net :=
  match lordSend net.god_u wit_u with
  | .ok (god_u, jar) => some { net with god_u := god_u, inn := net.inn ++ jar.toList }
  | .error _ => none

def netSerf (arv : Arvo) (net : Net) (lim : Limits) : Option Net :=
  match net.inn with
  | [] => none
  | jar :: inn =>
    match serfWrit arv lim net.sef_u jar with
    | some (plea, sef_u) => some { net with inn := inn, sef_u := sef_u, out := net.out ++ [plea] }
    | none => none

def netHear (net : Net) : Option Net :=
  match net.out with
  | [] => none
  | plea :: out =>
    match lordOnPlea net.god_u plea with
    | .ok (god_u, _) => some { net with god_u := god_u, out := out }
    | .error _ => none

/-- One event. -/
def netStep (arv : Arvo) (net : Net) : NetEvent → Option Net
  | .send wit_u => netSend net wit_u
  | .serf lim => netSerf arv net lim
  | .hear => netHear net

/-- A batch from the log: numbered without gap, and not empty. -/
def Batch (fon_u : List Fact) : Prop :=
  ∃ eve_d, fon_u ≠ [] ∧ (fon_u.map fun tac_u ↦ tac_u.eve_d) = List.range' eve_d fon_u.length

/-- The writs that the king sends: a batch comes from the log. -/
def NetEvent.Legal : NetEvent → Prop
  | .send (.play fon_u) => Batch fon_u
  | _ => True

/-- The lord after `%ripe`, and a serf with nothing to do. -/
structure Net.Start (arv : Arvo) (net : Net) : Prop where
  ready : net.sef_u.Ready arv
  eve : net.god_u.eve_d = net.sef_u.dun_d
  mug : net.god_u.mug_l = net.sef_u.mug_l
  dep : net.god_u.dep_w = 0
  ext : net.god_u.ext_u = []
  pin : net.god_u.pin_o = false
  inn : net.inn = []
  out : net.out = []

/-- The states of the two sides, in runs where every event meets a condition. -/
inductive NetReach (arv : Arvo) (cond : Net → NetEvent → Prop) : Net → Prop
  | start {net : Net} (hstart : net.Start arv) : NetReach arv cond net
  | step {net net' : Net} (event : NetEvent) (hreach : NetReach arv cond net)
      (hlegal : event.Legal) (hcond : cond net event) (hstep : netStep arv net event = some net') :
      NetReach arv cond net'

/-! ### The log -/

/-- The kernel accepts a list of events, one after the other. -/
def kernelAccepts (arv : Arvo) : Noun → List Noun → Bool
  | _, [] => true
  | roc, .cell now ovo :: eve =>
    match arv.poke roc now ovo with
    | .ok (.cell _ cor) => kernelAccepts arv cor eve
    | _ => false
  | _, .atom _ :: _ => false

/-- The kernel accepts the boot sequence, or the events of the log. -/
def Serf.AcceptsLog (arv : Arvo) (sef_u : Serf) (lit : List Noun) : Prop :=
  if sef_u.dun_d = 0 then ∃ cor, arv.life (u3iList lit) = .ok cor
  else kernelAccepts arv sef_u.roc lit = true

/-- When the serf takes a batch from the log, the kernel accepts it. -/
def LogAccepted (arv : Arvo) (net : Net) : NetEvent → Prop
  | .serf _ => ∀ eve_d lit, net.inn.head? = some (.play eve_d lit) → net.sef_u.AcceptsLog arv lit
  | _ => True

variable {arv : Arvo} {sef_u sef_u' : Serf} {god_u god_u' : Lord}

theorem serfPlayList_done {eve : List Noun} {pro : Play} (hready : sef_u.Ready arv)
    (hne : sef_u.dun_d ≠ 0) (haccepts : kernelAccepts arv sef_u.roc eve = true)
    (hplay : serfPlayList arv sef_u eve = some (pro, sef_u')) :
    pro = .done sef_u'.mug_l ∧ sef_u'.dun_d = sef_u.dun_d + eve.length ∧ sef_u'.Ready arv := by
  induction eve generalizing sef_u with
  | nil =>
    simp only [serfPlayList, Option.some.injEq, Prod.mk.injEq] at hplay
    obtain ⟨rfl, rfl⟩ := hplay
    exact ⟨rfl, rfl, hready⟩
  | cons job eve ih =>
    cases job with
    | atom a => simp [kernelAccepts] at haccepts
    | cell now ovo =>
      cases hres : arv.poke sef_u.roc now ovo with
      | error dud => simp [kernelAccepts, hres] at haccepts
      | ok par =>
        cases par with
        | atom a => simp [kernelAccepts, hres] at haccepts
        | cell vir cor =>
          simp only [kernelAccepts, hres] at haccepts
          simp only [serfPlayList, serfPoke, u3xCell, hres, Option.bind_eq_bind, Option.bind_some,
            serfSure] at hplay
          obtain ⟨⟨vir', mid_u⟩, hsure, hrest⟩ := Option.bind_eq_some_iff.mp hplay
          obtain ⟨vir'', _, hmid⟩ := Option.bind_eq_some_iff.mp hsure
          simp only [Option.some.injEq, Prod.mk.injEq] at hmid
          obtain ⟨_, rfl⟩ := hmid
          have hmid :
              (serfSureCore arv { sef_u with sen_d := sef_u.sen_d + 1, now := now } cor).dun_d ≠
                0 := Nat.succ_ne_zero _
          obtain ⟨hpro, hdone, hready'⟩ := ih (serfSureCore_ready hmid cor) hmid haccepts hrest
          refine ⟨hpro, hdone.trans ?_, hready'⟩
          show sef_u.sen_d + 1 + eve.length = sef_u.dun_d + (eve.length + 1)
          rw [hready.sen]
          omega

/-- A batch that the kernel accepts is done, and the serf has counted its events. -/
theorem u3SerfPlay_done {eve_d : ℕ} {lit : List Noun} {pro : Play} (hready : sef_u.Ready arv)
    (hlit : lit ≠ []) (haccepts : sef_u.AcceptsLog arv lit)
    (hplay : u3SerfPlay arv sef_u eve_d lit = some (pro, sef_u')) :
    pro = .done sef_u'.mug_l ∧ sef_u'.dun_d + 1 = eve_d + lit.length ∧ sef_u'.Ready arv := by
  unfold u3SerfPlay at hplay
  unfold Serf.AcceptsLog at haccepts
  split_ifs at hplay with hnumber hzero
  · rw [if_pos hzero] at haccepts
    obtain ⟨cor, hlife⟩ := haccepts
    have hsen : sef_u.sen_d = 0 := hready.sen.trans hzero
    have hnumber' : eve_d = 1 := by rw [not_not.mp hnumber, hsen]
    simp only [serfPlayLife, hsen, ne_eq, not_true_eq_false, if_false, hlife, Option.some.injEq,
      Prod.mk.injEq] at hplay
    obtain ⟨rfl, rfl⟩ := hplay
    refine ⟨rfl, ?_, serfSureCore_ready (by simpa using hlit) cor⟩
    rw [hnumber', Nat.add_comm]
    rfl
  · rw [if_neg hzero] at haccepts
    obtain ⟨hpro, hdone, hready'⟩ := serfPlayList_done hready hzero haccepts hplay
    refine ⟨hpro, ?_, hready'⟩
    rw [hdone, not_not.mp hnumber, hready.sen]
    omega

/-! ### Outstanding writs -/

/-- The count of outstanding writs and the spinner are right. -/
structure Lord.Wf (god_u : Lord) : Prop where
  dep : god_u.dep_w = god_u.ext_u.length
  pin : god_u.pin_o = god_u.ext_u.any Writ.isWork

/-- What the lord makes of the plea that answers a writ: its event number, its mug, and the call
back. -/
def answer (eve_d : ℕ) (mug_l : UInt32) : Writ → Plea → Option (ℕ × UInt32 × Callback)
  | .work job, .work (.done eve_d mug_l vir) =>
    some (eve_d, mug_l, .workDone ⟨eve_d, mug_l, job⟩ ⟨eve_d, vir⟩)
  | .work _, .work (.swap eve_d mug_l job vir) =>
    some (eve_d, mug_l, .workDone ⟨eve_d, mug_l, job⟩ ⟨eve_d, vir⟩)
  | .work _, .work (.bail _) => some (eve_d, mug_l, .workBail)
  | .play fon_u, .play (.done mug_l) =>
    fon_u.getLast?.map fun ent_u ↦ (ent_u.eve_d, mug_l, .playDone fon_u mug_l)
  | .play fon_u, .play (.bail eve_d mug_l _) =>
    some (chubDec eve_d, mug_l, .playBail fon_u mug_l eve_d)
  | .peek, .peek => some (eve_d, mug_l, .peek)
  | .save, .live => some (eve_d, mug_l, .save)
  | .cram, .live => some (eve_d, mug_l, .cram)
  | .meld, .live => some (eve_d, mug_l, .none)
  | .pack, .live => some (eve_d, mug_l, .none)
  | _, _ => none

/-- A plea answers the first outstanding writ. -/
theorem lordOnPlea_cons (eve_d : ℕ) (mug_l : UInt32) (wit_u : Writ) (nex_u : List Writ)
    (plea : Plea) :
    (lordOnPlea ⟨eve_d, mug_l, nex_u.length + 1, wit_u :: nex_u, (wit_u :: nex_u).any Writ.isWork⟩
      plea).toOption = (answer eve_d mug_l wit_u plea).map fun (eve_d, mug_l, cb) ↦
        (⟨eve_d, mug_l, nex_u.length, nex_u, nex_u.any Writ.isWork⟩, cb) := by
  cases plea with
  | work pro => cases wit_u <;> cases pro <;> rfl
  | peek => cases wit_u <;> rfl
  | live => cases wit_u <;> rfl
  | play pro =>
    cases wit_u <;> cases pro <;> try rfl
    -- the last event of the batch
    rename_i fon_u mug_l
    simp only [lordOnPlea, lordPleaPlay, lordWritPop, answer, bind, Except.bind]
    cases fon_u.getLast? <;> rfl

variable {cb : Callback} {plea : Plea} {out : List Plea} {net : Net}

theorem lordOnPlea_iff (hwf : god_u.Wf) :
    lordOnPlea god_u plea = .ok (god_u', cb) ↔ ∃ wit_u nex_u eve_d mug_l,
      god_u.ext_u = wit_u :: nex_u ∧ answer god_u.eve_d god_u.mug_l wit_u plea =
        some (eve_d, mug_l, cb) ∧
        god_u' = ⟨eve_d, mug_l, nex_u.length, nex_u, nex_u.any Writ.isWork⟩ := by
  obtain ⟨eve_d, mug_l, dep_w, ext_u, pin_o⟩ := god_u
  obtain ⟨hdep, hpin⟩ := hwf
  simp only at hdep hpin
  subst hdep hpin
  have hoption : ∀ res : Except LordFault (Lord × Callback),
      res = .ok (god_u', cb) ↔ res.toOption = some (god_u', cb) := by
    intro res
    cases res <;> simp [Except.toOption]
  cases ext_u with
  | nil =>
    rw [hoption]
    cases plea <;> simp [lordOnPlea, lordPleaWork, lordPleaPlay, lordPleaPeek, lordPleaLive,
      lordWritPop, bind, Except.bind, Except.toOption]
  | cons wit_u nex_u =>
    rw [hoption]
    refine ⟨fun hplea ↦ ?_, ?_⟩
    · rw [List.length_cons, lordOnPlea_cons, Option.map_eq_some_iff] at hplea
      obtain ⟨⟨eve_d', mug_l', cb'⟩, hanswer, heq⟩ := hplea
      obtain ⟨rfl, rfl⟩ := Prod.mk.inj heq
      exact ⟨wit_u, nex_u, eve_d', mug_l', rfl, hanswer, rfl⟩
    · rintro ⟨wit_u', nex_u', eve_d', mug_l', hext, hanswer, rfl⟩
      obtain ⟨rfl, rfl⟩ := List.cons.inj hext
      rw [List.length_cons, lordOnPlea_cons]
      exact Option.map_eq_some_iff.mpr ⟨_, hanswer, rfl⟩

theorem lordOnPlea_wf (hwf : god_u.Wf) (hplea : lordOnPlea god_u plea = .ok (god_u', cb)) :
    god_u'.Wf := by
  obtain ⟨wit_u, nex_u, eve_d, mug_l, _, _, rfl⟩ := (lordOnPlea_iff hwf).mp hplea
  exact ⟨rfl, rfl⟩

/-- A lord with one more outstanding writ. -/
def Lord.push (god_u : Lord) (wit_u : Writ) : Lord :=
  ⟨god_u.eve_d, god_u.mug_l, god_u.dep_w + 1, god_u.ext_u ++ [wit_u], god_u.pin_o || wit_u.isWork⟩

theorem Lord.Wf.push (hwf : god_u.Wf) (wit_u : Writ) : (god_u.push wit_u).Wf := by
  constructor
  · simp [Lord.push, hwf.dep]
  · simp [Lord.push, hwf.pin]

/-- A writ that is sent meanwhile does not matter to a plea. -/
theorem lordOnPlea_push (hwf : god_u.Wf) (wit_u : Writ)
    (hplea : lordOnPlea god_u plea = .ok (god_u', cb)) :
    lordOnPlea (god_u.push wit_u) plea = .ok (god_u'.push wit_u, cb) := by
  obtain ⟨fir_u, nex_u, eve_d, mug_l, hext, hanswer, rfl⟩ := (lordOnPlea_iff hwf).mp hplea
  refine (lordOnPlea_iff (hwf.push wit_u)).mpr
    ⟨fir_u, nex_u ++ [wit_u], eve_d, mug_l, by simp [Lord.push, hext], hanswer, ?_⟩
  simp [Lord.push]

/-- What sending does: the writ is planned, unless it is a snapshot and another is outstanding. -/
theorem lordSend_cases (hwf : god_u.Wf) (wit_u : Writ) :
    lordSend god_u wit_u = .ok (god_u, none) ∨
      lordSend god_u wit_u = .ok (god_u.push wit_u, some (lordWritMake god_u wit_u)) ∧
        (wit_u = .save ∨ wit_u = .cram → god_u.ext_u = []) := by
  have hplan : ∀ pin_o, lordWritPlan { god_u with pin_o := pin_o } wit_u = .ok
      (⟨god_u.eve_d, god_u.mug_l, god_u.dep_w + 1, god_u.ext_u ++ [wit_u], pin_o⟩,
        lordWritMake god_u wit_u) := by
    intro pin_o
    unfold lordWritPlan
    cases hext : god_u.ext_u with
    | nil =>
      have hdep : god_u.dep_w = 0 := by rw [hwf.dep, hext]; rfl
      simp only [List.isEmpty_nil, if_true, hdep, ne_eq, not_true_eq_false, if_false]
      rfl
    | cons fir_u nex_u => rfl
  have hpush : lordWritPlan god_u wit_u = .ok
      (⟨god_u.eve_d, god_u.mug_l, god_u.dep_w + 1, god_u.ext_u ++ [wit_u], god_u.pin_o⟩,
        lordWritMake god_u wit_u) := hplan god_u.pin_o
  have hempty : god_u.dep_w = 0 → god_u.ext_u = [] := by
    rw [hwf.dep]
    exact List.length_eq_zero_iff.mp
  cases wit_u with
  | work job => exact .inr (by simp [lordSend, hplan, Lord.push, Writ.isWork, bind, Except.bind])
  | peek => exact .inr (by simp [lordSend, hpush, Lord.push, Writ.isWork, bind, Except.bind])
  | play fon_u => exact .inr (by simp [lordSend, hpush, Lord.push, Writ.isWork, bind, Except.bind])
  | meld => exact .inr (by simp [lordSend, hpush, Lord.push, Writ.isWork, bind, Except.bind])
  | pack => exact .inr (by simp [lordSend, hpush, Lord.push, Writ.isWork, bind, Except.bind])
  | exit => exact .inr (by simp [lordSend, hpush, Lord.push, Writ.isWork, bind, Except.bind])
  | save =>
    by_cases hdep : god_u.dep_w = 0
    · right
      simp [lordSend, hpush, Lord.push, Writ.isWork, bind, Except.bind, hdep, hempty hdep]
    · left
      simp [lordSend, hdep]
  | cram =>
    by_cases hdep : god_u.dep_w = 0
    · right
      simp [lordSend, hpush, Lord.push, Writ.isWork, bind, Except.bind, hdep, hempty hdep]
    · left
      simp [lordSend, hdep]
/-! ### Agreement -/

/-- The lord after all the pleas that are on their way: each answers a writ, and a new event has the
next number. -/
inductive Hears : Lord → List Plea → Lord → Prop
  | nil (god_u : Lord) : Hears god_u [] god_u
  | cons {god_u mid_u last_u : Lord} {plea : Plea} {out : List Plea} {cb : Callback}
      (hplea : lordOnPlea god_u plea = .ok (mid_u, cb))
      (hnext : ∀ tac_u gif_u, cb = .workDone tac_u gif_u → tac_u.eve_d = god_u.eve_d + 1)
      (hears : Hears mid_u out last_u) : Hears god_u (plea :: out) last_u

/-- A writ, and what the serf gets of it. -/
def Sent (wit_u : Writ) (jar : Jar) : Prop :=
  (∃ god_u, jar = lordWritMake god_u wit_u) ∧ ∀ fon_u, wit_u = .play fon_u → Batch fon_u

/-- The event number of a snapshot. -/
def Jar.snap : Jar → Option ℕ
  | .save eve_d => some eve_d
  | .cram eve_d => some eve_d
  | _ => none

/-- The invariant of the two sides. Once the lord has heard all pleas it knows what the serf knows
now, and the writs that are left then are those that the serf has not taken. A snapshot is the next
writ, with the number of the serf. -/
structure Net.Inv (arv : Arvo) (net : Net) : Prop where
  ready : net.sef_u.Ready arv
  wf : net.god_u.Wf
  hears : ∃ god_u, Hears net.god_u net.out god_u ∧ god_u.eve_d = net.sef_u.dun_d ∧
    god_u.mug_l = net.sef_u.mug_l ∧ List.Forall₂ Sent god_u.ext_u net.inn
  snap_tail : ∀ jar ∈ net.inn.tail, jar.snap = none
  snap_head : ∀ jar ∈ net.inn.head?, ∀ eve_d, jar.snap = some eve_d → eve_d = net.sef_u.dun_d

theorem Hears.wf (hears : Hears god_u out god_u') (hwf : god_u.Wf) : god_u'.Wf := by
  induction hears with
  | nil => exact hwf
  | cons hplea _ _ ih => exact ih (lordOnPlea_wf hwf hplea)

theorem Hears.push {out : List Plea} (hears : Hears god_u out god_u') (hwf : god_u.Wf)
    (wit_u : Writ) : Hears (god_u.push wit_u) out (god_u'.push wit_u) := by
  induction hears with
  | nil god_u => exact .nil (god_u.push wit_u)
  | cons hplea hnext _ ih =>
    exact .cons (lordOnPlea_push hwf wit_u hplea) hnext (ih (lordOnPlea_wf hwf hplea))

theorem Hears.concat {last_u : Lord} (hears : Hears god_u out god_u')
    (hplea : lordOnPlea god_u' plea = .ok (last_u, cb))
    (hnext : ∀ tac_u gif_u, cb = .workDone tac_u gif_u → tac_u.eve_d = god_u'.eve_d + 1) :
    Hears god_u (out ++ [plea]) last_u := by
  induction hears with
  | nil god_u => exact .cons hplea hnext (.nil last_u)
  | cons hfir hnext' _ ih => exact .cons hfir hnext' (ih hplea hnext)

/-- With no writ outstanding there is no plea on its way. -/
theorem Hears.of_ext_nil (hears : Hears god_u out god_u') (hwf : god_u.Wf)
    (hext : god_u.ext_u = []) :
    out = [] ∧ god_u' = god_u := by
  cases hears with
  | nil => exact ⟨rfl, rfl⟩
  | cons hplea _ _ =>
    obtain ⟨wit_u, nex_u, _, _, hcons, _⟩ := (lordOnPlea_iff hwf).mp hplea
    simp [hext] at hcons

/-- The writs that are left when all pleas are heard were outstanding before. -/
theorem Hears.ext_mem (hears : Hears god_u out god_u') (hwf : god_u.Wf) {wit_u : Writ}
    (hmem : wit_u ∈ god_u'.ext_u) : wit_u ∈ god_u.ext_u := by
  induction hears with
  | nil => exact hmem
  | cons hplea _ _ ih =>
    obtain ⟨_, nex_u, _, _, hext, _, rfl⟩ := (lordOnPlea_iff hwf).mp hplea
    rw [hext]
    exact List.mem_cons_of_mem _ (ih (lordOnPlea_wf hwf hplea) hmem)

theorem Batch.last {fon_u : List Fact} (hbatch : Batch fon_u) :
    ∃ fir_u ent_u, fon_u.head? = some fir_u ∧ fon_u.getLast? = some ent_u ∧
      ent_u.eve_d + 1 = fir_u.eve_d + fon_u.length := by
  obtain ⟨eve_d, hne, hnumber⟩ := hbatch
  obtain ⟨fir_u, rest, rfl⟩ := List.exists_cons_of_ne_nil hne
  have hlast : (fir_u :: rest).getLast?.map (fun tac_u ↦ tac_u.eve_d) =
      (List.range' eve_d (rest.length + 1)).getLast? := by
    rw [← List.getLast?_map, hnumber, List.length_cons]
  have hfirst : fir_u.eve_d = eve_d := by
    rw [List.map_cons, List.length_cons, List.range'_succ, List.cons.injEq] at hnumber
    exact hnumber.1
  rw [List.getLast?_range'] at hlast
  obtain ⟨ent_u, hent, heve⟩ := Option.map_eq_some_iff.mp (hlast.trans (if_neg (by simp)))
  refine ⟨fir_u, ent_u, rfl, hent, ?_⟩
  rw [heve, hfirst, List.length_cons]
  omega

/-- What the lord makes of the serf's answer to a writ is what the serf knows then. -/
theorem serfWrit_answer {lim : Limits} {wit_u : Writ} {jar : Jar} (hready : sef_u.Ready arv)
    (hsent : Sent wit_u jar)
    (haccepts : ∀ eve_d lit, jar = .play eve_d lit → sef_u.AcceptsLog arv lit)
    (hwrit : serfWrit arv lim sef_u jar = some (plea, sef_u')) :
    sef_u'.Ready arv ∧ ∃ cb, answer sef_u.dun_d sef_u.mug_l wit_u plea =
      some (sef_u'.dun_d, sef_u'.mug_l, cb) ∧
        ∀ tac_u gif_u, cb = .workDone tac_u gif_u → tac_u.eve_d = sef_u.dun_d + 1 := by
  obtain ⟨⟨god_u, rfl⟩, hbatch⟩ := hsent
  cases wit_u with
  | work job =>
    obtain ⟨⟨pro, last_u⟩, hwork, hplea⟩ := Option.bind_eq_some_iff.mp hwrit
    obtain ⟨rfl, rfl⟩ := Prod.mk.inj (Option.some.inj hplea)
    obtain ⟨_, ⟨tac_u, hfact, haccept⟩ | ⟨hfact, rfl⟩⟩ := u3SerfWork_cases hready hwork
    · refine ⟨haccept.ready, ?_⟩
      have hdone := haccept.number.trans haccept.done.symm
      have hnumber := haccept.number
      have hmug := haccept.mug
      cases pro with
      | done eve_d mug_l vir =>
        obtain rfl := Option.some.inj hfact
        subst hdone hmug
        refine ⟨_, rfl, fun tac_u gif_u heq ↦ ?_⟩
        cases heq
        exact hnumber
      | swap eve_d mug_l job vir =>
        obtain rfl := Option.some.inj hfact
        subst hdone hmug
        refine ⟨_, rfl, fun tac_u gif_u heq ↦ ?_⟩
        cases heq
        exact hnumber
      | bail lud => simp [Work.fact] at hfact
    · refine ⟨hready, ?_⟩
      cases pro with
      | done eve_d mug_l vir => simp [Work.fact] at hfact
      | swap eve_d mug_l job vir => simp [Work.fact] at hfact
      | bail lud => exact ⟨_, rfl, by simp⟩
  | play fon_u =>
    obtain ⟨fir_u, ent_u, hfir, hent, hlast⟩ := (hbatch fon_u rfl).last
    simp only [lordWritMake, serfWrit] at hwrit
    split_ifs at hwrit with hempty
    obtain ⟨⟨pro, last_u⟩, hplay, hplea⟩ := Option.bind_eq_some_iff.mp hwrit
    obtain ⟨rfl, rfl⟩ := Prod.mk.inj (Option.some.inj hplea)
    obtain ⟨rfl, hdone, hready'⟩ := u3SerfPlay_done hready (by simpa using hempty)
      (haccepts _ _ rfl) hplay
    refine ⟨hready', .playDone fon_u last_u.mug_l, ?_, by simp⟩
    rw [hfir, Option.map_some, Option.getD_some, List.length_map] at hdone
    have heve : ent_u.eve_d = last_u.dun_d := by omega
    simp [answer, hent, heve]
  | peek =>
    obtain ⟨rfl, rfl⟩ := Prod.mk.inj (Option.some.inj hwrit)
    exact ⟨hready, _, rfl, by simp⟩
  | meld =>
    obtain ⟨rfl, rfl⟩ := Prod.mk.inj (Option.some.inj hwrit)
    exact ⟨hready, _, rfl, by simp⟩
  | pack =>
    obtain ⟨rfl, rfl⟩ := Prod.mk.inj (Option.some.inj hwrit)
    exact ⟨hready, _, rfl, by simp⟩
  | save =>
    simp only [lordWritMake, serfWrit] at hwrit
    split_ifs at hwrit
    obtain ⟨rfl, rfl⟩ := Prod.mk.inj (Option.some.inj hwrit)
    exact ⟨hready, _, rfl, by simp⟩
  | cram =>
    simp only [lordWritMake, serfWrit] at hwrit
    split_ifs at hwrit
    obtain ⟨rfl, rfl⟩ := Prod.mk.inj (Option.some.inj hwrit)
    exact ⟨hready, _, rfl, by simp⟩
  | exit => simp [lordWritMake, serfWrit] at hwrit

/-! ### Runs -/

theorem Net.Start.inv (hstart : net.Start arv) : net.Inv arv where
  ready := hstart.ready
  wf := ⟨by rw [hstart.dep, hstart.ext]; rfl, by rw [hstart.pin, hstart.ext]; rfl⟩
  hears := ⟨net.god_u, hstart.out ▸ .nil net.god_u, hstart.eve, hstart.mug,
    by rw [hstart.ext, hstart.inn]; exact .nil⟩
  snap_tail := by simp [hstart.inn]
  snap_head := by simp [hstart.inn]

theorem Net.Inv.send (hinv : net.Inv arv) (wit_u : Writ)
    (hbatch : ∀ fon_u, wit_u = .play fon_u → Batch fon_u) :
    ∃ god_u jar, lordSend net.god_u wit_u = .ok (god_u, jar) ∧ god_u.eve_d = net.god_u.eve_d ∧
      Net.Inv arv { net with god_u := god_u, inn := net.inn ++ jar.toList } := by
  rcases lordSend_cases hinv.wf wit_u with hsend | ⟨hsend, hsnap⟩
  · exact ⟨_, _, hsend, rfl, by simpa using hinv⟩
  · refine ⟨_, _, hsend, rfl, ?_⟩
    obtain ⟨last_u, hears, heve, hmug, hsent⟩ := hinv.hears
    have hmore : Sent wit_u (lordWritMake net.god_u wit_u) := ⟨⟨net.god_u, rfl⟩, hbatch⟩
    -- a snapshot is sent only when the serf has nothing left to take
    have halone : ∀ eve_d, (lordWritMake net.god_u wit_u).snap = some eve_d →
        net.inn = [] ∧ eve_d = net.sef_u.dun_d := by
      intro eve_d hsome
      have hkind : wit_u = .save ∨ wit_u = .cram := by
        cases wit_u <;> simp [lordWritMake, Jar.snap] at hsome ⊢
      obtain ⟨_, rfl⟩ := hears.of_ext_nil hinv.wf (hsnap hkind)
      rw [hsnap hkind] at hsent
      refine ⟨List.forall₂_nil_left_iff.mp hsent, ?_⟩
      rw [← heve]
      rcases hkind with rfl | rfl <;> exact (Option.some.inj hsome).symm
    refine ⟨hinv.ready, hinv.wf.push wit_u,
      ⟨last_u.push wit_u, hears.push hinv.wf wit_u, heve, hmug,
        List.rel_append hsent (.cons hmore .nil)⟩, ?_, ?_⟩
    · intro jar hjar
      by_cases hnil : net.inn = []
      · simp [hnil] at hjar
      · rw [List.tail_append_of_ne_nil hnil] at hjar
        rcases List.mem_append.mp hjar with hjar | hjar
        · exact hinv.snap_tail jar hjar
        · obtain rfl : jar = lordWritMake net.god_u wit_u := by simpa using hjar
          cases hsome : (lordWritMake net.god_u wit_u).snap with
          | none => rfl
          | some eve_d => exact absurd (halone eve_d hsome).1 hnil
    · intro jar hjar eve_d hsome
      by_cases hnil : net.inn = []
      · obtain rfl : lordWritMake net.god_u wit_u = jar := by simpa [hnil] using hjar
        exact (halone eve_d hsome).2
      · rw [List.head?_append_of_ne_nil _ hnil] at hjar
        exact hinv.snap_head jar hjar eve_d hsome

/-- The serf's turn keeps the invariant, when the kernel accepts what comes from the log. -/
theorem Net.Inv.serf {net' : Net} (hinv : net.Inv arv) {lim : Limits}
    (haccepted : LogAccepted arv net (.serf lim)) (hserf : netSerf arv net lim = some net') :
    net'.Inv arv := by
  obtain ⟨last_u, hears, heve, hmug, hsent⟩ := hinv.hears
  unfold netSerf at hserf
  cases hinn : net.inn with
  | nil => simp [hinn] at hserf
  | cons jar inn =>
    rw [hinn] at hserf hsent
    obtain ⟨wit_u, nex_u, hfirst, hrest, hext⟩ := List.forall₂_cons_right_iff.mp hsent
    cases hwrit : serfWrit arv lim net.sef_u jar with
    | none => simp [hwrit] at hserf
    | some res =>
      obtain ⟨plea, sef_u⟩ := res
      simp only [hwrit, Option.some.injEq] at hserf
      subst hserf
      obtain ⟨hready, cb, hanswer, hnext⟩ := serfWrit_answer hinv.ready hfirst
        (fun eve_d lit hjar ↦ haccepted eve_d lit (by rw [hinn, hjar]; rfl)) hwrit
      rw [← heve, ← hmug] at hanswer
      rw [← heve] at hnext
      have hplea := (lordOnPlea_iff (hears.wf hinv.wf)).mpr ⟨wit_u, nex_u, _, _, hext, hanswer, rfl⟩
      have htail : ∀ jar ∈ inn, jar.snap = none := by
        have hall := hinv.snap_tail
        rwa [hinn] at hall
      refine ⟨hready, hinv.wf, ⟨_, hears.concat hplea hnext, rfl, rfl, hrest⟩,
        fun jar hjar ↦ htail jar (List.mem_of_mem_tail hjar), fun jar hjar eve_d hsome ↦ ?_⟩
      rw [htail jar (List.mem_of_head? hjar)] at hsome
      simp at hsome

/-- Hearing a plea keeps the invariant: no plea is foul, and a new event has the next number. -/
theorem Net.Inv.hear (hinv : net.Inv arv) (hout : net.out = plea :: out) :
    ∃ god_u cb, lordOnPlea net.god_u plea = .ok (god_u, cb) ∧
      (∀ tac_u gif_u, cb = .workDone tac_u gif_u → tac_u.eve_d = net.god_u.eve_d + 1) ∧
      Net.Inv arv { net with god_u := god_u, out := out } := by
  obtain ⟨last_u, hears, hlast⟩ := hinv.hears
  rw [hout] at hears
  cases hears with
  | cons hplea hnext hrest =>
    exact ⟨_, _, hplea, hnext, hinv.ready, lordOnPlea_wf hinv.wf hplea, ⟨last_u, hrest, hlast⟩,
      hinv.snap_tail, hinv.snap_head⟩

theorem NetReach.inv (hreach : NetReach arv (LogAccepted arv) net) : net.Inv arv := by
  induction hreach with
  | start hstart => exact hstart.inv
  | step event _ hlegal hcond hstep ih =>
    cases event with
    | send wit_u =>
      have hbatch : ∀ fon_u, wit_u = .play fon_u → Batch fon_u := by
        rintro fon_u rfl
        exact hlegal
      obtain ⟨god_u, jar, hsend, _, hinv⟩ := ih.send wit_u hbatch
      simp only [netStep, netSend, hsend, Option.some.injEq] at hstep
      exact hstep ▸ hinv
    | serf lim => exact ih.serf hcond hstep
    | hear =>
      rename_i net net' _
      cases hout : net.out with
      | nil => simp [netStep, netHear, hout] at hstep
      | cons plea out =>
        obtain ⟨god_u, cb, hplea, _, hinv⟩ := ih.hear hout
        simp only [netStep, netHear, hout, hplea, Option.some.injEq] at hstep
        exact hstep ▸ hinv

/-- In every run in which the kernel accepts the events of the log, the lord and the serf agree when
no writ is outstanding. -/
theorem net_agree {net : Net} (hreach : NetReach arv (LogAccepted arv) net)
    (hquiet : net.god_u.ext_u = []) :
    net.god_u.eve_d = net.sef_u.dun_d ∧ net.god_u.mug_l = net.sef_u.mug_l := by
  have hinv := hreach.inv
  obtain ⟨last_u, hears, heve, hmug, _⟩ := hinv.hears
  obtain ⟨_, rfl⟩ := hears.of_ext_nil hinv.wf hquiet
  exact ⟨heve, hmug⟩

/-- The two sides after three events. -/
def tallyNet : Net where
  god_u := ⟨3, tally.mug (.atom 7), 0, [], false⟩
  inn := []
  sef_u := serfInit tally 3 (.atom 7) nul
  out := []

theorem tallyNet_start : tallyNet.Start tally :=
  ⟨serfInit_ready 3 (.atom 7) nul, rfl, rfl, rfl, rfl, rfl, rfl, rfl⟩

/-- A batch of one event. -/
theorem batch_single (tac_u : Fact) : Batch [tac_u] := ⟨tac_u.eve_d, by simp, by simp⟩

/-- A batch that the kernel accepts. -/
theorem net_agree_done : ∃ net, NetReach tally (LogAccepted tally) net ∧ net.god_u.ext_u = [] ∧
    net.sef_u.dun_d = 4 ∧
      (net.god_u.eve_d = net.sef_u.dun_d ∧ net.god_u.mug_l = net.sef_u.mug_l) := by
  obtain ⟨net₁, hsend, net₂, hserf, net₃, hhear, hinn, hsef, hquiet, hdone⟩ :
      ∃ net₁, netStep tally tallyNet (.send (.play [⟨4, 0, .cell (.atom 5) (.atom 0)⟩])) =
        some net₁ ∧
        ∃ net₂, netStep tally net₁ (.serf ⟨none, none, none⟩) = some net₂ ∧
          ∃ net₃, netStep tally net₂ .hear = some net₃ ∧
            net₁.inn = [.play 4 [.cell (.atom 5) (.atom 0)]] ∧
            net₁.sef_u = serfInit tally 3 (.atom 7) nul ∧ net₃.god_u.ext_u = [] ∧
            net₃.sef_u.dun_d = 4 :=
    ⟨_, rfl, _, rfl, _, rfl, rfl, rfl, rfl, rfl⟩
  have hfirst : NetReach tally (LogAccepted tally) net₁ :=
    .step (.send (.play [⟨4, 0, .cell (.atom 5) (.atom 0)⟩])) (.start tallyNet_start)
      (batch_single _) trivial hsend
  have haccepted : LogAccepted tally net₁ (.serf ⟨none, none, none⟩) := by
    intro eve_d lit hhead
    rw [hinn] at hhead
    obtain ⟨_, rfl⟩ := Jar.play.inj (Option.some.inj hhead)
    rw [hsef, Serf.AcceptsLog, if_neg (by decide)]
    rfl
  have hsecond : NetReach tally (LogAccepted tally) net₂ :=
    .step (.serf ⟨none, none, none⟩) hfirst trivial haccepted hserf
  have hthird : NetReach tally (LogAccepted tally) net₃ :=
    .step .hear hsecond trivial trivial hhear
  exact ⟨net₃, hthird, hquiet, hdone, net_agree hthird hquiet⟩

/-- A batch that the kernel rejects: the serf reports its last event, and the lord takes one away
from it. -/
theorem net_disagree : ∃ net, NetReach tally (fun _ _ ↦ True) net ∧ net.god_u.ext_u = [] ∧
    net.inn = [] ∧ net.out = [] ∧ net.sef_u.dun_d = 3 ∧ net.god_u.eve_d = 2 := by
  obtain ⟨net₁, hsend, net₂, hserf, net₃, hhear, hquiet⟩ :
      ∃ net₁, netStep tally tallyNet (.send (.play [⟨4, 0, .cell (.atom 5) (.atom 1)⟩])) =
        some net₁ ∧
        ∃ net₂, netStep tally net₁ (.serf ⟨none, none, none⟩) = some net₂ ∧
          ∃ net₃, netStep tally net₂ .hear = some net₃ ∧ net₃.god_u.ext_u = [] ∧
            net₃.inn = [] ∧ net₃.out = [] ∧ net₃.sef_u.dun_d = 3 ∧ net₃.god_u.eve_d = 2 :=
    ⟨_, rfl, _, rfl, _, rfl, rfl, rfl, rfl, rfl, rfl⟩
  have hfirst : NetReach tally (fun _ _ ↦ True) net₁ :=
    .step (.send (.play [⟨4, 0, .cell (.atom 5) (.atom 1)⟩])) (.start tallyNet_start)
      (batch_single _) trivial hsend
  have hsecond : NetReach tally (fun _ _ ↦ True) net₂ :=
    .step (.serf ⟨none, none, none⟩) hfirst trivial trivial hserf
  exact ⟨net₃, .step .hear hsecond trivial trivial hhear, hquiet⟩

end Vere.King
