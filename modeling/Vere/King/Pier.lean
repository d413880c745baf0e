import Vere.King.Lord
import Vere.Ur.Serial

/-!
# The working pier

`pkg/vere/pier.c`, once events are being processed. The lord reports computed events, which go to
the event log and whose effects are queued; the log reports what is on disk, and then the effects
are released. A barrier waits until the serf has nothing to do and everything is on disk. All of it
goes through `_pier_work()`, which also runs on every turn of the event loop.

The model is that of the lord and the serf (`Net`) with that of the event log (`Disk.Log`).
`pier_effects` says that effects are released once, in order and only when they are on disk, and
`pier_snapshots` that a snapshot has the serf's number, which is in the log.
-/

set_option autoImplicit false

namespace Vere.King

open Vere.Noun

/-! ### The state -/

/-- `u3_psat`, of a pier with a `u3_work`. -/
inductive Psat
  | work
  | done
  deriving DecidableEq

/-- What a barrier does: `_pier_save_cb()`, `_pier_cram_cb()` or `_pier_work_exit_cb()`. -/
inductive WallCb
  | save
  | cram
  | exit

/-- `u3_wall`. -/
structure Wall where
  eve_d : ℕ
  wal_f : WallCb

/-- What anyone can ask of the pier. -/
inductive Request
  | save
  | cram
  | meld
  | pack
  | exit
  | peek

/-- `u3_pier` with `u3_work`. `ext_u` is the queue of effects, `pec_u` the number of queued scries,
`kicked` the effects that the drivers have got, each with the last event on disk at the time,
`saved` the numbers of the snapshots, and `gone` whether the work has been closed. -/
structure Pier where
  net : Net
  log_u : Disk.Log Noun
  sat_e : Psat
  ext_u : List Gift
  rel_d : ℕ
  wal_u : List Wall
  pec_u : ℕ
  gone : Bool
  kicked : List (Gift × ℕ)
  saved : List ℕ

/-- An assertion of `pier.c`, `disk.c` or `lord.c`, a plea that the lord does not expect, or a serf
that stops. -/
inductive PierFault
  | giftPlan
  | giftNext
  | wallPlan
  | state
  | disk (failure : Disk.Assertion)
  | lord (fault : LordFault)
  | serf

/-- What the drivers do in a turn: what they ask for when they get effects, and the events that they
have, in order. -/
structure Drivers where
  kick : Gift → List Request
  eggs : List Noun

/-! ### Requests -/

/-- Send a writ. -/
def pierSend (pir_u : Pier) (wit_u : Writ) : Except PierFault Pier :=
  match lordSend pir_u.net.god_u wit_u with
  | .ok (god_u, jar) => .ok { pir_u with
      net := { pir_u.net with god_u := god_u, inn := pir_u.net.inn ++ jar.toList } }
  | .error fault => .error (.lord fault)

/-- The place of a barrier: after all that are not before it. -/
def wallInsert (wal_u : Wall) : List Wall → List Wall
  | [] => [wal_u]
  | las_u :: nex_u =>
    if wal_u.eve_d ≤ las_u.eve_d then las_u :: wallInsert wal_u nex_u else wal_u :: las_u :: nex_u

/-- `_pier_wall_plan()`: enqueue a barrier. -/
def pierWallPlan (pir_u : Pier) (eve_d : ℕ) (wal_f : WallCb) : Except PierFault Pier :=
  if pir_u.sat_e ≠ .work then .error .wallPlan
  else .ok { pir_u with wal_u := wallInsert ⟨eve_d, wal_f⟩ pir_u.wal_u }

/-- `u3_pier_save()`, `u3_pier_cram()`, `u3_pier_meld()`, `u3_pier_pack()`, `u3_pier_exit()` and
`u3_pier_peek()`. -/
def pierRequest (pir_u : Pier) : Request → Except PierFault Pier
  | .save => if pir_u.sat_e = .work then pierWallPlan pir_u 0 .save else .ok pir_u
  | .cram => if pir_u.sat_e = .work then pierWallPlan pir_u 0 .cram else .ok pir_u
  | .meld => pierSend pir_u .meld
  | .pack => pierSend pir_u .pack
  | .exit =>
    if pir_u.sat_e = .done then .ok pir_u
    else do
      let pir_u ← pierWallPlan pir_u 0 .save
      let pir_u ← pierWallPlan pir_u 0 .exit
      .ok { pir_u with sat_e := .done }
  | .peek => .ok { pir_u with pec_u := pir_u.pec_u + 1 }

def pierRequests (pir_u : Pier) : List Request → Except PierFault Pier
  | [] => .ok pir_u
  | req :: reqs => do
    let pir_u ← pierRequest pir_u req
    pierRequests pir_u reqs

/-! ### Work -/

/-- `_pier_gift_plan()`: enqueue effects. -/
def pierGiftPlan (pir_u : Pier) (gif_u : Gift) : Except PierFault Pier :=
  if ¬pir_u.rel_d < gif_u.eve_d then .error .giftPlan
  else .ok { pir_u with ext_u := pir_u.ext_u ++ [gif_u] }

/-- `_pier_gift_kick()` with `_pier_gift_next()`, over the queue: apply effects. -/
def pierGiftKick (kick : Gift → List Request) : List Gift → Pier → Except PierFault Pier
  | [], pir_u => .ok pir_u
  | gif_u :: nex_u, pir_u =>
    if pir_u.log_u.dun_d < gif_u.eve_d then .ok pir_u
    else if 1 + pir_u.rel_d ≠ gif_u.eve_d then .error .giftNext
    else do
      let pir_u ← pierRequests { pir_u with
        ext_u := nex_u, rel_d := gif_u.eve_d
        kicked := pir_u.kicked ++ [(gif_u, pir_u.log_u.dun_d)] } (kick gif_u)
      pierGiftKick kick nex_u pir_u

/-- The call of a barrier. -/
def pierWallCb (pir_u : Pier) : WallCb → Except PierFault Pier
  | .save => pierSend pir_u .save
  | .cram => pierSend pir_u .cram
  | .exit => do
    let pir_u ← pierSend pir_u .exit
    .ok { pir_u with gone := true }

/-- The loop of `_pier_wall()`, over the barriers. -/
def pierWallLoop : List Wall → Pier → Except PierFault Pier
  | [], pir_u => .ok pir_u
  | wal_u :: nex_u, pir_u =>
    if pir_u.net.god_u.dep_w = 0 ∧ wal_u.eve_d ≤ pir_u.net.god_u.eve_d then do
      let pir_u ← pierWallCb { pir_u with wal_u := nex_u } wal_u.wal_f
      pierWallLoop nex_u pir_u
    else .ok pir_u

/-- `_pier_wall()`: process barriers if possible. -/
def pierWall (pir_u : Pier) : Except PierFault Pier :=
  if pir_u.net.god_u.eve_d = pir_u.log_u.dun_d then pierWallLoop pir_u.wal_u pir_u else .ok pir_u

/-- The first loop of `_pier_work_send()`: events, with a scry after each. -/
def pierWorkSendEggs : List Noun → ℕ → Pier → Except PierFault (ℕ × Pier)
  | [], len_w, pir_u => .ok (len_w, pir_u)
  | job :: eggs, len_w, pir_u =>
    if len_w = 0 then .ok (0, pir_u)
    else do
      let pir_u ← pierSend pir_u (.work job)
      if len_w - 1 ≠ 0 ∧ pir_u.pec_u ≠ 0 then do
        let pir_u ← pierSend { pir_u with pec_u := pir_u.pec_u - 1 } .peek
        pierWorkSendEggs eggs (len_w - 2) pir_u
      else pierWorkSendEggs eggs (len_w - 1) pir_u

/-- The second loop of `_pier_work_send()`: scries. -/
def pierWorkSendPeeks : ℕ → Pier → Except PierFault Pier
  | 0, pir_u => .ok pir_u
  | len_w + 1, pir_u =>
    if pir_u.pec_u = 0 then .ok pir_u
    else do
      let pir_u ← pierSend { pir_u with pec_u := pir_u.pec_u - 1 } .peek
      pierWorkSendPeeks len_w pir_u

/-- `PIER_WORK_BATCH`. -/
def pierWorkBatch : ℕ := 10

/-- The size of a batch of work, a word: there is none while a barrier waits for an event that has
been sent. -/
def pierWorkLen (pir_u : Pier) : ℕ :=
  match pir_u.wal_u with
  | [] => pierWorkBatch - pir_u.net.god_u.dep_w
  | wal_u :: _ => (wal_u.eve_d - (pir_u.net.god_u.eve_d + pir_u.net.god_u.dep_w)) % 2 ^ 32

/-- `_pier_work_send()`: send new events for processing. -/
def pierWorkSend (pir_u : Pier) (eggs : List Noun) : Except PierFault Pier := do
  let (len_w, pir_u) ← pierWorkSendEggs eggs (pierWorkLen pir_u) pir_u
  pierWorkSendPeeks len_w pir_u

/-- `_pier_work()`: advance event processing. -/
def pierWork (pir_u : Pier) (car_u : Drivers) : Except PierFault Pier := do
  let pir_u ← pierGiftKick car_u.kick pir_u.ext_u pir_u
  let pir_u ← pierWall pir_u
  if pir_u.sat_e = .work then pierWorkSend pir_u car_u.eggs else .ok pir_u

/-! ### Events -/

variable (jam : Noun → List UInt8)

/-- `_pier_on_lord_work_done()`: event completion from worker. -/
def pierOnLordWorkDone (pir_u : Pier) (car_u : Drivers) (tac_u : Fact) (gif_u : Gift) :
    Except PierFault Pier :=
  match Disk.diskPlan jam pir_u.log_u tac_u with
  | .error failure => .error (.disk failure)
  | .ok log_u => do
    let pir_u ← pierGiftPlan { pir_u with log_u := log_u } gif_u
    pierWork pir_u car_u

/-- `_pier_on_lord_wyrd_done()`, when the versions agree: the event goes to the log,
`_pier_work_init()` begins to process events, and then the effects are queued. -/
def pierOnLordWyrdDone (pir_u : Pier) (car_u : Drivers) (tac_u : Fact) (gif_u : Gift) :
    Except PierFault Pier :=
  match Disk.diskPlan jam pir_u.log_u tac_u with
  | .error failure => .error (.disk failure)
  | .ok log_u => do
    let pir_u ← pierWork { pir_u with log_u := log_u, sat_e := .work, rel_d := log_u.dun_d } car_u
    pierGiftPlan pir_u gif_u

/-- The calls back from the lord. A batch from the log is not expected. -/
def pierCallback (pir_u : Pier) (car_u : Drivers) : Callback → Except PierFault Pier
  | .workDone tac_u gif_u => pierOnLordWorkDone jam pir_u car_u tac_u gif_u
  | .workBail => pierWork pir_u car_u
  | .playDone _ _ => .error .state
  | .playBail _ _ _ => .error .state
  | _ => .ok pir_u

/-- `_lord_on_plea()` of the next plea. -/
def pierHear (pir_u : Pier) (car_u : Drivers) : Except PierFault Pier :=
  match pir_u.net.out with
  | [] => .ok pir_u
  | plea :: out =>
    match lordOnPlea pir_u.net.god_u plea with
    | .error fault => .error (.lord fault)
    | .ok (god_u, cb) =>
      pierCallback jam { pir_u with net := { pir_u.net with god_u := god_u, out := out } } car_u cb

/-- The serf takes the next writ. -/
def pierSerf (arv : Arvo) (pir_u : Pier) (lim : Limits) : Except PierFault Pier :=
  match pir_u.net.inn with
  | [] => .ok pir_u
  | jar :: inn =>
    match serfWrit arv lim pir_u.net.sef_u jar with
    | none => .error .serf
    | some (plea, sef_u) => .ok { pir_u with
        net := { pir_u.net with inn := inn, sef_u := sef_u, out := pir_u.net.out ++ [plea] }
        saved := pir_u.saved ++ (jar.snap.map fun _ ↦ sef_u.eve_d).toList }

/-- `_disk_commit_cb()`: a write off the main thread. -/
def pierCommitCb (pir_u : Pier) (index : ℕ) (fault : Bool) : Except PierFault Pier :=
  match Disk.step jam pir_u.log_u (.commitCb index fault) with
  | .error failure => .error (.disk failure)
  | .ok log_u => .ok { pir_u with log_u := log_u }

/-- `_disk_commit_after_cb()`: the write is complete. Of the log, `_pier_on_disk_write_done()` reads
only the last event on disk; `_pier_on_disk_write_bail()` ends the work. -/
def pierCommitAfterCb (pir_u : Pier) (index : ℕ) (car_u : Drivers) : Except PierFault Pier :=
  match pir_u.log_u.pool[index]?, Disk.step jam pir_u.log_u (.commitAfterCb index) with
  | _, .error failure => .error (.disk failure)
  | none, .ok log_u => .ok { pir_u with log_u := log_u }
  | some (req_u, _), .ok log_u =>
    if req_u.ret_o then pierWork { pir_u with log_u := log_u } car_u
    else .ok { pir_u with log_u := log_u, gone := true }

/-- What can happen: a plea, the serf's turn, a write off the main thread and its completion, a turn
of the event loop, and a request. -/
inductive PierEvent
  | hear (car_u : Drivers)
  | serf (lim : Limits)
  | commitCb (index : ℕ) (fault : Bool)
  | commitAfterCb (index : ℕ) (car_u : Drivers)
  | loop (car_u : Drivers)
  | request (req : Request)

/-- One event. -/
def pierStep (arv : Arvo) (pir_u : Pier) : PierEvent → Except PierFault Pier
  | .hear car_u => pierHear jam pir_u car_u
  | .serf lim => pierSerf arv pir_u lim
  | .commitCb index fault => pierCommitCb jam pir_u index fault
  | .commitAfterCb index car_u => pierCommitAfterCb jam pir_u index car_u
  | .loop car_u => pierWork pir_u car_u
  | .request req => pierRequest pir_u req

/-- The events that can happen: a write runs once, and a completion is delivered after its write. -/
def PierEvent.Enabled (pir_u : Pier) : PierEvent → Prop
  | .commitCb index fault => Disk.Enabled pir_u.log_u (.commitCb index fault)
  | .commitAfterCb index _ => Disk.Enabled pir_u.log_u (.commitAfterCb index)
  | _ => True

/-- The effects that an event reports. -/
def reported (pir_u : Pier) : PierEvent → List Gift
  | .hear _ =>
    match pir_u.net.out with
    | [] => []
    | plea :: _ =>
      match lordOnPlea pir_u.net.god_u plea with
      | .ok (_, .workDone _ gif_u) => [gif_u]
      | _ => []
  | _ => []

/-- A pier that starts to work: the counters agree, nothing is queued, and the log is at rest. Writs
can be outstanding, other than batches from the log, and so can barriers. -/
structure Pier.Start (arv : Arvo) (pir_u : Pier) : Prop where
  net : pir_u.net.Inv arv
  noPlay : ∀ fon_u, .play fon_u ∉ pir_u.net.god_u.ext_u
  snap : ∀ jar ∈ pir_u.net.inn, ∀ eve_d, jar.snap = some eve_d → eve_d ≤ pir_u.log_u.dun_d
  log : Disk.Start pir_u.log_u
  eve : pir_u.net.god_u.eve_d = pir_u.log_u.dun_d
  rel : pir_u.rel_d = pir_u.log_u.dun_d
  ext : pir_u.ext_u = []
  live : pir_u.gone = false
  kicked : pir_u.kicked = []
  saved : pir_u.saved = []

/-- The states of a pier, with the effects reported on the way, until its work is closed. The work
starts with the plea that answers `%wyrd`, or with nothing to report. -/
inductive PierReach (arv : Arvo) (start : Pier) : List Gift → Pier → Prop
  | start : PierReach arv start [] start
  | wyrd {plea : Plea} {out : List Plea} {god_u : Lord} {tac_u : Fact} {gif_u : Gift} {pir_u : Pier}
      (car_u : Drivers) (hout : start.net.out = plea :: out)
      (hplea : lordOnPlea start.net.god_u plea = .ok (god_u, .workDone tac_u gif_u))
      (hstep : pierOnLordWyrdDone jam
        { start with net := { start.net with god_u := god_u, out := out } } car_u tac_u gif_u =
          .ok pir_u) :
      PierReach arv start [gif_u] pir_u
  | step {gifts : List Gift} {pir_u pir_u' : Pier} (event : PierEvent)
      (hreach : PierReach arv start gifts pir_u) (hlive : pir_u.gone = false)
      (henabled : event.Enabled pir_u) (hstep : pierStep jam arv pir_u event = .ok pir_u') :
      PierReach arv start (gifts ++ reported pir_u event) pir_u'

/-! ### Writs -/

variable {jam}
variable {arv : Arvo} {start : Disk.Log Noun} {facts : List Fact} {pir_u pir_u' : Pier}

/-- The lord, the serf and the log in step. -/
structure Pier.Core (arv : Arvo) (jam : Noun → List UInt8) (start : Disk.Log Noun)
    (facts : List Fact) (pir_u : Pier) : Prop where
  net : pir_u.net.Inv arv
  noPlay : ∀ fon_u, .play fon_u ∉ pir_u.net.god_u.ext_u
  log : Disk.Inv jam start facts pir_u.log_u
  eve : pir_u.net.god_u.eve_d = pir_u.log_u.sen_d
  snap : ∀ jar ∈ pir_u.net.inn, ∀ eve_d, jar.snap = some eve_d → eve_d ≤ pir_u.log_u.dun_d

/-- What sending and asking leave alone. -/
structure Frame (pir_u pir_u' : Pier) : Prop where
  eve : pir_u'.net.god_u.eve_d = pir_u.net.god_u.eve_d
  log : pir_u'.log_u = pir_u.log_u
  ext : pir_u'.ext_u = pir_u.ext_u
  rel : pir_u'.rel_d = pir_u.rel_d
  kicked : pir_u'.kicked = pir_u.kicked
  saved : pir_u'.saved = pir_u.saved

theorem Frame.refl (pir_u : Pier) : Frame pir_u pir_u := ⟨rfl, rfl, rfl, rfl, rfl, rfl⟩

theorem Pier.frame_wal (pir_u : Pier) (wals : List Wall) :
    Frame pir_u { pir_u with wal_u := wals } :=
  ⟨rfl, rfl, rfl, rfl, rfl, rfl⟩

theorem Pier.frame_pec (pir_u : Pier) (pec_u : ℕ) : Frame pir_u { pir_u with pec_u := pec_u } :=
  ⟨rfl, rfl, rfl, rfl, rfl, rfl⟩

theorem Frame.trans {fir_u mid_u last_u : Pier} (hfirst : Frame fir_u mid_u)
    (hlast : Frame mid_u last_u) : Frame fir_u last_u :=
  ⟨hlast.eve.trans hfirst.eve, hlast.log.trans hfirst.log, hlast.ext.trans hfirst.ext,
    hlast.rel.trans hfirst.rel, hlast.kicked.trans hfirst.kicked, hlast.saved.trans hfirst.saved⟩

/-- A call that succeeds, and leaves alone what sending and asking do. -/
def Keeping (arv : Arvo) (jam : Noun → List UInt8) (start : Disk.Log Noun) (facts : List Fact)
    (pir_u : Pier) (res : Except PierFault Pier) : Prop :=
  ∃ pir_u', res = .ok pir_u' ∧ pir_u'.Core arv jam start facts ∧ Frame pir_u pir_u'

theorem Keeping.bind {res : Except PierFault Pier} {next : Pier → Except PierFault Pier}
    (hres : Keeping arv jam start facts pir_u res)
    (hnext : ∀ mid_u, mid_u.Core arv jam start facts → Frame pir_u mid_u →
      Keeping arv jam start facts mid_u (next mid_u)) :
    Keeping arv jam start facts pir_u (res >>= next) := by
  obtain ⟨mid_u, rfl, hcore, hframe⟩ := hres
  obtain ⟨last_u, hlast, hcore', hframe'⟩ := hnext mid_u hcore hframe
  exact ⟨last_u, hlast, hcore', hframe.trans hframe'⟩

/-- Sending a writ of the working pier. A snapshot is sent only when everything is on disk. -/
theorem Pier.Core.send (hcore : pir_u.Core arv jam start facts) (wit_u : Writ)
    (hplay : ∀ fon_u, wit_u ≠ .play fon_u)
    (hsnap : wit_u = .save ∨ wit_u = .cram → pir_u.net.god_u.eve_d ≤ pir_u.log_u.dun_d) :
    Keeping arv jam start facts pir_u (pierSend pir_u wit_u) := by
  obtain ⟨god_u, jar, hsend, heve, hinv⟩ :=
    hcore.net.send wit_u fun fon_u heq ↦ absurd heq (hplay fon_u)
  refine ⟨{ pir_u with
      net := { pir_u.net with god_u := god_u, inn := pir_u.net.inn ++ jar.toList } },
    by simp only [pierSend, hsend], ?_, heve, rfl, rfl, rfl, rfl, rfl⟩
  rcases lordSend_cases hcore.net.wf wit_u with hcase | ⟨hcase, _⟩
  · obtain ⟨rfl, rfl⟩ := Prod.mk.inj (Except.ok.inj (hsend.symm.trans hcase))
    exact ⟨hinv, hcore.noPlay, hcore.log, hcore.eve, by simpa using hcore.snap⟩
  · obtain ⟨rfl, rfl⟩ := Prod.mk.inj (Except.ok.inj (hsend.symm.trans hcase))
    refine ⟨hinv, fun fon_u hmem ↦ ?_, hcore.log, hcore.eve, fun jar hjar eve_d hsome ↦ ?_⟩
    · rcases List.mem_append.mp hmem with hmem | hmem
      · exact hcore.noPlay fon_u hmem
      · exact hplay fon_u (List.mem_singleton.mp hmem).symm
    · rcases List.mem_append.mp hjar with hjar | hjar
      · exact hcore.snap jar hjar eve_d hsome
      · obtain rfl : jar = lordWritMake pir_u.net.god_u wit_u := by simpa using hjar
        cases wit_u with
        | save => exact Option.some.inj hsome ▸ hsnap (.inl rfl)
        | cram => exact Option.some.inj hsome ▸ hsnap (.inr rfl)
        | _ => simp [lordWritMake, Jar.snap] at hsome

theorem Keeping.mono {mid_u : Pier} {res : Except PierFault Pier} (hframe : Frame pir_u mid_u)
    (hres : Keeping arv jam start facts mid_u res) : Keeping arv jam start facts pir_u res := by
  obtain ⟨last_u, hlast, hcore, hframe'⟩ := hres
  exact ⟨last_u, hlast, hcore, hframe.trans hframe'⟩

theorem Pier.Core.congr (hcore : pir_u.Core arv jam start facts) (hnet : pir_u'.net = pir_u.net)
    (hlog : pir_u'.log_u = pir_u.log_u) : pir_u'.Core arv jam start facts := by
  refine ⟨hnet ▸ hcore.net, hnet ▸ hcore.noPlay, hlog ▸ hcore.log, ?_, ?_⟩
  · rw [hnet, hlog]
    exact hcore.eve
  · rw [hnet, hlog]
    exact hcore.snap

theorem Keeping.of_frame (hcore : pir_u.Core arv jam start facts) (hnet : pir_u'.net = pir_u.net)
    (hframe : Frame pir_u pir_u') : Keeping arv jam start facts pir_u (.ok pir_u') :=
  ⟨pir_u', rfl, hcore.congr hnet hframe.log, hframe⟩

/-- Requests keep the core. -/
theorem Pier.Core.request (hcore : pir_u.Core arv jam start facts) (req : Request) :
    Keeping arv jam start facts pir_u (pierRequest pir_u req) := by
  have hwall : ∀ {pir_u : Pier} (wal_f : WallCb), pir_u.Core arv jam start facts →
      pir_u.sat_e = .work → Keeping arv jam start facts pir_u (pierWallPlan pir_u 0 wal_f) := by
    intro pir_u wal_f hcore hsat
    rw [pierWallPlan, if_neg (not_not.mpr hsat)]
    exact .of_frame hcore rfl ⟨rfl, rfl, rfl, rfl, rfl, rfl⟩
  cases req with
  | save =>
    by_cases hsat : pir_u.sat_e = .work
    · simpa only [pierRequest, if_pos hsat] using hwall .save hcore hsat
    · simpa only [pierRequest, if_neg hsat] using .of_frame hcore rfl (.refl pir_u)
  | cram =>
    by_cases hsat : pir_u.sat_e = .work
    · simpa only [pierRequest, if_pos hsat] using hwall .cram hcore hsat
    · simpa only [pierRequest, if_neg hsat] using .of_frame hcore rfl (.refl pir_u)
  | meld => exact hcore.send .meld (by simp) (by simp)
  | pack => exact hcore.send .pack (by simp) (by simp)
  | peek => exact .of_frame hcore rfl ⟨rfl, rfl, rfl, rfl, rfl, rfl⟩
  | exit =>
    by_cases hsat : pir_u.sat_e = .done
    · simpa only [pierRequest, if_pos hsat] using .of_frame hcore rfl (.refl pir_u)
    · have hwork : pir_u.sat_e = .work := by
        cases hcases : pir_u.sat_e with
        | work => rfl
        | done => exact absurd hcases hsat
      simp only [pierRequest, pierWallPlan, hwork, ne_eq, not_true_eq_false, if_false, bind,
        Except.bind]
      exact .of_frame hcore rfl ⟨rfl, rfl, rfl, rfl, rfl, rfl⟩

theorem Pier.Core.requests (hcore : pir_u.Core arv jam start facts) (reqs : List Request) :
    Keeping arv jam start facts pir_u (pierRequests pir_u reqs) := by
  induction reqs generalizing pir_u with
  | nil => exact .of_frame hcore rfl (.refl pir_u)
  | cons req reqs ih => exact (hcore.request req).bind fun mid_u hmid _ ↦ ih hmid

/-! ### Barriers and new work -/

theorem Pier.Core.wallLoop (hcore : pir_u.Core arv jam start facts)
    (hsaved : pir_u.net.god_u.eve_d = pir_u.log_u.dun_d) (wals : List Wall) :
    Keeping arv jam start facts pir_u (pierWallLoop wals pir_u) := by
  induction wals generalizing pir_u with
  | nil => exact .of_frame hcore rfl (.refl pir_u)
  | cons wal_u nex_u ih =>
    unfold pierWallLoop
    split_ifs with hready
    · have hcore' : Pier.Core arv jam start facts { pir_u with wal_u := nex_u } :=
        hcore.congr rfl rfl
      have hcb : Keeping arv jam start facts pir_u
          (pierWallCb { pir_u with wal_u := nex_u } wal_u.wal_f) := by
        refine Keeping.mono (pir_u.frame_wal nex_u) ?_
        cases wal_u.wal_f with
        | save => exact hcore'.send .save (by simp) fun _ ↦ hsaved.le
        | cram => exact hcore'.send .cram (by simp) fun _ ↦ hsaved.le
        | exit =>
          refine Keeping.bind (hcore'.send .exit (by simp) (by simp)) fun last_u hlast hframe ↦ ?_
          exact .of_frame hlast rfl ⟨rfl, rfl, rfl, rfl, rfl, rfl⟩
      refine hcb.bind fun last_u hlast hframe ↦ ih hlast ?_
      rw [hframe.eve, hframe.log]
      exact hsaved
    · exact .of_frame hcore rfl (.refl pir_u)

theorem Pier.Core.wall (hcore : pir_u.Core arv jam start facts) :
    Keeping arv jam start facts pir_u (pierWall pir_u) := by
  unfold pierWall
  split_ifs with hsaved
  · exact hcore.wallLoop hsaved pir_u.wal_u
  · exact .of_frame hcore rfl (.refl pir_u)

/-- Sending a scry. -/
theorem Pier.Core.peek (hcore : pir_u.Core arv jam start facts) :
    Keeping arv jam start facts pir_u (pierSend { pir_u with pec_u := pir_u.pec_u - 1 } .peek) := by
  have hcore' : Pier.Core arv jam start facts { pir_u with pec_u := pir_u.pec_u - 1 } :=
    hcore.congr rfl rfl
  exact .mono (pir_u.frame_pec (pir_u.pec_u - 1)) (hcore'.send .peek (by simp) (by simp))

theorem Pier.Core.sendPeeks (hcore : pir_u.Core arv jam start facts) (len_w : ℕ) :
    Keeping arv jam start facts pir_u (pierWorkSendPeeks len_w pir_u) := by
  induction len_w generalizing pir_u with
  | zero => exact .of_frame hcore rfl (.refl pir_u)
  | succ len_w ih =>
    unfold pierWorkSendPeeks
    split_ifs with hnone
    · exact .of_frame hcore rfl (.refl pir_u)
    · exact hcore.peek.bind fun mid_u hmid _ ↦ ih hmid

theorem Pier.Core.sendEggs (hcore : pir_u.Core arv jam start facts) (eggs : List Noun) (len_w : ℕ) :
    Keeping arv jam start facts pir_u (pierWorkSendEggs eggs len_w pir_u >>= fun (len_w, pir_u) ↦
      pierWorkSendPeeks len_w pir_u) := by
  induction eggs generalizing pir_u len_w with
  | nil => exact hcore.sendPeeks len_w
  | cons job eggs ih =>
    unfold pierWorkSendEggs
    split_ifs with hzero
    · exact hcore.sendPeeks 0
    · rw [bind_assoc]
      refine (hcore.send (.work job) (by simp) (by simp)).bind fun mid_u hmid _ ↦ ?_
      split_ifs with hpeek
      · rw [bind_assoc]
        exact hmid.peek.bind fun last_u hlast _ ↦ ih hlast _
      · exact ih hmid _

/-! ### Effects -/

/-- The queue of effects is numbered from the last released event on. -/
def Pier.Queued (pir_u : Pier) : Prop :=
  (pir_u.ext_u.map Gift.eve_d) = List.range' (pir_u.rel_d + 1) pir_u.ext_u.length

/-- What `_pier_gift_kick()` does: effects go from the queue to the drivers, until one is not on
disk. -/
structure Released (pir_u pir_u' : Pier) : Prop where
  eve : pir_u'.net.god_u.eve_d = pir_u.net.god_u.eve_d
  log : pir_u'.log_u = pir_u.log_u
  saved : pir_u'.saved = pir_u.saved
  queued : pir_u'.Queued
  gifts : pir_u'.kicked.map Prod.fst ++ pir_u'.ext_u = pir_u.kicked.map Prod.fst ++ pir_u.ext_u
  rel : pir_u'.rel_d + pir_u.kicked.length = pir_u.rel_d + pir_u'.kicked.length
  ondisk : ∀ item ∈ pir_u'.kicked, item ∈ pir_u.kicked ∨
    item.2 = pir_u.log_u.dun_d ∧ item.1.eve_d ≤ item.2
  rest : ∀ gif_u ∈ pir_u'.ext_u, pir_u.log_u.dun_d < gif_u.eve_d

theorem Frame.released {mid_u : Pier} (hreleased : Released pir_u mid_u)
    (hframe : Frame mid_u pir_u') : Released pir_u pir_u' where
  eve := hframe.eve.trans hreleased.eve
  log := hframe.log.trans hreleased.log
  saved := hframe.saved.trans hreleased.saved
  queued := by
    rw [Pier.Queued, hframe.ext, hframe.rel]
    exact hreleased.queued
  gifts := by rw [hframe.kicked, hframe.ext, hreleased.gifts]
  rel := by rw [hframe.rel, hframe.kicked, hreleased.rel]
  ondisk := hframe.kicked ▸ hreleased.ondisk
  rest := hframe.ext ▸ hreleased.rest

theorem Pier.Core.giftKick (hcore : pir_u.Core arv jam start facts) (hqueued : pir_u.Queued)
    (kick : Gift → List Request) :
    ∃ pir_u', pierGiftKick kick pir_u.ext_u pir_u = .ok pir_u' ∧ pir_u'.Core arv jam start facts ∧
      Released pir_u pir_u' := by
  generalize hext : pir_u.ext_u = gifs
  induction gifs generalizing pir_u with
  | nil =>
    exact ⟨pir_u, rfl, hcore, rfl, rfl, rfl, hqueued, rfl, rfl, fun item hitem ↦ .inl hitem,
      by simp [hext]⟩
  | cons gif_u nex_u ih =>
    have hnumber := hqueued
    rw [Pier.Queued, hext, List.map_cons, List.length_cons, List.range'_succ,
      List.cons.injEq] at hnumber
    obtain ⟨hfirst, hrest⟩ := hnumber
    unfold pierGiftKick
    by_cases hwait : pir_u.log_u.dun_d < gif_u.eve_d
    · rw [if_pos hwait]
      refine ⟨pir_u, rfl, hcore, rfl, rfl, rfl, hqueued, rfl, rfl, fun item hitem ↦ .inl hitem, ?_⟩
      intro later hlater
      have hmem : later.eve_d ∈ List.range' (pir_u.rel_d + 1) pir_u.ext_u.length := by
        rw [← hqueued]
        exact List.mem_map_of_mem hlater
      have hge := (List.mem_range'_1.mp hmem).1
      omega
    · rw [if_neg hwait, if_neg (by omega)]
      -- the effects of the first event go out
      generalize hout : ({ pir_u with
        ext_u := nex_u, rel_d := gif_u.eve_d
        kicked := pir_u.kicked ++ [(gif_u, pir_u.log_u.dun_d)] } : Pier) = out_u
      have hcore' : out_u.Core arv jam start facts := hcore.congr (by rw [← hout]) (by rw [← hout])
      obtain ⟨mid_u, hmid, hmidCore, hframe⟩ := hcore'.requests (kick gif_u)
      have hmidExt : mid_u.ext_u = nex_u := by rw [hframe.ext, ← hout]
      have hmidQueued : mid_u.Queued := by
        rw [Pier.Queued, hmidExt, hframe.rel, ← hout]
        show nex_u.map Gift.eve_d = List.range' (gif_u.eve_d + 1) nex_u.length
        rw [hfirst]
        exact hrest
      obtain ⟨last_u, hlast, hlastCore, hreleased⟩ := ih hmidCore hmidQueued hmidExt
      simp only [hmid, bind, Except.bind]
      refine ⟨last_u, hlast, hlastCore, ?_, ?_, ?_, hreleased.queued, ?_, ?_, ?_, ?_⟩
      · rw [hreleased.eve, hframe.eve, ← hout]
      · rw [hreleased.log, hframe.log, ← hout]
      · rw [hreleased.saved, hframe.saved, ← hout]
      · rw [hreleased.gifts, hframe.kicked, hmidExt, ← hout, hext]
        simp
      · have hrel := hreleased.rel
        rw [hframe.rel, hframe.kicked, ← hout] at hrel
        simp only [List.length_append, List.length_singleton] at hrel
        omega
      · intro item hitem
        rcases hreleased.ondisk item hitem with hold | hnew
        · rw [hframe.kicked, ← hout] at hold
          rcases List.mem_append.mp hold with hold | hgift
          · exact .inl hold
          · obtain rfl := List.mem_singleton.mp hgift
            exact .inr ⟨rfl, Nat.not_lt.mp hwait⟩
        · rw [hframe.log, ← hout] at hnew
          exact .inr hnew
      · intro later hlater
        have hwaits := hreleased.rest later hlater
        rwa [hframe.log, ← hout] at hwaits

/-- `_pier_work()` releases what is on disk, and sends what it can. -/
theorem Pier.Core.work (hcore : pir_u.Core arv jam start facts) (hqueued : pir_u.Queued)
    (car_u : Drivers) :
    ∃ pir_u', pierWork pir_u car_u = .ok pir_u' ∧ pir_u'.Core arv jam start facts ∧
      Released pir_u pir_u' := by
  obtain ⟨mid_u, hmid, hmidCore, hreleased⟩ := hcore.giftKick hqueued car_u.kick
  have hrest : Keeping arv jam start facts mid_u (pierWall mid_u >>= fun pir_u ↦
      if pir_u.sat_e = .work then pierWorkSend pir_u car_u.eggs else .ok pir_u) := by
    refine hmidCore.wall.bind fun wal_u hwal _ ↦ ?_
    split_ifs with hsat
    · exact hwal.sendEggs car_u.eggs (pierWorkLen wal_u)
    · exact .of_frame hwal rfl (.refl wal_u)
  obtain ⟨last_u, hlast, hlastCore, hframe⟩ := hrest
  refine ⟨last_u, ?_, hlastCore, hframe.released hreleased⟩
  rw [pierWork, hmid]
  exact hlast

/-! ### Pleas -/

/-- The next plea: a new event with the next number, or one that does not count. -/
inductive Heard (god_u god_u' : Lord) : Callback → Prop
  | done (tac_u : Fact) (gif_u : Gift) (hnumber : tac_u.eve_d = god_u.eve_d + 1)
      (hgift : gif_u.eve_d = tac_u.eve_d) (heve : god_u'.eve_d = tac_u.eve_d) :
      Heard god_u god_u' (.workDone tac_u gif_u)
  | bail (heve : god_u'.eve_d = god_u.eve_d) : Heard god_u god_u' .workBail
  | quiet {cb : Callback} (heve : god_u'.eve_d = god_u.eve_d)
      (hquiet : cb = .peek ∨ cb = .save ∨ cb = .cram ∨ cb = .none) : Heard god_u god_u' cb

/-- No batch from the log is outstanding, so none is answered. -/
theorem heard_of_plea {god_u god_u' : Lord} {plea : Plea} {cb : Callback} (hwf : god_u.Wf)
    (hnoPlay : ∀ fon_u, .play fon_u ∉ god_u.ext_u)
    (hplea : lordOnPlea god_u plea = .ok (god_u', cb))
    (hnext : ∀ tac_u gif_u, cb = .workDone tac_u gif_u → tac_u.eve_d = god_u.eve_d + 1) :
    (∀ fon_u, .play fon_u ∉ god_u'.ext_u) ∧ Heard god_u god_u' cb := by
  obtain ⟨wit_u, nex_u, eve_d, mug_l, hext, hanswer, rfl⟩ := (lordOnPlea_iff hwf).mp hplea
  rw [hext] at hnoPlay
  refine ⟨fun fon_u hmem ↦ hnoPlay fon_u (List.mem_cons_of_mem _ hmem), ?_⟩
  cases wit_u with
  | work job =>
    cases plea with
    | work pro =>
      cases pro with
      | done eve_d mug_l vir =>
        cases Option.some.inj hanswer
        exact .done _ _ (hnext _ _ rfl) rfl rfl
      | swap eve_d mug_l job vir =>
        cases Option.some.inj hanswer
        exact .done _ _ (hnext _ _ rfl) rfl rfl
      | bail lud =>
        cases Option.some.inj hanswer
        exact .bail rfl
    | _ => simp [answer] at hanswer
  | play fon_u => exact absurd List.mem_cons_self (hnoPlay fon_u)
  | exit => simp [answer] at hanswer
  | peek =>
    cases plea with
    | peek =>
      cases Option.some.inj hanswer
      exact .quiet rfl (by simp)
    | _ => simp [answer] at hanswer
  | _ =>
    cases plea with
    | live =>
      cases Option.some.inj hanswer
      exact .quiet rfl (by simp)
    | _ => simp [answer] at hanswer

theorem Hears.eve_le {god_u god_u' : Lord} {out : List Plea} (hears : Hears god_u out god_u')
    (hwf : god_u.Wf) (hnoPlay : ∀ fon_u, .play fon_u ∉ god_u.ext_u) :
    god_u.eve_d ≤ god_u'.eve_d := by
  induction hears with
  | nil => exact le_refl _
  | cons hplea hnext _ ih =>
    obtain ⟨hnoPlay', hheard⟩ := heard_of_plea hwf hnoPlay hplea hnext
    refine le_trans ?_ (ih (lordOnPlea_wf hwf hplea) hnoPlay')
    cases hheard with
    | done tac_u gif_u hnumber _ heve => omega
    | bail heve => exact heve.ge
    | quiet heve _ => exact heve.ge

theorem Pier.Core.hear (hcore : pir_u.Core arv jam start facts) {plea : Plea} {out : List Plea}
    (hout : pir_u.net.out = plea :: out) :
    ∃ god_u cb, lordOnPlea pir_u.net.god_u plea = .ok (god_u, cb) ∧
      Net.Inv arv { pir_u.net with god_u := god_u, out := out } ∧
      (∀ fon_u, .play fon_u ∉ god_u.ext_u) ∧ Heard pir_u.net.god_u god_u cb := by
  obtain ⟨god_u, cb, hplea, hnext, hinv⟩ := hcore.net.hear hout
  exact ⟨god_u, cb, hplea, hinv, heard_of_plea hcore.net.wf hcore.noPlay hplea hnext⟩

theorem Pier.Core.plan (hcore : pir_u.Core arv jam start facts) {net : Net} {tac_u : Fact}
    (hnet : net.Inv arv) (hnoPlay : ∀ fon_u, .play fon_u ∉ net.god_u.ext_u)
    (hinn : net.inn = pir_u.net.inn) (hnumber : tac_u.eve_d = pir_u.net.god_u.eve_d + 1)
    (heve : net.god_u.eve_d = tac_u.eve_d) :
    ∃ log_u, Disk.diskPlan jam pir_u.log_u tac_u = .ok log_u ∧ log_u.dun_d = pir_u.log_u.dun_d ∧
      Pier.Core arv jam start (facts ++ [tac_u]) { pir_u with net := net, log_u := log_u } := by
  obtain ⟨log_u, hplan, hlog, hdun⟩ := hcore.log.plan tac_u (by rw [hnumber, hcore.eve])
  refine ⟨log_u, hplan, hdun, hnet, hnoPlay, hlog, ?_, ?_⟩
  · show net.god_u.eve_d = log_u.sen_d
    rw [heve, hnumber, hcore.eve, hlog.sen, hcore.log.sen, List.length_append,
      List.length_singleton, Nat.add_assoc]
  · show ∀ jar ∈ net.inn, ∀ eve_d, jar.snap = some eve_d → eve_d ≤ log_u.dun_d
    rw [hinn, hdun]
    exact hcore.snap

/-- A plea that does not count. -/
theorem Pier.Core.quiet (hcore : pir_u.Core arv jam start facts) {net : Net} (hnet : net.Inv arv)
    (hnoPlay : ∀ fon_u, .play fon_u ∉ net.god_u.ext_u) (hinn : net.inn = pir_u.net.inn)
    (heve : net.god_u.eve_d = pir_u.net.god_u.eve_d) :
    Pier.Core arv jam start facts { pir_u with net := net } := by
  refine ⟨hnet, hnoPlay, hcore.log, heve.trans hcore.eve, ?_⟩
  show ∀ jar ∈ net.inn, ∀ eve_d, jar.snap = some eve_d → eve_d ≤ pir_u.log_u.dun_d
  rw [hinn]
  exact hcore.snap

/-- The next writ is not a batch from the log. -/
theorem Pier.Core.head_ne_play (hcore : pir_u.Core arv jam start facts) (eve_d : ℕ)
    (lit : List Noun) :
    pir_u.net.inn.head? ≠ some (.play eve_d lit) := by
  intro hhead
  obtain ⟨last_u, hears, _, _, hsent⟩ := hcore.net.hears
  obtain ⟨inn, hinn⟩ := List.head?_eq_some_iff.mp hhead
  rw [hinn] at hsent
  obtain ⟨wit_u, nex_u, ⟨⟨god_u, hjar⟩, _⟩, _, hext⟩ := List.forall₂_cons_right_iff.mp hsent
  cases wit_u with
  | play fon_u =>
    refine hcore.noPlay fon_u (hears.ext_mem hcore.net.wf ?_)
    rw [hext]
    exact List.mem_cons_self
  | _ => simp [lordWritMake] at hjar

/-- The serf's turn: it keeps the core, and a snapshot has the number of an event on disk. -/
theorem Pier.Core.serf (hcore : pir_u.Core arv jam start facts) {jar : Jar} {inn : List Jar}
    (hinn : pir_u.net.inn = jar :: inn) {lim : Limits} {plea : Plea} {sef_u : Serf}
    (hwrit : serfWrit arv lim pir_u.net.sef_u jar = some (plea, sef_u)) (saved : List ℕ) :
    Pier.Core arv jam start facts { pir_u with
      net := { pir_u.net with inn := inn, sef_u := sef_u, out := pir_u.net.out ++ [plea] }
      saved := saved } := by
  have hnet : Net.Inv arv { pir_u.net with
      inn := inn, sef_u := sef_u, out := pir_u.net.out ++ [plea] } := by
    have haccepted : LogAccepted arv pir_u.net (.serf lim) :=
      fun eve_d lit hhead ↦ absurd hhead (hcore.head_ne_play eve_d lit)
    refine hcore.net.serf haccepted ?_
    simp only [netSerf, hinn, hwrit]
  refine ⟨hnet, hcore.noPlay, hcore.log, hcore.eve, fun jar' hjar ↦ hcore.snap jar' ?_⟩
  rw [hinn]
  exact List.mem_cons_of_mem jar hjar

/-! ### The invariant -/

/-- The effects that have been reported are those that the drivers have got, when they were on disk,
and those that are queued. -/
structure Pier.Inv (arv : Arvo) (jam : Noun → List UInt8) (start : Disk.Log Noun)
    (gifts : List Gift) (pir_u : Pier) : Prop where
  core : ∃ facts, pir_u.Core arv jam start facts ∧ facts.length = gifts.length
  number : gifts.map Gift.eve_d = List.range' (start.dun_d + 1) gifts.length
  order : pir_u.kicked.map Prod.fst ++ pir_u.ext_u = gifts
  rel : pir_u.rel_d = start.dun_d + pir_u.kicked.length
  ondisk : ∀ item ∈ pir_u.kicked, item.1.eve_d ≤ item.2 ∧ item.2 ≤ pir_u.log_u.dun_d
  saved : ∀ eve_d ∈ pir_u.saved, eve_d ≤ pir_u.log_u.dun_d

/-- Nothing that is queued is on disk. -/
def Pier.Settled (pir_u : Pier) : Prop :=
  ∀ gif_u ∈ pir_u.ext_u, pir_u.log_u.dun_d < gif_u.eve_d

variable {gifts : List Gift}

theorem Pier.Inv.length (hinv : pir_u.Inv arv jam start gifts) :
    pir_u.kicked.length + pir_u.ext_u.length = gifts.length := by
  rw [← hinv.order, List.length_append, List.length_map]

theorem Pier.Inv.queued (hinv : pir_u.Inv arv jam start gifts) : pir_u.Queued := by
  have hlength := hinv.length
  have hsplit : gifts.map Gift.eve_d = (pir_u.kicked.map Prod.fst).map Gift.eve_d ++
      pir_u.ext_u.map Gift.eve_d := by
    rw [← List.map_append, hinv.order]
  have hdrop : pir_u.ext_u.map Gift.eve_d = (gifts.map Gift.eve_d).drop pir_u.kicked.length := by
    rw [hsplit, List.drop_left' (by simp)]
  rw [Pier.Queued, hdrop, hinv.number, List.drop_range', hinv.rel]
  congr 1 <;> omega

/-- The last event of the log has been reported. -/
theorem Pier.Inv.sen (hinv : pir_u.Inv arv jam start gifts) :
    pir_u.log_u.sen_d = start.dun_d + gifts.length := by
  obtain ⟨facts, hcore, hlength⟩ := hinv.core
  rw [hcore.log.sen, hlength]

/-- Everything on disk has been released, and nothing else. -/
theorem Pier.Inv.rel_eq (hinv : pir_u.Inv arv jam start gifts) (hsettled : pir_u.Settled) :
    pir_u.rel_d = pir_u.log_u.dun_d := by
  obtain ⟨facts, hcore, _⟩ := hinv.core
  have hlength := hinv.length
  have hsen := hinv.sen
  have hrel := hinv.rel
  have hqueued := hinv.queued
  have hge := hcore.log.dun_ge
  have hle := hcore.log.dun_le
  refine le_antisymm ?_ ?_
  · rcases List.eq_nil_or_concat pir_u.kicked with hnil | ⟨items, item, hlast⟩
    · rw [hrel, hnil]
      exact hge
    · -- the last effects that went out
      have hitem := hinv.ondisk item (by simp [hlast])
      have hnumber : item.1.eve_d = start.dun_d + 1 + items.length := by
        have hget : (gifts.map Gift.eve_d)[items.length]? = some item.1.eve_d := by
          rw [← hinv.order, hlast]
          simp
        rw [hinv.number,
          List.getElem?_range' (by rw [hlast] at hlength; simp at hlength; omega)] at hget
        simpa using hget.symm
      rw [hlast] at hrel
      simp only [List.concat_eq_append, List.length_append, List.length_singleton] at hrel
      omega
  · cases hext : pir_u.ext_u with
    | nil =>
      rw [hext, List.length_nil] at hlength
      omega
    | cons gif_u nex_u =>
      have hwaits := hsettled gif_u (by rw [hext]; exact List.mem_cons_self)
      rw [Pier.Queued, hext, List.map_cons, List.length_cons, List.range'_succ, List.cons.injEq]
        at hqueued
      omega

theorem Pier.Inv.work (hinv : pir_u.Inv arv jam start gifts) (car_u : Drivers) :
    ∃ pir_u', pierWork pir_u car_u = .ok pir_u' ∧ pir_u'.Inv arv jam start gifts ∧ pir_u'.Settled ∧
      pir_u'.log_u = pir_u.log_u := by
  obtain ⟨facts, hcore, hlength⟩ := hinv.core
  obtain ⟨pir_u', hwork, hcore', hreleased⟩ := hcore.work hinv.queued car_u
  have hrel := hreleased.rel
  have hrel' := hinv.rel
  refine ⟨pir_u', hwork, ⟨⟨facts, hcore', hlength⟩, hinv.number, hreleased.gifts.trans hinv.order,
    by omega, fun item hitem ↦ ?_, ?_⟩, ?_, hreleased.log⟩
  · rw [hreleased.log]
    rcases hreleased.ondisk item hitem with hold | ⟨hlog, hnumber⟩
    · exact hinv.ondisk item hold
    · exact ⟨hnumber, hlog.le⟩
  · rw [hreleased.saved, hreleased.log]
    exact hinv.saved
  · rw [Pier.Settled, hreleased.log]
    exact hreleased.rest

/-- `_pier_gift_plan()` of the effects of the event that has just been planned. -/
theorem Pier.Inv.giftPlan (hinv : pir_u.Inv arv jam start gifts) {net : Net} {log_u : Disk.Log Noun}
    {facts : List Fact} {gif_u : Gift}
    (hcore : Pier.Core arv jam start facts { pir_u with net := net, log_u := log_u })
    (hlength : facts.length = gifts.length + 1) (hdun : log_u.dun_d = pir_u.log_u.dun_d)
    (hgift : gif_u.eve_d = start.dun_d + gifts.length + 1) :
    ∃ pir_u', pierGiftPlan { pir_u with net := net, log_u := log_u } gif_u = .ok pir_u' ∧
      pir_u'.Inv arv jam start (gifts ++ [gif_u]) ∧ pir_u'.log_u = log_u ∧
      pir_u'.ext_u = pir_u.ext_u ++ [gif_u] := by
  have hlen := hinv.length
  have hrel := hinv.rel
  have hlater : pir_u.rel_d < gif_u.eve_d := by omega
  refine ⟨{ pir_u with net := net, log_u := log_u, ext_u := pir_u.ext_u ++ [gif_u] }, ?_, ?_,
    rfl, rfl⟩
  · rw [pierGiftPlan, if_neg (not_not.mpr hlater)]
  · refine ⟨⟨facts, hcore.congr rfl rfl, by simpa using hlength⟩, ?_, ?_, hrel, ?_, ?_⟩
    · rw [List.map_append, hinv.number, List.length_append, List.length_singleton,
        List.range'_concat]
      congr 1
      rw [List.map_singleton, hgift]
      congr 1
      omega
    · show pir_u.kicked.map Prod.fst ++ (pir_u.ext_u ++ [gif_u]) = gifts ++ [gif_u]
      rw [← List.append_assoc, hinv.order]
    · show ∀ item ∈ pir_u.kicked, item.1.eve_d ≤ item.2 ∧ item.2 ≤ log_u.dun_d
      rw [hdun]
      exact hinv.ondisk
    · show ∀ eve_d ∈ pir_u.saved, eve_d ≤ log_u.dun_d
      rw [hdun]
      exact hinv.saved

/-- The invariant does not see the lord and the serf, beyond the core. -/
theorem Pier.Inv.net (hinv : pir_u.Inv arv jam start gifts) {net : Net}
    (hcore : ∃ facts, Pier.Core arv jam start facts { pir_u with net := net } ∧
      facts.length = gifts.length) :
    Pier.Inv arv jam start gifts { pir_u with net := net } :=
  ⟨hcore, hinv.number, hinv.order, hinv.rel, hinv.ondisk, hinv.saved⟩

/-- A new event that has been heard is planned, and its effects are queued. -/
theorem Pier.Inv.heard (hinv : pir_u.Inv arv jam start gifts) {net : Net} {tac_u : Fact}
    {gif_u : Gift} (hnet : net.Inv arv) (hnoPlay : ∀ fon_u, .play fon_u ∉ net.god_u.ext_u)
    (hinn : net.inn = pir_u.net.inn) (hnumber : tac_u.eve_d = pir_u.net.god_u.eve_d + 1)
    (hgift : gif_u.eve_d = tac_u.eve_d) (heve : net.god_u.eve_d = tac_u.eve_d) :
    ∃ log_u pir_u', Disk.diskPlan jam pir_u.log_u tac_u = .ok log_u ∧
      log_u.dun_d = pir_u.log_u.dun_d ∧
      pierGiftPlan { pir_u with net := net, log_u := log_u } gif_u = .ok pir_u' ∧
      pir_u'.Inv arv jam start (gifts ++ [gif_u]) := by
  obtain ⟨facts, hcore, hlength⟩ := hinv.core
  obtain ⟨log_u, hplan, hdun, hcore'⟩ := hcore.plan hnet hnoPlay hinn hnumber heve
  obtain ⟨pir_u', hgiftPlan, hinv', _⟩ := hinv.giftPlan hcore' (by simp [hlength]) hdun
    (by rw [hgift, hnumber, hcore.eve, hinv.sen])
  exact ⟨log_u, pir_u', hplan, hdun, hgiftPlan, hinv'⟩

theorem Pier.Inv.hear (hinv : pir_u.Inv arv jam start gifts) (hsettled : pir_u.Settled)
    (car_u : Drivers) :
    ∃ pir_u', pierHear jam pir_u car_u = .ok pir_u' ∧
      pir_u'.Inv arv jam start (gifts ++ reported pir_u (.hear car_u)) ∧ pir_u'.Settled := by
  cases hout : pir_u.net.out with
  | nil =>
    refine ⟨pir_u, by simp only [pierHear, hout], ?_, hsettled⟩
    simpa only [reported, hout, List.append_nil] using hinv
  | cons plea out =>
    obtain ⟨facts, hcore, hlength⟩ := hinv.core
    obtain ⟨god_u, cb, hplea, hnet, hnoPlay, hheard⟩ := hcore.hear hout
    simp only [pierHear, reported, hout, hplea]
    generalize hnext : ({ pir_u.net with god_u := god_u, out := out } : Net) = net at hnet ⊢
    have hgod : net.god_u = god_u := by rw [← hnext]
    have hinn : net.inn = pir_u.net.inn := by rw [← hnext]
    rw [← hgod] at hnoPlay hheard
    cases hheard with
    | done tac_u gif_u hnumber hgift heve =>
      obtain ⟨log_u, mid_u, hplan, _, hgiftPlan, hmid⟩ :=
        hinv.heard hnet hnoPlay hinn hnumber hgift heve
      obtain ⟨pir_u', hwork, hinv', hsettled', _⟩ := hmid.work car_u
      refine ⟨pir_u', ?_, hinv', hsettled'⟩
      simp only [pierCallback, pierOnLordWorkDone, hplan, hgiftPlan, bind, Except.bind, hwork]
    | bail heve =>
      have hmid := hinv.net ⟨facts, hcore.quiet hnet hnoPlay hinn heve, hlength⟩
      obtain ⟨pir_u', hwork, hinv', hsettled', _⟩ := hmid.work car_u
      rw [List.append_nil]
      exact ⟨pir_u', hwork, hinv', hsettled'⟩
    | quiet heve hquiet =>
      have hmid := hinv.net ⟨facts, hcore.quiet hnet hnoPlay hinn heve, hlength⟩
      refine ⟨{ pir_u with net := net }, ?_, ?_, hsettled⟩
      · rcases hquiet with rfl | rfl | rfl | rfl <;> rfl
      · rcases hquiet with rfl | rfl | rfl | rfl <;> simpa only [List.append_nil] using hmid

theorem Pier.Start.inv {begin : Pier} (hstart : begin.Start arv) :
    begin.Inv arv jam begin.log_u [] ∧ begin.Settled := by
  have hcore : begin.Core arv jam begin.log_u [] :=
    ⟨hstart.net, hstart.noPlay, Disk.inv_start jam hstart.log,
      hstart.eve.trans hstart.log.sen_eq_dun.symm, hstart.snap⟩
  refine ⟨⟨⟨[], hcore, rfl⟩, rfl, ?_, ?_, ?_, ?_⟩, ?_⟩
  · rw [hstart.kicked, hstart.ext]
    rfl
  · rw [hstart.kicked, hstart.rel]
    rfl
  · simp [hstart.kicked]
  · simp [hstart.saved]
  · simp [Pier.Settled, hstart.ext]

variable (jam) in
/-- The plea that answers `%wyrd` starts the work: at first there are no effects to release. -/
theorem Pier.Start.wyrd {begin : Pier} (hstart : begin.Start arv) {plea : Plea} {out : List Plea}
    {god_u : Lord} {tac_u : Fact} {gif_u : Gift} (car_u : Drivers)
    (hout : begin.net.out = plea :: out)
    (hplea : lordOnPlea begin.net.god_u plea = .ok (god_u, .workDone tac_u gif_u)) :
    ∃ pir_u, pierOnLordWyrdDone jam
        { begin with net := { begin.net with god_u := god_u, out := out } } car_u tac_u gif_u =
          .ok pir_u ∧
      pir_u.Inv arv jam begin.log_u [gif_u] ∧ pir_u.Settled := by
  have hbegin : begin.Inv arv jam begin.log_u [] := hstart.inv.1
  obtain ⟨facts, hcore, hlength⟩ := hbegin.core
  obtain rfl := List.length_eq_zero_iff.mp hlength
  obtain ⟨god_u', cb, hplea', hnet, hnoPlay, hheard⟩ := hcore.hear hout
  obtain ⟨rfl, rfl⟩ := Prod.mk.inj (Except.ok.inj (hplea'.symm.trans hplea))
  cases hheard with
  | quiet _ hquiet => simp at hquiet
  | done _ _ hnumber hgift heve =>
    obtain ⟨log_u, hplan, hdun, hcore'⟩ := hcore.plan hnet hnoPlay rfl hnumber heve
    generalize hinit : ({ begin with
      net := { begin.net with god_u := god_u', out := out }
      log_u := log_u, sat_e := .work, rel_d := log_u.dun_d } : Pier) = ini_u
    have hini : ini_u.Core arv jam begin.log_u ([] ++ [tac_u]) :=
      hcore'.congr (by rw [← hinit]) (by rw [← hinit])
    have hext : ini_u.ext_u = [] := by rw [← hinit]; exact hstart.ext
    have hkicked : ini_u.kicked = [] := by rw [← hinit]; exact hstart.kicked
    obtain ⟨mid_u, hwork, hmid, hreleased⟩ := hini.work (by simp [Pier.Queued, hext]) car_u
    have horder := hreleased.gifts
    rw [hkicked, hext] at horder
    obtain ⟨hkicked', hext'⟩ := List.append_eq_nil_iff.mp horder
    have hkicked' := List.map_eq_nil_iff.mp hkicked'
    have hrel : mid_u.rel_d = begin.log_u.dun_d := by
      have hsame := hreleased.rel
      rw [hkicked, hkicked'] at hsame
      rw [show mid_u.rel_d = ini_u.rel_d by simpa using hsame, ← hinit]
      exact hdun
    have hnext : gif_u.eve_d = begin.log_u.dun_d + 1 := by
      rw [hgift, hnumber, hstart.eve]
    have hlog : mid_u.log_u.dun_d = begin.log_u.dun_d := by
      rw [hreleased.log, ← hinit]
      exact hdun
    refine ⟨{ mid_u with ext_u := [gif_u] }, ?_,
      ⟨⟨[] ++ [tac_u], hmid.congr rfl rfl, rfl⟩, ?_, ?_, ?_, ?_, ?_⟩, ?_⟩
    · simp only [pierOnLordWyrdDone, hplan, hinit, hwork, bind, Except.bind, pierGiftPlan, hext',
        List.nil_append]
      rw [if_neg (by rw [hrel, hnext]; simp)]
    · simp [hnext]
    · simp [hkicked']
    · simpa [hkicked'] using hrel
    · simp [hkicked']
    · show ∀ eve_d ∈ mid_u.saved, eve_d ≤ mid_u.log_u.dun_d
      rw [hreleased.saved, ← hinit, hstart.saved]
      simp
    · intro later hlater
      obtain rfl := List.mem_singleton.mp hlater
      show mid_u.log_u.dun_d < later.eve_d
      omega

/-! ### Steps -/

/-- The log goes on. -/
theorem Pier.Inv.log (hinv : pir_u.Inv arv jam start gifts) {log_u : Disk.Log Noun}
    (hlog : ∀ facts, Disk.Inv jam start facts pir_u.log_u → Disk.Inv jam start facts log_u)
    (hdun : pir_u.log_u.dun_d ≤ log_u.dun_d) :
    Pier.Inv arv jam start gifts { pir_u with log_u := log_u } := by
  obtain ⟨facts, hcore, hlength⟩ := hinv.core
  refine ⟨⟨facts, ⟨hcore.net, hcore.noPlay, hlog facts hcore.log, ?_, ?_⟩, hlength⟩, hinv.number,
    hinv.order, hinv.rel, fun item hitem ↦ ?_, fun eve_d heve ↦ (hinv.saved eve_d heve).trans hdun⟩
  · show pir_u.net.god_u.eve_d = log_u.sen_d
    rw [hcore.eve, hcore.log.sen, (hlog facts hcore.log).sen]
  · exact fun jar hjar eve_d hsnap ↦ (hcore.snap jar hjar eve_d hsnap).trans hdun
  · exact ⟨(hinv.ondisk item hitem).1, (hinv.ondisk item hitem).2.trans hdun⟩

theorem serfWrit_snap {lim : Limits} {sef_u sef_u' : Serf} {jar : Jar} {plea : Plea} {eve_d : ℕ}
    (hsnap : jar.snap = some eve_d) (hwrit : serfWrit arv lim sef_u jar = some (plea, sef_u')) :
    sef_u' = sef_u := by
  cases jar with
  | save number =>
    simp only [serfWrit] at hwrit
    split_ifs at hwrit
    exact (Prod.mk.inj (Option.some.inj hwrit)).2.symm
  | cram number =>
    simp only [serfWrit] at hwrit
    split_ifs at hwrit
    exact (Prod.mk.inj (Option.some.inj hwrit)).2.symm
  | _ => simp [Jar.snap] at hsnap

/-- The number of the snapshot that the serf takes next is its own, and is in the log. -/
theorem Pier.Core.head_snap (hcore : pir_u.Core arv jam start facts) {jar : Jar} {inn : List Jar}
    (hinn : pir_u.net.inn = jar :: inn) {eve_d : ℕ} (hsnap : jar.snap = some eve_d) :
    eve_d = pir_u.net.sef_u.dun_d ∧ eve_d ≤ pir_u.log_u.dun_d :=
  ⟨hcore.net.snap_head jar (by rw [hinn]; rfl) eve_d hsnap,
    hcore.snap jar (by rw [hinn]; exact List.mem_cons_self) eve_d hsnap⟩

/-- The serf has processed all that the lord has heard of. -/
theorem Pier.Core.serf_ge (hcore : pir_u.Core arv jam start facts) :
    start.dun_d ≤ pir_u.net.sef_u.dun_d := by
  obtain ⟨last_u, hears, heve, _⟩ := hcore.net.hears
  have hle := hears.eve_le hcore.net.wf hcore.noPlay
  have hsen := hcore.log.sen
  rw [heve, hcore.eve] at hle
  omega

/-- The serf accepts a snapshot that has its number, once there is a kernel. -/
theorem serfWrit_snap_isSome {lim : Limits} {sef_u : Serf} {jar : Jar} (hready : sef_u.Ready arv)
    (hkernel : sef_u.dun_d ≠ 0) (hsnap : jar.snap = some sef_u.dun_d) :
    serfWrit arv lim sef_u jar = some (.live, sef_u) := by
  cases jar with
  | save number =>
    obtain rfl := Option.some.inj hsnap
    exact if_neg (not_not.mpr rfl)
  | cram number =>
    obtain rfl := Option.some.inj hsnap
    have hmug := hready.mug
    rw [if_neg hkernel] at hmug
    simp [serfWrit, hmug]
  | _ => simp [Jar.snap] at hsnap

/-- The serf's turn. -/
theorem Pier.Inv.serf (hinv : pir_u.Inv arv jam start gifts) (hsettled : pir_u.Settled)
    (lim : Limits) :
    (∃ pir_u', pierSerf arv pir_u lim = .ok pir_u' ∧ pir_u'.Inv arv jam start gifts ∧
      pir_u'.Settled) ∨ pierSerf arv pir_u lim = .error .serf := by
  obtain ⟨facts, hcore, hlength⟩ := hinv.core
  cases hinn : pir_u.net.inn with
  | nil => exact .inl ⟨pir_u, by simp only [pierSerf, hinn], hinv, hsettled⟩
  | cons jar inn =>
    cases hwrit : serfWrit arv lim pir_u.net.sef_u jar with
    | none => exact .inr (by simp only [pierSerf, hinn, hwrit])
    | some res =>
      obtain ⟨plea, sef_u⟩ := res
      simp only [pierSerf, hinn, hwrit]
      refine .inl ⟨_, rfl, ⟨⟨facts, hcore.serf hinn hwrit _, hlength⟩, hinv.number, hinv.order,
        hinv.rel, hinv.ondisk, fun eve_d heve ↦ ?_⟩, hsettled⟩
      rcases List.mem_append.mp heve with hold | hnew
      · exact hinv.saved eve_d hold
      · cases hsnap : jar.snap with
        | none => simp [hsnap] at hnew
        | some number =>
          obtain ⟨hserf, hlog⟩ := hcore.head_snap hinn hsnap
          obtain rfl : eve_d = sef_u.eve_d := by simpa [hsnap] using hnew
          rw [serfWrit_snap hsnap hwrit, hcore.net.ready.eve, ← hserf]
          exact hlog

theorem Pier.Inv.step (hinv : pir_u.Inv arv jam start gifts) (hsettled : pir_u.Settled)
    (event : PierEvent) (henabled : event.Enabled pir_u) :
    (∃ pir_u', pierStep jam arv pir_u event = .ok pir_u' ∧
      pir_u'.Inv arv jam start (gifts ++ reported pir_u event) ∧ pir_u'.Settled) ∨
    (∃ lim, event = .serf lim) ∧ pierStep jam arv pir_u event = .error .serf := by
  cases event with
  | hear car_u => exact .inl (hinv.hear hsettled car_u)
  | serf lim =>
    rcases hinv.serf hsettled lim with hok | herror
    · exact .inl (by simpa only [pierStep, reported, List.append_nil] using hok)
    · exact .inr ⟨⟨lim, rfl⟩, herror⟩
  | commitCb index fault =>
    left
    obtain ⟨req_u, hget⟩ := henabled
    obtain ⟨facts, hcore, _⟩ := hinv.core
    obtain ⟨log_u, hstep, _, hdun⟩ := hcore.log.commitCb fault hget
    have hlog : ∀ facts, Disk.Inv jam start facts pir_u.log_u → Disk.Inv jam start facts log_u := by
      intro facts hfacts
      obtain ⟨log_u', hstep', hlog', _⟩ := hfacts.commitCb fault hget
      exact Except.ok.inj (hstep'.symm.trans hstep) ▸ hlog'
    refine ⟨{ pir_u with log_u := log_u }, by simp only [pierStep, pierCommitCb, hstep], ?_, ?_⟩
    · simpa only [reported, List.append_nil] using hinv.log hlog hdun.ge
    · show ∀ gif_u ∈ pir_u.ext_u, log_u.dun_d < gif_u.eve_d
      rw [hdun]
      exact hsettled
  | commitAfterCb index car_u =>
    left
    obtain ⟨req_u, hget⟩ := henabled
    obtain ⟨facts, hcore, _⟩ := hinv.core
    obtain ⟨log_u, hstep, _, hdun, hfail⟩ := hcore.log.complete hget
    have hlog : ∀ facts, Disk.Inv jam start facts pir_u.log_u → Disk.Inv jam start facts log_u := by
      intro facts hfacts
      obtain ⟨log_u', hstep', hlog', _⟩ := hfacts.complete hget
      exact Except.ok.inj (hstep'.symm.trans hstep) ▸ hlog'
    have hmid := hinv.log hlog hdun
    simp only [pierStep, pierCommitAfterCb, reported, List.append_nil, hget, hstep]
    cases hret : req_u.ret_o with
    | true =>
      obtain ⟨pir_u', hwork, hinv', hsettled', _⟩ := hmid.work car_u
      exact ⟨pir_u', hwork, hinv', hsettled'⟩
    | false =>
      refine ⟨{ pir_u with log_u := log_u, gone := true }, rfl, ?_, ?_⟩
      · exact ⟨hmid.core.imp fun facts hfacts ↦ ⟨hfacts.1.congr rfl rfl, hfacts.2⟩, hmid.number,
          hmid.order, hmid.rel, hmid.ondisk, hmid.saved⟩
      · show ∀ gif_u ∈ pir_u.ext_u, log_u.dun_d < gif_u.eve_d
        rw [hfail hret]
        exact hsettled
  | loop car_u =>
    left
    obtain ⟨pir_u', hwork, hinv', hsettled', _⟩ := hinv.work car_u
    exact ⟨pir_u', hwork, by simpa only [reported, List.append_nil] using hinv', hsettled'⟩
  | request req =>
    left
    obtain ⟨facts, hcore, hlength⟩ := hinv.core
    obtain ⟨pir_u', hrequest, hcore', hframe⟩ := hcore.request req
    refine ⟨pir_u', hrequest, ?_, ?_⟩
    · simp only [reported, List.append_nil]
      refine ⟨⟨facts, hcore', hlength⟩, hinv.number, ?_, ?_, ?_, ?_⟩
      · rw [hframe.kicked, hframe.ext, hinv.order]
      · rw [hframe.rel, hframe.kicked, hinv.rel]
      · rw [hframe.kicked, hframe.log]
        exact hinv.ondisk
      · rw [hframe.saved, hframe.log]
        exact hinv.saved
    · rw [Pier.Settled, hframe.ext, hframe.log]
      exact hsettled

theorem PierReach.inv {begin : Pier} (hstart : begin.Start arv)
    (hreach : PierReach jam arv begin gifts pir_u) :
    pir_u.Inv arv jam begin.log_u gifts ∧ pir_u.Settled := by
  induction hreach with
  | start => exact hstart.inv
  | wyrd car_u hout hplea hstep =>
    obtain ⟨pir_u, hwyrd, hinv⟩ := hstart.wyrd jam car_u hout hplea
    exact Except.ok.inj (hwyrd.symm.trans hstep) ▸ hinv
  | step event _ _ henabled hstep ih =>
    rcases ih.1.step ih.2 event henabled with ⟨pir_u', hok, hinv⟩ | ⟨_, herror⟩
    · exact Except.ok.inj (hok.symm.trans hstep) ▸ hinv
    · exact absurd (herror.symm.trans hstep) (by simp)

/-! ### Effects and snapshots -/

/-- In every run, the effects that the drivers have got are those of the events after the first, in
order and without gap, each when it was on disk; what is left is queued and is not on disk; and no
assertion fails. -/
theorem pier_effects {begin : Pier} (hstart : begin.Start arv)
    (hreach : PierReach jam arv begin gifts pir_u) :
    pir_u.kicked.map Prod.fst ++ pir_u.ext_u = gifts ∧
      gifts.map Gift.eve_d = List.range' (begin.rel_d + 1) gifts.length ∧
      (∀ item ∈ pir_u.kicked, item.1.eve_d ≤ item.2) ∧
      pir_u.rel_d = begin.rel_d + pir_u.kicked.length ∧ pir_u.rel_d = pir_u.log_u.dun_d ∧
      (∀ event : PierEvent, event.Enabled pir_u →
        (∃ pir_u', pierStep jam arv pir_u event = .ok pir_u') ∨
          (∃ lim, event = .serf lim) ∧ pierStep jam arv pir_u event = .error .serf) ∧
      ∀ plea out god_u tac_u gif_u car_u, begin.net.out = plea :: out →
        lordOnPlea begin.net.god_u plea = .ok (god_u, .workDone tac_u gif_u) →
        ∃ pir_u, pierOnLordWyrdDone jam
          { begin with net := { begin.net with god_u := god_u, out := out } } car_u tac_u gif_u =
            .ok pir_u := by
  obtain ⟨hinv, hsettled⟩ := hreach.inv hstart
  refine ⟨hinv.order, ?_, fun item hitem ↦ (hinv.ondisk item hitem).1, ?_, hinv.rel_eq hsettled,
    fun event henabled ↦ ?_, fun plea out god_u tac_u gif_u car_u hout hplea ↦ ?_⟩
  · rw [hstart.rel]
    exact hinv.number
  · rw [hstart.rel]
    exact hinv.rel
  · rcases hinv.step hsettled event henabled with ⟨pir_u', hok, _⟩ | herror
    · exact .inl ⟨pir_u', hok⟩
    · exact .inr herror
  · obtain ⟨pir_u', hwyrd, _⟩ := hstart.wyrd jam car_u hout hplea
    exact ⟨pir_u', hwyrd⟩

/-- The log after three events. -/
def tallyLog : Disk.Log Noun := ⟨3, 3, false, [], none, [], fun _ ↦ none, [], []⟩

/-- A pier that starts to work after three events. -/
def tallyPier : Pier := ⟨tallyNet, tallyLog, .work, [], 3, [], 0, false, [], []⟩

theorem tallyPier_start : tallyPier.Start tally where
  net := tallyNet_start.inv
  noPlay := by simp [tallyPier, tallyNet]
  snap := by simp [tallyPier, tallyNet]
  log := ⟨rfl, rfl, rfl, rfl, rfl, fun _ _ ↦ rfl, rfl⟩
  eve := rfl
  rel := rfl
  ext := rfl
  live := rfl
  kicked := rfl
  saved := rfl

/-- Drivers with no event, and drivers with one. -/
def idleDrivers : Drivers := ⟨fun _ ↦ [], []⟩

def oneEgg : Drivers := ⟨fun _ ↦ [], [.cell (.atom 5) (.atom 0)]⟩

def noLimits : Limits := ⟨none, none, none⟩

/-- The bytes of a jammed event. -/
def jamBytes (job : Noun) : List UInt8 := (Ur.jam job).2

/-- A run in which an event is sent, computed and heard, a snapshot is asked for, and then the event
is written and reported as written. -/
theorem tallyPier_run : ∃ gifts pir_u inn, PierReach jamBytes tally tallyPier gifts pir_u ∧
    pir_u.kicked = [(⟨4, nul⟩, 4)] ∧ pir_u.net.inn = .save 4 :: inn := by
  obtain ⟨pir₁, hsend, hlive₁, pir₂, hserf, hlive₂, pir₃, hhear, hlive₃, pir₄, hsave,
    hlive₄, hpool₄,
      pir₅, hwrite, hlive₅, hpool₅, pir₆, hdone, hkicked, inn, hinn⟩ :
      ∃ pir₁, pierStep jamBytes tally tallyPier (.loop oneEgg) = .ok pir₁ ∧ pir₁.gone = false ∧
        ∃ pir₂, pierStep jamBytes tally pir₁ (.serf noLimits) = .ok pir₂ ∧ pir₂.gone = false ∧
          ∃ pir₃, pierStep jamBytes tally pir₂ (.hear idleDrivers) = .ok pir₃ ∧ pir₃.gone = false ∧
            ∃ pir₄, pierStep jamBytes tally pir₃ (.request .save) = .ok pir₄ ∧ pir₄.gone = false ∧
              PierEvent.Enabled pir₄ (.commitCb 0 false) ∧
              ∃ pir₅, pierStep jamBytes tally pir₄ (.commitCb 0 false) = .ok pir₅ ∧
              pir₅.gone = false ∧
                PierEvent.Enabled pir₅ (.commitAfterCb 0 idleDrivers) ∧
                ∃ pir₆, pierStep jamBytes tally pir₅ (.commitAfterCb 0 idleDrivers) = .ok pir₆ ∧
                  pir₆.kicked = [(⟨4, nul⟩, 4)] ∧ ∃ inn, pir₆.net.inn = .save 4 :: inn :=
    ⟨_, rfl, rfl, _, rfl, rfl, _, rfl, rfl, _, rfl, rfl, ⟨_, rfl⟩, _, rfl, rfl, ⟨_, rfl⟩, _,
      rfl, rfl, _, rfl⟩
  have hreach₁ := PierReach.start.step (.loop oneEgg) rfl trivial hsend
  have hreach₂ := hreach₁.step (.serf noLimits) hlive₁ trivial hserf
  have hreach₃ := hreach₂.step (.hear idleDrivers) hlive₂ trivial hhear
  have hreach₄ := hreach₃.step (.request .save) hlive₃ trivial hsave
  have hreach₅ := hreach₄.step (.commitCb 0 false) hlive₄ hpool₄ hwrite
  have hreach₆ := hreach₅.step (.commitAfterCb 0 idleDrivers) hlive₅ hpool₅ hdone
  exact ⟨_, pir₆, inn, hreach₆, hkicked, hinn⟩

/-- The effects have gone out. -/
theorem pier_effects_released : ∃ gifts pir_u, PierReach jamBytes tally tallyPier gifts pir_u ∧
    pir_u.kicked = [(⟨4, nul⟩, 4)] ∧ pir_u.kicked.map Prod.fst ++ pir_u.ext_u = gifts ∧
      pir_u.rel_d = pir_u.log_u.dun_d := by
  obtain ⟨gifts, pir_u, _, hreach, hkicked, _⟩ := tallyPier_run
  obtain ⟨horder, _, _, _, hrel, _⟩ := pier_effects tallyPier_start hreach
  exact ⟨gifts, pir_u, hreach, hkicked, horder, hrel⟩

/-- In every run of a pier that has booted, a snapshot that the serf takes has the serf's own
number, which is in the log, and is accepted; so no saved image is ahead of the log. -/
theorem pier_snapshots {begin : Pier} (hstart : begin.Start arv) (hbooted : begin.log_u.dun_d ≠ 0)
    (hreach : PierReach jam arv begin gifts pir_u) :
    (∀ jar inn eve_d, pir_u.net.inn = jar :: inn → jar.snap = some eve_d →
      eve_d = pir_u.net.sef_u.dun_d ∧ eve_d ≤ pir_u.log_u.dun_d ∧
        ∀ lim, serfWrit arv lim pir_u.net.sef_u jar = some (.live, pir_u.net.sef_u)) ∧
      ∀ eve_d ∈ pir_u.saved, eve_d ≤ pir_u.log_u.dun_d := by
  obtain ⟨hinv, _⟩ := hreach.inv hstart
  obtain ⟨facts, hcore, _⟩ := hinv.core
  refine ⟨fun jar inn eve_d hinn hsnap ↦ ?_, hinv.saved⟩
  obtain ⟨hserf, hlog⟩ := hcore.head_snap hinn hsnap
  refine ⟨hserf, hlog, fun lim ↦ ?_⟩
  have hge := hcore.serf_ge
  rw [hserf] at hsnap
  exact serfWrit_snap_isSome hcore.net.ready (by omega) hsnap

/-- The snapshot has waited for the event. -/
theorem pier_snapshots_waiting : ∃ gifts pir_u inn, PierReach jamBytes tally tallyPier gifts pir_u ∧
    pir_u.net.inn = .save 4 :: inn ∧ 4 = pir_u.net.sef_u.dun_d ∧ 4 ≤ pir_u.log_u.dun_d := by
  obtain ⟨gifts, pir_u, inn, hreach, _, hinn⟩ := tallyPier_run
  obtain ⟨hserf, hlog, _⟩ := (pier_snapshots tallyPier_start (by decide) hreach).1 _ _ 4 hinn rfl
  exact ⟨gifts, pir_u, inn, hreach, hinn, hserf, hlog⟩

end Vere.King
