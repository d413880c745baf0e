import Vere.King.Lord
import Vere.Noun.SerialCue

/-!
# Replay

`pkg/vere/pier.c`, while the events of the log are played. `_pier_play_read()` asks for the events
after the last one of the queue, `_pier_play_send()` takes a batch off the queue and sends it to the
serf, and `_pier_play()` does both, whenever a read is done or a batch has been played. The queue,
the reads and the batches have sizes of their own.

`play_pipeline` says that the batches are the events of the log, each once and in order, that no
assertion fails, and that replay comes to its end with nothing queued.
-/

set_option autoImplicit false

namespace Vere.King

open Vere.Noun

/-! ### Reading the log -/

/-- The difference of two `c3_d`. -/
def chubSub (a b : ℕ) : ℕ := (a + 2 ^ 64 - b) % 2 ^ 64

variable (cue : List UInt8 → Noun)

/-- `_disk_read_one_cb()`: the mug, little-endian, and the job. -/
def diskReadOne (eve_d : ℕ) : List UInt8 → Option Fact
  | dat₀ :: dat₁ :: dat₂ :: dat₃ :: dat₄ :: dat => some ⟨eve_d,
      dat₀.toUInt32 ^^^ (dat₁.toUInt32 <<< 8) ^^^ (dat₂.toUInt32 <<< 16) ^^^ (dat₃.toUInt32 <<< 24),
      cue (dat₄ :: dat)⟩
  | _ => none

/-- The loop of `u3_lmdb_read()`, from event `cur_d` on. It stops after the last event, and fails at
a gap. -/
def lmdbReadLoop (log_u : Disk.Log Noun) : ℕ → ℕ → Option (List Fact)
  | 0, _ => some []
  | len_d + 1, cur_d =>
    if log_u.dun_d < cur_d then some []
    else do
      let val_p ← log_u.mdb_u cur_d
      let tac_u ← diskReadOne cue cur_d val_p
      let rest ← lmdbReadLoop log_u len_d (cur_d + 1)
      some (tac_u :: rest)

/-- `u3_lmdb_read()`: there is a first event. -/
def lmdbRead (log_u : Disk.Log Noun) (eve_d len_d : ℕ) : Option (List Fact) :=
  if log_u.dun_d < eve_d then none else lmdbReadLoop cue log_u len_d eve_d

/-! ### The state -/

/-- `u3_play`: replay control. -/
structure PlayCtl where
  eve_d : ℕ
  req_d : ℕ
  sen_d : ℕ
  ext_u : List Fact
  ent_u : Option Fact

/-- `u3_pier` in the `u3_psat_play` state. `red_u` has the first event and the length of each read
that is not done, `sent` the batches that have been sent. `ended` is whether playback is complete,
`gone` whether the pier has bailed. -/
structure PlayPier where
  god_u : Lord
  log_u : Disk.Log Noun
  lif_w : ℕ
  pay_u : PlayCtl
  red_u : List (ℕ × ℕ)
  sent : List (List Fact)
  ended : Bool
  gone : Bool

/-- An assertion of `pier.c`, `disk.c` or `lord.c`, or a null pointer. -/
inductive PlayFault
  | init
  | readDone
  | planQueue
  | planNumber
  | sendNull
  | readNull
  | playNumber
  | lord (fault : LordFault)

/-! ### The queue -/

/-- `_pier_play_plan()`: enqueue events for replay. -/
def pierPlayPlan (pay_u : PlayCtl) (fir_u : Fact) (fon_u : List Fact) : Except PlayFault PlayCtl :=
  match pay_u.ext_u, pay_u.ent_u with
  | [], some _ => .error .planQueue
  | [], none =>
    if 1 + pay_u.sen_d ≠ fir_u.eve_d then .error .planNumber
    else .ok { pay_u with ext_u := fir_u :: fon_u, ent_u := (fir_u :: fon_u).getLast? }
  | _ :: _, none => .error .planQueue
  | _ :: _, some ent_u =>
    if 1 + ent_u.eve_d ≠ fir_u.eve_d then .error .planNumber
    else .ok { pay_u with
      ext_u := pay_u.ext_u ++ fir_u :: fon_u, ent_u := (fir_u :: fon_u).getLast? }

/-- The loop of `_pier_play_next()`: the batch, and what is left of the queue. It steps up to
`len_w` times past the first event. -/
def playNextLoop : ℕ → List Fact → List Fact × List Fact
  | _, [] => ([], [])
  | 0, tac_u :: nex_u => ([tac_u], nex_u)
  | len_w + 1, tac_u :: nex_u =>
    (tac_u :: (playNextLoop len_w nex_u).1, (playNextLoop len_w nex_u).2)

/-- `_pier_play_next()`: detach a batch of events from the queue. -/
def pierPlayNext (pay_u : PlayCtl) (len_w : ℕ) : List Fact × PlayCtl :=
  let (fon_u, nex_u) := playNextLoop len_w pay_u.ext_u
  (fon_u, { pay_u with ext_u := nex_u, ent_u := if nex_u.isEmpty then none else pay_u.ent_u })

/-- `PIER_PLAY_BATCH`. -/
def pierPlayBatch : ℕ := 500

/-- `PIER_READ_BATCH`. -/
def pierReadBatch : ℕ := 1000

/-- The size of a batch. The first must not be less than the lifecycle barrier. -/
def pierPlayLen (pir_u : PlayPier) : ℕ :=
  if pir_u.pay_u.sen_d = 0 then max pir_u.lif_w pierPlayBatch
  else min (chubSub pir_u.pay_u.eve_d pir_u.pay_u.sen_d) pierPlayBatch

/-- `_pier_play_send()`: send a batch of events to the worker for replay. -/
def pierPlaySend (pir_u : PlayPier) : Except PlayFault PlayPier :=
  if pir_u.pay_u.ext_u.isEmpty then .ok pir_u
  else
    let (fon_u, pay_u) := pierPlayNext pir_u.pay_u (pierPlayLen pir_u)
    match fon_u.getLast?, lordSend pir_u.god_u (.play fon_u) with
    | none, _ => .error .sendNull
    | some _, .error fault => .error (.lord fault)
    | some ent_u, .ok (god_u, _) => .ok { pir_u with
        god_u := god_u, pay_u := { pay_u with sen_d := ent_u.eve_d }
        sent := pir_u.sent ++ [fon_u] }

/-- `_pier_play_read()`, after the depth of the queue is checked. -/
def pierPlayReadFrom (pir_u : PlayPier) (las_d : ℕ) : PlayPier :=
  let len_d := min (chubSub pir_u.pay_u.eve_d las_d) pierReadBatch
  if len_d ≠ 0 ∧ pir_u.pay_u.req_d < 1 + las_d then
    { pir_u with
      red_u := pir_u.red_u ++ [(1 + las_d, len_d)],
        pay_u := { pir_u.pay_u with req_d := 1 + las_d } }
  else pir_u

/-- `_pier_play_read()`: read events from disk for replay. -/
def pierPlayRead (pir_u : PlayPier) : Except PlayFault PlayPier :=
  match pir_u.pay_u.ent_u, pir_u.pay_u.ext_u with
  | some ent_u, fir_u :: _ =>
    if pierPlayBatch ≤ chubSub ent_u.eve_d fir_u.eve_d then .ok pir_u
    else .ok (pierPlayReadFrom pir_u ent_u.eve_d)
  | some _, [] => .error .readNull
  | none, _ => .ok (pierPlayReadFrom pir_u pir_u.pay_u.sen_d)

/-- The snapshot at the end of playback. -/
def pierPlayOver (pir_u : PlayPier) (wit_u : Writ) : Except PlayFault PlayPier :=
  match lordSend pir_u.god_u wit_u with
  | .error fault => .error (.lord fault)
  | .ok (god_u, _) => .ok { pir_u with god_u := god_u, ended := true }

/-- `_pier_play()`: send a batch of events to the worker for log replay, and read ahead. -/
def pierPlay (pir_u : PlayPier) : Except PlayFault PlayPier :=
  if pir_u.god_u.eve_d = pir_u.pay_u.eve_d then
    if pir_u.pay_u.eve_d < pir_u.log_u.dun_d then pierPlayOver pir_u .cram
    else if pir_u.pay_u.eve_d = pir_u.log_u.dun_d then pierPlayOver pir_u .save
    else .ok { pir_u with ended := true }
  else if ¬pir_u.god_u.eve_d < pir_u.pay_u.eve_d then .error .playNumber
  else do
    let pir_u ← pierPlaySend pir_u
    pierPlayRead pir_u

/-- `_pier_play_init()`: begin boot/replay up to `eve_d`. -/
def pierPlayInit (god_u : Lord) (log_u : Disk.Log Noun) (lif_w eve_d : ℕ) :
    Except PlayFault PlayPier :=
  if ¬god_u.eve_d < eve_d then .error .init
  else if ¬eve_d ≤ log_u.dun_d then .error .init
  else pierPlay ⟨god_u, log_u, lif_w, ⟨eve_d, 0, god_u.eve_d, [], none⟩, [], [], false, false⟩

/-! ### Events -/

/-- What can happen: a read is done, or the serf answers a batch. -/
inductive PlayEvent
  | read (index : ℕ)
  | hear (pro : Play)

/-- `_disk_read_done_cb()` with `_pier_on_disk_read_done()`, or `_pier_on_disk_read_bail()`. -/
def pierOnDiskRead (pir_u : PlayPier) (index : ℕ) : Except PlayFault PlayPier :=
  match pir_u.red_u[index]? with
  | none => .ok pir_u
  | some (eve_d, len_d) =>
    match lmdbRead cue pir_u.log_u eve_d len_d with
    | none => .ok { pir_u with gone := true }
    | some [] => .error .readDone
    | some (fir_u :: fon_u) => do
      let pay_u ← pierPlayPlan pir_u.pay_u fir_u fon_u
      pierPlay { pir_u with pay_u := pay_u, red_u := pir_u.red_u.eraseIdx index }

/-- `_pier_on_lord_play_done()`, or `_pier_on_lord_play_bail()`. -/
def pierOnLordPlay (pir_u : PlayPier) (pro : Play) : Except PlayFault PlayPier :=
  match lordOnPlea pir_u.god_u (.play pro) with
  | .error fault => .error (.lord fault)
  | .ok (god_u, .playDone _ _) => pierPlay { pir_u with god_u := god_u }
  | .ok _ => .ok { pir_u with gone := true }

/-- One event. -/
def playStep (pir_u : PlayPier) : PlayEvent → Except PlayFault PlayPier
  | .read index => pierOnDiskRead cue pir_u index
  | .hear pro => pierOnLordPlay pir_u pro

/-- The events that can happen. -/
def PlayEvent.Enabled (pir_u : PlayPier) : PlayEvent → Prop
  | .read index => index < pir_u.red_u.length
  | .hear _ => pir_u.god_u.ext_u ≠ []

/-- The states of replay, with the number of events so far. -/
inductive PlayReach (begin : Except PlayFault PlayPier) : ℕ → PlayPier → Prop
  | init {pir_u : PlayPier} (hinit : begin = .ok pir_u) : PlayReach begin 0 pir_u
  | step {count : ℕ} {pir_u pir_u' : PlayPier} (event : PlayEvent)
      (hreach : PlayReach begin count pir_u) (hended : pir_u.ended = false)
      (hgone : pir_u.gone = false)
      (henabled : event.Enabled pir_u) (hstep : playStep cue pir_u event = .ok pir_u') :
      PlayReach begin (count + 1) pir_u'

/-! ### What is read -/

variable {cur_d : ℕ} {fon_u : List Fact}

section Reading

variable {cue}
variable {log_u : Disk.Log Noun}

theorem chubSub_of_le {a b : ℕ} (hle : b ≤ a) (hchub : a < 2 ^ 64) : chubSub a b = a - b := by
  unfold chubSub
  rw [show a + 2 ^ 64 - b = a - b + 2 ^ 64 by omega, Nat.add_mod_right, Nat.mod_eq_of_lt (by omega)]

variable {len_d : ℕ}

theorem lmdbReadLoop_succ (hlast : cur_d ≤ log_u.dun_d) :
    lmdbReadLoop cue log_u (len_d + 1) cur_d = some fon_u ↔ ∃ tac_u rest,
      (log_u.mdb_u cur_d).bind (diskReadOne cue cur_d) = some tac_u ∧
        lmdbReadLoop cue log_u len_d (cur_d + 1) = some rest ∧ fon_u = tac_u :: rest := by
  rw [lmdbReadLoop, if_neg (by omega)]
  cases log_u.mdb_u cur_d with
  | none => simp
  | some val_p =>
    cases hone : diskReadOne cue cur_d val_p with
    | none => simp [hone]
    | some tac_u =>
      cases lmdbReadLoop cue log_u len_d (cur_d + 1) with
      | none => simp [hone]
      | some rest => simp [hone, eq_comm]

theorem diskReadOne_number {val_p : List UInt8} {tac_u : Fact}
    (hone : diskReadOne cue cur_d val_p = some tac_u) : tac_u.eve_d = cur_d := by
  unfold diskReadOne at hone
  split at hone
  · rw [← Option.some.inj hone]
  · simp at hone

/-- A read gives events in order, without gap. -/
theorem lmdbReadLoop_number (hlast : cur_d + len_d ≤ log_u.dun_d + 1)
    (hread : lmdbReadLoop cue log_u len_d cur_d = some fon_u) :
    fon_u.map (fun tac_u ↦ tac_u.eve_d) = List.range' cur_d len_d := by
  induction len_d generalizing cur_d fon_u with
  | zero =>
    obtain rfl := Option.some.inj hread
    rfl
  | succ len_d ih =>
    obtain ⟨tac_u, rest, hone, hrest, rfl⟩ := (lmdbReadLoop_succ (by omega)).mp hread
    obtain ⟨val_p, _, hone⟩ := Option.bind_eq_some_iff.mp hone
    rw [List.map_cons, diskReadOne_number hone, ih (by omega) hrest, List.range'_succ]

theorem lmdbReadLoop_append {mor_d : ℕ} {mor_u : List Fact}
    (hlast : cur_d + len_d ≤ log_u.dun_d + 1)
    (hread : lmdbReadLoop cue log_u len_d cur_d = some fon_u)
    (hmore : lmdbReadLoop cue log_u mor_d (cur_d + len_d) = some mor_u) :
    lmdbReadLoop cue log_u (len_d + mor_d) cur_d = some (fon_u ++ mor_u) := by
  induction len_d generalizing cur_d fon_u with
  | zero =>
    obtain rfl := Option.some.inj hread
    simpa using hmore
  | succ len_d ih =>
    obtain ⟨tac_u, rest, hone, hrest, rfl⟩ := (lmdbReadLoop_succ (by omega)).mp hread
    rw [← Nat.add_assoc, Nat.add_right_comm] at hmore
    have htail := ih (by omega) hrest hmore
    rw [Nat.add_right_comm]
    exact (lmdbReadLoop_succ (by omega)).mpr ⟨tac_u, rest ++ mor_u, hone, htail, rfl⟩

theorem lmdbReadLoop_take {mor_d : ℕ} (hlast : cur_d + len_d ≤ log_u.dun_d + 1)
    (hread : lmdbReadLoop cue log_u (len_d + mor_d) cur_d = some fon_u) :
    lmdbReadLoop cue log_u len_d cur_d = some (fon_u.take len_d) := by
  induction len_d generalizing cur_d fon_u with
  | zero => rfl
  | succ len_d ih =>
    rw [Nat.add_right_comm] at hread
    obtain ⟨tac_u, rest, hone, hrest, rfl⟩ := (lmdbReadLoop_succ (by omega)).mp hread
    exact (lmdbReadLoop_succ (by omega)).mpr ⟨tac_u, _, hone, ih (by omega) hrest, rfl⟩

theorem playNextLoop_append (len_w : ℕ) (ext_u : List Fact) :
    (playNextLoop len_w ext_u).1 ++ (playNextLoop len_w ext_u).2 = ext_u := by
  fun_induction playNextLoop len_w ext_u with
  | case1 => rfl
  | case2 => rfl
  | case3 len_w tac_u nex_u ih => rw [List.cons_append, ih]

theorem playNextLoop_ne_nil (len_w : ℕ) {ext_u : List Fact} (hne : ext_u ≠ []) :
    (playNextLoop len_w ext_u).1 ≠ [] := by
  fun_cases playNextLoop len_w ext_u <;> simp_all

end Reading

/-! ### The invariant -/

/-- The events that have been read: those of the batches and those of the queue. -/
def PlayPier.got (pir_u : PlayPier) : List Fact := pir_u.sent.flatten ++ pir_u.pay_u.ext_u

variable (log_u : Disk.Log Noun) (base eve_d : ℕ)

/-- The invariant of a replay of `log_u`, after event `base` and up to event `eve_d`. What has been
read is the head of the log; the lord has the number of the last batch that was played, and those
after it are outstanding. At most one read is out, of the next events. -/
structure PlayPier.Inv (pir_u : PlayPier) : Prop where
  wf : pir_u.god_u.Wf
  log : pir_u.log_u = log_u
  eve : pir_u.pay_u.eve_d = eve_d
  chub : eve_d < 2 ^ 64
  dun : eve_d ≤ log_u.dun_d
  ent : pir_u.pay_u.ent_u = pir_u.pay_u.ext_u.getLast?
  got : lmdbReadLoop cue log_u pir_u.got.length (base + 1) = some pir_u.got
  las : base + pir_u.got.length ≤ eve_d
  sen : pir_u.pay_u.sen_d = base + pir_u.sent.flatten.length
  batch : ∀ fon_u ∈ pir_u.sent, fon_u ≠ []
  played : ∃ old out, pir_u.sent = old ++ out ∧ pir_u.god_u.eve_d = base + old.flatten.length ∧
    (pir_u.ended = false → pir_u.god_u.ext_u = out.map Writ.play)
  reads : pir_u.red_u = [] ∧ pir_u.pay_u.req_d ≤ base + pir_u.got.length ∨
    pir_u.pay_u.req_d = base + pir_u.got.length + 1 ∧ base + pir_u.got.length < eve_d ∧
      pir_u.red_u = [(base + pir_u.got.length + 1,
        min (eve_d - (base + pir_u.got.length)) pierReadBatch)]

section Invariant

variable {cue log_u base eve_d}
variable {pir_u : PlayPier}

/-- Numbered events, in two parts. -/
theorem number_append {nex_u : List Fact}
    (hnumber : (fon_u ++ nex_u).map (fun tac_u ↦ tac_u.eve_d) =
      List.range' cur_d (fon_u ++ nex_u).length) :
    fon_u.map (fun tac_u ↦ tac_u.eve_d) = List.range' cur_d fon_u.length ∧
      nex_u.map (fun tac_u ↦ tac_u.eve_d) = List.range' (cur_d + fon_u.length) nex_u.length := by
  rw [List.map_append, List.length_append, List.range'_append_1.symm] at hnumber
  exact List.append_inj hnumber (by rw [List.length_map, List.length_range'])

theorem number_last {ent_u : Fact}
    (hnumber : fon_u.map (fun tac_u ↦ tac_u.eve_d) = List.range' cur_d fon_u.length)
    (hent : fon_u.getLast? = some ent_u) : ent_u.eve_d + 1 = cur_d + fon_u.length := by
  have hlast := congrArg List.getLast? hnumber
  rw [List.getLast?_map, hent, List.getLast?_range'] at hlast
  have hne : fon_u.length ≠ 0 := by
    intro hzero
    rw [List.length_eq_zero_iff] at hzero
    simp [hzero] at hent
  rw [if_neg hne, Option.map_some, Option.some.injEq] at hlast
  omega

theorem PlayPier.Inv.number (hinv : pir_u.Inv cue log_u base eve_d) :
    pir_u.got.map (fun tac_u ↦ tac_u.eve_d) = List.range' (base + 1) pir_u.got.length := by
  have hlas := hinv.las
  have hdun := hinv.dun
  exact lmdbReadLoop_number (by omega) hinv.got

theorem PlayPier.Inv.ent_number (hinv : pir_u.Inv cue log_u base eve_d) {ent_u : Fact}
    (hent : pir_u.pay_u.ent_u = some ent_u) : ent_u.eve_d = base + pir_u.got.length := by
  have hlast := number_last (number_append hinv.number).2 (hinv.ent ▸ hent)
  rw [PlayPier.got, List.length_append]
  omega

theorem lordSend_play {god_u : Lord} (hwf : god_u.Wf) (fon_u : List Fact) :
    lordSend god_u (.play fon_u) =
      .ok (god_u.push (.play fon_u), some (lordWritMake god_u (.play fon_u))) := by
  rcases lordSend_cases hwf (.play fon_u) with hsend | ⟨hsend, _⟩
  · cases hplan : lordWritPlan god_u (.play fon_u) with
    | error fault => simp [lordSend, hplan, bind, Except.bind] at hsend
    | ok res => simp [lordSend, hplan, bind, Except.bind] at hsend
  · exact hsend

/-- `_pier_play_send()` moves events from the queue to a batch. -/
theorem PlayPier.Inv.send (hinv : pir_u.Inv cue log_u base eve_d) (hended : pir_u.ended = false) :
    ∃ pir_u', pierPlaySend pir_u = .ok pir_u' ∧ pir_u'.Inv cue log_u base eve_d ∧
      pir_u'.got = pir_u.got ∧ pir_u'.god_u.eve_d = pir_u.god_u.eve_d ∧ pir_u'.ended = pir_u.ended ∧
      pir_u'.gone = pir_u.gone ∧ (pir_u'.pay_u.ext_u ≠ [] → pir_u'.god_u.ext_u ≠ []) := by
  cases hext : pir_u.pay_u.ext_u with
  | nil =>
    refine ⟨pir_u, by simp [pierPlaySend, hext], hinv, rfl, rfl, rfl, rfl, ?_⟩
    simp [hext]
  | cons fir_u rest =>
    have hne : pir_u.pay_u.ext_u ≠ [] := by simp [hext]
    generalize hfon : (playNextLoop (pierPlayLen pir_u) pir_u.pay_u.ext_u).1 = fon_u
    generalize hnex : (playNextLoop (pierPlayLen pir_u) pir_u.pay_u.ext_u).2 = nex_u
    have hsplit : fon_u ++ nex_u = pir_u.pay_u.ext_u := by
      rw [← hfon, ← hnex, playNextLoop_append]
    have hfonNe : fon_u ≠ [] := hfon ▸ playNextLoop_ne_nil _ hne
    obtain ⟨ent_u, hent⟩ := Option.isSome_iff_exists.mp (List.getLast?_isSome.mpr hfonNe)
    have hgot : (pir_u.sent ++ [fon_u]).flatten ++ nex_u = pir_u.got := by
      simp only [PlayPier.got, ← hsplit, List.flatten_append, List.flatten_singleton,
        List.append_assoc]
    have hlast : ent_u.eve_d = base + (pir_u.sent ++ [fon_u]).flatten.length := by
      have hnumber := hinv.number
      rw [← hgot] at hnumber
      have hsent := number_last (number_append hnumber).1
        (by rw [List.flatten_append, List.flatten_singleton, List.getLast?_append, hent,
        Option.some_or])
      omega
    obtain ⟨old, out, hsent, heve, hplays⟩ := hinv.played
    refine ⟨{ pir_u with
      god_u := pir_u.god_u.push (.play fon_u)
      pay_u := { pir_u.pay_u with
        ext_u := nex_u, ent_u := if nex_u.isEmpty then none else pir_u.pay_u.ent_u
        sen_d := ent_u.eve_d }
      sent := pir_u.sent ++ [fon_u] }, ?_, ?_, hgot, rfl, rfl, rfl, ?_⟩
    · rw [pierPlaySend, if_neg (by simpa using hne)]
      simp only [pierPlayNext, hfon, hnex, hent, lordSend_play hinv.wf]
    · refine ⟨hinv.wf.push _, hinv.log, hinv.eve, hinv.chub, hinv.dun, ?_, ?_, ?_, hlast,
        ?_, ?_, ?_⟩
      · show (if nex_u.isEmpty then none else pir_u.pay_u.ent_u) = nex_u.getLast?
        rw [hinv.ent, ← hsplit]
        cases nex_u with
        | nil => rfl
        | cons tac_u nex_u =>
          rw [if_neg (by simp), List.getLast?_append_of_ne_nil _ (by simp)]
      · rw [PlayPier.got, hgot]
        exact hinv.got
      · rw [PlayPier.got, hgot]
        exact hinv.las
      · intro batch hbatch
        rcases List.mem_append.mp hbatch with hold | hnew
        · exact hinv.batch batch hold
        · exact List.mem_singleton.mp hnew ▸ hfonNe
      · refine ⟨old, out ++ [fon_u], ?_, heve, fun _ ↦ ?_⟩
        · rw [← List.append_assoc, ← hsent]
        · rw [List.map_append, ← hplays hended]
          rfl
      · rw [PlayPier.got, hgot]
        exact hinv.reads
    · intro _
      simp [Lord.push]

theorem PlayPier.Inv.readFrom (hinv : pir_u.Inv cue log_u base eve_d) :
    (pierPlayReadFrom pir_u (base + pir_u.got.length)).Inv cue log_u base eve_d ∧
      ((pierPlayReadFrom pir_u (base + pir_u.got.length)).red_u = [] →
        base + pir_u.got.length = eve_d) := by
  have hlas := hinv.las
  have hlen : min (chubSub pir_u.pay_u.eve_d (base + pir_u.got.length)) pierReadBatch =
      min (eve_d - (base + pir_u.got.length)) pierReadBatch := by
    rw [hinv.eve, chubSub_of_le hlas hinv.chub]
  simp only [pierPlayReadFrom, hlen]
  split_ifs with hask
  · obtain ⟨hmore, hreq⟩ := hask
    have hnone : pir_u.red_u = [] := by
      rcases hinv.reads with ⟨hnone, _⟩ | ⟨hreq', _⟩
      · exact hnone
      · omega
    refine ⟨{ hinv with
      reads := .inr ⟨Nat.add_comm _ _, by simp only [PlayPier.got] at *; omega, ?_⟩ },
      by simp⟩
    rw [hnone, Nat.add_comm 1]
    rfl
  · refine ⟨hinv, fun hnone ↦ ?_⟩
    rcases hinv.reads with ⟨_, hreq⟩ | ⟨_, _, hread⟩
    · unfold pierReadBatch at hask
      omega
    · simp [hread] at hnone

theorem pierPlayReadFrom_frame (pir_u : PlayPier) (las_d : ℕ) :
    (pierPlayReadFrom pir_u las_d).got = pir_u.got ∧
      (pierPlayReadFrom pir_u las_d).god_u = pir_u.god_u ∧
      (pierPlayReadFrom pir_u las_d).ended = pir_u.ended ∧
      (pierPlayReadFrom pir_u las_d).gone = pir_u.gone := by
  simp only [pierPlayReadFrom]
  split_ifs
  · exact ⟨rfl, rfl, rfl, rfl⟩
  · exact ⟨rfl, rfl, rfl, rfl⟩

/-- `_pier_play_read()`: without a read, there is a queue, or all has been read. -/
theorem PlayPier.Inv.read (hinv : pir_u.Inv cue log_u base eve_d) :
    ∃ pir_u', pierPlayRead pir_u = .ok pir_u' ∧ pir_u'.Inv cue log_u base eve_d ∧
      (pir_u'.got = pir_u.got ∧ pir_u'.god_u = pir_u.god_u ∧ pir_u'.ended = pir_u.ended ∧
        pir_u'.gone = pir_u.gone) ∧
      (pir_u'.red_u = [] → pir_u.pay_u.ext_u = [] → base + pir_u.got.length = eve_d) := by
  obtain ⟨hfrom, hall⟩ := hinv.readFrom
  have hframe := pierPlayReadFrom_frame pir_u (base + pir_u.got.length)
  cases hext : pir_u.pay_u.ext_u with
  | nil =>
    have hnone : pir_u.pay_u.ent_u = none := by rw [hinv.ent, hext]; rfl
    have hsen : pir_u.pay_u.sen_d = base + pir_u.got.length := by
      rw [hinv.sen, PlayPier.got, hext, List.append_nil]
    exact ⟨_, by rw [pierPlayRead, hnone, hsen], hfrom, hframe, fun hred _ ↦ hall hred⟩
  | cons fir_u rest =>
    obtain ⟨ent_u, hent⟩ : ∃ ent_u, pir_u.pay_u.ent_u = some ent_u := by
      rw [hinv.ent, hext]
      exact Option.isSome_iff_exists.mp (List.getLast?_isSome.mpr (by simp))
    have hread : pierPlayRead pir_u = if pierPlayBatch ≤ chubSub ent_u.eve_d fir_u.eve_d then
      .ok pir_u
        else .ok (pierPlayReadFrom pir_u (base + pir_u.got.length)) := by
      rw [pierPlayRead, hent, hext, ← hinv.ent_number hent]
    rw [hread]
    split_ifs with hdeep
    · exact ⟨pir_u, rfl, hinv, ⟨rfl, rfl, rfl, rfl⟩, by simp⟩
    · exact ⟨_, rfl, hfrom, hframe, by simp⟩

/-- Something is going on: a read, or a batch. -/
def PlayPier.Busy (pir_u : PlayPier) : Prop :=
  pir_u.red_u ≠ [] ∨ pir_u.god_u.ext_u ≠ []

/-- `_pier_play()`, before the end. -/
theorem PlayPier.Inv.play (hinv : pir_u.Inv cue log_u base eve_d) (hended : pir_u.ended = false)
    (hmore : pir_u.god_u.eve_d < eve_d) :
    ∃ pir_u', pierPlay pir_u = .ok pir_u' ∧ pir_u'.Inv cue log_u base eve_d ∧
      pir_u'.got = pir_u.got ∧ pir_u'.god_u.eve_d = pir_u.god_u.eve_d ∧ pir_u'.ended = false ∧
      pir_u'.gone = pir_u.gone ∧ pir_u'.Busy := by
  obtain ⟨mid_u, hsend, hmid, hgot, heve, hended', hgone, hbusy⟩ := hinv.send hended
  obtain ⟨las_u, hread, hlast, ⟨hgot', hgod, hended'', hgone'⟩, hall⟩ := hmid.read
  refine ⟨las_u, ?_, hlast, hgot'.trans hgot, hgod ▸ heve, hended''.trans (hended'.trans hended),
    hgone'.trans hgone, ?_⟩
  · rw [pierPlay, hinv.eve, if_neg hmore.ne, if_neg (not_not.mpr hmore)]
    simp only [hsend, bind, Except.bind]
    exact hread
  · by_cases hred : las_u.red_u = []
    · right
      rw [hgod]
      by_cases hext : mid_u.pay_u.ext_u = []
      · -- all has been read and sent, and not all of it has been played
        obtain ⟨old, out, hsent, hold, hplays⟩ := hmid.played
        have hlas := hall hred hext
        rw [PlayPier.got, hext, List.append_nil, hsent, List.flatten_append,
          List.length_append] at hlas
        rw [heve] at hold
        rw [hplays (hended'.trans hended)]
        intro hnil
        rw [List.map_eq_nil_iff.mp hnil] at hlas
        simp only [List.flatten_nil, List.length_nil] at hlas
        omega
      · exact hbusy hext
    · exact .inl hred

/-- At the end, everything has been sent and played. -/
theorem PlayPier.Inv.all (hinv : pir_u.Inv cue log_u base eve_d)
    (hlast : pir_u.god_u.eve_d = eve_d) :
    base + pir_u.sent.flatten.length = eve_d ∧ pir_u.pay_u.ext_u = [] ∧ pir_u.red_u = [] := by
  obtain ⟨old, out, hsent, hold, _⟩ := hinv.played
  have hlas := hinv.las
  rw [PlayPier.got, List.length_append] at hlas
  have hlength : pir_u.sent.flatten.length = old.flatten.length + out.flatten.length := by
    rw [hsent, List.flatten_append, List.length_append]
  have hext : pir_u.pay_u.ext_u = [] := List.length_eq_zero_iff.mp (by omega)
  refine ⟨by omega, hext, ?_⟩
  rcases hinv.reads with ⟨hred, _⟩ | ⟨_, hmore, _⟩
  · exact hred
  · rw [PlayPier.got, hext, List.append_nil] at hmore
    omega

theorem PlayPier.Inv.ended (hinv : pir_u.Inv cue log_u base eve_d)
    (hlast : pir_u.god_u.eve_d = eve_d) :
    ∃ pir_u', pierPlay pir_u = .ok pir_u' ∧ pir_u'.Inv cue log_u base eve_d ∧
      pir_u'.got = pir_u.got ∧ pir_u'.god_u.eve_d = pir_u.god_u.eve_d ∧ pir_u'.ended = true ∧
      pir_u'.gone = pir_u.gone := by
  have hdone : ∀ wit_u, ∃ pir_u', pierPlayOver pir_u wit_u = .ok pir_u' ∧
      pir_u'.Inv cue log_u base eve_d ∧ pir_u'.got = pir_u.got ∧
      pir_u'.god_u.eve_d = pir_u.god_u.eve_d ∧ pir_u'.ended = true ∧ pir_u'.gone = pir_u.gone := by
    intro wit_u
    have hplayed := hinv.played
    rcases lordSend_cases hinv.wf wit_u with hsend | ⟨hsend, _⟩
    · refine ⟨{ pir_u with ended := true }, by simp only [pierPlayOver, hsend], { hinv with
        played := ?_ }, rfl, rfl, rfl, rfl⟩
      exact hplayed.imp fun old ↦ Exists.imp fun out hout ↦ ⟨hout.1, hout.2.1, by simp⟩
    · refine ⟨{ pir_u with god_u := pir_u.god_u.push wit_u, ended := true },
        by simp only [pierPlayOver, hsend], { hinv with
          wf := hinv.wf.push wit_u
          played := ?_ }, rfl, rfl, rfl, rfl⟩
      exact hplayed.imp fun old ↦ Exists.imp fun out hout ↦ ⟨hout.1, hout.2.1, by simp⟩
  rw [pierPlay, if_pos (hlast.trans hinv.eve.symm)]
  split_ifs with hless hsame
  · exact hdone .cram
  · exact hdone .save
  · have hdun := hinv.dun
    rw [hinv.eve, hinv.log] at hless hsame
    omega

/-! ### Steps -/

/-- `_pier_play_plan()` of the events after those that have been read. -/
theorem PlayPier.Inv.plan (hinv : pir_u.Inv cue log_u base eve_d) {fir_u : Fact} {fon_u : List Fact}
    (hnumber : fir_u.eve_d = base + pir_u.got.length + 1) :
    pierPlayPlan pir_u.pay_u fir_u fon_u = .ok { pir_u.pay_u with
      ext_u := pir_u.pay_u.ext_u ++ fir_u :: fon_u, ent_u := (fir_u :: fon_u).getLast? } := by
  unfold pierPlayPlan
  cases hext : pir_u.pay_u.ext_u with
  | nil =>
    have hnone : pir_u.pay_u.ent_u = none := by rw [hinv.ent, hext]; rfl
    have hsen : pir_u.pay_u.sen_d = base + pir_u.got.length := by
      rw [hinv.sen, PlayPier.got, hext, List.append_nil]
    rw [hnone, List.nil_append]
    exact if_neg (by omega)
  | cons tac_u rest =>
    obtain ⟨ent_u, hent⟩ : ∃ ent_u, pir_u.pay_u.ent_u = some ent_u := by
      rw [hinv.ent, hext]
      exact Option.isSome_iff_exists.mp (List.getLast?_isSome.mpr (by simp))
    have hlast := hinv.ent_number hent
    rw [hent]
    exact if_neg (by omega)

/-- A read is done: more of the log has been read, or the pier bails. -/
theorem PlayPier.Inv.onRead (hinv : pir_u.Inv cue log_u base eve_d) (hended : pir_u.ended = false)
    (hmore : pir_u.god_u.eve_d < eve_d) {index : ℕ} (hindex : index < pir_u.red_u.length) :
    pierOnDiskRead cue pir_u index = .ok { pir_u with gone := true } ∨
      ∃ pir_u', pierOnDiskRead cue pir_u index = .ok pir_u' ∧ pir_u'.Inv cue log_u base eve_d ∧
        pir_u.got.length < pir_u'.got.length ∧ pir_u'.god_u.eve_d = pir_u.god_u.eve_d ∧
        pir_u'.ended = false ∧ pir_u'.gone = pir_u.gone ∧ pir_u'.Busy := by
  rcases hinv.reads with ⟨hnone, _⟩ | ⟨hreq, hlas, hone⟩
  · simp [hnone] at hindex
  · obtain rfl : index = 0 := by simpa [hone] using hindex
    have hdun : eve_d ≤ pir_u.log_u.dun_d := hinv.log ▸ hinv.dun
    have hlen : 0 < min (eve_d - (base + pir_u.got.length)) pierReadBatch := by
      unfold pierReadBatch
      omega
    generalize hget : min (eve_d - (base + pir_u.got.length)) pierReadBatch = len_d at hone hlen
    have hle : base + pir_u.got.length + len_d ≤ eve_d := by omega
    simp only [pierOnDiskRead, hone, List.getElem?_cons_zero, lmdbRead,
      if_neg (show ¬pir_u.log_u.dun_d < base + pir_u.got.length + 1 by omega),
      List.eraseIdx_cons_zero]
    cases hread : lmdbReadLoop cue pir_u.log_u len_d (base + pir_u.got.length + 1) with
    | none => exact .inl rfl
    | some fon_u =>
      right
      have hnumber := lmdbReadLoop_number (by omega) hread
      cases fon_u with
      | nil =>
        have hzero := congrArg List.length hnumber
        rw [List.length_map, List.length_range', List.length_nil] at hzero
        omega
      | cons fir_u fon_u =>
        have hlength := congrArg List.length hnumber
        rw [List.length_map, List.length_range'] at hlength
        have hfir : fir_u.eve_d = base + pir_u.got.length + 1 := by
          obtain ⟨len_d, rfl⟩ : ∃ less_d, len_d = less_d + 1 := ⟨len_d - 1, by omega⟩
          rw [List.map_cons, List.range'_succ, List.cons.injEq] at hnumber
          exact hnumber.1
        simp only [hinv.plan hfir, bind, Except.bind]
        generalize hmid : ({ pir_u with
          pay_u := { pir_u.pay_u with
            ext_u := pir_u.pay_u.ext_u ++ fir_u :: fon_u, ent_u := (fir_u :: fon_u).getLast? }
          red_u := [] } : PlayPier) = mid_u
        have hgot : mid_u.got = pir_u.got ++ fir_u :: fon_u := by
          rw [← hmid]
          exact (List.append_assoc _ _ _).symm
        have hgotLength : mid_u.got.length = pir_u.got.length + len_d := by
          rw [hgot, List.length_append, hlength]
        have hmidInv : mid_u.Inv cue log_u base eve_d := by
          refine ⟨hmid ▸ hinv.wf, hmid ▸ hinv.log, hmid ▸ hinv.eve, hinv.chub, hinv.dun, ?_, ?_, ?_,
            hmid ▸ hinv.sen, hmid ▸ hinv.batch, hmid ▸ hinv.played, .inl ⟨by rw [← hmid], ?_⟩⟩
          · rw [← hmid]
            show (fir_u :: fon_u).getLast? = (pir_u.pay_u.ext_u ++ fir_u :: fon_u).getLast?
            rw [List.getLast?_append_of_ne_nil _ (by simp)]
          · rw [hgotLength, hgot]
            rw [hinv.log, Nat.add_right_comm] at hread
            exact lmdbReadLoop_append (by rw [hinv.log] at hdun; omega) hinv.got hread
          · omega
          · rw [hgotLength, ← hmid]
            show pir_u.pay_u.req_d ≤ _
            omega
        obtain ⟨pir_u', hplay, hinv', hgot', heve, hended', hgone, hbusy⟩ :=
          hmidInv.play (by rw [← hmid]; exact hended) (by rw [← hmid]; exact hmore)
        refine ⟨pir_u', hplay, hinv', by rw [hgot']; omega, ?_, hended', ?_, hbusy⟩
        · rw [heve, ← hmid]
        · rw [hgone, ← hmid]

/-- The serf answers a batch: its events have been played, or the pier bails. -/
theorem PlayPier.Inv.onHear (hinv : pir_u.Inv cue log_u base eve_d) (hended : pir_u.ended = false)
    (hext : pir_u.god_u.ext_u ≠ []) (pro : Play) :
    pierOnLordPlay pir_u pro = .ok { pir_u with gone := true } ∨
      ∃ pir_u', pierOnLordPlay pir_u pro = .ok pir_u' ∧ pir_u'.Inv cue log_u base eve_d ∧
        pir_u'.got = pir_u.got ∧ pir_u.god_u.eve_d < pir_u'.god_u.eve_d ∧
        pir_u'.gone = pir_u.gone ∧
        (pir_u'.god_u.eve_d < eve_d ∧ pir_u'.ended = false ∧ pir_u'.Busy ∨
          pir_u'.god_u.eve_d = eve_d ∧ pir_u'.ended = true) := by
  obtain ⟨old, out, hsent, hold, hplays⟩ := hinv.played
  have hne : out ≠ [] := by
    rintro rfl
    exact hext (hplays hended)
  obtain ⟨fon_u, out, rfl⟩ := List.exists_cons_of_ne_nil hne
  have hwrits : pir_u.god_u.ext_u = .play fon_u :: out.map Writ.play := hplays hended
  cases pro with
  | bail eve mug_l dud =>
    have hanswer : answer pir_u.god_u.eve_d pir_u.god_u.mug_l (.play fon_u)
        (.play (.bail eve mug_l dud)) = some (chubDec eve, mug_l, .playBail fon_u mug_l eve) := rfl
    have hplea := (lordOnPlea_iff hinv.wf).mpr ⟨_, _, _, _, hwrits, hanswer, rfl⟩
    exact .inl (by simp only [pierOnLordPlay, hplea])
  | done mug_l =>
    right
    have hfonNe : fon_u ≠ [] := hinv.batch fon_u (by simp [hsent])
    obtain ⟨ent_u, hent⟩ := Option.isSome_iff_exists.mp (List.getLast?_isSome.mpr hfonNe)
    have hanswer : answer pir_u.god_u.eve_d pir_u.god_u.mug_l (.play fon_u) (.play (.done mug_l)) =
        some (ent_u.eve_d, mug_l, .playDone fon_u mug_l) := by
      simp [answer, hent]
    have hplea := (lordOnPlea_iff hinv.wf).mpr ⟨_, _, _, _, hwrits, hanswer, rfl⟩
    -- the lord now has the number of the last event of the batch
    have hgot : (old ++ [fon_u]).flatten ++ (out.flatten ++ pir_u.pay_u.ext_u) = pir_u.got := by
      simp [PlayPier.got, hsent]
    have hlast : ent_u.eve_d = base + (old ++ [fon_u]).flatten.length := by
      have hnumber := hinv.number
      rw [← hgot] at hnumber
      have hplayed := number_last (number_append hnumber).1
        (by rw [List.flatten_append, List.flatten_singleton, List.getLast?_append, hent,
        Option.some_or])
      omega
    have hstrict : pir_u.god_u.eve_d < ent_u.eve_d := by
      have hpos := List.length_pos_iff.mpr hfonNe
      rw [hlast, hold, List.flatten_append, List.flatten_singleton, List.length_append]
      omega
    have hle : ent_u.eve_d ≤ eve_d := by
      have hlas := hinv.las
      rw [← hgot, List.length_append] at hlas
      omega
    simp only [pierOnLordPlay, hplea]
    generalize hmid : ({ pir_u with god_u := ⟨ent_u.eve_d, mug_l, (out.map Writ.play).length,
      out.map Writ.play, (out.map Writ.play).any Writ.isWork⟩ } : PlayPier) = mid_u
    have hmidInv : mid_u.Inv cue log_u base eve_d := by
      rw [← hmid]
      exact { hinv with
        wf := ⟨rfl, rfl⟩
        played := ⟨old ++ [fon_u], out, by simp [hsent], hlast, fun _ ↦ rfl⟩ }
    have hmidEve : mid_u.god_u.eve_d = ent_u.eve_d := by rw [← hmid]
    have hmidGot : mid_u.got = pir_u.got := by rw [← hmid]; rfl
    have hmidGone : mid_u.gone = pir_u.gone := by rw [← hmid]
    rcases Nat.lt_or_ge ent_u.eve_d eve_d with hless | hge
    · obtain ⟨pir_u', hplay, hinv', hgot', heve, hended', hgone, hbusy⟩ :=
        hmidInv.play (by rw [← hmid]; exact hended) (hmidEve ▸ hless)
      refine ⟨pir_u', hplay, hinv', hgot'.trans hmidGot, ?_, hgone.trans hmidGone,
        .inl ⟨?_, hended', hbusy⟩⟩
      · rw [heve, hmidEve]
        exact hstrict
      · rw [heve, hmidEve]
        exact hless
    · obtain ⟨pir_u', hplay, hinv', hgot', heve, hended', hgone⟩ :=
        hmidInv.ended (by rw [hmidEve]; omega)
      refine ⟨pir_u', hplay, hinv', hgot'.trans hmidGot, ?_, hgone.trans hmidGone,
        .inr ⟨?_, hended'⟩⟩
      · rw [heve, hmidEve]
        exact hstrict
      · rw [heve, hmidEve]
        omega

/-! ### Runs -/

/-- The invariant of a run, with the number of its events: each either reads or plays some more. -/
structure PlayPier.Run (cue : List UInt8 → Noun) (log_u : Disk.Log Noun) (base eve_d count : ℕ)
    (pir_u : PlayPier) : Prop where
  inv : pir_u.Inv cue log_u base eve_d
  more : pir_u.ended = false → pir_u.god_u.eve_d < eve_d ∧ pir_u.Busy
  ended : pir_u.ended = true → pir_u.god_u.eve_d = eve_d
  bound : count ≤ 2 * (eve_d - base)
  left : pir_u.gone = false →
    count + (eve_d - (base + pir_u.got.length)) + (eve_d - pir_u.god_u.eve_d) ≤ 2 * (eve_d - base)

variable {count : ℕ}

/-- A pier that bails. -/
theorem PlayPier.Run.bail (hrun : pir_u.Run cue log_u base eve_d count)
    (hended : pir_u.ended = false) (hgone : pir_u.gone = false) :
    PlayPier.Run cue log_u base eve_d (count + 1) { pir_u with gone := true } := by
  have hmore := (hrun.more hended).1
  have hleft := hrun.left hgone
  exact ⟨{ hrun.inv with }, hrun.more, hrun.ended, by omega, by simp⟩

/-- No step fails an assertion. -/
theorem PlayPier.Run.step (hrun : pir_u.Run cue log_u base eve_d count)
    (hended : pir_u.ended = false) (hgone : pir_u.gone = false) (event : PlayEvent)
    (henabled : event.Enabled pir_u) :
    ∃ pir_u', playStep cue pir_u event = .ok pir_u' ∧
    pir_u'.Run cue log_u base eve_d (count + 1) := by
  obtain ⟨hmore, _⟩ := hrun.more hended
  have hleft := hrun.left hgone
  cases event with
  | read index =>
    rcases hrun.inv.onRead hended hmore henabled with
      hbail | ⟨pir_u', hread, hinv, hgot, heve, hended', _, hbusy⟩
    · exact ⟨_, hbail, hrun.bail hended hgone⟩
    · have hlas := hinv.las
      refine ⟨pir_u', hread, hinv, fun _ ↦ ⟨heve ▸ hmore, hbusy⟩, ?_, by omega, fun _ ↦ by omega⟩
      intro hdone
      rw [hended'] at hdone
      simp at hdone
  | hear pro =>
    rcases hrun.inv.onHear hended henabled pro with
      hbail | ⟨pir_u', hread, hinv, hgot, hstrict, _, hend⟩
    · exact ⟨_, hbail, hrun.bail hended hgone⟩
    · refine ⟨pir_u', hread, hinv, ?_, ?_, by omega, fun _ ↦ ?_⟩
      · intro hlive
        rcases hend with ⟨hless, _, hbusy⟩ | ⟨_, hdone⟩
        · exact ⟨hless, hbusy⟩
        · rw [hlive] at hdone
          simp at hdone
      · intro hdone
        rcases hend with ⟨_, hlive, _⟩ | ⟨hlast, _⟩
        · rw [hlive] at hdone
          simp at hdone
        · exact hlast
      · rw [hgot]
        omega

variable (cue) in
theorem pierPlayInit_run {god_u : Lord} (hwf : god_u.Wf) (hquiet : god_u.ext_u = [])
    (hless : god_u.eve_d < eve_d) (hdun : eve_d ≤ log_u.dun_d) (hchub : eve_d < 2 ^ 64)
    (lif_w : ℕ) :
    ∃ pir_u, pierPlayInit god_u log_u lif_w eve_d = .ok pir_u ∧
      pir_u.Run cue log_u god_u.eve_d eve_d 0 := by
  have hinv : PlayPier.Inv cue log_u god_u.eve_d eve_d
      ⟨god_u, log_u, lif_w, ⟨eve_d, 0, god_u.eve_d, [], none⟩, [], [], false, false⟩ :=
    ⟨hwf, rfl, rfl, hchub, hdun, rfl, rfl, hless.le,
      rfl, by simp, ⟨[], [], rfl, rfl, fun _ ↦ hquiet⟩, .inl ⟨rfl, Nat.zero_le _⟩⟩
  obtain ⟨pir_u, hplay, hinv', hgot, heve, hended, hgone, hbusy⟩ := hinv.play rfl hless
  refine ⟨pir_u, ?_, hinv', fun _ ↦ ⟨heve ▸ hless, hbusy⟩, ?_, Nat.zero_le _, fun _ ↦ ?_⟩
  · rw [pierPlayInit, if_neg (not_not.mpr hless), if_neg (not_not.mpr hdun)]
    exact hplay
  · intro hdone
    rw [hended] at hdone
    simp at hdone
  · have hlas := hinv'.las
    simp only at heve
    omega

theorem PlayReach.run {god_u : Lord} (hwf : god_u.Wf) (hquiet : god_u.ext_u = [])
    (hless : god_u.eve_d < eve_d) (hdun : eve_d ≤ log_u.dun_d) (hchub : eve_d < 2 ^ 64) {lif_w : ℕ}
    (hreach : PlayReach cue (pierPlayInit god_u log_u lif_w eve_d) count pir_u) :
    pir_u.Run cue log_u god_u.eve_d eve_d count := by
  induction hreach with
  | init hinit =>
    obtain ⟨pir_u, hok, hrun⟩ := pierPlayInit_run cue hwf hquiet hless hdun hchub lif_w
    exact Except.ok.inj (hok.symm.trans hinit) ▸ hrun
  | step event _ hended hgone henabled hstep ih =>
    obtain ⟨pir_u', hok, hrun⟩ := ih.step hended hgone event henabled
    exact Except.ok.inj (hok.symm.trans hstep) ▸ hrun

/-- In every replay, the batches that have been sent are the events of the log after the serf's,
each once and in order. No assertion fails; until the end there is a read or a batch to wait for,
which brings the end nearer. At the end everything has been sent. -/
theorem play_pipeline {god_u : Lord} (hwf : god_u.Wf) (hquiet : god_u.ext_u = [])
    (hless : god_u.eve_d < eve_d) (hdun : eve_d ≤ log_u.dun_d) (hchub : eve_d < 2 ^ 64)
    (lif_w : ℕ) :
    (∃ pir_u, pierPlayInit god_u log_u lif_w eve_d = .ok pir_u) ∧
      ∀ count pir_u, PlayReach cue (pierPlayInit god_u log_u lif_w eve_d) count pir_u →
        lmdbReadLoop cue log_u pir_u.sent.flatten.length (god_u.eve_d + 1) =
            some pir_u.sent.flatten ∧
          pir_u.sent.flatten.map (fun tac_u ↦ tac_u.eve_d) =
            List.range' (god_u.eve_d + 1) pir_u.sent.flatten.length ∧
          (∀ fon_u ∈ pir_u.sent, fon_u ≠ []) ∧
          pir_u.pay_u.sen_d = god_u.eve_d + pir_u.sent.flatten.length ∧
          (pir_u.ended = true → god_u.eve_d + pir_u.sent.flatten.length = eve_d ∧
            pir_u.god_u.eve_d = eve_d ∧ pir_u.pay_u.ext_u = [] ∧ pir_u.red_u = []) ∧
          (pir_u.ended = false → pir_u.god_u.eve_d < eve_d ∧
            (pir_u.red_u ≠ [] ∨ pir_u.god_u.ext_u ≠ [])) ∧
          count ≤ 2 * (eve_d - god_u.eve_d) ∧
          (pir_u.ended = false → pir_u.gone = false → ∀ event : PlayEvent, event.Enabled pir_u →
            ∃ pir_u', playStep cue pir_u event = .ok pir_u') := by
  refine ⟨?_, fun count pir_u hreach ↦ ?_⟩
  · obtain ⟨pir_u, hok, _⟩ := pierPlayInit_run cue hwf hquiet hless hdun hchub lif_w
    exact ⟨pir_u, hok⟩
  · have hrun := hreach.run hwf hquiet hless hdun hchub
    have hlas := hrun.inv.las
    have hgot := hrun.inv.got
    rw [PlayPier.got, List.length_append] at hlas hgot
    refine ⟨?_, (number_append hrun.inv.number).1, hrun.inv.batch, hrun.inv.sen, fun hended ↦ ?_,
      hrun.more, hrun.bound, fun hended hgone event henabled ↦ ?_⟩
    · have hsent := lmdbReadLoop_take (by omega) hgot
      rwa [List.take_left] at hsent
    · have hlast := hrun.ended hended
      obtain ⟨hall, hext, hred⟩ := hrun.inv.all hlast
      exact ⟨hall, hlast, hext, hred⟩
    · obtain ⟨pir_u', hok, _⟩ := hrun.step hended hgone event henabled
      exact ⟨pir_u', hok⟩

end Invariant

/-- `u3ke_cue()` of bytes. -/
def cueEvent (dat : List UInt8) : Noun :=
  (Serial.u3sCue 64 (Lib.Bits.ofBits (Lib.Bits.unpack dat))).getD nul

/-- A log of five events, the last two of them in the database. -/
def fiveLog : Disk.Log Noun :=
  ⟨5, 5, false, [], none, [], fun key_d ↦ if key_d = 4 ∨ key_d = 5 then
    some [1, 0, 0, 0, 2] else none, [], []⟩

/-- The two events after the third are read at once, and are played as one batch. -/
theorem play_pipeline_two : ∃ pir_u,
    PlayReach cueEvent (pierPlayInit tallyNet.god_u fiveLog 1 5) 2 pir_u ∧ pir_u.ended = true ∧
      pir_u.sent.flatten.map (fun tac_u ↦ tac_u.eve_d) = [4, 5] ∧ pir_u.pay_u.ext_u = [] := by
  have hinit : pierPlayInit tallyNet.god_u fiveLog 1 5 = .ok
      ⟨tallyNet.god_u, fiveLog, 1, ⟨5, 4, 3, [], none⟩, [(4, 2)], [], false, false⟩ := rfl
  obtain ⟨pir₂, hread, hended₂, hgone₂, hext₂, pir₃, hhear, hended₃⟩ :
      ∃ pir₂, playStep cueEvent
          ⟨tallyNet.god_u, fiveLog, 1, ⟨5, 4, 3, [], none⟩, [(4, 2)], [], false, false⟩ (.read 0) =
            .ok pir₂ ∧ pir₂.ended = false ∧ pir₂.gone = false ∧
        PlayEvent.Enabled pir₂ (.hear (.done 0)) ∧
        ∃ pir₃, playStep cueEvent pir₂ (.hear (.done 0)) = .ok pir₃ ∧ pir₃.ended = true :=
    ⟨_, rfl, rfl, rfl, List.cons_ne_nil _ _, _, rfl, rfl⟩
  have hreach : PlayReach cueEvent (pierPlayInit tallyNet.god_u fiveLog 1 5) 2 pir₃ :=
    .step (.hear (.done 0)) (.step (.read 0) (.init hinit) rfl rfl Nat.zero_lt_one hread)
      hended₂ hgone₂
      hext₂ hhear
  obtain ⟨_, hpipeline⟩ := play_pipeline tallyNet_start.inv.wf rfl
    (show tallyNet.god_u.eve_d < 5 by decide) (show 5 ≤ fiveLog.dun_d by decide) (by decide) 1
  obtain ⟨_, hnumber, _, _, hended, _⟩ := hpipeline 2 pir₃ hreach
  obtain ⟨hall, _, hext, _⟩ := hended hended₃
  refine ⟨pir₃, hreach, hended₃, ?_, hext⟩
  have hlength : pir₃.sent.flatten.length = 2 := by
    have hthree : tallyNet.god_u.eve_d = 3 := rfl
    omega
  rw [hnumber, hlength]
  rfl

end Vere.King
