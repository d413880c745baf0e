import Mathlib.Data.List.Basic
import Mathlib.Data.List.Range
import Mathlib.Logic.Function.Basic
import Mathlib.Tactic.Ring

/-!
# The event log pipeline

`pkg/vere/disk.c` and `u3_lmdb_save` of `pkg/vere/db/lmdb.c`. Completed events are queued
(`u3_disk_plan`, or `u3_disk_boot_plan` followed by `u3_disk_boot_save` for the boot sequence).
When no write is outstanding, everything queued since the last commit is serialized into one batch
and written off the main thread; on completion the queue is popped and the next batch starts, a
failed batch together with whatever has been queued since.

Every assertion of the source is an `Assertion`, and a step that fails one ends the run. `Inv` is
the invariant of the pipeline: `inv_step` shows that every step preserves it and names the
assertions such a step can fail, and `inv_reach` carries it to every reachable state.
-/

set_option autoImplicit false

namespace Vere.King.Disk

/-- `u3_fact`: a completed event. -/
structure Fact (Job : Type) where
  eve_d : ℕ
  mug_l : UInt32
  job : Job

/-- `struct _cd_save`: a write batch. `len_d` is the length of `byt_y`. -/
structure Save where
  ret_o : Bool
  eve_d : ℕ
  byt_y : List (List UInt8)
  deriving DecidableEq, Repr

/-- The `EVENTS` database: event number to bytes. -/
abbrev Db := ℕ → Option (List UInt8)

/-- `u3_disk`, with the thread pool, the database behind `mdb_u` and the numbers passed to
`write_done_f` and `write_bail_f`. A pool entry is a request and whether its write has run. -/
structure Log (Job : Type) where
  sen_d : ℕ
  dun_d : ℕ
  ted_o : Bool
  ext_u : List (Fact Job)
  ent_u : Option (Fact Job)
  pool : List (Save × Bool)
  mdb_u : Db
  write_done : List ℕ
  write_bail : List ℕ

/-- The assertions of `disk.c`, and the read of a fact past the end of the queue. -/
inductive Assertion
  | batchFirst
  | batchLast
  | batchFact
  | batchNull
  | commitIdle
  | planNumber
  | planQueue
  | bootPlanQueue
  | bootPlanFirst
  | bootSaveFresh
  deriving DecidableEq, Repr

/-- The assertions that only the two boot entry points make. -/
def Assertion.isBoot : Assertion → Bool
  | .bootPlanQueue => true
  | .bootPlanFirst => true
  | .bootSaveFresh => true
  | _ => false

/-- `c3_assert`. -/
def c3Assert (cond : Prop) [Decidable cond] (failure : Assertion) : Except Assertion Unit :=
  if cond then .ok () else .error failure

variable {Job : Type} (jam : Job → List UInt8)

/-- `_disk_serialize_v1()`: the mug, little-endian, and the bytes of the jammed job. -/
def diskSerialize (tac_u : Fact Job) : List UInt8 :=
  [UInt8.ofNat (tac_u.mug_l.toNat &&& 0xff), UInt8.ofNat ((tac_u.mug_l.toNat >>> 8) &&& 0xff),
    UInt8.ofNat ((tac_u.mug_l.toNat >>> 16) &&& 0xff),
    UInt8.ofNat ((tac_u.mug_l.toNat >>> 24) &&& 0xff)] ++ jam tac_u.job

/-- The loop of `_disk_batch()` over the queue, from index `i_d` on. -/
def diskBatchLoop (eve_d : ℕ) : ℕ → ℕ → List (Fact Job) → Except Assertion (List (List UInt8))
  | 0, _, _ => .ok []
  | _ + 1, _, [] => .error .batchNull
  | len_d + 1, i_d, tac_u :: nex_u => do
    c3Assert (eve_d + i_d = tac_u.eve_d) .batchFact
    let rest ← diskBatchLoop eve_d len_d (i_d + 1) nex_u
    .ok (diskSerialize jam tac_u :: rest)

/-- `_disk_batch()`: create a write batch. -/
def diskBatch (log_u : Log Job) (len_d : ℕ) : Except Assertion Save :=
  match log_u.ext_u, log_u.ent_u with
  | tac_u :: _, some ent_u => do
    c3Assert (1 + log_u.dun_d = tac_u.eve_d) .batchFirst
    c3Assert (log_u.sen_d = ent_u.eve_d) .batchLast
    let byt_y ← diskBatchLoop jam tac_u.eve_d len_d 0 log_u.ext_u
    .ok ⟨false, tac_u.eve_d, byt_y⟩
  | _, _ => .error .batchNull

/-- `_disk_commit_start()`: queue the write. -/
def diskCommitStart (log_u : Log Job) (req_u : Save) : Except Assertion (Log Job) := do
  c3Assert (log_u.ted_o = false) .commitIdle
  .ok { log_u with ted_o := true, pool := log_u.pool ++ [(req_u, false)] }

/-- `_disk_commit()`: commit all available events, if idle. -/
def diskCommit (log_u : Log Job) : Except Assertion (Log Job) :=
  if log_u.ted_o = false ∧ log_u.dun_d < log_u.sen_d then do
    let req_u ← diskBatch jam log_u (log_u.sen_d - log_u.dun_d)
    diskCommitStart log_u req_u
  else .ok log_u

/-- `u3_disk_plan()`: enqueue a completed event for persistence. -/
def diskPlan (log_u : Log Job) (tac_u : Fact Job) : Except Assertion (Log Job) := do
  c3Assert (1 + log_u.sen_d = tac_u.eve_d) .planNumber
  if log_u.ent_u.isNone then
    c3Assert (log_u.ext_u.isEmpty) .planQueue
    diskCommit jam
      { log_u with sen_d := log_u.sen_d + 1, ext_u := [tac_u], ent_u := some tac_u }
  else
    diskCommit jam
      { log_u with sen_d := log_u.sen_d + 1, ext_u := log_u.ext_u ++ [tac_u], ent_u := some tac_u }

/-- `u3_disk_boot_plan()`: enqueue the boot sequence, without autocommit. -/
def diskBootPlan (log_u : Log Job) (job : Job) : Except Assertion (Log Job) :=
  let tac_u : Fact Job := ⟨log_u.sen_d + 1, 0, job⟩
  if log_u.ent_u.isNone then do
    c3Assert (log_u.ext_u.isEmpty) .bootPlanQueue
    c3Assert (1 = log_u.sen_d + 1) .bootPlanFirst
    .ok { log_u with sen_d := log_u.sen_d + 1, ext_u := [tac_u], ent_u := some tac_u }
  else
    .ok { log_u with
      sen_d := log_u.sen_d + 1, ext_u := log_u.ext_u ++ [tac_u], ent_u := some tac_u }

/-- `u3_disk_boot_save()`: commit the boot sequence. -/
def diskBootSave (log_u : Log Job) : Except Assertion (Log Job) := do
  c3Assert (log_u.dun_d = 0) .bootSaveFresh
  diskCommit jam log_u

/-- `mdb_put()` with `MDB_NOOVERWRITE`, inside a transaction. -/
def mdbPut (txn_u : Db) (key_d : ℕ) (val_u : List UInt8) : Option Db :=
  if (txn_u key_d).isSome then none else some (Function.update txn_u key_d (some val_u))

/-- The loop of `u3_lmdb_save()` over the batch. -/
def lmdbSaveLoop (txn_u : Db) (key_d : ℕ) : List (List UInt8) → Option Db
  | [] => some txn_u
  | val_u :: rest => do
    let txn_u' ← mdbPut txn_u key_d val_u
    lmdbSaveLoop txn_u' (key_d + 1) rest

/-- `u3_lmdb_save()`: one transaction. `fault` is any failure that LMDB reports of its own accord;
an aborted transaction leaves the database as it was. -/
def lmdbSave (fault : Bool) (env_u : Db) (eve_d : ℕ) (byt_p : List (List UInt8)) : Bool × Db :=
  if fault then (false, env_u)
  else
    match lmdbSaveLoop env_u eve_d byt_p with
    | some txn_u => (true, txn_u)
    | none => (false, env_u)

/-- `_disk_commit_done()`: commit complete. `write_bail_f` is only recorded: that of `pier.c` frees
the log, and the runs are of the calls of `Event`. -/
def diskCommitDone (log_u : Log Job) (req_u : Save) : Except Assertion (Log Job) :=
  let last_d := req_u.eve_d + (req_u.byt_y.length - 1)
  let log_u := if req_u.ret_o
    then { log_u with dun_d := last_d, write_done := log_u.write_done ++ [last_d] }
    else { log_u with write_bail := log_u.write_bail ++ [last_d] }
  let ext_u := log_u.ext_u.dropWhile fun tac_u ↦ decide (tac_u.eve_d ≤ log_u.dun_d)
  diskCommit jam
    { log_u with ext_u := ext_u, ent_u := if ext_u.isEmpty then none else log_u.ent_u }

/-- What the environment can do: call an entry point, run a queued write off the main thread, or
deliver a completion to the main thread. -/
inductive Event (Job : Type)
  | plan (tac_u : Fact Job)
  | bootPlan (job : Job)
  | bootSave
  | commitCb (index : ℕ) (fault : Bool)
  | commitAfterCb (index : ℕ)

/-- One event. -/
def step (log_u : Log Job) : Event Job → Except Assertion (Log Job)
  | .plan tac_u => diskPlan jam log_u tac_u
  | .bootPlan job => diskBootPlan log_u job
  | .bootSave => diskBootSave jam log_u
  | .commitCb index fault =>
    match log_u.pool[index]? with
    | some (req_u, _) =>
      let (ret_o, mdb_u) := lmdbSave fault log_u.mdb_u req_u.eve_d req_u.byt_y
      .ok { log_u with
        mdb_u := mdb_u, pool := log_u.pool.set index ({ req_u with ret_o := ret_o }, true) }
    | none => .ok log_u
  | .commitAfterCb index =>
    match log_u.pool[index]? with
    | some (req_u, _) =>
      diskCommitDone jam { log_u with ted_o := false, pool := log_u.pool.eraseIdx index } req_u
    | none => .ok log_u

/-- The events that can happen: planned numbers are consecutive, a write runs once, and a
completion is delivered after its write. -/
def Enabled (log_u : Log Job) : Event Job → Prop
  | .plan tac_u => tac_u.eve_d = log_u.sen_d + 1
  | .bootPlan _ => True
  | .bootSave => True
  | .commitCb index _ => ∃ req_u, log_u.pool[index]? = some (req_u, false)
  | .commitAfterCb index => ∃ req_u, log_u.pool[index]? = some (req_u, true)

/-- The fact an event adds to the log. -/
def planned (log_u : Log Job) : Event Job → List (Fact Job)
  | .plan tac_u => [tac_u]
  | .bootPlan job => [⟨log_u.sen_d + 1, 0, job⟩]
  | _ => []

/-- The states reached from `start`, with the facts planned on the way. -/
inductive Reach (start : Log Job) : List (Fact Job) → Log Job → Prop
  | init : Reach start [] start
  | step {facts : List (Fact Job)} {log_u log_u' : Log Job} (event : Event Job)
      (hreach : Reach start facts log_u) (henabled : Enabled log_u event)
      (hstep : Vere.King.Disk.step jam log_u event = .ok log_u') :
      Reach start (facts ++ planned log_u event) log_u'

/-- A log at rest: everything sent is done, the queue is empty, no write is outstanding, and the
database holds nothing past the last event. -/
structure Start (log_u : Log Job) : Prop where
  sen_eq_dun : log_u.sen_d = log_u.dun_d
  ext_nil : log_u.ext_u = []
  ent_none : log_u.ent_u = none
  idle : log_u.ted_o = false
  pool_nil : log_u.pool = []
  mdb_last : ∀ key_d, log_u.dun_d < key_d → log_u.mdb_u key_d = none
  done_nil : log_u.write_done = []

/-- The database that holds what it held at `start` and the planned facts up to `last_d`. -/
def stored (start : Log Job) (facts : List (Fact Job)) (last_d : ℕ) : Db := fun key_d ↦
  if key_d ≤ start.dun_d then start.mdb_u key_d
  else if key_d ≤ last_d then (facts[key_d - start.dun_d - 1]?).map (diskSerialize jam)
  else none

/-- The events up to `last_d` that are in the database and not yet acknowledged: those of the batch
in flight, between its write and its completion. -/
def written (log_u : Log Job) : ℕ :=
  match log_u.pool with
  | [(req_u, true)] => if req_u.ret_o then log_u.dun_d + req_u.byt_y.length else log_u.dun_d
  | _ => log_u.dun_d

/-- The batch in flight, if any: it starts after the last committed event, is not empty, and holds
the serialized head of the queue. -/
def InFlight (log_u : Log Job) : Prop :=
  (log_u.ted_o = false ∧ log_u.pool = []) ∨
    log_u.ted_o = true ∧ ∃ (req_u : Save) (ran : Bool), log_u.pool = [(req_u, ran)] ∧
      req_u.eve_d = log_u.dun_d + 1 ∧ req_u.byt_y ≠ [] ∧
      req_u.byt_y <+: log_u.ext_u.map (diskSerialize jam)

/-- The invariant of the pipeline, after planning `facts`. -/
structure Inv (start : Log Job) (facts : List (Fact Job)) (log_u : Log Job) : Prop where
  number : facts.map Fact.eve_d = List.range' (start.dun_d + 1) facts.length
  sen : log_u.sen_d = start.dun_d + facts.length
  dun_ge : start.dun_d ≤ log_u.dun_d
  dun_le : log_u.dun_d ≤ log_u.sen_d
  queue : log_u.ext_u = facts.drop (log_u.dun_d - start.dun_d)
  entry : log_u.ent_u = log_u.ext_u.getLast?
  flight : InFlight jam log_u
  mdb : log_u.mdb_u = stored jam start facts (written log_u)
  done_lt : log_u.write_done.Pairwise (· < ·)
  done_le : ∀ eve_d ∈ log_u.write_done, eve_d ≤ log_u.dun_d

theorem inv_start {start : Log Job} (hstart : Start start) : Inv jam start [] start where
  number := rfl
  sen := hstart.sen_eq_dun
  dun_ge := le_refl _
  dun_le := hstart.sen_eq_dun.ge
  queue := by simp [hstart.ext_nil]
  entry := by simp [hstart.ext_nil, hstart.ent_none]
  flight := Or.inl ⟨hstart.idle, hstart.pool_nil⟩
  mdb := by
    funext key_d
    by_cases hkey : key_d ≤ start.dun_d
    · simp [stored, hkey]
    · simp [stored, written, hstart.pool_nil, hkey, hstart.mdb_last key_d (by omega)]
  done_lt := by simp [hstart.done_nil]
  done_le := by simp [hstart.done_nil]

/-! ### The queue -/

section Queue

variable {jam}
variable {start : Log Job} {facts : List (Fact Job)} {log_u : Log Job}

/-- The facts in the queue are numbered from the event after the last committed one. -/
theorem Inv.queue_number (hinv : Inv jam start facts log_u) :
    log_u.ext_u.map Fact.eve_d = List.range' (log_u.dun_d + 1) (log_u.sen_d - log_u.dun_d) := by
  have hge := hinv.dun_ge
  have hsen := hinv.sen
  rw [hinv.queue, List.map_drop, hinv.number, List.drop_range']
  congr 1 <;> omega

theorem Inv.queue_length (hinv : Inv jam start facts log_u) :
    log_u.ext_u.length = log_u.sen_d - log_u.dun_d := by
  simpa using congrArg List.length hinv.queue_number

/-- The loop of `_disk_batch` succeeds on facts numbered from `eve_d + i_d` and serializes each. -/
theorem diskBatchLoop_eq_ok (eve_d : ℕ) (tac_u : List (Fact Job)) (i_d : ℕ)
    (hnumber : tac_u.map Fact.eve_d = List.range' (eve_d + i_d) tac_u.length) :
    diskBatchLoop jam eve_d tac_u.length i_d tac_u = .ok (tac_u.map (diskSerialize jam)) := by
  induction tac_u generalizing i_d with
  | nil => rfl
  | cons fact nex_u ih =>
    simp only [List.map_cons, List.length_cons, List.range'_succ, List.cons.injEq] at hnumber
    have hrest := ih (i_d + 1) (by rw [hnumber.2]; congr 1)
    simp [diskBatchLoop, c3Assert, hnumber.1, hrest, bind, Except.bind]

/-- An idle log with events to commit hands exactly its queue to the thread pool. -/
theorem diskCommit_eq_ok (hidle : log_u.ted_o = false) (hmore : log_u.dun_d < log_u.sen_d)
    (hnumber : log_u.ext_u.map Fact.eve_d =
      List.range' (log_u.dun_d + 1) (log_u.sen_d - log_u.dun_d))
    (hentry : log_u.ent_u = log_u.ext_u.getLast?) :
    diskCommit jam log_u = .ok { log_u with
      ted_o := true
      pool := log_u.pool ++
        [(⟨false, log_u.dun_d + 1, log_u.ext_u.map (diskSerialize jam)⟩, false)] } := by
  have hlength : log_u.ext_u.length = log_u.sen_d - log_u.dun_d := by
    simpa using congrArg List.length hnumber
  have hlast : log_u.ext_u.getLast?.map Fact.eve_d = some log_u.sen_d := by
    rw [← List.getLast?_map, hnumber, List.getLast?_range']
    rw [if_neg (by omega)]
    congr 1
    omega
  obtain ⟨fact, nex_u, hext⟩ : ∃ fact nex_u, log_u.ext_u = fact :: nex_u :=
    List.exists_cons_of_length_pos (by omega)
  obtain ⟨ent_u, hent, hentNumber⟩ : ∃ ent_u, log_u.ent_u = some ent_u ∧
      ent_u.eve_d = log_u.sen_d := by
    rw [hentry]
    exact Option.map_eq_some_iff.mp hlast
  have hfirst : fact.eve_d = log_u.dun_d + 1 := by
    have hhead := congrArg List.head? hnumber
    rw [hext, List.map_cons, List.head?_cons, List.head?_range', if_neg (by omega)] at hhead
    exact Option.some.inj hhead
  have hloop : diskBatchLoop jam (log_u.dun_d + 1) log_u.ext_u.length 0 log_u.ext_u =
      .ok (log_u.ext_u.map (diskSerialize jam)) :=
    diskBatchLoop_eq_ok (log_u.dun_d + 1) log_u.ext_u 0 (by rw [hnumber, hlength])
  rw [hlength] at hloop
  have hbatch : diskBatch jam log_u (log_u.sen_d - log_u.dun_d) =
      .ok ⟨false, log_u.dun_d + 1, log_u.ext_u.map (diskSerialize jam)⟩ := by
    unfold diskBatch
    rw [hext] at hloop ⊢
    rw [hent]
    simp [c3Assert, hfirst, hentNumber, hloop, Nat.add_comm, bind, Except.bind]
  simp [diskCommit, hidle, hmore, hbatch, diskCommitStart, c3Assert, bind, Except.bind]

theorem dropWhile_number (first_d last_d : ℕ) (tac_u : List (Fact Job))
    (hnumber : tac_u.map Fact.eve_d = List.range' first_d tac_u.length) :
    tac_u.dropWhile (fun fact ↦ decide (fact.eve_d ≤ last_d)) =
      tac_u.drop (last_d + 1 - first_d) := by
  induction tac_u generalizing first_d with
  | nil => simp
  | cons fact nex_u ih =>
    simp only [List.map_cons, List.length_cons, List.range'_succ, List.cons.injEq] at hnumber
    obtain ⟨rfl, hrest⟩ := hnumber
    by_cases hle : fact.eve_d ≤ last_d
    · have hdrop : last_d + 1 - fact.eve_d = (last_d + 1 - (fact.eve_d + 1)) + 1 := by omega
      rw [List.dropWhile_cons_of_pos (by simpa using hle), hdrop, List.drop_succ_cons]
      exact ih _ hrest
    · have hdrop : last_d + 1 - fact.eve_d = 0 := by omega
      rw [List.dropWhile_cons_of_neg (by simpa using hle), hdrop, List.drop_zero]

/-- What is in the database never reaches past the planned events. -/
theorem Inv.written_le (hinv : Inv jam start facts log_u) : written log_u ≤ log_u.sen_d := by
  have hdun := hinv.dun_le
  have hlength := hinv.queue_length
  rcases hinv.flight with ⟨_, hpool⟩ | ⟨_, req_u, ran, hpool, _, _, hqueued⟩
  · simpa [written, hpool] using hdun
  · have hbatch := hqueued.length_le
    rw [List.length_map] at hbatch
    cases ran
    · simpa [written, hpool] using hdun
    · simp only [written, hpool]
      split <;> omega

/-- Planning a fact does not change what the database should hold. -/
theorem stored_append (facts more : List (Fact Job)) {last_d : ℕ}
    (hlast : last_d ≤ start.dun_d + facts.length) :
    stored jam start (facts ++ more) last_d = stored jam start facts last_d := by
  funext key_d
  unfold stored
  split_ifs with hold hnew
  · rfl
  · rw [List.getElem?_append_left (by omega)]
  · rfl

end Queue

/-! ### The steps -/

variable {index : ℕ} {req_u : Save}

section Steps

variable {jam}
variable {start : Log Job} {facts : List (Fact Job)} {log_u : Log Job}

/-- Committing from a state of the pipeline succeeds and stays in the pipeline; an idle log with
events to commit submits its whole queue. -/
theorem Inv.commit (hinv : Inv jam start facts log_u) :
    ∃ log_u', diskCommit jam log_u = .ok log_u' ∧ Inv jam start facts log_u' ∧
      (log_u.ted_o = false → log_u.dun_d < log_u.sen_d → log_u'.pool =
        [(⟨false, log_u.dun_d + 1, log_u.ext_u.map (diskSerialize jam)⟩, false)]) := by
  by_cases hstart : log_u.ted_o = false ∧ log_u.dun_d < log_u.sen_d
  · obtain ⟨hidle, hmore⟩ := hstart
    have hpool : log_u.pool = [] := by
      rcases hinv.flight with ⟨_, hpool⟩ | ⟨hbusy, _⟩
      · exact hpool
      · rw [hidle] at hbusy
        exact absurd hbusy (by simp)
    have hqueue : log_u.ext_u.map (diskSerialize jam) ≠ [] := by
      have hlength := hinv.queue_length
      intro hnil
      rw [List.map_eq_nil_iff] at hnil
      rw [hnil, List.length_nil] at hlength
      omega
    refine ⟨_, diskCommit_eq_ok hidle hmore hinv.queue_number hinv.entry, ?_, ?_⟩
    · exact
        { hinv with
          flight := Or.inr ⟨rfl, _, _, by simp only [hpool, List.nil_append]; rfl, rfl, hqueue,
            List.prefix_rfl⟩
          mdb := by
            rw [hinv.mdb]
            simp [written, hpool] }
    · intro _ _
      simp [hpool]
  · refine ⟨log_u, by simp only [diskCommit, if_neg hstart], hinv, ?_⟩
    intro hidle hmore
    exact absurd ⟨hidle, hmore⟩ hstart

theorem diskCommit_dun {log_u' : Log Job} (hcommit : diskCommit jam log_u = .ok log_u') :
    log_u'.dun_d = log_u.dun_d := by
  unfold diskCommit at hcommit
  split_ifs at hcommit with hstart
  · cases hbatch : diskBatch jam log_u (log_u.sen_d - log_u.dun_d) with
    | error failure => simp [hbatch, bind, Except.bind] at hcommit
    | ok req_u =>
      simp only [hbatch, diskCommitStart, c3Assert, hstart.1, if_true, bind, Except.bind,
        Except.ok.injEq] at hcommit
      rw [← hcommit]
  · rw [Except.ok.inj hcommit]

/-- Appending a numbered fact to the queue, as both planning calls do. -/
theorem Inv.enqueue (hinv : Inv jam start facts log_u) (tac_u : Fact Job)
    (hnumber : tac_u.eve_d = log_u.sen_d + 1) :
    Inv jam start (facts ++ [tac_u]) { log_u with
      sen_d := log_u.sen_d + 1, ext_u := log_u.ext_u ++ [tac_u], ent_u := some tac_u } where
  number := by
    rw [List.map_append, hinv.number, List.length_append, List.length_singleton,
      List.range'_concat]
    have hsen := hinv.sen
    simp only [List.map_cons, List.map_nil, hnumber]
    congr 2
    omega
  sen := by simp [hinv.sen, Nat.add_assoc]
  dun_ge := hinv.dun_ge
  dun_le := Nat.le_succ_of_le hinv.dun_le
  queue := by
    have hle := hinv.dun_le
    have hsen := hinv.sen
    change log_u.ext_u ++ [tac_u] = (facts ++ [tac_u]).drop (log_u.dun_d - start.dun_d)
    rw [List.drop_append_of_le_length (by omega), ← hinv.queue]
  entry := by simp
  flight := by
    rcases hinv.flight with hidle | ⟨hbusy, req_u, ran, hpool, heve, hne, hqueued⟩
    · exact Or.inl hidle
    · refine Or.inr ⟨hbusy, req_u, ran, hpool, heve, hne, ?_⟩
      rw [List.map_append]
      exact hqueued.trans (List.prefix_append _ _)
  mdb := by
    have hwritten := hinv.written_le
    rw [hinv.sen] at hwritten
    rw [hinv.mdb]
    exact (stored_append facts [tac_u] hwritten).symm
  done_lt := hinv.done_lt
  done_le := hinv.done_le

theorem Inv.entry_isNone (hinv : Inv jam start facts log_u) (hnone : log_u.ent_u.isNone) :
    log_u.ext_u = [] := by
  rw [hinv.entry, Option.isNone_iff_eq_none] at hnone
  exact List.getLast?_eq_none_iff.mp hnone

theorem Inv.plan (hinv : Inv jam start facts log_u) (tac_u : Fact Job)
    (hnumber : tac_u.eve_d = log_u.sen_d + 1) :
    ∃ log_u', diskPlan jam log_u tac_u = .ok log_u' ∧ Inv jam start (facts ++ [tac_u]) log_u' ∧
      log_u'.dun_d = log_u.dun_d := by
  obtain ⟨log_u', hcommit, hinv', _⟩ := (hinv.enqueue tac_u hnumber).commit
  have hdun := diskCommit_dun hcommit
  refine ⟨log_u', ?_, hinv', hdun⟩
  by_cases hnone : log_u.ent_u.isNone
  · have hnil := hinv.entry_isNone hnone
    rw [hnil, List.nil_append] at hcommit
    simpa [diskPlan, c3Assert, hnumber, hnone, hnil, Nat.add_comm, bind, Except.bind] using hcommit
  · simpa [diskPlan, c3Assert, hnumber, hnone, Nat.add_comm, bind, Except.bind] using hcommit

/-- `u3_disk_boot_plan` succeeds, or is called on an idle log that is past its first event. -/
theorem Inv.bootPlan (hinv : Inv jam start facts log_u) (job : Job) :
    (∃ log_u', diskBootPlan log_u job = .ok log_u' ∧
      Inv jam start (facts ++ [⟨log_u.sen_d + 1, 0, job⟩]) log_u') ∨
    ∃ failure : Assertion, diskBootPlan log_u job = .error failure ∧ failure.isBoot = true := by
  have hnext := hinv.enqueue ⟨log_u.sen_d + 1, 0, job⟩ rfl
  by_cases hnone : log_u.ent_u.isNone
  · have hnil := hinv.entry_isNone hnone
    rw [hnil, List.nil_append] at hnext
    by_cases hfirst : 1 = log_u.sen_d + 1
    · refine Or.inl ⟨_, ?_, hnext⟩
      simp [diskBootPlan, hnone, hnil, c3Assert, ← hfirst, bind, Except.bind]
    · refine Or.inr ⟨.bootPlanFirst, ?_, rfl⟩
      simp only [diskBootPlan, hnone, hnil, c3Assert, hfirst, if_true, if_false, List.isEmpty_nil,
        bind, Except.bind]
  · refine Or.inl ⟨_, ?_, hnext⟩
    simp [diskBootPlan, hnone]

/-- `u3_disk_boot_save` succeeds, or is called after events have been committed. -/
theorem Inv.bootSave (hinv : Inv jam start facts log_u) :
    (∃ log_u', diskBootSave jam log_u = .ok log_u' ∧ Inv jam start facts log_u') ∨
    ∃ failure : Assertion, diskBootSave jam log_u = .error failure ∧ failure.isBoot = true := by
  by_cases hfresh : log_u.dun_d = 0
  · obtain ⟨log_u', hcommit, hinv', _⟩ := hinv.commit
    refine Or.inl ⟨log_u', ?_, hinv'⟩
    simpa [diskBootSave, c3Assert, hfresh, bind, Except.bind] using hcommit
  · refine Or.inr ⟨.bootSaveFresh, ?_, rfl⟩
    simp [diskBootSave, c3Assert, hfresh, bind, Except.bind]

/-- Writing a batch past the end of the database succeeds and appends it. -/
theorem lmdbSaveLoop_eq_some (byt_p : List (List UInt8)) (txn_u : Db) (key_d : ℕ)
    (hfree : ∀ later_d, key_d ≤ later_d → txn_u later_d = none) :
    lmdbSaveLoop txn_u key_d byt_p =
      some fun at_d ↦ if at_d < key_d then txn_u at_d else byt_p[at_d - key_d]? := by
  induction byt_p generalizing txn_u key_d with
  | nil =>
    refine congrArg some (funext fun at_d ↦ ?_)
    by_cases hlt : at_d < key_d
    · simp [hlt]
    · simp [hlt, hfree at_d (by omega)]
  | cons val_u rest ih =>
    have hnext : ∀ later_d, key_d + 1 ≤ later_d →
        Function.update txn_u key_d (some val_u) later_d = none := by
      intro later_d hlater
      rw [Function.update_of_ne (by omega)]
      exact hfree later_d (by omega)
    simp only [lmdbSaveLoop, mdbPut, hfree key_d le_rfl, Option.isSome_none, Bool.false_eq_true,
      if_false, Option.bind_eq_bind, Option.bind_some, ih _ _ hnext]
    refine congrArg some (funext fun at_d ↦ ?_)
    rcases lt_trichotomy at_d key_d with hlt | rfl | hgt
    · rw [if_pos (by omega), if_pos hlt, Function.update_of_ne (by omega)]
    · simp
    · have hindex : at_d - key_d = (at_d - (key_d + 1)) + 1 := by omega
      rw [if_neg (by omega), if_neg (by omega), hindex, List.getElem?_cons_succ]

/-- The database after a batch in flight has been written. -/
theorem Inv.stored_batch (hinv : Inv jam start facts log_u) {byt_y : List (List UInt8)}
    (hqueued : byt_y <+: log_u.ext_u.map (diskSerialize jam)) :
    (fun at_d ↦ if at_d < log_u.dun_d + 1 then stored jam start facts log_u.dun_d at_d
      else byt_y[at_d - (log_u.dun_d + 1)]?) =
      stored jam start facts (log_u.dun_d + byt_y.length) := by
  have hge := hinv.dun_ge
  funext at_d
  by_cases hlt : at_d < log_u.dun_d + 1
  · rw [if_pos hlt]
    unfold stored
    by_cases hold : at_d ≤ start.dun_d
    · rw [if_pos hold, if_pos hold]
    · rw [if_neg hold, if_neg hold, if_pos (by omega), if_pos (by omega)]
  · rw [if_neg hlt]
    unfold stored
    rw [if_neg (by omega)]
    by_cases hlast : at_d ≤ log_u.dun_d + byt_y.length
    · have hindex : log_u.dun_d - start.dun_d + (at_d - (log_u.dun_d + 1)) =
          at_d - start.dun_d - 1 := by omega
      rw [if_pos hlast, ← hindex, ← List.getElem?_drop, ← hinv.queue, ← List.getElem?_map]
      rw [List.prefix_iff_getElem?.mp hqueued _ (by omega)]
      exact List.getElem?_eq_getElem (by omega)
    · rw [if_neg hlast]
      exact List.getElem?_eq_none (by omega)

/-- The only pool index there can be. -/
theorem getElem?_singleton_eq_some {req_u' : Save} {ran ran' : Bool}
    (hget : [(req_u, ran)][index]? = some (req_u', ran')) :
    index = 0 ∧ req_u' = req_u ∧ ran' = ran := by
  cases index with
  | zero =>
    simp only [List.getElem?_cons_zero, Option.some.injEq, Prod.mk.injEq] at hget
    exact ⟨rfl, hget.1.symm, hget.2.symm⟩
  | succ index => simp at hget

/-- What a request in the pool is, in a state of the pipeline. -/
theorem Inv.flight_of_get (hinv : Inv jam start facts log_u) {ran : Bool}
    (hget : log_u.pool[index]? = some (req_u, ran)) :
    index = 0 ∧ log_u.ted_o = true ∧ log_u.pool = [(req_u, ran)] ∧
      req_u.eve_d = log_u.dun_d + 1 ∧ req_u.byt_y ≠ [] ∧
      req_u.byt_y <+: log_u.ext_u.map (diskSerialize jam) := by
  rcases hinv.flight with ⟨_, hpool⟩ | ⟨hbusy, req_u', ran', hpool, heve, hne, hqueued⟩
  · simp [hpool] at hget
  · rw [hpool] at hget
    obtain ⟨rfl, rfl, rfl⟩ := getElem?_singleton_eq_some hget
    exact ⟨rfl, hbusy, hpool, heve, hne, hqueued⟩

/-- The write off the main thread: it stores the whole batch or nothing. -/
theorem Inv.commitCb (hinv : Inv jam start facts log_u) (fault : Bool)
    (hget : log_u.pool[index]? = some (req_u, false)) :
    ∃ log_u', step jam log_u (.commitCb index fault) = .ok log_u' ∧
      Inv jam start facts log_u' ∧ log_u'.dun_d = log_u.dun_d := by
  obtain ⟨rfl, hbusy, hpool, heve, hne, hqueued⟩ := hinv.flight_of_get hget
  have hmdb : log_u.mdb_u = stored jam start facts log_u.dun_d := by
    simpa [written, hpool] using hinv.mdb
  have hfree : ∀ later_d, log_u.dun_d + 1 ≤ later_d → log_u.mdb_u later_d = none := by
    have hge := hinv.dun_ge
    intro later_d hlater
    rw [hmdb, stored, if_neg (by omega), if_neg (by omega)]
  have hsave : lmdbSave fault log_u.mdb_u req_u.eve_d req_u.byt_y = (!fault, stored jam start facts
      (if fault then log_u.dun_d else log_u.dun_d + req_u.byt_y.length)) := by
    cases fault with
    | true => simpa [lmdbSave] using hmdb
    | false =>
      have hloop := lmdbSaveLoop_eq_some req_u.byt_y _ _ hfree
      rw [hmdb, hinv.stored_batch hqueued, ← hmdb] at hloop
      simp [lmdbSave, heve, hloop]
  refine ⟨{ log_u with
    mdb_u := stored jam start facts
      (if fault then log_u.dun_d else log_u.dun_d + req_u.byt_y.length)
    pool := [({ req_u with ret_o := !fault }, true)] }, ?_, ?_, rfl⟩
  · rw [hpool] at hget
    simp only [step, hpool, hget, hsave, List.set_cons_zero]
  · exact
      { hinv with
        flight := Or.inr ⟨hbusy, { req_u with ret_o := !fault }, true, rfl, heve, hne, hqueued⟩
        mdb := by cases fault <;> rfl }

/-- A completion, up to the commit that ends it: a success moves the last committed event to the end
of the batch and reports it, a failure leaves counters and queue alone. -/
theorem Inv.done (hinv : Inv jam start facts log_u)
    (hget : log_u.pool[index]? = some (req_u, true)) :
    ∃ idle_u, step jam log_u (.commitAfterCb index) = diskCommit jam idle_u ∧
      Inv jam start facts idle_u ∧ idle_u.ted_o = false ∧
      (req_u.ret_o = false → idle_u.dun_d = log_u.dun_d ∧ idle_u.sen_d = log_u.sen_d ∧
        idle_u.ext_u = log_u.ext_u) := by
  obtain ⟨rfl, hbusy, hpool, heve, hne, hqueued⟩ := hinv.flight_of_get hget
  have hge := hinv.dun_ge
  have hsen := hinv.sen
  have hlength := hinv.queue_length
  have hbatch := hqueued.length_le
  have hpos := List.length_pos_iff.mpr hne
  rw [List.length_map] at hbatch
  have hdropWhile : ∀ last_d, log_u.ext_u.dropWhile (fun fact ↦ decide (fact.eve_d ≤ last_d)) =
      log_u.ext_u.drop (last_d - log_u.dun_d) := by
    intro last_d
    rw [dropWhile_number (log_u.dun_d + 1) last_d _ (by rw [hinv.queue_number, hlength])]
    congr 1
    omega
  have hentry : ∀ count, (if (log_u.ext_u.drop count).isEmpty then none else log_u.ent_u) =
      (log_u.ext_u.drop count).getLast? := by
    intro count
    rw [hinv.entry, List.getLast?_drop]
    by_cases hall : log_u.ext_u.length ≤ count
    · simp [hall]
    · simp [hall]
  have hlast : req_u.eve_d + (req_u.byt_y.length - 1) = log_u.dun_d + req_u.byt_y.length := by omega
  rw [hpool] at hget
  cases hret : req_u.ret_o with
  | true =>
    have hmdb : log_u.mdb_u = stored jam start facts (log_u.dun_d + req_u.byt_y.length) := by
      simpa [written, hpool, hret] using hinv.mdb
    refine ⟨{ log_u with
      dun_d := log_u.dun_d + req_u.byt_y.length
      ted_o := false
      ext_u := log_u.ext_u.drop req_u.byt_y.length
      ent_u := if (log_u.ext_u.drop req_u.byt_y.length).isEmpty then none else log_u.ent_u
      pool := []
      write_done := log_u.write_done ++ [log_u.dun_d + req_u.byt_y.length] }, ?_, ?_, rfl, by simp⟩
    · simp only [step, hpool, hget, diskCommitDone, hret, if_true, hlast, hdropWhile,
        Nat.add_sub_cancel_left, List.eraseIdx_cons_zero]
    exact
      { number := hinv.number
        sen := hsen
        dun_ge := by simp only; omega
        dun_le := by simp only; omega
        queue := by
          simp only
          rw [hinv.queue, List.drop_drop]
          congr 1
          omega
        entry := hentry _
        flight := Or.inl ⟨rfl, rfl⟩
        mdb := by simpa [written, hpool] using hmdb
        done_lt := by
          refine List.pairwise_append.mpr ⟨hinv.done_lt, List.pairwise_singleton _ _, ?_⟩
          intro eve_d hmem last_d hlast_d
          have hle := hinv.done_le eve_d hmem
          rw [List.mem_singleton.mp hlast_d]
          omega
        done_le := by
          intro eve_d hmem
          rcases List.mem_append.mp hmem with hold | hnew
          · have hle := hinv.done_le eve_d hold
            simp only
            omega
          · exact (List.mem_singleton.mp hnew).le }
  | false =>
    have hmdb : log_u.mdb_u = stored jam start facts log_u.dun_d := by
      simpa [written, hpool, hret] using hinv.mdb
    have hkeep : log_u.ext_u.drop (log_u.dun_d - log_u.dun_d) = log_u.ext_u := by simp
    have hent : (if log_u.ext_u.isEmpty then none else log_u.ent_u) = log_u.ent_u := by
      simpa only [List.drop_zero, hinv.entry] using hentry 0
    refine ⟨{ log_u with
      ted_o := false
      pool := []
      write_bail := log_u.write_bail ++ [req_u.eve_d + (req_u.byt_y.length - 1)] }, ?_, ?_, rfl,
      fun _ ↦ ⟨rfl, rfl, rfl⟩⟩
    · simp only [step, hpool, hget, diskCommitDone, hret, Bool.false_eq_true, if_false, hdropWhile,
        hkeep, hent, List.eraseIdx_cons_zero]
    exact
      { hinv with
        flight := Or.inl ⟨rfl, rfl⟩
        mdb := by simpa [written, hpool] using hmdb }

/-- A completion never takes back a committed event. -/
theorem Inv.complete (hinv : Inv jam start facts log_u)
    (hget : log_u.pool[index]? = some (req_u, true)) :
    ∃ log_u', step jam log_u (.commitAfterCb index) = .ok log_u' ∧ Inv jam start facts log_u' ∧
      log_u.dun_d ≤ log_u'.dun_d ∧ (req_u.ret_o = false → log_u'.dun_d = log_u.dun_d) := by
  obtain ⟨idle_u, hstep, hidle, _⟩ := hinv.done hget
  obtain ⟨log_u', hcommit, hinv', _⟩ := hidle.commit
  refine ⟨log_u', hstep.trans hcommit, hinv', ?_⟩
  have hdone := hstep.trans hcommit
  simp only [step, hget, diskCommitDone] at hdone
  rw [diskCommit_dun hdone]
  obtain ⟨_, _, _, heve, _⟩ := hinv.flight_of_get hget
  cases req_u.ret_o with
  | true =>
    refine ⟨?_, by simp⟩
    show log_u.dun_d ≤ req_u.eve_d + (req_u.byt_y.length - 1)
    omega
  | false => exact ⟨le_refl log_u.dun_d, fun _ ↦ rfl⟩

end Steps

/-! ### Whole runs -/

section Runs

variable {jam}
variable {start : Log Job} {facts : List (Fact Job)} {log_u : Log Job}

/-- Every event that can happen leaves the pipeline in its invariant, or fails an assertion that
only the boot entry points make. -/
theorem inv_step (hinv : Inv jam start facts log_u) (event : Event Job)
    (henabled : Enabled log_u event) :
    (∃ log_u', step jam log_u event = .ok log_u' ∧
      Inv jam start (facts ++ planned log_u event) log_u') ∨
    ∃ failure : Assertion, step jam log_u event = .error failure ∧ failure.isBoot = true := by
  cases event with
  | plan tac_u =>
    obtain ⟨log_u', hplan, hinv', _⟩ := hinv.plan tac_u henabled
    exact Or.inl ⟨log_u', hplan, hinv'⟩
  | bootPlan job => exact hinv.bootPlan job
  | bootSave =>
    simpa only [planned, step, List.append_nil] using hinv.bootSave
  | commitCb index fault =>
    obtain ⟨req_u, hget⟩ := henabled
    obtain ⟨log_u', hstep, hinv', _⟩ := hinv.commitCb fault hget
    refine Or.inl ⟨log_u', hstep, ?_⟩
    simpa only [planned, List.append_nil] using hinv'
  | commitAfterCb index =>
    obtain ⟨req_u, hget⟩ := henabled
    obtain ⟨log_u', hstep, hinv', _⟩ := hinv.complete hget
    refine Or.inl ⟨log_u', hstep, ?_⟩
    simpa only [planned, List.append_nil] using hinv'

theorem inv_reach (hstart : Start start) (hreach : Reach jam start facts log_u) :
    Inv jam start facts log_u := by
  induction hreach with
  | init => exact inv_start jam hstart
  | step event _ henabled hstep ih =>
    rcases inv_step ih event henabled with ⟨log_u', hok, hinv⟩ | ⟨failure, herror, _⟩
    · rw [hstep, Except.ok.injEq] at hok
      exact hok ▸ hinv
    · rw [hstep] at herror
      exact absurd herror (by simp)

/-- A failed batch is submitted again, from the same first event and with the same bytes, followed
by whatever has been queued since. -/
theorem Inv.resubmit (hinv : Inv jam start facts log_u)
    (hget : log_u.pool[index]? = some (req_u, true)) (hfail : req_u.ret_o = false) :
    ∃ log_u' again_u, step jam log_u (.commitAfterCb index) = .ok log_u' ∧
      log_u'.pool = [(again_u, false)] ∧ again_u.eve_d = req_u.eve_d ∧
      req_u.byt_y <+: again_u.byt_y ∧
      again_u.byt_y = log_u.ext_u.map (diskSerialize jam) := by
  obtain ⟨rfl, _, _, heve, hne, hqueued⟩ := hinv.flight_of_get hget
  obtain ⟨idle_u, hstep, hidle, hted, hsame⟩ := hinv.done hget
  obtain ⟨hdun, hsen, hext⟩ := hsame hfail
  obtain ⟨log_u', hcommit, _, hsubmit⟩ := hidle.commit
  have hmore : idle_u.dun_d < idle_u.sen_d := by
    have hbatch := hqueued.length_le
    have hpos := List.length_pos_iff.mpr hne
    have hlength := hinv.queue_length
    rw [List.length_map] at hbatch
    omega
  refine ⟨log_u', _, hstep.trans hcommit, hsubmit hted hmore, ?_, ?_, ?_⟩
  · rw [heve, hdun]
  · rw [hext]
    exact hqueued
  · rw [hext]

end Runs

/-- The event log pipeline, in every state reached from a log at rest: the planned facts are
numbered consecutively up to `sen_d`; the database holds what it held before and the planned facts
up to `written log_u`, which is `dun_d` except between the successful write of a batch and its
completion; the queue is the facts from `dun_d + 1` on; at most one batch is in flight; the numbers
reported to `write_done_f` increase; a failed batch is submitted again; and no assertion fails. -/
theorem disk_pipeline {start : Log Job} (hstart : Start start) {facts : List (Fact Job)}
    {log_u : Log Job} (hreach : Reach jam start facts log_u) :
    (facts.map Fact.eve_d = List.range' (start.dun_d + 1) facts.length ∧
      log_u.sen_d = start.dun_d + facts.length) ∧
    log_u.mdb_u = stored jam start facts (written log_u) ∧
    (written log_u = log_u.dun_d ∨ ∃ req_u, log_u.pool = [(req_u, true)] ∧ req_u.ret_o = true ∧
      req_u.eve_d = log_u.dun_d + 1 ∧ written log_u = log_u.dun_d + req_u.byt_y.length) ∧
    (log_u.ext_u = facts.drop (log_u.dun_d - start.dun_d) ∧
      log_u.ext_u.map Fact.eve_d =
        List.range' (log_u.dun_d + 1) (log_u.sen_d - log_u.dun_d)) ∧
    log_u.pool.length ≤ 1 ∧
    log_u.write_done.Pairwise (· < ·) ∧
    (∀ (index : ℕ) (req_u : Save), log_u.pool[index]? = some (req_u, true) →
      req_u.ret_o = false → ∃ log_u' again_u,
        step jam log_u (.commitAfterCb index) = .ok log_u' ∧
        log_u'.pool = [(again_u, false)] ∧ again_u.eve_d = req_u.eve_d ∧
        req_u.byt_y <+: again_u.byt_y ∧
        again_u.byt_y = log_u.ext_u.map (diskSerialize jam)) ∧
    ∀ (event : Event Job), Enabled log_u event → ∀ failure : Assertion,
      step jam log_u event = .error failure → failure.isBoot = true := by
  have hinv := inv_reach hstart hreach
  refine ⟨⟨hinv.number, hinv.sen⟩, hinv.mdb, ?_, ⟨hinv.queue, hinv.queue_number⟩, ?_,
    hinv.done_lt, fun index req_u hget hfail ↦ hinv.resubmit hget hfail, ?_⟩
  · rcases hinv.flight with ⟨_, hpool⟩ | ⟨_, req_u, ran, hpool, heve, _, _⟩
    · exact Or.inl (by simp [written, hpool])
    · by_cases hsaved : ran = true ∧ req_u.ret_o = true
      · obtain ⟨rfl, hret⟩ := hsaved
        exact Or.inr ⟨req_u, hpool, hret, heve, by simp [written, hpool, hret]⟩
      · refine Or.inl ?_
        cases ran with
        | false => simp [written, hpool]
        | true =>
          have hret : req_u.ret_o = false := by simpa using hsaved
          simp [written, hpool, hret]
  · rcases hinv.flight with ⟨_, hpool⟩ | ⟨_, req_u, ran, hpool, _⟩ <;> simp [hpool]
  · intro event henabled failure hfailure
    rcases inv_step hinv event henabled with ⟨log_u', hok, _⟩ | ⟨failure', herror, hboot⟩
    · rw [hok] at hfailure
      exact absurd hfailure (by simp)
    · rw [herror, Except.error.injEq] at hfailure
      exact hfailure ▸ hboot

/-- An empty log that stores jobs of one byte. -/
def freshLog : Log UInt8 := ⟨0, 0, false, [], none, [], fun _ ↦ none, [], []⟩

/-- The log after one planned event, a failed write of it, and a second planned event before the
completion of the failed write. -/
def failedLog : Log UInt8 :=
  ⟨2, 0, true, [⟨1, 0, 7⟩, ⟨2, 0, 8⟩], some ⟨2, 0, 8⟩, [(⟨false, 1, [[0, 0, 0, 0, 7]]⟩, true)],
    fun _ ↦ none, [], []⟩

/-- The failed batch of one event is submitted again as a batch of two. -/
theorem disk_pipeline_failed : ∃ log_u' again_u,
    step (fun job : UInt8 ↦ [job]) failedLog (.commitAfterCb 0) = .ok log_u' ∧
      log_u'.pool = [(again_u, false)] ∧ again_u.eve_d = 1 ∧
      [[0, 0, 0, 0, 7]] <+: again_u.byt_y ∧
      again_u.byt_y = [⟨1, 0, 7⟩, ⟨2, 0, 8⟩].map (diskSerialize fun job : UInt8 ↦ [job]) := by
  have hstart : Start freshLog := ⟨rfl, rfl, rfl, rfl, rfl, fun _ _ ↦ rfl, rfl⟩
  have hplan : Reach (fun job : UInt8 ↦ [job]) freshLog [⟨1, 0, 7⟩]
      ⟨1, 0, true, [⟨1, 0, 7⟩], some ⟨1, 0, 7⟩, [(⟨false, 1, [[0, 0, 0, 0, 7]]⟩, false)],
        fun _ ↦ none, [], []⟩ :=
    Reach.step (.plan ⟨1, 0, 7⟩) Reach.init rfl rfl
  have hwrite : Reach (fun job : UInt8 ↦ [job]) freshLog [⟨1, 0, 7⟩]
      ⟨1, 0, true, [⟨1, 0, 7⟩], some ⟨1, 0, 7⟩, [(⟨false, 1, [[0, 0, 0, 0, 7]]⟩, true)],
        fun _ ↦ none, [], []⟩ :=
    Reach.step (.commitCb 0 true) hplan ⟨_, rfl⟩ rfl
  have hreach : Reach (fun job : UInt8 ↦ [job]) freshLog [⟨1, 0, 7⟩, ⟨2, 0, 8⟩] failedLog :=
    Reach.step (.plan ⟨2, 0, 8⟩) hwrite rfl rfl
  exact (disk_pipeline (fun job : UInt8 ↦ [job]) hstart hreach).2.2.2.2.2.2.1 0 _ rfl rfl

end Vere.King.Disk
