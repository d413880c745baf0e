import Vere.King.Play
import Vere.Lib.Linked

/-!
# The queue of replay

`_pier_play_plan()` and `_pier_play_next()` of `pkg/vere/pier.c` on the links of the events. The
queue is a chain with its two ends (`Queued`), and a batch is a chain that is cut off it.

The loop of `_pier_play_next()` counts links, so that a batch has one event more than its length
(`pierPlayNext_runs`). It is the right one if and only if the queue is not longer
(`playNext_detaches_iff`). In every run the events are those that have been sent, and then those of
the queue (`Run.queued`).
-/

set_option autoImplicit false

namespace Vere.King.PlayQueue

open Lib (Chained)

/-! ### The functions -/

/-- `u3_fact` on the heap. -/
structure Node where
  fact : Fact
  nex_u : ℕ

/-- `u3_info`: a batch of events. -/
structure Info where
  ext_u : ℕ
  ent_u : ℕ

/-- `u3_play`, of which the queue uses the two ends and the last event sent, with the memory. -/
structure Ctl where
  sen_d : ℕ
  ext_u : ℕ
  ent_u : ℕ
  mem : ℕ → Node

/-- The link of an event. -/
def Ctl.nex (pay_u : Ctl) (p : ℕ) : ℕ := (pay_u.mem p).nex_u

/-- The events at addresses. -/
def Ctl.facts (pay_u : Ctl) (l : List ℕ) : List Fact := l.map fun p ↦ (pay_u.mem p).fact

/-- Sets the link of an event. -/
def Ctl.setNex (pay_u : Ctl) (p v : ℕ) : Ctl :=
  { pay_u with mem := Function.update pay_u.mem p ⟨(pay_u.mem p).fact, v⟩ }

/-- `_pier_play_plan()`: enqueue events for replay. It does not return when an assertion fails, or a
pointer that is read is null. -/
def pierPlayPlan (pay_u : Ctl) (fon_u : Info) : Option Ctl :=
  if pay_u.ext_u = 0 then
    if pay_u.ent_u ≠ 0 ∨ fon_u.ext_u = 0 then none
    else if (1 + pay_u.sen_d) % 2 ^ 64 ≠ (pay_u.mem fon_u.ext_u).fact.eve_d then none
    else some { pay_u with ext_u := fon_u.ext_u, ent_u := fon_u.ent_u }
  else
    if pay_u.ent_u = 0 ∨ fon_u.ext_u = 0 then none
    else if (1 + (pay_u.mem pay_u.ent_u).fact.eve_d) % 2 ^ 64 ≠
      (pay_u.mem fon_u.ext_u).fact.eve_d then none
    else some { pay_u.setNex pay_u.ent_u fon_u.ext_u with ent_u := fon_u.ent_u }

/-- The loop of `_pier_play_next()`. -/
def playNextLoop (pay_u : Ctl) : ℕ → ℕ → ℕ
  | 0, tac_u => tac_u
  | len_w + 1, tac_u =>
    if pay_u.nex tac_u ≠ 0 then playNextLoop pay_u len_w (pay_u.nex tac_u) else tac_u

/-- `_pier_play_next()`: detach a batch of up to `len_w` events from the queue. It does not return
when there is none. -/
def pierPlayNext (pay_u : Ctl) (len_w : ℕ) : Option (Info × Ctl) :=
  if pay_u.ext_u = 0 then none
  else
    let tac_u := playNextLoop pay_u len_w pay_u.ext_u
    let nex_u := pay_u.nex tac_u
    some (⟨pay_u.ext_u, tac_u⟩,
      if nex_u ≠ 0 then { pay_u.setNex tac_u 0 with ext_u := nex_u } else
        { pay_u with ext_u := 0, ent_u := 0 })

/-! ### The queue -/

/-- The events of the queue are a chain, from its exit to its entry. -/
structure Queued (pay_u : Ctl) (l : List ℕ) : Prop where
  chained : Chained 0 pay_u.nex pay_u.ext_u l
  last : pay_u.ent_u = l.getLastD 0

/-- The events of a batch are a chain that ends. -/
structure Batched (pay_u : Ctl) (fon_u : Info) (l : List ℕ) : Prop where
  chained : Chained 0 pay_u.nex fon_u.ext_u l
  last : fon_u.ent_u = l.getLastD 0

variable {pay_u pay' : Ctl} {fon_u : Info} {l l₁ l₂ queue more batch : List ℕ}
  {planned sent : List Fact} {len_w p : ℕ}

theorem mem_setNex (pay_u : Ctl) (p v q : ℕ) :
    (pay_u.setNex p v).mem q = if q = p then ⟨(pay_u.mem p).fact, v⟩ else pay_u.mem q :=
  Function.update_apply ..

theorem nex_setNex (pay_u : Ctl) (p v q : ℕ) :
    (pay_u.setNex p v).nex q = if q = p then v else pay_u.nex q := by
  rw [Ctl.nex, mem_setNex]
  split
  · rfl
  · rfl

theorem facts_setNex (pay_u : Ctl) (p v : ℕ) (l : List ℕ) :
    (pay_u.setNex p v).facts l = pay_u.facts l := by
  refine List.map_congr_left fun q _ ↦ ?_
  rw [mem_setNex]
  split
  · next hq => rw [hq]
  · rfl

theorem Queued.unique (hqueued : Queued pay_u l₁) (hother : Queued pay_u l₂) : l₁ = l₂ :=
  hqueued.chained.unique hother.chained

/-- The loop ends at the event after as many links, or at the last one. -/
theorem playNextLoop_eq {hed : ℕ} (len_w : ℕ) (hchained : Chained 0 pay_u.nex hed l)
    (hne : l ≠ []) :
    ∃ xs, l = xs ++ playNextLoop pay_u len_w hed :: l.drop (len_w + 1) ∧
      xs ++ [playNextLoop pay_u len_w hed] = l.take (len_w + 1) := by
  induction len_w generalizing hed l with
  | zero =>
    cases l with
    | nil => exact absurd rfl hne
    | cons q l =>
      obtain rfl := hchained.1
      exact ⟨[], rfl, rfl⟩
  | succ len_w ih =>
    cases l with
    | nil => exact absurd rfl hne
    | cons q l =>
      obtain ⟨rfl, _, hrest⟩ := hchained
      rw [playNextLoop]
      cases l with
      | nil =>
        have hend : pay_u.nex hed = 0 := hrest
        rw [if_neg (not_not.mpr hend)]
        exact ⟨[], rfl, rfl⟩
      | cons r l =>
        rw [if_pos (by rw [hrest.1]; exact hrest.2.1)]
        obtain ⟨xs, hsplit, htake⟩ := ih hrest (List.cons_ne_nil r l)
        refine ⟨hed :: xs, ?_, ?_⟩
        · rw [List.cons_append, List.drop_succ_cons, ← hsplit]
        · rw [List.cons_append, htake, List.take_succ_cons (i := len_w + 1)]

/-- The events of the queue as far as the loop comes are detached. -/
theorem pierPlayNext_runs (hqueued : Queued pay_u queue) (hne : queue ≠ []) (len_w : ℕ) :
    ∃ fon_u pay', pierPlayNext pay_u len_w = some (fon_u, pay') ∧
      Batched pay' fon_u (queue.take (len_w + 1)) ∧
      Queued pay' (queue.drop (len_w + 1)) ∧ ∀ l, pay'.facts l = pay_u.facts l := by
  obtain ⟨xs, hsplit, htake⟩ := playNextLoop_eq len_w hqueued.chained hne
  have hnonzero : pay_u.ext_u ≠ 0 := by
    cases queue with
    | nil => exact absurd rfl hne
    | cons q queue =>
      rw [hqueued.chained.1]
      exact hqueued.chained.2.1
  unfold pierPlayNext
  rw [if_neg hnonzero]
  dsimp only
  generalize hloop : playNextLoop pay_u len_w pay_u.ext_u = tac_u at hsplit htake
  generalize hdrop : queue.drop (len_w + 1) = rest at hsplit
  have hchained := hqueued.chained
  have hlast := hqueued.last
  rw [hsplit] at hchained hlast
  have hnodup := hchained.nodup
  have hnex : pay_u.nex tac_u = rest.headD 0 := hchained.of_append.2.2.head_eq
  rw [← htake]
  cases rest with
  | nil =>
    have hend : pay_u.nex tac_u = 0 := hnex
    rw [if_neg (not_not.mpr hend)]
    refine ⟨_, _, rfl, ⟨hchained, ?_⟩, ⟨rfl, rfl⟩, fun l ↦ rfl⟩
    simp
  | cons r rest =>
    have hrest := hchained.of_append.2.2
    have hhead : pay_u.nex tac_u = r := hnex
    rw [hhead] at hrest ⊢
    rw [if_pos hrest.2.1]
    have hkeep : ∀ q, q ≠ tac_u → (pay_u.setNex tac_u 0).nex q = pay_u.nex q := fun q hq ↦ by
      rw [nex_setNex, if_neg hq]
    rw [List.nodup_append] at hnodup
    refine ⟨_, _, rfl, ⟨?_, ?_⟩, ⟨?_, ?_⟩, facts_setNex pay_u tac_u 0⟩
    · show Chained 0 (pay_u.setNex tac_u 0).nex pay_u.ext_u (xs ++ [tac_u])
      refine hchained.cut (fun q hq ↦ hkeep q ?_) (by rw [nex_setNex, if_pos rfl])
      exact hnodup.2.2 q hq tac_u List.mem_cons_self
    · simp
    · refine hrest.congr fun q hq ↦ hkeep q ?_
      rintro rfl
      exact (List.nodup_cons.mp hnodup.2.1).1 hq
    · show pay_u.ent_u = _
      rw [hlast]
      simp [List.getLast?_cons]

theorem pierPlayPlan_runs (hqueued : Queued pay_u queue) (hmore : Batched pay_u fon_u more)
    (hne : more ≠ [])
    (hapart : ∀ p ∈ more, p ∉ queue) (hplan : pierPlayPlan pay_u fon_u = some pay') :
    Queued pay' (queue ++ more) ∧ ∀ l, pay'.facts l = pay_u.facts l := by
  unfold pierPlayPlan at hplan
  by_cases hempty : pay_u.ext_u = 0
  · obtain rfl : queue = [] := by
      cases queue with
      | nil => rfl
      | cons q queue => exact absurd (hqueued.chained.1.symm.trans hempty) hqueued.chained.2.1
    rw [if_pos hempty] at hplan
    split_ifs at hplan
    obtain rfl := Option.some.inj hplan
    exact ⟨⟨hmore.chained, hmore.last⟩, fun l ↦ rfl⟩
  · rw [if_neg hempty] at hplan
    split_ifs at hplan
    obtain rfl := Option.some.inj hplan
    have hqueue : queue ≠ [] := by
      rintro rfl
      exact hempty hqueued.chained
    obtain ⟨xs, tac_u, rfl⟩ := (List.eq_nil_or_concat queue).resolve_left hqueue
    rw [List.concat_eq_append] at hqueued hapart ⊢
    have hent : pay_u.ent_u = tac_u := by
      rw [hqueued.last]
      simp
    rw [hent]
    have hkeep : ∀ q, q ≠ tac_u → (pay_u.setNex tac_u fon_u.ext_u).nex q = pay_u.nex q :=
      fun q hq ↦ by
      rw [nex_setNex, if_neg hq]
    refine ⟨⟨?_, ?_⟩, facts_setNex pay_u tac_u fon_u.ext_u⟩
    · show Chained 0 (pay_u.setNex tac_u fon_u.ext_u).nex pay_u.ext_u (xs ++ [tac_u] ++ more)
      rw [List.append_assoc]
      refine hqueued.chained.join (fun q hq ↦ hkeep q ?_) (by rw [nex_setNex, if_pos rfl])
        (hmore.chained.congr fun q hq ↦ hkeep q ?_)
      · exact (List.nodup_append.mp hqueued.chained.nodup).2.2 q hq tac_u
          (List.mem_singleton_self tac_u)
      · rintro rfl
        exact hapart q hq (List.mem_append_right xs (List.mem_singleton_self q))
    · show fon_u.ent_u = _
      rw [hmore.last]
      cases more with
      | nil => exact absurd rfl hne
      | cons r more => simp [List.getLast?_cons]

/-! ### Runs -/

/-- Calls on a queue, with the events that have been planned, those of the queue at the start among
them, and those that have been sent. Between calls, events that are not in the queue change, and so
does the number of the last event sent. -/
inductive Run : Ctl → List Fact → List Fact → Prop
  | queue {pay_u : Ctl} {queue : List ℕ} (hqueued : Queued pay_u queue) :
    Run pay_u (pay_u.facts queue) []
  | plan {pay_u pay' : Ctl} {planned sent : List Fact} {fon_u : Info} {more : List ℕ}
    (hrun : Run pay_u planned sent)
      (hmore : Batched pay_u fon_u more) (hne : more ≠ [])
      (hapart : ∀ queue, Queued pay_u queue → ∀ p ∈ more, p ∉ queue)
      (hplan : pierPlayPlan pay_u fon_u = some pay') : Run pay' (planned ++ pay_u.facts more) sent
  | next {pay_u pay' : Ctl} {planned sent : List Fact} {fon_u : Info} {batch : List ℕ} {len_w : ℕ}
      (hrun : Run pay_u planned sent) (hnext : pierPlayNext pay_u len_w = some (fon_u, pay'))
      (hbatch : Batched pay' fon_u batch) : Run pay' planned (sent ++ pay'.facts batch)
  | other {pay_u : Ctl} {planned sent : List Fact} {sen_d : ℕ} {mem : ℕ → Node}
    (hrun : Run pay_u planned sent)
      (hkeep : ∀ queue, Queued pay_u queue → ∀ p ∈ queue, mem p = pay_u.mem p) :
      Run { pay_u with sen_d := sen_d, mem := mem } planned sent

/-- No event is lost or duplicated. -/
theorem Run.queued (hrun : Run pay_u planned sent) :
    ∃ queue, Queued pay_u queue ∧ planned = sent ++ pay_u.facts queue := by
  induction hrun with
  | queue hqueued => exact ⟨_, hqueued, rfl⟩
  | @plan pay_u pay' planned sent fon_u more _ hmore hne hapart hplan ih =>
    obtain ⟨queue, hqueued, rfl⟩ := ih
    obtain ⟨hqueued', hfacts⟩ := pierPlayPlan_runs hqueued hmore hne (hapart queue hqueued) hplan
    refine ⟨queue ++ more, hqueued', ?_⟩
    rw [hfacts, List.append_assoc]
    unfold Ctl.facts
    rw [List.map_append]
  | @next pay_u pay' planned sent fon_u batch len_w _ hnext hbatch ih =>
    obtain ⟨queue, hqueued, rfl⟩ := ih
    have hne : queue ≠ [] := by
      rintro rfl
      have hnull : pay_u.ext_u = 0 := hqueued.chained
      rw [pierPlayNext, if_pos hnull] at hnext
      cases hnext
    obtain ⟨fon', pay'', hruns, htaken, hleft, hfacts⟩ := pierPlayNext_runs hqueued hne len_w
    obtain ⟨rfl, rfl⟩ := Prod.mk.inj (Option.some.inj (hruns.symm.trans hnext))
    obtain rfl := htaken.chained.unique hbatch.chained
    refine ⟨_, hleft, ?_⟩
    rw [List.append_assoc, hfacts, hfacts]
    unfold Ctl.facts
    rw [← List.map_append, List.take_append_drop]
  | @other pay_u planned sent sen_d mem _ hkeep ih =>
    obtain ⟨queue, hqueued, rfl⟩ := ih
    have hsame := hkeep queue hqueued
    refine ⟨queue, ⟨hqueued.chained.congr fun q hq ↦ congrArg Node.nex_u (hsame q hq),
      hqueued.last⟩, ?_⟩
    exact congrArg (sent ++ ·) (List.map_congr_left fun q hq ↦ congrArg Node.fact (hsame q hq).symm)

/-- What a batch of up to `len_w` events should be: the first events of the queue, as a chain that
ends, while the others stay queued, and every event that was planned has been sent, is in the batch,
or is in the queue. -/
def Detaches (pay_u : Ctl) (queue : List ℕ) (planned sent : List Fact) (len_w : ℕ) : Prop :=
  ∃ fon_u pay', pierPlayNext pay_u len_w = some (fon_u, pay') ∧
    Batched pay' fon_u (queue.take (min len_w queue.length)) ∧
      Queued pay' (queue.drop (min len_w queue.length)) ∧
    planned = sent ++ pay'.facts (queue.take (min len_w queue.length)) ++
      pay'.facts (queue.drop (min len_w queue.length))

/-- The loop counts links, so that a batch has one event too many, unless it has the whole queue. -/
theorem playNext_detaches_iff (hrun : Run pay_u planned sent) (hqueued : Queued pay_u queue)
    (hne : queue ≠ []) :
    Detaches pay_u queue planned sent len_w ↔ queue.length ≤ len_w := by
  obtain ⟨queue', hqueued', hplanned⟩ := hrun.queued
  obtain rfl := hqueued'.unique hqueued
  obtain ⟨fon_u, pay', hnext, hbatch, hleft, hfacts⟩ := pierPlayNext_runs hqueued hne len_w
  constructor
  · rintro ⟨fon', pay'', hnext', hbatch', _⟩
    obtain ⟨rfl, rfl⟩ := Prod.mk.inj (Option.some.inj (hnext.symm.trans hnext'))
    have hlength := congrArg List.length (hbatch.chained.unique hbatch'.chained)
    simp only [List.length_take] at hlength
    omega
  · intro hshort
    have hall : queue'.take (min len_w queue'.length) = queue'.take (len_w + 1) := by
      rw [List.take_of_length_le (by omega), List.take_of_length_le (by omega)]
    have hnone : queue'.drop (min len_w queue'.length) = queue'.drop (len_w + 1) := by
      rw [List.drop_of_length_le (by omega), List.drop_of_length_le (by omega)]
    refine ⟨fon_u, pay', hnext, by rwa [hall], by rwa [hnone], ?_⟩
    rw [hplanned, hall, hnone, hfacts, hfacts, List.append_assoc]
    unfold Ctl.facts
    rw [← List.map_append, List.take_append_drop]

/-- Two events. -/
def twoEvents : Ctl :=
  ⟨0, 1, 2, fun p ↦ if p = 1 then ⟨⟨1, 0, .atom 0⟩, 2⟩ else if p = 2 then ⟨⟨2, 0, .atom 0⟩, 0⟩ else
    ⟨⟨0, 0, .atom 0⟩, 0⟩⟩

theorem twoEvents_queued : Queued twoEvents [1, 2] :=
  ⟨⟨rfl, by decide, rfl, by decide, rfl⟩, rfl⟩

/-- A batch of both. -/
theorem playNext_detaches_two : Detaches twoEvents [1, 2] (twoEvents.facts [1, 2]) [] 2 ↔ 2 ≤ 2 :=
  playNext_detaches_iff (.queue twoEvents_queued) twoEvents_queued (by decide)

/-- A batch of one event has both. -/
theorem playNext_one_more :
    Run twoEvents (twoEvents.facts [1, 2]) [] ∧ Queued twoEvents [1, 2] ∧
      ¬Detaches twoEvents [1, 2] (twoEvents.facts [1, 2]) [] 1 := by
  refine ⟨.queue twoEvents_queued, twoEvents_queued, ?_⟩
  rintro ⟨fon_u, pay', hnext, hbatch, _⟩
  obtain ⟨rfl, rfl⟩ := Prod.mk.inj (Option.some.inj hnext)
  have hlast : (2 : ℕ) = 1 := hbatch.last
  cases hlast

/-! ### The lists -/

end Vere.King.PlayQueue
