import Vere.King.Pier
import Vere.Lib.Results

/-!
# Barriers

`_pier_wall_plan()`, `_pier_wall()` and `_pier_work_send()` of `pkg/vere/pier.c`, in any order,
between pleas that the lord hears and writes to the log. `_pier_wall()` fires the barrier at the
head of the list, and `_pier_work_send()` sends no event past it, so the list has to begin with the
smallest event number. But `_pier_wall_plan()` puts a barrier behind those with larger numbers
(`walls_out_of_order`). `walls_in_order_iff` says that the barriers are in order as long as no two
with different numbers wait at the same time.
-/

set_option autoImplicit false

namespace Vere.King

open Vere.Noun Lib.Results

/-! ### Runs -/

/-- A pier with the barriers that have been planned, in order of arrival. `pend` has the places of
those that wait, in the order of the list, and `fired` of those that have fired, each with the pier
at the time. -/
structure Barriers where
  pir_u : Pier
  planned : List Wall
  pend : List ℕ
  fired : List (ℕ × Pier)

/-- A pier without barriers. -/
def Barriers.begin (pir_u : Pier) : Barriers := ⟨{ pir_u with wal_u := [] }, [], [], []⟩

/-- A barrier is planned, the lord hears a plea, the log goes on, `_pier_wall()` and
`_pier_work_send()` are called, and a scry is asked for. -/
inductive WallEvent
  | plan (eve_d : ℕ) (wal_f : WallCb)
  | hear (plea : Plea)
  | disk (event : Disk.Event Noun)
  | wall
  | send (eggs : List Noun)
  | peek

/-- The number of barriers that `_pier_wall_plan()` passes. -/
def wallSpot (eve_d : ℕ) (wals : List Wall) :
    ℕ := (wals.takeWhile fun las_u ↦ eve_d ≤ las_u.eve_d).length

/-- The piers at which the loop of `_pier_wall()` fires a barrier. -/
def wallFires : List Wall → Pier → List Pier
  | [], _ => []
  | wal_u :: nex_u, pir_u =>
    if pir_u.net.god_u.dep_w = 0 ∧ wal_u.eve_d ≤ pir_u.net.god_u.eve_d then
      pir_u :: match pierWallCb { pir_u with wal_u := nex_u } wal_u.wal_f with
        | .ok pir_u => wallFires nex_u pir_u
        | .error _ => []
    else []

variable (jam : Noun → List UInt8)

/-- One event, while the work has not been closed. -/
def wallStep (bar : Barriers) (event : WallEvent) : Except PierFault Barriers :=
  if bar.pir_u.gone then .error .state
  else
    match event with
    | .plan eve_d wal_f => do
      let pir_u ← pierWallPlan bar.pir_u eve_d wal_f
      let spot := wallSpot eve_d bar.pir_u.wal_u
      .ok { bar with
        pir_u := pir_u, planned := bar.planned ++ [⟨eve_d, wal_f⟩]
        pend := bar.pend.take spot ++ bar.planned.length :: bar.pend.drop spot }
    | .hear plea =>
      match lordOnPlea bar.pir_u.net.god_u plea with
      | .error fault => .error (.lord fault)
      | .ok (god_u, _) =>
        .ok { bar with pir_u := { bar.pir_u with net := { bar.pir_u.net with god_u := god_u } } }
    | .disk event =>
      match Disk.step jam bar.pir_u.log_u event with
      | .error failure => .error (.disk failure)
      | .ok log_u => .ok { bar with pir_u := { bar.pir_u with log_u := log_u } }
    | .wall => do
      let pir_u ← pierWall bar.pir_u
      let firing :=
        if bar.pir_u.net.god_u.eve_d = bar.pir_u.log_u.dun_d then
          wallFires bar.pir_u.wal_u bar.pir_u
        else []
      .ok { bar with
        pir_u := pir_u, pend := bar.pend.drop firing.length,
          fired := bar.fired ++ bar.pend.zip firing }
    | .send eggs => do
      let pir_u ← pierWorkSend bar.pir_u eggs
      .ok { bar with pir_u := pir_u }
    | .peek => do
      let pir_u ← pierRequest bar.pir_u .peek
      .ok { bar with pir_u := pir_u }

/-- A run. -/
def wallRun (bar : Barriers) (events : List WallEvent) : Except PierFault Barriers :=
  events.foldlM (wallStep jam) bar

/-! ### Order -/

/-- The event number of a planned barrier. -/
def Barriers.number (bar : Barriers) (place : ℕ) : ℕ := (bar.planned[place]?.map Wall.eve_d).getD 0

/-- A barrier comes before another: its number is smaller, or it arrived earlier. -/
def Barriers.Before (bar : Barriers) (fir sec : ℕ) : Prop :=
  bar.number fir < bar.number sec ∨ bar.number fir = bar.number sec ∧ fir < sec

/-- The list of barriers is in order, every barrier waits or has fired once, and when it fired, no
writ was outstanding, computed and committed had reached its number, and no barrier with a smaller
number was waiting. -/
structure Barriers.Ordered (bar : Barriers) : Prop where
  list : bar.pend.map (bar.planned[·]?) = bar.pir_u.wal_u.map some
  sorted : bar.pend.Pairwise bar.Before
  once : (bar.fired.map Prod.fst ++ bar.pend).Perm (List.range bar.planned.length)
  ready : ∀ item ∈ bar.fired, item.2.net.god_u.dep_w = 0 ∧
    item.2.net.god_u.eve_d = item.2.log_u.dun_d ∧
    bar.number item.1 ≤ item.2.net.god_u.eve_d ∧ ∀ wal_u ∈ item.2.wal_u, bar.number item.1 ≤
      wal_u.eve_d

/-- The barriers are in order. After `_pier_wall()`, no barrier waits that could fire, and
`_pier_work_send()` sends nothing, or nothing past a barrier. -/
structure Barriers.Good (bar : Barriers) : Prop extends bar.Ordered where
  wall : ∀ bar', wallStep jam bar .wall = .ok bar' → bar'.pir_u.net.god_u.dep_w = 0 →
    bar'.pir_u.net.god_u.eve_d = bar'.pir_u.log_u.dun_d →
    ∀ place ∈ bar'.pend, bar'.pir_u.net.god_u.eve_d < bar.number place
  send : ∀ eggs bar', wallStep jam bar (.send eggs) = .ok bar' → bar'.pir_u.net = bar.pir_u.net ∨
    ∀ place ∈ bar.pend, bar'.pir_u.net.god_u.eve_d + bar'.pir_u.net.god_u.dep_w ≤ bar.number place

/-! ### The list -/

variable {jam}
variable {pir_u pir_u' : Pier} {bar bar' : Barriers}

variable {wals : List Wall} {eggs : List Noun}

theorem wallInsert_all {wal_u : Wall} (hall : ∀ las_u ∈ wals, wal_u.eve_d ≤ las_u.eve_d) :
    wallInsert wal_u wals = wals ++ [wal_u] := by
  induction wals with
  | nil => rfl
  | cons las_u nex_u ih =>
    rw [wallInsert, if_pos (hall las_u List.mem_cons_self),
      ih fun later hlater ↦ hall later (.tail _ hlater), List.cons_append]

theorem wallSpot_all {eve_d : ℕ} (hall : ∀ las_u ∈ wals, eve_d ≤ las_u.eve_d) :
    wallSpot eve_d wals = wals.length := by
  rw [wallSpot, List.takeWhile_eq_self_iff.mpr fun las_u hlas ↦ decide_eq_true (hall las_u hlas)]

/-- A list that is in order after a barrier has been planned has no barrier with another number. -/
theorem eq_of_wallInsert_sorted {wal_u : Wall}
    (hsorted : (wallInsert wal_u wals).Pairwise fun fir sec ↦ fir.eve_d ≤ sec.eve_d) :
    ∀ las_u ∈ wals, las_u.eve_d = wal_u.eve_d := by
  induction wals with
  | nil => nofun
  | cons las_u nex_u ih =>
    rw [wallInsert] at hsorted
    split at hsorted
    · next hle =>
      obtain ⟨hfirst, hrest⟩ := List.pairwise_cons.mp hsorted
      have hmem : ∀ wals : List Wall, wal_u ∈ wallInsert wal_u wals := by
        intro wals
        induction wals with
        | nil => exact List.mem_singleton.mpr rfl
        | cons las_u nex_u ih =>
          rw [wallInsert]
          split
          · exact .tail _ ih
          · exact List.mem_cons_self
      intro later hlater
      rcases List.mem_cons.mp hlater with rfl | hlater
      · exact le_antisymm (hfirst wal_u (hmem nex_u)) hle
      · exact ih hrest later hlater
    · next hlt =>
      exact absurd ((List.pairwise_cons.mp hsorted).1 las_u List.mem_cons_self) hlt

theorem Barriers.Ordered.numbers (hordered : bar.Ordered) :
    bar.pend.map bar.number = bar.pir_u.wal_u.map Wall.eve_d := by
  have hmap :=
    congrArg (List.map fun wal_u : Option Wall ↦ (wal_u.map Wall.eve_d).getD 0) hordered.list
  rw [List.map_map, List.map_map] at hmap
  exact hmap

theorem Barriers.Ordered.ascending (hordered : bar.Ordered) :
    bar.pir_u.wal_u.Pairwise fun fir sec ↦ fir.eve_d ≤ sec.eve_d := by
  rw [← @List.pairwise_map _ _ Wall.eve_d (· ≤ ·), ← hordered.numbers, List.pairwise_map]
  refine hordered.sorted.imp fun {fir sec} hbefore ↦ ?_
  rcases hbefore with hless | ⟨hequal, _⟩
  · exact hless.le
  · exact hequal.le

/-! ### Sending -/

theorem lordSend_counts {god_u god_u' : Lord} {wit_u : Writ} {jar : Option Jar}
    (hsend : lordSend god_u wit_u = .ok (god_u', jar)) :
    god_u'.eve_d = god_u.eve_d ∧ god_u'.dep_w ≤ god_u.dep_w + 1 := by
  have hplan : ∀ {god_u god_u' : Lord} {wit_u : Writ} {jar : Jar},
      lordWritPlan god_u wit_u = .ok (god_u', jar) →
      god_u'.eve_d = god_u.eve_d ∧ god_u'.dep_w ≤ god_u.dep_w + 1 := by
    intro god_u god_u' wit_u jar hplan
    unfold lordWritPlan at hplan
    split_ifs at hplan with hempty hdep
    · obtain ⟨rfl, rfl⟩ := Prod.mk.inj (Except.ok.inj hplan)
      exact ⟨rfl, Nat.le_add_left 1 _⟩
    · obtain ⟨rfl, rfl⟩ := Prod.mk.inj (Except.ok.inj hplan)
      exact ⟨rfl, le_rfl⟩
  have hbind : ∀ {god_u god_u' : Lord} {wit_u : Writ} {jar : Option Jar},
      (lordWritPlan god_u wit_u >>= fun plan ↦ .ok (plan.1, some plan.2)) = .ok (god_u', jar) →
      god_u'.eve_d = god_u.eve_d ∧ god_u'.dep_w ≤ god_u.dep_w + 1 := by
    intro god_u god_u' wit_u jar hbind
    obtain ⟨⟨mid_u, jar'⟩, hresult, hok⟩ := bind_eq_ok hbind
    obtain ⟨rfl, -⟩ := Prod.mk.inj (Except.ok.inj hok)
    exact hplan hresult
  cases wit_u with
  | work job => exact @hbind { god_u with pin_o := true } _ _ _ hsend
  | save =>
    simp only [lordSend] at hsend
    split at hsend
    · obtain ⟨rfl, -⟩ := Prod.mk.inj (Except.ok.inj hsend)
      exact ⟨rfl, Nat.le_succ _⟩
    · exact hbind hsend
  | cram =>
    simp only [lordSend] at hsend
    split at hsend
    · obtain ⟨rfl, -⟩ := Prod.mk.inj (Except.ok.inj hsend)
      exact ⟨rfl, Nat.le_succ _⟩
    · exact hbind hsend
  | _ => exact hbind hsend

/-- What sending one writ leaves alone. -/
structure Sending (pir_u pir_u' : Pier) (count : ℕ) : Prop where
  wal : pir_u'.wal_u = pir_u.wal_u
  log : pir_u'.log_u = pir_u.log_u
  eve : pir_u'.net.god_u.eve_d = pir_u.net.god_u.eve_d
  dep : pir_u'.net.god_u.dep_w ≤ pir_u.net.god_u.dep_w + count

theorem Sending.trans {mid_u : Pier} {fir sec : ℕ} (hfirst : Sending pir_u mid_u fir)
    (hlast : Sending mid_u pir_u' sec) :
    Sending pir_u pir_u' (fir + sec) :=
  ⟨hlast.wal.trans hfirst.wal, hlast.log.trans hfirst.log, hlast.eve.trans hfirst.eve,
    hlast.dep.trans (by have hdep := hfirst.dep; omega)⟩

theorem pierSend_sent {wit_u : Writ} (hsend : pierSend pir_u wit_u = .ok pir_u') :
    Sending pir_u pir_u' 1 := by
  unfold pierSend at hsend
  split at hsend
  · next god_u jar hlord =>
    obtain rfl := Except.ok.inj hsend
    obtain ⟨heve, hdep⟩ := lordSend_counts hlord
    exact ⟨rfl, rfl, heve, hdep⟩
  · cases hsend

theorem pierWallCb_sent {wal_f : WallCb} (hcall : pierWallCb pir_u wal_f = .ok pir_u') :
    Sending pir_u pir_u' 1 := by
  cases wal_f with
  | save => exact pierSend_sent hcall
  | cram => exact pierSend_sent hcall
  | exit =>
    obtain ⟨mid_u, hsend, hok⟩ := bind_eq_ok hcall
    obtain rfl := Except.ok.inj hok
    have hsent := pierSend_sent hsend
    exact ⟨hsent.wal, hsent.log, hsent.eve, hsent.dep⟩

theorem pierPeek_sent {pec_u : ℕ}
    (hsend : pierSend { pir_u with pec_u := pec_u } .peek = .ok pir_u') :
    Sending pir_u pir_u' 1 := by
  have hsent := pierSend_sent hsend
  exact ⟨hsent.wal, hsent.log, hsent.eve, hsent.dep⟩

/-- `_pier_work_send()` sends at most the batch. -/
theorem pierWorkSendEggs_sent {len_w len_w' : ℕ}
    (hsend : pierWorkSendEggs eggs len_w pir_u = .ok (len_w', pir_u')) :
    ∃ count, Sending pir_u pir_u' count ∧ count + len_w' ≤ len_w := by
  induction eggs generalizing pir_u len_w with
  | nil =>
    obtain ⟨rfl, rfl⟩ := Prod.mk.inj (Except.ok.inj hsend)
    exact ⟨0, ⟨rfl, rfl, rfl, le_rfl⟩, (Nat.zero_add _).le⟩
  | cons job eggs ih =>
    rw [pierWorkSendEggs] at hsend
    split at hsend
    · obtain ⟨rfl, rfl⟩ := Prod.mk.inj (Except.ok.inj hsend)
      exact ⟨0, ⟨rfl, rfl, rfl, le_rfl⟩, by omega⟩
    · next hsome =>
      obtain ⟨mid_u, hwork, hsend⟩ := bind_eq_ok hsend
      have hmid := pierSend_sent hwork
      split at hsend
      · next hpeek =>
        obtain ⟨last_u, hpeek, hsend⟩ := bind_eq_ok hsend
        have hlast := pierPeek_sent hpeek
        obtain ⟨count, hrest, hcount⟩ := ih hsend
        exact ⟨1 + (1 + count), hmid.trans (hlast.trans hrest), by omega⟩
      · obtain ⟨count, hrest, hcount⟩ := ih hsend
        exact ⟨1 + count, hmid.trans hrest, by omega⟩

theorem pierWorkSendPeeks_sent {len_w : ℕ} (hsend : pierWorkSendPeeks len_w pir_u = .ok pir_u') :
    Sending pir_u pir_u' len_w := by
  induction len_w generalizing pir_u with
  | zero =>
    obtain rfl := Except.ok.inj hsend
    exact ⟨rfl, rfl, rfl, le_rfl⟩
  | succ len_w ih =>
    rw [pierWorkSendPeeks] at hsend
    split at hsend
    · obtain rfl := Except.ok.inj hsend
      exact ⟨rfl, rfl, rfl, Nat.le_add_right _ _⟩
    · obtain ⟨mid_u, hpeek, hsend⟩ := bind_eq_ok hsend
      have hmid := pierPeek_sent hpeek
      rw [Nat.add_comm]
      exact hmid.trans (ih hsend)

theorem pierWorkSend_sent (hsend : pierWorkSend pir_u eggs = .ok pir_u') :
    ∃ count, Sending pir_u pir_u' count ∧ count ≤ pierWorkLen pir_u := by
  obtain ⟨⟨len_w, mid_u⟩, heggs, hpeeks⟩ := bind_eq_ok hsend
  obtain ⟨count, hmid, hcount⟩ := pierWorkSendEggs_sent heggs
  exact ⟨count + len_w, hmid.trans (pierWorkSendPeeks_sent hpeeks), hcount⟩

theorem pierWorkSend_none (hnone : pierWorkLen pir_u = 0) :
    pierWorkSend pir_u eggs = .ok pir_u := by
  rw [pierWorkSend, hnone]
  cases eggs <;> rfl

/-! ### Firing -/

theorem pierWallLoop_fires (hwals : pir_u.wal_u = wals)
    (hdisk : pir_u.net.god_u.eve_d = pir_u.log_u.dun_d)
    (hloop : pierWallLoop wals pir_u = .ok pir_u') :
    (wallFires wals pir_u).length ≤ wals.length ∧
    pir_u'.wal_u = wals.drop (wallFires wals pir_u).length ∧
      (∀ item ∈ wals.zip (wallFires wals pir_u), item.2.net.god_u.dep_w = 0 ∧
        item.2.net.god_u.eve_d = item.2.log_u.dun_d ∧ item.1.eve_d ≤ item.2.net.god_u.eve_d ∧
        ∃ passed, wals = passed ++ item.2.wal_u ∧ item.2.wal_u.head? = some item.1) ∧
      (pir_u'.net.god_u.dep_w = 0 →
        ∀ wal_u ∈ pir_u'.wal_u.head?, pir_u'.net.god_u.eve_d < wal_u.eve_d) := by
  induction wals generalizing pir_u with
  | nil =>
    obtain rfl := Except.ok.inj hloop
    refine ⟨le_rfl, hwals, nofun, fun _ wal_u hhead ↦ ?_⟩
    rw [hwals] at hhead
    cases hhead
  | cons wal_u nex_u ih =>
    rw [pierWallLoop] at hloop
    by_cases hready : pir_u.net.god_u.dep_w = 0 ∧ wal_u.eve_d ≤ pir_u.net.god_u.eve_d
    · rw [if_pos hready] at hloop
      obtain ⟨mid_u, hcall, hloop⟩ := bind_eq_ok hloop
      have hsent : Sending pir_u { mid_u with wal_u := pir_u.wal_u } 1 := by
        have hsent := pierWallCb_sent hcall
        exact ⟨rfl, hsent.log, hsent.eve, hsent.dep⟩
      have hmid : mid_u.wal_u = nex_u := (pierWallCb_sent hcall).wal
      have hdisk' : mid_u.net.god_u.eve_d = mid_u.log_u.dun_d :=
        hsent.eve.trans (hdisk.trans (congrArg _ hsent.log).symm)
      obtain ⟨hlen, hdrop, hitems, hlast⟩ := ih hmid hdisk' hloop
      have hfires : wallFires (wal_u :: nex_u) pir_u = pir_u :: wallFires nex_u mid_u := by
        rw [wallFires, if_pos hready, hcall]
      rw [hfires]
      refine ⟨Nat.succ_le_succ hlen, hdrop, ?_, hlast⟩
      rintro item hitem
      rw [List.zip_cons_cons] at hitem
      rcases List.mem_cons.mp hitem with rfl | hitem
      · refine ⟨hready.1, hdisk, hready.2, [], hwals.symm, ?_⟩
        show pir_u.wal_u.head? = some wal_u
        rw [hwals]
        rfl
      · obtain ⟨hdep, heve, hle, passed, hpassed, hhead⟩ := hitems item hitem
        exact ⟨hdep, heve, hle, wal_u :: passed, by rw [hpassed]; rfl, hhead⟩
    · rw [if_neg hready] at hloop
      obtain rfl := Except.ok.inj hloop
      have hfires : wallFires (wal_u :: nex_u) pir_u = [] := by rw [wallFires, if_neg hready]
      rw [hfires]
      refine ⟨Nat.zero_le _, hwals, nofun, fun hdep later hhead ↦ ?_⟩
      rw [hwals] at hhead
      obtain rfl := Option.some.inj hhead
      exact not_le.mp fun hle ↦ hready ⟨hdep, hle⟩

/-! ### Steps -/

/-- The barriers that wait have one number. -/
def Barriers.Level (bar : Barriers) : Prop :=
  ∀ wal_u ∈ bar.pir_u.wal_u, ∀ las_u ∈ bar.pir_u.wal_u, wal_u.eve_d = las_u.eve_d

def Barriers.Inv (bar : Barriers) : Prop := bar.Ordered ∧ bar.Level

theorem Barriers.Ordered.place_lt (hordered : bar.Ordered) {place : ℕ} (hplace : place ∈ bar.pend) :
    place < bar.planned.length :=
  List.mem_range.mp (hordered.once.mem_iff.mp (List.mem_append_right _ hplace))

theorem Barriers.Ordered.fired_lt (hordered : bar.Ordered) {item : ℕ × Pier}
    (hitem : item ∈ bar.fired) :
    item.1 < bar.planned.length :=
  List.mem_range.mp (hordered.once.mem_iff.mp (List.mem_append_left _ (List.mem_map_of_mem hitem)))

theorem Barriers.Ordered.mem_number (hordered : bar.Ordered) {place : ℕ}
    (hplace : place ∈ bar.pend) :
    ∃ wal_u ∈ bar.pir_u.wal_u, wal_u.eve_d = bar.number place := by
  have hmem : bar.number place ∈ bar.pir_u.wal_u.map Wall.eve_d := by
    rw [← hordered.numbers]
    exact List.mem_map_of_mem hplace
  exact List.mem_map.mp hmem

/-- The order does not depend on the rest of the pier. -/
theorem Barriers.Ordered.congr (hordered : bar.Ordered) (hwal : pir_u.wal_u = bar.pir_u.wal_u) :
    Barriers.Ordered { bar with pir_u := pir_u } := by
  refine ⟨?_, hordered.sorted, hordered.once, hordered.ready⟩
  rw [hwal]
  exact hordered.list

/-- A barrier that is planned while all that wait have its number is the last of them. -/
theorem Barriers.Ordered.plan (hordered : bar.Ordered) {eve_d : ℕ} {wal_f : WallCb}
    (hlevel : ∀ wal_u ∈ bar.pir_u.wal_u, wal_u.eve_d = eve_d)
    (hstep : wallStep jam bar (.plan eve_d wal_f) = .ok bar') : bar'.Inv := by
  rw [wallStep] at hstep
  split at hstep
  · cases hstep
  obtain ⟨pir_u, hplan, hok⟩ := bind_eq_ok hstep
  rw [pierWallPlan] at hplan
  split at hplan
  · cases hplan
  obtain rfl := Except.ok.inj hplan
  have hlength : bar.pend.length = bar.pir_u.wal_u.length := by
    simpa only [List.length_map] using congrArg List.length hordered.list
  have hge : ∀ las_u ∈ bar.pir_u.wal_u, eve_d ≤ las_u.eve_d :=
    fun las_u hlas ↦ (hlevel las_u hlas).ge
  rw [wallInsert_all hge, wallSpot_all hge, ← hlength] at hok
  dsimp only at hok
  rw [List.take_length, List.drop_length] at hok
  obtain rfl := Except.ok.inj hok
  have hold : ∀ {place : ℕ}, place < bar.planned.length →
      (bar.planned ++ [⟨eve_d, wal_f⟩])[place]? = bar.planned[place]? :=
    fun hplace ↦ List.getElem?_append_left hplace
  have hnew : (bar.planned ++ [⟨eve_d, wal_f⟩])[bar.planned.length]? = some ⟨eve_d, wal_f⟩ := by
    rw [List.getElem?_append_right le_rfl, Nat.sub_self]
    rfl
  refine ⟨⟨?_, ?_, ?_, ?_⟩, ?_⟩
  · dsimp only
    rw [List.map_append, List.map_append, List.map_singleton, List.map_singleton, hnew,
      ← hordered.list]
    refine congrArg (· ++ _)
      (List.map_congr_left fun place hplace ↦ hold (hordered.place_lt hplace))
  · dsimp only
    refine List.pairwise_append.mpr ⟨hordered.sorted.imp_of_mem
      fun {fir sec} hfir hsec hbefore ↦ ?_, List.pairwise_singleton _ _,
      fun place hplace last hlast ↦ ?_⟩
    · unfold Barriers.Before Barriers.number
      rw [hold (hordered.place_lt hfir), hold (hordered.place_lt hsec)]
      exact hbefore
    · obtain rfl := List.mem_singleton.mp hlast
      obtain ⟨wal_u, hwal, heve⟩ := hordered.mem_number hplace
      refine .inr ⟨?_, hordered.place_lt hplace⟩
      unfold Barriers.number
      rw [hold (hordered.place_lt hplace), hnew]
      exact heve.symm.trans (hlevel wal_u hwal)
  · dsimp only
    rw [List.length_append, List.length_singleton, List.range_succ, ← List.append_assoc]
    exact hordered.once.append_right _
  · intro item hitem
    unfold Barriers.number
    rw [hold (hordered.fired_lt hitem)]
    exact hordered.ready item hitem
  · have hone : ∀ wal_u ∈ bar.pir_u.wal_u ++ [⟨eve_d, wal_f⟩], wal_u.eve_d = eve_d := by
      intro wal_u hwal
      rcases List.mem_append.mp hwal with hwal | hwal
      · exact hlevel wal_u hwal
      · rw [List.mem_singleton.mp hwal]
    exact fun wal_u hwal las_u hlas ↦ (hone wal_u hwal).trans (hone las_u hlas).symm

/-- Barriers fire from the head of a list in order. -/
theorem Barriers.Ordered.wall (hordered : bar.Ordered) (hstep : wallStep jam bar .wall = .ok bar') :
    bar'.Ordered ∧ (∃ count, bar'.pir_u.wal_u = bar.pir_u.wal_u.drop count) ∧
      (bar'.pir_u.net.god_u.dep_w = 0 → bar'.pir_u.net.god_u.eve_d = bar'.pir_u.log_u.dun_d →
        ∀ place ∈ bar'.pend, bar'.pir_u.net.god_u.eve_d < bar.number place) := by
  rw [wallStep] at hstep
  split at hstep
  · cases hstep
  obtain ⟨pir_u, hwall, hok⟩ := bind_eq_ok hstep
  rw [pierWall] at hwall
  by_cases hdisk : bar.pir_u.net.god_u.eve_d = bar.pir_u.log_u.dun_d
  · rw [if_pos hdisk] at hwall hok
    obtain ⟨hlen, hdrop, hitems, hlast⟩ := pierWallLoop_fires rfl hdisk hwall
    generalize wallFires bar.pir_u.wal_u bar.pir_u = firing at hok hlen hdrop hitems
    obtain rfl := Except.ok.inj hok
    have hlength : bar.pend.length = bar.pir_u.wal_u.length := by
      simpa only [List.length_map] using congrArg List.length hordered.list
    have hordered' : Barriers.Ordered { bar with
        pir_u := pir_u
        pend := bar.pend.drop firing.length
        fired := bar.fired ++ bar.pend.zip firing } := by
      refine ⟨?_, hordered.sorted.sublist (List.drop_sublist _ _), ?_, fun item hitem ↦ ?_⟩
      · dsimp only
        rw [hdrop, List.map_drop, List.map_drop, hordered.list]
      · have hplaces : (bar.pend.zip firing).map Prod.fst = bar.pend.take firing.length := by
          rw [List.zip_eq_zip_take_min, Nat.min_eq_right (hlen.trans hlength.ge), List.take_length,
            List.map_fst_zip (by rw [List.length_take]; exact min_le_left _ _)]
        dsimp only
        rw [List.map_append, hplaces, List.append_assoc, List.take_append_drop]
        exact hordered.once
      · rcases List.mem_append.mp hitem with hold | hnew
        · exact hordered.ready item hold
        · have hmem : (bar.number item.1, item.2) ∈
              (bar.pir_u.wal_u.map Wall.eve_d).zip firing := by
            rw [← hordered.numbers, List.zip_map_left]
            exact List.mem_map_of_mem hnew
          rw [List.zip_map_left] at hmem
          obtain ⟨⟨wal_u, fir_u⟩, hzip, heq⟩ := List.mem_map.mp hmem
          obtain ⟨hnumber, hfir⟩ := Prod.mk.inj heq
          obtain ⟨hdep, heve, hle, passed, hpassed, hhead⟩ := hitems _ hzip
          have hascending := hordered.ascending
          rw [hpassed, List.pairwise_append] at hascending
          obtain ⟨rest, hrest⟩ := List.head?_eq_some_iff.mp hhead
          rw [← hfir]
          show _ ∧ _ ∧ bar.number item.1 ≤ _ ∧ ∀ las_u ∈ fir_u.wal_u, bar.number item.1 ≤
            las_u.eve_d
          rw [← hnumber]
          refine ⟨hdep, heve, hle, fun las_u hlas ↦ ?_⟩
          have hlater := hascending.2.1
          rw [hrest] at hlater hlas
          rcases List.mem_cons.mp hlas with rfl | hlas
          · exact le_rfl
          · exact (List.pairwise_cons.mp hlater).1 las_u hlas
    refine ⟨hordered', ⟨firing.length, hdrop⟩, fun hdep _ place hplace ↦ ?_⟩
    obtain ⟨wal_u, hmem, hnumber⟩ := hordered'.mem_number hplace
    have hascending := hordered'.ascending
    dsimp only at hmem hascending
    refine hnumber ▸ ?_
    cases hwals : pir_u.wal_u with
    | nil =>
      rw [hwals] at hmem
      cases hmem
    | cons head_u rest =>
      rw [hwals] at hmem hascending
      have hhead := hlast hdep head_u (by rw [hwals]; rfl)
      rcases List.mem_cons.mp hmem with rfl | hmem
      · exact hhead
      · exact hhead.trans_le ((List.pairwise_cons.mp hascending).1 wal_u hmem)
  · rw [if_neg hdisk] at hwall hok
    obtain rfl := Except.ok.inj hwall
    obtain rfl := Except.ok.inj hok
    refine ⟨?_, ⟨0, rfl⟩, fun _ heve ↦ absurd heve hdisk⟩
    simp only [List.length_nil, List.drop_zero, List.zip_nil_right, List.append_nil]
    exact hordered

/-- Every step keeps the order, and that the barriers that wait have one number, when the barriers
that it plans have that number. -/
theorem Barriers.Ordered.step (hordered : bar.Ordered) (hlevel : bar.Level) {event : WallEvent}
    (hplan : ∀ eve_d wal_f, event = .plan eve_d wal_f →
    ∀ wal_u ∈ bar.pir_u.wal_u, wal_u.eve_d = eve_d) (hstep : wallStep jam bar event = .ok bar') :
    bar'.Inv := by
  cases event with
  | plan eve_d wal_f => exact hordered.plan (hplan eve_d wal_f rfl) hstep
  | hear plea =>
    rw [wallStep] at hstep
    split at hstep
    · cases hstep
    dsimp only at hstep
    split at hstep
    · cases hstep
    · obtain rfl := Except.ok.inj hstep
      exact ⟨hordered.congr rfl, hlevel⟩
  | disk event =>
    rw [wallStep] at hstep
    split at hstep
    · cases hstep
    dsimp only at hstep
    split at hstep
    · cases hstep
    · obtain rfl := Except.ok.inj hstep
      exact ⟨hordered.congr rfl, hlevel⟩
  | wall =>
    obtain ⟨hordered', ⟨count, hdrop⟩, _⟩ := hordered.wall hstep
    refine ⟨hordered', ?_⟩
    unfold Barriers.Level
    rw [hdrop]
    exact fun wal_u hwal las_u hlas ↦
      hlevel wal_u (List.mem_of_mem_drop hwal) las_u (List.mem_of_mem_drop hlas)
  | send eggs =>
    rw [wallStep] at hstep
    split at hstep
    · cases hstep
    obtain ⟨pir_u, hsend, hok⟩ := bind_eq_ok hstep
    obtain rfl := Except.ok.inj hok
    obtain ⟨count, hsent, _⟩ := pierWorkSend_sent hsend
    refine ⟨hordered.congr hsent.wal, ?_⟩
    unfold Barriers.Level
    rw [hsent.wal]
    exact hlevel
  | peek =>
    rw [wallStep] at hstep
    split at hstep
    · cases hstep
    obtain rfl := Except.ok.inj hstep
    exact ⟨hordered.congr rfl, hlevel⟩

/-- `_pier_work_send()` sends nothing past a barrier of a list in order. -/
theorem Barriers.Ordered.send (hordered : bar.Ordered)
    (hstep : wallStep jam bar (.send eggs) = .ok bar') : bar'.pir_u.net = bar.pir_u.net ∨
      ∀ place ∈ bar.pend, bar'.pir_u.net.god_u.eve_d + bar'.pir_u.net.god_u.dep_w ≤
        bar.number place := by
  rw [wallStep] at hstep
  split at hstep
  · cases hstep
  obtain ⟨pir_u, hsend, hok⟩ := bind_eq_ok hstep
  obtain rfl := Except.ok.inj hok
  by_cases hnone : pierWorkLen bar.pir_u = 0
  · rw [pierWorkSend_none hnone] at hsend
    obtain rfl := Except.ok.inj hsend
    exact .inl rfl
  · refine .inr fun place hplace ↦ ?_
    obtain ⟨count, hsent, hcount⟩ := pierWorkSend_sent hsend
    obtain ⟨wal_u, hwal, hnumber⟩ := hordered.mem_number hplace
    have hascending := hordered.ascending
    have heve := hsent.eve
    have hdep := hsent.dep
    dsimp only
    rw [← hnumber, heve]
    unfold pierWorkLen at hnone hcount
    cases hwals : bar.pir_u.wal_u with
    | nil =>
      rw [hwals] at hwal
      cases hwal
    | cons head_u rest =>
      rw [hwals] at hwal hascending hnone hcount
      dsimp only at hnone hcount
      have hmod := Nat.mod_le
        (head_u.eve_d - (bar.pir_u.net.god_u.eve_d + bar.pir_u.net.god_u.dep_w)) (2 ^ 32)
      have hhead : head_u.eve_d ≤ wal_u.eve_d := by
        rcases List.mem_cons.mp hwal with rfl | hwal
        · exact le_rfl
        · exact (List.pairwise_cons.mp hascending).1 wal_u hwal
      omega

theorem Barriers.begin_inv (pir_u : Pier) : (Barriers.begin pir_u).Inv :=
  ⟨⟨rfl, .nil, .refl _, nofun⟩, nofun⟩

/-- A barrier that is planned has the event number of all that wait. -/
def WallEvent.Level (jam : Noun → List UInt8) (bar : Barriers) (event : WallEvent) : Prop :=
  ∀ eve_d wal_f bar', event = .plan eve_d wal_f → wallStep jam bar event = .ok bar' →
    ∀ wal_u ∈ bar.pir_u.wal_u, wal_u.eve_d = eve_d

theorem Barriers.Ordered.level_of_plan {event : WallEvent}
    (hafter : ∀ bar', wallStep jam bar event = .ok bar' → bar'.Ordered) : event.Level jam bar := by
  rintro eve_d wal_f bar' rfl hstep
  have hsorted := (hafter bar' hstep).ascending
  rw [wallStep] at hstep
  split at hstep
  · cases hstep
  obtain ⟨pir_u', hplan, hok⟩ := bind_eq_ok hstep
  rw [pierWallPlan] at hplan
  split at hplan
  · cases hplan
  obtain rfl := Except.ok.inj hplan
  obtain rfl := Except.ok.inj hok
  exact eq_of_wallInsert_sorted hsorted

/-- In a run, the barriers are in order in every state, `_pier_wall()` leaves none that could fire,
and `_pier_work_send()` sends nothing past one, if and only if every barrier that is planned has the
event number of all that wait. -/
theorem walls_in_order_iff (jam : Noun → List UInt8) (pir_u : Pier) (events : List WallEvent) :
    (∀ front bar, front <+: events → wallRun jam (.begin pir_u) front = .ok bar → bar.Good jam) ↔
      Every (wallStep jam) (WallEvent.Level jam) (.begin pir_u) events := by
  refine run_partial_iff ?_ ?_ ?_ (Barriers.begin_inv pir_u)
  · rintro bar ⟨hordered, _⟩
    exact ⟨hordered, fun bar' hstep ↦ (hordered.wall hstep).2.2, fun eggs bar' ↦ hordered.send⟩
  · rintro bar event bar' ⟨hordered, hlevel⟩ hmeets hstep
    exact hordered.step hlevel (fun eve_d wal_f hevent ↦ hmeets eve_d wal_f bar' hevent hstep) hstep
  · intro bar event _ hafter
    exact Barriers.Ordered.level_of_plan fun bar' hstep ↦ (hafter bar' hstep).toOrdered

/-- After three events, barriers for events 0 and 5 are planned. The second is put in front of the
first, which could fire and does not; and event 4 is sent past it. -/
theorem walls_out_of_order :
    ∃ bar wait last, wallRun jamBytes (.begin tallyPier) [.plan 0 .save, .plan 5 .save] = .ok bar ∧
    bar.pir_u.wal_u = [⟨5, .save⟩, ⟨0, .save⟩] ∧
    bar.pir_u.net.god_u.dep_w = 0 ∧ bar.pir_u.net.god_u.eve_d = 3 ∧ bar.pir_u.log_u.dun_d = 3 ∧
    wallStep jamBytes bar .wall = .ok wait ∧ wait.pend = [1, 0] ∧ wait.fired = [] ∧
    wallStep jamBytes wait (.send [.cell (.atom 5) (.atom 0)]) = .ok last ∧
    last.pir_u.net.god_u.eve_d + last.pir_u.net.god_u.dep_w = 4 ∧ last.number 0 = 0 :=
  ⟨_, _, _, rfl, rfl, rfl, rfl, rfl, rfl, rfl, rfl, rfl, rfl, rfl⟩

end Vere.King
