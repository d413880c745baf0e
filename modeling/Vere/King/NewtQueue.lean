import Mathlib.Logic.Function.Basic
import Vere.King.Newt
import Vere.Lib.Linked

/-!
# The newt delivery queue

`pkg/vere/newt.c`: completed messages wait in a linked list until they are delivered, one at a read
and one at each firing of a timer. A delivery may itself read, plan, deliver and stop the stream
before it returns (`Event`). Messages are delivered in the order in which they were planned, no
memory is used after it is freed, and a message that waits has a timer armed for it, unless the
decoder refused a read since the last one that it took (`newt_delivery`): then the error callback is
told instead, and the messages of that read are delivered with the next one.
-/

set_option autoImplicit false
set_option relaxedAutoImplicit false

namespace Vere.King.Newt

open Lib

/-! ### The stream -/

/-- `u3_meat` in memory. -/
structure Node where
  nex_u : ℕ
  met_u : Meat

/-- `u3_moat`, with the memory of its messages, its timer, and whether its handles are closed; and
the messages planned, those handed to the callback, and whether a read has been refused since the
last one that was taken. -/
structure Stream where
  mes_u : Mess
  mem : ℕ → Option Node
  top : ℕ
  ent_u : ℕ
  ext_u : ℕ
  tim_u : Bool
  shut : Bool
  plans : List Meat
  pokes : List Meat
  refused : Bool

/-- `_newt_read_init()`. -/
def readInit : Stream := ⟨messHead, fun _ ↦ none, 1, 0, 0, false, false, [], [], false⟩

/-- `c3_free()` of a message. -/
def meatFree (s : Stream) (met_u : ℕ) : Option Stream :=
  match s.mem met_u with
  | none => none
  | some _ => some { s with mem := Function.update s.mem met_u none }

/-- `_newt_meat_plan()`, of a message that was allocated for it. -/
def Stream.meatPlan (s : Stream) (met : Meat) : Option Stream :=
  let met_u := s.top
  let s := { s with
    mem := Function.update s.mem met_u (some ⟨0, met⟩)
    top := met_u + 1
    plans := s.plans ++ [met] }
  if s.ent_u ≠ 0 then
    match s.mem s.ent_u with
    | none => none
    | some node => some { s with
        mem := Function.update s.mem s.ent_u (some { node with nex_u := met_u })
        ent_u := met_u }
  else some { s with ent_u := met_u, ext_u := met_u }

/-- `_newt_meat_poke()`. -/
def meatPoke (pok_f : Stream → Option Stream) (s : Stream) (met_u : ℕ) : Option Stream :=
  match s.mem met_u with
  | none => none
  | some node => do
    let s ← pok_f { s with pokes := s.pokes ++ [node.met_u] }
    meatFree s met_u

/-- The queue without its first message, and the timer for the next one. -/
def Stream.advance (s : Stream) (nex_u : ℕ) : Stream :=
  let s := { s with ext_u := nex_u }
  if s.ext_u ≠ 0 then { s with tim_u := true } else { s with ent_u := 0 }

/-- `_newt_meat_next()`. -/
def meatNext (pok_f : Stream → Option Stream) (s : Stream) : Option Stream :=
  let met_u := s.ext_u
  if met_u = 0 then some s
  else
    match s.mem met_u with
    | none => none
    | some node => meatPoke pok_f (s.advance node.nex_u) met_u

/-- The loop of `_newt_meat_next_sync()`, whose callback leaves the stream alone. -/
def meatSync : ℕ → Stream → ℕ → Option Stream
  | 0, s, met_u => if met_u = 0 then some s else none
  | fuel + 1, s, met_u =>
    if met_u = 0 then some s
    else
      match s.mem met_u with
      | none => none
      | some node => do
        let s ← meatPoke some s met_u
        meatSync fuel s node.nex_u

/-- `_newt_meat_next_sync()`. -/
def meatNextSync (s : Stream) : Option Stream := do
  let s ← meatSync s.top s s.ext_u
  some { s with ent_u := 0, ext_u := 0 }

/-- The loop of `u3_newt_moat_stop()` over the pending messages. -/
def dispose : ℕ → Stream → ℕ → Option Stream
  | 0, s, met_u => if met_u = 0 then some s else none
  | fuel + 1, s, met_u =>
    if met_u = 0 then some s
    else
      match s.mem met_u with
      | none => none
      | some node => do
        let s ← meatFree s met_u
        dispose fuel s node.nex_u

/-- The message in progress after `u3_newt_moat_stop()`. -/
def Mess.stop : Mess → Mess
  | .head hed_y hneed => .head hed_y hneed
  | .tail _ _ _ => messHead

/-- `u3_newt_moat_stop()`. Its callers close a stream once. -/
def moatStop (s : Stream) : Option Stream :=
  if s.shut then some s
  else do
    let s ← dispose s.top { s with shut := true, tim_u := false, mes_u := s.mes_u.stop } s.ext_u
    some { s with ent_u := 0, ext_u := 0 }

/-- `u3_newt_decode()` on a chunk: the messages that it completes are planned in turn. -/
def Stream.newtDecode (s : Stream) (buf_y : List UInt8) : Option (Bool × Stream) :=
  let (ok, mot_u) := Newt.newtDecode ⟨s.mes_u, []⟩ buf_y
  do
    let s ← mot_u.ext_u.foldlM Stream.meatPlan { s with mes_u := mot_u.mes_u }
    some (ok, s)

/-- What happens to a stream, with what its callbacks do before they return: the error callback of a
read, and the delivery that a read or a timer makes. -/
inductive Event
  /-- `_newt_read_cb()` on a chunk. -/
  | read (buf_y : List UInt8) (bail poke : List Event) : Event
  /-- `_newt_read_cb()` on an error. -/
  | fail (bail : List Event) : Event
  /-- `_newt_meat_next_cb()`. -/
  | timer (poke : List Event) : Event
  /-- `u3_newt_moat_stop()`. -/
  | stop : Event

mutual

/-- An event. A handle that is closed has no callbacks, nor has a timer that is not armed. -/
def Event.run : Event → Stream → Option Stream
  | .read buf_y bail poke, s =>
    if s.shut ∨ buf_y = [] then some s
    else
      match s.newtDecode buf_y with
      | none => none
      | some (false, s) => Event.runAll bail { s with refused := true }
      | some (true, s) => meatNext (Event.runAll poke) { s with refused := false }
  | .fail bail, s => if s.shut then some s else Event.runAll bail s
  | .timer poke, s =>
    if s.tim_u then meatNext (Event.runAll poke) { s with tim_u := false } else some s
  | .stop, s => moatStop s

/-- Events, one after the other. -/
def Event.runAll : List Event → Stream → Option Stream
  | [], s => some s
  | ev :: evs, s =>
    match ev.run s with
    | none => none
    | some s => Event.runAll evs s

end

/-- `_newt_read_sync_cb()` on chunks; the error callback does not return. -/
def runSync : List (List UInt8) → Stream → Option Stream
  | [], s => some s
  | buf_y :: rest, s =>
    if buf_y = [] then runSync rest s
    else
      match s.newtDecode buf_y with
      | none => none
      | some (false, s) => some { s with shut := true }
      | some (true, s) =>
        match meatNextSync s with
        | none => none
        | some s => runSync rest s

/-! ### The queue in memory -/

/-- The link of a message. -/
def Stream.nex (s : Stream) (p : ℕ) : ℕ := (s.mem p).elim 0 Node.nex_u

/-- The messages at addresses. -/
def Stream.meats (s : Stream) (l : List ℕ) : List Meat :=
  l.filterMap fun p ↦ (s.mem p).map Node.met_u

/-- The queue is the list of messages at some addresses, from `ext_u` to `ent_u`. -/
structure QueueOk (s : Stream) (l : List ℕ) : Prop where
  chained : Chained 0 s.nex s.ext_u l
  last : s.ent_u = l.getLastD 0
  nodup : l.Nodup
  alloc : ∀ p ∈ l, s.mem p ≠ none
  fresh : ∀ p, s.top ≤ p → s.mem p = none
  pos : 0 < s.top

/-- The memory outside the queue stays as it is, and outside the queue. -/
def Keeps (s : Stream) (l : List ℕ) (s' : Stream) (l' : List ℕ) : Prop :=
  ∀ p, s.mem p ≠ none → p ∉ l → s'.mem p = s.mem p ∧ p ∉ l'

/-- What is planned is what was delivered and what is in the queue, until the stream is stopped. -/
structure Logged (s : Stream) (l : List ℕ) : Prop where
  plans : s.shut = false → s.plans = s.pokes ++ s.meats l
  shut : s.shut = true → l = []
  delivered : s.pokes <+: s.plans

/-- A message that waits has a timer, unless a read was refused. -/
def Armed (s : Stream) (l : List ℕ) : Prop := l ≠ [] → s.tim_u = true ∨ s.refused = true

/-- The stream between callbacks. -/
structure StreamOk (s : Stream) (l : List ℕ) : Prop where
  queue : QueueOk s l
  logged : Logged s l
  armed : Armed s l

variable {s s' s'' : Stream} {l l' l'' : List ℕ} {p : ℕ}

theorem Keeps.refl (s : Stream) (l : List ℕ) : Keeps s l s l := fun _ _ hnot ↦ ⟨rfl, hnot⟩

theorem Keeps.trans (hfst : Keeps s l s' l') (hsnd : Keeps s' l' s'' l'') : Keeps s l s'' l'' := by
  intro p halloc hnot
  obtain ⟨hmem, hnot'⟩ := hfst p halloc hnot
  rw [← hmem] at halloc ⊢
  exact hsnd p halloc hnot'

theorem QueueOk.lt_top (hok : QueueOk s l) (halloc : s.mem p ≠ none) : p < s.top := by
  by_contra hge
  exact halloc (hok.fresh p (by omega))

/-- What is not allocated stays so when only the queue is freed. -/
theorem QueueOk.fresh_of_keep (hok : QueueOk s l) {mem : ℕ → Option Node}
    (hkeep : ∀ p, p ∉ l → mem p = s.mem p) (p : ℕ) (hp : s.top ≤ p) : mem p = none := by
  rw [hkeep p fun hmem ↦ hok.alloc p hmem (hok.fresh p hp)]
  exact hok.fresh p hp

theorem QueueOk.ent_eq_zero_iff (hok : QueueOk s l) : s.ent_u = 0 ↔ l = [] := by
  rw [hok.last]
  constructor
  · intro hzero
    by_contra hne
    exact hok.chained.ne_null (getLastD_mem hne) hzero
  · rintro rfl
    rfl

theorem meats_congr (hmem : ∀ p ∈ l, (s'.mem p).map Node.met_u = (s.mem p).map Node.met_u) :
    s'.meats l = s.meats l :=
  List.filterMap_congr hmem

/-- The queue after planning some messages. -/
structure Planned (s : Stream) (l : List ℕ) (ms : List Meat) (s' : Stream) (l' : List ℕ) :
    Prop where
  queue : QueueOk s' l'
  keeps : Keeps s l s' l'
  meats : s'.meats l' = s.meats l ++ ms
  plans : s'.plans = s.plans ++ ms
  pokes : s'.pokes = s.pokes
  tim_u : s'.tim_u = s.tim_u
  shut : s'.shut = s.shut

/-- A new message behind the last one. -/
theorem QueueOk.planned (hok : QueueOk s l) {met : Meat} (hnew : s'.mem s.top = some ⟨0, met⟩)
    (hsame : ∀ q, q ≠ s.top → (l ≠ [] → q ≠ s.ent_u) → s'.mem q = s.mem q)
    (hlast : l ≠ [] → s'.mem s.ent_u = (s.mem s.ent_u).map fun node ↦ { node with nex_u := s.top })
    (htop : s'.top = s.top + 1) (hent : s'.ent_u = s.top)
    (hext : s'.ext_u = if l = [] then s.top else s.ext_u) (hplans : s'.plans = s.plans ++ [met])
    (hpokes : s'.pokes = s.pokes) (htim : s'.tim_u = s.tim_u) (hshut : s'.shut = s.shut) :
    Planned s l [met] s' (l ++ [s.top]) := by
  have hfree : s.mem s.top = none := hok.fresh _ (Nat.le_refl _)
  have hnot : s.top ∉ l := fun hmem ↦ hok.alloc _ hmem hfree
  have hold : ∀ q ∈ l, q ≠ s.top := fun q hq heq ↦ hnot (heq ▸ hq)
  have hmem : l ≠ [] → s.ent_u ∈ l := fun hne ↦ hok.last ▸ getLastD_mem hne
  have hmap : ∀ q ∈ l, (s'.mem q).map Node.met_u = (s.mem q).map Node.met_u := by
    intro q hq
    by_cases heq : q = s.ent_u
    · subst heq
      rw [hlast (List.ne_nil_of_mem hq), Option.map_map]
      rfl
    · rw [hsame q (hold q hq) fun _ ↦ heq]
  have hchained : Chained 0 s'.nex s'.ext_u (l ++ [s.top]) := by
    rw [hext]
    refine hok.chained.concat hok.nodup (Nat.ne_of_gt hok.pos) ?_ ?_ ?_
    · intro q hq hne
      rw [← hok.last] at hne
      rw [Stream.nex, hsame q (hold q hq) fun _ ↦ hne, Stream.nex]
    · intro hne
      rw [← hok.last, Stream.nex, hlast hne]
      obtain ⟨node, hnode⟩ := Option.ne_none_iff_exists'.mp (hok.alloc _ (hmem hne))
      rw [hnode]
      rfl
    · rw [Stream.nex, hnew]
      rfl
  refine ⟨⟨hchained, ?_, ?_, ?_, ?_, ?_⟩, ?_, ?_, hplans, hpokes, htim, hshut⟩
  · rw [List.getLastD_concat, hent]
  · exact List.nodup_append'.mpr ⟨hok.nodup, List.nodup_singleton _, by simpa using hnot⟩
  · intro q hq
    rcases List.mem_append.mp hq with hq | hq
    · intro hnone
      have hnone' := hmap q hq
      rw [hnone, Option.map_none, eq_comm, Option.map_eq_none_iff] at hnone'
      exact hok.alloc q hq hnone'
    · rw [List.mem_singleton.mp hq, hnew]
      simp
  · intro q hq
    rw [htop] at hq
    rw [hsame q (by omega) fun hne heq ↦ ?_]
    · exact hok.fresh q (by omega)
    · have hlt := hok.lt_top (hok.alloc _ (hmem hne))
      omega
  · omega
  · intro q halloc hout
    have hneq : q ≠ s.top := fun heq ↦ halloc (heq ▸ hfree)
    refine ⟨hsame q hneq fun hne heq ↦ hout (heq ▸ hmem hne), ?_⟩
    simpa using ⟨hout, hneq⟩
  · rw [Stream.meats, List.filterMap_append, ← Stream.meats, meats_congr hmap]
    simp [hnew]

/-- Planning links a message behind the last one. -/
theorem planned_meatPlan (hok : QueueOk s l) (met : Meat) :
    ∃ s', s.meatPlan met = some s' ∧ Planned s l [met] s' (l ++ [s.top]) := by
  have hfree : s.mem s.top = none := hok.fresh _ (Nat.le_refl _)
  unfold Stream.meatPlan
  dsimp only
  by_cases hent : s.ent_u = 0
  · obtain rfl := hok.ent_eq_zero_iff.mp hent
    rw [if_neg (not_not.mpr hent)]
    refine ⟨_, rfl, hok.planned ?_ ?_ ?_ rfl rfl rfl rfl rfl rfl rfl⟩
    · exact Function.update_self _ _ _
    · exact fun q hne _ ↦ Function.update_of_ne hne _ _
    · exact fun hne ↦ absurd rfl hne
  · have hne : l ≠ [] := fun hnil ↦ hent (hok.ent_eq_zero_iff.mpr hnil)
    have hmem : s.ent_u ∈ l := hok.last ▸ getLastD_mem hne
    have hneq : s.ent_u ≠ s.top := fun heq ↦ hok.alloc _ hmem (heq ▸ hfree)
    obtain ⟨node, hnode⟩ := Option.ne_none_iff_exists'.mp (hok.alloc _ hmem)
    rw [if_pos hent, Function.update_of_ne hneq, hnode]
    refine ⟨_, rfl, hok.planned ?_ ?_ ?_ rfl rfl (if_neg hne).symm rfl rfl rfl rfl⟩
    · exact (Function.update_of_ne hneq.symm _ _).trans (Function.update_self _ _ _)
    · exact fun q htop hq ↦ (Function.update_of_ne (hq hne) _ _).trans
        (Function.update_of_ne htop _ _)
    · intro _
      rw [hnode]
      exact Function.update_self _ _ _

theorem Planned.refl (hok : QueueOk s l) : Planned s l [] s l :=
  ⟨hok, .refl s l, (List.append_nil _).symm, (List.append_nil _).symm, rfl, rfl, rfl⟩

theorem Planned.trans {ms ms' : List Meat} (hfst : Planned s l ms s' l')
    (hsnd : Planned s' l' ms' s'' l'') : Planned s l (ms ++ ms') s'' l'' where
  queue := hsnd.queue
  keeps := hfst.keeps.trans hsnd.keeps
  meats := by rw [hsnd.meats, hfst.meats, List.append_assoc]
  plans := by rw [hsnd.plans, hfst.plans, List.append_assoc]
  pokes := hsnd.pokes.trans hfst.pokes
  tim_u := hsnd.tim_u.trans hfst.tim_u
  shut := hsnd.shut.trans hfst.shut

theorem planned_all (hok : QueueOk s l) (ms : List Meat) :
    ∃ s' l', ms.foldlM Stream.meatPlan s = some s' ∧ Planned s l ms s' l' := by
  induction ms generalizing s l with
  | nil => exact ⟨s, l, rfl, .refl hok⟩
  | cons met ms ih =>
    obtain ⟨s₁, hplan, hplanned⟩ := planned_meatPlan hok met
    obtain ⟨s', l', hplans, hplanned'⟩ := ih hplanned.queue
    refine ⟨s', l', ?_, hplanned.trans hplanned'⟩
    rw [List.foldlM_cons, hplan]
    exact hplans

theorem planned_newtDecode (hok : QueueOk s l) (buf_y : List UInt8) : ∃ s' l',
    s.newtDecode buf_y = some ((Newt.newtDecode ⟨s.mes_u, []⟩ buf_y).1, s') ∧
      Planned s l (Newt.newtDecode ⟨s.mes_u, []⟩ buf_y).2.ext_u s' l' := by
  have hok' : QueueOk { s with mes_u := (Newt.newtDecode ⟨s.mes_u, []⟩ buf_y).2.mes_u } l :=
    ⟨hok.chained, hok.last, hok.nodup, hok.alloc, hok.fresh, hok.pos⟩
  obtain ⟨s', l', hplans, hplanned⟩ :=
    planned_all hok' (Newt.newtDecode ⟨s.mes_u, []⟩ buf_y).2.ext_u
  refine ⟨s', l', ?_, hplanned.queue, hplanned.keeps, hplanned.meats, hplanned.plans,
    hplanned.pokes, hplanned.tim_u, hplanned.shut⟩
  unfold Stream.newtDecode
  generalize Newt.newtDecode ⟨s.mes_u, []⟩ buf_y = got at hplans ⊢
  obtain ⟨ok, mot_u⟩ := got
  dsimp only at hplans ⊢
  rw [hplans]
  rfl

/-! ### Delivery -/

theorem length_le_top (hok : QueueOk s l) : l.length ≤ s.top := by
  have hsub : l ⊆ List.range s.top := fun q hq ↦ List.mem_range.mpr (hok.lt_top (hok.alloc q hq))
  simpa using hok.nodup.length_le_of_subset hsub

theorem QueueOk.free (hok : QueueOk s l) (hnot : p ∉ l) :
    QueueOk { s with mem := Function.update s.mem p none } l := by
  have hsame : ∀ q ∈ l, Function.update s.mem p none q = s.mem q := by
    intro q hq
    have hne : q ≠ p := by
      rintro rfl
      exact hnot hq
    exact Function.update_of_ne hne _ _
  refine ⟨hok.chained.congr fun q hq ↦ ?_, hok.last, hok.nodup, ?_, ?_, hok.pos⟩
  · rw [Stream.nex, Stream.nex]
    exact congrArg (Option.elim · 0 Node.nex_u) (hsame q hq)
  · intro q hq hnone
    exact hok.alloc q hq ((hsame q hq).symm.trans hnone)
  · intro q hq
    by_cases heq : q = p
    · exact heq ▸ Function.update_self _ _ _
    · exact (Function.update_of_ne heq _ _).trans (hok.fresh q hq)

theorem StreamOk.free (hok : StreamOk s l) (hnot : p ∉ l) :
    StreamOk { s with mem := Function.update s.mem p none } l := by
  refine ⟨hok.queue.free hnot, ⟨fun hopen ↦ ?_, hok.logged.shut, hok.logged.delivered⟩, hok.armed⟩
  refine (hok.logged.plans hopen).trans (congrArg (s.pokes ++ ·) (meats_congr fun q hq ↦ ?_).symm)
  have hne : q ≠ p := by
    rintro rfl
    exact hnot hq
  exact congrArg _ (Function.update_of_ne hne _ _)

/-- What a callback may do: it returns, and leaves the memory outside the queue alone. -/
def Returning (f : Stream → Option Stream) : Prop :=
  ∀ s l, StreamOk s l → ∃ s' l', f s = some s' ∧ StreamOk s' l' ∧ Keeps s l s' l'

theorem meatFree_eq (halloc : s.mem p ≠ none) :
    meatFree s p = some { s with mem := Function.update s.mem p none } := by
  obtain ⟨node, hnode⟩ := Option.ne_none_iff_exists'.mp halloc
  rw [meatFree, hnode]

theorem meatPoke_eq {pok_f : Stream → Option Stream} {node : Node} (hnode : s.mem p = some node)
    (hrun : pok_f { s with pokes := s.pokes ++ [node.met_u] } = some s')
    (halloc : s'.mem p ≠ none) :
    meatPoke pok_f s p = some { s' with mem := Function.update s'.mem p none } := by
  unfold meatPoke
  rw [hnode]
  dsimp only
  rw [hrun]
  exact meatFree_eq halloc

@[simp] theorem advance_mem (s : Stream) (nex_u : ℕ) : (s.advance nex_u).mem = s.mem := by
  unfold Stream.advance
  dsimp only
  split <;> rfl

/-- The stream when its first message is delivered: the message is out of the queue, and the timer
is armed for the next one. -/
theorem streamOk_advance {node : Node} (hok : QueueOk s (p :: l)) (hlogged : Logged s (p :: l))
    (hnode : s.mem p = some node) :
    StreamOk
      { s.advance node.nex_u with pokes := (s.advance node.nex_u).pokes ++ [node.met_u] } l := by
  obtain ⟨-, -, hrest⟩ := hok.chained
  have hopen : s.shut = false := by
    by_contra hshut
    simpa using hlogged.shut (by simpa using hshut)
  have hplans : s.plans = (s.pokes ++ [node.met_u]) ++ s.meats l := by
    rw [hlogged.plans hopen, List.append_assoc]
    simp [Stream.meats, hnode]
  have hnex : s.nex p = node.nex_u := by rw [Stream.nex, hnode]; rfl
  have halloc : ∀ q ∈ l, s.mem q ≠ none := fun q hq ↦ hok.alloc q (List.mem_cons_of_mem p hq)
  rw [hnex] at hrest
  unfold Stream.advance
  dsimp only
  cases l with
  | nil =>
    have hnil : node.nex_u = 0 := hrest
    rw [if_neg (not_not.mpr hnil)]
    exact ⟨⟨hrest, rfl, List.nodup_nil, halloc, hok.fresh, hok.pos⟩,
      ⟨fun _ ↦ hplans, fun _ ↦ rfl, hplans ▸ List.prefix_append _ _⟩, fun hne ↦ absurd rfl hne⟩
  | cons q l =>
    have hne : node.nex_u ≠ 0 := hrest.1 ▸ hrest.2.1
    rw [if_pos hne]
    exact ⟨⟨hrest, hok.last.trans List.getLastD_cons, hok.nodup.of_cons, halloc, hok.fresh,
      hok.pos⟩, ⟨fun _ ↦ hplans, fun hshut ↦ absurd (hopen.symm.trans hshut) (by decide),
        hplans ▸ List.prefix_append _ _⟩, fun _ ↦ .inl rfl⟩

theorem streamOk_meatNext {pok_f : Stream → Option Stream} (hpoke : Returning pok_f)
    (hok : QueueOk s l) (hlogged : Logged s l) :
    ∃ s' l', meatNext pok_f s = some s' ∧ StreamOk s' l' ∧ Keeps s l s' l' := by
  unfold meatNext
  dsimp only
  cases l with
  | nil =>
    have hext : s.ext_u = 0 := hok.chained
    rw [if_pos hext]
    exact ⟨s, [], rfl, ⟨hok, hlogged, fun hne ↦ absurd rfl hne⟩, .refl s []⟩
  | cons p l =>
    obtain ⟨hext, hpos, -⟩ := hok.chained
    obtain ⟨node, hnode⟩ := Option.ne_none_iff_exists'.mp (hok.alloc p (by simp))
    have hnot : p ∉ l := (List.nodup_cons.mp hok.nodup).1
    obtain ⟨s₁, l₁, hrun, hok₁, hkeeps⟩ := hpoke _ _ (streamOk_advance hok hlogged hnode)
    have hmem := hkeeps p
    rw [advance_mem] at hmem
    obtain ⟨hmem, hnot₁⟩ := hmem (by simp [hnode]) hnot
    rw [if_neg (hext ▸ hpos), hext, hnode]
    refine ⟨_, l₁, ?_, hok₁.free hnot₁, ?_⟩
    · refine meatPoke_eq ((congrFun (advance_mem s _) p).trans hnode) hrun ?_
      rw [hmem, hnode]
      simp
    · intro q halloc hout
      obtain ⟨hne, hout'⟩ := List.ne_and_not_mem_of_not_mem_cons hout
      have hkept := hkeeps q
      rw [advance_mem] at hkept
      obtain ⟨hsame, hout₁⟩ := hkept halloc hout'
      exact ⟨(Function.update_of_ne hne _ _).trans hsame, hout₁⟩

theorem chained_free (hnot : p ∉ l) {hed : ℕ} (hchained : Chained 0 s.nex hed l)
    {pokes : List Meat} :
    Chained 0 (Stream.nex { s with
      mem := Function.update s.mem p none, pokes := pokes }) hed l := by
  refine hchained.congr fun q hq ↦ congrArg (Option.elim · 0 Node.nex_u) ?_
  refine Function.update_of_ne ?_ _ _
  rintro rfl
  exact hnot hq

theorem alloc_free (hnot : p ∉ l) (halloc : ∀ q ∈ l, s.mem q ≠ none) :
    ∀ q ∈ l, Function.update s.mem p none q ≠ none := by
  intro q hq
  rw [Function.update_of_ne]
  · exact halloc q hq
  · rintro rfl
    exact hnot hq

theorem dispose_eq {fuel hed : ℕ} (hchained : Chained 0 s.nex hed l) (hnodup : l.Nodup)
    (halloc : ∀ p ∈ l, s.mem p ≠ none) (hfuel : l.length ≤ fuel) :
    ∃ mem, dispose fuel s hed = some { s with mem := mem } ∧ ∀ p, p ∉ l → mem p = s.mem p := by
  induction l generalizing s hed fuel with
  | nil =>
    have hhed : hed = 0 := hchained
    refine ⟨s.mem, ?_, fun _ _ ↦ rfl⟩
    cases fuel <;> exact if_pos hhed
  | cons p l ih =>
    obtain ⟨rfl, hpos, hrest⟩ := hchained
    obtain ⟨hnot, hnodup⟩ := List.nodup_cons.mp hnodup
    obtain ⟨node, hnode⟩ := Option.ne_none_iff_exists'.mp (halloc hed (by simp))
    have hnex : s.nex hed = node.nex_u := by rw [Stream.nex, hnode]; rfl
    rw [hnex] at hrest
    obtain ⟨more, rfl⟩ : ∃ more, fuel = more + 1 := ⟨fuel - 1, by simp at hfuel; omega⟩
    obtain ⟨mem, hrun, hkeep⟩ := ih (s := { s with mem := Function.update s.mem hed none })
      (chained_free hnot hrest) hnodup
      (alloc_free hnot fun q hq ↦ halloc q (List.mem_cons_of_mem _ hq)) (by simpa using hfuel)
    refine ⟨mem, ?_, fun q hq ↦ ?_⟩
    · rw [dispose, if_neg hpos, hnode]
      dsimp only
      rw [meatFree_eq (by simp [hnode])]
      exact hrun
    · obtain ⟨hne, hq⟩ := List.ne_and_not_mem_of_not_mem_cons hq
      exact (hkeep q hq).trans (Function.update_of_ne hne _ _)

/-- The loop of `_newt_meat_next_sync()` delivers and frees the queue. -/
theorem meatSync_eq {fuel hed : ℕ} (hchained : Chained 0 s.nex hed l) (hnodup : l.Nodup)
    (halloc : ∀ p ∈ l, s.mem p ≠ none) (hfuel : l.length ≤ fuel) :
    ∃ mem, meatSync fuel s hed = some { s with mem := mem, pokes := s.pokes ++ s.meats l } ∧
      ∀ p, p ∉ l → mem p = s.mem p := by
  induction l generalizing s hed fuel with
  | nil =>
    have hhed : hed = 0 := hchained
    refine ⟨s.mem, ?_, fun _ _ ↦ rfl⟩
    rw [show s.pokes ++ s.meats [] = s.pokes from List.append_nil _]
    cases fuel <;> exact if_pos hhed
  | cons p l ih =>
    obtain ⟨rfl, hpos, hrest⟩ := hchained
    obtain ⟨hnot, hnodup⟩ := List.nodup_cons.mp hnodup
    obtain ⟨node, hnode⟩ := Option.ne_none_iff_exists'.mp (halloc hed (by simp))
    have hnex : s.nex hed = node.nex_u := by rw [Stream.nex, hnode]; rfl
    rw [hnex] at hrest
    obtain ⟨more, rfl⟩ : ∃ more, fuel = more + 1 := ⟨fuel - 1, by simp at hfuel; omega⟩
    obtain ⟨mem, hrun, hkeep⟩ :=
      ih (s := { s with mem := Function.update s.mem hed none, pokes := s.pokes ++ [node.met_u] })
      (chained_free hnot hrest) hnodup
      (alloc_free hnot fun q hq ↦ halloc q (List.mem_cons_of_mem _ hq)) (by simpa using hfuel)
    have hmeats : Stream.meats
        { s with mem := Function.update s.mem hed none, pokes := s.pokes ++ [node.met_u] } l =
          s.meats l := by
      refine meats_congr fun q hq ↦ congrArg _ (Function.update_of_ne ?_ _ _)
      rintro rfl
      exact hnot hq
    refine ⟨mem, ?_, fun q hq ↦ ?_⟩
    · rw [meatSync, if_neg hpos, hnode]
      dsimp only
      rw [meatPoke_eq hnode rfl (by simp [hnode])]
      refine hrun.trans ?_
      rw [hmeats, List.append_assoc]
      simp [Stream.meats, hnode]
    · obtain ⟨hne, hq⟩ := List.ne_and_not_mem_of_not_mem_cons hq
      exact (hkeep q hq).trans (Function.update_of_ne hne _ _)

theorem returning_moatStop : Returning moatStop := by
  intro s l hok
  unfold moatStop
  by_cases hshut : s.shut = true
  · rw [if_pos hshut]
    exact ⟨s, l, rfl, hok, .refl s l⟩
  · rw [if_neg hshut]
    have hqueue := hok.queue
    obtain ⟨mem, hrun, hkeep⟩ := dispose_eq
      (s := { s with shut := true, tim_u := false, mes_u := s.mes_u.stop })
      hqueue.chained hqueue.nodup hqueue.alloc (length_le_top hqueue)
    rw [hrun]
    exact ⟨_, [], rfl, ⟨⟨rfl, rfl, List.nodup_nil, by simp, hqueue.fresh_of_keep hkeep, hqueue.pos⟩,
      ⟨fun hopen ↦ absurd hopen (by simp), fun _ ↦ rfl, hok.logged.delivered⟩,
      fun hne ↦ absurd rfl hne⟩, fun q _ hout ↦ ⟨hkeep q hout, by simp⟩⟩

/-! ### Runs -/

theorem Planned.logged {ms : List Meat} (hplanned : Planned s l ms s' l') (hlogged : Logged s l)
    (hopen : s.shut = false) : Logged s' l' := by
  have hplans : s'.plans = s'.pokes ++ s'.meats l' := by
    rw [hplanned.plans, hplanned.pokes, hplanned.meats, hlogged.plans hopen, List.append_assoc]
  refine ⟨fun _ ↦ hplans, fun hshut ↦ ?_, hplans ▸ List.prefix_append _ _⟩
  rw [hplanned.shut, hopen] at hshut
  exact absurd hshut (by decide)

mutual

theorem Event.returning_run : ∀ ev : Event, Returning ev.run
  | .read buf_y bail poke => by
    intro s l hok
    rw [Event.run]
    by_cases hskip : s.shut = true ∨ buf_y = []
    · rw [if_pos hskip]
      exact ⟨s, l, rfl, hok, .refl s l⟩
    rw [if_neg hskip]
    rw [not_or] at hskip
    obtain ⟨s₁, l₁, hdecode, hplanned⟩ := planned_newtDecode hok.queue buf_y
    have hlogged := hplanned.logged hok.logged (by simpa using hskip.1)
    rw [hdecode]
    cases (Newt.newtDecode ⟨s.mes_u, []⟩ buf_y).1 with
    | false =>
      obtain ⟨s', l', hrun, hok', hkeeps⟩ :=
        Event.returning_runAll bail { s₁ with refused := true } l₁
        ⟨⟨hplanned.queue.chained, hplanned.queue.last, hplanned.queue.nodup, hplanned.queue.alloc,
          hplanned.queue.fresh, hplanned.queue.pos⟩,
          ⟨hlogged.plans, hlogged.shut, hlogged.delivered⟩, fun _ ↦ .inr rfl⟩
      exact ⟨s', l', hrun, hok', hplanned.keeps.trans hkeeps⟩
    | true =>
      obtain ⟨s', l', hrun, hok', hkeeps⟩ :=
        streamOk_meatNext (s := { s₁ with refused := false }) (l := l₁)
        (Event.returning_runAll poke)
        ⟨hplanned.queue.chained, hplanned.queue.last, hplanned.queue.nodup, hplanned.queue.alloc,
          hplanned.queue.fresh, hplanned.queue.pos⟩ ⟨hlogged.plans, hlogged.shut, hlogged.delivered⟩
      exact ⟨s', l', hrun, hok', hplanned.keeps.trans hkeeps⟩
  | .fail bail => by
    intro s l hok
    rw [Event.run]
    by_cases hshut : s.shut = true
    · rw [if_pos hshut]
      exact ⟨s, l, rfl, hok, .refl s l⟩
    · rw [if_neg hshut]
      exact Event.returning_runAll bail s l hok
  | .timer poke => by
    intro s l hok
    rw [Event.run]
    by_cases htim : s.tim_u = true
    · rw [if_pos htim]
      exact streamOk_meatNext (s := { s with tim_u := false }) (Event.returning_runAll poke)
        ⟨hok.queue.chained, hok.queue.last, hok.queue.nodup, hok.queue.alloc, hok.queue.fresh,
          hok.queue.pos⟩ ⟨hok.logged.plans, hok.logged.shut, hok.logged.delivered⟩
    · rw [if_neg htim]
      exact ⟨s, l, rfl, hok, .refl s l⟩
  | .stop => by
    intro s l hok
    rw [Event.run]
    exact returning_moatStop s l hok

theorem Event.returning_runAll : ∀ evs : List Event, Returning (Event.runAll evs)
  | [] => fun s l hok ↦ ⟨s, l, by rw [Event.runAll], hok, .refl s l⟩
  | ev :: evs => by
    intro s l hok
    obtain ⟨s₁, l₁, hrun, hok₁, hkeeps⟩ := Event.returning_run ev s l hok
    obtain ⟨s', l', hrun', hok', hkeeps'⟩ := Event.returning_runAll evs s₁ l₁ hok₁
    refine ⟨s', l', ?_, hok', hkeeps.trans hkeeps'⟩
    rw [Event.runAll, hrun]
    exact hrun'

end

theorem streamOk_readInit : StreamOk readInit [] :=
  ⟨⟨rfl, rfl, List.nodup_nil, by simp, fun _ _ ↦ rfl, Nat.one_pos⟩,
    ⟨fun _ ↦ rfl, fun _ ↦ rfl, List.prefix_refl _⟩, fun hne ↦ absurd rfl hne⟩

theorem QueueOk.ext_eq_zero_iff (hok : QueueOk s l) : s.ext_u = 0 ↔ l = [] := by
  cases l with
  | nil => exact ⟨fun _ ↦ rfl, fun _ ↦ hok.chained⟩
  | cons p l =>
    obtain ⟨hext, hpos, -⟩ := hok.chained
    simp [hext, hpos]

/-- A delivery whose callback leaves the stream alone. -/
theorem meatNext_quiet (hok : QueueOk s (p :: l)) (hlogged : Logged s (p :: l)) :
    ∃ s', meatNext (Event.runAll []) s = some s' ∧ StreamOk s' l ∧ s'.shut = s.shut ∧
      s'.plans = s.plans ∧ s'.refused = s.refused := by
  obtain ⟨hext, hpos, -⟩ := hok.chained
  obtain ⟨node, hnode⟩ := Option.ne_none_iff_exists'.mp (hok.alloc p (by simp))
  have hnot : p ∉ l := (List.nodup_cons.mp hok.nodup).1
  have hmem : (s.advance node.nex_u).mem p = some node := by rw [advance_mem, hnode]
  unfold meatNext
  dsimp only
  rw [if_neg (hext ▸ hpos), hext, hnode]
  refine ⟨_, meatPoke_eq hmem (by rw [Event.runAll]) (by simp [hnode]),
    (streamOk_advance hok hlogged hnode).free hnot, ?_⟩
  unfold Stream.advance
  dsimp only
  split <;> exact ⟨rfl, rfl, rfl⟩

theorem timers_deliver (hok : StreamOk s l) (hopen : s.shut = false) (htaken : s.refused = false) :
    ∃ s', Event.runAll (List.replicate l.length (.timer [])) s = some s' ∧ s'.plans = s.plans ∧
      s'.pokes = s.plans := by
  induction l generalizing s with
  | nil =>
    refine ⟨s, by rw [List.length_nil, List.replicate_zero, Event.runAll], rfl, ?_⟩
    rw [hok.logged.plans hopen]
    exact (List.append_nil _).symm
  | cons p l ih =>
    have htim : s.tim_u = true := by
      rcases hok.armed (by simp) with htim | hrefused
      · exact htim
      · exact absurd (htaken.symm.trans hrefused) (by decide)
    have hqueue := hok.queue
    obtain ⟨s₁, hnext, hok₁, hshut, hplans, hrefused⟩ :=
      meatNext_quiet (s := { s with tim_u := false })
      (p := p) (l := l) ⟨hqueue.chained, hqueue.last, hqueue.nodup, hqueue.alloc, hqueue.fresh,
      hqueue.pos⟩
      ⟨hok.logged.plans, hok.logged.shut, hok.logged.delivered⟩
    obtain ⟨s', hrun, hplans', hpokes⟩ := ih hok₁ (hshut.trans hopen) (hrefused.trans htaken)
    refine ⟨s', ?_, hplans'.trans hplans, hpokes.trans hplans⟩
    rw [List.length_cons, List.replicate_succ, Event.runAll, Event.run, if_pos htim, hnext]
    exact hrun

/-- The drain of a stream that is read synchronously. -/
theorem meatNextSync_eq (hok : QueueOk s l) (hlogged : Logged s l) (hopen : s.shut = false) :
    ∃ s', meatNextSync s = some s' ∧ QueueOk s' [] ∧ s'.shut = false ∧ s'.plans = s'.pokes := by
  obtain ⟨mem, hrun, hkeep⟩ := meatSync_eq hok.chained hok.nodup hok.alloc (length_le_top hok)
  rw [meatNextSync, hrun]
  exact ⟨_, rfl, ⟨rfl, rfl, List.nodup_nil, by simp, hok.fresh_of_keep hkeep, hok.pos⟩, hopen,
    hlogged.plans hopen⟩

/-- A stream that is read synchronously delivers every message of a read before the next one. -/
theorem runSync_delivers (hok : QueueOk s []) (hopen : s.shut = false) (hplans : s.plans = s.pokes)
    (chunks : List (List UInt8)) : ∃ s', runSync chunks s = some s' ∧ s'.pokes <+: s'.plans ∧
      (s'.shut = false → s'.ext_u = 0 ∧ s'.pokes = s'.plans) := by
  induction chunks generalizing s with
  | nil =>
    exact ⟨s, rfl, hplans ▸ List.prefix_refl _, fun _ ↦ ⟨hok.ext_eq_zero_iff.mpr rfl, hplans.symm⟩⟩
  | cons buf_y rest ih =>
    have hlogged : Logged s [] :=
      ⟨fun _ ↦ hplans.trans (List.append_nil _).symm, fun _ ↦ rfl, hplans ▸ List.prefix_refl _⟩
    rw [runSync]
    split_ifs with hempty
    · exact ih hok hopen hplans
    obtain ⟨s₁, l₁, hdecode, hplanned⟩ := planned_newtDecode hok buf_y
    have hlogged₁ := hplanned.logged hlogged hopen
    rw [hdecode]
    cases (Newt.newtDecode ⟨s.mes_u, []⟩ buf_y).1 with
    | false => exact ⟨_, rfl, hlogged₁.delivered, fun hshut ↦ absurd hshut (by simp)⟩
    | true =>
      obtain ⟨s₂, hdrain, hok₂, hopen₂, hplans₂⟩ :=
        meatNextSync_eq hplanned.queue hlogged₁ (hplanned.shut.trans hopen)
      obtain ⟨s', hrun, hresult⟩ := ih hok₂ hopen₂ hplans₂
      refine ⟨s', ?_, hresult⟩
      dsimp only
      rw [hdrain]
      exact hrun

/-- Delivery is in order, without loss or duplication, whatever is read and whenever the timer
fires, also from inside of a delivery, and uses no memory that is freed. A message that waits has a
timer armed, unless a read was refused after the last one that was taken. On a stream that is read
synchronously no message waits. -/
theorem newt_delivery :
    (∀ evs : List Event, ∃ s, Event.runAll evs readInit = some s ∧ s.pokes <+: s.plans ∧
      (s.ext_u ≠ 0 → s.tim_u = true ∨ s.refused = true) ∧
      (s.shut = false → s.refused = false →
        ∃ count s', Event.runAll (List.replicate count (.timer [])) s = some s' ∧
          s'.plans = s.plans ∧ s'.pokes = s.plans)) ∧
    ∀ chunks : List (List UInt8), ∃ s, runSync chunks readInit = some s ∧ s.pokes <+: s.plans ∧
      (s.shut = false → s.ext_u = 0 ∧ s.pokes = s.plans) := by
  constructor
  · intro evs
    obtain ⟨s, l, hrun, hok, -⟩ := Event.returning_runAll evs _ _ streamOk_readInit
    refine ⟨s, hrun, hok.logged.delivered, fun hext ↦ hok.armed ?_, fun hopen htaken ↦ ?_⟩
    · exact fun hnil ↦ hext (hok.queue.ext_eq_zero_iff.mpr hnil)
    · exact ⟨_, timers_deliver hok hopen htaken⟩
  · exact runSync_delivers streamOk_readInit.queue rfl rfl

/-- A message and a header that is refused in one read, with an error callback that lets the stream
be: the message waits, and no timer is armed. -/
theorem newt_refused_read : ∃ s,
    Event.runAll [.read (newtSend [7] ++ [1, 0, 0, 0, 0]) [] []] readInit = some s ∧
      s.ext_u ≠ 0 ∧ s.tim_u = false := by
  obtain ⟨hflag, hqueue, -⟩ :=
    newtDecode_agree_feedAll ⟨messHead, []⟩ (newtSend [7] ++ [1, 0, 0, 0, 0])
  obtain ⟨s, l, hdecode, hplanned⟩ :=
    planned_newtDecode streamOk_readInit.queue (newtSend [7] ++ [1, 0, 0, 0, 0])
  rw [show readInit.mes_u = messHead from rfl, hflag] at hdecode
  have hmeats : s.meats l = [⟨[7]⟩] := by
    rw [hplanned.meats, show readInit.mes_u = messHead from rfl, hqueue]
    decide
  refine ⟨{ s with refused := true }, ?_, fun hext ↦ ?_, hplanned.tim_u⟩
  · rw [Event.runAll, Event.run, if_neg (by decide), hdecode,
      show (feedAll ⟨messHead, []⟩ (newtSend [7] ++ [1, 0, 0, 0, 0])).1 = false by decide]
    simp only [Event.runAll]
  · rw [hplanned.queue.ext_eq_zero_iff.mp hext] at hmeats
    exact absurd hmeats (by simp [Stream.meats])

end Vere.King.Newt
