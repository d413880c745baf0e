import Mathlib.Algebra.Group.Nat.Defs
import Mathlib.Logic.Function.Basic
import Vere.Lib.Linked
import Vere.Lib.Results

/-!
# The queues of the drivers

`u3_auto_plan()`, `u3_auto_redo()`, `u3_auto_next()` and `u3_auto_drop()` of `pkg/vere/auto.c`. The
events of a driver wait in a doubly linked list, of which the driver keeps both ends and the length.

`_lord_writ_free()` of `pkg/vere/lord.c` drops an event that has already been taken from its list.
Its links are those of the only member of a list, so that the driver loses all that wait, and counts
one less (`queues_lost`). `queues_iff` says that the lists are right in every state of a run if and
only if no event is dropped after it has been taken, and the length fits into its word.
-/

set_option autoImplicit false

namespace Vere.King.Auto

open Lib (Linked getLastD_mem)
open Lib.Results

/-! ### The functions -/

/-- `u3_ovum`. -/
structure Ovum where
  try_w : ℕ
  pre_u : ℕ
  nex_u : ℕ
  car_u : ℕ

/-- `u3_auto`: the queue of a driver. -/
structure Car where
  dep_w : ℕ
  ent_u : ℕ
  ext_u : ℕ

/-- The events and the drivers, by their addresses. -/
structure Mem where
  ova : ℕ → Ovum
  cars : ℕ → Car

/-- An assertion of `auto.c`, and a field of a null pointer. -/
inductive Fault
  | assertion : Fault
  | null
  deriving DecidableEq

def Mem.egg (mem : Mem) (egg_u : ℕ) (f : Ovum → Ovum) : Mem :=
  { mem with ova := Function.update mem.ova egg_u (f (mem.ova egg_u)) }

def Mem.car (mem : Mem) (car_u : ℕ) (f : Car → Car) : Mem :=
  { mem with cars := Function.update mem.cars car_u (f (mem.cars car_u)) }

/-- The list of a driver that has no other event. -/
def autoOnly (mem : Mem) (car_u egg_u : ℕ) : Except Fault Mem :=
  if (mem.cars car_u).ext_u ≠ 0 then .error .assertion
  else
    let mem := mem.egg egg_u fun egg ↦ { egg with pre_u := 0, nex_u := 0 }
    .ok (mem.car car_u fun _ ↦ ⟨1, egg_u, egg_u⟩)

/-- `u3_auto_plan()`: enqueue an ovum. -/
def autoPlan (mem : Mem) (car_u egg_u : ℕ) : Except Fault Mem :=
  let mem := mem.egg egg_u fun egg ↦ { egg with car_u := car_u }
  if (mem.cars car_u).ent_u = 0 then autoOnly mem car_u egg_u
  else
    let ent_u := (mem.cars car_u).ent_u
    let mem := mem.egg egg_u fun egg ↦ { egg with nex_u := 0, pre_u := ent_u }
    let mem := mem.egg ent_u fun ent ↦ { ent with nex_u := egg_u }
    .ok (mem.car car_u fun car ↦ { car with ent_u := egg_u, dep_w := (car.dep_w + 1) % 2 ^ 32 })

/-- `u3_auto_redo()`: retry an ovum. -/
def autoRedo (mem : Mem) (car_u egg_u : ℕ) : Except Fault Mem :=
  if (mem.ova egg_u).car_u ≠ car_u then .error .assertion
  else
    let mem := mem.egg egg_u fun egg ↦ { egg with try_w := (egg.try_w + 1) % 2 ^ 32 }
    if (mem.cars car_u).ent_u = 0 then autoOnly mem car_u egg_u
    else if (mem.cars car_u).ext_u = 0 then .error .null
    else
      let ext_u := (mem.cars car_u).ext_u
      let mem := mem.egg egg_u fun egg ↦ { egg with nex_u := ext_u, pre_u := 0 }
      let mem := mem.egg ext_u fun ext ↦ { ext with pre_u := egg_u }
      .ok (mem.car car_u fun car ↦ { car with ext_u := egg_u, dep_w := (car.dep_w + 1) % 2 ^ 32 })

/-- `u3_auto_drop()`: the neighbours of an ovum, or its driver, link to each other. -/
def autoUnlink (mem : Mem) (egg : Ovum) : Mem :=
  let mem :=
    if egg.pre_u = 0 then mem.car egg.car_u fun car ↦ { car with ext_u := egg.nex_u }
    else mem.egg egg.pre_u fun pre ↦ { pre with nex_u := egg.nex_u }
  if egg.nex_u = 0 then mem.car egg.car_u fun car ↦ { car with ent_u := egg.pre_u }
  else mem.egg egg.nex_u fun nex ↦ { nex with pre_u := egg.pre_u }

/-- `u3_auto_drop()`: dequeue an ovum. -/
def autoDrop (mem : Mem) (egg_u : ℕ) : Except Fault Mem :=
  let egg := mem.ova egg_u
  if egg.car_u = 0 then .error .assertion
  else
    let mem := autoUnlink mem egg
    let mem := mem.car egg.car_u fun car ↦ { car with dep_w := (car.dep_w + 2 ^ 32 - 1) % 2 ^ 32 }
    .ok (mem.egg egg_u fun egg ↦ { egg with nex_u := 0, pre_u := 0 })

/-- `u3_auto_next()`: the first ovum of the first of some drivers that has one. -/
def autoNext (mem : Mem) : List ℕ → Except Fault (Option ℕ × Mem)
  | [] => .ok (none, mem)
  | car_u :: nex_u =>
    if (mem.cars car_u).ext_u = 0 then autoNext mem nex_u
    else
      let egg_u := (mem.cars car_u).ext_u
      let egg := mem.ova egg_u
      if egg.pre_u ≠ 0 then .error .assertion
      else
        let mem :=
          if egg.nex_u ≠ 0 then
            let mem := mem.egg egg.nex_u fun nex ↦ { nex with pre_u := 0 }
            mem.car car_u fun car ↦
              { car with ext_u := egg.nex_u, dep_w := (car.dep_w + 2 ^ 32 - 1) % 2 ^ 32 }
          else mem.car car_u fun _ ↦ ⟨0, 0, 0⟩
        .ok (some egg_u, mem.egg egg_u fun egg ↦ { egg with nex_u := 0 })

/-- `_lord_writ_free()` of an event that the serf has not answered. -/
def lordWritFree (mem : Mem) (egg_u : ℕ) : Except Fault Mem := autoDrop mem egg_u

/-! ### Runs -/

/-- The events that wait for each driver, in order, and those that have been taken. -/
structure Eggs where
  mem : Mem
  queue : ℕ → List ℕ
  taken : List ℕ

/-- Drivers without events. -/
def Eggs.begin (ova : ℕ → Ovum) : Eggs := ⟨⟨ova, fun _ ↦ ⟨0, 0, 0⟩⟩, fun _ ↦ [], []⟩

/-- A call. `free` is `_lord_writ_free()`, and `done` the end of an event that has been taken. -/
inductive Call
  | plan (car_u egg_u : ℕ)
  | redo (car_u egg_u : ℕ)
  | next (cars : List ℕ)
  | drop (egg_u : ℕ)
  | free (egg_u : ℕ)
  | done (egg_u : ℕ)

/-- The first event that waits for some drivers, and its driver. -/
def firstOf (queue : ℕ → List ℕ) : List ℕ → Option (ℕ × ℕ)
  | [] => none
  | car_u :: nex_u =>
    match queue car_u with
    | [] => firstOf queue nex_u
    | egg_u :: _ => some (car_u, egg_u)

/-- One call, and what should wait after it. -/
def eggStep (eggs : Eggs) : Call → Except Fault Eggs
  | .plan car_u egg_u => do
    let mem ← autoPlan eggs.mem car_u egg_u
    .ok { eggs with
      mem := mem, queue := Function.update eggs.queue car_u (eggs.queue car_u ++ [egg_u]) }
  | .redo car_u egg_u => do
    let mem ← autoRedo eggs.mem car_u egg_u
    .ok {
      mem := mem, queue := Function.update eggs.queue car_u (egg_u :: eggs.queue car_u)
      taken := eggs.taken.erase egg_u }
  | .next cars => do
    let (_, mem) ← autoNext eggs.mem cars
    match firstOf eggs.queue cars with
    | none => .ok { eggs with mem := mem }
    | some (car_u, egg_u) => .ok {
        mem := mem, queue := Function.update eggs.queue car_u (eggs.queue car_u).tail
        taken := egg_u :: eggs.taken }
  | .drop egg_u => do
    let mem ← autoDrop eggs.mem egg_u
    .ok { eggs with mem := mem, queue := fun car_u ↦ (eggs.queue car_u).erase egg_u }
  | .free egg_u => do
    let mem ← lordWritFree eggs.mem egg_u
    .ok { eggs with mem := mem, taken := eggs.taken.erase egg_u }
  | .done egg_u => .ok { eggs with taken := eggs.taken.erase egg_u }

/-- The calls that the drivers and the lord make: what is planned is new, what is retried has been
taken from the driver, and an event is dropped while it waits or freed after it has been taken. -/
def Call.Legal (eggs : Eggs) : Call → Prop
  | .plan car_u egg_u =>
    car_u ≠ 0 ∧ egg_u ≠ 0 ∧ (∀ car_u, egg_u ∉ eggs.queue car_u) ∧ egg_u ∉ eggs.taken
  | .redo car_u egg_u => egg_u ∈ eggs.taken ∧ (eggs.mem.ova egg_u).car_u = car_u
  | .next _ => True
  | .drop egg_u => ∃ car_u, egg_u ∈ eggs.queue car_u
  | .free egg_u => egg_u ∈ eggs.taken
  | .done egg_u => egg_u ∈ eggs.taken

/-- No event that has been taken is dropped, and the length fits into its word. -/
def Call.Safe (eggs : Eggs) : Call → Prop
  | .plan car_u _ => (eggs.queue car_u).length + 1 < 2 ^ 32
  | .redo car_u _ => (eggs.queue car_u).length + 1 < 2 ^ 32
  | .free _ => False
  | _ => True

def Mem.pre (mem : Mem) (egg_u : ℕ) : ℕ := (mem.ova egg_u).pre_u

def Mem.nex (mem : Mem) (egg_u : ℕ) : ℕ := (mem.ova egg_u).nex_u

/-- The queue of a driver is a list. -/
structure Queued (mem : Mem) (car_u : ℕ) (l : List ℕ) : Prop where
  links : Linked 0 mem.pre mem.nex 0 (mem.cars car_u).ext_u l
  ent : (mem.cars car_u).ent_u = l.getLastD 0
  dep : (mem.cars car_u).dep_w = l.length
  own : ∀ egg_u ∈ l, (mem.ova egg_u).car_u = car_u

/-- Every driver has the events that should wait, and `u3_auto_next()` takes the first of them. -/
structure Eggs.Good (eggs : Eggs) : Prop where
  queued : ∀ car_u, Queued eggs.mem car_u (eggs.queue car_u)
  first : ∀ cars, ∃ mem, autoNext eggs.mem cars = .ok ((firstOf eggs.queue cars).map Prod.snd, mem)

/-! ### One list -/

variable {mem mem' : Mem} {car_u egg_u : ℕ} {l l₁ l₂ : List ℕ} {eggs eggs' : Eggs}

theorem ova_egg (mem : Mem) (egg_u : ℕ) (f : Ovum → Ovum) (p : ℕ) :
    (mem.egg egg_u f).ova p = if p = egg_u then f (mem.ova egg_u) else mem.ova p :=
  Function.update_apply ..

theorem ova_car (mem : Mem) (car_u : ℕ) (f : Car → Car) : (mem.car car_u f).ova = mem.ova := rfl

theorem cars_egg (mem : Mem) (egg_u : ℕ) (f : Ovum → Ovum) :
    (mem.egg egg_u f).cars = mem.cars := rfl

theorem cars_car (mem : Mem) (car_u : ℕ) (f : Car → Car) (c : ℕ) :
    (mem.car car_u f).cars c = if c = car_u then f (mem.cars car_u) else mem.cars c :=
  Function.update_apply ..

/-- Two events are edited. -/
theorem ova_egg_egg (mem : Mem) {fir sec : ℕ} (f g : Ovum → Ovum) (hne : fir ≠ sec) :
    ((mem.egg fir f).egg sec g).ova fir = f (mem.ova fir) ∧
      ((mem.egg fir f).egg sec g).ova sec = g (mem.ova sec) ∧
      ∀ p, p ≠ fir → p ≠ sec → ((mem.egg fir f).egg sec g).ova p = mem.ova p := by
  refine ⟨?_, ?_, fun p hfir hsec ↦ ?_⟩
  · rw [ova_egg, if_neg hne, ova_egg, if_pos rfl]
  · rw [ova_egg, if_pos rfl, ova_egg, if_neg hne.symm]
  · rw [ova_egg, if_neg hsec, ova_egg, if_neg hfir]

/-- A call edits one driver and some events. -/
structure Edits (mem mem' : Mem) (car_u : ℕ) (touched : List ℕ) : Prop where
  cars : ∀ c ≠ car_u, mem'.cars c = mem.cars c
  ova : ∀ p ∉ touched, mem'.ova p = mem.ova p

theorem Queued.congr {touched : List ℕ} {c : ℕ} (hqueued : Queued mem c l)
    (hedits : Edits mem mem' car_u touched) (hcar : c ≠ car_u) (happart : ∀ p ∈ l, p ∉ touched) :
    Queued mem' c l := by
  have hova : ∀ p ∈ l, mem'.ova p = mem.ova p := fun p hp ↦ hedits.ova p (happart p hp)
  refine ⟨?_, ?_, ?_, fun p hp ↦ ?_⟩
  · rw [hedits.cars c hcar]
    exact hqueued.links.congr (fun p hp ↦ congrArg Ovum.pre_u (hova p hp)) fun p hp ↦
      congrArg Ovum.nex_u (hova p hp)
  · rw [hedits.cars c hcar]
    exact hqueued.ent
  · rw [hedits.cars c hcar]
    exact hqueued.dep
  · rw [hova p hp]
    exact hqueued.own p hp

/-- An event that does not wait is edited. -/
theorem Queued.egg (hqueued : Queued mem car_u l) (hnew : egg_u ∉ l) (f : Ovum → Ovum) :
    Queued (mem.egg egg_u f) car_u l := by
  have hova : ∀ p ∈ l, (mem.egg egg_u f).ova p = mem.ova p := by
    intro p hp
    rw [ova_egg, if_neg]
    rintro rfl
    exact hnew hp
  refine ⟨?_, hqueued.ent, hqueued.dep, fun p hp ↦ ?_⟩
  · exact hqueued.links.congr (fun p hp ↦ congrArg Ovum.pre_u (hova p hp)) fun p hp ↦
    congrArg Ovum.nex_u (hova p hp)
  · rw [hova p hp]
    exact hqueued.own p hp

theorem Queued.ent_eq_zero (hqueued : Queued mem car_u l) :
    (mem.cars car_u).ent_u = 0 ↔ l = [] := by
  rw [hqueued.ent]
  constructor
  · intro hzero
    by_contra hne
    exact hqueued.links.ne_null (getLastD_mem hne) hzero
  · rintro rfl
    rfl

theorem Queued.ext_eq_zero (hqueued : Queued mem car_u l) :
    (mem.cars car_u).ext_u = 0 ↔ l = [] := by
  cases l with
  | nil => exact iff_of_true hqueued.links rfl
  | cons p l => exact iff_of_false (hqueued.links.1 ▸ hqueued.links.2.1) nofun

/-- The only event of a driver. -/
theorem autoOnly_queued (hqueued : Queued mem car_u []) (hegg : egg_u ≠ 0)
    (hown : (mem.ova egg_u).car_u = car_u) :
    ∃ mem', autoOnly mem car_u egg_u = .ok mem' ∧ Queued mem' car_u [egg_u] ∧
      Edits mem mem' car_u [egg_u] ∧ ∀ p, (mem'.ova p).car_u = (mem.ova p).car_u := by
  have hext : (mem.cars car_u).ext_u = 0 := hqueued.links
  rw [autoOnly, if_neg (not_not.mpr hext)]
  refine ⟨_, rfl, ⟨?_, ?_, ?_, fun p hp ↦ ?_⟩, ⟨fun c hc ↦ ?_, fun p hp ↦ ?_⟩, fun p ↦ ?_⟩
  · rw [cars_car, if_pos rfl]
    refine ⟨rfl, hegg, ?_, ?_⟩
    · rw [Mem.pre, ova_car, ova_egg, if_pos rfl]
    · show Mem.nex _ egg_u = 0
      rw [Mem.nex, ova_car, ova_egg, if_pos rfl]
  · rw [cars_car, if_pos rfl]
    rfl
  · rw [cars_car, if_pos rfl]
    rfl
  · obtain rfl := List.mem_singleton.mp hp
    rw [ova_car, ova_egg, if_pos rfl]
    exact hown
  · rw [cars_car, if_neg hc, cars_egg]
  · rw [ova_car, ova_egg, if_neg fun heq ↦ hp (List.mem_singleton.mpr heq)]
  · rw [ova_car, ova_egg]
    split
    · next heq => rw [heq]
    · rfl

/-- A planned event is the last. -/
theorem Queued.plan (hqueued : Queued mem car_u l) (hnodup : l.Nodup) (hegg : egg_u ≠ 0)
    (hnew : egg_u ∉ l) (hshort : l.length + 1 < 2 ^ 32) :
    ∃ mem', autoPlan mem car_u egg_u = .ok mem' ∧
      Queued mem' car_u (l ++ [egg_u]) ∧ Edits mem mem' car_u (egg_u :: l) ∧
      ∀ p ≠ egg_u, (mem'.ova p).car_u = (mem.ova p).car_u := by
  rw [autoPlan]
  have hmid : ∀ p ≠ egg_u, (mem.egg egg_u fun egg ↦ { egg with car_u := car_u }).ova p =
    mem.ova p :=
    fun p hp ↦ (ova_egg ..).trans (if_neg hp)
  have hmidEgg : ((mem.egg egg_u fun egg ↦ { egg with car_u := car_u }).ova egg_u).car_u =
    car_u := by
    rw [ova_egg, if_pos rfl]
  have hqueued' := hqueued.egg hnew fun egg ↦ { egg with car_u := car_u }
  have hcars : (mem.egg egg_u fun egg ↦ { egg with car_u := car_u }).cars = mem.cars := rfl
  generalize (mem.egg egg_u fun egg ↦ { egg with car_u := car_u }) =
    mid at hmid hmidEgg hqueued' hcars
  dsimp only
  by_cases hempty : l = []
  · subst hempty
    rw [if_pos (hqueued'.ent_eq_zero.mpr rfl)]
    obtain ⟨mem', hok, hone, hedits, hown⟩ := autoOnly_queued hqueued' hegg hmidEgg
    refine ⟨mem', hok, hone, ⟨fun c hc ↦ (hedits.cars c hc).trans (by rw [hcars]), fun p hp ↦ ?_⟩,
      fun p hp ↦ ?_⟩
    · exact (hedits.ova p hp).trans (hmid p (List.ne_of_not_mem_cons hp))
    · rw [hown, hmid p hp]
  · have hent : (mid.cars car_u).ent_u = l.getLastD 0 := hqueued'.ent
    have hlast : l.getLastD 0 ∈ l := getLastD_mem hempty
    have hne : egg_u ≠ l.getLastD 0 := fun heq ↦ hnew (heq ▸ hlast)
    rw [if_neg fun hzero ↦ hempty (hqueued'.ent_eq_zero.mp hzero), hent]
    obtain ⟨hovaEgg, hovaEnt, hova⟩ := ova_egg_egg mid
      (fun egg ↦ { egg with nex_u := 0, pre_u := l.getLastD 0 })
      (fun ent ↦ { ent with nex_u := egg_u }) hne
    have hfin : ((mid.egg egg_u fun egg ↦ { egg with nex_u := 0, pre_u := l.getLastD 0 }).egg
      (l.getLastD 0) fun ent ↦ { ent with nex_u := egg_u }).cars = mid.cars := rfl
    generalize ((mid.egg egg_u fun egg ↦ { egg with nex_u := 0, pre_u := l.getLastD 0 }).egg
      (l.getLastD 0) fun ent ↦ { ent with nex_u := egg_u }) = fin at hovaEgg hovaEnt hova hfin
    have hold : ∀ p ≠ egg_u, (fin.ova p).car_u = (mid.ova p).car_u := by
      intro p hp
      by_cases hlastP : p = l.getLastD 0
      · rw [hlastP, hovaEnt]
      · rw [hova p hp hlastP]
    refine ⟨_, rfl, ⟨?_, ?_, ?_, fun p hp ↦ ?_⟩, ⟨fun c hc ↦ ?_, fun p hp ↦ ?_⟩, fun p hp ↦ ?_⟩
    · have hconcat : Linked 0 fin.pre fin.nex 0 (if l = [] then egg_u else (mid.cars car_u).ext_u)
          (l ++ [egg_u]) := by
        refine hqueued'.links.concat hnodup hegg (fun p hp ↦ ?_) (fun p hp hlastP ↦ ?_)
          (fun _ ↦ ?_) ?_ ?_
        · by_cases hlastP : p = l.getLastD 0
          · rw [Mem.pre, hlastP, hovaEnt]
            rfl
          · rw [Mem.pre, hova p (fun heq ↦ hnew (heq ▸ hp)) hlastP]
            rfl
        · rw [Mem.nex, hova p (fun heq ↦ hnew (heq ▸ hp)) hlastP]
          rfl
        · rw [Mem.nex, hovaEnt]
        · rw [Mem.pre, hovaEgg]
        · rw [Mem.nex, hovaEgg]
      rw [cars_car, if_pos rfl, hfin]
      rw [if_neg hempty] at hconcat
      exact hconcat
    · rw [cars_car, if_pos rfl, List.getLastD_concat]
    · rw [cars_car, if_pos rfl, hfin, List.length_append, List.length_singleton, hqueued'.dep,
        Nat.mod_eq_of_lt hshort]
    · rw [ova_car]
      rcases List.mem_append.mp hp with hp | hp
      · rw [hold p fun heq ↦ hnew (heq ▸ hp)]
        exact hqueued'.own p hp
      · rw [List.mem_singleton.mp hp, hovaEgg]
        exact hmidEgg
    · rw [cars_car, if_neg hc, hfin, hcars]
    · rw [List.mem_cons, not_or] at hp
      rw [ova_car, hova p hp.1 fun heq ↦ hp.2 (heq ▸ hlast), hmid p hp.1]
    · rw [ova_car, hold p hp, hmid p hp]

theorem Queued.redo (hqueued : Queued mem car_u l) (hnodup : l.Nodup) (hegg : egg_u ≠ 0)
    (hnew : egg_u ∉ l) (hown : (mem.ova egg_u).car_u = car_u) (hshort : l.length + 1 < 2 ^ 32) :
    ∃ mem', autoRedo mem car_u egg_u = .ok mem' ∧ Queued mem' car_u (egg_u :: l) ∧
      Edits mem mem' car_u (egg_u :: l) ∧ ∀ p, (mem'.ova p).car_u = (mem.ova p).car_u := by
  rw [autoRedo, if_neg (not_not.mpr hown)]
  have hmid : ∀ p ≠ egg_u,
      (mem.egg egg_u fun egg ↦ { egg with try_w := (egg.try_w + 1) % 2 ^ 32 }).ova p = mem.ova p :=
    fun p hp ↦ (ova_egg ..).trans (if_neg hp)
  have hmidEgg : ((mem.egg egg_u fun egg ↦
      { egg with try_w := (egg.try_w + 1) % 2 ^ 32 }).ova egg_u).car_u = car_u := by
    rw [ova_egg, if_pos rfl]
    exact hown
  have hqueued' := hqueued.egg hnew fun egg ↦ { egg with try_w := (egg.try_w + 1) % 2 ^ 32 }
  have hcars : (mem.egg egg_u fun egg ↦
      { egg with try_w := (egg.try_w + 1) % 2 ^ 32 }).cars = mem.cars := rfl
  generalize (mem.egg egg_u fun egg ↦ { egg with try_w := (egg.try_w + 1) % 2 ^ 32 }) = mid
    at hmid hmidEgg hqueued' hcars
  have hmidCar : ∀ p, (mid.ova p).car_u = (mem.ova p).car_u := by
    intro p
    by_cases hp : p = egg_u
    · rw [hp, hmidEgg, hown]
    · rw [hmid p hp]
  dsimp only
  by_cases hempty : l = []
  · subst hempty
    rw [if_pos (hqueued'.ent_eq_zero.mpr rfl)]
    obtain ⟨mem', hok, hone, hedits, hown'⟩ := autoOnly_queued hqueued' hegg hmidEgg
    refine ⟨mem', hok, hone, ⟨fun c hc ↦ (hedits.cars c hc).trans (by rw [hcars]), fun p hp ↦ ?_⟩,
      fun p ↦ ?_⟩
    · exact (hedits.ova p hp).trans (hmid p (List.ne_of_not_mem_cons hp))
    · rw [hown', hmidCar]
  · rw [if_neg fun hzero ↦ hempty (hqueued'.ent_eq_zero.mp hzero),
      if_neg fun hzero ↦ hempty (hqueued'.ext_eq_zero.mp hzero)]
    have hmem : (mid.cars car_u).ext_u ∈ l := by
      rw [hqueued'.links.head_eq]
      cases l with
      | nil => exact absurd rfl hempty
      | cons p l => exact List.mem_cons_self
    have hhead := hqueued'.links
    have hdep := hqueued'.dep
    have hent := hqueued'.ent
    obtain ⟨ent_u, hentU⟩ : ∃ ent_u, (mid.cars car_u).ent_u = ent_u := ⟨_, rfl⟩
    obtain ⟨ext_u, hext⟩ : ∃ ext_u, (mid.cars car_u).ext_u = ext_u := ⟨_, rfl⟩
    rw [hext] at hmem hhead ⊢
    have hne : egg_u ≠ ext_u := fun heq ↦ hnew (heq ▸ hmem)
    obtain ⟨hovaEgg, hovaExt, hova⟩ :=
      ova_egg_egg mid (fun egg ↦ { egg with nex_u := ext_u, pre_u := 0 })
      (fun ext ↦ { ext with pre_u := egg_u }) hne
    have hfin : ((mid.egg egg_u fun egg ↦ { egg with nex_u := ext_u, pre_u := 0 }).egg ext_u
      fun ext ↦ { ext with pre_u := egg_u }).cars = mid.cars := rfl
    generalize ((mid.egg egg_u fun egg ↦ { egg with nex_u := ext_u, pre_u := 0 }).egg ext_u
      fun ext ↦ { ext with pre_u := egg_u }) = fin at hovaEgg hovaExt hova hfin
    have hold : ∀ p, (fin.ova p).car_u = (mid.ova p).car_u := by
      intro p
      by_cases hp : p = egg_u
      · rw [hp, hovaEgg]
      · by_cases hfirst : p = ext_u
        · rw [hfirst, hovaExt]
        · rw [hova p hp hfirst]
    refine ⟨_, rfl, ⟨?_, ?_, ?_, fun p hp ↦ ?_⟩, ⟨fun c hc ↦ ?_, fun p hp ↦ ?_⟩, fun p ↦ ?_⟩
    · rw [cars_car, if_pos rfl]
      show Linked 0 fin.pre fin.nex 0 egg_u (egg_u :: l)
      refine hhead.push hnodup hegg (fun p hp hfirst ↦ ?_) (fun p hp ↦ ?_) (fun _ ↦ ?_) ?_ ?_
      · rw [Mem.pre, hova p (fun heq ↦ hnew (heq ▸ hp)) hfirst]
        rfl
      · by_cases hfirst : p = ext_u
        · rw [Mem.nex, hfirst, hovaExt]
          rfl
        · rw [Mem.nex, hova p (fun heq ↦ hnew (heq ▸ hp)) hfirst]
          rfl
      · rw [Mem.pre, hovaExt]
      · rw [Mem.pre, hovaEgg]
      · rw [Mem.nex, hovaEgg]
    · rw [cars_car, if_pos rfl, hfin]
      show (mid.cars car_u).ent_u = _
      rw [hent]
      cases l with
      | nil => exact absurd rfl hempty
      | cons p l => rw [List.getLastD_cons, List.getLastD_cons, List.getLastD_cons]
    · rw [cars_car, if_pos rfl, hfin, hdep, Nat.mod_eq_of_lt hshort, List.length_cons]
    · rw [ova_car, hold, hmidCar]
      rcases List.mem_cons.mp hp with rfl | hp
      · exact hown
      · exact hqueued.own p hp
    · rw [cars_car, if_neg hc, hfin, hcars]
    · rw [List.mem_cons, not_or] at hp
      rw [ova_car, hova p hp.1 fun heq ↦ hp.2 (heq ▸ hmem), hmid p hp.1]
    · rw [ova_car, hold, hmidCar]

/-- A length goes down. -/
theorem pred_mod {len : ℕ} (hshort : len + 1 < 2 ^ 32) :
    (len + 1 + 2 ^ 32 - 1) % 2 ^ 32 = len := by omega

/-- The first event is taken. -/
theorem Queued.next (hqueued : Queued mem car_u (egg_u :: l)) (hnodup : (egg_u :: l).Nodup)
    (cars : List ℕ) (hshort : (egg_u :: l).length < 2 ^ 32) :
    ∃ mem', autoNext mem (car_u :: cars) = .ok (some egg_u, mem') ∧ Queued mem' car_u l ∧
      Edits mem mem' car_u (egg_u :: l) ∧ ∀ p, (mem'.ova p).car_u = (mem.ova p).car_u := by
  obtain ⟨hext, hegg, hpre, hrest⟩ := hqueued.links
  have hdep := hqueued.dep
  have hent := hqueued.ent
  rw [List.length_cons] at hshort hdep
  replace hpre : (mem.ova egg_u).pre_u = 0 := hpre
  rw [autoNext, if_neg (hext ▸ hegg), hext, if_neg (not_not.mpr hpre)]
  cases l with
  | nil =>
    have hnex : (mem.ova egg_u).nex_u = 0 := hrest
    rw [if_neg (not_not.mpr hnex)]
    refine ⟨_, rfl, ⟨?_, ?_, ?_, nofun⟩, ⟨fun c hc ↦ ?_, fun p hp ↦ ?_⟩, fun p ↦ ?_⟩
    · rw [cars_egg, cars_car, if_pos rfl]
      rfl
    · rw [cars_egg, cars_car, if_pos rfl]
      rfl
    · rw [cars_egg, cars_car, if_pos rfl]
      rfl
    · rw [cars_egg, cars_car, if_neg hc]
    · rw [ova_egg, if_neg fun heq ↦ hp (List.mem_singleton.mpr heq), ova_car]
    · rw [ova_egg, ova_car]
      split
      · next heq => rw [heq]
      · rfl
  | cons q l =>
    obtain ⟨hnex, hq, hback, htail⟩ := hrest
    replace hnex : (mem.ova egg_u).nex_u = q := hnex
    rw [List.nodup_cons, List.nodup_cons, List.mem_cons, not_or] at hnodup
    obtain ⟨⟨hne, hegg'⟩, hq', hnodup⟩ := hnodup
    rw [hnex, if_pos hq]
    obtain ⟨hovaQ, hovaEgg, hova⟩ := ova_egg_egg mem (fun nex ↦ { nex with pre_u := 0 })
      (fun egg ↦ { egg with nex_u := 0 }) (Ne.symm hne)
    have hmem : ∀ p ∈ l, p ≠ q ∧ p ≠ egg_u :=
      fun p hp ↦ ⟨fun heq ↦ hq' (heq ▸ hp), fun heq ↦ hegg' (heq ▸ hp)⟩
    have hold : ∀ p, (((mem.egg q fun nex ↦ { nex with pre_u := 0 }).egg egg_u
        fun egg ↦ { egg with nex_u := 0 }).ova p).car_u = (mem.ova p).car_u := by
      intro p
      by_cases hfirst : p = egg_u
      · rw [hfirst, hovaEgg]
      · by_cases hsecond : p = q
        · rw [hsecond, hovaQ]
        · rw [hova p hsecond hfirst]
    refine ⟨_, rfl, ⟨?_, ?_, ?_, fun p hp ↦ ?_⟩, ⟨fun c hc ↦ ?_, fun p hp ↦ ?_⟩, fun p ↦ ?_⟩
    · rw [cars_egg, cars_car, if_pos rfl]
      refine ⟨rfl, hq, congrArg Ovum.pre_u hovaQ, ?_⟩
      show Linked 0 _ _ q (Ovum.nex_u _) l
      refine (congrArg Ovum.nex_u hovaQ).symm ▸ htail.congr (fun p hp ↦ ?_) fun p hp ↦ ?_
      · exact congrArg Ovum.pre_u (hova p (hmem p hp).1 (hmem p hp).2)
      · exact congrArg Ovum.nex_u (hova p (hmem p hp).1 (hmem p hp).2)
    · rw [cars_egg, cars_car, if_pos rfl]
      show (mem.cars car_u).ent_u = _
      rw [hent, List.getLastD_cons, List.getLastD_cons, List.getLastD_cons]
    · rw [cars_egg, cars_car, if_pos rfl]
      show ((mem.cars car_u).dep_w + 2 ^ 32 - 1) % 2 ^ 32 = _
      rw [hdep, pred_mod hshort]
    · exact (hold p).trans (hqueued.own p (.tail _ hp))
    · rw [cars_egg, cars_car, if_neg hc, cars_egg]
    · rw [List.mem_cons, List.mem_cons, not_or, not_or] at hp
      exact hova p hp.2.1 hp.1
    · exact hold p

theorem autoUnlink_cars (mem : Mem) (egg : Ovum) (c : ℕ) : (autoUnlink mem egg).cars c =
    if c = egg.car_u then ⟨(mem.cars c).dep_w, if egg.nex_u = 0 then
      egg.pre_u else (mem.cars c).ent_u, if egg.pre_u = 0 then egg.nex_u else (mem.cars c).ext_u⟩
    else mem.cars c := by
  unfold autoUnlink
  by_cases hc : c = egg.car_u
  · subst hc
    by_cases hpre : egg.pre_u = 0 <;> by_cases hnex : egg.nex_u = 0 <;>
      simp [cars_egg, cars_car, hpre, hnex]
  · by_cases hpre : egg.pre_u = 0 <;> by_cases hnex : egg.nex_u = 0 <;>
      simp [cars_egg, cars_car, hpre, hnex, hc]

theorem autoUnlink_ova (mem : Mem) (egg : Ovum) (p : ℕ) : (autoUnlink mem egg).ova p =
    { mem.ova p with
      pre_u := if p = egg.nex_u ∧ egg.nex_u ≠ 0 then egg.pre_u else (mem.ova p).pre_u
      nex_u := if p = egg.pre_u ∧ egg.pre_u ≠ 0 then egg.nex_u else (mem.ova p).nex_u } := by
  obtain ⟨try_w, pre_u, nex_u, car_u⟩ := egg
  unfold autoUnlink
  dsimp only
  by_cases hpre : pre_u = 0 <;> by_cases hnex : nex_u = 0
  · simp [ova_car, hpre, hnex]
  · by_cases hp : p = nex_u <;> simp [ova_egg, ova_car, hpre, hnex, hp]
  · by_cases hp : p = pre_u <;> simp [ova_egg, ova_car, hpre, hnex, hp]
  · rw [if_neg hpre, if_neg hnex, ova_egg, ova_egg, ova_egg]
    rcases eq_or_ne p pre_u with rfl | hp <;> rcases eq_or_ne p nex_u with rfl | hq
    · simp [hpre]
    · simp [hpre, hq]
    · simp [hnex, hp]
    · simp [hp, hq]

theorem Queued.drop (hqueued : Queued mem car_u (l₁ ++ egg_u :: l₂))
    (hnodup : (l₁ ++ egg_u :: l₂).Nodup) (hcar : car_u ≠ 0)
    (hshort : (l₁ ++ egg_u :: l₂).length < 2 ^ 32) :
    ∃ mem', autoDrop mem egg_u = .ok mem' ∧ Queued mem' car_u (l₁ ++ l₂) ∧
      Edits mem mem' car_u (l₁ ++ egg_u :: l₂) ∧ ∀ p, (mem'.ova p).car_u = (mem.ova p).car_u := by
  have hmem : egg_u ∈ l₁ ++ egg_u :: l₂ := by simp
  have hzero : 0 ∉ l₁ ++ egg_u :: l₂ := fun h ↦ hqueued.links.ne_null h rfl
  have hpre : mem.pre egg_u = l₁.getLastD 0 := hqueued.links.pre_eq.1
  have hnex : mem.nex egg_u = l₂.headD 0 := hqueued.links.nex_eq.1
  have hpreNil : mem.pre egg_u = 0 ↔ l₁ = [] := by
    rw [hpre]
    refine ⟨fun hpreZero ↦ ?_, fun hnil ↦ by rw [hnil]; rfl⟩
    by_contra hne
    exact hzero (hpreZero ▸ List.mem_append_left _ (getLastD_mem hne))
  have hpreMem : mem.pre egg_u ≠ 0 → mem.pre egg_u ∈ l₁ := by
    intro hne
    rw [hpre]
    exact getLastD_mem fun hnil ↦ hne (hpreNil.mpr hnil)
  have hnexMem : mem.nex egg_u ≠ 0 → mem.nex egg_u ∈ l₂ := by
    rw [hnex]
    cases l₂ with
    | nil => exact fun hne ↦ absurd rfl hne
    | cons q l₂ => exact fun _ ↦ List.mem_cons_self
  have hnodup' := hnodup
  rw [List.nodup_append, List.nodup_cons] at hnodup'
  obtain ⟨-, ⟨hegg₂, -⟩, hapart⟩ := hnodup'
  have hegg₁ : egg_u ∉ l₁ := fun h ↦ hapart egg_u h egg_u List.mem_cons_self rfl
  have hegg : egg_u ≠ 0 := fun heq ↦ hzero (heq ▸ hmem)
  have hown := hqueued.own egg_u hmem
  have hne : ∀ p ∈ l₁ ++ l₂, p ≠ egg_u := by
    rintro p hp rfl
    rcases List.mem_append.mp hp with hp | hp
    · exact hegg₁ hp
    · exact hegg₂ hp
  rw [autoDrop]
  dsimp only
  rw [if_neg (hown ▸ hcar)]
  have hcars := autoUnlink_cars mem (mem.ova egg_u)
  have hova := autoUnlink_ova mem (mem.ova egg_u)
  generalize autoUnlink mem (mem.ova egg_u) = mid at hcars hova
  rw [hown] at hcars ⊢
  have hfin : ∀ p ≠ egg_u,
      ((mid.car car_u fun car ↦ { car with dep_w := (car.dep_w + 2 ^ 32 - 1) % 2 ^ 32 }).egg egg_u
      fun egg ↦ { egg with nex_u := 0, pre_u := 0 }).ova p = mid.ova p :=
    fun p hp ↦ (ova_egg ..).trans (if_neg hp)
  refine ⟨_, rfl, ⟨?_, ?_, ?_, fun p hp ↦ ?_⟩, ⟨fun c hc ↦ ?_, fun p hp ↦ ?_⟩, fun p ↦ ?_⟩
  · rw [cars_egg, cars_car, if_pos rfl, hcars, if_pos rfl]
    simp only [show ((mem.ova egg_u).pre_u = 0) = (l₁ = []) from propext hpreNil]
    refine hqueued.links.unlink (List.nodup_cons.mpr ⟨hzero, hnodup⟩) (fun p hp hpnex ↦ ?_)
      (fun p hp hppre ↦ ?_)
      (fun hnexZero ↦ ?_) fun hl₁ ↦ ?_
    · rw [Mem.pre, hfin p (hne p hp), hova]
      exact if_neg fun h ↦ hpnex h.1
    · rw [Mem.nex, hfin p (hne p hp), hova]
      exact if_neg fun h ↦ hppre h.1
    · rw [Mem.pre, hfin _ (hne _ (List.mem_append_right _ (hnexMem hnexZero))), hova]
      exact if_pos ⟨rfl, hnexZero⟩
    · have hpreZero : mem.pre egg_u ≠ 0 := fun hzero ↦ hl₁ (hpreNil.mp hzero)
      rw [Mem.nex, hfin _ (hne _ (List.mem_append_left _ (hpreMem hpreZero))), hova]
      exact if_pos ⟨rfl, hpreZero⟩
  · rw [cars_egg, cars_car, if_pos rfl, hcars, if_pos rfl]
    show (if mem.nex egg_u = 0 then mem.pre egg_u else (mem.cars car_u).ent_u) = _
    cases l₂ with
    | nil => rw [if_pos (show mem.nex egg_u = 0 from hnex), hpre, List.append_nil]
    | cons q l₂ =>
      have hq : q ≠ 0 := fun heq ↦ hzero (by simp [heq])
      rw [if_neg (hnex ▸ hq), hqueued.ent]
      simp [List.getLastD_eq_getLast?, List.getLast?_append]
  · rw [cars_egg, cars_car, if_pos rfl, hcars, if_pos rfl]
    have hlength : (l₁ ++ egg_u :: l₂).length = (l₁ ++ l₂).length + 1 := by simp [Nat.add_assoc]
    rw [hlength] at hshort
    dsimp only
    rw [hqueued.dep, hlength, pred_mod hshort]
  · rw [hfin p (hne p hp), hova]
    refine hqueued.own p ?_
    rcases List.mem_append.mp hp with hp | hp
    · exact List.mem_append_left _ hp
    · exact List.mem_append_right _ (.tail _ hp)
  · rw [cars_egg, cars_car, if_neg hc, hcars, if_neg hc]
  · rw [List.mem_append, List.mem_cons, not_or, not_or] at hp
    rw [hfin p hp.2.1, hova, if_neg, if_neg]
    · rintro ⟨rfl, hzero⟩
      exact hp.1 (hpreMem hzero)
    · rintro ⟨rfl, hzero⟩
      exact hp.2.2 (hnexMem hzero)
  · by_cases hp : p = egg_u
    · rw [ova_egg, if_pos hp, ova_car, hova, hp]
    · rw [hfin p hp, hova]

/-! ### Every list -/

/-- The lists are right, and what has been taken is in none of them. -/
structure Eggs.Inv (eggs : Eggs) : Prop where
  queued : ∀ car_u, Queued eggs.mem car_u (eggs.queue car_u)
  nodup : ∀ car_u, (eggs.queue car_u).Nodup
  short : ∀ car_u, (eggs.queue car_u).length < 2 ^ 32
  null : eggs.queue 0 = []
  once : eggs.taken.Nodup
  apart : ∀ egg_u ∈ eggs.taken, ∀ car_u, egg_u ∉ eggs.queue car_u
  taken : ∀ egg_u ∈ eggs.taken, egg_u ≠ 0 ∧ (eggs.mem.ova egg_u).car_u ≠ 0

theorem Eggs.begin_inv (ova : ℕ → Ovum) : (Eggs.begin ova).Inv :=
  ⟨fun _ ↦ ⟨rfl, rfl, rfl, nofun⟩, fun _ ↦ .nil, fun _ ↦ Nat.two_pow_pos 32, rfl, .nil,
    nofun, nofun⟩

/-- No event waits for two drivers. -/
theorem Eggs.Inv.disjoint (hinv : eggs.Inv) {c : ℕ} (hc : c ≠ car_u) :
    ∀ p ∈ eggs.queue c, p ∉ eggs.queue car_u := by
  intro p hp hp'
  exact hc (((hinv.queued c).own p hp).symm.trans ((hinv.queued car_u).own p hp'))

theorem Eggs.Inv.car_ne_zero (hinv : eggs.Inv) (hegg : egg_u ∈ eggs.queue car_u) : car_u ≠ 0 := by
  rintro rfl
  rw [hinv.null] at hegg
  cases hegg

theorem Eggs.Inv.update (hinv : eggs.Inv) {taken touched : List ℕ} (hqueued : Queued mem' car_u l)
    (hedits : Edits eggs.mem mem' car_u touched)
    (htouched : ∀ c ≠ car_u, ∀ p ∈ eggs.queue c, p ∉ touched) (hnodup : l.Nodup)
    (hshort : l.length < 2 ^ 32) (hcar : car_u ≠ 0) (honce : taken.Nodup)
    (hapart : ∀ p ∈ taken, p ∉ l ∧ ∀ c ≠ car_u, p ∉ eggs.queue c)
    (htaken : ∀ p ∈ taken, p ≠ 0 ∧ (mem'.ova p).car_u ≠ 0) :
    Eggs.Inv ⟨mem', Function.update eggs.queue car_u l, taken⟩ := by
  have hother : ∀ c ≠ car_u, Function.update eggs.queue car_u l c = eggs.queue c :=
    fun c hc ↦ Function.update_of_ne hc ..
  have hself : Function.update eggs.queue car_u l car_u = l := Function.update_self ..
  refine ⟨fun c ↦ ?_, fun c ↦ ?_, fun c ↦ ?_, (hother 0 hcar.symm).trans hinv.null, honce,
    fun p hp c ↦ ?_, htaken⟩
  all_goals
    dsimp only
    rcases eq_or_ne c car_u with rfl | hc
  · rw [hself]
    exact hqueued
  · rw [hother c hc]
    exact (hinv.queued c).congr hedits hc (htouched c hc)
  · rw [hself]
    exact hnodup
  · rw [hother c hc]
    exact hinv.nodup c
  · rw [hself]
    exact hshort
  · rw [hother c hc]
    exact hinv.short c
  · rw [hself]
    exact (hapart p hp).1
  · rw [hother c hc]
    exact (hapart p hp).2 c hc

theorem Eggs.Inv.next (hinv : eggs.Inv) (cars : List ℕ) :
    (firstOf eggs.queue cars = none ∧ autoNext eggs.mem cars = .ok (none, eggs.mem)) ∨
      ∃ car_u egg_u l mem', firstOf eggs.queue cars = some (car_u, egg_u) ∧
        eggs.queue car_u = egg_u :: l ∧
        autoNext eggs.mem cars = .ok (some egg_u, mem') ∧ Queued mem' car_u l ∧
        Edits eggs.mem mem' car_u (egg_u :: l) ∧
        ∀ p, (mem'.ova p).car_u = (eggs.mem.ova p).car_u := by
  induction cars with
  | nil => exact .inl ⟨rfl, rfl⟩
  | cons car_u cars ih =>
    cases hqueue : eggs.queue car_u with
    | nil =>
      have hempty := (hinv.queued car_u).ext_eq_zero.mpr hqueue
      rw [autoNext, if_pos hempty]
      simp only [firstOf, hqueue]
      exact ih
    | cons egg_u l =>
      have hqueued := hinv.queued car_u
      have hnodup := hinv.nodup car_u
      have hshort := hinv.short car_u
      rw [hqueue] at hqueued hnodup hshort
      obtain ⟨mem', hok, hqueued', hedits, hown⟩ := hqueued.next hnodup cars hshort
      refine .inr ⟨car_u, egg_u, l, mem', ?_, hqueue, hok, hqueued', hedits, hown⟩
      rw [firstOf, hqueue]

theorem Eggs.Inv.good (hinv : eggs.Inv) : eggs.Good := by
  refine ⟨hinv.queued, fun cars ↦ ?_⟩
  rcases hinv.next cars with ⟨hfirst, hok⟩ | ⟨car_u, egg_u, l, mem', hfirst, _, hok, _⟩
  · exact ⟨eggs.mem, by rw [hfirst, hok]; rfl⟩
  · exact ⟨mem', by rw [hfirst, hok]; rfl⟩

theorem Eggs.Inv.step (hinv : eggs.Inv) {call : Call} (hlegal : call.Legal eggs)
    (hsafe : call.Safe eggs) :
    ∃ eggs', eggStep eggs call = .ok eggs' ∧ eggs'.Inv := by
  cases call with
  | plan car_u egg_u =>
    obtain ⟨hcar, hegg, hnew, hidle⟩ := hlegal
    obtain ⟨mem', hok, hqueued, hedits, hown⟩ :=
      (hinv.queued car_u).plan (hinv.nodup car_u) hegg (hnew car_u) hsafe
    refine ⟨⟨mem', Function.update eggs.queue car_u (eggs.queue car_u ++ [egg_u]), eggs.taken⟩,
      by simp only [eggStep, hok]; rfl, ?_⟩
    refine hinv.update hqueued hedits (fun c hc p hp ↦ ?_) ?_ ?_ hcar hinv.once
      (fun p hp ↦ ⟨?_, ?_⟩)
      fun p hp ↦ ?_
    · rw [List.mem_cons, not_or]
      exact ⟨fun heq ↦ hnew c (heq ▸ hp), hinv.disjoint hc p hp⟩
    · rw [List.nodup_append]
      refine ⟨hinv.nodup car_u, List.nodup_singleton _, fun p hp q hq ↦ ?_⟩
      rw [List.mem_singleton.mp hq]
      exact fun heq ↦ hnew car_u (heq ▸ hp)
    · rw [List.length_append]
      exact hsafe
    · rw [List.mem_append, List.mem_singleton, not_or]
      exact ⟨hinv.apart p hp car_u, fun heq ↦ hidle (heq ▸ hp)⟩
    · exact fun c _ ↦ hinv.apart p hp c
    · rw [hown p fun heq ↦ hidle (heq ▸ hp)]
      exact hinv.taken p hp
  | redo car_u egg_u =>
    obtain ⟨htaken, hcar⟩ := hlegal
    obtain ⟨hegg, hcarNe⟩ := hinv.taken egg_u htaken
    obtain ⟨mem', hok, hqueued, hedits, hown⟩ :=
      (hinv.queued car_u).redo (hinv.nodup car_u) hegg (hinv.apart egg_u htaken car_u) hcar hsafe
    refine ⟨⟨mem', Function.update eggs.queue car_u (egg_u :: eggs.queue car_u),
      eggs.taken.erase egg_u⟩, by simp only [eggStep, hok]; rfl, ?_⟩
    refine hinv.update hqueued hedits (fun c hc p hp ↦ ?_) ?_ ?_ (hcar ▸ hcarNe)
      (hinv.once.erase egg_u)
      (fun p hp ↦ ⟨?_, ?_⟩) fun p hp ↦ ?_
    · rw [List.mem_cons, not_or]
      exact ⟨fun heq ↦ hinv.apart egg_u htaken c (heq ▸ hp), hinv.disjoint hc p hp⟩
    · exact List.nodup_cons.mpr ⟨hinv.apart egg_u htaken car_u, hinv.nodup car_u⟩
    · exact hsafe
    · rw [hinv.once.mem_erase_iff] at hp
      rw [List.mem_cons, not_or]
      exact ⟨hp.1, hinv.apart p hp.2 car_u⟩
    · exact fun c _ ↦ hinv.apart p (List.mem_of_mem_erase hp) c
    · rw [hown]
      exact hinv.taken p (List.mem_of_mem_erase hp)
  | next cars =>
    rcases hinv.next cars with ⟨hfirst, hok⟩ |
      ⟨car_u, egg_u, l, mem', hfirst, hqueue, hok, hqueued, hedits, hown⟩
    · refine ⟨eggs, ?_, hinv⟩
      simp only [eggStep, hok, hfirst]
      rfl
    · have hnodup := hinv.nodup car_u
      have hshort := hinv.short car_u
      rw [hqueue, List.nodup_cons] at hnodup
      rw [hqueue, List.length_cons] at hshort
      have hmem : egg_u ∈ eggs.queue car_u := hqueue ▸ List.mem_cons_self
      refine ⟨⟨mem', Function.update eggs.queue car_u l, egg_u :: eggs.taken⟩, ?_, ?_⟩
      · simp only [eggStep, hok, hfirst, hqueue]
        rfl
      refine hinv.update hqueued hedits (fun c hc p hp ↦ ?_) hnodup.2 (by omega)
        (hinv.car_ne_zero hmem) ?_
        (fun p hp ↦ ?_) fun p hp ↦ ?_
      · rw [← hqueue]
        exact hinv.disjoint hc p hp
      · exact List.nodup_cons.mpr ⟨fun htaken ↦ hinv.apart egg_u htaken car_u hmem, hinv.once⟩
      · rcases List.mem_cons.mp hp with rfl | hp
        · exact ⟨hnodup.1, fun c hc hp' ↦ hinv.disjoint hc p hp' hmem⟩
        · refine ⟨fun hp' ↦ hinv.apart p hp car_u ?_, fun c _ ↦ hinv.apart p hp c⟩
          rw [hqueue]
          exact .tail _ hp'
      · rw [hown]
        rcases List.mem_cons.mp hp with rfl | hp
        · refine ⟨(hinv.queued car_u).links.ne_null hmem, ?_⟩
          rw [(hinv.queued car_u).own p hmem]
          exact hinv.car_ne_zero hmem
        · exact hinv.taken p hp
  | drop egg_u =>
    obtain ⟨car_u, hegg⟩ := hlegal
    obtain ⟨l₁, l₂, hqueue⟩ := List.append_of_mem hegg
    have hqueued := hinv.queued car_u
    have hnodup := hinv.nodup car_u
    have hshort := hinv.short car_u
    rw [hqueue] at hqueued hnodup hshort
    obtain ⟨mem', hok, hqueued', hedits, hown⟩ := hqueued.drop hnodup (hinv.car_ne_zero hegg) hshort
    have hothers : (fun c ↦ (eggs.queue c).erase egg_u) =
        Function.update eggs.queue car_u (l₁ ++ l₂) := by
      funext c
      rcases eq_or_ne c car_u with rfl | hc
      · have hegg₁ : egg_u ∉ l₁ :=
          fun h ↦ (List.nodup_append.mp hnodup).2.2 egg_u h egg_u List.mem_cons_self rfl
        rw [Function.update_self, hqueue, List.erase_append_right _ hegg₁, List.erase_cons_head]
      · rw [Function.update_of_ne hc, List.erase_of_not_mem fun h ↦ hinv.disjoint hc egg_u h hegg]
    have hsub : ∀ p, p ∈ l₁ ++ l₂ → p ∈ eggs.queue car_u := by
      intro p hp
      rw [hqueue]
      rcases List.mem_append.mp hp with hp | hp
      · exact List.mem_append_left _ hp
      · exact List.mem_append_right _ (.tail _ hp)
    refine ⟨⟨mem', Function.update eggs.queue car_u (l₁ ++ l₂), eggs.taken⟩, ?_, ?_⟩
    · simp only [eggStep, hok, ← hothers]
      rfl
    refine hinv.update hqueued' hedits (fun c hc p hp ↦ ?_) ?_ ?_ (hinv.car_ne_zero hegg) hinv.once
      (fun p hp ↦ ⟨fun hp' ↦ hinv.apart p hp car_u (hsub p hp'), fun c _ ↦ hinv.apart p hp c⟩)
        fun p hp ↦ ?_
    · rw [← hqueue]
      exact hinv.disjoint hc p hp
    · exact hnodup.sublist (List.Sublist.append_left (List.sublist_cons_self egg_u l₂) l₁)
    · simp only [List.length_append, List.length_cons] at hshort ⊢
      omega
    · rw [hown]
      exact hinv.taken p hp
  | free egg_u => exact hsafe.elim
  | done egg_u =>
    refine ⟨_, rfl, hinv.queued, hinv.nodup, hinv.short, hinv.null, hinv.once.erase egg_u,
      fun p hp ↦ ?_, fun p hp ↦ ?_⟩
    · exact hinv.apart p (List.mem_of_mem_erase hp)
    · exact hinv.taken p (List.mem_of_mem_erase hp)

/-! ### Runs -/

theorem autoOnly_dep (hok : autoOnly mem car_u egg_u = .ok mem') :
    (mem'.cars car_u).dep_w < 2 ^ 32 := by
  rw [autoOnly] at hok
  split at hok
  · cases hok
  · obtain rfl := Except.ok.inj hok
    rw [cars_car, if_pos rfl]
    exact Nat.one_lt_two_pow (by decide)

theorem autoPlan_dep (hok : autoPlan mem car_u egg_u = .ok mem') :
    (mem'.cars car_u).dep_w < 2 ^ 32 := by
  rw [autoPlan] at hok
  dsimp only at hok
  split at hok
  · exact autoOnly_dep hok
  · obtain rfl := Except.ok.inj hok
    rw [cars_car, if_pos rfl]
    exact Nat.mod_lt _ (Nat.two_pow_pos 32)

theorem autoRedo_dep (hok : autoRedo mem car_u egg_u = .ok mem') :
    (mem'.cars car_u).dep_w < 2 ^ 32 := by
  rw [autoRedo] at hok
  dsimp only at hok
  split at hok
  · cases hok
  split at hok
  · exact autoOnly_dep hok
  split at hok
  · cases hok
  · obtain rfl := Except.ok.inj hok
    rw [cars_car, if_pos rfl]
    exact Nat.mod_lt _ (Nat.two_pow_pos 32)

theorem autoDrop_dep (hok : autoDrop mem egg_u = .ok mem') :
    (mem'.cars (mem.ova egg_u).car_u).dep_w =
    ((mem.cars (mem.ova egg_u).car_u).dep_w + 2 ^ 32 - 1) % 2 ^ 32 := by
  rw [autoDrop] at hok
  dsimp only at hok
  split at hok
  · cases hok
  · obtain rfl := Except.ok.inj hok
    rw [cars_egg, cars_car, if_pos rfl, autoUnlink_cars, if_pos rfl]

theorem Eggs.Inv.safe_of_good (hinv : eggs.Inv) {call : Call} (hlegal : call.Legal eggs)
    (hstep : eggStep eggs call = .ok eggs') (hgood : eggs'.Good) : call.Safe eggs := by
  cases call with
  | plan car_u egg_u =>
    obtain ⟨mem', hok, hresult⟩ := bind_eq_ok hstep
    obtain rfl := Except.ok.inj hresult
    have hdep := (hgood.queued car_u).dep
    dsimp only at hdep
    rw [Function.update_self, List.length_append] at hdep
    show (eggs.queue car_u).length + 1 < 2 ^ 32
    exact hdep ▸ autoPlan_dep hok
  | redo car_u egg_u =>
    obtain ⟨mem', hok, hresult⟩ := bind_eq_ok hstep
    obtain rfl := Except.ok.inj hresult
    have hdep := (hgood.queued car_u).dep
    dsimp only at hdep
    rw [Function.update_self, List.length_cons] at hdep
    show (eggs.queue car_u).length + 1 < 2 ^ 32
    exact hdep ▸ autoRedo_dep hok
  | next cars => exact trivial
  | drop egg_u => exact trivial
  | free egg_u =>
    obtain ⟨mem', hok, hresult⟩ := bind_eq_ok hstep
    obtain rfl := Except.ok.inj hresult
    have hdep := (hgood.queued (eggs.mem.ova egg_u).car_u).dep
    dsimp only at hdep
    have hshort := hinv.short (eggs.mem.ova egg_u).car_u
    rw [autoDrop_dep hok, (hinv.queued _).dep] at hdep
    omega
  | done egg_u => exact trivial

/-- In a run, no assertion fails, and in every state the list of every driver has the events that
were planned or retried and not taken or dropped, and its length, exactly if no event is dropped
after it was taken, and the length fits into its word. -/
theorem queues_iff (ova : ℕ → Ovum) (calls : List Call)
    (hlegal : Every eggStep (fun eggs call ↦ call.Legal eggs) (.begin ova) calls) :
    (∀ front, front <+: calls → ∃ eggs, front.foldlM eggStep (.begin ova) = .ok eggs ∧ eggs.Good) ↔
      Every eggStep (fun eggs call ↦ call.Safe eggs) (.begin ova) calls :=
  run_good_iff (fun _ ↦ Eggs.Inv.good) (fun _ _ hinv hlegal hsafe ↦ hinv.step hlegal hsafe)
    (fun _ _ _ hinv hlegal hstep hgood ↦ hinv.safe_of_good hlegal hstep hgood)
      (Eggs.begin_inv ova) hlegal

/-- Two events are planned, and one is taken. -/
theorem queues_iff_two :
    ∃ eggs, [.plan 1 10, .plan 1 11, .next [1]].foldlM eggStep (.begin fun _ ↦ ⟨0, 0, 0, 0⟩) =
      .ok eggs ∧
      eggs.Good := by
  refine (queues_iff (fun _ ↦ ⟨0, 0, 0, 0⟩) [.plan 1 10, .plan 1 11,
    .next [1]] ?_).mpr ?_ _ (List.prefix_refl _)
  · refine ⟨⟨by decide, by decide, nofun, nofun⟩, fun eggs hstep ↦ ?_⟩
    obtain rfl := Except.ok.inj hstep
    refine ⟨⟨by decide, by decide, fun c hc ↦ ?_, nofun⟩, fun eggs hstep ↦ ?_⟩
    · rcases eq_or_ne c 1 with rfl | hother
      · exact absurd (List.mem_singleton.mp hc) (by decide)
      · dsimp only at hc
        rw [Function.update_of_ne hother] at hc
        cases hc
    · obtain rfl := Except.ok.inj hstep
      exact ⟨trivial, fun _ _ ↦ trivial⟩
  · refine ⟨Nat.one_lt_two_pow (by decide), fun eggs hstep ↦ ?_⟩
    obtain rfl := Except.ok.inj hstep
    refine ⟨show 2 < 2 ^ 32 by decide, fun eggs hstep ↦ ?_⟩
    obtain rfl := Except.ok.inj hstep
    exact ⟨trivial, fun _ _ ↦ trivial⟩

/-- Two events are planned, the first is taken, and freed when the lord stops. The driver has lost
the second. When no other event waits, it counts less than none. -/
theorem queues_lost : ∃ eggs mem last,
    [.plan 1 10, .plan 1 11, .next [1], .free 10].foldlM eggStep (.begin fun _ ↦ ⟨0, 0, 0, 0⟩) =
      .ok eggs ∧
      eggs.queue 1 = [11] ∧ (eggs.mem.cars 1).ext_u = 0 ∧ autoNext eggs.mem [1] = .ok (none, mem) ∧
    [.plan 1 10, .next [1], .free 10].foldlM eggStep (.begin fun _ ↦ ⟨0, 0, 0, 0⟩) = .ok last ∧
      last.queue 1 = [] ∧ (last.mem.cars 1).dep_w = 2 ^ 32 - 1 :=
  ⟨_, _, _, rfl, rfl, rfl, rfl, rfl, rfl, rfl⟩

end Vere.King.Auto
