import Vere.Lib.Runs
import Vere.Noun.EventsCrash

/-!
# Histories of saves and crashes

A host starts with `u3e_live()`, saves any number of times, and crashes at any point, also while it
recovers. `_ce_patch_delete()` removes `control.bin` before `memory.bin`, and `_ce_patch_open()`
looks for `control.bin` first: what a crash between the two leaves is never removed, and
`_ce_patch_create()` fails on it. `history_clean` says that this is the only way in which a patch is
left behind.
-/

set_option autoImplicit false

namespace Vere.Noun.Events

open Lib.Crash Lib.Runs

/-! ### Hosts -/

/-- The pool of the process, if it runs, and its checkpoint directory. -/
structure Host where
  pol_u : Option Pool
  fil_u : Files

inductive Act
  /-- `u3e_live()` returns. -/
  | live (junk : ℕ) (boot : Pool)
  /-- A crash of `u3e_live()`. -/
  | liveCrash (junk : ℕ) (boot : Pool) (i k : ℕ)
  /-- Work between snapshots: the pool is any. -/
  | work (pol_u : Pool)
  /-- `u3e_save()` returns. -/
  | save (nor_w sou_w : ℕ)
  /-- A crash of `u3e_save()`. -/
  | saveCrash (nor_w sou_w i k : ℕ)
  /-- `_ce_patch_create()` fails in `u3e_save()`. -/
  | saveFail (nor_w sou_w : ℕ)
  /-- A crash between calls. -/
  | stop

variable (mug : Page → UInt32)

/-- What `_ce_patch_create()` has done when it fails. -/
def createFail (fil_u : Files) : Files :=
  if fil_u.control.isSome then fil_u else FileOp.createControl.run fil_u

def Host.step : Host → Act → Option Host
  | ⟨none, fil_u⟩, .live junk boot => do
    let (pol_u, fil_u) ← u3eLive mug junk boot fil_u
    some ⟨some pol_u, fil_u⟩
  | ⟨none, fil_u⟩, .liveCrash junk boot i k => do
    let (ops, _) ← liveOps mug junk boot.pag_w fil_u
    some ⟨none, crash FileOp.run FileOp.part ops i k fil_u⟩
  | ⟨some _, fil_u⟩, .work pol_u => some ⟨some pol_u, fil_u⟩
  | ⟨some pol_u, fil_u⟩, .save nor_w sou_w => do
    let (ops, pol_u) ← u3eSave mug pol_u fil_u nor_w sou_w
    some ⟨some pol_u, exec FileOp.run ops fil_u⟩
  | ⟨some pol_u, fil_u⟩, .saveCrash nor_w sou_w i k => do
    let (ops, _) ← u3eSave mug pol_u fil_u nor_w sou_w
    some ⟨none, crash FileOp.run FileOp.part ops i k fil_u⟩
  | ⟨some pol_u, fil_u⟩, .saveFail nor_w sou_w =>
    match patchCompose mug pol_u nor_w sou_w, patchCreate fil_u with
    | some (some _, _), none => some ⟨none, createFail fil_u⟩
    | _, _ => none
  | ⟨some _, fil_u⟩, .stop => some ⟨none, fil_u⟩
  | _, _ => none

/-- The operations that a step is in the middle of, and where. -/
def Host.during : Host → Act → Option (List FileOp × ℕ)
  | ⟨none, fil_u⟩, .liveCrash junk boot i _ =>
    (liveOps mug junk boot.pag_w fil_u).map fun (ops, _) ↦ (ops, i)
  | ⟨some pol_u, fil_u⟩, .saveCrash nor_w sou_w i _ =>
    (u3eSave mug pol_u fil_u nor_w sou_w).map fun (ops, _) ↦ (ops, i)
  | _, _ => none

/-- The step is not a crash between the two unlinks of `_ce_patch_delete()` with a `memory.bin`. -/
def Host.Clear (host : Host) (act : Act) : Prop :=
  ∀ ops i, host.during mug act = some (ops, i) → ops[i]? = some .unlinkMemory →
    (exec FileOp.run (ops.take i) host.fil_u).memory = none

/-! ### What is left of a patch -/

variable {mug} {junk i k : ℕ} {boot : Pool} {fil_u : Files} {ops : List FileOp}

/-- There is no `memory.bin` without a `control.bin`. -/
def Files.Sound (fil_u : Files) : Prop := fil_u.control = none → fil_u.memory = none

/-- An operation that does not touch the files of the patch. -/
def FileOp.Frame (op : FileOp) : Prop :=
  ∀ (mid_u : Files) (k : ℕ),
    ((op.run mid_u).control = mid_u.control ∧ (op.run mid_u).memory = mid_u.memory) ∧
      (op.part k mid_u).control = mid_u.control ∧ (op.part k mid_u).memory = mid_u.memory

variable {pag_w : ℕ} {pgs_w : Seg → ℕ}

theorem patchApplyLoop_images {nor_w : ℕ} {lines : List Line} {pages : List Page}
    (hloop : patchApplyLoop pag_w nor_w lines pages = some ops) :
    ∀ op ∈ ops, ∃ seg off_w page, op = .write seg off_w page := by
  induction lines generalizing pages ops with
  | nil =>
    obtain rfl := Option.some.inj hloop
    simp
  | cons lin_u lines ih =>
    cases pages with
    | nil => cases hloop
    | cons page pages =>
      simp only [patchApplyLoop, bind, Option.bind_eq_some_iff] at hloop
      obtain ⟨rest, hrest, heq⟩ := hloop
      obtain rfl := Option.some.inj heq
      intro op hop
      rcases List.mem_cons.mp hop with rfl | hop
      · exact ⟨_, _, _, rfl⟩
      · exact ih hrest op hop

/-- Applying a patch does not touch its files. -/
theorem applyOps_frame {con_u : Control} {mem_i : Image}
    (happly : applyOps pag_w pgs_w con_u mem_i = some ops) : ∀ op ∈ ops, op.Frame := by
  simp only [applyOps, bind, Option.bind_eq_some_iff] at happly
  obtain ⟨writes, hloop, heq⟩ := happly
  obtain rfl := Option.some.inj heq
  intro op hop mid_u k
  rcases List.mem_append.mp hop with hop | hop
  · rcases List.mem_append.mp hop with hop | hop
    · obtain ⟨_, rfl⟩ := mem_resizeOps.mp hop
      exact ⟨⟨rfl, rfl⟩, rfl, rfl⟩
    · obtain ⟨_, rfl⟩ := mem_resizeOps.mp hop
      exact ⟨⟨rfl, rfl⟩, rfl, rfl⟩
  · obtain ⟨seg, off_w, page, rfl⟩ := patchApplyLoop_images hloop op hop
    exact ⟨⟨rfl, rfl⟩, rfl, rfl⟩

theorem exec_frame (hframe : ∀ op ∈ ops, op.Frame) (fil_u : Files) :
    (exec FileOp.run ops fil_u).control = fil_u.control ∧
      (exec FileOp.run ops fil_u).memory = fil_u.memory := by
  refine exec_invariant (P := fun mid_u : Files ↦ mid_u.control = fil_u.control ∧
    mid_u.memory = fil_u.memory) ⟨rfl, rfl⟩ fun op hop mid_u hmid ↦ ?_
  obtain ⟨hcontrol, hmemory⟩ := (hframe op hop mid_u 0).1
  exact ⟨hcontrol.trans hmid.1, hmemory.trans hmid.2⟩

theorem crash_frame (hframe : ∀ op ∈ ops, op.Frame) (i k : ℕ) (fil_u : Files) :
    (crash FileOp.run FileOp.part ops i k fil_u).control = fil_u.control ∧
      (crash FileOp.run FileOp.part ops i k fil_u).memory = fil_u.memory := by
  refine crash_invariant (P := fun mid_u : Files ↦ mid_u.control = fil_u.control ∧
    mid_u.memory = fil_u.memory) ⟨rfl, rfl⟩ (fun op hop mid_u hmid ↦ ?_) fun op hop mid_u hmid ↦ ?_
  · obtain ⟨hcontrol, hmemory⟩ := (hframe op hop mid_u 0).1
    exact ⟨hcontrol.trans hmid.1, hmemory.trans hmid.2⟩
  · obtain ⟨hcontrol, hmemory⟩ := (hframe op (List.mem_of_getElem? hop) mid_u k).2
    exact ⟨hcontrol.trans hmid.1, hmemory.trans hmid.2⟩

theorem exec_delete (ops : List FileOp) (fil_u : Files) :
    (exec FileOp.run (ops ++ deleteOps) fil_u).control = none ∧
      (exec FileOp.run (ops ++ deleteOps) fil_u).memory = none := by
  rw [exec_append]
  exact ⟨rfl, rfl⟩

/-- A crash while a patch is applied and deleted. -/
theorem Files.Sound.crash_delete (hsound : fil_u.Sound) (hframe : ∀ op ∈ ops, op.Frame)
    (hclear : (ops ++ deleteOps)[i]? = some .unlinkMemory →
      (exec FileOp.run ((ops ++ deleteOps).take i) fil_u).memory = none) :
    (crash FileOp.run FileOp.part (ops ++ deleteOps) i k fil_u).Sound := by
  by_cases happly : i < ops.length
  · rw [crash_append_left _ _ k fil_u happly]
    obtain ⟨hcontrol, hmemory⟩ := crash_frame hframe i k fil_u
    rw [Files.Sound, hcontrol, hmemory]
    exact hsound
  · obtain ⟨j, rfl⟩ := Nat.exists_eq_add_of_le (Nat.not_lt.mp happly)
    obtain ⟨hcontrol, hmemory⟩ := exec_frame hframe fil_u
    rw [List.getElem?_append_right (Nat.le_add_right ..), Nat.add_sub_cancel_left,
      List.take_length_add_append, exec_append] at hclear
    rw [crash_append_right]
    match j with
    | 0 =>
      intro hnone
      exact hmemory.trans (hsound (hcontrol.symm.trans hnone))
    | 1 => exact fun _ ↦ hclear rfl
    | j + 2 => exact fun _ ↦ rfl

/-! ### Recovery and saves -/

theorem patchOpen_none (hopen : patchOpen mug junk fil_u = .none) : fil_u.control = none := by
  cases hcontrol : fil_u.control with
  | none => rfl
  | some ctl =>
    cases hmemory : fil_u.memory with
    | none => simp [patchOpen, hcontrol, hmemory] at hopen
    | some mem_i =>
      simp only [patchOpen, hcontrol, hmemory] at hopen
      split at hopen
      · cases hopen
      · split_ifs at hopen

/-- `u3e_live()` removes a patch just when it finds `control.bin`. -/
theorem liveOps_cases (hlive : liveOps mug junk pag_w fil_u = some (ops, pgs_w)) :
    (fil_u.control = none ∧ ops = []) ∨
      (fil_u.control ≠ none ∧ ∃ writes, (∀ op ∈ writes, op.Frame) ∧ ops = writes ++ deleteOps) := by
  simp only [liveOps, bind, Option.bind_eq_some_iff] at hlive
  obtain ⟨nor_w, _, sou_w, _, hlive⟩ := hlive
  cases hopen : patchOpen mug junk fil_u with
  | none =>
    simp only [hopen, Option.some.injEq, Prod.mk.injEq] at hlive
    exact .inl ⟨patchOpen_none hopen, hlive.1.symm⟩
  | delete =>
    simp only [hopen, Option.some.injEq, Prod.mk.injEq] at hlive
    refine .inr ⟨fun hcontrol ↦ ?_, [], fun op hop ↦ absurd hop List.not_mem_nil, hlive.1.symm⟩
    simp [patchOpen, hcontrol] at hopen
  | apply con_u mem_i =>
    simp only [hopen, Option.bind_eq_some_iff, Option.some.injEq, Prod.mk.injEq] at hlive
    obtain ⟨writes, happly, rfl, _⟩ := hlive
    refine .inr ⟨fun hcontrol ↦ ?_, writes, applyOps_frame happly, rfl⟩
    simp [patchOpen, hcontrol] at hopen

/-- After `u3e_live()` neither file of a patch is left, just when there was not a `memory.bin`
alone. -/
theorem u3eLive_clean {next : Pool} {after : Files}
    (hlive : u3eLive mug junk boot fil_u = some (next, after)) :
    after.control = none ∧ (after.memory = none ↔ fil_u.Sound) := by
  simp only [u3eLive, bind, Option.bind_eq_some_iff] at hlive
  obtain ⟨⟨ops, pgs_w⟩, hops, hlive⟩ := hlive
  split_ifs at hlive
  obtain ⟨_, rfl⟩ := Prod.mk.inj (Option.some.inj hlive)
  rcases liveOps_cases hops with ⟨hnone, rfl⟩ | ⟨hsome, writes, _, rfl⟩
  · exact ⟨hnone, ⟨fun hmemory _ ↦ hmemory, fun hsound ↦ hsound hnone⟩⟩
  · obtain ⟨hcontrol, hmemory⟩ := exec_delete writes fil_u
    exact ⟨hcontrol, ⟨fun _ hnone ↦ absurd hnone hsome, fun _ ↦ hmemory⟩⟩

theorem u3eLive_guard {next : Pool} {after : Files}
    (hlive : u3eLive mug junk boot fil_u = some (next, after)) : next.gar_w = boot.gar_w := by
  simp only [u3eLive, bind, Option.bind_eq_some_iff] at hlive
  obtain ⟨⟨ops, pgs_w⟩, hops, hlive⟩ := hlive
  split_ifs at hlive
  obtain ⟨rfl, _⟩ := Prod.mk.inj (Option.some.inj hlive)
  rfl

theorem Files.Sound.live_crash (hsound : fil_u.Sound)
    (hlive : liveOps mug junk pag_w fil_u = some (ops, pgs_w))
    (hclear : ops[i]? = some .unlinkMemory →
      (exec FileOp.run (ops.take i) fil_u).memory = none) :
    (crash FileOp.run FileOp.part ops i k fil_u).Sound := by
  rcases liveOps_cases hlive with ⟨_, rfl⟩ | ⟨_, writes, hframe, rfl⟩
  · exact hsound
  · exact hsound.crash_delete hframe hclear

variable {pol_u next : Pool} {nor_w sou_w : ℕ}

/-- `u3e_save()` leaves no patch. -/
theorem u3eSave_clean (hsave : u3eSave mug pol_u fil_u nor_w sou_w = some (ops, next))
    (hcontrol : fil_u.control = none) (hmemory : fil_u.memory = none) :
    (exec FileOp.run ops fil_u).control = none ∧ (exec FileOp.run ops fil_u).memory = none := by
  rcases u3eSave_cases hsave with ⟨_, rfl, _⟩ | ⟨_, _, _, rfl, _⟩
  · exact ⟨hcontrol, hmemory⟩
  · rw [Pool.saveOps, exec_append]
    exact exec_delete _ _

/-- While the patch is made, `control.bin` is there before `memory.bin`. -/
theorem sound_crash_compose (con_u : Control) (pages : List Page) (hmemory : fil_u.memory = none)
    (i k : ℕ) : (crash FileOp.run FileOp.part (composeOps con_u pages) i k fil_u).Sound := by
  have hkeep : ∀ op ∈ FileOp.createMemory :: (pages.zipIdx.map fun page ↦
      FileOp.writeMemory page.2 page.1) ++ [.writeControl con_u], ∀ (mid_u : Files) (k : ℕ),
        mid_u.control ≠ none → (op.run mid_u).control ≠ none ∧
        (op.part k mid_u).control ≠ none := by
    intro op hop mid_u k hcontrol
    simp only [List.cons_append, List.mem_cons, List.mem_append, List.mem_map, List.not_mem_nil,
      or_false] at hop
    rcases hop with rfl | ⟨_, _, rfl⟩ | rfl
    · exact ⟨hcontrol, hcontrol⟩
    · exact ⟨hcontrol, hcontrol⟩
    · exact ⟨Option.some_ne_none _, Option.some_ne_none _⟩
  cases i with
  | zero => exact fun _ ↦ hmemory
  | succ i =>
    have hcrash := crash_invariant (P := fun mid_u : Files ↦ mid_u.control ≠ none) (i := i) (k := k)
      (s := FileOp.createControl.run fil_u) (Option.some_ne_none _)
      (fun op hop mid_u hmid ↦ (hkeep op hop mid_u 0 hmid).1)
      fun op hop mid_u hmid ↦ (hkeep op (List.mem_of_getElem? hop) mid_u k hmid).2
    exact fun hnone ↦ absurd hnone hcrash

theorem sound_save_crash (hsave : u3eSave mug pol_u fil_u nor_w sou_w = some (ops, next))
    (hsound : fil_u.Sound)
    (hclear : ops[i]? = some .unlinkMemory →
      (exec FileOp.run (ops.take i) fil_u).memory = none) :
    (crash FileOp.run FileOp.part ops i k fil_u).Sound := by
  rcases u3eSave_cases hsave with ⟨_, rfl, _⟩ | ⟨_, _, hmemory, rfl, _⟩
  · exact hsound
  · generalize pol_u.saved nor_w sou_w = saved at hclear ⊢
    by_cases hcompose : i < (composeOps (pol_u.control mug nor_w sou_w saved)
        (saved.map pol_u.mem)).length
    · rw [Pool.saveOps, crash_append_left _ _ k fil_u hcompose]
      exact sound_crash_compose _ _ hmemory i k
    · obtain ⟨j, rfl⟩ := Nat.exists_eq_add_of_le (Nat.not_lt.mp hcompose)
      rw [Pool.saveOps, List.getElem?_append_right (Nat.le_add_right ..), Nat.add_sub_cancel_left,
        List.take_length_add_append, exec_append] at hclear
      rw [Pool.saveOps, crash_append_right]
      refine Files.Sound.crash_delete (fun hnone ↦ ?_)
        (applyOps_frame (applyOps_control mug pol_u nor_w sou_w pol_u.pgs_w saved)) hclear
      rw [exec_composeOps] at hnone
      cases hnone

/-! ### Every history -/

/-- No patch is left behind that `u3e_live()` does not remove, and none while the process runs. -/
structure Host.Clean (host : Host) : Prop where
  sound : host.fil_u.Sound
  running : host.pol_u ≠ none → host.fil_u.control = none

theorem Host.Clean.step {host after : Host} {act : Act} (hclean : host.Clean)
    (hclear : host.Clear mug act) (hstep : host.step mug act = some after) : after.Clean := by
  obtain ⟨pol_u, fil_u⟩ := host
  cases act with
  | live junk boot =>
    cases pol_u with
    | some pol_u => cases hstep
    | none =>
      simp only [Host.step, bind, Option.bind_eq_some_iff] at hstep
      obtain ⟨⟨next, files⟩, hlive, hafter⟩ := hstep
      obtain rfl := Option.some.inj hafter
      obtain ⟨hcontrol, hmemory⟩ := u3eLive_clean hlive
      exact ⟨fun _ ↦ hmemory.mpr hclean.sound, fun _ ↦ hcontrol⟩
  | liveCrash junk boot i k =>
    cases pol_u with
    | some pol_u => cases hstep
    | none =>
      simp only [Host.step, bind, Option.bind_eq_some_iff] at hstep
      obtain ⟨⟨ops, pgs_w⟩, hlive, hafter⟩ := hstep
      obtain rfl := Option.some.inj hafter
      have hhere := hclear ops i (by simp [Host.during, hlive])
      exact ⟨hclean.sound.live_crash hlive hhere, fun hrunning ↦ absurd rfl hrunning⟩
  | work next =>
    cases pol_u with
    | none => cases hstep
    | some pol_u =>
      obtain rfl := Option.some.inj hstep
      exact ⟨hclean.sound, fun _ ↦ hclean.running (Option.some_ne_none _)⟩
  | save nor_w sou_w =>
    cases pol_u with
    | none => cases hstep
    | some pol_u =>
      simp only [Host.step, bind, Option.bind_eq_some_iff] at hstep
      obtain ⟨⟨ops, next⟩, hsave, hafter⟩ := hstep
      obtain rfl := Option.some.inj hafter
      have hnone := hclean.running (Option.some_ne_none _)
      obtain ⟨hcontrol, hmemory⟩ := u3eSave_clean hsave hnone (hclean.sound hnone)
      exact ⟨fun _ ↦ hmemory, fun _ ↦ hcontrol⟩
  | saveCrash nor_w sou_w i k =>
    cases pol_u with
    | none => cases hstep
    | some pol_u =>
      simp only [Host.step, bind, Option.bind_eq_some_iff] at hstep
      obtain ⟨⟨ops, next⟩, hsave, hafter⟩ := hstep
      obtain rfl := Option.some.inj hafter
      have hhere := hclear ops i (by simp [Host.during, hsave])
      exact ⟨sound_save_crash hsave hclean.sound hhere, fun hrunning ↦ absurd rfl hrunning⟩
  | saveFail nor_w sou_w =>
    cases pol_u with
    | none => cases hstep
    | some pol_u =>
      have hnone : fil_u.control = none := hclean.running (Option.some_ne_none _)
      have hmemory : fil_u.memory = none := hclean.sound hnone
      simp [Host.step, patchCreate, hnone, hmemory] at hstep
  | stop =>
    cases pol_u with
    | none => cases hstep
    | some pol_u =>
      obtain rfl := Option.some.inj hstep
      exact ⟨hclean.sound, fun hrunning ↦ absurd rfl hrunning⟩

/-- In a history without a crash between the two unlinks, neither file of a patch is left while the
process runs, and the next patch can be created. -/
theorem history_clean {start host : Host} {pol_u : Pool} (hstart : start.pol_u = none)
    (hmemory : start.fil_u.memory = none)
    (hhistory : Reach (Host.step mug) (Host.Clear mug) start host)
    (hrunning : host.pol_u = some pol_u) :
    host.fil_u.control = none ∧ host.fil_u.memory = none ∧ patchCreate host.fil_u = some () := by
  have hfirst : start.Clean := ⟨fun _ ↦ hmemory, fun hup ↦ absurd hstart hup⟩
  have hclean : host.Clean :=
    hhistory.invariant hfirst fun _ _ _ hclean hclear hstep ↦ hclean.step hclear hstep
  have hnone := hclean.running (hrunning ▸ Option.some_ne_none _)
  have hpatch := hclean.sound hnone
  exact ⟨hnone, hpatch, by simp [patchCreate, hnone, hpatch]⟩

/-! ### A crash of the first save -/

/-- The first save stops when its patch is complete, and `u3e_live()` starts again. -/
theorem history_new (mug : Page → UInt32) (good : Host → Act → Prop) (j : ℕ)
    (hlive : ∀ fil_u, good ⟨none, fil_u⟩ (.live 0 (.new (2 ^ 17) (2 ^ 16))))
    (hwork : ∀ pol_u fil_u, good ⟨some pol_u, fil_u⟩ (.work (.new (2 ^ 17) (2 ^ 16))))
    (hcrash : good ⟨some (.new (2 ^ 17) (2 ^ 16)), .new⟩ (.saveCrash 1 1 (5 + j) 0)) :
    ∃ next after, Reach (Host.step mug) good ⟨none, .new⟩ ⟨some next, after⟩ ∧
      u3eLive mug 0 (.new (2 ^ 17) (2 ^ 16)) (crash FileOp.run FileOp.part
        ((Pool.new (2 ^ 17) (2 ^ 16)).saveOps mug 1 1 [0, 2 ^ 17 - 1]) (5 + j) 0 .new) =
          some (next, after) := by
  have hpair : Pair (.new (2 ^ 17) (2 ^ 16)) .new 1 1 := pair_new (by decide)
  have hfits : Fits (water 1 1) := show 1 + 1 + 1 < u3aPages by decide
  obtain ⟨saved, hsave⟩ := u3eSave_new mug
  have hrecovers : Recovers mug 0 (.new (2 ^ 17) (2 ^ 16)) (crash FileOp.run FileOp.part
      ((Pool.new (2 ^ 17) (2 ^ 16)).saveOps mug 1 1 [0, 2 ^ 17 - 1]) (5 + j) 0 .new)
        (Files.pages .new) ((Pool.new (2 ^ 17) (2 ^ 16)).pages .new 1 1) := by
    have hright : crash FileOp.run FileOp.part ((Pool.new (2 ^ 17) (2 ^ 16)).saveOps mug 1 1
        [0, 2 ^ 17 - 1]) (5 + j) 0 .new = _ := crash_append_right _ _ j 0 Files.new
    rw [hright]
    exact (hpair.crash_committed (fun _ _ ↦ .inl rfl) rfl).mpr ⟨fun _ _ _ _ ↦ .inl rfl, hfits⟩
  obtain ⟨next, after, hagain, _⟩ := hrecovers
  refine ⟨next, after, ?_, hagain⟩
  have hfirst : (⟨none, .new⟩ : Host).step mug (.live 0 (.new (2 ^ 17) (2 ^ 16))) =
      some ⟨some ((Pool.new (2 ^ 17) (2 ^ 16)).blit .new (water 0 0)), .new⟩ := rfl
  have hstop : (⟨some (.new (2 ^ 17) (2 ^ 16)), .new⟩ : Host).step mug (.saveCrash 1 1 (5 + j) 0) =
      some ⟨none, crash FileOp.run FileOp.part
        ((Pool.new (2 ^ 17) (2 ^ 16)).saveOps mug 1 1 [0, 2 ^ 17 - 1]) (5 + j) 0 .new⟩ := by
    simp only [Host.step, hsave, bind, Option.bind]
  have hstart : Reach (Host.step mug) good ⟨none, .new⟩ ⟨some (.new (2 ^ 17) (2 ^ 16)), .new⟩ :=
    .step (.work (.new (2 ^ 17) (2 ^ 16))) (.step _ .refl (hlive _) hfirst) (hwork _ _) rfl
  refine .step _ (.step _ hstart hcrash hstop) (hlive _) ?_
  simp only [Host.step, hagain, bind, Option.bind]

theorem history_clean_new : Files.new.memory = none ∧ ∀ mug, ∃ next after,
    Reach (Host.step mug) (Host.Clear mug) ⟨none, .new⟩ ⟨some next, after⟩ ∧
    patchCreate after = some () := by
  refine ⟨rfl, fun mug ↦ ?_⟩
  have hclear : (⟨some (.new (2 ^ 17) (2 ^ 16)), .new⟩ : Host).Clear mug
      (.saveCrash 1 1 (5 + 0) 0) := by
    obtain ⟨saved, hsave⟩ := u3eSave_new mug
    intro ops i hduring hop
    simp only [Host.during, hsave, Option.map_some, Option.some.injEq, Prod.mk.injEq] at hduring
    obtain ⟨rfl, rfl⟩ := hduring
    cases hop
  obtain ⟨next, after, hhistory, _⟩ := history_new mug (Host.Clear mug) 0
    (fun _ _ _ hduring ↦ by cases hduring) (fun _ _ _ _ hduring ↦ by cases hduring) hclear
  exact ⟨next, after, hhistory, (history_clean rfl rfl hhistory rfl).2.2⟩

/-- The first save stops between the two unlinks. `u3e_live()` leaves `memory.bin`, and once a page
is dirty `u3e_save()` fails. -/
theorem history_left : Files.new.memory = none ∧ ∀ mug, ∃ next after,
    Reach (Host.step mug) (fun _ _ ↦ True) ⟨none, .new⟩ ⟨some next, after⟩ ∧ after.memory ≠ none ∧
      u3eSave mug { next with dit_w := fun _ ↦ true } after 1 1 = none := by
  refine ⟨rfl, fun mug ↦ ?_⟩
  obtain ⟨next, after, hhistory, hlive⟩ := history_new mug (fun _ _ ↦ True) 3 (fun _ ↦ trivial)
    (fun _ _ ↦ trivial) trivial
  have hunsound : ¬(crash FileOp.run FileOp.part ((Pool.new (2 ^ 17) (2 ^ 16)).saveOps mug 1 1
      [0, 2 ^ 17 - 1]) (5 + 3) 0 .new).Sound := fun hsound ↦ by cases hsound rfl
  have hmemory : after.memory ≠ none := fun hnone ↦ hunsound ((u3eLive_clean hlive).2.mp hnone)
  have hguard := u3eLive_guard hlive
  refine ⟨next, after, hhistory, hmemory, ?_⟩
  rw [u3eSave_eq mug after (by rw [hguard]; exact ⟨by decide, by decide⟩)]
  rw [if_neg (by simp [Pool.within, List.range_succ]),
    if_pos (.inr (Option.isSome_iff_ne_none.mpr hmemory))]

end Vere.Noun.Events
