import Vere.Lib.Runs
import Vere.Noun.EventsCrash
import Vere.Noun.EventsFault

/-!
# Roads and the guard page

`u3m_leap()` and `u3m_fall()` of `pkg/noun/manage.c`, with the loads, stores and saves between them.
A leap that finds the guard page outside of the new road calls `u3e_ward()`, which centres it in the
road that is left, and does not open the page where it was. `guard_run` is about the runs in which
the guard page is already in the free space of every road that is entered.
-/

set_option autoImplicit false

namespace Vere.Noun.Events

open Lib.Crash Lib.Runs

/-! ### Leaps -/

/-- `u3a_open()`: words of contiguous free space. -/
def Road.open (rod_u : Road) : ℕ := rod_u.free.2 - rod_u.free.1

/-- `_pave_north()`. -/
def paveNorth (mem_p siz_w len_w : ℕ) : Road :=
  ⟨mem_p, mem_p, mem_p + len_w - siz_w, mem_p + len_w - siz_w⟩

/-- `_pave_south()`. -/
def paveSouth (mem_p siz_w len_w : ℕ) : Road := ⟨mem_p + len_w, mem_p + len_w, mem_p, mem_p + siz_w⟩

/-- The roads of `u3m_leap()`: the one that is left, and the new one. `siz_w` is the size of a road.
-/
def Road.leap (rod_u : Road) (siz_w pad_w : ℕ) : Option (Road × Road) :=
  if rod_u.open ≤ pad_w + siz_w then none
  else
    let len_w := rod_u.open - (pad_w + siz_w)
    if rod_u.isNorth then
      some ({ rod_u with cap_p := rod_u.cap_p - len_w },
        paveSouth (rod_u.cap_p - len_w) siz_w len_w)
    else some ({ rod_u with cap_p := rod_u.cap_p + len_w }, paveNorth rod_u.cap_p siz_w len_w)

/-- The pages of some words. -/
def wordPages (mem_p siz_w : ℕ) : List ℕ :=
  List.range' (mem_p / pagWiz) ((mem_p + siz_w - 1) / pagWiz + 1 - mem_p / pagWiz)

/-- Stores to some pages. -/
def Pool.prepares (pol_u : Pool) (rod_u : Road) : List ℕ → Except FaultError Pool
  | [] => .ok pol_u
  | pag_w :: rest => do
    let pol_u ← pol_u.prepare rod_u pag_w
    pol_u.prepares rod_u rest

/-- `u3m_leap()`: the new road is cleared, and the guard page moves, while the old road is still the
current one. -/
def u3mLeap (pol_u : Pool) (rod_u : Road) (siz_w pad_w : ℕ) :
    Except FaultError (Pool × Road × Road) :=
  match rod_u.leap siz_w pad_w with
  | none => .error .meme
  | some (par_u, kid_u) => do
    let pol_u ← pol_u.prepares par_u (wordPages kid_u.mat_p siz_w)
    let (low_p, hig_p) := if rod_u.isNorth then
      (kid_u.cap_p, kid_u.hat_p) else (kid_u.hat_p, kid_u.cap_p)
    match u3eWard pol_u par_u low_p hig_p with
    | none => .error .meme
    | some pol_u => .ok (pol_u, par_u, kid_u)

/-! ### Runs -/

/-- The loom, its snapshot, the current road and those above it. -/
structure Loom where
  pol_u : Pool
  fil_u : Files
  rod_u : Road
  par_u : List Road

inductive Move
  | load (pag_w : ℕ)
  | store (pag_w : ℕ) (page : Page)
  /-- The heap or the stack grows or shrinks. -/
  | grow (hat_p cap_p : ℕ)
  | leap (pad_w : ℕ)
  | fall
  | save
  | yolo

variable (mug : Page → UInt32) (siz_w hom_w : ℕ)

/-- `u3m_water()`, in pages. `hom_w` is the size of the home road. -/
def Road.water (rod_u : Road) : ℕ × ℕ :=
  ((rod_u.hat_p - rod_u.rut_p + (pagWiz - 1)) / pagWiz,
    (rod_u.mat_p - rod_u.cap_p + hom_w + (pagWiz - 1)) / pagWiz)

/-- `u3e_save()` on the home road. When the guard page is to be saved, reading it moves it. -/
def Loom.save (lom_u : Loom) : Except FaultError Loom :=
  let (nor_w, sou_w) := lom_u.rod_u.water hom_w
  if ¬(nor_w ≤ lom_u.pol_u.gar_w ∧ lom_u.pol_u.gar_w ≤ u3aPages - (sou_w + 1)) then .error .assert
  else do
    let pol_u ←
      if lom_u.pol_u.gar_w ∈ lom_u.pol_u.within nor_w sou_w ∧
          lom_u.pol_u.dit_w lom_u.pol_u.gar_w = true then
        lom_u.pol_u.load lom_u.rod_u lom_u.pol_u.gar_w
      else .ok lom_u.pol_u
    match u3eSave mug pol_u lom_u.fil_u nor_w sou_w with
    | none => .error .assert
    | some (ops, pol_u) =>
      .ok { lom_u with pol_u := pol_u, fil_u := exec FileOp.run ops lom_u.fil_u }

def Loom.move (lom_u : Loom) : Move → Except FaultError Loom
  | .load pag_w =>
    if lom_u.pol_u.pag_w ≤ pag_w then .error .assert
    else do
      let pol_u ← lom_u.pol_u.load lom_u.rod_u pag_w
      .ok { lom_u with pol_u := pol_u }
  | .store pag_w page =>
    if lom_u.pol_u.pag_w ≤ pag_w then .error .assert
    else do
      let pol_u ← lom_u.pol_u.store lom_u.rod_u pag_w page
      .ok { lom_u with pol_u := pol_u }
  | .grow hat_p cap_p =>
    if ({ lom_u.rod_u with hat_p := hat_p, cap_p := cap_p } : Road).isNorth =
      lom_u.rod_u.isNorth then
      .ok { lom_u with rod_u := { lom_u.rod_u with hat_p := hat_p, cap_p := cap_p } }
    else .error .meme
  | .leap pad_w => do
    let (pol_u, par_u, kid_u) ← u3mLeap lom_u.pol_u lom_u.rod_u siz_w pad_w
    .ok { lom_u with pol_u := pol_u, rod_u := kid_u, par_u := par_u :: lom_u.par_u }
  | .fall =>
    match lom_u.par_u with
    | [] => .error .assert
    | par_u :: rest =>
      .ok { lom_u with rod_u := { par_u with cap_p := lom_u.rod_u.hat_p }, par_u := rest }
  | .save => if lom_u.par_u.isEmpty then lom_u.save mug hom_w else .error .assert
  | .yolo => .ok { lom_u with pol_u := u3eYolo lom_u.pol_u }

/-- The guard page lies in the free space of a road. -/
def Pool.Inside (pol_u : Pool) (rod_u : Road) : Prop :=
  rod_u.free.1 ≤ pol_u.gar_w * pagWiz ∧ pol_u.gar_w * pagWiz + pagWiz ≤ rod_u.free.2

/-- A leap is to a road whose free space has the guard page. -/
def Move.Good (lom_u : Loom) : Move → Prop
  | .leap pad_w => ∀ par_u kid_u, lom_u.rod_u.leap siz_w pad_w = some (par_u, kid_u) →
      lom_u.pol_u.Inside kid_u
  | _ => True

/-! ### What a call keeps -/

/-- A call that has not failed as a strange page does, and whose result is right. -/
def Keeps {α : Type} (P : α → Prop) : Except FaultError α → Prop
  | .ok value => P value
  | .error err => err ≠ .strange

theorem Keeps.bind {α β : Type} {P : α → Prop} {Q : β → Prop} {call : Except FaultError α}
    {rest : α → Except FaultError β} (hcall : Keeps P call)
    (hrest : ∀ value, P value → Keeps Q (rest value)) : Keeps Q (call >>= rest) := by
  cases call with
  | ok value => exact hrest value hcall
  | error err => exact hcall

variable {mug siz_w hom_w} {pol_u next : Pool} {rod_u : Road} {pag_w : ℕ}

/-- A page that is not writable is made so. The guard page moves only when it is that page. -/
theorem Guarded.keeps_fault (hguarded : Guarded pol_u) (rod_u : Road)
    (hprot : pol_u.prot pag_w ≠ .readWrite) : Keeps Guarded (u3eFault pol_u rod_u pag_w) := by
  cases hfault : u3eFault pol_u rod_u pag_w with
  | ok next => exact hguarded.fault hfault
  | error err =>
    rintro rfl
    exact hguarded.not_strange hprot hfault

theorem Guarded.keeps_load (hguarded : Guarded pol_u) (rod_u : Road) (pag_w : ℕ) :
    Keeps Guarded (pol_u.load rod_u pag_w) := by
  unfold Pool.load
  split_ifs with hnone
  · refine hguarded.keeps_fault rod_u ?_
    rw [hnone]
    exact fun heq ↦ by cases heq
  · exact hguarded

theorem Guarded.keeps_prepare (hguarded : Guarded pol_u) (rod_u : Road) (pag_w : ℕ) :
    Keeps Guarded (pol_u.prepare rod_u pag_w) := by
  unfold Pool.prepare
  split_ifs with hwrite
  · exact hguarded
  · exact hguarded.keeps_fault rod_u hwrite

theorem Guarded.keeps_store (hguarded : Guarded pol_u) (rod_u : Road) (pag_w : ℕ) (page : Page) :
    Keeps Guarded (pol_u.store rod_u pag_w page) :=
  (hguarded.keeps_prepare rod_u pag_w).bind fun _ hnext ↦ ⟨hnext.clean, hnext.guard⟩

/-- Stores outside of the guard page succeed and leave it. -/
theorem Guarded.prepares (hguarded : Guarded pol_u) (rod_u : Road) {pages : List ℕ}
    (hpages : ∀ pag_w ∈ pages, pag_w ≠ pol_u.gar_w) :
    ∃ next, pol_u.prepares rod_u pages = .ok next ∧ Guarded next ∧ next.gar_w = pol_u.gar_w := by
  induction pages generalizing pol_u with
  | nil => exact ⟨pol_u, rfl, hguarded, rfl⟩
  | cons pag_w rest ih =>
    have hother := hpages pag_w List.mem_cons_self
    have hprepare : ∃ mid_u, pol_u.prepare rod_u pag_w = .ok mid_u ∧ Guarded mid_u ∧
        mid_u.gar_w = pol_u.gar_w := by
      unfold Pool.prepare
      split_ifs with hwrite
      · exact ⟨pol_u, rfl, hguarded, rfl⟩
      · have hclean := (hguarded.clean pag_w hwrite).resolve_left hother
        have hfault : u3eFault pol_u rod_u pag_w = .ok (pol_u.touch pag_w) := by
          rw [u3eFault, if_neg hother, hclean]
          rfl
        exact ⟨_, hfault, hguarded.fault hfault, rfl⟩
    obtain ⟨mid_u, hmid, hkept, hgar⟩ := hprepare
    obtain ⟨next, hnext, hdone, hstill⟩ := ih hkept fun pag hpag ↦
      hgar ▸ hpages pag (List.mem_cons_of_mem _ hpag)
    refine ⟨next, ?_, hdone, hstill.trans hgar⟩
    rw [Pool.prepares, hmid]
    exact hnext

theorem Guarded.save (hguarded : Guarded pol_u) {fil_u : Files} {nor_w sou_w : ℕ}
    {ops : List FileOp} (hsave : u3eSave mug pol_u fil_u nor_w sou_w = some (ops, next)) :
    Guarded next := by
  rcases u3eSave_cases hsave with ⟨_, _, rfl⟩ | ⟨_, _, _, _, rfl⟩
  · exact hguarded
  obtain ⟨_, _, hgar, _⟩ := patchSavePages_frame pol_u (pol_u.within nor_w sou_w)
  have hsaved := patchSavePages_snd pol_u (pol_u.within nor_w sou_w)
  generalize (patchSavePages pol_u (pol_u.within nor_w sou_w)).2 = pool at hgar hsaved
  refine ⟨fun pag hpag ↦ ?_, fun pag hpag ↦ ?_⟩
  · have hpag : pool.prot pag ≠ .readWrite := hpag
    show pag = pool.gar_w ∨ pool.dit_w pag = false
    rw [hgar, (hsaved pag).1]
    rw [(hsaved pag).2] at hpag
    split_ifs at hpag with hdirty
    · exact .inr (by simp [hdirty.2])
    · refine (hguarded.clean pag hpag).imp_right fun hclean ↦ ?_
      rw [hclean, Bool.false_and]
  · have hpag : pool.prot pag = .none := hpag
    show pag = pool.gar_w
    rw [hgar]
    rw [(hsaved pag).2] at hpag
    split_ifs at hpag with hdirty
    exact hguarded.guard pag hpag

theorem Guarded.yolo (pol_u : Pool) : Guarded (u3eYolo pol_u) := by
  have hopen : ∀ pag ≠ pol_u.gar_w, (u3eYolo pol_u).prot pag = .readWrite := by
    intro pag hother
    show Function.update (fun _ ↦ Prot.readWrite) pol_u.gar_w .none pag = .readWrite
    rw [Function.update_of_ne hother]
  refine ⟨fun pag hpag ↦ .inl ?_, fun pag hpag ↦ ?_⟩
  · by_contra hother
    exact hpag (hopen pag hother)
  · by_contra hother
    rw [hopen pag hother] at hpag
    cases hpag

/-! ### Leaps that keep the guard page -/

theorem pagWiz_pos : 0 < pagWiz := by decide

theorem mem_wordPages {mem_p siz_w : ℕ} (hpag : pag_w ∈ wordPages mem_p siz_w) :
    mem_p < pag_w * pagWiz + pagWiz ∧ pag_w * pagWiz ≤ mem_p + siz_w - 1 := by
  obtain ⟨hlow, hhigh⟩ := List.mem_range'_1.mp hpag
  have hlast : pag_w ≤ (mem_p + siz_w - 1) / pagWiz := by omega
  refine ⟨?_, (Nat.le_div_iff_mul_le pagWiz_pos).mp hlast⟩
  rw [← Nat.succ_mul]
  exact (Nat.div_lt_iff_lt_mul pagWiz_pos).mp (Nat.lt_succ_of_le hlow)

theorem paveSouth_inside {bot_p len_w : ℕ} (hsiz : siz_w ≤ pagWiz) (hlen : 0 < len_w)
    (hinside : pol_u.Inside (paveSouth bot_p siz_w len_w)) :
    (paveSouth bot_p siz_w len_w).free = (bot_p + siz_w, bot_p + len_w) ∧
      bot_p + siz_w ≤ pol_u.gar_w * pagWiz := by
  obtain ⟨hlow, hhigh⟩ := hinside
  cases hnorth : (paveSouth bot_p siz_w len_w).isNorth with
  | true =>
    -- a road shorter than its own record has no room for a page
    have hfree : (paveSouth bot_p siz_w len_w).free = (bot_p + len_w, bot_p + siz_w) :=
      if_pos hnorth
    simp only [hfree] at hlow hhigh
    omega
  | false =>
    have hfree : (paveSouth bot_p siz_w len_w).free = (bot_p + siz_w, bot_p + len_w) :=
      if_neg (by simp [hnorth])
    simp only [hfree] at hlow
    exact ⟨hfree, hlow⟩

theorem paveNorth_inside {bot_p len_w : ℕ} (hsiz : siz_w ≤ pagWiz) (hlen : 0 < len_w)
    (hinside : pol_u.Inside (paveNorth bot_p siz_w len_w)) :
    (paveNorth bot_p siz_w len_w).free = (bot_p, bot_p + len_w - siz_w) ∧
      pol_u.gar_w * pagWiz + pagWiz ≤ bot_p + len_w - siz_w := by
  obtain ⟨hlow, hhigh⟩ := hinside
  cases hnorth : (paveNorth bot_p siz_w len_w).isNorth with
  | true =>
    have hfree : (paveNorth bot_p siz_w len_w).free = (bot_p, bot_p + len_w - siz_w) :=
      if_pos hnorth
    simp only [hfree] at hhigh
    exact ⟨hfree, hhigh⟩
  | false =>
    have hfree : (paveNorth bot_p siz_w len_w).free = (bot_p + len_w - siz_w, bot_p) :=
      if_neg (by simp [hnorth])
    simp only [hfree] at hlow hhigh
    omega

/-- A leap to a road whose free space has the guard page leaves the guard page. -/
theorem Road.leap_inside {pad_w : ℕ} {par_u kid_u : Road} (hpos : 0 < siz_w) (hsiz : siz_w ≤ pagWiz)
    (hleap : rod_u.leap siz_w pad_w = some (par_u, kid_u)) (hinside : pol_u.Inside kid_u) :
    (∀ pag_w ∈ wordPages kid_u.mat_p siz_w, pag_w ≠ pol_u.gar_w) ∧
      (if rod_u.isNorth then (kid_u.cap_p, kid_u.hat_p) else (kid_u.hat_p, kid_u.cap_p)) =
        kid_u.free := by
  simp only [Road.leap] at hleap
  split_ifs at hleap with hopen hnorth
  · obtain ⟨_, rfl⟩ := Prod.mk.inj (Option.some.inj hleap)
    obtain ⟨hfree, hlow⟩ := paveSouth_inside hsiz (by omega) hinside
    refine ⟨fun pag_w hpag heq ↦ ?_, ?_⟩
    · obtain ⟨_, hlast⟩ := mem_wordPages hpag
      simp only [paveSouth, heq] at hlast
      omega
    · rw [if_pos hnorth, hfree]
      rfl
  · obtain ⟨_, rfl⟩ := Prod.mk.inj (Option.some.inj hleap)
    obtain ⟨hfree, hhigh⟩ := paveNorth_inside hsiz (by omega) hinside
    refine ⟨fun pag_w hpag heq ↦ ?_, ?_⟩
    · obtain ⟨hfirst, _⟩ := mem_wordPages hpag
      simp only [paveNorth, heq] at hfirst
      omega
    · rw [if_neg hnorth, hfree]
      rfl

theorem Guarded.leap (hguarded : Guarded pol_u) {pad_w : ℕ} {par_u kid_u : Road} (hpos : 0 < siz_w)
    (hsiz : siz_w ≤ pagWiz) (hleap : rod_u.leap siz_w pad_w = some (par_u, kid_u))
    (hinside : pol_u.Inside kid_u) :
    ∃ next, u3mLeap pol_u rod_u siz_w pad_w = .ok (next, par_u, kid_u) ∧ Guarded next ∧
      next.Inside kid_u := by
  obtain ⟨hpages, hfree⟩ := Road.leap_inside hpos hsiz hleap hinside
  obtain ⟨next, hprepares, hnext, hgar⟩ := hguarded.prepares par_u hpages
  have hstay : next.Inside kid_u := by
    rw [Pool.Inside, hgar]
    exact hinside
  have hward : u3eWard next par_u kid_u.free.1 kid_u.free.2 = some next := by
    rw [u3eWard, if_neg]
    obtain ⟨hlow, hhigh⟩ := hstay
    omega
  refine ⟨next, ?_, hnext, hstay⟩
  simp only [u3mLeap, hleap, hprepares, hfree, hward, bind, Except.bind]

/-! ### Every run -/

theorem Guarded.keeps_compose (hguarded : Guarded pol_u) {lom_u : Loom} {nor_w sou_w : ℕ} :
    Keeps (fun lom_u : Loom ↦ Guarded lom_u.pol_u)
      (match u3eSave mug pol_u lom_u.fil_u nor_w sou_w with
      | none => .error .assert
      | some (ops, pol_u) =>
        .ok { lom_u with pol_u := pol_u, fil_u := exec FileOp.run ops lom_u.fil_u }) := by
  cases hsave : u3eSave mug pol_u lom_u.fil_u nor_w sou_w with
  | none => exact fun heq ↦ by cases heq
  | some result => exact hguarded.save hsave

theorem Guarded.keeps_save {lom_u : Loom} (hguarded : Guarded lom_u.pol_u) :
    Keeps (fun lom_u : Loom ↦ Guarded lom_u.pol_u) (lom_u.save mug hom_w) := by
  simp only [Loom.save]
  split_ifs with hassert hread
  · exact (hguarded.keeps_load lom_u.rod_u _).bind fun _ hpol ↦ hpol.keeps_compose
  · exact hguarded.keeps_compose
  · exact fun heq ↦ by cases heq

theorem Guarded.keeps_move (mug : Page → UInt32) (hom_w : ℕ) {lom_u : Loom} {act : Move}
    (hguarded : Guarded lom_u.pol_u) (hpos : 0 < siz_w) (hsiz : siz_w ≤ pagWiz)
    (hgood : act.Good siz_w lom_u) :
    Keeps (fun lom_u : Loom ↦ Guarded lom_u.pol_u) (lom_u.move mug siz_w hom_w act) := by
  cases act with
  | load pag_w =>
    rw [Loom.move]
    split_ifs
    · exact fun heq ↦ by cases heq
    · exact (hguarded.keeps_load lom_u.rod_u pag_w).bind fun _ hnext ↦ hnext
  | store pag_w page =>
    rw [Loom.move]
    split_ifs
    · exact fun heq ↦ by cases heq
    · exact (hguarded.keeps_store lom_u.rod_u pag_w page).bind fun _ hnext ↦ hnext
  | grow hat_p cap_p =>
    rw [Loom.move]
    split_ifs
    · exact hguarded
    · exact fun heq ↦ by cases heq
  | leap pad_w =>
    rw [Loom.move]
    cases hleap : lom_u.rod_u.leap siz_w pad_w with
    | none =>
      simp only [u3mLeap, hleap]
      exact fun heq ↦ by cases heq
    | some roads =>
      obtain ⟨par_u, kid_u⟩ := roads
      obtain ⟨next, hnext, hkept, _⟩ := hguarded.leap hpos hsiz hleap (hgood par_u kid_u hleap)
      simp only [hnext]
      exact hkept
  | fall =>
    rw [Loom.move]
    cases lom_u.par_u with
    | nil => exact fun heq ↦ by cases heq
    | cons par_u rest => exact hguarded
  | save =>
    rw [Loom.move]
    split_ifs
    · exact hguarded.keeps_save
    · exact fun heq ↦ by cases heq
  | yolo => exact Guarded.yolo lom_u.pol_u

/-- What `u3m_boot()` leaves: the pages of the snapshot are clean, and there is one guard page. -/
theorem guarded_boot {junk : ℕ} {boot live : Pool} {fil_u after : Files}
    (hfresh : ∀ pag, boot.prot pag = .readWrite)
    (hlive : u3eLive mug junk boot fil_u = some (live, after))
    (hinit : u3eInit live rod_u = some pol_u) : Guarded pol_u := by
  obtain ⟨hnone, hclean⟩ : (∀ pag, live.prot pag ≠ .none) ∧
      ∀ pag, live.prot pag ≠ .readWrite → live.dit_w pag = false := by
    simp only [u3eLive, bind, Option.bind_eq_some_iff] at hlive
    obtain ⟨⟨ops, pgs_w⟩, _, hlive⟩ := hlive
    split_ifs at hlive
    obtain ⟨rfl, _⟩ := Prod.mk.inj (Option.some.inj hlive)
    simp only [Pool.blit, hfresh]
    refine ⟨fun pag ↦ ?_, fun pag hpag ↦ ?_⟩
    · split_ifs
      · exact fun heq ↦ by cases heq
      · exact fun heq ↦ by cases heq
    · split_ifs at hpag with hblit
      · exact absurd rfl hpag
      · exact eq_false_of_ne_true hblit
  obtain ⟨_, hpol⟩ := Pool.center_eq hinit
  have hprot : pol_u.prot = Function.update live.prot pol_u.gar_w .none := by rw [hpol]
  have hdit : pol_u.dit_w = live.dit_w := by rw [hpol]
  refine ⟨fun pag hpag ↦ ?_, fun pag hpag ↦ ?_⟩
  · by_cases hguard : pag = pol_u.gar_w
    · exact .inl hguard
    · rw [hprot, Function.update_of_ne hguard] at hpag
      rw [hdit]
      exact .inr (hclean pag hpag)
  · by_contra hguard
    rw [hprot, Function.update_of_ne hguard] at hpag
    exact hnone pag hpag

/-- In a run whose leaps are to roads that have the guard page in their free space, a page that is
not writable is the guard page or clean, no call fails with a strange page, and a leap leaves the
guard page in the free space of the new road. -/
theorem guard_run {junk : ℕ} {boot live : Pool} {fil_u after : Files} {home : Road} {lom_u : Loom}
    (hpos : 0 < siz_w) (hsiz : siz_w ≤ pagWiz) (hfresh : ∀ pag, boot.prot pag = .readWrite)
    (hlive : u3eLive mug junk boot fil_u = some (live, after))
    (hinit : u3eInit live home = some pol_u)
    (hreach : Reach (fun lom_u act ↦ (Loom.move mug siz_w hom_w lom_u act).toOption)
      (fun lom_u act ↦ act.Good siz_w lom_u) ⟨pol_u, after, home, []⟩ lom_u) :
    (∀ pag, lom_u.pol_u.prot pag ≠ .readWrite →
        pag = lom_u.pol_u.gar_w ∨ lom_u.pol_u.dit_w pag = false) ∧
      (∀ pag other, lom_u.pol_u.prot pag = .none → lom_u.pol_u.prot other = .none → pag = other) ∧
      (∀ act : Move, act.Good siz_w lom_u → lom_u.move mug siz_w hom_w act ≠ .error .strange) ∧
      ∀ pad_w next, (Move.leap pad_w).Good siz_w lom_u →
        lom_u.move mug siz_w hom_w (.leap pad_w) = .ok next → next.pol_u.Inside next.rod_u := by
  have hguarded : Guarded lom_u.pol_u := by
    refine hreach.invariant (P := fun lom_u : Loom ↦ Guarded lom_u.pol_u)
      (guarded_boot hfresh hlive hinit) fun lom_u act next hguarded hgood hmove ↦ ?_
    have hkeeps := hguarded.keeps_move mug hom_w hpos hsiz hgood
    cases hresult : lom_u.move mug siz_w hom_w act with
    | error err =>
      rw [hresult] at hmove
      cases hmove
    | ok result =>
      rw [hresult] at hmove hkeeps
      obtain rfl := Option.some.inj hmove
      exact hkeeps
  refine ⟨hguarded.clean, fun pag other hpag hother ↦ ?_, fun act hgood hstrange ↦ ?_,
    fun pad_w next hgood hmove ↦ ?_⟩
  · rw [hguarded.guard pag hpag, hguarded.guard other hother]
  · have hkeeps := hguarded.keeps_move mug hom_w hpos hsiz hgood
    rw [hstrange] at hkeeps
    exact hkeeps rfl
  · cases hleap : lom_u.rod_u.leap siz_w pad_w with
    | none =>
      simp only [Loom.move, u3mLeap, hleap] at hmove
      cases hmove
    | some roads =>
      obtain ⟨par_u, kid_u⟩ := roads
      obtain ⟨pool, hpool, _, hinside⟩ := hguarded.leap hpos hsiz hleap (hgood par_u kid_u hleap)
      simp only [Loom.move, hpool] at hmove
      obtain rfl := Except.ok.inj hmove
      exact hinside

/-! ### A guard page in the pad -/

/-- The home road of a loom of 512 pages. -/
def Road.small : Road := ⟨1, 1, 2 ^ 21 - 2 ^ 10, 2 ^ 21 - 2 ^ 10⟩

/-- The pool that has loaded an empty snapshot. -/
def Pool.small : Pool := (Pool.new 512 0).blit .new (water 0 0)

theorem u3eLive_small (mug : Page → UInt32) :
    u3eLive mug 0 (.new 512 0) .new = some (.small, .new) := rfl

/-- The guard page is in the middle. -/
def Pool.warded : Pool :=
  { Pool.small with gar_w := 256, prot := Function.update Pool.small.prot 256 .none }

theorem u3eInit_small : u3eInit .small .small = some .warded := by
  have htop : c3Rod Road.small.free.2 pagWiz = 2093056 := by decide
  have hbot : c3Rop Road.small.free.1 pagWiz = 4096 := by decide
  simp only [u3eInit, Pool.center, htop, hbot]
  rfl

/-- A road that is entered from it with a pad of 2 ^ 18 words. -/
def Road.inner : Road := ⟨2096128, 2096128, 262657, 263169⟩

theorem leap_small :
    Road.small.leap 512 (2 ^ 18) = some ({ Road.small with cap_p := 262657 }, .inner) := by
  simp [Road.leap, Road.open, Road.free, Road.isNorth, Road.small, paveSouth, Road.inner]

theorem inside_inner : Pool.warded.Inside .inner := ⟨by decide, by decide⟩

theorem guard_run_leap : Pool.warded.Inside .inner ∧ ∀ mug, ∃ next,
    Loom.move mug 512 (2 ^ 10) ⟨.warded, .new, .small, []⟩ (.leap (2 ^ 18)) = .ok next ∧
      next.pol_u.Inside next.rod_u := by
  refine ⟨inside_inner, fun mug ↦ ?_⟩
  have hgood : (Move.leap (2 ^ 18)).Good 512 ⟨.warded, .new, .small, []⟩ := by
    intro par_u kid_u hleap
    rw [leap_small] at hleap
    obtain ⟨_, rfl⟩ := Prod.mk.inj (Option.some.inj hleap)
    exact inside_inner
  have hguarded := guarded_boot (fun _ ↦ rfl) (u3eLive_small mug) u3eInit_small
  obtain ⟨next, hnext, _, _⟩ := hguarded.leap (by decide) (by decide) leap_small inside_inner
  have hmove : Loom.move mug 512 (2 ^ 10) ⟨.warded, .new, .small, []⟩ (.leap (2 ^ 18)) =
      .ok ⟨next, .new, .inner, [{ Road.small with cap_p := 262657 }]⟩ := by
    simp only [Loom.move, hnext]
    rfl
  exact ⟨_, hmove,
    (guard_run (by decide) (by decide) (fun _ ↦ rfl) (u3eLive_small mug) u3eInit_small
    .refl).2.2.2 _ _ hgood hmove⟩

/-- The heap has grown to a hundred pages. -/
def Road.grown : Road := ⟨1, 409600, 2 ^ 21 - 2 ^ 10, 2 ^ 21 - 2 ^ 10⟩

theorem reach_grown (mug : Page → UInt32) (good : Loom → Move → Prop)
    (hgood : good ⟨.warded, .new, .small, []⟩ (.grow 409600 (2 ^ 21 - 2 ^ 10))) :
    Reach (fun lom_u act ↦ (Loom.move mug 512 (2 ^ 10) lom_u act).toOption) good
      ⟨.warded, .new, .small, []⟩ ⟨.warded, .new, .grown, []⟩ := by
  refine .step _ .refl hgood ?_
  simp [Loom.move, Road.small, Road.grown, Road.isNorth, Except.toOption]

/-- The road that is left by a leap with a pad of 2 ^ 20 words. -/
def Road.left : Road := ⟨1, 409600, 2 ^ 21 - 2 ^ 10, 1458688⟩

/-- The road that it enters. -/
def Road.entered : Road := ⟨2096128, 2096128, 1458688, 1459200⟩

theorem leap_grown : Road.grown.leap 512 (2 ^ 20) = some (.left, .entered) := by
  simp [Road.leap, Road.open, Road.free, Road.isNorth, Road.grown, paveSouth, Road.left,
    Road.entered]

/-- The guard page has moved to the pad, and page 256 is as it was. -/
def Pool.moved : Pool :=
  { Pool.warded with gar_w := 228, prot := Function.update Pool.warded.prot 228 .none }

theorem u3mLeap_grown : u3mLeap .warded .grown 512 (2 ^ 20) = .ok (.moved, .left, .entered) := by
  have hpages : wordPages Road.entered.mat_p 512 = [356] := by decide
  have hprepares : Pool.warded.prepares .left [356] = .ok .warded := rfl
  have hnorth : Road.grown.isNorth = true := by decide
  have hward : u3eWard .warded .left Road.entered.cap_p Road.entered.hat_p = some .moved := by
    rw [u3eWard, if_pos (.inl (by decide))]
    have htop : c3Rod Road.left.free.2 pagWiz = 1458176 := by decide
    have hbot : c3Rop Road.left.free.1 pagWiz = 409600 := by decide
    simp only [Pool.center, htop, hbot]
    rfl
  simp only [u3mLeap, leap_grown, hpages, hprepares, hnorth, hward, bind, Except.bind, if_true]

/-- A leap with a pad of 2 ^ 20 words, where the guard page is in the pad: it moves to another page
of the pad, and page 256 is inaccessible and dirty. Back on the home road, a store to that page is a
strange page. -/
theorem guard_run_strange : Pool.moved.dit_w 256 = true ∧ ∀ mug, ∃ leapt fallen : Loom,
    Reach (fun lom_u act ↦ (Loom.move mug 512 (2 ^ 10) lom_u act).toOption) (fun _ _ ↦ True)
        ⟨.warded, .new, .small, []⟩ leapt ∧
      leapt.pol_u.prot 256 = .none ∧ leapt.pol_u.prot 228 = .none ∧
      ¬leapt.pol_u.Inside leapt.rod_u ∧ leapt.move mug 512 (2 ^ 10) .fall = .ok fallen ∧
      fallen.move mug 512 (2 ^ 10) (.store 256 (Page.ofBytes [])) = .error .strange := by
  refine ⟨rfl, fun mug ↦ ⟨⟨.moved, .new, .entered, [.left]⟩, _, ?_, rfl, rfl, ?_, rfl, rfl⟩⟩
  · refine .step (.leap (2 ^ 20)) (reach_grown mug _ trivial) trivial ?_
    simp only [Loom.move, u3mLeap_grown]
    rfl
  · rintro ⟨hlow, _⟩
    exact absurd hlow (by decide)

end Vere.Noun.Events
