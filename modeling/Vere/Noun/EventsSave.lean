import Vere.Lib.Runs
import Vere.Noun.EventsCrash
import Vere.Noun.EventsFault

/-!
# What a snapshot has

Stores, with their faults, and saves, in any order and with any watermarks. `Tracks` says that a
page of an image differs from the loom only when it is dirty. It does not say that a page within the
watermarks is in an image: one that was cut off while it was clean, and comes back, is neither dirty
nor saved. `save_fidelity` is about the runs without such a page.
-/

set_option autoImplicit false

namespace Vere.Noun.Events

open Lib.Crash Lib.Runs

/-! ### Runs -/

inductive Change
  | load (rod_u : Road) (pag_w : ℕ)
  | store (rod_u : Road) (pag_w : ℕ) (page : Page)
  | save (nor_w sou_w : ℕ)

/-- A load, a store or a save, without a crash. -/
def change (mug : Page → UInt32) : Pool × Files → Change → Option (Pool × Files)
  | (pol_u, fil_u), .load rod_u pag_w => do
    let pol_u ← (pol_u.load rod_u pag_w).toOption
    some (pol_u, fil_u)
  | (pol_u, fil_u), .store rod_u pag_w page => do
    let pol_u ← (pol_u.store rod_u pag_w page).toOption
    some (pol_u, fil_u)
  | (pol_u, fil_u), .save nor_w sou_w => do
    let (ops, pol_u) ← u3eSave mug pol_u fil_u nor_w sou_w
    some (pol_u, exec FileOp.run ops fil_u)

/-- The watermarks do not cross, and no clean page within them is past the end of its image. -/
structure Settled (pol_u : Pool) (fil_u : Files) (nor_w sou_w : ℕ) : Prop where
  cross : nor_w + sou_w ≤ pol_u.pag_w
  clean : ∀ seg, ∀ i < water nor_w sou_w seg, pol_u.dirty seg i = false →
    i < (fil_u.image seg).pages.length

/-- A save is made only with settled watermarks. -/
def Change.Good : Pool × Files → Change → Prop
  | (pol_u, fil_u), .save nor_w sou_w => Settled pol_u fil_u nor_w sou_w
  | _, _ => True

/-! ### Dirty pages -/

variable {mug : Page → UInt32} {junk : ℕ} {boot pol_u next : Pool} {fil_u : Files} {rod_u : Road}
  {nor_w sou_w : ℕ}

/-- The images, and the pages that can differ from them. -/
structure Tracks (pol_u : Pool) (fil_u : Files) : Prop where
  tail : ∀ seg, (fil_u.image seg).tail = []
  pgs : ∀ seg, pol_u.pgs_w seg = (fil_u.image seg).pages.length
  control : fil_u.control = none
  memory : fil_u.memory = none
  fit : (fil_u.image .north).pages.length + (fil_u.image .south).pages.length ≤ pol_u.pag_w
  prot : ∀ pag_w, pol_u.dit_w pag_w = false → pol_u.prot pag_w ≠ .readWrite
  same : ∀ seg i page, (fil_u.image seg).pages[i]? = some page → pol_u.dirty seg i = false →
    pol_u.mem (pol_u.page seg i) = page

theorem Tracks.pair (htracks : Tracks pol_u fil_u) (hsettled : Settled pol_u fil_u nor_w sou_w) :
    Pair pol_u fil_u nor_w sou_w :=
  ⟨htracks.tail, htracks.pgs, htracks.control, htracks.memory, htracks.fit, hsettled.cross,
    hsettled.clean⟩

theorem Pool.page_congr (hpag : next.pag_w = pol_u.pag_w) : next.page = pol_u.page := by
  funext seg i
  cases seg with
  | north => rfl
  | south => rw [Pool.page, Pool.page, hpag]

theorem Tracks.fault (htracks : Tracks pol_u fil_u) {pag_w : ℕ}
    (hfault : u3eFault pol_u rod_u pag_w = .ok next) : Tracks next fil_u := by
  obtain ⟨hpag, hmem, hpgs, hdit, hprot⟩ := u3eFault_frame hfault
  have hclean : ∀ pag, next.dit_w pag = false → pag ≠ pag_w ∧ pol_u.dit_w pag = false := by
    intro pag hclean
    rw [hdit] at hclean
    by_cases heq : pag = pag_w
    · simp [heq] at hclean
    · rw [Function.update_of_ne heq] at hclean
      exact ⟨heq, hclean⟩
  refine ⟨htracks.tail, fun seg ↦ hpgs ▸ htracks.pgs seg, htracks.control, htracks.memory,
    hpag ▸ htracks.fit, fun pag hpage ↦ ?_, fun seg i page hpage hdirty ↦ ?_⟩
  · obtain ⟨hother, hpage⟩ := hclean pag hpage
    rcases hprot pag hother with hsame | hnone
    · rw [hsame]
      exact htracks.prot pag hpage
    · rw [hnone]
      exact fun heq ↦ by cases heq
  · have hpages := Pool.page_congr hpag
    rw [Pool.dirty, hpages] at hdirty
    rw [hmem, hpages]
    exact htracks.same seg i page hpage (hclean _ hdirty).2

theorem Tracks.load (htracks : Tracks pol_u fil_u) {pag_w : ℕ}
    (hload : pol_u.load rod_u pag_w = .ok next) : Tracks next fil_u := by
  unfold Pool.load at hload
  split_ifs at hload
  · exact htracks.fault hload
  · obtain rfl := Except.ok.inj hload
    exact htracks

/-- A page that can be written is dirty. -/
theorem Tracks.write (htracks : Tracks pol_u fil_u) {pag_w : ℕ} (hprot : pol_u.dit_w pag_w = true)
    (page : Page) : Tracks { pol_u with mem := Function.update pol_u.mem pag_w page } fil_u := by
  refine ⟨htracks.tail, htracks.pgs, htracks.control, htracks.memory, htracks.fit, htracks.prot,
    fun seg i old hold hdirty ↦ ?_⟩
  have hclean : pol_u.dirty seg i = false := hdirty
  have hother : pol_u.page seg i ≠ pag_w := by
    intro heq
    rw [Pool.dirty, heq, hprot] at hclean
    cases hclean
  have hsame := htracks.same seg i old hold hdirty
  show Function.update pol_u.mem pag_w page (pol_u.page seg i) = old
  rw [Function.update_of_ne hother, hsame]

theorem Tracks.store (htracks : Tracks pol_u fil_u) {pag_w : ℕ} {page : Page}
    (hstore : pol_u.store rod_u pag_w page = .ok next) : Tracks next fil_u := by
  unfold Pool.store Pool.prepare at hstore
  by_cases hprot : pol_u.prot pag_w = .readWrite
  · rw [if_pos hprot] at hstore
    obtain rfl := Except.ok.inj hstore
    refine htracks.write ?_ page
    by_contra hclean
    exact htracks.prot pag_w (by simpa using hclean) hprot
  · rw [if_neg hprot] at hstore
    cases hfault : u3eFault pol_u rod_u pag_w with
    | error err =>
      rw [hfault] at hstore
      cases hstore
    | ok mid_u =>
      rw [hfault] at hstore
      obtain rfl := Except.ok.inj hstore
      refine (htracks.fault hfault).write ?_ page
      rw [(u3eFault_frame hfault).2.2.2.1]
      exact Function.update_self ..

/-- The new snapshot is the loom within the watermarks. -/
theorem Tracks.pages (htracks : Tracks pol_u fil_u) (hsettled : Settled pol_u fil_u nor_w sou_w)
    (seg : Seg) : pol_u.pages fil_u nor_w sou_w seg =
      (List.range (water nor_w sou_w seg)).map fun i ↦ pol_u.mem (pol_u.page seg i) := by
  refine List.map_congr_left fun i hi ↦ ?_
  cases hdirty : pol_u.dirty seg i with
  | true => rw [Pool.fresh, if_pos hdirty]
  | false =>
    have hinside := hsettled.clean seg i (List.mem_range.mp hi) hdirty
    have hsame := htracks.same seg i _ (List.getElem?_eq_getElem hinside) hdirty
    rw [Pool.fresh, hdirty, hsame]
    simp [hinside]

/-- A save with a patch makes the images the loom within the watermarks. -/
theorem Tracks.save (htracks : Tracks pol_u fil_u) (hsettled : Settled pol_u fil_u nor_w sou_w)
    {ops : List FileOp} (hsave : u3eSave mug pol_u fil_u nor_w sou_w = some (ops, next))
    (hpatch : ops ≠ []) :
    (∀ seg, (exec FileOp.run ops fil_u).image seg = ⟨(List.range (water nor_w sou_w seg)).map
      fun i ↦ next.mem (next.page seg i), []⟩) ∧ Tracks next (exec FileOp.run ops fil_u) := by
  rcases u3eSave_cases hsave with ⟨_, rfl, _⟩ | ⟨_, _, _, rfl, rfl⟩
  · exact absurd rfl hpatch
  obtain ⟨hmem, hpag, _, _⟩ := patchSavePages_frame pol_u (pol_u.within nor_w sou_w)
  have hsaved := patchSavePages_snd pol_u (pol_u.within nor_w sou_w)
  generalize hpool : (patchSavePages pol_u (pol_u.within nor_w sou_w)).2 =
    pool at hmem hpag hsaved ⊢
  have hpage : pool.page = pol_u.page := Pool.page_congr hpag
  have himage : ∀ seg, (exec FileOp.run (pol_u.saveOps mug nor_w sou_w (pol_u.saved nor_w sou_w))
      fil_u).image seg = ⟨(List.range (water nor_w sou_w seg)).map
        fun i ↦ pool.mem (pool.page seg i), []⟩ := by
    intro seg
    rw [Pool.saveOps, exec_append, exec_append]
    refine ((htracks.pair hsettled).patched mug seg).trans ?_
    rw [htracks.pages hsettled, hmem, hpage]
  obtain ⟨hcontrol, hmemory⟩ : (exec FileOp.run (pol_u.saveOps mug nor_w sou_w
      (pol_u.saved nor_w sou_w)) fil_u).control = none ∧
      (exec FileOp.run (pol_u.saveOps mug nor_w sou_w
        (pol_u.saved nor_w sou_w)) fil_u).memory = none := by
    rw [Pool.saveOps, exec_append, exec_append]
    exact ⟨rfl, rfl⟩
  have hlength : ∀ seg, ((exec FileOp.run (pol_u.saveOps mug nor_w sou_w (pol_u.saved nor_w sou_w))
      fil_u).image seg).pages.length = water nor_w sou_w seg := by
    intro seg
    rw [himage, List.length_map, List.length_range]
  refine ⟨himage, fun seg ↦ by rw [himage], fun seg ↦ (hlength seg).symm, hcontrol, hmemory, ?_,
    fun pag hclean ↦ ?_, fun seg i page hpage _ ↦ ?_⟩
  · rw [hlength, hlength]
    exact hpag ▸ hsettled.cross
  · rw [(hsaved pag).2]
    split_ifs with hdirty
    · exact fun heq ↦ by cases heq
    · have hclean : pool.dit_w pag = false := hclean
      rw [(hsaved pag).1] at hclean
      refine htracks.prot pag ?_
      by_contra hset
      simp_all
  · rw [himage] at hpage
    obtain ⟨j, hj, rfl⟩ := Option.map_eq_some_iff.mp (List.getElem?_map .. ▸ hpage)
    obtain ⟨_, hget⟩ := List.getElem?_eq_some_iff.mp hj
    rw [List.getElem_range] at hget
    rw [hget]
    rfl

theorem liveOps_images (htail : ∀ seg, (fil_u.image seg).tail = [])
    (hcontrol : fil_u.control = none) :
    liveOps mug junk boot.pag_w fil_u = some ([], fun seg ↦ (fil_u.image seg).pages.length) := by
  have hopen : patchOpen mug junk fil_u = .none := by
    rw [patchOpen, hcontrol]
  rw [liveOps_eq htail, hopen]

/-- What `u3e_live()` loads when there is no patch. -/
theorem u3eLive_images (htail : ∀ seg, (fil_u.image seg).tail = [])
    (hcontrol : fil_u.control = none)
    (hfit : (fil_u.image .north).pages.length + (fil_u.image .south).pages.length ≤ boot.pag_w)
    (hfits : Fits fun seg ↦ (fil_u.image seg).pages.length) :
    u3eLive mug junk boot fil_u =
        some (boot.blit fil_u fun seg ↦ (fil_u.image seg).pages.length, fil_u) ∧
      (boot.blit fil_u fun seg ↦ (fil_u.image seg).pages.length).Loaded fil_u.pages := by
  exact u3eLive_loads (liveOps_images htail hcontrol) (fun _ ↦ rfl) hfit hfits

/-- A snapshot that has just been loaded. -/
theorem tracks_blit (htail : ∀ seg, (fil_u.image seg).tail = []) (hcontrol : fil_u.control = none)
    (hmemory : fil_u.memory = none)
    (hfit : (fil_u.image .north).pages.length + (fil_u.image .south).pages.length ≤ boot.pag_w) :
    Tracks (boot.blit fil_u fun seg ↦ (fil_u.image seg).pages.length) fil_u := by
  refine ⟨htail, fun _ ↦ rfl, hcontrol, hmemory, hfit, fun pag hclean ↦ ?_,
    fun seg i page hpage _ ↦ ?_⟩
  · have hclean : (fil_u.blit boot.pag_w (fun seg ↦ (fil_u.image seg).pages.length) pag).isNone =
        false := hclean
    show (if _ then boot.prot pag else Prot.read) ≠ .readWrite
    rw [hclean, if_neg Bool.false_ne_true]
    exact fun heq ↦ by cases heq
  · show (fil_u.blit boot.pag_w _ (boot.page seg i)).getD _ = page
    rw [Files.blit_page (fun _ ↦ rfl) hfit hpage]
    rfl

theorem tracks_live {start : Pool × Files} (hlive : u3eLive mug junk boot fil_u = some start)
    (hcontrol : fil_u.control = none) (hmemory : fil_u.memory = none)
    (hfit : (fil_u.image .north).pages.length + (fil_u.image .south).pages.length ≤ boot.pag_w) :
    Tracks start.1 start.2 := by
  have htail : ∀ seg, (fil_u.image seg).tail = [] := by
    intro seg
    by_contra htail
    rw [u3eLive_corrupt seg htail] at hlive
    cases hlive
  have hfits : Fits fun seg ↦ (fil_u.image seg).pages.length := by
    by_contra hbig
    rw [u3eLive_too_big (liveOps_images htail hcontrol) hbig] at hlive
    cases hlive
  rw [(u3eLive_images htail hcontrol hfit hfits).1] at hlive
  obtain rfl := Option.some.inj hlive
  exact tracks_blit htail hcontrol hmemory hfit

/-! ### Every run -/

theorem Tracks.change {act : Change} {after : Pool × Files} (htracks : Tracks pol_u fil_u)
    (hgood : act.Good (pol_u, fil_u)) (hchange : change mug (pol_u, fil_u) act = some after) :
    Tracks after.1 after.2 := by
  cases act with
  | load rod_u pag_w =>
    cases hload : pol_u.load rod_u pag_w with
    | error err => simp [Events.change, hload, Except.toOption] at hchange
    | ok next =>
      simp only [Events.change, hload, Except.toOption, bind, Option.bind,
        Option.some.injEq] at hchange
      obtain rfl := hchange
      exact htracks.load hload
  | store rod_u pag_w page =>
    cases hstore : pol_u.store rod_u pag_w page with
    | error err => simp [Events.change, hstore, Except.toOption] at hchange
    | ok next =>
      simp only [Events.change, hstore, Except.toOption, bind, Option.bind,
        Option.some.injEq] at hchange
      obtain rfl := hchange
      exact htracks.store hstore
  | save nor_w sou_w =>
    simp only [Events.change, bind, Option.bind_eq_some_iff] at hchange
    obtain ⟨⟨ops, next⟩, hsave, hafter⟩ := hchange
    obtain rfl := Option.some.inj hafter
    by_cases hpatch : ops = []
    · rcases u3eSave_cases hsave with ⟨_, rfl, rfl⟩ | ⟨_, _, _, hops, _⟩
      · exact htracks
      · simp [hpatch, Pool.saveOps, composeOps] at hops
    · exact (htracks.save hgood hsave hpatch).2

/-- In a run whose saves have settled watermarks, a page that differs from its image is dirty, and a
save with a patch makes the images the loom within the watermarks, which `u3e_live()` then restores.
-/
theorem save_fidelity {start : Pool × Files} (hlive : u3eLive mug junk boot fil_u = some start)
    (hcontrol : fil_u.control = none) (hmemory : fil_u.memory = none)
    (hfit : (fil_u.image .north).pages.length + (fil_u.image .south).pages.length ≤ boot.pag_w)
    {site : Pool × Files} (hrun : Reach (change mug) (fun site act ↦ act.Good site) start site)
    {nor_w sou_w : ℕ} (hsettled : Settled site.1 site.2 nor_w sou_w) :
    (∀ seg, ∀ i < water nor_w sou_w seg,
        (site.2.image seg).pages[i]? ≠ some (site.1.mem (site.1.page seg i)) →
          site.1.dirty seg i = true) ∧
      ∀ ops next, u3eSave mug site.1 site.2 nor_w sou_w = some (ops, next) → ops ≠ [] →
        (∀ seg, (exec FileOp.run ops site.2).image seg = ⟨(List.range (water nor_w sou_w seg)).map
          fun i ↦ next.mem (next.page seg i), []⟩) ∧
        (Fits (water nor_w sou_w) → ∀ again : Pool, again.pag_w = next.pag_w → ∃ loaded,
          u3eLive mug junk again (exec FileOp.run ops site.2) =
              some (loaded, exec FileOp.run ops site.2) ∧
            ∀ seg, ∀ i < water nor_w sou_w seg,
              loaded.mem (loaded.page seg i) = next.mem (next.page seg i)) := by
  have hstart : Tracks start.1 start.2 := tracks_live hlive hcontrol hmemory hfit
  have htracks : Tracks site.1 site.2 :=
    hrun.invariant (P := fun site ↦ Tracks site.1 site.2) hstart
      fun _ _ _ htracks hgood hchange ↦ htracks.change hgood hchange
  refine ⟨fun seg i hi hdiffers ↦ ?_, fun ops next hsave hpatch ↦ ?_⟩
  · by_contra hclean
    have hclean : site.1.dirty seg i = false := by simpa using hclean
    have hpage := List.getElem?_eq_getElem (hsettled.clean seg i hi hclean)
    rw [htracks.same seg i _ hpage hclean] at hdiffers
    exact hdiffers hpage
  · obtain ⟨himage, hnext⟩ := htracks.save hsettled hsave hpatch
    have hlength : ∀ seg, ((exec FileOp.run ops site.2).image seg).pages.length =
        water nor_w sou_w seg := by
      intro seg
      rw [himage, List.length_map, List.length_range]
    refine ⟨himage, fun hfits again hpag ↦ ?_⟩
    obtain ⟨hagain, hloaded⟩ := u3eLive_images hnext.tail hnext.control (hpag ▸ hnext.fit)
      (funext hlength ▸ hfits)
    refine ⟨_, hagain, fun seg i hi ↦ hloaded.mem seg i _ ?_⟩
    rw [Files.pages, himage]
    simp [hi]

/-! ### A page that comes back -/

/-- Images of two pages and of one. -/
def Files.three : Files :=
  ⟨fun seg ↦ ⟨List.replicate (water 2 1 seg) (Page.ofBytes []), []⟩, none, none⟩

/-- The pool that has loaded them. -/
def Pool.three : Pool := (Pool.new (2 ^ 17) (2 ^ 16)).blit .three (water 2 1)

/-- The home road of an empty heap. -/
def Road.home : Road := ⟨1, 1, 2 ^ 29 - 2 ^ 10, 2 ^ 29 - 2 ^ 10⟩

/-- A page of ones. -/
def Page.ones : Page := fun _ ↦ 1

theorem u3eLive_three (mug : Page → UInt32) :
    u3eLive mug 0 (.new (2 ^ 17) (2 ^ 16)) .three = some (.three, .three) := rfl

/-- The pool after a store to page 0. -/
def Pool.one : Pool :=
  { Pool.three.touch 0 with mem := Function.update Pool.three.mem 0 Page.ones }

theorem store_three : Pool.three.store .home 0 Page.ones = .ok .one := rfl

theorem settled_one : Settled .one .three 1 1 := by
  refine ⟨by decide, fun seg i hi _ ↦ ?_⟩
  cases seg with
  | north =>
    show i < 2
    have hi : i < 1 := hi
    omega
  | south => exact hi

/-- The pool after a save of one page at each end. -/
def Pool.two : Pool :=
  { (patchSavePages Pool.one (Pool.one.within 1 1)).2 with pgs_w := water 1 1 }

theorem save_one (mug : Page → UInt32) : u3eSave mug .one .three 1 1 =
    some (Pool.one.saveOps mug 1 1 [0], .two) := by
  rw [u3eSave_eq mug _ ⟨by decide, by decide⟩]
  rfl

theorem reach_one (mug : Page → UInt32) (good : Pool × Files → Change → Prop)
    (hgood : good (.three, .three) (.store .home 0 Page.ones)) :
    Reach (change mug) good (.three, .three) (.one, .three) := by
  refine .step _ .refl hgood ?_
  rw [change, store_three]
  rfl

theorem save_fidelity_one : Settled .one .three 1 1 ∧ ∀ mug, ∃ ops next,
    u3eSave mug .one .three 1 1 = some (ops, next) ∧ ∀ seg, (exec FileOp.run ops .three).image seg =
      ⟨(List.range (water 1 1 seg)).map fun i ↦ next.mem (next.page seg i), []⟩ := by
  refine ⟨settled_one, fun mug ↦ ⟨_, _, save_one mug, ?_⟩⟩
  have hfidelity := save_fidelity (u3eLive_three mug) rfl rfl (by decide) (reach_one mug _ trivial)
    settled_one
  exact (hfidelity.2 _ _ (save_one mug) (by simp [Pool.saveOps, composeOps])).1

/-- The pool after page 0 is stored to again. -/
def Pool.again : Pool := { Pool.two.touch 0 with mem := Function.update Pool.two.mem 0 Page.ones }

theorem store_two : Pool.two.store .home 0 Page.ones = .ok .again := rfl

/-- Page 1 is cut off the north image while it is clean. It comes back within the watermarks, and
the save that follows leaves it out: the image has one page, and not two. -/
theorem save_fidelity_lost : Pool.again.dit_w 1 = false ∧ ∀ mug, ∃ fil_u ops next,
    Reach (change mug) (fun _ _ ↦ True) (.three, .three) (.again, fil_u) ∧
      u3eSave mug .again fil_u 2 1 = some (ops, next) ∧ ops ≠ [] ∧
        ((exec FileOp.run ops fil_u).image .north).pages.length = 1 := by
  refine ⟨rfl, fun mug ↦ ?_⟩
  have hone := tracks_live (u3eLive_three mug) rfl rfl (by decide)
  have hpatch : Pool.one.saveOps mug 1 1 [0] ≠ [] := by simp [Pool.saveOps, composeOps]
  obtain ⟨himage, htracks⟩ := (hone.store store_three).save settled_one (save_one mug) hpatch
  generalize hfiles : exec FileOp.run (Pool.one.saveOps mug 1 1 [0]) .three =
    fil_u at himage htracks
  have hreach : Reach (change mug) (fun _ _ ↦ True) (.three, .three) (.two, fil_u) := by
    refine .step (.save 1 1) (reach_one mug _ trivial) trivial ?_
    rw [change, save_one, ← hfiles]
    rfl
  have hagain : Reach (change mug) (fun _ _ ↦ True) (.three, .three) (.again, fil_u) := by
    refine .step (.store .home 0 Page.ones) hreach trivial ?_
    rw [change, store_two]
    rfl
  have hsave : u3eSave mug .again fil_u 2 1 = some (Pool.again.saveOps mug 2 1 [0],
      { (patchSavePages Pool.again (Pool.again.within 2 1)).2 with pgs_w := water 2 1 }) := by
    rw [u3eSave_eq mug _ ⟨by decide, by decide⟩, htracks.control, htracks.memory]
    rfl
  refine ⟨fil_u, _, _, hagain, hsave, by simp [Pool.saveOps, composeOps], ?_⟩
  rw [Pool.saveOps, exec_append, exec_append, exec_composeOps]
  obtain ⟨_, hlength, _⟩ := Image.write_page (htracks.tail .north) 0 (Pool.again.mem 0)
  refine hlength.trans ?_
  rw [himage]
  rfl

end Vere.Noun.Events
