import Vere.Noun.EventsImage

/-!
# Crashes of a save

`u3e_save()` is stopped after some of its file operations, or within one of its writes, and
`u3e_live()` starts again from what is on disk. `save_crash` says when it loads the previous
snapshot or the new one: a write that has only begun must not have made an image longer, since
`_ce_image_open()` looks at the images before the patch that would repair them.
-/

set_option autoImplicit false

namespace Vere.Noun.Events

open Lib.Crash

section Pair

variable {mug : Page → UInt32} {junk : ℕ} {pol_u : Pool} {fil_u : Files} {nor_w sou_w : ℕ}

/-! ### The two snapshots -/

/-- The pages that are dirty, by their place in the images. -/
def Pool.dirty (pol_u : Pool) (seg : Seg) (i : ℕ) : Bool := pol_u.dit_w (pol_u.page seg i)

/-- The new snapshot: the dirty pages of the loom, over those of the previous one. -/
def Pool.fresh (pol_u : Pool) (fil_u : Files) (seg : Seg) (i : ℕ) : Page :=
  if pol_u.dirty seg i then pol_u.mem (pol_u.page seg i)
  else (fil_u.image seg).pages.getD i (Page.ofBytes [])

/-- A previous snapshot on disk, and one that can be made from it: a page of it is dirty, or is in
the previous one. -/
structure Pair (pol_u : Pool) (fil_u : Files) (nor_w sou_w : ℕ) : Prop where
  tail : ∀ seg, (fil_u.image seg).tail = []
  pgs : ∀ seg, pol_u.pgs_w seg = (fil_u.image seg).pages.length
  control : fil_u.control = none
  memory : fil_u.memory = none
  old : (fil_u.image .north).pages.length + (fil_u.image .south).pages.length ≤ pol_u.pag_w
  new : nor_w + sou_w ≤ pol_u.pag_w
  clean : ∀ seg, ∀ i < water nor_w sou_w seg, pol_u.dirty seg i = false →
    i < (fil_u.image seg).pages.length

/-- The pages of the previous snapshot. -/
def Files.pages (fil_u : Files) (seg : Seg) : List Page := (fil_u.image seg).pages

/-- The pages of the new snapshot. -/
def Pool.pages (pol_u : Pool) (fil_u : Files) (nor_w sou_w : ℕ) (seg : Seg) : List Page :=
  (List.range (water nor_w sou_w seg)).map (pol_u.fresh fil_u seg)

theorem Pair.half (hpair : Pair pol_u fil_u nor_w sou_w) :
    fil_u.Half (pol_u.fresh fil_u) pol_u.dirty (water nor_w sou_w) := by
  intro seg
  refine ⟨hpair.tail seg, fun i hi hclean ↦ ?_⟩
  have hinside := hpair.clean seg i hi hclean
  rw [Pool.fresh, hclean, List.getElem?_eq_getElem hinside]
  simp [hinside]

/-! ### The operations of the patch -/

theorem Pool.mem_saved (hwater : nor_w + sou_w ≤ pol_u.pag_w) {pag_w : ℕ} :
    pag_w ∈ pol_u.saved nor_w sou_w ↔ ∃ seg i, i < water nor_w sou_w seg ∧
      pol_u.dirty seg i = true ∧ pol_u.page seg i = pag_w := by
  rw [Pool.saved, patchSavePages_fst (Pool.within_nodup hwater), List.mem_filter, Pool.mem_within]
  constructor
  · rintro ⟨⟨seg, i, hi, rfl⟩, hdirty⟩
    exact ⟨seg, i, hi, hdirty, rfl⟩
  · rintro ⟨seg, i, hi, hdirty, rfl⟩
    exact ⟨⟨seg, i, hi, rfl⟩, hdirty⟩

variable {i k : ℕ} {pgs_w : Seg → ℕ}

theorem Pool.writeOp_page (hwater : nor_w + sou_w ≤ pol_u.pag_w) (fil_u : Files) {seg : Seg}
    (hi : i < water nor_w sou_w seg) (hdirty : pol_u.dirty seg i = true) :
    pol_u.writeOp nor_w (pol_u.page seg i) = .write seg i (pol_u.fresh fil_u seg i) := by
  rw [Pool.writeOp, patchPlace_page hwater hi, Pool.fresh, if_pos hdirty]

/-- What applying the patch does, with images of any size. -/
theorem Pool.mem_patchOps (hwater : nor_w + sou_w ≤ pol_u.pag_w) (fil_u : Files) (pgs_w : Seg → ℕ)
    {op : FileOp} :
    op ∈ pol_u.patchOps mug nor_w sou_w pgs_w (pol_u.saved nor_w sou_w) ↔
      (∃ seg, water nor_w sou_w seg < pgs_w seg ∧ op = .truncate seg (water nor_w sou_w seg)) ∨
        ∃ seg i, i < water nor_w sou_w seg ∧ pol_u.dirty seg i = true ∧
          op = .write seg i (pol_u.fresh fil_u seg i) := by
  rw [Pool.patchOps, List.mem_append, List.mem_append, mem_resizeOps, mem_resizeOps, List.mem_map]
  constructor
  · rintro ((htruncate | htruncate) | ⟨pag_w, hsaved, rfl⟩)
    · exact .inl ⟨.north, htruncate⟩
    · exact .inl ⟨.south, htruncate⟩
    · obtain ⟨seg, i, hi, hdirty, rfl⟩ := (Pool.mem_saved hwater).mp hsaved
      exact .inr ⟨seg, i, hi, hdirty, Pool.writeOp_page hwater fil_u hi hdirty⟩
  · rintro (⟨seg, htruncate⟩ | ⟨seg, i, hi, hdirty, rfl⟩)
    · cases seg with
      | north => exact .inl (.inl htruncate)
      | south => exact .inl (.inr htruncate)
    · refine .inr ⟨pol_u.page seg i, (Pool.mem_saved hwater).mpr ⟨seg, i, hi, hdirty, rfl⟩, ?_⟩
      exact Pool.writeOp_page hwater fil_u hi hdirty

theorem Pool.patchOps_patchOp (hwater : nor_w + sou_w ≤ pol_u.pag_w) (fil_u : Files) {op : FileOp}
    (hop : op ∈ pol_u.patchOps mug nor_w sou_w pgs_w (pol_u.saved nor_w sou_w)) :
    PatchOp (pol_u.fresh fil_u) pol_u.dirty (water nor_w sou_w) op := by
  rcases (Pool.mem_patchOps hwater fil_u pgs_w).mp hop with ⟨seg, _, rfl⟩ |
    ⟨seg, i, hi, hdirty, rfl⟩
  · exact .truncate seg
  · exact .write seg i hi hdirty

/-- The pages of an image are written in order. -/
theorem Pool.writes_ascend (hwater : nor_w + sou_w ≤ pol_u.pag_w) :
    ((pol_u.saved nor_w sou_w).map (patchPlace pol_u.pag_w nor_w)).Pairwise
      fun place next ↦ place.1 = next.1 → place.2 < next.2 := by
  have hall : ((pol_u.within nor_w sou_w).map (patchPlace pol_u.pag_w nor_w)).Pairwise
      fun place next ↦ place.1 = next.1 → place.2 < next.2 := by
    have hplace : ∀ seg, ((List.range (water nor_w sou_w seg)).map (pol_u.page seg)).map
        (patchPlace pol_u.pag_w nor_w) = (List.range (water nor_w sou_w seg)).map fun i ↦ (seg,
        i) := by
      intro seg
      rw [List.map_map]
      exact List.map_congr_left fun i hi ↦ patchPlace_page hwater (List.mem_range.mp hi)
    have heach : ∀ seg, ((List.range (water nor_w sou_w seg)).map fun i ↦ (seg, i)).Pairwise
        fun place next ↦ place.1 = next.1 → place.2 < next.2 := by
      intro seg
      refine List.pairwise_map.mpr (List.Pairwise.imp ?_ List.pairwise_lt_range)
      intro i j hlt _
      exact hlt
    have hwithin : (pol_u.within nor_w sou_w).map (patchPlace pol_u.pag_w nor_w) =
        ((List.range (water nor_w sou_w .north)).map fun i ↦ (.north, i)) ++
          (List.range (water nor_w sou_w .south)).map fun i ↦ (.south, i) := by
      rw [Pool.within, List.map_append]
      exact congrArg₂ (· ++ ·) (hplace .north) (hplace .south)
    rw [hwithin]
    refine List.pairwise_append.mpr ⟨heach .north, heach .south,
      fun place hnorth next hsouth heq ↦ ?_⟩
    obtain ⟨i, _, rfl⟩ := List.mem_map.mp hnorth
    obtain ⟨j, _, rfl⟩ := List.mem_map.mp hsouth
    cases heq
  rw [Pool.saved, patchSavePages_fst (Pool.within_nodup hwater)]
  exact hall.sublist (List.filter_sublist.map _)

theorem Pool.patchOps_ascend (mug : Page → UInt32) (hwater : nor_w + sou_w ≤ pol_u.pag_w)
    (pgs_w : Seg → ℕ) :
    (pol_u.patchOps mug nor_w sou_w pgs_w (pol_u.saved nor_w sou_w)).Pairwise fun op next ↦
      ∀ seg off_w page next_w other, op = .write seg off_w page → next = .write seg next_w other →
        off_w < next_w := by
  have hresize : ∀ op ∈ resizeOps pgs_w
      (pol_u.control mug nor_w sou_w (pol_u.saved nor_w sou_w)) .north ++ resizeOps pgs_w
        (pol_u.control mug nor_w sou_w (pol_u.saved nor_w sou_w)) .south, ∃ seg len,
          op = .truncate seg len := by
    intro op hop
    rcases List.mem_append.mp hop with hop | hop
    · exact ⟨_, _, (mem_resizeOps.mp hop).2⟩
    · exact ⟨_, _, (mem_resizeOps.mp hop).2⟩
  refine List.pairwise_append.mpr ⟨?_, ?_, ?_⟩
  · refine List.pairwise_of_forall_mem_list fun op hop _ _ seg off_w page _ _ heq ↦ ?_
    obtain ⟨_, _, rfl⟩ := hresize op hop
    cases heq
  · have hwrites := Pool.writes_ascend hwater
    refine List.pairwise_map.mpr ((List.pairwise_map.mp hwrites).imp ?_)
    intro pag_w next hless seg off_w page next_w other hop hnext
    rw [Pool.writeOp, FileOp.write.injEq] at hop hnext
    obtain ⟨hseg, rfl, _⟩ := hop
    obtain ⟨hnext, rfl, _⟩ := hnext
    exact hless (hseg.trans hnext.symm)
  · intro op hop _ _ seg off_w page _ _ heq
    obtain ⟨_, _, rfl⟩ := hresize op hop
    cases heq

/-! ### After the patch is complete -/

/-- The files when the patch is complete and has been applied in part. -/
structure Mid (mug : Page → UInt32) (pol_u : Pool) (fil_u : Files) (nor_w sou_w : ℕ)
    (mid_u : Files) :
    Prop where
  half : mid_u.Half (pol_u.fresh fil_u) pol_u.dirty (water nor_w sou_w)
  control : mid_u.control = some (pol_u.control mug nor_w sou_w (pol_u.saved nor_w sou_w),
    (pol_u.control mug nor_w sou_w (pol_u.saved nor_w sou_w)).size)
  memory : mid_u.memory = some ⟨(pol_u.saved nor_w sou_w).map pol_u.mem, []⟩
  long : ∀ seg, min (fil_u.image seg).pages.length (water nor_w sou_w seg) ≤
    (mid_u.image seg).pages.length

variable {mid_u : Files} {op : FileOp}

theorem Pair.mid (mug : Page → UInt32) (hpair : Pair pol_u fil_u nor_w sou_w) :
    Mid mug pol_u fil_u nor_w sou_w (exec FileOp.run (composeOps
      (pol_u.control mug nor_w sou_w (pol_u.saved nor_w sou_w))
        ((pol_u.saved nor_w sou_w).map pol_u.mem)) fil_u) := by
  rw [exec_composeOps]
  exact ⟨hpair.half, rfl, rfl, fun seg ↦ Nat.min_le_left ..⟩

theorem Mid.update (hmid : Mid mug pol_u fil_u nor_w sou_w mid_u) {seg : Seg} {img_u : Image}
    (hhalf : Half (pol_u.fresh fil_u seg) (pol_u.dirty seg) (water nor_w sou_w seg) img_u)
    (hlong : min (mid_u.image seg).pages.length (water nor_w sou_w seg) ≤ img_u.pages.length) :
    Mid mug pol_u fil_u nor_w sou_w (mid_u.update seg img_u) := by
  refine ⟨hmid.half.update hhalf, hmid.control, hmid.memory, fun other ↦ ?_⟩
  have hother := hmid.long other
  by_cases heq : other = seg
  · subst heq
    rw [Files.update_image_self]
    omega
  · rwa [Files.update_image_of_ne _ _ heq]

theorem Mid.run (hmid : Mid mug pol_u fil_u nor_w sou_w mid_u)
    (hop : PatchOp (pol_u.fresh fil_u) pol_u.dirty (water nor_w sou_w) op) :
    Mid mug pol_u fil_u nor_w sou_w (op.run mid_u) := by
  cases hop with
  | truncate seg =>
    refine hmid.update (hmid.half seg).truncate ?_
    rw [Image.truncate, List.length_take, Nat.min_comm]
  | write seg off_w hoff hdirty =>
    obtain ⟨_, hlength, _⟩ :=
      Image.write_page (hmid.half seg).tail off_w (pol_u.fresh fil_u seg off_w)
    refine hmid.update ((hmid.half seg).write hdirty _) ?_
    rw [hlength]
    omega

/-- A write that has begun, of a page that the previous snapshot has. -/
theorem Mid.part (hmid : Mid mug pol_u fil_u nor_w sou_w mid_u)
    (hop : PatchOp (pol_u.fresh fil_u) pol_u.dirty (water nor_w sou_w) op)
    (hinside : ∀ seg off_w page, op = .write seg off_w page →
      k = 0 ∨ off_w < (fil_u.image seg).pages.length) :
    Mid mug pol_u fil_u nor_w sou_w (op.part k mid_u) := by
  cases hop with
  | truncate seg => exact hmid
  | write seg off_w hoff hdirty =>
    have hlong := hmid.long seg
    have hstay : k = 0 ∨ off_w < (mid_u.image seg).pages.length :=
      (hinside seg off_w _ rfl).imp_right fun hold ↦ by omega
    refine hmid.update ((hmid.half seg).part hdirty _ hstay) ?_
    rcases hstay with rfl | hstay
    · rw [Image.write, if_pos rfl]
      exact Nat.min_le_left ..
    · rw [(Image.write_part hstay _ k).2.1]
      exact Nat.min_le_left ..

theorem Mid.patched (hmid : Mid mug pol_u fil_u nor_w sou_w mid_u)
    (hwater : nor_w + sou_w ≤ pol_u.pag_w)
    (hpgs : ∀ seg, (mid_u.image seg).pages.length ≤ max (pgs_w seg)
      (water nor_w sou_w seg)) (seg : Seg) :
    (exec FileOp.run (pol_u.patchOps mug nor_w sou_w pgs_w (pol_u.saved nor_w sou_w)) mid_u).image
      seg =
      ⟨pol_u.pages fil_u nor_w sou_w seg, []⟩ := by
  refine hmid.half.patched (fun op hop ↦ Pool.patchOps_patchOp hwater fil_u hop) ?_ ?_
  · intro i hi hdirty
    exact (Pool.mem_patchOps hwater fil_u pgs_w).mpr (.inr ⟨seg, i, hi, hdirty, rfl⟩)
  · have hseg := hpgs seg
    by_cases hshrink : water nor_w sou_w seg < pgs_w seg
    · exact .inr ((Pool.mem_patchOps hwater fil_u pgs_w).mpr (.inl ⟨seg, hshrink, rfl⟩))
    · exact .inl (by omega)

theorem Pair.patched (mug : Page → UInt32) (hpair : Pair pol_u fil_u nor_w sou_w) (seg : Seg) :
    (exec FileOp.run (pol_u.patchOps mug nor_w sou_w pol_u.pgs_w (pol_u.saved nor_w sou_w))
      (exec FileOp.run (composeOps (pol_u.control mug nor_w sou_w (pol_u.saved nor_w sou_w))
        ((pol_u.saved nor_w sou_w).map pol_u.mem)) fil_u)).image seg =
          ⟨pol_u.pages fil_u nor_w sou_w seg, []⟩ := by
  refine (hpair.mid mug).patched hpair.new (fun seg ↦ ?_) seg
  rw [exec_composeOps, hpair.pgs]
  exact Nat.le_max_left ..

/-! ### Recovery -/

/-- `u3e_live()` succeeds, and loads one of the snapshots. -/
def Recovers (mug : Page → UInt32) (junk : ℕ) (boot : Pool) (fil_u : Files)
    (old new : Seg → List Page) :
    Prop :=
  ∃ next after, u3eLive mug junk boot fil_u = some (next, after) ∧
    (next.Loaded old ∨ next.Loaded new)

variable {boot : Pool} {old new : Seg → List Page}

/-- `u3e_live()` succeeds just when the images that it has made are not too big. -/
theorem recovers_iff {ops : List FileOp}
    (hops : liveOps mug junk boot.pag_w fil_u = some (ops, pgs_w))
    (hlength : ∀ seg, ((exec FileOp.run ops fil_u).image seg).pages.length = pgs_w seg)
    (hfit : pgs_w .north + pgs_w .south ≤ boot.pag_w)
    (hpages : (exec FileOp.run ops fil_u).pages = old ∨ (exec FileOp.run ops fil_u).pages = new) :
    Recovers mug junk boot fil_u old new ↔ Fits pgs_w := by
  constructor
  · rintro ⟨next, after, hlive, _⟩
    by_contra hbig
    rw [u3eLive_too_big hops hbig] at hlive
    cases hlive
  · intro hfits
    obtain ⟨hlive, hloaded⟩ := u3eLive_loads hops hlength hfit hfits
    refine ⟨_, _, hlive, hpages.imp ?_ ?_⟩
    · rintro rfl
      exact hloaded
    · rintro rfl
      exact hloaded

/-- Without a patch that can be applied, the images are loaded as they are. -/
theorem recovers_images (htail : ∀ seg, (fil_u.image seg).tail = [])
    (hopen : patchOpen mug junk fil_u = .none ∨ patchOpen mug junk fil_u = .delete)
    (hfit : (fil_u.pages .north).length + (fil_u.pages .south).length ≤ boot.pag_w)
    (hpages : fil_u.pages = old ∨ fil_u.pages = new) :
    Recovers mug junk boot fil_u old new ↔ Fits fun seg ↦ (fil_u.pages seg).length := by
  rcases hopen with hopen | hopen
  · have hops : liveOps mug junk boot.pag_w fil_u =
        some ([], fun seg ↦ (fil_u.pages seg).length) := by
      rw [liveOps_eq htail, hopen]
      rfl
    exact recovers_iff hops (fun _ ↦ rfl) hfit hpages
  · have hops : liveOps mug junk boot.pag_w fil_u =
        some (deleteOps, fun seg ↦ (fil_u.pages seg).length) := by
      rw [liveOps_eq htail, hopen]
      rfl
    exact recovers_iff hops (fun _ ↦ rfl) hfit hpages

/-- A patch that is complete is applied. -/
theorem Mid.recovers (hmid : Mid mug pol_u fil_u nor_w sou_w mid_u)
    (hboot : boot.pag_w = pol_u.pag_w) (hwater : nor_w + sou_w ≤ pol_u.pag_w) :
    Recovers mug junk boot mid_u old (pol_u.pages fil_u nor_w sou_w) ↔
    Fits (water nor_w sou_w) := by
  have hread : patchReadControl junk (pol_u.control mug nor_w sou_w (pol_u.saved nor_w sou_w),
      (pol_u.control mug nor_w sou_w (pol_u.saved nor_w sou_w)).size) =
        some (pol_u.control mug nor_w sou_w (pol_u.saved nor_w sou_w)) := by
    simp [patchReadControl, Control.size]
  have hopen : patchOpen mug junk mid_u = .apply
      (pol_u.control mug nor_w sou_w (pol_u.saved nor_w sou_w))
        ⟨(pol_u.saved nor_w sou_w).map pol_u.mem, []⟩ := by
    simp only [patchOpen, hmid.control, hmid.memory, hread, patchVerify_control, if_true]
  have hops : liveOps mug junk boot.pag_w mid_u = some (pol_u.patchOps mug nor_w sou_w
      (fun seg ↦ (mid_u.image seg).pages.length) (pol_u.saved nor_w sou_w) ++ deleteOps,
        water nor_w sou_w) := by
    rw [liveOps_eq fun seg ↦ (hmid.half seg).tail, hopen, hboot]
    simp only [applyOps_control, Option.map_some, Control.pgs_control]
  have himage := hmid.patched hwater fun seg ↦ Nat.le_max_left (mid_u.image seg).pages.length _
  have hend : ∀ seg, (exec FileOp.run (pol_u.patchOps mug nor_w sou_w
      (fun seg ↦ (mid_u.image seg).pages.length) (pol_u.saved nor_w sou_w) ++ deleteOps)
        mid_u).image seg =
        ⟨pol_u.pages fil_u nor_w sou_w seg, []⟩ := by
    intro seg
    rw [exec_append]
    exact himage seg
  refine recovers_iff hops (fun seg ↦ ?_) (hboot ▸ hwater) (.inr ?_)
  · rw [hend seg]
    simp [Pool.pages]
  · funext seg
    rw [Files.pages, hend seg]

/-! ### Where the crash falls -/

/-- The bytes of a write. -/
def FileOp.bytes : FileOp → ℕ
  | .writeMemory _ _ => pagSiz
  | .writeControl con_u => con_u.size
  | .write _ _ _ => pagSiz
  | _ => 0

/-- The patch is complete before operation `i`. -/
def Committed (ops : List FileOp) (i : ℕ) : Prop := ∃ con_u, .writeControl con_u ∈ ops.take i

/-- `control.bin`, if it is there, is short. -/
def Files.Short (junk : ℕ) (fil_u : Files) : Prop :=
  ∀ ctl, fil_u.control = some ctl → patchReadControl junk ctl = none

theorem Files.Short.patchOpen (hshort : fil_u.Short junk) :
    patchOpen mug junk fil_u = .none ∨ patchOpen mug junk fil_u = .delete := by
  unfold Events.patchOpen
  cases hcontrol : fil_u.control with
  | none => exact .inl rfl
  | some ctl =>
    cases fil_u.memory with
    | none => exact .inr rfl
    | some mem_i =>
      dsimp only
      rw [hshort ctl hcontrol]
      exact .inr rfl

/-- What makes the patch, before its control block. -/
def fillOps (pages : List Page) : List FileOp :=
  [.createControl, .createMemory] ++ pages.zipIdx.map fun (page, pgc_w) ↦ .writeMemory pgc_w page

theorem mem_fillOps {pages : List Page} (hop : op ∈ fillOps pages) :
    op = .createControl ∨ op = .createMemory ∨ ∃ pgc_w page, op = .writeMemory pgc_w page := by
  simp only [fillOps, List.mem_append, List.mem_cons, List.not_mem_nil, or_false,
    List.mem_map] at hop
  rcases hop with (hop | hop) | ⟨⟨page, pgc_w⟩, _, hop⟩
  · exact .inl hop
  · exact .inr (.inl hop)
  · exact .inr (.inr ⟨pgc_w, page, hop.symm⟩)

theorem composeOps_eq (con_u : Control) (pages : List Page) :
    composeOps con_u pages = fillOps pages ++ [.writeControl con_u] := rfl

/-- While the patch is made, the images stay, and `control.bin` is short. -/
theorem crash_composeOps (con_u : Control) (pages : List Page) (hnone : fil_u.control = none)
    (hi : i < (composeOps con_u pages).length)
    (hk : ∀ op, (composeOps con_u pages)[i]? = some op → k = 0 ∨ k < op.bytes) :
    (crash FileOp.run FileOp.part (composeOps con_u pages) i k fil_u).image = fil_u.image ∧
      (crash FileOp.run FileOp.part (composeOps con_u pages) i k fil_u).Short junk := by
  have hstart : fil_u.image = fil_u.image ∧ fil_u.Short junk := by
    refine ⟨rfl, fun ctl hctl ↦ ?_⟩
    rw [hnone] at hctl
    cases hctl
  have hrun : ∀ op ∈ fillOps pages, ∀ mid_u : Files, mid_u.image = fil_u.image ∧ mid_u.Short junk →
      (op.run mid_u).image = fil_u.image ∧ (op.run mid_u).Short junk := by
    rintro op hop mid_u ⟨himage, hshort⟩
    rcases mem_fillOps hop with rfl | rfl | ⟨pgc_w, page, rfl⟩
    · refine ⟨himage, fun ctl hctl ↦ ?_⟩
      obtain rfl := Option.some.inj hctl
      exact if_neg (by simp only [List.length_nil]; omega)
    · exact ⟨himage, hshort⟩
    · exact ⟨himage, hshort⟩
  rw [composeOps_eq] at hi hk ⊢
  rw [List.length_append, List.length_singleton] at hi
  by_cases hfill : i < (fillOps pages).length
  · rw [crash_append_left _ _ k fil_u hfill]
    refine crash_invariant (P := fun mid_u : Files ↦ mid_u.image = fil_u.image ∧
      mid_u.Short junk) hstart
      hrun fun op hop mid_u hmid ↦ ?_
    rcases mem_fillOps (List.mem_of_getElem? hop) with rfl | rfl | ⟨pgc_w, page, rfl⟩
    · exact hmid
    · exact hmid
    · exact hmid
  · obtain rfl : i = (fillOps pages).length + 0 := by omega
    obtain ⟨himage, _⟩ := exec_invariant
      (P := fun mid_u : Files ↦ mid_u.image = fil_u.image ∧ mid_u.Short junk) hstart hrun
    rw [crash_append_right]
    refine ⟨himage, fun ctl hctl ↦ ?_⟩
    obtain rfl := Option.some.inj hctl
    have hpart := hk (.writeControl con_u) (by simp)
    simp only [FileOp.bytes, Control.size] at hpart
    simp only [patchReadControl]
    split_ifs
    · omega
    · rfl
    · omega
    · rfl

theorem write_not_mem_composeOps (con_u : Control) (pages : List Page) (seg : Seg) (off_w : ℕ)
    (page : Page) : .write seg off_w page ∉ composeOps con_u pages := by
  rw [composeOps_eq, List.mem_append, List.mem_singleton]
  rintro (hop | hop)
  · rcases mem_fillOps hop with heq | heq | ⟨_, _, heq⟩
    · cases heq
    · cases heq
    · cases heq
  · cases hop

theorem not_committed (con_u : Control) (pages : List Page) (more : List FileOp)
    (hi : i < (composeOps con_u pages).length) : ¬Committed (composeOps con_u pages ++ more) i := by
  rintro ⟨other, hother⟩
  rw [composeOps_eq, List.append_assoc, List.take_append_of_le_length] at hother
  · rcases mem_fillOps (List.mem_of_mem_take hother) with heq | heq | ⟨_, _, heq⟩
    · cases heq
    · cases heq
    · cases heq
  · rw [composeOps_eq, List.length_append, List.length_singleton] at hi
    omega

theorem committed (con_u : Control) (pages : List Page) (more : List FileOp) (i : ℕ) :
    Committed (composeOps con_u pages ++ more) ((composeOps con_u pages).length + i) := by
  refine ⟨con_u, ?_⟩
  rw [List.take_length_add_append]
  exact List.mem_append_left _ (by simp [composeOps_eq])

/-- Until a page is written, the image is not longer than its place, or than it was. -/
theorem Mid.length_le (hmid : Mid mug pol_u fil_u nor_w sou_w mid_u)
    (hwater : nor_w + sou_w ≤ pol_u.pag_w) {j : ℕ} {seg : Seg} {off_w : ℕ} {page : Page}
    (hop : (pol_u.patchOps mug nor_w sou_w pgs_w (pol_u.saved nor_w sou_w))[j]? =
      some (.write seg off_w page)) (hlength : (mid_u.image seg).pages.length ≤ off_w) :
    ((exec FileOp.run ((pol_u.patchOps mug nor_w sou_w pgs_w (pol_u.saved nor_w sou_w)).take j)
      mid_u).image seg).pages.length ≤ off_w := by
  have hascend := Pool.patchOps_ascend mug hwater pgs_w
  obtain ⟨hj, hget⟩ := List.getElem?_eq_some_iff.mp hop
  rw [← List.take_append_drop j (pol_u.patchOps ..), List.drop_eq_getElem_cons hj, hget] at hascend
  have hbefore := (List.pairwise_append.mp hascend).2.2
  have hinvariant : ∀ op ∈ (pol_u.patchOps mug nor_w sou_w pgs_w (pol_u.saved nor_w sou_w)).take j,
      ∀ mid_u : Files, (Mid mug pol_u fil_u nor_w sou_w mid_u ∧
      (mid_u.image seg).pages.length ≤ off_w) →
        Mid mug pol_u fil_u nor_w sou_w (op.run mid_u) ∧
          ((op.run mid_u).image seg).pages.length ≤ off_w := by
    rintro op hop mid_u ⟨hmid, hlength⟩
    have hpatch := Pool.patchOps_patchOp hwater fil_u (List.mem_of_mem_take hop)
    refine ⟨hmid.run hpatch, ?_⟩
    cases hpatch with
    | truncate other =>
      by_cases heq : seg = other
      · subst heq
        rw [FileOp.run, Files.update_image_self, Image.truncate, List.length_take]
        omega
      · rwa [FileOp.run, Files.update_image_of_ne _ _ heq]
    | write other off hoff hdirty =>
      by_cases heq : seg = other
      · subst heq
        have hless := hbefore _ hop _ List.mem_cons_self seg _ _ _ _ rfl rfl
        obtain ⟨_, hmax, _⟩ := Image.write_page (hmid.half seg).tail off (pol_u.fresh fil_u seg off)
        rw [FileOp.run, Files.update_image_self, hmax]
        omega
      · rwa [FileOp.run, Files.update_image_of_ne _ _ heq]
  exact (exec_invariant ⟨hmid, hlength⟩ hinvariant).2

/-! ### Every crash -/

/-- A crash while the patch is made. -/
theorem Pair.crash_compose (hpair : Pair pol_u fil_u nor_w sou_w) (con_u : Control)
    (pages : List Page) (hi : i < (composeOps con_u pages).length)
    (hk : ∀ op, (composeOps con_u pages)[i]? = some op → k = 0 ∨ k < op.bytes)
    (hboot : boot.pag_w = pol_u.pag_w) :
    Recovers mug junk boot (crash FileOp.run FileOp.part (composeOps con_u pages) i k fil_u)
      fil_u.pages new ↔ Fits fun seg ↦ (fil_u.pages seg).length := by
  obtain ⟨himage, hshort⟩ := crash_composeOps con_u pages hpair.control hi hk
  have hpages : (crash FileOp.run FileOp.part (composeOps con_u pages) i k fil_u).pages =
      fil_u.pages := by
    funext seg
    rw [Files.pages, himage]
    rfl
  rw [← hpages]
  refine recovers_images (fun seg ↦ ?_) hshort.patchOpen ?_ (.inl rfl)
  · rw [himage]
    exact hpair.tail seg
  · rw [hpages, hboot]
    exact hpair.old

theorem Mid.crash_patch (hmid : Mid mug pol_u fil_u nor_w sou_w mid_u)
    (hwater : nor_w + sou_w ≤ pol_u.pag_w)
    (hlength : ∀ seg, (mid_u.image seg).pages.length = (fil_u.pages seg).length) {j : ℕ}
    (hop : (pol_u.patchOps mug nor_w sou_w pgs_w (pol_u.saved nor_w sou_w))[j]? = some op)
    (hk : k = 0 ∨ k < op.bytes) (hboot : boot.pag_w = pol_u.pag_w) :
    Recovers mug junk boot (crash FileOp.run FileOp.part
      (pol_u.patchOps mug nor_w sou_w pgs_w (pol_u.saved nor_w sou_w)) j k mid_u) old
        (pol_u.pages fil_u nor_w sou_w) ↔
      (∀ seg off_w page, op = .write seg off_w page → k = 0 ∨ off_w < (fil_u.pages seg).length) ∧
        Fits (water nor_w sou_w) := by
  have hrun : ∀ op ∈ pol_u.patchOps mug nor_w sou_w pgs_w (pol_u.saved nor_w sou_w), ∀ mid_u :
    Files,
      Mid mug pol_u fil_u nor_w sou_w mid_u → Mid mug pol_u fil_u nor_w sou_w (op.run mid_u) :=
    fun op hop mid_u hmid ↦ hmid.run (Pool.patchOps_patchOp hwater fil_u hop)
  by_cases hinside : ∀ seg off_w page, op = .write seg off_w page →
      k = 0 ∨ off_w < (fil_u.pages seg).length
  · have hcrash : Mid mug pol_u fil_u nor_w sou_w (crash FileOp.run FileOp.part
        (pol_u.patchOps mug nor_w sou_w pgs_w (pol_u.saved nor_w sou_w)) j k mid_u) := by
      refine crash_invariant hmid hrun fun next hnext mid_u hmid ↦ ?_
      obtain rfl : op = next := Option.some.inj (hop.symm.trans hnext)
      exact hmid.part (Pool.patchOps_patchOp hwater fil_u (List.mem_of_getElem? hop)) hinside
    rw [hcrash.recovers hboot hwater]
    exact ⟨fun hfits ↦ ⟨hinside, hfits⟩, And.right⟩
  · -- the write has made the image longer, by less than a page
    refine ⟨fun hrecovers ↦ ?_, fun hboth ↦ absurd hboth.1 hinside⟩
    push Not at hinside
    obtain ⟨seg, off_w, page, rfl, hpos, hgrow⟩ := hinside
    have hshort := hmid.length_le hwater hop ((hlength seg).trans_le hgrow)
    have htail := Image.write_grow page hshort (Nat.pos_of_ne_zero hpos) (hk.resolve_left hpos)
    obtain ⟨next, after, hlive, _⟩ := hrecovers
    rw [crash_of_getElem? hop, u3eLive_corrupt seg] at hlive
    · cases hlive
    · rw [FileOp.part, Files.update_image_self]
      exact htail

theorem Mid.crash_delete (hmid : Mid mug pol_u fil_u nor_w sou_w mid_u)
    (hwater : nor_w + sou_w ≤ pol_u.pag_w)
    (himage : ∀ seg, mid_u.image seg = ⟨pol_u.pages fil_u nor_w sou_w seg, []⟩) (j k : ℕ)
    (hboot : boot.pag_w = pol_u.pag_w) :
    Recovers mug junk boot (crash FileOp.run FileOp.part deleteOps j k mid_u) old
      (pol_u.pages fil_u nor_w sou_w) ↔ Fits (water nor_w sou_w) := by
  have hlength : ∀ seg, (pol_u.pages fil_u nor_w sou_w seg).length = water nor_w sou_w seg := by
    intro seg
    rw [Pool.pages, List.length_map, List.length_range]
  have himages : ∀ end_u : Files, end_u.image = mid_u.image → end_u.control = none →
      (Recovers mug junk boot end_u old (pol_u.pages fil_u nor_w sou_w) ↔
      Fits (water nor_w sou_w)) := by
    intro end_u hend hcontrol
    have hpages : end_u.pages = pol_u.pages fil_u nor_w sou_w := by
      funext seg
      rw [Files.pages, hend, himage]
    have hopen : patchOpen mug junk end_u = .none := by
      rw [patchOpen, hcontrol]
    rw [recovers_images (fun seg ↦ by rw [hend, himage]) (.inl hopen) ?_ (.inr hpages), hpages]
    · exact iff_of_eq (congrArg Fits (funext hlength))
    · rw [hpages, hlength, hlength, hboot]
      exact hwater
  match j with
  | 0 => exact hmid.recovers hboot hwater
  | 1 => exact himages _ rfl rfl
  | j + 2 => exact himages _ rfl rfl

/-- A crash when the patch is complete. -/
theorem Pair.crash_committed (hpair : Pair pol_u fil_u nor_w sou_w) {j : ℕ}
    (hk : ∀ op, (pol_u.patchOps mug nor_w sou_w pol_u.pgs_w (pol_u.saved nor_w sou_w) ++
      deleteOps)[j]? = some op → k = 0 ∨ k < op.bytes) (hboot : boot.pag_w = pol_u.pag_w) :
    Recovers mug junk boot (crash FileOp.run FileOp.part (pol_u.patchOps mug nor_w sou_w pol_u.pgs_w
        (pol_u.saved nor_w sou_w) ++ deleteOps) j k (exec FileOp.run (composeOps
          (pol_u.control mug nor_w sou_w (pol_u.saved nor_w sou_w))
            ((pol_u.saved nor_w sou_w).map pol_u.mem)) fil_u)) old (pol_u.pages fil_u nor_w sou_w) ↔
      (∀ seg off_w page, (pol_u.patchOps mug nor_w sou_w pol_u.pgs_w (pol_u.saved nor_w sou_w) ++
          deleteOps)[j]? = some (.write seg off_w page) → k = 0 ∨
          off_w < (fil_u.pages seg).length) ∧
        Fits (water nor_w sou_w) := by
  have hmid := hpair.mid mug
  have himage : ∀ seg, (exec FileOp.run (composeOps
      (pol_u.control mug nor_w sou_w (pol_u.saved nor_w sou_w))
        ((pol_u.saved nor_w sou_w).map pol_u.mem)) fil_u).image seg = fil_u.image seg := by
    intro seg
    rw [exec_composeOps]
  by_cases hpatch : j <
    (pol_u.patchOps mug nor_w sou_w pol_u.pgs_w (pol_u.saved nor_w sou_w)).length
  · rw [List.getElem?_append_left hpatch] at *
    have hop := List.getElem?_eq_getElem hpatch
    rw [crash_append_left _ _ k _ hpatch,
      hmid.crash_patch hpair.new (fun seg ↦ by rw [himage]; rfl) hop
      (hk _ hop) hboot, hop]
    simp only [Option.some.injEq]
  · obtain ⟨l, rfl⟩ := Nat.exists_eq_add_of_le (Nat.not_lt.mp hpatch)
    have hend : Mid mug pol_u fil_u nor_w sou_w (exec FileOp.run (pol_u.patchOps mug nor_w sou_w
        pol_u.pgs_w (pol_u.saved nor_w sou_w)) _) :=
      exec_invariant hmid fun op hop mid_u hmid ↦
        hmid.run (Pool.patchOps_patchOp hpair.new fil_u hop)
    rw [List.getElem?_append_right (Nat.le_add_right ..), Nat.add_sub_cancel_left] at *
    rw [crash_append_right, hend.crash_delete hpair.new (hpair.patched mug) l k hboot]
    refine ⟨fun hfits ↦ ⟨fun seg off_w page hop ↦ ?_, hfits⟩, And.right⟩
    have hmem := List.mem_of_getElem? hop
    simp [deleteOps] at hmem

/-- `u3e_live()` after a crash of `u3e_save()` loads the previous snapshot or the new one, just when
the crash is not within a write that makes an image longer, and the snapshot that it finds is not
too big. -/
theorem save_crash {ops : List FileOp} {next : Pool} {i k : ℕ}
    (hpair : Pair pol_u fil_u nor_w sou_w)
    (hsave : u3eSave mug pol_u fil_u nor_w sou_w = some (ops, next))
    (hk : ∀ op, ops[i]? = some op → k = 0 ∨ k < op.bytes) (hboot : boot.pag_w = pol_u.pag_w) :
    Recovers mug junk boot (crash FileOp.run FileOp.part ops i k fil_u) fil_u.pages
        (pol_u.pages fil_u nor_w sou_w) ↔
      (∀ seg off_w page, ops[i]? = some (.write seg off_w page) →
          k = 0 ∨ off_w < (fil_u.pages seg).length) ∧
        (Committed ops i → Fits (water nor_w sou_w)) ∧
          (¬Committed ops i → Fits fun seg ↦ (fil_u.pages seg).length) := by
  rcases u3eSave_cases hsave with ⟨_, rfl, rfl⟩ | ⟨_, _, _, hops, _⟩
  · have hnever : ¬Committed [] i := by
      rintro ⟨_, hmem⟩
      simp at hmem
    have hopen : patchOpen mug junk fil_u = .none := by
      rw [patchOpen, hpair.control]
    have hfit : (fil_u.pages .north).length + (fil_u.pages .south).length ≤ boot.pag_w :=
      hboot ▸ hpair.old
    rw [crash, recovers_images hpair.tail (.inl hopen) hfit (.inl rfl)]
    simp [hnever]
  · subst hops
    by_cases hcompose : i < (composeOps (pol_u.control mug nor_w sou_w (pol_u.saved nor_w sou_w))
        ((pol_u.saved nor_w sou_w).map pol_u.mem)).length
    · have hnot := not_committed _ _ (pol_u.patchOps mug nor_w sou_w pol_u.pgs_w
        (pol_u.saved nor_w sou_w) ++ deleteOps) hcompose
      rw [Pool.saveOps, List.getElem?_append_left hcompose] at *
      rw [crash_append_left _ _ k fil_u hcompose, hpair.crash_compose _ _ hcompose hk hboot]
      refine ⟨fun hfits ↦ ⟨fun seg off_w page hop ↦ ?_, fun hyes ↦ absurd hyes hnot, fun _ ↦ hfits⟩,
        fun hboth ↦ hboth.2.2 hnot⟩
      exact absurd (List.mem_of_getElem? hop) (write_not_mem_composeOps _ _ seg off_w page)
    · obtain ⟨j, rfl⟩ := Nat.exists_eq_add_of_le (Nat.not_lt.mp hcompose)
      have hyes := committed (pol_u.control mug nor_w sou_w (pol_u.saved nor_w sou_w))
        ((pol_u.saved nor_w sou_w).map pol_u.mem) (pol_u.patchOps mug nor_w sou_w pol_u.pgs_w
          (pol_u.saved nor_w sou_w) ++ deleteOps) j
      rw [Pool.saveOps, List.getElem?_append_right (Nat.le_add_right ..),
        Nat.add_sub_cancel_left] at *
      rw [crash_append_right, hpair.crash_committed hk hboot]
      exact ⟨fun hboth ↦ ⟨hboth.1, fun _ ↦ hboth.2, fun hnot ↦ absurd hyes hnot⟩,
        fun hboth ↦ ⟨hboth.1, hboth.2.1 hyes⟩⟩

end Pair

/-! ### A first snapshot -/

/-- The pool before the first save: no images, and every page is dirty. -/
def Pool.new (pag_w gar_w : ℕ) : Pool :=
  ⟨pag_w, fun _ ↦ Page.ofBytes [], fun _ ↦ true, fun _ ↦ .readWrite, gar_w, fun _ ↦ 0⟩

/-- A checkpoint directory without a snapshot. -/
def Files.new : Files := ⟨fun _ ↦ ⟨[], []⟩, none, none⟩

theorem pair_new {pag_w gar_w nor_w sou_w : ℕ} (hwater : nor_w + sou_w ≤ pag_w) :
    Pair (.new pag_w gar_w) .new nor_w sou_w :=
  ⟨fun _ ↦ rfl, fun _ ↦ rfl, rfl, rfl, Nat.zero_le _, hwater,
    fun _ _ _ hclean ↦ Bool.noConfusion hclean⟩

theorem u3eSave_new (mug : Page → UInt32) :
    ∃ next, u3eSave mug (.new (2 ^ 17) (2 ^ 16)) .new 1 1 =
      some ((Pool.new (2 ^ 17) (2 ^ 16)).saveOps mug 1 1 [0, 2 ^ 17 - 1], next) := by
  rw [u3eSave_eq]
  · exact ⟨_, rfl⟩
  · exact ⟨by decide, by decide⟩

/-- The patch is complete and no page of it has been written. -/
theorem save_crash_complete :
    Pair (.new (2 ^ 17) (2 ^ 16)) .new 1 1 ∧ ∀ mug, ∃ ops next,
      u3eSave mug (.new (2 ^ 17) (2 ^ 16)) .new 1 1 = some (ops, next) ∧
        Recovers mug 0 (.new (2 ^ 17) (2 ^ 16)) (crash FileOp.run FileOp.part ops 5 0 .new)
          (Files.pages .new) ((Pool.new (2 ^ 17) (2 ^ 16)).pages .new 1 1) := by
  have hpair : Pair (.new (2 ^ 17) (2 ^ 16)) .new 1 1 := pair_new (by decide)
  refine ⟨hpair, fun mug ↦ ?_⟩
  obtain ⟨next, hsave⟩ := u3eSave_new mug
  refine ⟨_, next, hsave, (save_crash hpair hsave (fun _ _ ↦ .inl rfl) rfl).mpr ⟨?_, ?_, ?_⟩⟩
  · exact fun _ _ _ _ ↦ .inl rfl
  · exact fun _ ↦ show 1 + 1 + 1 < u3aPages by decide
  · exact fun _ ↦ show 0 + 0 + 1 < u3aPages by decide

/-- One byte of the first page has been written to the north image, which was empty: `u3e_live()`
exits. -/
theorem save_crash_torn :
    Pair (.new (2 ^ 17) (2 ^ 16)) .new 1 1 ∧ ∀ mug, ∃ ops next,
      u3eSave mug (.new (2 ^ 17) (2 ^ 16)) .new 1 1 = some (ops, next) ∧
        ops[5]? = some (.write .north 0 (Page.ofBytes [])) ∧ 1 < pagSiz ∧
          u3eLive mug 0 (.new (2 ^ 17) (2 ^ 16)) (crash FileOp.run FileOp.part ops 5 1 .new) =
            none := by
  have hsize : 1 < pagSiz := by
    unfold pagSiz pagWiz
    decide
  refine ⟨pair_new (by decide), fun mug ↦ ?_⟩
  obtain ⟨next, hsave⟩ := u3eSave_new mug
  have hop : ((Pool.new (2 ^ 17) (2 ^ 16)).saveOps mug 1 1 [0, 2 ^ 17 - 1])[5]? =
      some (.write .north 0 (Page.ofBytes [])) := rfl
  refine ⟨_, next, hsave, hop, hsize, u3eLive_corrupt .north ?_⟩
  rw [crash_of_getElem? hop, FileOp.part, Files.update_image_self]
  exact Image.write_grow _ (Nat.le_refl 0) Nat.one_pos hsize

end Vere.Noun.Events
