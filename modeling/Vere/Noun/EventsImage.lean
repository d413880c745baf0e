import Vere.Noun.Events
import Mathlib.Tactic

/-!
# Images and patches

What the writes of a patch make of an image. `Half` says that an image agrees with a memory on the
pages that the patch does not have; every write of the patch keeps it, and after all of them the
image is the memory (`Half.patched`), whichever of them had been done before.
-/

set_option autoImplicit false

namespace Vere.Noun.Events

open Lib.Crash

/-! ### Writes -/

theorem Page.mix_pagSiz (page old : Page) : page.mix old pagSiz = page := by
  funext i
  exact if_pos i.isLt

theorem pagSiz_pos : 0 < pagSiz := by
  unfold pagSiz pagWiz
  decide

variable {img_u : Image} {off_w : ℕ} {page : Page}

theorem Image.pad_length (houtside : img_u.pages.length ≤ off_w) :
    (img_u.pad off_w).pages.length = off_w := by
  unfold Image.pad
  split_ifs with hend
  · exact hend.symm
  · simp only [List.length_append, List.length_cons, List.length_replicate]
    omega

variable {i : ℕ} {op : FileOp} {ops : List FileOp} {seg : Seg}

theorem Image.pad_getElem? (hi : i < img_u.pages.length) :
    (img_u.pad off_w).pages[i]? = img_u.pages[i]? := by
  unfold Image.pad
  split_ifs
  · rfl
  · exact List.getElem?_append_left hi

theorem modify_getElem?_of_ne {pages : List Page} (update : Page → Page) (hne : i ≠ off_w) :
    (pages.modify off_w update)[i]? = pages[i]? := by
  rw [List.getElem?_modify]
  simp [Ne.symm hne]

/-- A whole page that is written. -/
theorem Image.write_page (htail : img_u.tail = []) (off_w : ℕ) (page : Page) :
    (img_u.write off_w page pagSiz).tail = [] ∧
      (img_u.write off_w page pagSiz).pages.length = max img_u.pages.length (off_w + 1) ∧
      (img_u.write off_w page pagSiz).pages[off_w]? = some page ∧
      ∀ i, i < img_u.pages.length → i ≠ off_w →
        (img_u.write off_w page pagSiz).pages[i]? = img_u.pages[i]? := by
  unfold Image.write
  rw [if_neg pagSiz_pos.ne', if_pos rfl]
  split_ifs with hinside
  · refine ⟨htail, ?_, ?_, fun i _ hne ↦ modify_getElem?_of_ne _ hne⟩
    · rw [List.length_modify]
      omega
    · simp [Page.mix_pagSiz, hinside]
  · have hlength := Image.pad_length (Nat.not_lt.mp hinside)
    refine ⟨rfl, ?_, ?_, fun i hi _ ↦ ?_⟩
    · rw [List.length_append, hlength, List.length_singleton]
      omega
    · rw [List.getElem?_append_right hlength.le, hlength, Nat.sub_self]
      rfl
    · rw [List.getElem?_append_left (by omega), Image.pad_getElem? hi]

theorem Image.write_part (hinside : off_w < img_u.pages.length) (page : Page) (len : ℕ) :
    (img_u.write off_w page len).tail = img_u.tail ∧
      (img_u.write off_w page len).pages.length = img_u.pages.length ∧
      ∀ i, i ≠ off_w → (img_u.write off_w page len).pages[i]? = img_u.pages[i]? := by
  unfold Image.write
  split_ifs with hzero
  · exact ⟨rfl, rfl, fun _ _ ↦ rfl⟩
  · exact ⟨rfl, List.length_modify .., fun i hne ↦ modify_getElem?_of_ne _ hne⟩

theorem Image.write_grow (page : Page) (houtside : img_u.pages.length ≤ off_w) {len : ℕ}
    (hpos : 0 < len) (hpart : len < pagSiz) : (img_u.write off_w page len).tail ≠ [] := by
  have htake : (List.ofFn page).take len ≠ [] := by
    rw [← List.length_pos_iff, List.length_take, List.length_ofFn]
    omega
  unfold Image.write
  rw [if_neg hpos.ne', if_neg (Nat.not_lt.mpr houtside), if_neg hpart.ne]
  exact fun hnil ↦ htake (List.append_eq_nil_iff.mp hnil).1

/-! ### A patch, half applied -/

/-- An image that will hold the first `pgs_w` pages of `mem`, once the pages that `dirty` says have
been written to it. -/
structure Half (mem : ℕ → Page) (dirty : ℕ → Bool) (pgs_w : ℕ) (img_u : Image) : Prop where
  tail : img_u.tail = []
  keep : ∀ i < pgs_w, dirty i = false → img_u.pages[i]? = some (mem i)

variable {mem : ℕ → Page} {dirty : ℕ → Bool} {pgs_w : ℕ}

theorem Half.truncate (hhalf : Half mem dirty pgs_w img_u) :
    Half mem dirty pgs_w (img_u.truncate pgs_w) := by
  refine ⟨rfl, fun i hi hclean ↦ ?_⟩
  rw [Image.truncate, List.getElem?_take_of_lt hi]
  exact hhalf.keep i hi hclean

theorem Half.write (hhalf : Half mem dirty pgs_w img_u) (hdirty : dirty off_w = true)
    (page : Page) :
    Half mem dirty pgs_w (img_u.write off_w page pagSiz) := by
  obtain ⟨htail, _, _, hother⟩ := Image.write_page hhalf.tail off_w page
  refine ⟨htail, fun i hi hclean ↦ ?_⟩
  have hkeep := hhalf.keep i hi hclean
  have hinside := (List.getElem?_eq_some_iff.mp hkeep).1
  rw [hother i hinside, hkeep]
  rintro rfl
  simp [hclean] at hdirty

theorem Half.part (hhalf : Half mem dirty pgs_w img_u) (hdirty : dirty off_w = true) (page : Page)
    {len : ℕ} (hinside : len = 0 ∨ off_w < img_u.pages.length) :
    Half mem dirty pgs_w (img_u.write off_w page len) := by
  rcases hinside with rfl | hinside
  · simpa [Image.write] using hhalf
  · obtain ⟨htail, _, hother⟩ := Image.write_part hinside page len
    refine ⟨htail.trans hhalf.tail, fun i hi hclean ↦ ?_⟩
    rw [hother i, hhalf.keep i hi hclean]
    rintro rfl
    simp [hclean] at hdirty

/-! ### Both images -/

section Files

variable {mem : Seg → ℕ → Page} {dirty : Seg → ℕ → Bool} {pgs_w : Seg → ℕ} {fil_u : Files}

@[simp]
theorem Files.update_image_self (fil_u : Files) (seg : Seg) (img_u : Image) :
    (fil_u.update seg img_u).image seg = img_u := Function.update_self ..

theorem Files.update_image_of_ne (fil_u : Files) {other : Seg} (img_u : Image) (hne : other ≠ seg) :
    (fil_u.update seg img_u).image other = fil_u.image other := Function.update_of_ne hne ..

/-- Both images, half patched. -/
def Files.Half (mem : Seg → ℕ → Page) (dirty : Seg → ℕ → Bool) (pgs_w : Seg → ℕ) (fil_u : Files) :
    Prop :=
  ∀ seg, Events.Half (mem seg) (dirty seg) (pgs_w seg) (fil_u.image seg)

theorem Files.Half.update (hhalf : fil_u.Half mem dirty pgs_w)
    (himage : Events.Half (mem seg) (dirty seg) (pgs_w seg) img_u) :
    (fil_u.update seg img_u).Half mem dirty pgs_w := by
  intro other
  by_cases heq : other = seg
  · subst heq
    rwa [Files.update_image_self]
  · rw [Files.update_image_of_ne _ _ heq]
    exact hhalf other

/-- What the patch does to the images: it truncates them, and writes its pages. -/
inductive PatchOp (mem : Seg → ℕ → Page) (dirty : Seg → ℕ → Bool) (pgs_w : Seg → ℕ) : FileOp → Prop
  | truncate (seg : Seg) : PatchOp mem dirty pgs_w (.truncate seg (pgs_w seg))
  | write (seg : Seg) (off_w : ℕ) (hoff : off_w < pgs_w seg) (hdirty : dirty seg off_w = true) :
      PatchOp mem dirty pgs_w (.write seg off_w (mem seg off_w))

/-- Every operation of the patch keeps the images half patched. -/
theorem PatchOp.half (hop : PatchOp mem dirty pgs_w op) (hhalf : fil_u.Half mem dirty pgs_w) :
    (op.run fil_u).Half mem dirty pgs_w := by
  cases hop with
  | truncate seg => exact hhalf.update (hhalf seg).truncate
  | write seg off_w hoff hdirty => exact hhalf.update ((hhalf seg).write hdirty _)

theorem PatchOp.right (hop : PatchOp mem dirty pgs_w op) (hhalf : fil_u.Half mem dirty pgs_w)
    (hi : i < pgs_w seg) (hright : (fil_u.image seg).pages[i]? = some (mem seg i)) :
    ((op.run fil_u).image seg).pages[i]? = some (mem seg i) := by
  cases hop with
  | truncate other =>
    by_cases heq : seg = other
    · subst heq
      rw [FileOp.run, Files.update_image_self, Image.truncate, List.getElem?_take_of_lt hi, hright]
    · rwa [FileOp.run, Files.update_image_of_ne _ _ heq]
  | write other off_w hoff hdirty =>
    by_cases heq : seg = other
    · subst heq
      obtain ⟨_, _, hwritten, hother⟩ := Image.write_page (hhalf seg).tail off_w (mem seg off_w)
      rw [FileOp.run, Files.update_image_self]
      by_cases hoff : i = off_w
      · rw [hoff]
        exact hwritten
      · rw [hother i (List.getElem?_eq_some_iff.mp hright).1 hoff, hright]
    · rwa [FileOp.run, Files.update_image_of_ne _ _ heq]

theorem PatchOp.length_le (hop : PatchOp mem dirty pgs_w op) (hhalf : fil_u.Half mem dirty pgs_w)
    (hlength : (fil_u.image seg).pages.length ≤ pgs_w seg) :
    ((op.run fil_u).image seg).pages.length ≤ pgs_w seg := by
  cases hop with
  | truncate other =>
    by_cases heq : seg = other
    · subst heq
      rw [FileOp.run, Files.update_image_self, Image.truncate, List.length_take]
      omega
    · rwa [FileOp.run, Files.update_image_of_ne _ _ heq]
  | write other off_w hoff hdirty =>
    by_cases heq : seg = other
    · subst heq
      obtain ⟨_, hmax, _⟩ := Image.write_page (hhalf seg).tail off_w (mem seg off_w)
      rw [FileOp.run, Files.update_image_self, hmax]
      omega
    · rwa [FileOp.run, Files.update_image_of_ne _ _ heq]

theorem PatchOp.truncated :
    (((FileOp.truncate seg (pgs_w seg)).run fil_u).image seg).pages.length ≤ pgs_w seg := by
  rw [FileOp.run, Files.update_image_self, Image.truncate, List.length_take]
  omega

theorem PatchOp.written (hhalf : fil_u.Half mem dirty pgs_w) :
    (((FileOp.write seg off_w (mem seg off_w)).run fil_u).image seg).pages[off_w]? =
      some (mem seg off_w) := by
  rw [FileOp.run, Files.update_image_self]
  exact (Image.write_page (hhalf seg).tail off_w (mem seg off_w)).2.2.1

/-- What one operation of the patch brings about, and the others keep, holds after all of them. -/
theorem Files.Half.brings (hhalf : fil_u.Half mem dirty pgs_w)
    (hops : ∀ op ∈ ops, PatchOp mem dirty pgs_w op) {P : Files → Prop} (hop : op ∈ ops)
    (hnow : ∀ fil_u : Files, fil_u.Half mem dirty pgs_w → P (op.run fil_u))
    (hkeep : ∀ op, PatchOp mem dirty pgs_w op → ∀ fil_u : Files, fil_u.Half mem dirty pgs_w →
    P fil_u →
      P (op.run fil_u)) : P (exec FileOp.run ops fil_u) := by
  obtain ⟨before, after, rfl⟩ := List.append_of_mem hop
  have hmid : (exec FileOp.run before fil_u).Half mem dirty pgs_w :=
    exec_invariant hhalf fun op hop _ ↦ (hops op (List.mem_append_left _ hop)).half
  have hpatch := hops op (List.mem_append_right _ List.mem_cons_self)
  have hstay : ∀ op ∈ after, ∀ fil_u : Files, (fil_u.Half mem dirty pgs_w ∧ P fil_u) →
      (op.run fil_u).Half mem dirty pgs_w ∧ P (op.run fil_u) := by
    intro op hop fil_u hboth
    have hnext := hops op (List.mem_append_right _ (List.mem_cons_of_mem _ hop))
    exact ⟨hnext.half hboth.1, hkeep op hnext fil_u hboth.1 hboth.2⟩
  rw [exec_append, exec_cons]
  exact (exec_invariant ⟨hpatch.half hmid, hnow _ hmid⟩ hstay).2

/-- After all operations of the patch, an image is the memory. -/
theorem Files.Half.patched (hhalf : fil_u.Half mem dirty pgs_w)
    (hops : ∀ op ∈ ops, PatchOp mem dirty pgs_w op)
    (hall : ∀ i < pgs_w seg, dirty seg i = true → .write seg i (mem seg i) ∈ ops)
    (hshort : (fil_u.image seg).pages.length ≤ pgs_w seg ∨ .truncate seg (pgs_w seg) ∈ ops) :
    (exec FileOp.run ops fil_u).image seg = ⟨(List.range (pgs_w seg)).map (mem seg), []⟩ := by
  have hend : (exec FileOp.run ops fil_u).Half mem dirty pgs_w :=
    exec_invariant hhalf fun op hop _ ↦ (hops op hop).half
  have hlength : ((exec FileOp.run ops fil_u).image seg).pages.length ≤ pgs_w seg := by
    have hkeep : ∀ op, PatchOp mem dirty pgs_w op → ∀ fil_u : Files, fil_u.Half mem dirty pgs_w →
        (fil_u.image seg).pages.length ≤ pgs_w seg →
          ((op.run fil_u).image seg).pages.length ≤ pgs_w seg :=
      fun op hop fil_u hhalf hlength ↦ hop.length_le hhalf hlength
    rcases hshort with hshort | htruncate
    · have hboth : ∀ op ∈ ops, ∀ fil_u : Files,
          (fil_u.Half mem dirty pgs_w ∧ (fil_u.image seg).pages.length ≤ pgs_w seg) →
            (op.run fil_u).Half mem dirty pgs_w ∧
              ((op.run fil_u).image seg).pages.length ≤ pgs_w seg :=
        fun op hop fil_u hboth ↦ ⟨(hops op hop).half hboth.1,
          hkeep op (hops op hop) fil_u hboth.1 hboth.2⟩
      exact (exec_invariant ⟨hhalf, hshort⟩ hboth).2
    · exact hhalf.brings (P := fun fil_u ↦ (fil_u.image seg).pages.length ≤
        pgs_w seg) hops htruncate
        (fun _ _ ↦ PatchOp.truncated) hkeep
  -- every page is right at the end: a clean one always, a dirty one since it was written
  have hright : ∀ i < pgs_w seg,
      ((exec FileOp.run ops fil_u).image seg).pages[i]? = some (mem seg i) := by
    intro i hi
    cases hdirty : dirty seg i with
    | false => exact (hend seg).keep i hi hdirty
    | true =>
      exact hhalf.brings (P := fun fil_u ↦ (fil_u.image seg).pages[i]? = some (mem seg i)) hops
        (hall i hi hdirty) (fun _ hmid ↦ PatchOp.written hmid)
        fun op hop _ hmid hright ↦ hop.right hmid hi hright
  have hpages : ((exec FileOp.run ops fil_u).image seg).pages =
      (List.range (pgs_w seg)).map (mem seg) := by
    refine List.ext_getElem? fun i ↦ ?_
    by_cases hi : i < pgs_w seg
    · rw [hright i hi]
      simp [hi]
    · rw [List.getElem?_eq_none (by omega), List.getElem?_eq_none (by simpa using hi)]
  exact Image.ext hpages (hend seg).tail

end Files

/-! ### What is saved -/

section Save

variable {mug : Page → UInt32} {pol_u : Pool} {nor_w sou_w : ℕ}

/-- The pages that are saved. -/
def Pool.saved (pol_u : Pool) (nor_w sou_w : ℕ) : List ℕ :=
  (patchSavePages pol_u (pol_u.within nor_w sou_w)).1

theorem Pool.mem_within {pag_w : ℕ} :
    pag_w ∈ pol_u.within nor_w sou_w ↔
      ∃ seg i, i < water nor_w sou_w seg ∧ pol_u.page seg i = pag_w := by
  simp only [Pool.within, List.mem_append, List.mem_map, List.mem_range]
  refine ⟨?_, ?_⟩
  · rintro (⟨i, hi, hpage⟩ | ⟨i, hi, hpage⟩)
    · exact ⟨.north, i, hi, hpage⟩
    · exact ⟨.south, i, hi, hpage⟩
  · rintro ⟨seg, i, hi, hpage⟩
    cases seg with
    | north => exact .inl ⟨i, hi, hpage⟩
    | south => exact .inr ⟨i, hi, hpage⟩

/-- A page within the watermarks goes to its own place. -/
theorem patchPlace_page (hwater : nor_w + sou_w ≤ pol_u.pag_w) (hi : i < water nor_w sou_w seg) :
    patchPlace pol_u.pag_w nor_w (pol_u.page seg i) = (seg, i) := by
  cases seg with
  | north => exact if_pos hi
  | south =>
    have hi : i < sou_w := hi
    have hout : ¬pol_u.pag_w - (i + 1) < nor_w := by omega
    rw [patchPlace, Pool.page, if_neg hout]
    congr 1
    omega

theorem patchSavePages_frame (pol_u : Pool) (pages : List ℕ) :
    (patchSavePages pol_u pages).2.mem = pol_u.mem ∧
      (patchSavePages pol_u pages).2.pag_w = pol_u.pag_w ∧
      (patchSavePages pol_u pages).2.gar_w = pol_u.gar_w ∧
      (patchSavePages pol_u pages).2.pgs_w = pol_u.pgs_w := by
  induction pages generalizing pol_u with
  | nil => exact ⟨rfl, rfl, rfl, rfl⟩
  | cons pag_w rest ih =>
    unfold patchSavePages
    split_ifs
    · exact ih _
    · exact ih pol_u

theorem patchSavePages_fst {pages : List ℕ} (hnodup : pages.Nodup) :
    (patchSavePages pol_u pages).1 = pages.filter pol_u.dit_w := by
  induction pages generalizing pol_u with
  | nil => rfl
  | cons pag_w rest ih =>
    obtain ⟨hnew, hrest⟩ := List.nodup_cons.mp hnodup
    unfold patchSavePages
    split_ifs with hdirty
    · rw [List.filter_cons_of_pos hdirty]
      show pag_w :: _ = _
      rw [ih hrest]
      refine congrArg (pag_w :: ·) (List.filter_congr fun other hother ↦ ?_)
      exact Function.update_of_ne (fun heq : other = pag_w ↦ hnew (heq ▸ hother)) ..
    · rw [List.filter_cons_of_neg (by simpa using hdirty), ih hrest]

/-- A page that has been saved is clean and protected, and no other page has changed. -/
theorem patchSavePages_snd (pol_u : Pool) (pages : List ℕ) (pag_w : ℕ) :
    (patchSavePages pol_u pages).2.dit_w pag_w = (pol_u.dit_w pag_w && decide (pag_w ∉ pages)) ∧
      (patchSavePages pol_u pages).2.prot pag_w =
        if pol_u.dit_w pag_w = true ∧ pag_w ∈ pages then .read else pol_u.prot pag_w := by
  induction pages generalizing pol_u with
  | nil => simp [patchSavePages]
  | cons head rest ih =>
    by_cases hdirty : pol_u.dit_w head = true
    · rw [patchSavePages, if_pos hdirty]
      obtain ⟨hdit, hprot⟩ := ih { pol_u with
        dit_w := Function.update pol_u.dit_w head false
        prot := Function.update pol_u.prot head .read }
      refine ⟨hdit.trans ?_, hprot.trans ?_⟩
      · by_cases heq : pag_w = head
        · simp [heq]
        · simp [heq]
      · by_cases heq : pag_w = head
        · simp [heq, hdirty]
        · simp [heq]
    · rw [patchSavePages, if_neg hdirty]
      obtain ⟨hdit, hprot⟩ := ih pol_u
      refine ⟨hdit.trans ?_, hprot.trans ?_⟩
      · by_cases heq : pag_w = head
        · simp [heq, hdirty]
        · simp [heq]
      · by_cases heq : pag_w = head
        · simp [heq, hdirty]
        · simp [heq]

theorem Pool.within_nodup (hwater : nor_w + sou_w ≤ pol_u.pag_w) :
    (pol_u.within nor_w sou_w).Nodup := by
  refine List.nodup_append.mpr ⟨?_, ?_, ?_⟩
  · exact List.nodup_range.map fun _ _ heq ↦ heq
  · refine List.nodup_range.map_on fun i hi j hj heq ↦ ?_
    have hi := List.mem_range.mp hi
    have hj := List.mem_range.mp hj
    simp only [Pool.page] at heq
    omega
  · intro pag_w hnorth other hsouth heq
    obtain ⟨i, hi, rfl⟩ := List.mem_map.mp hnorth
    obtain ⟨j, hj, rfl⟩ := List.mem_map.mp hsouth
    have hi := List.mem_range.mp hi
    have hj := List.mem_range.mp hj
    simp only [Pool.page] at heq
    omega

/-- The write of a page of the patch. -/
def Pool.writeOp (pol_u : Pool) (nor_w pag_w : ℕ) : FileOp :=
  .write (patchPlace pol_u.pag_w nor_w pag_w).1 (patchPlace pol_u.pag_w nor_w pag_w).2
    (pol_u.mem pag_w)

theorem patchApplyLoop_eq (mug : Page → UInt32) (pol_u : Pool) (nor_w : ℕ) (saved : List ℕ) :
    patchApplyLoop pol_u.pag_w nor_w (saved.map fun pag_w ↦ ⟨pag_w, mug (pol_u.mem pag_w)⟩)
      (saved.map pol_u.mem) = some (saved.map (pol_u.writeOp nor_w)) := by
  induction saved with
  | nil => rfl
  | cons pag_w rest ih =>
    simp only [List.map_cons, patchApplyLoop, ih, bind, Option.bind]
    rfl

theorem patchVerifyLines_eq (mug : Page → UInt32) (pol_u : Pool) (saved : List ℕ)
    (before : List Page) :
    patchVerifyLines mug ⟨before ++ saved.map pol_u.mem, []⟩
      (saved.map fun pag_w ↦ ⟨pag_w, mug (pol_u.mem pag_w)⟩) before.length = true := by
  induction saved generalizing before with
  | nil => rfl
  | cons pag_w rest ih =>
    have hnext := ih (before ++ [pol_u.mem pag_w])
    rw [List.append_assoc, List.length_append, List.length_singleton] at hnext
    simp only [List.map_cons, patchVerifyLines,
      List.getElem?_append_right (Nat.le_refl before.length), Nat.sub_self, List.getElem?_cons_zero,
      decide_true, Bool.true_and]
    exact hnext

/-- The pages of the patch, one after the other. -/
theorem exec_writeMemory (pages before : List Page) (fil_u : Files)
    (hmemory : fil_u.memory = some ⟨before, []⟩) :
    exec FileOp.run ((pages.zipIdx before.length).map fun (page, pgc_w) ↦ .writeMemory pgc_w page)
      fil_u = { fil_u with memory := some ⟨before ++ pages, []⟩ } := by
  induction pages generalizing before fil_u with
  | nil =>
    rw [List.append_nil, ← hmemory]
    rfl
  | cons page pages ih =>
    have hwrite : (⟨before, []⟩ : Image).write before.length page pagSiz =
        ⟨before ++ [page], []⟩ := by
      simp [Image.write, Image.pad, pagSiz_pos.ne']
    rw [List.zipIdx_cons, List.map_cons, exec_cons]
    have hnext := ih (before ++ [page]) { fil_u with memory := some ⟨before ++ [page], []⟩ } rfl
    rw [List.length_append, List.length_singleton, List.append_assoc] at hnext
    simp only [FileOp.run, hmemory, Option.map_some, hwrite]
    exact hnext

/-- The patch is on disk. -/
theorem exec_composeOps (con_u : Control) (pages : List Page) (fil_u : Files) :
    exec FileOp.run (composeOps con_u pages) fil_u =
      { fil_u with control := some (con_u, con_u.size), memory := some ⟨pages, []⟩ } := by
  rw [composeOps, exec_append, exec_append]
  have hpages :=
    exec_writeMemory pages [] (exec FileOp.run [.createControl, .createMemory] fil_u) rfl
  rw [List.length_nil] at hpages
  rw [hpages]
  rfl

/-- The control block of the patch. -/
def Pool.control (mug : Page → UInt32) (pol_u : Pool) (nor_w sou_w : ℕ) (saved : List ℕ) :
    Control :=
  ⟨1, nor_w, sou_w, saved.map fun pag_w ↦ ⟨pag_w, mug (pol_u.mem pag_w)⟩⟩

/-- What applying the patch does. -/
def Pool.patchOps (mug : Page → UInt32) (pol_u : Pool) (nor_w sou_w : ℕ) (pgs_w : Seg → ℕ)
    (saved : List ℕ) : List FileOp :=
  resizeOps pgs_w (pol_u.control mug nor_w sou_w saved) .north ++
    resizeOps pgs_w (pol_u.control mug nor_w sou_w saved) .south ++ saved.map (pol_u.writeOp nor_w)

theorem applyOps_control (mug : Page → UInt32) (pol_u : Pool) (nor_w sou_w : ℕ) (pgs_w : Seg → ℕ)
    (saved : List ℕ) :
    applyOps pol_u.pag_w pgs_w (pol_u.control mug nor_w sou_w saved) ⟨saved.map pol_u.mem, []⟩ =
      some (pol_u.patchOps mug nor_w sou_w pgs_w saved) := by
  have hloop := patchApplyLoop_eq mug pol_u nor_w saved
  simp only [applyOps, Pool.control, hloop, bind, Option.bind]
  rfl

theorem patchVerify_control (saved : List ℕ) :
    patchVerify mug (pol_u.control mug nor_w sou_w saved) ⟨saved.map pol_u.mem, []⟩ = true := by
  have hlines := patchVerifyLines_eq mug pol_u saved []
  simpa [patchVerify, Pool.control] using hlines

theorem mem_resizeOps {pgs_w : Seg → ℕ} {con_u : Control} :
    op ∈ resizeOps pgs_w con_u seg ↔
      con_u.pgs seg < pgs_w seg ∧ op = .truncate seg (con_u.pgs seg) := by
  unfold resizeOps
  split_ifs with hshrink
  · simp [hshrink]
  · simp [hshrink]

/-- What `u3e_save()` does to the files when it saves these pages. -/
def Pool.saveOps (mug : Page → UInt32) (pol_u : Pool) (nor_w sou_w : ℕ) (saved : List ℕ) :
    List FileOp :=
  composeOps (pol_u.control mug nor_w sou_w saved) (saved.map pol_u.mem) ++
    (pol_u.patchOps mug nor_w sou_w pol_u.pgs_w saved ++ deleteOps)

theorem Control.pgs_control (saved : List ℕ) :
    (pol_u.control mug nor_w sou_w saved).pgs = water nor_w sou_w := rfl

/-- `u3e_save()`, when its assertions hold. -/
theorem u3eSave_eq (mug : Page → UInt32) (fil_u : Files)
    (hguard : nor_w ≤ pol_u.gar_w ∧ pol_u.gar_w ≤ u3aPages - (sou_w + 1)) :
    u3eSave mug pol_u fil_u nor_w sou_w =
      if (pol_u.within nor_w sou_w).countP pol_u.dit_w = 0 then some ([], pol_u)
      else if fil_u.control.isSome ∨ fil_u.memory.isSome then none
      else some (pol_u.saveOps mug nor_w sou_w (pol_u.saved nor_w sou_w),
        { (patchSavePages pol_u (pol_u.within nor_w sou_w)).2 with pgs_w := water nor_w sou_w
          }) := by
  obtain ⟨hmem, hpag, _, hpgs⟩ := patchSavePages_frame pol_u (pol_u.within nor_w sou_w)
  rcases hpages : patchSavePages pol_u (pol_u.within nor_w sou_w) with ⟨saved, pool⟩
  have hsaved : pol_u.saved nor_w sou_w = saved := by rw [Pool.saved, hpages]
  simp only [hpages] at hmem hpag hpgs
  have hcompose : patchCompose mug pol_u nor_w sou_w =
      if (pol_u.within nor_w sou_w).countP pol_u.dit_w = 0 then some (none, pol_u)
      else some (some (pol_u.control mug nor_w sou_w saved, saved.map pol_u.mem), pool) := by
    simp only [patchCompose, if_neg (not_not.mpr hguard), hpages, hmem, Pool.control]
  by_cases hclean : (pol_u.within nor_w sou_w).countP pol_u.dit_w = 0
  · simp only [u3eSave, hcompose, if_pos hclean, bind, Option.bind]
  · have happly := applyOps_control mug pol_u nor_w sou_w pol_u.pgs_w saved
    simp only [u3eSave, hcompose, if_neg hclean, bind, Option.bind, patchCreate, exec_composeOps,
      patchVerify_control, if_true, hpag, hpgs, happly, Control.pgs_control, hsaved]
    split_ifs
    · rfl
    · rfl

/-- What `u3e_save()` can do. -/
theorem u3eSave_cases {fil_u : Files} {next : Pool}
    (hsave : u3eSave mug pol_u fil_u nor_w sou_w = some (ops, next)) :
    ((∀ pag_w ∈ pol_u.within nor_w sou_w, pol_u.dit_w pag_w = false) ∧ ops = [] ∧ next = pol_u) ∨
      ((∃ pag_w ∈ pol_u.within nor_w sou_w, pol_u.dit_w pag_w = true) ∧
        fil_u.control = none ∧ fil_u.memory = none ∧
        ops = pol_u.saveOps mug nor_w sou_w (pol_u.saved nor_w sou_w) ∧
        next = { (patchSavePages pol_u (pol_u.within nor_w sou_w)).2 with
          pgs_w := water nor_w sou_w }) := by
  by_cases hguard : nor_w ≤ pol_u.gar_w ∧ pol_u.gar_w ≤ u3aPages - (sou_w + 1)
  · rw [u3eSave_eq mug fil_u hguard] at hsave
    split_ifs at hsave with hclean hthere
    · obtain ⟨rfl, rfl⟩ := Prod.mk.inj (Option.some.inj hsave)
      exact .inl ⟨by simpa [List.countP_eq_zero] using hclean, rfl, rfl⟩
    · obtain ⟨rfl, rfl⟩ := Prod.mk.inj (Option.some.inj hsave)
      simp only [not_or, Option.not_isSome_iff_eq_none] at hthere
      exact .inr ⟨by simpa [List.countP_eq_zero] using hclean, hthere.1, hthere.2, rfl, rfl⟩
  · simp [u3eSave, patchCompose, hguard] at hsave

end Save

/-! ### What is loaded -/

section Live

variable {mug : Page → UInt32} {junk pag_w : ℕ} {pol_u : Pool} {fil_u : Files} {pgs_w : Seg → ℕ}

/-- `u3e_live()` takes a snapshot of this many pages. -/
def Fits (pgs_w : Seg → ℕ) : Prop := pgs_w .north + pgs_w .south + 1 < u3aPages

/-- The loom has the pages of a snapshot. -/
structure Pool.Loaded (pol_u : Pool) (pages : Seg → List Page) : Prop where
  pgs : ∀ seg, pol_u.pgs_w seg = (pages seg).length
  mem : ∀ seg i page, (pages seg)[i]? = some page → pol_u.mem (pol_u.page seg i) = page

theorem Files.blit_page (hlength : ∀ seg, (fil_u.image seg).pages.length = pgs_w seg)
    (hfit : pgs_w .north + pgs_w .south ≤ pol_u.pag_w)
    (hpage : (fil_u.image seg).pages[i]? = some page) :
    fil_u.blit pol_u.pag_w pgs_w (pol_u.page seg i) = some page := by
  have hi : i < pgs_w seg := hlength seg ▸ (List.getElem?_eq_some_iff.mp hpage).1
  cases seg with
  | north =>
    have hnorth : ¬(pol_u.pag_w ≤ i + pgs_w .south ∧ i < pol_u.pag_w) := by omega
    rw [Files.blit, Pool.page, if_neg hnorth, if_pos hi, hpage]
  | south =>
    have hsouth : pol_u.pag_w ≤ pol_u.pag_w - (i + 1) + pgs_w .south ∧
        pol_u.pag_w - (i + 1) < pol_u.pag_w := by omega
    have hplace : pol_u.pag_w - (pol_u.pag_w - (i + 1) + 1) = i := by omega
    rw [Files.blit, Pool.page, if_pos hsouth, hplace, hpage]

/-- `u3e_live()` loads the images that it has made. -/
theorem u3eLive_loads (hops : liveOps mug junk pol_u.pag_w fil_u = some (ops, pgs_w))
    (hlength : ∀ seg, ((exec FileOp.run ops fil_u).image seg).pages.length = pgs_w seg)
    (hfit : pgs_w .north + pgs_w .south ≤ pol_u.pag_w) (hfits : Fits pgs_w) :
    u3eLive mug junk pol_u fil_u =
        some (pol_u.blit (exec FileOp.run ops fil_u) pgs_w, exec FileOp.run ops fil_u) ∧
      (pol_u.blit (exec FileOp.run ops fil_u) pgs_w).Loaded
        fun seg ↦ ((exec FileOp.run ops fil_u).image seg).pages := by
  unfold Fits at hfits
  have hnorth : ¬((exec FileOp.run ops fil_u).image .north).pages.length < pgs_w .north := by
    rw [hlength]
    omega
  have hsouth : ¬((exec FileOp.run ops fil_u).image .south).pages.length < pgs_w .south := by
    rw [hlength]
    omega
  refine ⟨?_, fun seg ↦ (hlength seg).symm, fun seg i page hpage ↦ ?_⟩
  · simp only [u3eLive, hops, bind, Option.bind, if_neg (Nat.not_le.mpr hfits), if_neg hnorth,
      if_neg hsouth]
  · show ((exec FileOp.run ops fil_u).blit pol_u.pag_w pgs_w (pol_u.page seg i)).getD _ = page
    rw [Files.blit_page hlength hfit hpage]
    rfl

theorem u3eLive_too_big (hops : liveOps mug junk pol_u.pag_w fil_u = some (ops, pgs_w))
    (hbig : ¬Fits pgs_w) : u3eLive mug junk pol_u fil_u = none := by
  have hbig : u3aPages ≤ pgs_w .north + pgs_w .south + 1 := Nat.not_lt.mp hbig
  simp only [u3eLive, hops, bind, Option.bind, if_pos hbig]

theorem u3eLive_corrupt (seg : Seg) (htail : (fil_u.image seg).tail ≠ []) :
    u3eLive mug junk pol_u fil_u = none := by
  have hopen : imageOpen (fil_u.image seg) = none := by
    simp [imageOpen, htail]
  cases seg with
  | north => simp [u3eLive, liveOps, hopen]
  | south => simp [u3eLive, liveOps, hopen]

theorem water_eta (pgs_w : Seg → ℕ) : water (pgs_w .north) (pgs_w .south) = pgs_w := by
  funext seg
  cases seg with
  | north => rfl
  | south => rfl

/-- With whole images, what `u3e_live()` does depends on the patch. -/
theorem liveOps_eq (htail : ∀ seg, (fil_u.image seg).tail = []) :
    liveOps mug junk pag_w fil_u =
      match patchOpen mug junk fil_u with
      | .none => some ([], fun seg ↦ (fil_u.image seg).pages.length)
      | .delete => some (deleteOps, fun seg ↦ (fil_u.image seg).pages.length)
      | .apply con_u mem_i =>
        (applyOps pag_w (fun seg ↦ (fil_u.image seg).pages.length) con_u mem_i).map
          fun ops ↦ (ops ++ deleteOps, con_u.pgs) := by
  have hnorth : imageOpen (fil_u.image .north) = some (fil_u.image .north).pages.length := by
    simp [imageOpen, htail]
  have hsouth : imageOpen (fil_u.image .south) = some (fil_u.image .south).pages.length := by
    simp [imageOpen, htail]
  simp only [liveOps, hnorth, hsouth, bind, Option.bind]
  rw [water_eta fun seg ↦ (fil_u.image seg).pages.length]
  cases patchOpen mug junk fil_u with
  | none => rfl
  | delete => rfl
  | apply con_u mem_i =>
    dsimp only
    cases applyOps pag_w (fun seg ↦ (fil_u.image seg).pages.length) con_u mem_i with
    | none => rfl
    | some ops => rfl

end Live

end Vere.Noun.Events
