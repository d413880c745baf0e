import Mathlib.Algebra.Group.Nat.Defs
import Vere.Lib.Crash
import Mathlib.Data.List.Range
import Mathlib.Logic.Function.Basic

/-!
# Snapshots of the loom

`pkg/noun/events.c`. The loom is an array of pages. Its low pages, up to a watermark, are kept in
the north image, and its high pages, down to another, in the south image. A page that is stored to
is marked dirty; `u3e_save()` writes the dirty pages within the watermarks to a patch, and applies
the patch to the images. `u3e_live()` applies a patch that was left behind, and copies the images to
the loom.

What these calls do to the files is a list of operations, so that the model has the states that a
crash leaves. A failed assertion, or an exit, is `none`.
-/

set_option autoImplicit false

namespace Vere.Noun.Events

open Lib.Crash

/-! ### Pages and images -/

/-- `pag_wiz_i`: the words of a page. -/
def pagWiz : ℕ := 2 ^ 12

/-- `pag_siz_i`: the bytes of a page. -/
@[irreducible]
def pagSiz : ℕ := 4 * pagWiz

/-- `u3a_pages`: the largest number of pages. -/
def u3aPages : ℕ := 2 ^ (30 - 12)

abbrev Page := Fin pagSiz → UInt8

/-- The first bytes of one page over another. -/
def Page.mix (page old : Page) (len : ℕ) : Page := fun i ↦ if i.val < len then page i else old i

/-- The page that bytes make, when the file is extended past them. -/
def Page.ofBytes (bytes : List UInt8) : Page := fun i ↦ bytes.getD i 0

/-- A file of pages: its whole pages, and the bytes after them. -/
@[ext]
structure Image where
  pages : List Page
  tail : List UInt8

/-- A file that is extended to the place of a page: a gap is filled with zeros. -/
def Image.pad (img_u : Image) (off_w : ℕ) : Image :=
  if off_w = img_u.pages.length then img_u
  else ⟨img_u.pages ++ Page.ofBytes img_u.tail ::
    List.replicate (off_w - (img_u.pages.length + 1)) (Page.ofBytes []), []⟩

/-- `lseek()` to a page and `write()` of the first bytes of another. -/
def Image.write (img_u : Image) (off_w : ℕ) (page : Page) (len : ℕ) : Image :=
  if len = 0 then img_u
  else if off_w < img_u.pages.length then
    { img_u with pages := img_u.pages.modify off_w fun old ↦ page.mix old len }
  else if len = pagSiz then ⟨(img_u.pad off_w).pages ++ [page], []⟩
  else ⟨(img_u.pad off_w).pages, (List.ofFn page).take len ++ (img_u.pad off_w).tail.drop len⟩

/-- `ftruncate()` to a number of pages, which is only called to shrink. -/
def Image.truncate (img_u : Image) (pgs_w : ℕ) : Image := ⟨img_u.pages.take pgs_w, []⟩

/-- The two images. -/
inductive Seg
  | north
  | south
  deriving DecidableEq

/-- A number of pages for each image. -/
def water (nor_w sou_w : ℕ) : Seg → ℕ
  | .north => nor_w
  | .south => sou_w

/-! ### Files -/

/-- `u3e_line`. -/
structure Line where
  pag_w : ℕ
  mug_w : UInt32

/-- `u3e_control`. `pgs_w` is the length of `mem_u`. -/
structure Control where
  ver_y : ℕ
  nor_w : ℕ
  sou_w : ℕ
  mem_u : List Line

/-- The bytes of a control block. -/
def Control.size (con_u : Control) : ℕ := 16 + 8 * con_u.mem_u.length

def Control.pgs (con_u : Control) : Seg → ℕ := water con_u.nor_w con_u.sou_w

/-- The checkpoint directory. `control.bin` has the first bytes of a control block. -/
structure Files where
  image : Seg → Image
  control : Option (Control × ℕ)
  memory : Option Image

/-- What `events.c` does to the files. -/
inductive FileOp
  | createControl
  | createMemory
  | writeMemory (pgc_w : ℕ) (page : Page)
  | writeControl (con_u : Control)
  | truncate (seg : Seg) (pgs_w : ℕ)
  | write (seg : Seg) (off_w : ℕ) (page : Page)
  | unlinkControl
  | unlinkMemory

def Files.update (fil_u : Files) (seg : Seg) (img_u : Image) : Files :=
  { fil_u with image := Function.update fil_u.image seg img_u }

def FileOp.run : FileOp → Files → Files
  | .createControl, fil_u => { fil_u with control := some (⟨0, 0, 0, []⟩, 0) }
  | .createMemory, fil_u => { fil_u with memory := some ⟨[], []⟩ }
  | .writeMemory pgc_w page, fil_u =>
    { fil_u with memory := fil_u.memory.map fun img_u ↦ img_u.write pgc_w page pagSiz }
  | .writeControl con_u, fil_u => { fil_u with control := some (con_u, con_u.size) }
  | .truncate seg pgs_w, fil_u => fil_u.update seg ((fil_u.image seg).truncate pgs_w)
  | .write seg off_w page, fil_u => fil_u.update seg ((fil_u.image seg).write off_w page pagSiz)
  | .unlinkControl, fil_u => { fil_u with control := none }
  | .unlinkMemory, fil_u => { fil_u with memory := none }

/-- An operation that has got as far as some of its bytes. Only writes have bytes. -/
def FileOp.part : FileOp → ℕ → Files → Files
  | .writeMemory pgc_w page, len, fil_u =>
    { fil_u with memory := fil_u.memory.map fun img_u ↦ img_u.write pgc_w page len }
  | .writeControl con_u, len, fil_u => { fil_u with control := some (con_u, len) }
  | .write seg off_w page, len, fil_u =>
    fil_u.update seg ((fil_u.image seg).write off_w page len)
  | _, _, fil_u => fil_u

/-! ### The pool -/

/-- The protection of a page. -/
inductive Prot
  | readWrite
  | read
  | none
  deriving DecidableEq

/-- `u3e_pool`, with the loom and its protection. `gar_w` is the guard page. -/
structure Pool where
  pag_w : ℕ
  mem : ℕ → Page
  dit_w : ℕ → Bool
  prot : ℕ → Prot
  gar_w : ℕ
  pgs_w : Seg → ℕ

/-- The page of the loom that a page of an image is of. -/
def Pool.page (pol_u : Pool) : Seg → ℕ → ℕ
  | .north, i_w => i_w
  | .south, i_w => pol_u.pag_w - (i_w + 1)

/-! ### Saving -/

variable (mug : Page → UInt32)

/-- The pages within the watermarks, in the order of the loops of `_ce_patch_compose()`. -/
def Pool.within (pol_u : Pool) (nor_w sou_w : ℕ) : List ℕ :=
  (List.range nor_w).map (pol_u.page .north) ++ (List.range sou_w).map (pol_u.page .south)

/-- `_ce_patch_save_page()` of each page: the pages that are saved, and the pool after it. -/
def patchSavePages (pol_u : Pool) : List ℕ → List ℕ × Pool
  | [] => ([], pol_u)
  | pag_w :: rest =>
    if pol_u.dit_w pag_w then
      let (saved, pol_u) := patchSavePages { pol_u with
        dit_w := Function.update pol_u.dit_w pag_w false
        prot := Function.update pol_u.prot pag_w .read } rest
      (pag_w :: saved, pol_u)
    else patchSavePages pol_u rest

/-- `_ce_patch_compose()`: the control block, its pages, and the pool after it. -/
def patchCompose (pol_u : Pool) (nor_w sou_w : ℕ) : Option (Option (Control × List Page) × Pool) :=
  if ¬(nor_w ≤ pol_u.gar_w ∧ pol_u.gar_w ≤ u3aPages - (sou_w + 1)) then none
  else if (pol_u.within nor_w sou_w).countP pol_u.dit_w = 0 then some (none, pol_u)
  else
    let (saved, pol_u) := patchSavePages pol_u (pol_u.within nor_w sou_w)
    some (some (⟨1, nor_w, sou_w, saved.map fun pag_w ↦ ⟨pag_w, mug (pol_u.mem pag_w)⟩⟩,
      saved.map pol_u.mem), pol_u)

/-- The files that `_ce_patch_compose()` makes. -/
def composeOps (con_u : Control) (pages : List Page) : List FileOp :=
  [.createControl, .createMemory] ++
    (pages.zipIdx.map fun (page, pgc_w) ↦ .writeMemory pgc_w page) ++ [.writeControl con_u]

/-- `_ce_patch_verify()`, over the control lines. -/
def patchVerifyLines (mem_i : Image) : List Line → ℕ → Bool
  | [], _ => true
  | lin_u :: rest, i_w =>
    match mem_i.pages[i_w]? with
    | none => false
    | some page => decide (mug page = lin_u.mug_w) && patchVerifyLines mem_i rest (i_w + 1)

/-- `_ce_patch_verify()`: check patch data mug. -/
def patchVerify (con_u : Control) (mem_i : Image) : Bool :=
  decide (con_u.ver_y = 1) && patchVerifyLines mug mem_i con_u.mem_u 0

/-- The images that `_ce_image_resize()` truncates. -/
def resizeOps (pgs_w : Seg → ℕ) (con_u : Control) (seg : Seg) : List FileOp :=
  if con_u.pgs seg < pgs_w seg then [.truncate seg (con_u.pgs seg)] else []

/-- The place of a page in an image. -/
def patchPlace (pag_w nor_w pag : ℕ) : Seg × ℕ :=
  if pag < nor_w then (.north, pag) else (.south, pag_w - (pag + 1))

/-- The loop of `_ce_patch_apply()`: each page is read from the patch and written to an image. -/
def patchApplyLoop (pag_w nor_w : ℕ) : List Line → List Page → Option (List FileOp)
  | [], _ => some []
  | _ :: _, [] => none
  | lin_u :: rest, page :: pages => do
    let (seg, off_w) := patchPlace pag_w nor_w lin_u.pag_w
    let ops ← patchApplyLoop pag_w nor_w rest pages
    some (.write seg off_w page :: ops)

/-- `_ce_patch_apply()`: apply patch to images. -/
def applyOps (pag_w : ℕ) (pgs_w : Seg → ℕ) (con_u : Control) (mem_i : Image) :
    Option (List FileOp) := do
  let ops ← patchApplyLoop pag_w con_u.nor_w con_u.mem_u mem_i.pages
  some (resizeOps pgs_w con_u .north ++ resizeOps pgs_w con_u .south ++ ops)

/-- `_ce_patch_delete()`: delete a patch. -/
def deleteOps : List FileOp := [.unlinkControl, .unlinkMemory]

/-- `_ce_patch_create()`: neither file may be there. -/
def patchCreate (fil_u : Files) : Option Unit :=
  if fil_u.control.isSome ∨ fil_u.memory.isSome then none else some ()

/-- `u3e_save()`: what it does to the files, and the pool after it. Without a patch it does nothing.
-/
def u3eSave (pol_u : Pool) (fil_u : Files) (nor_w sou_w : ℕ) : Option (List FileOp × Pool) := do
  match ← patchCompose mug pol_u nor_w sou_w with
  | (none, pol_u) => some ([], pol_u)
  | (some (con_u, pages), pol_u) => do
    patchCreate fil_u
    let mem_i ← (exec FileOp.run (composeOps con_u pages) fil_u).memory
    if patchVerify mug con_u mem_i then do
      let ops ← applyOps pol_u.pag_w pol_u.pgs_w con_u mem_i
      some (composeOps con_u pages ++ (ops ++ deleteOps), { pol_u with pgs_w := con_u.pgs })
    else none

/-! ### Restoring -/

/-- `_ce_patch_read_control()`. The number of pages is not in the file when it is short of it, and
is then what the buffer holds. -/
def patchReadControl (junk : ℕ) : Control × ℕ → Option Control
  | (con_u, len) =>
    let pgs_w := if 16 ≤ len then con_u.mem_u.length else junk
    if len = 16 + 8 * pgs_w then some con_u else none

/-- What `_ce_patch_open()` finds: no patch, one that it deletes, or one that can be applied. -/
inductive PatchOpen
  | none
  | delete
  | apply (con_u : Control) (mem_i : Image)

/-- `_ce_patch_open()`: open patch, if any. -/
def patchOpen (junk : ℕ) (fil_u : Files) : PatchOpen :=
  match fil_u.control, fil_u.memory with
  | none, _ => .none
  | some _, none => .delete
  | some ctl, some mem_i =>
    match patchReadControl junk ctl with
    | none => .delete
    | some con_u => if patchVerify mug con_u mem_i then .apply con_u mem_i else .delete

/-- `_ce_image_open()`: the number of pages, of a file that has only whole ones. -/
def imageOpen (img_u : Image) : Option ℕ :=
  if img_u.tail.isEmpty then some img_u.pages.length else none

/-- What `u3e_live()` does to the files, and the pages of the images after it. -/
def liveOps (junk pag_w : ℕ) (fil_u : Files) : Option (List FileOp × (Seg → ℕ)) := do
  let nor_w ← imageOpen (fil_u.image .north)
  let sou_w ← imageOpen (fil_u.image .south)
  let pgs_w := water nor_w sou_w
  match patchOpen mug junk fil_u with
  | .none => some ([], pgs_w)
  | .delete => some (deleteOps, pgs_w)
  | .apply con_u mem_i => do
    let ops ← applyOps pag_w pgs_w con_u mem_i
    some (ops ++ deleteOps, con_u.pgs)

/-- The page of an image that `_ce_image_blit()` puts in a page of the loom. -/
def Files.blit (fil_u : Files) (pag_w : ℕ) (pgs_w : Seg → ℕ) (pag : ℕ) : Option Page :=
  if pag_w ≤ pag + pgs_w .south ∧ pag < pag_w then
    (fil_u.image .south).pages[pag_w - (pag + 1)]?
  else if pag < pgs_w .north then (fil_u.image .north).pages[pag]?
  else none

/-- `u3e_foul()`, and `_ce_image_blit()` of both images. The loom is as it was where no image is
copied to it. -/
def Pool.blit (pol_u : Pool) (fil_u : Files) (pgs_w : Seg → ℕ) : Pool :=
  { pol_u with
    mem := fun pag ↦ (fil_u.blit pol_u.pag_w pgs_w pag).getD (pol_u.mem pag)
    dit_w := fun pag ↦ (fil_u.blit pol_u.pag_w pgs_w pag).isNone
    prot := fun pag ↦ if (fil_u.blit pol_u.pag_w pgs_w pag).isNone then pol_u.prot pag else .read
    pgs_w := pgs_w }

/-- `u3e_live()`: the pool, and the files after it. -/
def u3eLive (junk : ℕ) (pol_u : Pool) (fil_u : Files) : Option (Pool × Files) := do
  let (ops, pgs_w) ← liveOps mug junk pol_u.pag_w fil_u
  let fil_u := exec FileOp.run ops fil_u
  if u3aPages ≤ pgs_w .north + pgs_w .south + 1 then none
  else if (fil_u.image .north).pages.length < pgs_w .north then none
  else if (fil_u.image .south).pages.length < pgs_w .south then none
  else some (pol_u.blit fil_u pgs_w, fil_u)

end Vere.Noun.Events
