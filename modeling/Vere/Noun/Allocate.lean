import Mathlib.Data.Nat.Bitwise
import Mathlib.Logic.Function.Basic

/-!
# The allocator

`pkg/noun/allocate.c`: boxes on the heap of a road. The loom is a memory of words. A box starts with
its size and its use count and ends with its size; a free box has two links after the use count. The
heap of a north road grows up from the rut to the hat, that of a south road down from the rut to the
hat, and the cap is on the other side of the hat.

Sizes and posts are natural numbers: the loom has at most `2 ^ 30` words, so that sums of them fit
in a word. Where a length comes from the caller the arithmetic of words is written out.
-/

set_option autoImplicit false

namespace Vere.Noun.Allocate

/-- Why a call does not return: `u3m_bail(c3__meme)`, a failed `c3_assert()`, or not enough steps
for a search. -/
inductive Fault
  | meme : Fault
  | assertion : Fault
  | steps : Fault
  deriving DecidableEq, Repr

/-- `u3a_minimum`. -/
def minimum : ℕ := 6

/-- `u3a_fbox_no`. -/
def fboxNo : ℕ := 27

/-- `u3_road`, of which the allocator uses the bounds and the pools, with the loom. `home` is
whether it is the home road. -/
structure Road where
  home : Bool
  cap_p : ℕ
  hat_p : ℕ
  rut_p : ℕ
  fre_p : ℕ → ℕ
  cel_p : ℕ
  loom : ℕ → ℕ

/-- Write a word of the loom. -/
def Road.put (r : Road) (w v : ℕ) : Road := { r with loom := Function.update r.loom w v }

/-- `u3a_is_north()`. -/
def Road.isNorth (r : Road) : Bool := r.hat_p < r.cap_p

/-! ### Boxes

The words of a box are `siz_w`, `use_w` and, in a free box, `pre_p` and `nex_p`. -/

/-- The loop of `_box_slot()`, by the number of lists that are left. -/
def boxSlotLoop : ℕ → ℕ → ℕ
  | 0, _ => fboxNo - 1
  | left + 1, siz_w =>
    if siz_w < 16 then fboxNo - (left + 1) else boxSlotLoop left (((siz_w + 1) % 2 ^ 32) >>> 1)

/-- `_box_slot()`: the free list for a size. -/
def boxSlot (siz_w : ℕ) : ℕ :=
  if siz_w < minimum then 0 else boxSlotLoop (fboxNo - 1) siz_w

/-- `_box_make()`. -/
def boxMake (r : Road) (box siz_w use_w : ℕ) : Except Fault Road :=
  if siz_w < minimum then .error .assertion
  else .ok (((r.put box siz_w).put (box + siz_w - 1) siz_w).put (box + 1) use_w)

/-- `_box_attach()`. -/
def boxAttach (r : Road) (box : ℕ) : Except Fault Road :=
  if r.loom box < 1 + 4 ∨ box = 0 then .error .assertion
  else
    let sel_w := boxSlot (r.loom box)
    let nex_p := r.fre_p sel_w
    let r := (r.put (box + 2) 0).put (box + 3) nex_p
    let r := if nex_p ≠ 0 then r.put (nex_p + 2) box else r
    .ok { r with fre_p := Function.update r.fre_p sel_w box }

/-- `_box_detach()`. -/
def boxDetach (r : Road) (box : ℕ) : Except Fault Road := do
  let pre_p := r.loom (box + 2)
  let nex_p := r.loom (box + 3)
  let r ← if nex_p ≠ 0 then
      if r.loom (nex_p + 2) ≠ box then .error .assertion else .ok (r.put (nex_p + 2) pre_p)
    else .ok r
  if pre_p ≠ 0 then
    if r.loom (pre_p + 3) ≠ box then .error .assertion else .ok (r.put (pre_p + 3) nex_p)
  else
    let sel_w := boxSlot (r.loom box)
    if box ≠ r.fre_p sel_w then .error .assertion
    else .ok { r with fre_p := Function.update r.fre_p sel_w nex_p }

/-- `_box_free()` on a box whose use count has become zero: coalesce with the box below. -/
def boxFreeBelow (r : Road) (box : ℕ) : Except Fault (Road × ℕ) :=
  let laz_w := r.loom (box - 1)
  let pox := box - laz_w
  if r.loom (pox + 1) = 0 then do
    let r ← boxDetach r pox
    let r ← boxMake r pox (laz_w + r.loom box) 0
    .ok (r, pox)
  else .ok (r, box)

/-- `_box_free()` on a box whose use count has become zero: coalesce with the box above. -/
def boxFreeAbove (r : Road) (box : ℕ) : Except Fault Road :=
  let nox := box + r.loom box
  if r.loom (nox + 1) = 0 then do
    let r ← boxDetach r nox
    boxMake r box (r.loom box + r.loom nox) 0
  else .ok r

/-- `_box_free()` on a north road, after the box below: coalesce with the box above, or the
wilderness. -/
def boxFreeNorth (r : Road) (box : ℕ) : Except Fault Road :=
  if box + r.loom box = r.hat_p then .ok { r with hat_p := box }
  else do
    let r ← boxFreeAbove r box
    boxAttach r box

/-- `_box_free()` on a south road, after the box above: coalesce with the box below, or the
wilderness. -/
def boxFreeSouth (r : Road) (box : ℕ) : Except Fault Road :=
  if box = r.hat_p then .ok { r with hat_p := box + r.loom box }
  else do
    let (r, box) ← boxFreeBelow r box
    boxAttach r box

/-- `_box_free()`: free and coalesce. -/
def boxFree (r : Road) (box : ℕ) : Except Fault Road :=
  if r.loom (box + 1) = 0 then .error .assertion
  else
    let r := r.put (box + 1) (r.loom (box + 1) - 1)
    if r.loom (box + 1) ≠ 0 then .ok r
    else if r.isNorth then
      (if box ≠ r.rut_p then boxFreeBelow r box else .ok (r, box)) >>= fun (r, box) ↦
        boxFreeNorth r box
    else
      (if box + r.loom box ≠ r.rut_p then boxFreeAbove r box else .ok r) >>= fun r ↦
        boxFreeSouth r box

/-! ### Allocation -/

/-- `_me_align_pad()`. -/
def meAlignPad (pos_p ald_w alp_w : ℕ) : ℕ :=
  let adj_w := (ald_w + 2 ^ 32 - (alp_w + 1)) % 2 ^ 32
  let off_p := (pos_p + adj_w) % 2 ^ 32
  let orp_p := off_p &&& (2 ^ 32 - 1 - (ald_w - 1))
  (orp_p + alp_w + 2 ^ 32 - pos_p) % 2 ^ 32

/-- `_me_align_dap()`. -/
def meAlignDap (pos_p ald_w alp_w : ℕ) : ℕ :=
  let off_p := (pos_p + 2 ^ 32 - alp_w) % 2 ^ 32
  let orp_p := off_p &&& (2 ^ 32 - 1 - (ald_w - 1))
  (pos_p + 2 ^ 32 - (orp_p + alp_w) % 2 ^ 32) % 2 ^ 32

/-- `_ca_box_make_hat()`: allocate on the hat, if there is room. -/
def caBoxMakeHat (r : Road) (len_w ald_w alp_w use_w : ℕ) : Except Fault (Option (Road × ℕ)) :=
  if r.isNorth then
    let all_p := r.hat_p
    let siz_w := (len_w + meAlignPad all_p ald_w alp_w) % 2 ^ 32
    if r.cap_p - r.hat_p ≤ siz_w then .ok none
    else do
      let r ← boxMake { r with hat_p := all_p + siz_w } all_p siz_w use_w
      .ok (some (r, all_p))
  else
    let all_p := (r.hat_p + 2 ^ 32 - len_w) % 2 ^ 32
    let pad_w := meAlignDap all_p ald_w alp_w
    let siz_w := (len_w + pad_w) % 2 ^ 32
    let all_p := (all_p + 2 ^ 32 - pad_w) % 2 ^ 32
    if r.hat_p - r.cap_p ≤ siz_w then .ok none
    else do
      let r ← boxMake { r with hat_p := all_p } all_p siz_w use_w
      .ok (some (r, all_p))

/-- The loop of `u3a_reflux()`, by the number of cells that are left to dump. -/
def refluxLoop : ℕ → Road → Except Fault Road
  | 0, r => .ok r
  | left + 1, r =>
    if r.cel_p = 0 then .ok r
    else do
      let r ← boxFree { r with cel_p := r.loom (r.cel_p + 3) } r.cel_p
      refluxLoop left r

/-- `u3a_reflux()`: dump 1K cells from the cell list into regular memory. -/
def reflux (r : Road) : Except Fault Road := refluxLoop 1024 r

/-- `_ca_reclaim_half()` where nothing has been saved in the memoization cache: it bails. -/
def caReclaimHalf (_ : Road) : Except Fault Road := .error .meme

/-- `pfr_p`: a free list, or the link forward of a free box. -/
inductive Ref
  | fre (sel_w : ℕ) : Ref
  | nex (box : ℕ) : Ref

def Road.get (r : Road) : Ref → ℕ
  | .fre sel_w => r.fre_p sel_w
  | .nex box => r.loom (box + 3)

def Road.set (r : Road) (v : ℕ) : Ref → Road
  | .fre sel_w => { r with fre_p := Function.update r.fre_p sel_w v }
  | .nex box => r.put (box + 3) v

/-- The size of the box for a length. The maximum is taken of a `size_t`, and then becomes a word.
-/
def caWillocSize (len_w : ℕ) : ℕ := max minimum (len_w + 2 + 1) % 2 ^ 32

/-- The free list where `_ca_willoc()` starts to search. -/
def caWillocSlot (len_w : ℕ) : ℕ :=
  let sel_w := boxSlot (caWillocSize len_w)
  if sel_w ≠ 0 ∧ sel_w ≠ fboxNo - 1 then sel_w + 1 else sel_w

/-- `_ca_willoc()`, once a free box of adequate size is found: take it off its list, and chop off
another box if there is room for one. -/
def caWillocTake (r : Road) (pfr_p : Ref) (siz_w : ℕ) : Except Fault (Road × ℕ) :=
  let box := r.get pfr_p
  let pre_p := r.loom (box + 2)
  let nex_p := r.loom (box + 3)
  if pre_p ≠ 0 ∧ r.loom (pre_p + 3) ≠ box then .error .assertion
  else if nex_p ≠ 0 ∧ r.loom (nex_p + 2) ≠ box then .error .assertion
  else
    let r := if nex_p ≠ 0 then r.put (nex_p + 2) pre_p else r
    let r := r.set nex_p pfr_p
    if (siz_w + minimum) % 2 ^ 32 ≤ r.loom box then do
      let lef_w := r.loom box - siz_w
      let r ← boxMake r (box + siz_w) lef_w 0
      let r ← boxAttach r (box + siz_w)
      let r ← boxMake r box siz_w 1
      .ok (r, box + 2)
    else if r.loom (box + 1) ≠ 0 then .error .assertion
    else .ok (r.put (box + 1) 1, box + 2)

/-- The search of `_ca_willoc()`, over the free lists and then the hat. It starts again after cells
have been dumped, or the cache has been trimmed by `reclaim`. -/
def caWillocScan (reclaim : Road → Except Fault Road) (len_w ald_w : ℕ) :
    ℕ → Road → ℕ → ℕ → Ref → Except Fault (Road × ℕ)
  | 0, _, _, _, _ => .error .steps
  | fuel + 1, r, alp_w, sel_w, pfr_p =>
    let siz_w := caWillocSize len_w
    if r.get pfr_p = 0 then
      if sel_w < fboxNo - 1 then
        caWillocScan reclaim len_w ald_w fuel r alp_w (sel_w + 1) (.fre (sel_w + 1))
      else do
        match ← caBoxMakeHat r siz_w ald_w alp_w 1 with
        | some (r, box) => .ok (r, box + 2)
        | none =>
          let r ← if r.cel_p ≠ 0 then reflux r else reclaim r
          let sel_w := caWillocSlot len_w
          caWillocScan reclaim len_w ald_w fuel r ((alp_w + 2) % ald_w) sel_w (.fre sel_w)
    else
      let pad_w := meAlignPad (r.get pfr_p) ald_w alp_w
      if ald_w = 1 ∧ pad_w ≠ 0 then .error .assertion
      else if r.loom (r.get pfr_p) < (siz_w + pad_w) % 2 ^ 32 then
        caWillocScan reclaim len_w ald_w fuel r alp_w sel_w (.nex (r.get pfr_p))
      else caWillocTake r pfr_p ((siz_w + pad_w) % 2 ^ 32)

/-- `_ca_willoc()`, and `_ca_walloc()`: the pointer to the words of a box is not null. -/
def caWilloc (reclaim : Road → Except Fault Road) (fuel : ℕ) (r : Road) (len_w ald_w alp_w : ℕ) :
    Except Fault (Road × ℕ) :=
  let sel_w := caWillocSlot len_w
  caWillocScan reclaim len_w ald_w fuel r ((alp_w + 2) % ald_w) sel_w (.fre sel_w)

/-- `u3a_walloc()`, on a road where nothing has been saved. -/
def walloc (fuel : ℕ) (r : Road) (len_w : ℕ) : Except Fault (Road × ℕ) :=
  caWilloc caReclaimHalf fuel r len_w 1 0

/-- `u3a_wfree()`. -/
def wfree (r : Road) (tox : ℕ) : Except Fault Road := boxFree r (tox - 2)

/-- `u3a_wtrim()`. -/
def wtrim (r : Road) (tox old_w len_w : ℕ) : Except Fault Road :=
  if len_w < old_w ∧ minimum ≤ old_w - len_w then do
    let box := tox - 2
    let asz_w := tox + len_w + 1 - box
    let r ← boxMake r (tox + len_w + 1) (r.loom box - asz_w) 0
    let r ← boxAttach r (tox + len_w + 1)
    .ok ((r.put box asz_w).put (box + asz_w - 1) asz_w)
  else .ok r

/-! ### Cells -/

/-- A box of `u3a_cellblock()`: `_box_make()` by hand, and the link. -/
def cellblockBox (r : Road) (all_p cel_p : ℕ) : Road :=
  (((r.put all_p minimum).put (all_p + minimum - 1) minimum).put (all_p + 1) 1).put
    (all_p + 3) cel_p

/-- The loop of `u3a_cellblock()` on a north road. -/
def cellblockNorth : ℕ → Road → ℕ → ℕ → Road × ℕ
  | 0, r, _, cel_p => (r, cel_p)
  | left + 1, r, hat_p, cel_p =>
    cellblockNorth left (cellblockBox r hat_p cel_p) (hat_p + minimum) hat_p

/-- The loop of `u3a_cellblock()` on a south road. -/
def cellblockSouth : ℕ → Road → ℕ → ℕ → Road × ℕ
  | 0, r, _, cel_p => (r, cel_p)
  | left + 1, r, hat_p, cel_p =>
    let all_p := hat_p - minimum
    cellblockSouth left (cellblockBox r all_p cel_p) all_p all_p

/-- `u3a_cellblock()`: allocate a block of cells on the hat, if there is room. -/
def cellblock (r : Road) (num_w : ℕ) : Option Road :=
  if r.isNorth then
    if r.cap_p ≤ r.hat_p + num_w * minimum + 2 ^ 12 then none
    else
      let (s, cel_p) :=
        cellblockNorth num_w { r with hat_p := r.hat_p + num_w * minimum } r.hat_p r.cel_p
      some { s with cel_p := cel_p }
  else
    if r.hat_p ≤ r.cap_p + num_w * minimum + 2 ^ 12 then none
    else
      let (s, cel_p) :=
        cellblockSouth num_w { r with hat_p := r.hat_p - num_w * minimum } r.hat_p r.cel_p
      some { s with cel_p := cel_p }

/-- `u3a_celloc()`, with a cell on the cell list. -/
def cellocPop (r : Road) : Road × ℕ :=
  let box := r.cel_p
  let r := r.put (box + 1) 1
  ({ r with cel_p := r.loom (box + 3) }, box + 2)

/-- `u3a_celloc()`: allocate a cell. -/
def celloc (fuel : ℕ) (r : Road) : Except Fault (Road × ℕ) :=
  if r.cel_p = 0 then
    if r.home then walloc fuel r 3
    else
      match cellblock r 4096 with
      | none => walloc fuel r 3
      | some r => .ok (cellocPop r)
  else .ok (cellocPop r)

/-- `u3a_cfree()`: free a cell. -/
def cfree (r : Road) (cel : ℕ) : Except Fault Road :=
  if r.home then wfree r cel
  else
    let box := cel - 2
    .ok { r.put (box + 3) r.cel_p with cel_p := box }

end Vere.Noun.Allocate
