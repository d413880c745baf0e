import Vere.Lib.Copy
import Vere.Noun.Sweep

/-!
# Compaction

`u3a_pack_seek()`, `u3a_rewrite_noun()` and `u3a_pack_move()` of `pkg/noun/allocate.c`. The first
sweep of the heap records in each box that is in use where it will be moved, the walk of the roots
rewrites the pointers, and the second sweep moves the boxes.

A road that is packed has its boxes in use next to each other, from the rut on (`Packed`). The walk
of the roots is one for both kinds of road: it rewrites the words of the cells that can be reached,
once each, if the sweep has recorded the addresses where `u3a_rewritten()` reads them
(`Rooted.rewriteAll`).
-/

set_option autoImplicit false

namespace Vere.Noun.Pack

open Lib Lib.Visit Allocate Mark

/-! ### Rewriting -/

/-- `u3a_is_pug()`. -/
def isPug (som : ℕ) : Bool := som >>> 30 = 2

/-- `u3a_to_pug()`. -/
def toPug (off : ℕ) : ℕ := off ||| 0x80000000

/-- `u3a_to_pom()`. -/
def toPom (off : ℕ) : ℕ := off ||| 0xc0000000

/-- `u3a_rewritten()`: rewrite a pointer for compaction. -/
def rewritten (r : Road) (ptr_v : ℕ) : ℕ :=
  let box := ptr_v - 2
  r.loom (box + r.loom box - 1)

/-- `u3a_rewritten_noun()`: rewritten noun pointer for compaction. -/
def rewrittenNoun (r : Road) (som : ℕ) : ℕ :=
  if isCat som then som
  else
    let som_p := rewritten r (toOff som)
    if isPug som then toPug som_p else toPom som_p

/-- `u3a_rewrite_ptr()`: mark a pointer as already having been rewritten. -/
def rewritePtr (r : Road) (ptr_v : ℕ) : Road × Bool :=
  let box := ptr_v - 2
  if r.loom (box + 1) &&& 0x80000000 ≠ 0 then (r, false)
  else (r.put (box + 1) (r.loom (box + 1) ||| 0x80000000), true)

/-- The end of `u3a_rewrite_noun()`: rewrite the words of a cell. -/
def rewriteCell (r : Road) (cel : ℕ) : Road :=
  let r := r.put (cel + 1) (rewrittenNoun r (r.loom (cel + 1)))
  r.put (cel + 2) (rewrittenNoun r (r.loom (cel + 2)))

/-- `u3a_rewrite_noun()`: rewrite a noun for compaction. -/
def rewriteNoun : ℕ → Road → ℕ → Except Fault Road
  | 0, _, _ => .error .steps
  | fuel + 1, r, som =>
    if isPom som = false then .ok r
    else
      let cel := toOff som
      let (r, new) := rewritePtr r cel
      if new = false then .ok r
      else do
        let r ← rewriteNoun fuel r (r.loom (cel + 1))
        let r ← rewriteNoun fuel r (r.loom (cel + 2))
        .ok (rewriteCell r cel)

/-- Rewrite what some roots lead to. -/
def rewriteAll (fuel : ℕ) : Road → List ℕ → Except Fault Road
  | r, [] => .ok r
  | r, som :: roots => do
    let r ← rewriteNoun fuel r som
    rewriteAll fuel r roots

/-! ### The first sweep -/

/-- The loop of `u3a_pack_seek()` on a north road. -/
def packSeekNorth (end_w : ℕ) : ℕ → Road → ℕ → ℕ → Except Fault Road
  | 0, _, _, _ => .error .steps
  | fuel + 1, r, box_w, new_p =>
    if box_w < end_w then
      let siz_w := r.loom box_w
      if r.loom (box_w + 1) ≠ 0 then
        packSeekNorth end_w fuel (r.put (box_w + siz_w - 1) new_p) (box_w + siz_w) (new_p + siz_w)
      else packSeekNorth end_w fuel r (box_w + siz_w) new_p
    else .ok r

/-- The loop of `u3a_pack_seek()` on a south road. -/
def packSeekSouth (end_w : ℕ) : ℕ → Road → ℕ → ℕ → Except Fault Road
  | 0, _, _, _ => .error .steps
  | fuel + 1, r, box_w, new_p =>
    if end_w < box_w then
      let siz_w := r.loom (box_w - 1)
      if r.loom (box_w + 1) ≠ 0 then
        packSeekSouth end_w fuel (r.put box_w new_p) (box_w - siz_w) (new_p - siz_w)
      else packSeekSouth end_w fuel r (box_w - siz_w) new_p
    else .ok r

/-- `u3a_pack_seek()`: sweep the heap, modifying boxes to record new addresses. -/
def packSeek (fuel : ℕ) (r : Road) : Except Fault Road :=
  let new_p := r.rut_p + 2
  if r.isNorth then packSeekNorth r.hat_p fuel r r.rut_p new_p
  else
    let siz_w := r.loom (r.rut_p - 1)
    packSeekSouth r.hat_p fuel r (r.rut_p - siz_w) (new_p - siz_w)

/-! ### The second sweep -/

/-- A loop that copies words of the loom. -/
def copyWords (r : Road) (new_w box_w count : ℕ) : Road :=
  { r with loom := Copy.ascending new_w box_w count r.loom }

/-- `_ca_pack_move_north()`, for a box that is in use. -/
def packBoxNorth (r : Road) (box_w siz_w new_p : ℕ) : Except Fault Road :=
  let new_w := new_p - 2
  if r.loom (box_w + siz_w - 1) ≠ new_p then .error .assertion
  else if new_w < box_w then
    .ok ((copyWords r new_w box_w (siz_w - 1)).put (new_w + siz_w - 1) siz_w)
  else if new_w = box_w then .ok (r.put (new_w + siz_w - 1) siz_w)
  else .error .assertion

/-- `_ca_pack_move_north()`. -/
def packMoveNorth (end_w : ℕ) : ℕ → Road → ℕ → ℕ → Except Fault (Road × ℕ)
  | 0, _, _, _ => .error .steps
  | fuel + 1, r, box_w, new_p =>
    if box_w < end_w then
      let siz_w := r.loom box_w
      let r := r.put (box_w + 1) (r.loom (box_w + 1) &&& 0x7fffffff)
      if r.loom (box_w + 1) ≠ 0 then do
        let r ← packBoxNorth r box_w siz_w new_p
        packMoveNorth end_w fuel r (box_w + siz_w) (new_p + siz_w)
      else packMoveNorth end_w fuel r (box_w + siz_w) new_p
    else .ok (r, new_p)

/-- `_ca_pack_move_south()`, for a box that is in use. -/
def packBoxSouth (r : Road) (box_w siz_w new_p : ℕ) : Except Fault Road :=
  let new_w := new_p - 2
  if r.loom box_w ≠ new_p then .error .assertion
  else if box_w < new_w then
    .ok ((copyWords r (new_w + 1) (box_w + 1) (siz_w - 1)).put new_w siz_w)
  else if new_w = box_w then .ok (r.put new_w siz_w)
  else .error .assertion

/-- `_ca_pack_move_south()` for one box, and whether it is in use (`yuz_o`). -/
def packStepSouth (r : Road) (box_w siz_w new_p : ℕ) : Except Fault (Road × Bool) :=
  let r := r.put (box_w + 1) (r.loom (box_w + 1) &&& 0x7fffffff)
  if r.loom (box_w + 1) ≠ 0 then do
    let r ← packBoxSouth r box_w siz_w new_p
    .ok (r, true)
  else .ok (r, false)

/-- The loop of `_ca_pack_move_south()`. -/
def packMoveSouth (end_w : ℕ) : ℕ → Road → ℕ → ℕ → ℕ → Except Fault (Road × ℕ)
  | 0, _, _, _, _ => .error .steps
  | fuel + 1, r, box_w, siz_w, new_p => do
    let (r, yuz_o) ← packStepSouth r box_w siz_w new_p
    if end_w < box_w then
      let siz_w := r.loom (box_w - 1)
      packMoveSouth end_w fuel r (box_w - siz_w) siz_w (if yuz_o then new_p - siz_w else new_p)
    else if end_w = box_w then .ok (r, new_p)
    else .error .assertion

/-- The sweep of `u3a_pack_move()`, and the last location. -/
def packMoveBoxes (fuel : ℕ) (r : Road) : Except Fault (Road × ℕ) :=
  let new_p := r.rut_p + 2
  if r.isNorth then packMoveNorth r.hat_p fuel r r.rut_p new_p
  else
    let siz_w := r.loom (r.rut_p - 1)
    packMoveSouth r.hat_p fuel r (r.rut_p - siz_w) siz_w (new_p - siz_w)

/-- `u3a_pack_move()`: sweep the heap, moving boxes to new addresses. The free lists and the cell
list that are cleared are those of the current road, which is the one that is packed. -/
def packMove (fuel : ℕ) (r : Road) : Except Fault Road := do
  let (r, las_p) ← packMoveBoxes fuel r
  .ok { r with
    hat_p := las_p - 2
    fre_p := fun i_w ↦ if i_w < fboxNo then 0 else r.fre_p i_w
    cel_p := 0 }

/-! ### Words -/

theorem isCat_iff {som : ℕ} : isCat som = true ↔ som < 2 ^ 31 := by
  rw [isCat, decide_eq_true_iff, Nat.shiftRight_eq_div_pow]
  omega

theorem toPug_eq {off : ℕ} (hoff : off < 2 ^ 30) : toPug off = 2 ^ 31 + off := by
  rw [toPug, Nat.or_comm, show 0x80000000 = 2 ^ 31 * 1 by decide,
    ← Nat.two_pow_add_eq_or_of_lt (by omega : off < 2 ^ 31) 1, Nat.mul_one]

theorem toPom_eq {off : ℕ} (hoff : off < 2 ^ 30) : toPom off = 3 * 2 ^ 30 + off := by
  rw [toPom, Nat.or_comm, show 0xc0000000 = 2 ^ 30 * 3 by decide,
    ← Nat.two_pow_add_eq_or_of_lt hoff 3]
  omega

theorem toOff_eq (som : ℕ) : toOff som = som % 2 ^ 30 := by
  rw [toOff, show 0x3fffffff = 2 ^ 30 - 1 by decide, Nat.and_two_pow_sub_one_eq_mod]

theorem isPug_iff {som : ℕ} : isPug som = true ↔ 2 ^ 31 ≤ som ∧ som < 3 * 2 ^ 30 := by
  rw [isPug, decide_eq_true_iff, Nat.shiftRight_eq_div_pow]
  omega

theorem isPom_iff {som : ℕ} : isPom som = true ↔ 3 * 2 ^ 30 ≤ som ∧ som < 2 ^ 32 := by
  rw [isPom, decide_eq_true_iff, Nat.shiftRight_eq_div_pow]
  omega

theorem not_cat_of_pom {som : ℕ} (hpom : isPom som = true) : isCat som = false := by
  have hge := (isPom_iff.mp hpom).1
  rw [← Bool.not_eq_true, isCat_iff]
  omega

/-- The mark of a use count that is positive as a signed word. -/
theorem use_mark {use_w : ℕ} (hlt : use_w < 0x80000000) :
    use_w &&& 0x80000000 = 0 ∧ use_w ||| 0x80000000 = use_w + 2 ^ 31 := by
  constructor
  · refine Nat.eq_of_testBit_eq fun i ↦ ?_
    rw [Nat.testBit_and, show 0x80000000 = 2 ^ 31 by decide, Nat.testBit_two_pow, Nat.zero_testBit]
    by_cases hi : 31 = i
    · subst hi
      rw [Nat.testBit_lt_two_pow hlt, Bool.false_and]
    · simp [hi]
  · rw [Nat.or_comm, show 0x80000000 = 2 ^ 31 * 1 by decide, ← Nat.two_pow_add_eq_or_of_lt hlt 1]
    omega

theorem use_marked {use_w : ℕ} (hlt : use_w < 0x80000000) :
    (use_w + 2 ^ 31) &&& 0x80000000 ≠ 0 ∧ (use_w + 2 ^ 31) &&& 0x7fffffff = use_w := by
  constructor
  · have hbit : ((use_w + 2 ^ 31) &&& 0x80000000).testBit 31 = true := by
      rw [Nat.testBit_and, Nat.add_comm, Nat.testBit_two_pow_add_eq, Nat.testBit_lt_two_pow hlt]
      decide
    intro hzero
    rw [hzero, Nat.zero_testBit] at hbit
    exact absurd hbit (by decide)
  · rw [show 0x7fffffff = 2 ^ 31 - 1 by decide, Nat.and_two_pow_sub_one_eq_mod]
    omega

theorem use_kept {use_w : ℕ} (hlt : use_w < 0x80000000) : use_w &&& 0x7fffffff = use_w := by
  rw [show 0x7fffffff = 2 ^ 31 - 1 by decide, Nat.and_two_pow_sub_one_eq_mod]
  omega

/-! ### Relocation -/

/-- A box that is in use: an allocation, or a cell on the cell list. -/
def inUse (r : Road) (b : Box) : Bool := r.loom (b.pos + 1) ≠ 0

/-- Where a box goes: the boxes that are in use are next to each other, from the rut on. -/
def newPos (r : Road) (bs : List Box) (pos : ℕ) : ℕ :=
  if r.isNorth then r.rut_p + total (fun c ↦ inUse r c && decide (c.pos < pos)) bs
  else r.rut_p - total (fun c ↦ inUse r c && decide (pos ≤ c.pos)) bs

/-- Where the words of a box go. -/
def newPtr (r : Road) (bs : List Box) (ptr : ℕ) : ℕ := newPos r bs (ptr - 2) + 2

/-- What a box that is in use is, when the lists have been cleared: an allocation. -/
def keptState (b : Box) : State :=
  match b.state with
  | .live len => .live len
  | _ => .live (b.siz - 3)

/-- The boxes of a road that is packed, in their order. -/
def packed (r : Road) (bs : List Box) : List Box :=
  (bs.filter (inUse r)).map fun b ↦ ⟨newPos r bs b.pos, b.siz, keptState b⟩

/-- A word that is a noun, after its box has moved. -/
def forwardNoun (r : Road) (bs : List Box) (som : ℕ) : ℕ :=
  if isCat som then som
  else if isPug som then toPug (newPtr r bs (toOff som))
  else toPom (newPtr r bs (toOff som))

/-- The cell that a word is, if it is one. -/
def cellRef (som : ℕ) : List ℕ := if isPom som then [toOff som] else []

/-- The cells that a cell leads to. -/
def nextCells (r : Road) (p : ℕ) : List ℕ := cellRef (r.loom (p + 1)) ++ cellRef (r.loom (p + 2))

/-- The cells that can be reached from some roots. -/
def Reaches (r : Road) (roots : List ℕ) (p : ℕ) : Prop :=
  Reached (nextCells r) (roots.flatMap cellRef) p

open Classical in
/-- A word of the heap, after the pointers of the cells that can be reached have been rewritten. -/
noncomputable def forwarded (r : Road) (bs : List Box) (roots : List ℕ) (w : ℕ) : ℕ :=
  if ∃ p, Reaches r roots p ∧ (w = p + 1 ∨ w = p + 2) then forwardNoun r bs (r.loom w) else r.loom w

/-- A word is a direct atom, or a pointer to an allocation. -/
def Inside (bs : List Box) (som : ℕ) : Prop := isCat som = false → toOff som ∈ ptrsOf bs

/-- The roots, and the words of the cells that can be reached, are direct atoms or pointers to
allocations. -/
structure Rooted (r : Road) (bs : List Box) (roots : List ℕ) : Prop where
  root : ∀ som ∈ roots, Inside bs som
  cell : ∀ p, Reaches r roots p → Inside bs (r.loom (p + 1)) ∧ Inside bs (r.loom (p + 2))

/-- A road that has been packed: its heap is the boxes that were in use, each with its size, its use
count and its words, but for the pointers of the cells that can be reached. -/
structure Packed (r : Road) (bs : List Box) (roots : List ℕ) (r' : Road) : Prop where
  stays : Stays r r'
  heap : BoxInvariant r' (livesOf (packed r bs)) (packed r bs)
  use : ∀ b ∈ bs, inUse r b = true → r'.loom (newPos r bs b.pos + 1) = r.loom (b.pos + 1)
  words : ∀ b ∈ bs, inUse r b = true → ∀ i, 2 ≤ i → i + 1 < b.siz →
    r'.loom (newPos r bs b.pos + i) = forwarded r bs roots (b.pos + i)
  outside : ∀ w, w < r.low ∨ r.high ≤ w → r'.loom w = r.loom w

/-- The word of a box where the first sweep records where it goes. -/
def slot (r : Road) (b : Box) : ℕ := if r.isNorth then b.pos + b.siz - 1 else b.pos

/-- What compaction should do: the first sweep records for every box that is in use where it goes,
all pointers can be rewritten, and the second sweep leaves a road that is packed. -/
structure Compacts (fuel : ℕ) (r : Road) (bs : List Box) (roots : List ℕ) (r₁ r₂ r' : Road) :
    Prop where
  seek : packSeek fuel r = .ok r₁
  rewrite : rewriteAll fuel r₁ roots = .ok r₂
  move : packMove fuel r₂ = .ok r'
  records : ∀ b ∈ bs, inUse r b = true → r₁.loom (slot r b) = newPtr r bs (b.pos + 2)
  rewrites : ∀ b ∈ bs, inUse r b = true → rewritten r₂ (b.pos + 2) = newPtr r bs (b.pos + 2)
  packed : Packed r bs roots r'

/-! ### The walk of the roots -/

/-- A state of the walk: the use counts of some cells are marked, and the words of those that it is
done with are new. The new words are right as `V` says. -/
structure Rewrote (V : ℕ → ℕ → Prop) (r : Road) (log done : List ℕ) (s : Road) : Prop where
  road : s = { r with loom := s.loom }
  use : ∀ p ∈ log, s.loom (p - 2 + 1) = r.loom (p - 2 + 1) + 2 ^ 31
  word : ∀ p ∈ done, V (p + 1) (s.loom (p + 1)) ∧ V (p + 2) (s.loom (p + 2))
  frame : ∀ w, (∀ p ∈ log, w ≠ p - 2 + 1) → (∀ p ∈ done, w ≠ p + 1 ∧ w ≠ p + 2) →
    s.loom w = r.loom w

/-- The words of a road that the walk may have changed. -/
structure Touched (V : ℕ → ℕ → Prop) (r : Road) (reach : ℕ → Prop) (s : Road) : Prop where
  road : s = { r with loom := s.loom }
  word : ∀ w, s.loom w = r.loom w ∨
    (∃ p, reach p ∧ w = p - 2 + 1 ∧ s.loom w = r.loom w + 2 ^ 31) ∨
      (∃ p, reach p ∧ (w = p + 1 ∨ w = p + 2) ∧ V w (s.loom w))

section

variable {V : ℕ → ℕ → Prop} {r s : Road} {ptrs log done : List ℕ} {reach : ℕ → Prop} {som p : ℕ}

theorem Rewrote.congr {log' done' : List ℕ} (hrewrote : Rewrote V r log done s)
    (hlog : ∀ p, p ∈ log' ↔ p ∈ log) (hdone : ∀ p, p ∈ done' ↔ p ∈ done) :
    Rewrote V r log' done' s :=
  ⟨hrewrote.road, fun p hp ↦ hrewrote.use p ((hlog p).mp hp),
    fun p hp ↦ hrewrote.word p ((hdone p).mp hp), fun w huse hword ↦
      hrewrote.frame w (fun p hp ↦ huse p ((hlog p).mpr hp)) fun p hp ↦ hword p ((hdone p).mpr hp)⟩

theorem Rewrote.touched (hrewrote : Rewrote V r log done s) (hlog : ∀ p ∈ log, reach p)
    (hdone : ∀ p ∈ done, reach p) : Touched V r reach s := by
  refine ⟨hrewrote.road, fun w ↦ ?_⟩
  by_cases huse : ∃ p ∈ log, w = p - 2 + 1
  · obtain ⟨p, hp, rfl⟩ := huse
    exact .inr (.inl ⟨p, hlog p hp, rfl, hrewrote.use p hp⟩)
  by_cases hword : ∃ p ∈ done, w = p + 1 ∨ w = p + 2
  · obtain ⟨p, hp, rfl | rfl⟩ := hword
    · exact .inr (.inr ⟨p, hdone p hp, .inl rfl, (hrewrote.word p hp).1⟩)
    · exact .inr (.inr ⟨p, hdone p hp, .inr rfl, (hrewrote.word p hp).2⟩)
  · refine .inl (hrewrote.frame w (fun p hp heq ↦ huse ⟨p, hp, heq⟩) fun p hp ↦ ⟨?_, ?_⟩)
    · exact fun heq ↦ hword ⟨p, hp, .inl heq⟩
    · exact fun heq ↦ hword ⟨p, hp, .inr heq⟩

theorem mem_cellRef : p ∈ cellRef som ↔ isPom som = true ∧ p = toOff som := by
  unfold cellRef
  split_ifs with hpom
  · simp [hpom]
  · simp [hpom]

/-- Pointers to boxes that are apart from each other, with use counts that are positive as signed
words. -/
structure Apart (r : Road) (ptrs : List ℕ) : Prop where
  low : ∀ p ∈ ptrs, 2 < p
  apart : ∀ p ∈ ptrs, ∀ q ∈ ptrs, p = q ∨ p + 6 ≤ q ∨ q + 6 ≤ p
  use : ∀ p ∈ ptrs, r.loom (p - 2 + 1) < 0x80000000

/-- A cell that the walk comes to first is as it was. -/
theorem Rewrote.old (hrewrote : Rewrote V r log done s) (hapart : Apart r ptrs)
    (hlog : ∀ q ∈ log, q ∈ ptrs) (hdone : ∀ q ∈ done, q ∈ ptrs) (hp : p ∈ ptrs) :
    (p ∉ log → s.loom (p - 2 + 1) = r.loom (p - 2 + 1)) ∧
      (p ∉ done → s.loom (p + 1) = r.loom (p + 1) ∧ s.loom (p + 2) = r.loom (p + 2)) := by
  have hlow := hapart.low
  have hsep := hapart.apart p hp
  have hp₂ := hlow p hp
  refine ⟨fun hnew ↦ hrewrote.frame _ (fun q hq heq ↦ hnew ?_) fun q hq ↦ ?_, fun hnew ↦
    ⟨hrewrote.frame _ (fun q hq ↦ ?_) fun q hq ↦ ?_,
      hrewrote.frame _ (fun q hq ↦ ?_) fun q hq ↦ ?_⟩⟩
  · have hq₂ := hlow q (hlog q hq)
    obtain rfl : p = q := by omega
    exact hq
  · rcases hsep q (hdone q hq) with rfl | hor | hor <;> omega
  · have hq₂ := hlow q (hlog q hq)
    rcases hsep q (hlog q hq) with rfl | hor | hor <;> omega
  · rcases hsep q (hdone q hq) with rfl | hor | hor
    · exact absurd hq hnew
    · omega
    · omega
  · have hq₂ := hlow q (hlog q hq)
    rcases hsep q (hlog q hq) with rfl | hor | hor <;> omega
  · rcases hsep q (hdone q hq) with rfl | hor | hor
    · exact absurd hq hnew
    · omega
    · omega

/-- A mark. -/
theorem Rewrote.mark (hrewrote : Rewrote V r log done s) (hapart : Apart r ptrs)
    (hlog : ∀ q ∈ log, q ∈ ptrs) (hdone : ∀ q ∈ done, q ∈ ptrs) (hp : p ∈ ptrs) (hnew : p ∉ log) :
    ∃ s', rewritePtr s p = (s', true) ∧ Rewrote V r (p :: log) done s' := by
  have hold := (hrewrote.old hapart hlog hdone hp).1 hnew
  have hbit := use_mark (hapart.use p hp)
  refine ⟨s.put (p - 2 + 1) (r.loom (p - 2 + 1) + 2 ^ 31), ?_, ?_, fun q hq ↦ ?_, fun q hq ↦ ?_,
    fun w huse hword ↦ ?_⟩
  · unfold rewritePtr
    simp only [hold, hbit.1, ne_eq, not_true_eq_false, if_false, hbit.2]
  · rw [hrewrote.road]
    rfl
  · rw [Road.loom_put]
    rcases List.mem_cons.mp hq with rfl | hq
    · exact Function.update_self ..
    · have hp₂ := hapart.low p hp
      have hq₂ := hapart.low q (hlog q hq)
      have hne : q ≠ p := fun heq ↦ hnew (heq ▸ hq)
      rw [Function.update_of_ne (by omega)]
      exact hrewrote.use q hq
  · have hp₂ := hapart.low p hp
    have hsep := hapart.apart p hp q (hdone q hq)
    rw [Road.loom_put, Function.update_of_ne (by omega), Function.update_of_ne (by omega)]
    exact hrewrote.word q hq
  · rw [Road.loom_put, Function.update_of_ne (huse p List.mem_cons_self)]
    exact hrewrote.frame w (fun q hq ↦ huse q (List.mem_cons_of_mem _ hq)) hword

/-- The words of a cell are rewritten. -/
theorem Rewrote.rewriteCell (hrewrote : Rewrote V r log done s) (hapart : Apart r ptrs)
    (hlog : ∀ q ∈ log, q ∈ ptrs) (hdone : ∀ q ∈ done, q ∈ ptrs) (hp : p ∈ ptrs) (hnew : p ∉ done)
    (hlog' : ∀ q ∈ log, reach q) (hdone' : ∀ q ∈ done, reach q) (hp' : reach p)
    (hV : ∀ s, Touched V r reach s → ∀ p, reach p → V (p + 1) (rewrittenNoun s (r.loom (p + 1))) ∧
      V (p + 2) (rewrittenNoun s (r.loom (p + 2)))) :
    Rewrote V r log (p :: done) (rewriteCell s p) := by
  obtain ⟨hhed, htel⟩ := (hrewrote.old hapart hlog hdone hp).2 hnew
  have htouched := hrewrote.touched hlog' hdone'
  have hfirst := (hV s htouched p hp').1
  set s₁ := s.put (p + 1) (rewrittenNoun s (r.loom (p + 1))) with hs₁
  -- the head is new, and the tail is not
  have htouched₁ : Touched V r reach s₁ := by
    refine ⟨by rw [hs₁, hrewrote.road]; rfl, fun w ↦ ?_⟩
    by_cases hw : w = p + 1
    · subst hw
      refine .inr (.inr ⟨p, hp', .inl rfl, ?_⟩)
      rw [hs₁, Road.loom_put, Function.update_self]
      exact hfirst
    · rw [hs₁, Road.loom_put, Function.update_of_ne hw]
      exact htouched.word w
  have hlast := (hV s₁ htouched₁ p hp').2
  have htel₁ : s₁.loom (p + 2) = r.loom (p + 2) := by
    rw [hs₁, Road.loom_put, Function.update_of_ne (by omega), htel]
  have hcell : Pack.rewriteCell s p = s₁.put (p + 2) (rewrittenNoun s₁ (r.loom (p + 2))) := by
    rw [Pack.rewriteCell, hhed, ← hs₁, htel₁]
  have hloom : ∀ w, w ≠ p + 1 → w ≠ p + 2 → (Pack.rewriteCell s p).loom w = s.loom w := by
    intro w hne₁ hne₂
    rw [hcell, Road.loom_put, Function.update_of_ne hne₂, hs₁, Road.loom_put,
      Function.update_of_ne hne₁]
  refine ⟨?_, fun q hq ↦ ?_, fun q hq ↦ ?_, fun w huse hword ↦ ?_⟩
  · rw [hcell, hs₁, hrewrote.road]
    rfl
  · have hq₂ := hapart.low q (hlog q hq)
    have hsep := hapart.apart p hp q (hlog q hq)
    rw [hloom _ (by omega) (by omega)]
    exact hrewrote.use q hq
  · rcases List.mem_cons.mp hq with rfl | hq
    · rw [hcell, Road.loom_put, Function.update_self, Function.update_of_ne (by omega), hs₁,
        Road.loom_put, Function.update_self]
      exact ⟨hfirst, hlast⟩
    · have hne : q ≠ p := fun heq ↦ hnew (heq ▸ hq)
      have hsep := hapart.apart p hp q (hdone q hq)
      rw [hloom _ (by omega) (by omega), hloom _ (by omega) (by omega)]
      exact hrewrote.word q hq
  · obtain ⟨hne₁, hne₂⟩ := hword p List.mem_cons_self
    rw [hloom w hne₁ hne₂]
    exact hrewrote.frame w huse fun q hq ↦ hword q (List.mem_cons_of_mem _ hq)

theorem Visits.news_reach {as news : List ℕ} {seen : Set ℕ} (has : ∀ p ∈ as, reach p)
    (hclosed : ∀ p, reach p → ∀ q ∈ nextCells r p, reach q)
    (hvisits : Visits (nextCells r) seen as news) : ∀ p ∈ news, reach p :=
  fun p hp ↦ (hvisits.reached p hp).mem {p | reach p} has hclosed

/-- The walk of a noun goes through the cells that can be reached, and rewrites those that are new.
-/
theorem rewriteNoun_rewrote (hapart : Apart r ptrs) (hreach : ∀ p, reach p → p ∈ ptrs)
    (hclosed : ∀ p, reach p → ∀ q ∈ nextCells r p, reach q)
    (hV : ∀ s, Touched V r reach s → ∀ p, reach p → V (p + 1) (rewrittenNoun s (r.loom (p + 1))) ∧
      V (p + 2) (rewrittenNoun s (r.loom (p + 2)))) (fuel : ℕ) :
    ∀ {som : ℕ} {log done : List ℕ} {s : Road}, (∀ p ∈ cellRef som, reach p) →
    (∀ q ∈ log, reach q) →
      (∀ q ∈ done, q ∈ log) → Rewrote V r log done s → unseen ptrs log < fuel →
        ∃ news s', Visits (nextCells r) (seenIn log) (cellRef som) news ∧
          rewriteNoun fuel s som = .ok s' ∧ Rewrote V r (news ++ log) (news ++ done) s' := by
  induction fuel with
  | zero => exact fun _ _ _ _ hlt ↦ absurd hlt (Nat.not_lt_zero _)
  | succ fuel ih =>
    intro som log done s hsom hlog hdone hrewrote hlt
    unfold rewriteNoun
    cases hpom : isPom som with
    | false =>
      rw [if_pos rfl]
      exact ⟨[], s, by simp [cellRef, hpom, Visits.done], rfl, hrewrote⟩
    | true =>
      rw [if_neg (by decide)]
      have href : cellRef som = [toOff som] := by simp [cellRef, hpom]
      rw [href] at hsom ⊢
      set p := toOff som
      have hp' : reach p := hsom p (List.mem_singleton_self p)
      have hp := hreach p hp'
      have hlogp : ∀ q ∈ log, q ∈ ptrs := fun q hq ↦ hreach q (hlog q hq)
      have hdonep : ∀ q ∈ done, q ∈ ptrs := fun q hq ↦ hlogp q (hdone q hq)
      by_cases hseen : p ∈ log
      · -- the mark says that the cell has been come to
        have hmarked : rewritePtr s p = (s, false) := by
          unfold rewritePtr
          simp only [hrewrote.use p hseen]
          rw [if_pos (use_marked (hapart.use p hp)).1]
        simp only [hmarked, if_true]
        exact ⟨[], s, .pass hseen .done, rfl, hrewrote⟩
      · obtain ⟨s₀, hmark, hrewrote₀⟩ := hrewrote.mark hapart hlogp hdonep hp hseen
        have hnew : p ∉ done := fun hmem ↦ hseen (hdone p hmem)
        have hlog₀ : ∀ q ∈ p :: log, reach q := by
          intro q hq
          rcases List.mem_cons.mp hq with rfl | hq
          · exact hp'
          · exact hlog q hq
        have hdone₀ : ∀ q ∈ done, q ∈ p :: log := fun q hq ↦ List.mem_cons_of_mem _ (hdone q hq)
        have hfewer := unseen_cons_lt hp hseen
        have hnext : nextCells r p = cellRef (r.loom (p + 1)) ++ cellRef (r.loom (p + 2)) := rfl
        have hhed : ∀ q ∈ cellRef (r.loom (p + 1)), reach q := fun q hq ↦
          hclosed p hp' q (hnext ▸ List.mem_append_left _ hq)
        have htel : ∀ q ∈ cellRef (r.loom (p + 2)), reach q := fun q hq ↦
          hclosed p hp' q (hnext ▸ List.mem_append_right _ hq)
        obtain ⟨news₁, s₁, hvisits₁, hwalk₁, hrewrote₁⟩ := ih hhed hlog₀ hdone₀ hrewrote₀ (by omega)
        -- the cell is not done with before its tail
        have hnews₁ := Visits.news_reach hhed hclosed hvisits₁
        have hfresh₁ := hvisits₁.fresh.2
        have hlog₁ : ∀ q ∈ news₁ ++ p :: log, reach q := by
          intro q hq
          rcases List.mem_append.mp hq with hq | hq
          · exact hnews₁ q hq
          · exact hlog₀ q hq
        have hdone₁ : ∀ q ∈ news₁ ++ done, q ∈ news₁ ++ p :: log := by
          intro q hq
          rcases List.mem_append.mp hq with hq | hq
          · exact List.mem_append_left _ hq
          · exact List.mem_append_right _ (hdone₀ q hq)
        have hnew₁ : p ∉ news₁ ++ done := by
          intro hmem
          rcases List.mem_append.mp hmem with hmem | hmem
          · exact hfresh₁ p hmem List.mem_cons_self
          · exact hnew hmem
        have hunseen : unseen ptrs (news₁ ++ p :: log) ≤ unseen ptrs (p :: log) :=
          unseen_mono fun q hq ↦ List.mem_append_right _ hq
        obtain ⟨news₂, s₂, hvisits₂, hwalk₂, hrewrote₂⟩ := ih htel hlog₁ hdone₁ hrewrote₁ (by omega)
        have hnews₂ := Visits.news_reach htel hclosed hvisits₂
        have hlog₂ : ∀ q ∈ news₂ ++ (news₁ ++ p :: log), reach q := by
          intro q hq
          rcases List.mem_append.mp hq with hq | hq
          · exact hnews₂ q hq
          · exact hlog₁ q hq
        have hdone₂ : ∀ q ∈ news₂ ++ (news₁ ++ done), q ∈ news₂ ++ (news₁ ++ p :: log) := by
          intro q hq
          rcases List.mem_append.mp hq with hq | hq
          · exact List.mem_append_left _ hq
          · exact List.mem_append_right _ (hdone₁ q hq)
        have hnew₂ : p ∉ news₂ ++ (news₁ ++ done) := by
          intro hmem
          rcases List.mem_append.mp hmem with hmem | hmem
          · exact hvisits₂.fresh.2 p hmem (List.mem_append_right _ List.mem_cons_self)
          · exact hnew₁ hmem
        have hcell := hrewrote₂.rewriteCell hapart (fun q hq ↦ hreach q (hlog₂ q hq))
          (fun q hq ↦ hreach q (hlog₂ q (hdone₂ q hq))) hp hnew₂ hlog₂
            (fun q hq ↦ hlog₂ q (hdone₂ q hq))
          hp' hV
        have hold₀ := (hrewrote₀.old hapart (fun q hq ↦ hreach q (hlog₀ q hq)) hdonep hp).2 hnew
        have hold₁ := (hrewrote₁.old hapart (fun q hq ↦ hreach q (hlog₁ q hq))
          (fun q hq ↦ hreach q (hlog₁ q (hdone₁ q hq))) hp).2 hnew₁
        refine ⟨p :: (news₁ ++ news₂), rewriteCell s₂ p, .enter hseen ?_, ?_, ?_⟩
        · have hseen₀ : insert p (seenIn log) = seenIn (p :: log) := by
            ext q
            simp
          have hseen₁ : seenIn (news₁ ++ p :: log) = seenIn (p :: log) ∪ {q | q ∈ news₁} := by
            ext q
            simp only [Set.mem_ofPred_eq, Set.mem_union, List.mem_append]
            exact or_comm
          rw [hseen₁] at hvisits₂
          rw [List.append_nil, hseen₀, hnext]
          exact hvisits₁.append hvisits₂
        · simp only [hmark]
          rw [if_neg (by decide), hold₀.1, hwalk₁, ok_bind, hold₁.2, hwalk₂, ok_bind]
        · refine hcell.congr (fun q ↦ ?_) fun q ↦ ?_
          · simp only [List.mem_append, List.mem_cons]
            tauto
          · simp only [List.mem_append, List.mem_cons]
            tauto

/-- The walk of some roots. -/
theorem rewriteAll_rewrote (hapart : Apart r ptrs) (hreach : ∀ p, reach p → p ∈ ptrs)
    (hclosed : ∀ p, reach p → ∀ q ∈ nextCells r p, reach q)
    (hV : ∀ s, Touched V r reach s → ∀ p, reach p → V (p + 1) (rewrittenNoun s (r.loom (p + 1))) ∧
      V (p + 2) (rewrittenNoun s (r.loom (p + 2)))) {fuel : ℕ} (hfuel : ptrs.length < fuel)
    {roots : List ℕ} (hroots : ∀ p ∈ roots.flatMap cellRef, reach p) :
    ∀ {log : List ℕ} {s : Road}, (∀ q ∈ log, reach q) → Rewrote V r log log s →
      ∃ news s', Visits (nextCells r) (seenIn log) (roots.flatMap cellRef) news ∧
        rewriteAll fuel s roots = .ok s' ∧ Rewrote V r (news ++ log) (news ++ log) s' := by
  induction roots with
  | nil => exact fun _ hrewrote ↦ ⟨[], _, .done, rfl, hrewrote⟩
  | cons som roots ih =>
    intro log s hlog hrewrote
    rw [List.flatMap_cons] at hroots ⊢
    have hsom : ∀ p ∈ cellRef som, reach p := fun p hp ↦ hroots p (List.mem_append_left _ hp)
    obtain ⟨news₁, s₁, hvisits₁, hwalk₁, hrewrote₁⟩ :=
      rewriteNoun_rewrote hapart hreach hclosed hV fuel
      hsom hlog (fun q hq ↦ hq) hrewrote ((unseen_le ptrs log).trans_lt hfuel)
    have hlog₁ : ∀ q ∈ news₁ ++ log, reach q := by
      intro q hq
      rcases List.mem_append.mp hq with hq | hq
      · exact Visits.news_reach hsom hclosed hvisits₁ q hq
      · exact hlog q hq
    obtain ⟨news₂, s₂, hvisits₂, hwalk₂, hrewrote₂⟩ :=
      ih (fun p hp ↦ hroots p (List.mem_append_right _ hp)) hlog₁ hrewrote₁
    have hseen₁ : seenIn (news₁ ++ log) = seenIn log ∪ {q | q ∈ news₁} := by
      ext q
      simp only [Set.mem_ofPred_eq, Set.mem_union, List.mem_append]
      exact or_comm
    rw [hseen₁] at hvisits₂
    refine ⟨news₁ ++ news₂, s₂, hvisits₁.append hvisits₂, ?_, ?_⟩
    · rw [rewriteAll, hwalk₁, ok_bind, hwalk₂]
    · have hperm : ∀ q, q ∈ news₁ ++ news₂ ++ log ↔ q ∈ news₂ ++ (news₁ ++ log) := by
        intro q
        simp only [List.mem_append]
        tauto
      exact hrewrote₂.congr hperm hperm

end

section

variable {V : ℕ → ℕ → Prop} {mat_p : ℕ} {r r₁ : Road} {bs : List Box} {roots : List ℕ} {p som : ℕ}

theorem Inside.ref_mem (hinside : Inside bs som) : ∀ p ∈ cellRef som, p ∈ ptrsOf bs := by
  intro p hp
  obtain ⟨hpom, rfl⟩ := mem_cellRef.mp hp
  exact hinside (not_cat_of_pom hpom)

theorem Reaches.next (hreaches : Reaches r roots p) : ∀ q ∈ nextCells r p, Reaches r roots q := by
  intro q hq
  obtain ⟨root, hroot, hpath⟩ := hreaches
  exact ⟨root, hroot, hpath.tail hq⟩

theorem Rooted.reaches_mem (hrooted : Rooted r bs roots) (hreaches : Reaches r roots p) :
    p ∈ ptrsOf bs := by
  obtain ⟨root, hroot, hpath⟩ := hreaches
  rcases hpath.cases_tail with rfl | ⟨q, hpath, hnext⟩
  · obtain ⟨som, hsom, hmem⟩ := List.mem_flatMap.mp hroot
    exact (hrooted.root som hsom).ref_mem p hmem
  · obtain ⟨hhed, htel⟩ := hrooted.cell q ⟨root, hroot, hpath⟩
    rcases List.mem_append.mp hnext with hmem | hmem
    · exact hhed.ref_mem p hmem
    · exact htel.ref_mem p hmem

theorem Heap.apart (hheap : Heap mat_p r bs) (huse : ∀ p ∈ ptrsOf bs, r₁.loom (p - 2 + 1) =
    r.loom (p - 2 + 1)) : Apart r₁ (ptrsOf bs) := by
  refine ⟨fun p hp ↦ (hheap.boxes.range p hp).1, hheap.boxes.apart, fun p hp ↦ ?_⟩
  rw [huse p hp]
  exact (hheap.words hp).2.2.2

/-- The walk of the roots of a road marks the cells that can be reached, and makes their words new.
The road may have been swept before, as long as the words of the allocations are as they were. -/
theorem Rooted.rewriteAll (hrooted : Rooted r bs roots) (hheap : Heap mat_p r bs)
    (hwords : ∀ p ∈ ptrsOf bs, r₁.loom (p - 2 + 1) = r.loom (p - 2 + 1) ∧
      r₁.loom (p + 1) = r.loom (p + 1) ∧ r₁.loom (p + 2) = r.loom (p + 2))
    (hV : ∀ s, Touched V r₁ (Reaches r roots) s → ∀ p, Reaches r roots p →
      V (p + 1) (rewrittenNoun s (r.loom (p + 1))) ∧ V (p + 2) (rewrittenNoun s (r.loom (p + 2))))
    {fuel : ℕ} (hfuel : (ptrsOf bs).length < fuel) :
    ∃ reached r₂, (∀ p, p ∈ reached ↔ Reaches r roots p) ∧ Pack.rewriteAll fuel r₁ roots = .ok r₂ ∧
      Rewrote V r₁ reached reached r₂ := by
  have hmem : ∀ p, Reaches r roots p → p ∈ ptrsOf bs := fun p hp ↦ hrooted.reaches_mem hp
  have hnext : ∀ p, Reaches r roots p → nextCells r₁ p = nextCells r p := by
    intro p hp
    obtain ⟨_, hhed, htel⟩ := hwords p (hmem p hp)
    rw [nextCells, hhed, htel, nextCells]
  have hclosed : ∀ p, Reaches r roots p → ∀ q ∈ nextCells r₁ p, Reaches r roots q := by
    intro p hp
    rw [hnext p hp]
    exact hp.next
  have hroots : ∀ p ∈ roots.flatMap cellRef, Reaches r roots p := fun p hp ↦ ⟨p, hp, .refl⟩
  have hV₁ : ∀ s, Touched V r₁ (Reaches r roots) s → ∀ p, Reaches r roots p →
      V (p + 1) (rewrittenNoun s (r₁.loom (p + 1))) ∧
      V (p + 2) (rewrittenNoun s (r₁.loom (p + 2))) := by
    intro s hs p hp
    obtain ⟨_, hhed, htel⟩ := hwords p (hmem p hp)
    rw [hhed, htel]
    exact hV s hs p hp
  have hnone : ∀ q ∈ ([] : List ℕ), Reaches r roots q := nofun
  obtain ⟨news, r₂, hvisits, hwalk, hrewrote⟩ := rewriteAll_rewrote
    (Heap.apart hheap fun p hp ↦ (hwords p hp).1) hmem hclosed hV₁ hfuel hroots hnone
    ⟨rfl, nofun, nofun, fun _ _ _ ↦ rfl⟩
  have hseen : seenIn [] = ∅ := by
    ext p
    simp
  rw [hseen] at hvisits
  rw [List.append_nil] at hrewrote
  refine ⟨news, r₂, fun p ↦ ⟨fun hp ↦ Visits.news_reach hroots hclosed hvisits p hp, fun hp ↦ ?_⟩,
    hwalk, hrewrote⟩
  refine (hp.mem {p | p ∈ news ∧ Reaches r roots p} (fun q hq ↦ ⟨?_, hroots q hq⟩)
    fun q hq q' hq' ↦ ⟨?_, hq.2.next q' hq'⟩).1
  · exact (hvisits.roots q hq).resolve_left (Set.notMem_empty q)
  · rw [← hnext q hq.2] at hq'
    exact (hvisits.closed q hq.1 q' hq').resolve_left (Set.notMem_empty q')

end

/-! ### Where the boxes go -/

theorem total_append (kind : Box → Bool) (xs ys : List Box) :
    total kind (xs ++ ys) = total kind xs + total kind ys := by
  simp [total]

theorem total_le {kind : Box → Bool} {bs : List Box} {lo hi : ℕ} (htiles : Tiles lo bs hi) :
    lo + total kind bs ≤ hi := by
  induction bs generalizing lo with
  | nil => exact Nat.le_of_eq htiles
  | cons b bs ih =>
    have hle := ih htiles.2
    rw [total_cons]
    split_ifs <;> omega

variable {done' : List Box}

section

variable {mat_p : ℕ} {r r' : Road} {bs xs ys : List Box} {b c : Box} {lo hi som : ℕ}

theorem inUse_iff : inUse r b = true ↔ r.loom (b.pos + 1) ≠ 0 := decide_eq_true_iff

theorem total_before (htiles : Tiles lo (xs ++ b :: ys) hi)
    (hsiz : ∀ c ∈ xs ++ b :: ys, minimum ≤ c.siz) :
    total (fun c ↦ inUse r c && decide (c.pos < b.pos)) (xs ++ b :: ys) = total (inUse r) xs := by
  obtain ⟨hbefore, hafter⟩ := htiles.around
  have hmin : minimum = 6 := rfl
  have hxs : total (fun c ↦ inUse r c && decide (c.pos < b.pos)) xs = total (inUse r) xs := by
    refine total_congr fun c hc ↦ ?_
    have hlt : c.pos < b.pos := by
      have hc' := hsiz c (List.mem_append_left _ hc)
      have hle := hbefore c hc
      omega
    simp [hlt]
  have hys : total (fun c ↦ inUse r c && decide (c.pos < b.pos)) (b :: ys) =
      total (fun _ ↦ false) (b :: ys) := by
    refine total_congr fun c hc ↦ ?_
    have hge : ¬c.pos < b.pos := by
      rcases List.mem_cons.mp hc with rfl | hc
      · exact Nat.lt_irrefl _
      · have hle := hafter c hc
        omega
    simp [hge]
  rw [total_append, hxs, hys]
  simp [total]

theorem total_after (htiles : Tiles lo (xs ++ b :: ys) hi)
    (hsiz : ∀ c ∈ xs ++ b :: ys, minimum ≤ c.siz) :
    total (fun c ↦ inUse r c && decide (b.pos ≤ c.pos)) (xs ++ b :: ys) =
      total (inUse r) (b :: ys) := by
  obtain ⟨hbefore, hafter⟩ := htiles.around
  have hmin : minimum = 6 := rfl
  have hxs : total (fun c ↦ inUse r c && decide (b.pos ≤ c.pos)) xs = total (fun _ ↦ false) xs := by
    refine total_congr fun c hc ↦ ?_
    have hlt : ¬b.pos ≤ c.pos := by
      have hc' := hsiz c (List.mem_append_left _ hc)
      have hle := hbefore c hc
      omega
    simp [hlt]
  have hys : total (fun c ↦ inUse r c && decide (b.pos ≤ c.pos)) (b :: ys) =
      total (inUse r) (b :: ys) := by
    refine total_congr fun c hc ↦ ?_
    have hge : b.pos ≤ c.pos := by
      rcases List.mem_cons.mp hc with rfl | hc
      · exact Nat.le_refl _
      · have hle := hafter c hc
        omega
    simp [hge]
  rw [total_append, hxs, hys]
  simp [total]

/-- On a north road a box goes above those before it. -/
theorem Heap.newPos_north (hheap : Heap mat_p r (xs ++ b :: ys)) (hnorth : r.isNorth = true) :
    newPos r (xs ++ b :: ys) b.pos = r.rut_p + total (inUse r) xs := by
  rw [newPos, if_pos hnorth, total_before hheap.tiles hheap.siz]

/-- On a south road a box goes below those after it. -/
theorem Heap.newPos_south (hheap : Heap mat_p r (xs ++ b :: ys)) (hsouth : r.isNorth = false) :
    newPos r (xs ++ b :: ys) b.pos = r.rut_p - total (inUse r) (b :: ys) := by
  rw [newPos, if_neg (by simp [hsouth]), total_after hheap.tiles hheap.siz]

/-- The words of a box that say what it is. -/
theorem Heap.box (hheap : Heap mat_p r bs) (hb : b ∈ bs) :
    6 ≤ b.siz ∧ r.loom b.pos = b.siz ∧ r.loom (b.pos + b.siz - 1) = b.siz ∧
      r.loom (b.pos + 1) < 0x80000000 ∧ (inUse r b = true ↔ r.loom (b.pos + 1) ≠ 0) := by
  obtain ⟨hhead, htail⟩ := hheap.tagged b hb
  exact ⟨hheap.siz b hb, hhead, htail, hheap.use b hb, inUse_iff⟩

theorem Heap.live_inUse (hheap : Heap mat_p r bs) (hb : b ∈ bs) {len : ℕ}
    (hstate : b.state = .live len) :
    inUse r b = true ∧ len + 3 ≤ b.siz := by
  have hstate' := hheap.state b hb
  simp only [hstate, reduceCtorEq, false_and, or_false] at hstate'
  obtain ⟨_, heq, hne, hle⟩ := hstate'
  cases heq
  exact ⟨inUse_iff.mpr hne, hle⟩

/-- A box that is in use is an allocation when the lists have been cleared. -/
theorem Heap.keptState (hheap : Heap mat_p r bs) (hb : b ∈ bs) :
    ∃ len, Pack.keptState b = .live len ∧ len + 3 ≤ b.siz := by
  have hsiz : 6 ≤ b.siz := hheap.siz b hb
  cases hstate : b.state with
  | live len => exact ⟨len, by simp [Pack.keptState, hstate], (Heap.live_inUse hheap hb hstate).2⟩
  | free => exact ⟨b.siz - 3, by simp [Pack.keptState, hstate], by omega⟩
  | cell => exact ⟨b.siz - 3, by simp [Pack.keptState, hstate], by omega⟩
  | held => exact ⟨b.siz - 3, by simp [Pack.keptState, hstate], by omega⟩
  | raw use => exact ⟨b.siz - 3, by simp [Pack.keptState, hstate], by omega⟩

theorem exists_inUse (hheap : Heap mat_p r bs) {p : ℕ} (hp : p ∈ ptrsOf bs) :
    ∃ b ∈ bs, inUse r b = true ∧ p = b.pos + 2 := by
  obtain ⟨b, hb, ⟨len, hstate⟩, rfl⟩ := mem_ptrsOf.mp hp
  exact ⟨b, hb, (Heap.live_inUse hheap hb hstate).1, rfl⟩

theorem ptrsOf_length_le (bs : List Box) : (ptrsOf bs).length ≤ bs.length := by
  rw [ptrsOf, List.length_map]
  exact List.length_filterMap_le _ _

/-- A word that is inside is rewritten as it should be, if all pointers are. -/
theorem rewrittenNoun_eq {s : Road} (hheap : Heap mat_p r bs) (hinside : Inside bs som)
    (hrewrites : ∀ b ∈ bs, inUse r b = true → rewritten s (b.pos + 2) = newPtr r bs (b.pos + 2)) :
    rewrittenNoun s som = forwardNoun r bs som := by
  unfold rewrittenNoun forwardNoun
  cases hcat : isCat som with
  | true => rfl
  | false =>
    obtain ⟨b, hb, huse, hpos⟩ := exists_inUse hheap (hinside hcat)
    simp only [hpos, hrewrites b hb huse]

/-- The heap of a road that is packed has no free boxes. -/
theorem packed_invariant (hheap : Heap mat_p r bs) (htiles : Tiles r'.low (packed r bs) r'.high)
    (hwords : ∀ b ∈ bs, inUse r b = true → r'.loom (newPos r bs b.pos) = b.siz ∧
      r'.loom (newPos r bs b.pos + b.siz - 1) = b.siz ∧
        r'.loom (newPos r bs b.pos + 1) = r.loom (b.pos + 1))
    (hfre : ∀ sel < fboxNo, r'.fre_p sel = 0) (hcel : r'.cel_p = 0) :
    BoxInvariant r' (livesOf (packed r bs)) (packed r bs) := by
  have hmem : ∀ c ∈ packed r bs, ∃ b ∈ bs, inUse r b = true ∧
      c = ⟨newPos r bs b.pos, b.siz, keptState b⟩ := by
    intro c hc
    obtain ⟨b, hb, rfl⟩ := List.mem_map.mp hc
    obtain ⟨hb, huse⟩ := List.mem_filter.mp hb
    exact ⟨b, hb, huse, rfl⟩
  have hlive : ∀ c ∈ packed r bs, ∃ len, c.state = .live len ∧ len + 3 ≤ c.siz ∧
      r'.loom (c.pos + 1) ≠ 0 := by
    intro c hc
    obtain ⟨b, hb, huse, rfl⟩ := hmem c hc
    obtain ⟨len, hstate, hle⟩ := Heap.keptState hheap hb
    refine ⟨len, hstate, hle, ?_⟩
    show r'.loom (newPos r bs b.pos + 1) ≠ 0
    rw [(hwords b hb huse).2.2]
    exact inUse_iff.mp huse
  have hnofree : ∀ sel, freeOn (packed r bs) sel = [] := by
    intro sel
    rw [freeOn, List.map_eq_nil_iff, List.filter_eq_nil_iff]
    intro c hc
    obtain ⟨len, hstate, _⟩ := hlive c hc
    simp [hstate]
  have hnocell : cellsOf (packed r bs) = [] := by
    rw [cellsOf, List.map_eq_nil_iff, List.filter_eq_nil_iff]
    intro c hc
    obtain ⟨len, hstate, _⟩ := hlive c hc
    simp [hstate]
  have hsiz : ∀ c ∈ packed r bs, 0 < c.siz := by
    intro c hc
    obtain ⟨len, _, hle, _⟩ := hlive c hc
    omega
  refine ⟨htiles, htiles.nodup hsiz, fun c hc ↦ ?_, fun c hc ↦ ?_, fun sel hsel ↦ ?_, ?_,
    .refl _, ?_⟩
  · obtain ⟨b, hb, huse, rfl⟩ := hmem c hc
    obtain ⟨hhead, htail, _⟩ := hwords b hb huse
    exact ⟨hhead, htail⟩
  · obtain ⟨len, hstate, hle, huse⟩ := hlive c hc
    exact .inl ⟨len, hstate, huse, hle⟩
  · exact ⟨[], by rw [hnofree], .nil, hfre sel hsel⟩
  · exact ⟨[], by rw [hnocell], .nil, hcel⟩
  · refine lives_apart htiles fun c hc len hstate ↦ ?_
    obtain ⟨len', hstate', hle, _⟩ := hlive c hc
    rw [hstate] at hstate'
    cases hstate'
    exact hle

/-- The first sweep, when it is done with some boxes: where they go is recorded in them. -/
structure Sought (r : Road) (bs done : List Box) (s : Road) : Prop where
  road : s = { r with loom := s.loom }
  records : ∀ b ∈ done, inUse r b = true → s.loom (slot r b) = newPtr r bs (b.pos + 2)
  frame : ∀ w, (∀ b ∈ done, inUse r b = true → w ≠ slot r b) → s.loom w = r.loom w

/-- One more box that is in use. -/
theorem Sought.record {done : List Box} {s : Road} (hsought : Sought r bs done s)
    (huse : inUse r b = true) (hdone : ∀ c, c ∈ done' ↔ c ∈ done ∨ c = b)
    (hne : ∀ c ∈ done, slot r c ≠ slot r b) :
    Sought r bs done' (s.put (slot r b) (newPtr r bs (b.pos + 2))) := by
  refine ⟨by rw [hsought.road]; rfl, fun c hc hcuse ↦ ?_, fun w hw ↦ ?_⟩
  · rw [Road.loom_put]
    rcases (hdone c).mp hc with hc | rfl
    · rw [Function.update_of_ne (hne c hc)]
      exact hsought.records c hc hcuse
    · exact Function.update_self ..
  · rw [Road.loom_put, Function.update_of_ne (hw b ((hdone b).mpr (.inr rfl)) huse)]
    exact hsought.frame w fun c hc ↦ hw c ((hdone c).mpr (.inl hc))

/-- One more box that is free. -/
theorem Sought.skip {done : List Box} {s : Road} (hsought : Sought r bs done s)
    (hfree : inUse r b = false) (hdone : ∀ c, c ∈ done' ↔ c ∈ done ∨ c = b) :
    Sought r bs done' s := by
  refine ⟨hsought.road, fun c hc hcuse ↦ ?_, fun w hw ↦
    hsought.frame w fun c hc ↦ hw c ((hdone c).mpr (.inl hc))⟩
  rcases (hdone c).mp hc with hc | rfl
  · exact hsought.records c hc hcuse
  · simp [hcuse] at hfree

end

/-! ### After the walk -/

section

variable {V : ℕ → ℕ → Prop} {mat_p : ℕ} {r r₁ r₂ s : Road} {bs done : List Box} {b : Box}
  {roots reached : List ℕ} {reach : ℕ → Prop}

/-- The words of a cell and its use count, as words of its box. -/
theorem Heap.cell_words (hheap : Heap mat_p r bs) {p : ℕ} (hp : p ∈ ptrsOf bs) :
    ∃ c ∈ bs, inUse r c = true ∧ 6 ≤ c.siz ∧ p = c.pos + 2 ∧ p - 2 + 1 = c.pos + 1 ∧
    p + 1 = c.pos + 3 ∧
      p + 2 = c.pos + 4 := by
  obtain ⟨c, hc, huse, rfl⟩ := exists_inUse hheap hp
  exact ⟨c, hc, huse, hheap.siz c hc, rfl, by omega, by omega, by omega⟩

/-- The walk does not change the first and the last word of a box. -/
theorem Touched.edge (htouched : Touched V r₁ reach s) (hheap : Heap mat_p r bs)
    (hreach : ∀ p, reach p → p ∈ ptrsOf bs) (hb : b ∈ bs) {i : ℕ} (hi : i = 0 ∨ i + 1 = b.siz) :
    s.loom (b.pos + i) = r₁.loom (b.pos + i) := by
  have hsiz : 6 ≤ b.siz := hheap.siz b hb
  rcases htouched.word (b.pos + i) with hsame | ⟨p, hp, hw, _⟩ | ⟨p, hp, hw, _⟩
  · exact hsame
  · obtain ⟨c, hc, _, hcsiz, _, huse, _⟩ := Heap.cell_words hheap (hreach p hp)
    obtain ⟨rfl, _⟩ := hheap.tiles.word_unique hb hc (by omega) (by omega) (hw.trans huse)
    omega
  · obtain ⟨c, hc, _, hcsiz, _, _, hhed, htel⟩ := Heap.cell_words hheap (hreach p hp)
    rcases hw with hw | hw
    · obtain ⟨rfl, _⟩ := hheap.tiles.word_unique hb hc (by omega) (by omega) (hw.trans hhed)
      omega
    · obtain ⟨rfl, _⟩ := hheap.tiles.word_unique hb hc (by omega) (by omega) (hw.trans htel)
      omega

/-- A word of a box that is not its first or its last is as it was before the first sweep. -/
theorem Sought.inner (hsought : Sought r bs done r₁) (hheap : Heap mat_p r bs)
    (hdone : ∀ c ∈ done, c ∈ bs) (hb : b ∈ bs) {i : ℕ} (hpos : 0 < i) (hi : i + 1 < b.siz) :
    r₁.loom (b.pos + i) = r.loom (b.pos + i) := by
  refine hsought.frame _ fun c hc _ heq ↦ ?_
  have hsiz : 6 ≤ c.siz := hheap.siz c (hdone c hc)
  unfold slot at heq
  split_ifs at heq
  · obtain ⟨rfl, _⟩ := hheap.tiles.word_unique hb (hdone c hc) (by omega : i < b.siz)
      (by omega : c.siz - 1 < c.siz) (by omega)
    omega
  · obtain ⟨rfl, _⟩ := hheap.tiles.word_unique hb (hdone c hc) (by omega : i < b.siz)
      (by omega : 0 < c.siz) (by omega)
    omega

theorem Sought.words (hsought : Sought r bs done r₁) (hheap : Heap mat_p r bs)
    (hdone : ∀ c ∈ done, c ∈ bs) :
    ∀ p ∈ ptrsOf bs, r₁.loom (p - 2 + 1) = r.loom (p - 2 + 1) ∧ r₁.loom (p + 1) = r.loom (p + 1) ∧
      r₁.loom (p + 2) = r.loom (p + 2) := by
  intro p hp
  obtain ⟨c, hc, _, hsiz, _, huse, hhed, htel⟩ := Heap.cell_words hheap hp
  rw [huse, hhed, htel]
  exact ⟨hsought.inner hheap hdone hc (by decide) (by omega),
    hsought.inner hheap hdone hc (by decide) (by omega),
    hsought.inner hheap hdone hc (by decide) (by omega)⟩

/-- A road when the roots have been walked: the use counts may have marks, and the pointers are new.
-/
structure Walked (r : Road) (bs : List Box) (roots : List ℕ) (r₁ r₂ : Road) : Prop where
  road : r₂ = { r with loom := r₂.loom }
  edge : ∀ b ∈ bs, ∀ i, i = 0 ∨ i + 1 = b.siz → r₂.loom (b.pos + i) = r₁.loom (b.pos + i)
  use : ∀ b ∈ bs, r₂.loom (b.pos + 1) &&& 0x7fffffff = r.loom (b.pos + 1)
  words : ∀ b ∈ bs, ∀ i, 2 ≤ i → i + 1 < b.siz →
    r₂.loom (b.pos + i) = forwarded r bs roots (b.pos + i)
  outside : ∀ w, w < r.low ∨ r.high ≤ w → r₂.loom w = r.loom w

theorem Rewrote.walked
    (hrewrote : Rewrote (fun w v ↦ v = forwardNoun r bs (r.loom w)) r₁ reached reached r₂)
    (hsought : Sought r bs done r₁) (hheap : Heap mat_p r bs) (hdone : ∀ c ∈ done, c ∈ bs)
    (hreached : ∀ p, p ∈ reached ↔ Reaches r roots p)
    (hmem : ∀ p, Reaches r roots p → p ∈ ptrsOf bs) :
    Walked r bs roots r₁ r₂ := by
  have hcell : ∀ p ∈ reached, ∃ c ∈ bs, inUse r c = true ∧ 6 ≤ c.siz ∧ p = c.pos + 2 ∧
      p - 2 + 1 = c.pos + 1 ∧ p + 1 = c.pos + 3 ∧ p + 2 = c.pos + 4 :=
    fun p hp ↦ Heap.cell_words hheap (hmem p ((hreached p).mp hp))
  have htouched := hrewrote.touched (fun p hp ↦ (hreached p).mp hp) fun p hp ↦ (hreached p).mp hp
  refine ⟨?_, fun b hb i hi ↦ htouched.edge hheap hmem hb hi, fun b hb ↦ ?_,
    fun b hb i hlow hi ↦ ?_, fun w hw ↦ ?_⟩
  · rw [hrewrote.road, hsought.road]
  · have hsiz : 6 ≤ b.siz := hheap.siz b hb
    have hlt := hheap.use b hb
    have hold := hsought.inner hheap hdone hb (by decide : 0 < 1) (by omega)
    by_cases huse : b.pos + 2 ∈ reached
    · have hmark := hrewrote.use _ huse
      rw [Nat.add_sub_cancel, hold] at hmark
      rw [hmark]
      exact (use_marked hlt).2
    · rw [hrewrote.frame _ (fun p hp heq ↦ ?_) fun p hp ↦ ?_, hold]
      · exact use_kept hlt
      · obtain ⟨c, hc, _, _, hpos, huse', _⟩ := hcell p hp
        obtain ⟨rfl, _⟩ := hheap.tiles.word_unique hb hc (by omega) (by omega) (heq.trans huse')
        exact huse (hpos ▸ hp)
      · obtain ⟨c, hc, _, _, _, _, hhed, htel⟩ := hcell p hp
        constructor
        · intro heq
          have hone := (hheap.tiles.word_unique hb hc (by omega) (by omega) (heq.trans hhed)).2
          omega
        · intro heq
          have hone := (hheap.tiles.word_unique hb hc (by omega) (by omega) (heq.trans htel)).2
          omega
  · unfold forwarded
    split_ifs with hfield
    · obtain ⟨p, hp, heq | heq⟩ := hfield
      · rw [heq]
        exact (hrewrote.word p ((hreached p).mpr hp)).1
      · rw [heq]
        exact (hrewrote.word p ((hreached p).mpr hp)).2
    · rw [hrewrote.frame _ (fun p hp heq ↦ ?_) fun p hp ↦ ⟨fun heq ↦ ?_, fun heq ↦ ?_⟩]
      · exact hsought.inner hheap hdone hb (by omega) hi
      · obtain ⟨c, hc, _, _, _, huse, _⟩ := hcell p hp
        have hone := (hheap.tiles.word_unique hb hc (by omega) (by omega) (heq.trans huse)).2
        omega
      · exact hfield ⟨p, (hreached p).mp hp, .inl heq⟩
      · exact hfield ⟨p, (hreached p).mp hp, .inr heq⟩
  · have hin : ∀ c ∈ bs, ∀ i < c.siz, w ≠ c.pos + i := by
      intro c hc i hi heq
      have hrange := hheap.tiles.mem hc
      omega
    rw [hrewrote.frame w (fun p hp ↦ ?_) fun p hp ↦ ?_]
    · refine hsought.frame w fun c hc _ heq ↦ ?_
      have hsiz : 6 ≤ c.siz := hheap.siz c (hdone c hc)
      unfold slot at heq
      split_ifs at heq
      · exact hin c (hdone c hc) (c.siz - 1) (by omega) (by omega)
      · exact hin c (hdone c hc) 0 (by omega) heq
    · obtain ⟨c, hc, _, _, _, huse, _⟩ := hcell p hp
      rw [huse]
      exact hin c hc 1 (by omega)
    · obtain ⟨c, hc, _, _, _, _, hhed, htel⟩ := hcell p hp
      rw [hhed, htel]
      exact ⟨hin c hc 3 (by omega), hin c hc 4 (by omega)⟩

/-- The second sweep, when it is done with some boxes: those that are in use are where they go. -/
structure Moved (r : Road) (bs : List Box) (roots : List ℕ) (r₂ : Road) (done : List Box)
    (s : Road) :
    Prop where
  road : s = { r₂ with loom := s.loom }
  size : ∀ b ∈ done, inUse r b = true → s.loom (newPos r bs b.pos) = b.siz ∧
    s.loom (newPos r bs b.pos + b.siz - 1) = b.siz
  use : ∀ b ∈ done, inUse r b = true → s.loom (newPos r bs b.pos + 1) = r.loom (b.pos + 1)
  words : ∀ b ∈ done, inUse r b = true → ∀ i, 2 ≤ i → i + 1 < b.siz →
    s.loom (newPos r bs b.pos + i) = forwarded r bs roots (b.pos + i)

/-- The boxes that have been moved are not written again. -/
theorem Moved.keep {s' : Road} (hmoved : Moved r bs roots r₂ done s)
    (hroad : s' = { s with loom := s'.loom })
    (hold : ∀ c ∈ done, inUse r c = true → 6 ≤ c.siz ∧ ∀ i < c.siz,
      s'.loom (newPos r bs c.pos + i) = s.loom (newPos r bs c.pos + i)) :
    Moved r bs roots r₂ done s' := by
  refine ⟨?_, fun c hc hcuse ↦ ?_, fun c hc hcuse ↦ ?_, fun c hc hcuse i hlow hi ↦ ?_⟩
  · rw [hroad, hmoved.road]
  · obtain ⟨hsiz, hsame⟩ := hold c hc hcuse
    obtain ⟨hhead, htail⟩ := hmoved.size c hc hcuse
    rw [Nat.add_sub_assoc (by omega), hsame _ (by omega), ← Nat.add_sub_assoc (by omega)]
    exact ⟨(hsame 0 (by omega)).trans hhead, htail⟩
  · obtain ⟨hsiz, hsame⟩ := hold c hc hcuse
    rw [hsame 1 (by omega)]
    exact hmoved.use c hc hcuse
  · rw [(hold c hc hcuse).2 i (by omega)]
    exact hmoved.words c hc hcuse i hlow hi

/-- One more box that is in use. -/
theorem Moved.more (hmoved : Moved r bs roots r₂ done s) (hdone : ∀ c, c ∈ done' ↔ c ∈ done ∨ c = b)
    (hsize : s.loom (newPos r bs b.pos) = b.siz ∧ s.loom (newPos r bs b.pos + b.siz - 1) = b.siz)
    (huse : s.loom (newPos r bs b.pos + 1) = r.loom (b.pos + 1))
    (hwords : ∀ i, 2 ≤ i → i + 1 < b.siz →
      s.loom (newPos r bs b.pos + i) = forwarded r bs roots (b.pos + i)) :
    Moved r bs roots r₂ done' s := by
  refine ⟨hmoved.road, fun c hc hcuse ↦ ?_, fun c hc hcuse ↦ ?_, fun c hc hcuse ↦ ?_⟩
  · rcases (hdone c).mp hc with hc | rfl
    · exact hmoved.size c hc hcuse
    · exact hsize
  · rcases (hdone c).mp hc with hc | rfl
    · exact hmoved.use c hc hcuse
    · exact huse
  · rcases (hdone c).mp hc with hc | rfl
    · exact hmoved.words c hc hcuse
    · exact hwords

/-- One more box that is free. -/
theorem Moved.skip (hmoved : Moved r bs roots r₂ done s) (hfree : inUse r b = false)
    (hdone : ∀ c, c ∈ done' ↔ c ∈ done ∨ c = b) : Moved r bs roots r₂ done' s := by
  have hin : ∀ c ∈ done', inUse r c = true → c ∈ done := by
    intro c hc hcuse
    rcases (hdone c).mp hc with hc | rfl
    · exact hc
    · simp [hcuse] at hfree
  exact ⟨hmoved.road, fun c hc hcuse ↦ hmoved.size c (hin c hc hcuse) hcuse,
    fun c hc hcuse ↦ hmoved.use c (hin c hc hcuse) hcuse,
    fun c hc hcuse ↦ hmoved.words c (hin c hc hcuse) hcuse⟩

/-- What is left to do is to set the hat, and to clear the free lists and the cell list. -/
theorem Moved.packed {hat_p : ℕ} {fre_p : ℕ → ℕ} (hmoved : Moved r bs roots r₂ bs s)
    (hheap : Heap mat_p r bs) (hroad : r₂ = { r with loom := r₂.loom })
    (hnorth : { s with hat_p := hat_p, fre_p := fre_p, cel_p := 0 }.isNorth = r.isNorth)
    (htiles : Tiles { s with hat_p := hat_p, fre_p := fre_p, cel_p := 0 }.low (packed r bs)
      { s with hat_p := hat_p, fre_p := fre_p, cel_p := 0 }.high)
    (hfre : ∀ sel < fboxNo, fre_p sel = 0)
    (houtside : ∀ w, w < r.low ∨ r.high ≤ w → s.loom w = r.loom w) :
    Packed r bs roots { s with hat_p := hat_p, fre_p := fre_p, cel_p := 0 } := by
  refine ⟨⟨?_, ?_, ?_, hnorth⟩, packed_invariant hheap htiles (fun b hb huse ↦ ?_) hfre rfl,
    hmoved.use, hmoved.words, houtside⟩
  · rw [hmoved.road, hroad]
  · rw [hmoved.road, hroad]
  · rw [hmoved.road, hroad]
  · obtain ⟨hhead, htail⟩ := hmoved.size b hb huse
    exact ⟨hhead, htail, hmoved.use b hb huse⟩

end

end Vere.Noun.Pack
