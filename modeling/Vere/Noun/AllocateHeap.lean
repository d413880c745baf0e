import Mathlib.Data.List.Perm.Basic
import Vere.Lib.Linked
import Vere.Noun.Allocate

/-!
# The heap of a road

`Rep r bs` says that the boxes `bs` are the heap of the road `r`: they tile it, their size words and
use counts are right, and the free lists and the cell list hold the boxes that they should. The
operations on boxes are edits of `bs`. Between two of them a box can be `held`, on no list, or
`raw`, without size words.
-/

set_option autoImplicit false

namespace Vere.Noun.Allocate

open Lib

/-- What a box is used for: an allocation of some length, a free list, the cell list, or nothing
yet. -/
inductive State
  | live (len : ℕ) : State
  | free : State
  | cell : State
  | held : State
  | raw (use : ℕ) : State
  deriving DecidableEq

/-- A box: where it is, its size and its state. -/
structure Box where
  pos : ℕ
  siz : ℕ
  state : State

/-- The size words of a box. -/
def Box.Tagged (loom : ℕ → ℕ) (b : Box) : Prop :=
  loom b.pos = b.siz ∧ loom (b.pos + b.siz - 1) = b.siz

/-- The words of a box other than its links. -/
def Box.Ok (loom : ℕ → ℕ) (b : Box) : Prop :=
  minimum ≤ b.siz ∧
    match b.state with
    | .live len => b.Tagged loom ∧ loom (b.pos + 1) = 1 ∧ len + 3 ≤ b.siz
    | .free => b.Tagged loom ∧ loom (b.pos + 1) = 0
    | .cell => b.Tagged loom ∧ loom (b.pos + 1) = 1
    | .held => b.Tagged loom ∧ loom (b.pos + 1) = 0
    | .raw use => loom (b.pos + 1) = use

/-- Boxes that tile a region. -/
def Tiles : ℕ → List Box → ℕ → Prop
  | lo, [], hi => lo = hi
  | lo, b :: bs, hi => b.pos = lo ∧ Tiles (lo + b.siz) bs hi

/-- The boxes that a free list should hold. -/
def freeOn (bs : List Box) (sel : ℕ) : List ℕ :=
  (bs.filter fun b ↦ b.state = .free ∧ boxSlot b.siz = sel).map Box.pos

/-- The boxes that the cell list should hold. -/
def cellsOf (bs : List Box) : List ℕ := (bs.filter fun b ↦ b.state = .cell).map Box.pos

/-- The allocations, with the lengths that were asked for. -/
def livesOf (bs : List Box) : List (ℕ × ℕ) :=
  bs.filterMap fun b ↦
    match b.state with
    | .live len => some (b.pos + 2, len)
    | _ => none

/-- The lower end of the heap. -/
def Road.low (r : Road) : ℕ := if r.isNorth then r.rut_p else r.hat_p

/-- The upper end of the heap. -/
def Road.high (r : Road) : ℕ := if r.isNorth then r.hat_p else r.rut_p

/-- The boxes are the heap of the road. -/
structure Rep (r : Road) (bs : List Box) : Prop where
  pos : 0 < r.low
  cap_le : r.cap_p ≤ 2 ^ 30
  rut_le : r.rut_p ≤ 2 ^ 30
  tiles : Tiles r.low bs r.high
  ok : ∀ b ∈ bs, b.Ok r.loom
  fre : ∀ sel < fboxNo, ∃ l, l.Perm (freeOn bs sel) ∧
    Linked 0 (fun p ↦ r.loom (p + 2)) (fun p ↦ r.loom (p + 3)) 0 (r.fre_p sel) l
  cel : ∃ l, l.Perm (cellsOf bs) ∧ Chained 0 (fun p ↦ r.loom (p + 3)) r.cel_p l

/-! ### Tiling -/

variable {hi lo siz : ℕ} {xs ys bs : List Box} {b c : Box} {r r' : Road}

theorem Tiles.append_iff : Tiles lo (xs ++ ys) hi ↔ ∃ mid, Tiles lo xs mid ∧ Tiles mid ys hi := by
  induction xs generalizing lo with
  | nil => simp [Tiles]
  | cons b xs ih => simp [Tiles, ih, and_assoc]

theorem Tiles.le (htiles : Tiles lo bs hi) : lo ≤ hi := by
  induction bs generalizing lo with
  | nil => exact Nat.le_of_eq htiles
  | cons b bs ih => exact (Nat.le_add_right lo b.siz).trans (ih htiles.2)

theorem Tiles.mem (htiles : Tiles lo bs hi) (hb : b ∈ bs) : lo ≤ b.pos ∧ b.pos + b.siz ≤ hi := by
  obtain ⟨xs, ys, rfl⟩ := List.append_of_mem hb
  obtain ⟨mid, hxs, rfl, hys⟩ := Tiles.append_iff.mp htiles
  exact ⟨hxs.le, hys.le⟩

theorem Tiles.around (htiles : Tiles lo (xs ++ b :: ys) hi) :
    (∀ c ∈ xs, c.pos + c.siz ≤ b.pos) ∧ ∀ c ∈ ys, b.pos + b.siz ≤ c.pos := by
  obtain ⟨mid, hxs, rfl, hys⟩ := Tiles.append_iff.mp htiles
  exact ⟨fun c hc ↦ (hxs.mem hc).2, fun c hc ↦ (hys.mem hc).1⟩

/-- Two boxes are the same or apart. -/
theorem Tiles.apart (htiles : Tiles lo bs hi) (hb : b ∈ bs) (hc : c ∈ bs) :
    b = c ∨ b.pos + b.siz ≤ c.pos ∨ c.pos + c.siz ≤ b.pos := by
  obtain ⟨xs, ys, rfl⟩ := List.append_of_mem hb
  obtain ⟨hbefore, hafter⟩ := htiles.around
  rcases List.mem_append.mp hc with hc | hc
  · exact .inr (.inr (hbefore c hc))
  · rcases List.mem_cons.mp hc with rfl | hc
    · exact .inl rfl
    · exact .inr (.inl (hafter c hc))

/-- A word is in one box only. -/
theorem Tiles.word_unique (htiles : Tiles lo bs hi) (hb : b ∈ bs) (hc : c ∈ bs) {i j : ℕ}
    (hi : i < b.siz) (hj : j < c.siz) (heq : b.pos + i = c.pos + j) : b = c ∧ i = j := by
  rcases htiles.apart hb hc with rfl | hapart
  · exact ⟨rfl, Nat.add_left_cancel heq⟩
  · omega

/-! ### Words -/

@[simp] theorem ok_bind {α β : Type} (a : α) (f : α → Except Fault β) :
    Except.ok a >>= f = f a := rfl

theorem Road.loom_put (r : Road) (w v : ℕ) : (r.put w v).loom = Function.update r.loom w v := rfl

theorem Box.Ok.congr {loom loom' : ℕ → ℕ} (hok : b.Ok loom) (hpos : loom' b.pos = loom b.pos)
    (huse : loom' (b.pos + 1) = loom (b.pos + 1))
    (htail : loom' (b.pos + b.siz - 1) = loom (b.pos + b.siz - 1)) : b.Ok loom' := by
  obtain ⟨pos, siz, state⟩ := b
  cases state <;> simpa only [Box.Ok, Box.Tagged, hpos, huse, htail] using hok

theorem Rep.siz_le (hrep : Rep r bs) (hb : b ∈ bs) : 6 ≤ b.siz := (hrep.ok b hb).1

/-- The first words of two boxes are apart. -/
theorem Rep.word_ne (hrep : Rep r bs) (hb : b ∈ bs) (hc : c ∈ bs) {i j : ℕ} (hi : i < 6)
    (hj : j < 6) (hne : b.pos ≠ c.pos ∨ i ≠ j) : b.pos + i ≠ c.pos + j := by
  intro heq
  obtain ⟨rfl, rfl⟩ := hrep.tiles.word_unique hb hc (hi.trans_le (hrep.siz_le hb))
    (hj.trans_le (hrep.siz_le hc)) heq
  tauto

/-- Writing links does not change the other words. -/
theorem Rep.ok_of_links (hrep : Rep r bs) {loom : ℕ → ℕ}
    (hlinks : ∀ w, (∀ c ∈ bs, w ≠ c.pos + 2 ∧ w ≠ c.pos + 3) → loom w = r.loom w) (hb : b ∈ bs)
    {state : State} (hok : (⟨b.pos, b.siz, state⟩ : Box).Ok r.loom) :
    (⟨b.pos, b.siz, state⟩ : Box).Ok loom := by
  have hsiz := hrep.siz_le hb
  have hword : ∀ i < b.siz, i ≠ 2 → i ≠ 3 → loom (b.pos + i) = r.loom (b.pos + i) := by
    intro i hi hpre hnex
    refine hlinks _ fun c hc ↦ ?_
    have hsiz' := hrep.siz_le hc
    rcases hrep.tiles.apart hb hc with rfl | hapart <;> omega
  refine hok.congr (hword 0 (by omega) (by omega) (by omega))
    (hword 1 (by omega) (by omega) (by omega)) ?_
  show loom (b.pos + b.siz - 1) = r.loom (b.pos + b.siz - 1)
  rw [Nat.add_sub_assoc (by omega)]
  exact hword (b.siz - 1) (by omega) (by omega) (by omega)

theorem mem_freeOn {sel p : ℕ} :
    p ∈ freeOn bs sel ↔ ∃ c ∈ bs, c.state = .free ∧ boxSlot c.siz = sel ∧ c.pos = p := by
  simp [freeOn, and_assoc]

theorem mem_cellsOf {p : ℕ} : p ∈ cellsOf bs ↔ ∃ c ∈ bs, c.state = .cell ∧ c.pos = p := by
  simp [cellsOf, and_assoc]

theorem boxSlotLoop_lt {left : ℕ} (hleft : left < fboxNo) : boxSlotLoop left siz < fboxNo := by
  induction left generalizing siz with
  | zero => exact (by decide : fboxNo - 1 < fboxNo)
  | succ left ih =>
    rw [boxSlotLoop]
    split_ifs
    · unfold fboxNo
      omega
    · exact ih (by omega)

theorem boxSlot_lt (siz : ℕ) : boxSlot siz < fboxNo := by
  unfold boxSlot
  split_ifs
  · decide
  · exact boxSlotLoop_lt (by decide)

theorem Tiles.nodup (htiles : Tiles lo bs hi) (hsiz : ∀ b ∈ bs, 0 < b.siz) :
    (bs.map Box.pos).Nodup := by
  induction bs generalizing lo with
  | nil => simp
  | cons b bs ih =>
    obtain ⟨rfl, hrest⟩ := htiles
    rw [List.map_cons, List.nodup_cons]
    refine ⟨fun hmem ↦ ?_, ih hrest fun c hc ↦ hsiz c (by simp [hc])⟩
    obtain ⟨c, hc, hpos⟩ := List.mem_map.mp hmem
    have hle := (hrest.mem hc).1
    have hb := hsiz b (by simp)
    omega

theorem Rep.nodup (hrep : Rep r bs) : (bs.map Box.pos).Nodup :=
  hrep.tiles.nodup fun _ hb ↦ (by decide : 0 < 6).trans_le (hrep.siz_le hb)

theorem Rep.pos_ne_zero (hrep : Rep r bs) (hb : b ∈ bs) : b.pos ≠ 0 := by
  have hpos := hrep.pos
  have hle := (hrep.tiles.mem hb).1
  omega

/-- The words of a free list. -/
theorem Rep.freeOn_nodup (hrep : Rep r bs) (sel : ℕ) : (freeOn bs sel).Nodup :=
  hrep.nodup.sublist (List.filter_sublist.map Box.pos)

/-! ### Boxes on no list -/

/-- A box that is on no list. -/
def Box.Off (b : Box) : Prop := b.state ≠ .free ∧ b.state ≠ .cell

theorem freeOn_append (xs ys : List Box) (sel : ℕ) :
    freeOn (xs ++ ys) sel = freeOn xs sel ++ freeOn ys sel := by
  simp [freeOn]

theorem cellsOf_append (xs ys : List Box) : cellsOf (xs ++ ys) = cellsOf xs ++ cellsOf ys := by
  simp [cellsOf]

theorem livesOf_append (xs ys : List Box) : livesOf (xs ++ ys) = livesOf xs ++ livesOf ys := by
  simp [livesOf]

theorem freeOn_of_off (hoff : ∀ b ∈ bs, b.Off) (sel : ℕ) : freeOn bs sel = [] := by
  simp only [freeOn, List.map_eq_nil_iff, List.filter_eq_nil_iff]
  intro b hb
  simp [(hoff b hb).1]

theorem cellsOf_of_off (hoff : ∀ b ∈ bs, b.Off) : cellsOf bs = [] := by
  simp only [cellsOf, List.map_eq_nil_iff, List.filter_eq_nil_iff]
  intro b hb
  simp [(hoff b hb).2]

/-- Boxes on no list can be written, and regrouped. -/
theorem Rep.replace {ms : List Box} (hrep : Rep r (xs ++ ms ++ ys)) (zs : List Box) (loom : ℕ → ℕ)
    (hms : ∀ b ∈ ms, b.Off) (hzs : ∀ b ∈ zs, b.Off)
    (htiles : ∀ lo hi, Tiles lo ms hi → Tiles lo zs hi) (hok : ∀ b ∈ zs, b.Ok loom)
    (hloom : ∀ w, (∀ b ∈ ms, w < b.pos ∨ b.pos + b.siz ≤ w) → loom w = r.loom w) :
    Rep { r with loom := loom } (xs ++ zs ++ ys) := by
  -- the words of the other boxes are not written
  have hword : ∀ c ∈ xs ++ ys, ∀ i < c.siz, loom (c.pos + i) = r.loom (c.pos + i) := by
    intro c hc i hi
    refine hloom _ fun b hb ↦ ?_
    obtain ⟨mid, hpre, hys⟩ := Tiles.append_iff.mp hrep.tiles
    obtain ⟨mid', hxs, hms'⟩ := Tiles.append_iff.mp hpre
    have hin := hms'.mem hb
    rcases List.mem_append.mp hc with hc | hc
    · have hle := hxs.mem hc
      omega
    · have hle := hys.mem hc
      omega
  have hmem : ∀ c ∈ xs ++ ys, c ∈ xs ++ ms ++ ys := by
    intro c hc
    rcases List.mem_append.mp hc with hc | hc <;> simp [hc]
  have hfree : ∀ sel, freeOn (xs ++ zs ++ ys) sel = freeOn (xs ++ ms ++ ys) sel := by
    intro sel
    simp only [freeOn_append, freeOn_of_off hms, freeOn_of_off hzs]
  have hcells : cellsOf (xs ++ zs ++ ys) = cellsOf (xs ++ ms ++ ys) := by
    simp only [cellsOf_append, cellsOf_of_off hms, cellsOf_of_off hzs]
  -- a box on a list is one of the other boxes
  have hlist : ∀ c ∈ xs ++ ms ++ ys, c.state = .free ∨ c.state = .cell → c ∈ xs ++ ys := by
    intro c hc hstate
    simp only [List.mem_append] at hc ⊢
    rcases hc with (hc | hc) | hc
    · exact .inl hc
    · have hoff := hms c hc
      rw [Box.Off] at hoff
      tauto
    · exact .inr hc
  refine ⟨hrep.pos, hrep.cap_le, hrep.rut_le, ?_, ?_, fun sel hsel ↦ ?_, ?_⟩
  · obtain ⟨mid, hpre, hys⟩ := Tiles.append_iff.mp hrep.tiles
    obtain ⟨mid', hxs, hms'⟩ := Tiles.append_iff.mp hpre
    exact Tiles.append_iff.mpr ⟨mid, Tiles.append_iff.mpr ⟨mid', hxs, htiles _ _ hms'⟩, hys⟩
  · intro b hb
    by_cases hz : b ∈ zs
    · exact hok b hz
    · have hb' : b ∈ xs ++ ys := by
        simp only [List.mem_append] at hb ⊢
        tauto
      have hsiz := hrep.siz_le (hmem b hb')
      refine (hrep.ok b (hmem b hb')).congr (hword b hb' 0 (by omega)) (hword b hb' 1 (by omega)) ?_
      rw [Nat.add_sub_assoc (by omega)]
      exact hword b hb' (b.siz - 1) (by omega)
  · obtain ⟨l, hperm, hlinked⟩ := hrep.fre sel hsel
    refine ⟨l, (hfree sel).symm ▸ hperm, hlinked.congr (fun q hq ↦ ?_) fun q hq ↦ ?_⟩
    all_goals
      obtain ⟨c, hc, hstate, _, rfl⟩ := mem_freeOn.mp (hperm.mem_iff.mp hq)
      have hsiz := hrep.siz_le hc
      exact hword c (hlist c hc (.inl hstate)) _ (by omega)
  · obtain ⟨l, hperm, hchained⟩ := hrep.cel
    refine ⟨l, hcells.symm ▸ hperm, hchained.congr fun q hq ↦ ?_⟩
    obtain ⟨c, hc, hstate, rfl⟩ := mem_cellsOf.mp (hperm.mem_iff.mp hq)
    have hsiz := hrep.siz_le hc
    exact hword c (hlist c hc (.inr hstate)) _ (by omega)

/-- The words of some allocations do not change. -/
def Same (lives : List (ℕ × ℕ)) (r r' : Road) : Prop :=
  ∀ a ∈ lives, ∀ i < a.2, r'.loom (a.1 + i) = r.loom (a.1 + i)

theorem Same.refl (lives : List (ℕ × ℕ)) (r : Road) : Same lives r r := fun _ _ _ _ ↦ rfl

theorem Same.trans {lives : List (ℕ × ℕ)} {r'' : Road} (hfirst : Same lives r r')
    (hlast : Same lives r' r'') : Same lives r r'' :=
  fun a ha i hi ↦ (hlast a ha i hi).trans (hfirst a ha i hi)

theorem Same.mono {lives lives' : List (ℕ × ℕ)} (hsame : Same lives r r')
    (hsub : ∀ a ∈ lives', a ∈ lives) : Same lives' r r' := fun a ha ↦ hsame a (hsub a ha)

theorem mem_livesOf {a : ℕ × ℕ} :
    a ∈ livesOf bs ↔ ∃ b ∈ bs, b.state = .live a.2 ∧ a.1 = b.pos + 2 := by
  obtain ⟨p, len⟩ := a
  simp only [livesOf, List.mem_filterMap]
  constructor
  · rintro ⟨b, hb, hlive⟩
    refine ⟨b, hb, ?_⟩
    cases hstate : b.state with
    | live l =>
      simp only [hstate, Option.some.injEq, Prod.mk.injEq] at hlive
      exact ⟨by rw [hlive.2], hlive.1.symm⟩
    | free => simp [hstate] at hlive
    | cell => simp [hstate] at hlive
    | held => simp [hstate] at hlive
    | raw use => simp [hstate] at hlive
  · rintro ⟨b, hb, hstate, rfl⟩
    exact ⟨b, hb, by simp [hstate]⟩

/-- Writes outside of the boxes of allocations do not change their words. -/
theorem Rep.same {r r' : Road} {bs : List Box} (hrep : Rep r bs) {bs' : List Box}
    (hsub : ∀ b ∈ bs', b ∈ bs) (hloom : ∀ b ∈ bs', (∃ len, b.state = .live len) → ∀ i, 2 ≤ i →
      i < b.siz → r'.loom (b.pos + i) = r.loom (b.pos + i)) : Same (livesOf bs') r r' := by
  intro a ha i hi
  obtain ⟨b, hb, hstate, hpos⟩ := mem_livesOf.mp ha
  have hok := (hrep.ok b (hsub b hb)).2
  rw [hstate] at hok
  rw [hpos, Nat.add_assoc]
  exact hloom b hb ⟨_, hstate⟩ (2 + i) (by omega) (by omega)

/-- A step that keeps the bounds of the road. -/
structure Keeps (r r' : Road) : Prop where
  home : r'.home = r.home
  cap : r'.cap_p = r.cap_p
  hat : r'.hat_p = r.hat_p
  rut : r'.rut_p = r.rut_p

theorem Keeps.refl (r : Road) : Keeps r r := ⟨rfl, rfl, rfl, rfl⟩

theorem Keeps.trans {r'' : Road} (hfirst : Keeps r r') (hlast : Keeps r' r'') : Keeps r r'' :=
  ⟨hlast.home.trans hfirst.home, hlast.cap.trans hfirst.cap, hlast.hat.trans hfirst.hat,
    hlast.rut.trans hfirst.rut⟩

theorem Keeps.isNorth (hkeeps : Keeps r r') : r'.isNorth = r.isNorth := by
  rw [Road.isNorth, Road.isNorth, hkeeps.hat, hkeeps.cap]

theorem Keeps.low (hkeeps : Keeps r r') : r'.low = r.low := by
  rw [Road.low, Road.low, hkeeps.isNorth, hkeeps.hat, hkeeps.rut]

theorem Keeps.high (hkeeps : Keeps r r') : r'.high = r.high := by
  rw [Road.high, Road.high, hkeeps.isNorth, hkeeps.hat, hkeeps.rut]

theorem Tiles.cover {w : ℕ} (htiles : Tiles lo bs hi) (hlo : lo ≤ w) (hhi : w < hi) :
    ∃ b ∈ bs, b.pos ≤ w ∧ w < b.pos + b.siz := by
  induction bs generalizing lo with
  | nil =>
    have heq : lo = hi := htiles
    omega
  | cons b bs ih =>
    obtain ⟨rfl, hrest⟩ := htiles
    rcases Nat.lt_or_ge w (b.pos + b.siz) with hlt | hge
    · exact ⟨b, by simp, hlo, hlt⟩
    · obtain ⟨c, hc, hin⟩ := ih hrest hge
      exact ⟨c, by simp [hc], hin⟩

/-- `_box_make()` makes one box of boxes on no list. -/
theorem Rep.make {ms : List Box} (hrep : Rep r (xs ++ ms ++ ys)) (hms : ∀ b ∈ ms, b.Off) (c : Box)
    (hc : c.Off) (hsiz : minimum ≤ c.siz) (use : ℕ)
    (htiles : ∀ lo hi, Tiles lo ms hi → lo = c.pos ∧ hi = c.pos + c.siz)
    (hok : ∀ loom, c.Tagged loom → loom (c.pos + 1) = use → c.Ok loom) :
    ∃ r', boxMake r c.pos c.siz use = .ok r' ∧ Keeps r r' ∧ r'.cel_p = r.cel_p ∧
      Rep r' (xs ++ [c] ++ ys) ∧ Same (livesOf (xs ++ ys)) r r' := by
  have hmin : 6 ≤ c.siz := hsiz
  -- the words that are written are those of the box
  have hword : ∀ w, (∀ b ∈ ms, w < b.pos ∨ b.pos + b.siz ≤ w) →
      (((r.put c.pos c.siz).put (c.pos + c.siz - 1) c.siz).put (c.pos + 1) use).loom w =
        r.loom w := by
    intro w hw
    obtain ⟨mid, hpre, _⟩ := Tiles.append_iff.mp hrep.tiles
    obtain ⟨mid', _, hmid⟩ := Tiles.append_iff.mp hpre
    have hout : w < c.pos ∨ c.pos + c.siz ≤ w := by
      by_contra hin
      obtain ⟨rfl, rfl⟩ := htiles _ _ hmid
      obtain ⟨b, hb, hbin⟩ := hmid.cover (w := w) (by omega) (by omega)
      have hbout := hw b hb
      omega
    rw [Road.loom_put, Function.update_of_ne (by omega), Road.loom_put,
      Function.update_of_ne (by omega), Road.loom_put, Function.update_of_ne (by omega)]
  refine ⟨((r.put c.pos c.siz).put (c.pos + c.siz - 1) c.siz).put (c.pos + 1) use,
    if_neg (Nat.not_lt.mpr hsiz), ⟨rfl, rfl, rfl, rfl⟩, rfl, ?_, ?_⟩
  · refine hrep.replace [c] _ hms (by simpa using hc) (fun lo hi htile ↦ ?_) ?_ hword
    · obtain ⟨rfl, rfl⟩ := htiles lo hi htile
      exact ⟨rfl, rfl⟩
    · simp only [List.mem_singleton, forall_eq]
      refine hok _ ⟨?_, ?_⟩ ?_
      · rw [Function.update_of_ne (by omega), Road.loom_put, Function.update_of_ne (by omega),
          Road.loom_put, Function.update_self]
      · rw [Function.update_of_ne (by omega), Road.loom_put, Function.update_self]
      · rw [Function.update_self]
  · refine hrep.same (fun b hb ↦ ?_) fun b hb _ i _ hi ↦ hword _ fun d hd ↦ ?_
    · rcases List.mem_append.mp hb with hb | hb <;> simp [hb]
    · obtain ⟨mid, hpre, hys⟩ := Tiles.append_iff.mp hrep.tiles
      obtain ⟨mid', hxs, hmid⟩ := Tiles.append_iff.mp hpre
      have hin := hmid.mem hd
      rcases List.mem_append.mp hb with hb | hb
      · have hle := hxs.mem hb
        omega
      · have hle := hys.mem hb
        omega

/-! ### Boxes on lists -/

theorem freeOn_cons_self (bs : List Box) (hstate : b.state = .free) :
    freeOn (b :: bs) (boxSlot b.siz) = b.pos :: freeOn bs (boxSlot b.siz) := by
  simp [freeOn, hstate]

theorem freeOn_cons_ne (bs : List Box) {sel : ℕ} (hne : b.state = .free → boxSlot b.siz ≠ sel) :
    freeOn (b :: bs) sel = freeOn bs sel := by
  rw [freeOn, List.filter_cons_of_neg (by simpa using hne), freeOn]

theorem cellsOf_cons_self (bs : List Box) (hstate : b.state = .cell) :
    cellsOf (b :: bs) = b.pos :: cellsOf bs := by
  simp [cellsOf, hstate]

theorem cellsOf_cons_ne (bs : List Box) (hne : b.state ≠ .cell) :
    cellsOf (b :: bs) = cellsOf bs := by
  rw [cellsOf, List.filter_cons_of_neg (by simpa using hne), cellsOf]

/-- A box changes its state, and links are written. -/
theorem Rep.relink (hrep : Rep r (xs ++ b :: ys)) (r' : Road) (hkeeps : Keeps r r') (state : State)
    (hok : (⟨b.pos, b.siz, state⟩ : Box).Ok r.loom)
    (hlinks : ∀ w, (∀ c ∈ xs ++ b :: ys, w ≠ c.pos + 2 ∧ w ≠ c.pos + 3) → r'.loom w = r.loom w)
    (hfre : ∀ sel < fboxNo, ∃ l, l.Perm (freeOn (xs ++ ⟨b.pos, b.siz, state⟩ :: ys) sel) ∧
      Linked 0 (fun p ↦ r'.loom (p + 2)) (fun p ↦ r'.loom (p + 3)) 0 (r'.fre_p sel) l)
    (hcel : ∃ l, l.Perm (cellsOf (xs ++ ⟨b.pos, b.siz, state⟩ :: ys)) ∧
      Chained 0 (fun p ↦ r'.loom (p + 3)) r'.cel_p l) :
    Rep r' (xs ++ ⟨b.pos, b.siz, state⟩ :: ys) := by
  refine ⟨hkeeps.low.symm ▸ hrep.pos, hkeeps.cap.symm ▸ hrep.cap_le,
    hkeeps.rut.symm ▸ hrep.rut_le, ?_, ?_, hfre, hcel⟩
  · rw [hkeeps.low, hkeeps.high]
    obtain ⟨mid, hxs, hpos, hys⟩ := Tiles.append_iff.mp hrep.tiles
    exact Tiles.append_iff.mpr ⟨mid, hxs, hpos, hys⟩
  · intro c hc
    rcases List.mem_append.mp hc with hc | hc
    · exact hrep.ok_of_links hlinks (by simp [hc]) (hrep.ok c (by simp [hc]))
    · rcases List.mem_cons.mp hc with rfl | hc
      · exact hrep.ok_of_links hlinks (by simp) hok
      · exact hrep.ok_of_links hlinks (by simp [hc]) (hrep.ok c (by simp [hc]))

/-- The lists do not change when the links of their members do not. -/
theorem Rep.linked_congr (hrep : Rep r bs) (r' : Road) {sel : ℕ} (hsel : sel < fboxNo)
    (hfre : r'.fre_p sel = r.fre_p sel) (hwords : ∀ c ∈ bs, c.state = .free → boxSlot c.siz = sel →
      r'.loom (c.pos + 2) = r.loom (c.pos + 2) ∧ r'.loom (c.pos + 3) = r.loom (c.pos + 3)) :
    ∃ l, l.Perm (freeOn bs sel) ∧
      Linked 0 (fun p ↦ r'.loom (p + 2)) (fun p ↦ r'.loom (p + 3)) 0 (r'.fre_p sel) l := by
  obtain ⟨l, hperm, hlinked⟩ := hrep.fre sel hsel
  rw [hfre]
  refine ⟨l, hperm, hlinked.congr (fun q hq ↦ ?_) fun q hq ↦ ?_⟩
  all_goals obtain ⟨c, hc, hstate, hslot, rfl⟩ := mem_freeOn.mp (hperm.mem_iff.mp hq)
  · exact (hwords c hc hstate hslot).1
  · exact (hwords c hc hstate hslot).2

theorem Rep.chained_congr (hrep : Rep r bs) (hcel : r'.cel_p = r.cel_p)
    (hwords : ∀ c ∈ bs, c.state = .cell → r'.loom (c.pos + 3) = r.loom (c.pos + 3)) :
    ∃ l, l.Perm (cellsOf bs) ∧ Chained 0 (fun p ↦ r'.loom (p + 3)) r'.cel_p l := by
  obtain ⟨l, hperm, hchained⟩ := hrep.cel
  rw [hcel]
  refine ⟨l, hperm, hchained.congr fun q hq ↦ ?_⟩
  obtain ⟨c, hc, hstate, rfl⟩ := mem_cellsOf.mp (hperm.mem_iff.mp hq)
  exact hwords c hc hstate

/-- Writes to links of boxes that are no allocations. -/
theorem Rep.same_of_links {bs' : List Box} (hrep : Rep r bs) (hsub : ∀ b ∈ bs', b ∈ bs)
    (hloom : ∀ w, (∀ c ∈ bs, (∀ len, c.state ≠ .live len) → w ≠ c.pos + 2 ∧ w ≠ c.pos + 3) →
      r'.loom w = r.loom w) : Same (livesOf bs') r r' := by
  refine hrep.same hsub fun b hb ⟨len, hstate⟩ i _ hi ↦ hloom _ fun c hc hdead ↦ ?_
  have hsiz := hrep.siz_le hc
  have hne : b ≠ c := by
    rintro rfl
    exact hdead len hstate
  rcases hrep.tiles.apart (hsub b hb) hc with heq | hapart
  · exact absurd heq hne
  · omega

/-- What `_box_attach()` writes. -/
theorem boxAttach_eq {box : ℕ} (hsiz : r.loom box = siz) (hmin : 5 ≤ siz) (hbox : box ≠ 0) :
    ∃ r', boxAttach r box = .ok r' ∧ Keeps r r' ∧ r'.cel_p = r.cel_p ∧
      r'.fre_p = Function.update r.fre_p (boxSlot siz) box ∧
      ∀ w, r'.loom w =
        if r.fre_p (boxSlot siz) ≠ 0 ∧ w = r.fre_p (boxSlot siz) + 2 then box
        else if w = box + 3 then r.fre_p (boxSlot siz)
        else if w = box + 2 then 0 else r.loom w := by
  unfold boxAttach
  rw [hsiz, if_neg (by omega)]
  dsimp only
  by_cases hnull : r.fre_p (boxSlot siz) = 0
  · rw [if_neg (not_not.mpr hnull)]
    refine ⟨_, rfl, ⟨rfl, rfl, rfl, rfl⟩, rfl, rfl, fun w ↦ ?_⟩
    simp only [Road.loom_put, Function.update_apply, hnull, ne_eq, not_true_eq_false, false_and,
      if_false]
  · rw [if_pos hnull]
    refine ⟨_, rfl, ⟨rfl, rfl, rfl, rfl⟩, rfl, rfl, fun w ↦ ?_⟩
    simp only [Road.loom_put, Function.update_apply, ne_eq, hnull, not_false_eq_true, true_and]

theorem Rep.attach (hrep : Rep r (xs ++ b :: ys)) (hstate : b.state = .held) :
    ∃ r', boxAttach r b.pos = .ok r' ∧ Keeps r r' ∧ r'.cel_p = r.cel_p ∧
      Rep r' (xs ++ ⟨b.pos, b.siz, .free⟩ :: ys) ∧ Same (livesOf (xs ++ ys)) r r' := by
  have hb : b ∈ xs ++ b :: ys := by simp
  have hsiz := hrep.siz_le hb
  have hheld := (hrep.ok b hb).2
  rw [hstate] at hheld
  obtain ⟨⟨hhead, htail⟩, huse⟩ := hheld
  obtain ⟨l, hperm, hlinked⟩ := hrep.fre (boxSlot b.siz) (boxSlot_lt _)
  set nex := r.fre_p (boxSlot b.siz) with hnex
  -- the head of the list is another box
  have hnexbox : nex ≠ 0 → ∃ d ∈ xs ++ b :: ys, d.state = .free ∧ boxSlot d.siz = boxSlot b.siz ∧
      d.pos = nex := by
    intro hne
    refine mem_freeOn.mp (hperm.mem_iff.mp ?_)
    rw [hlinked.head_eq] at hne ⊢
    cases l with
    | nil => exact absurd rfl hne
    | cons q l => simp
  have hdisjoint : ∀ c ∈ xs ++ b :: ys, c.state ≠ .held → c.pos ≠ b.pos := by
    intro c hc hne hpos
    rcases hrep.tiles.apart hc hb with rfl | hapart
    · exact hne hstate
    · have hsizc := hrep.siz_le hc
      omega
  obtain ⟨r', hr', hkeeps, hcel, hfre, hloom⟩ :=
    boxAttach_eq hhead (by omega) (hrep.pos_ne_zero hb)
  rw [← hnex] at hloom
  have hpre : ∀ c ∈ xs ++ b :: ys, c.state ≠ .held → c.pos ≠ nex →
      r'.loom (c.pos + 2) = r.loom (c.pos + 2) := by
    intro c hc hne hnot
    have hpos := hdisjoint c hc hne
    have hword := hrep.word_ne hc hb (i := 2) (j := 3) (by decide) (by decide) (.inl hpos)
    rw [hloom, if_neg (by omega), if_neg hword, if_neg (by omega)]
  have hnexw : ∀ c ∈ xs ++ b :: ys, c.state ≠ .held → r'.loom (c.pos + 3) = r.loom (c.pos + 3) := by
    intro c hc hne
    have hpos := hdisjoint c hc hne
    have hword := hrep.word_ne hc hb (i := 3) (j := 2) (by decide) (by decide) (.inl hpos)
    rw [hloom, if_neg, if_neg (by omega), if_neg hword]
    rintro ⟨hnull, heq⟩
    obtain ⟨d, hd, _, _, hdpos⟩ := hnexbox hnull
    rw [← hdpos] at heq
    exact hrep.word_ne hc hd (by decide) (by decide) (.inr (by decide)) heq
  have hsame : Same (livesOf (xs ++ ys)) r r' := by
    refine hrep.same_of_links (fun c hc ↦ ?_) fun w hw ↦ ?_
    · rcases List.mem_append.mp hc with hc | hc <;> simp [hc]
    · have hself := hw b hb (by simp [hstate])
      rw [hloom, if_neg, if_neg hself.2, if_neg hself.1]
      rintro ⟨hnull, heq⟩
      obtain ⟨d, hd, hfree, _, hdpos⟩ := hnexbox hnull
      exact (hw d hd (by simp [hfree])).1 (hdpos ▸ heq)
  refine ⟨r', hr', hkeeps, hcel, hrep.relink r' hkeeps _ ⟨hsiz, ⟨hhead, htail⟩, huse⟩ ?_ ?_ ?_,
    hsame⟩
  · intro w hw
    rw [hloom, if_neg, if_neg (hw b hb).2, if_neg (hw b hb).1]
    rintro ⟨hnull, heq⟩
    obtain ⟨d, hd, _, _, hdpos⟩ := hnexbox hnull
    exact (hw d hd).1 (hdpos ▸ heq)
  · intro sel hsel
    by_cases hself : sel = boxSlot b.siz
    · subst hself
      have hfreeOn : (b.pos :: l).Perm
          (freeOn (xs ++ ⟨b.pos, b.siz, .free⟩ :: ys) (boxSlot b.siz)) := by
        rw [freeOn_append, freeOn_cons_self (b := ⟨b.pos, b.siz, .free⟩) ys rfl]
        refine (hperm.cons b.pos).trans ?_
        rw [freeOn_append, freeOn_cons_ne ys (by simp [hstate])]
        exact List.perm_middle.symm
      refine ⟨b.pos :: l, hfreeOn, ?_⟩
      rw [hfre, Function.update_self]
      have hmem : ∀ q ∈ l, ∃ c ∈ xs ++ b :: ys, c.state ≠ .held ∧ c.pos = q := by
        intro q hq
        obtain ⟨c, hc, hfree, _, hpos⟩ := mem_freeOn.mp (hperm.mem_iff.mp hq)
        exact ⟨c, hc, by simp [hfree], hpos⟩
      refine hlinked.push (hperm.nodup_iff.mpr (hrep.freeOn_nodup _)) (hrep.pos_ne_zero hb)
        (fun q hq hne ↦ ?_) (fun q hq ↦ ?_) (fun hne ↦ ?_) ?_ ?_
      · obtain ⟨c, hc, hheld, rfl⟩ := hmem q hq
        exact hpre c hc hheld hne
      · obtain ⟨c, hc, hheld, rfl⟩ := hmem q hq
        exact hnexw c hc hheld
      · rw [hloom, if_pos ⟨hne, rfl⟩]
      · rw [hloom, if_neg, if_neg (by omega), if_pos rfl]
        rintro ⟨hnull, heq⟩
        obtain ⟨d, hd, hfree, _, hdpos⟩ := hnexbox hnull
        exact hdisjoint d hd (by simp [hfree]) (by omega)
      · rw [hloom, if_neg, if_pos rfl]
        rintro ⟨hnull, heq⟩
        obtain ⟨d, hd, _, _, hdpos⟩ := hnexbox hnull
        rw [← hdpos] at heq
        exact hrep.word_ne hb hd (by decide) (by decide) (.inr (by decide)) heq
    · have hfreeOn : freeOn (xs ++ ⟨b.pos, b.siz, .free⟩ :: ys) sel =
          freeOn (xs ++ b :: ys) sel := by
        rw [freeOn_append, freeOn_append, freeOn_cons_ne (b := b) ys fun _ heq ↦ hself heq.symm,
          freeOn_cons_ne (b := ⟨b.pos, b.siz, .free⟩) ys fun _ heq ↦ hself heq.symm]
      rw [hfreeOn]
      refine hrep.linked_congr r' hsel (by rw [hfre, Function.update_of_ne hself]) ?_
      intro c hc hfree hslot
      refine ⟨hpre c hc (by simp [hfree]) ?_, hnexw c hc (by simp [hfree])⟩
      rintro hpos
      obtain ⟨d, hd, _, hdslot, hdpos⟩ := hnexbox (hpos ▸ hrep.pos_ne_zero hc)
      rcases hrep.tiles.apart hc hd with rfl | hapart
      · exact hself (hslot.symm.trans hdslot)
      · have hsizc := hrep.siz_le hc
        have hsizd := hrep.siz_le hd
        omega
  · rw [cellsOf_append, cellsOf_cons_ne ys (by simp),
      ← cellsOf_cons_ne ys (b := b) (by simp [hstate]), ← cellsOf_append]
    exact hrep.chained_congr hcel fun c hc hcell ↦ hnexw c hc (by simp [hcell])

/-- The links to and from a free box agree. -/
structure Agrees (r : Road) (box : ℕ) : Prop where
  back : r.loom (box + 3) ≠ 0 → r.loom (r.loom (box + 3) + 2) = box
  forth : r.loom (box + 2) ≠ 0 → r.loom (r.loom (box + 2) + 3) = box
  apart : r.loom (box + 3) ≠ 0 → r.loom (box + 2) ≠ 0 →
    r.loom (box + 3) + 2 ≠ r.loom (box + 2) + 3
  head : r.loom (box + 3) ≠ 0 → r.loom (box + 3) + 2 ≠ box
  fre : r.loom (box + 2) = 0 → r.fre_p (boxSlot (r.loom box)) = box

/-- A free box is taken off its list: its neighbours link to each other. -/
structure Detached (r r' : Road) (box : ℕ) : Prop where
  keeps : Keeps r r'
  cel : r'.cel_p = r.cel_p
  fre : r'.fre_p = if r.loom (box + 2) = 0 then
      Function.update r.fre_p (boxSlot (r.loom box)) (r.loom (box + 3))
    else r.fre_p
  loom : ∀ w, r'.loom w =
    if r.loom (box + 2) ≠ 0 ∧ w = r.loom (box + 2) + 3 then r.loom (box + 3)
    else if r.loom (box + 3) ≠ 0 ∧ w = r.loom (box + 3) + 2 then r.loom (box + 2)
    else r.loom w

/-- What `_box_detach()` writes, when the links agree. -/
theorem boxDetach_eq {box : ℕ} (hagrees : Agrees r box) :
    ∃ r', boxDetach r box = .ok r' ∧ Detached r r' box := by
  obtain ⟨hback, hforth, hne, hhead, hfre⟩ := hagrees
  unfold boxDetach
  generalize hpre : r.loom (box + 2) = pre at *
  generalize hnex : r.loom (box + 3) = nex at *
  by_cases hlast : nex = 0
  · by_cases hfirst : pre = 0
    · refine ⟨{ r with fre_p := Function.update r.fre_p (boxSlot (r.loom box)) nex }, ?_,
        ⟨rfl, rfl, rfl, rfl⟩, rfl, by rw [hpre, hnex, if_pos hfirst], fun w ↦ ?_⟩
      · simp [hlast, hfirst, hfre hfirst]
      · simp [hpre, hnex, hlast, hfirst]
    · refine ⟨r.put (pre + 3) nex, ?_, ⟨rfl, rfl, rfl, rfl⟩, rfl,
        by rw [hpre, if_neg hfirst]; rfl, fun w ↦ ?_⟩
      · simp [hlast, hfirst, hforth hfirst]
      · simp [hpre, hnex, hlast, hfirst, Road.loom_put, Function.update_apply]
  · have hput : r.loom (nex + 2) = box := hback hlast
    have hkeep : (r.put (nex + 2) pre).loom box = r.loom box := by
      rw [Road.loom_put, Function.update_of_ne (Ne.symm (hhead hlast))]
    by_cases hfirst : pre = 0
    · refine ⟨{ r.put (nex + 2) pre with
          fre_p := Function.update r.fre_p (boxSlot (r.loom box)) nex }, ?_,
        ⟨rfl, rfl, rfl, rfl⟩, rfl, by rw [hpre, hnex, if_pos hfirst], fun w ↦ ?_⟩
      · have hfre' : (r.put (nex + 2) pre).fre_p (boxSlot (r.loom box)) = box := hfre hfirst
        simp only [ne_eq, hlast, not_false_eq_true, if_true, hput, not_true_eq_false, if_false,
          ok_bind, hfirst] at hkeep hfre' ⊢
        rw [hkeep, hfre', if_neg (not_not.mpr rfl)]
        rfl
      · simp [hpre, hnex, hlast, hfirst, Road.loom_put, Function.update_apply]
    · refine ⟨(r.put (nex + 2) pre).put (pre + 3) nex, ?_, ⟨rfl, rfl, rfl, rfl⟩, rfl,
        by rw [hpre, if_neg hfirst]; rfl, fun w ↦ ?_⟩
      · have hforth' : (r.put (nex + 2) pre).loom (pre + 3) = box := by
          rw [Road.loom_put, Function.update_of_ne (Ne.symm (hne hlast hfirst)), hforth hfirst]
        simp [hlast, hput, hfirst, hforth']
      · simp [hpre, hnex, hlast, hfirst, Road.loom_put, Function.update_apply]

/-- Boxes of different states are at different places. -/
theorem Rep.pos_ne_of_state (hrep : Rep r bs) (hb : b ∈ bs) (hc : c ∈ bs) (hne : b ≠ c) :
    b.pos ≠ c.pos := by
  have hsizb := hrep.siz_le hb
  have hsizc := hrep.siz_le hc
  rcases hrep.tiles.apart hb hc with heq | hapart
  · exact absurd heq hne
  · omega

/-- Taking a free box off its list. -/
theorem Rep.unlink (hrep : Rep r (xs ++ b :: ys)) (hstate : b.state = .free) :
    Agrees r b.pos ∧ ∀ r', Detached r r' b.pos →
      Rep r' (xs ++ ⟨b.pos, b.siz, .held⟩ :: ys) ∧ Same (livesOf (xs ++ ys)) r r' := by
  have hb : b ∈ xs ++ b :: ys := by simp
  have hsiz := hrep.siz_le hb
  have hfree := (hrep.ok b hb).2
  rw [hstate] at hfree
  obtain ⟨⟨hhead, htail⟩, huse⟩ := hfree
  obtain ⟨l, hperm, hlinked⟩ := hrep.fre (boxSlot b.siz) (boxSlot_lt _)
  have hnodup : l.Nodup := hperm.nodup_iff.mpr (hrep.freeOn_nodup _)
  have hmem : ∀ q ∈ l, ∃ c ∈ xs ++ b :: ys, c.state = .free ∧ boxSlot c.siz = boxSlot b.siz ∧
      c.pos = q := fun q hq ↦ mem_freeOn.mp (hperm.mem_iff.mp hq)
  obtain ⟨l₁, l₂, rfl⟩ : ∃ l₁ l₂, l = l₁ ++ b.pos :: l₂ :=
    List.append_of_mem (hperm.mem_iff.mpr (mem_freeOn.mpr ⟨b, hb, hstate, rfl, rfl⟩))
  obtain ⟨hnexeq, hback⟩ := hlinked.nex_eq
  obtain ⟨hpreeq, hforth⟩ := hlinked.pre_eq
  generalize hpre : r.loom (b.pos + 2) = pre at hpreeq
  generalize hnex : r.loom (b.pos + 3) = nex at hnexeq
  -- the neighbours on the list are other boxes
  have hnexmem : nex ≠ 0 → nex ∈ l₂ ∧ r.loom (nex + 2) = b.pos := by
    intro hne
    cases l₂ with
    | nil => exact absurd hnexeq hne
    | cons q l₂ =>
      obtain rfl : nex = q := hnexeq
      exact ⟨by simp, hback nex (by simp)⟩
  have hpremem : l₁ ≠ [] → pre ∈ l₁ ∧ r.loom (pre + 3) = b.pos := by
    intro hne
    obtain ⟨l₁', q, rfl⟩ := List.eq_nil_or_concat l₁ |>.resolve_left hne
    rw [List.concat_eq_append, List.getLastD_concat] at hpreeq
    subst hpreeq
    exact ⟨by simp, hforth pre (by simp)⟩
  have hprezero : pre ≠ 0 → l₁ ≠ [] := by
    rintro hne rfl
    exact hne hpreeq
  have hprene : l₁ ≠ [] → pre ≠ 0 := fun hne ↦ hlinked.ne_null (by simp [(hpremem hne).1])
  have hprebox : pre ≠ 0 → ∃ c ∈ xs ++ b :: ys, c.state = .free ∧
      boxSlot c.siz = boxSlot b.siz ∧ c.pos = pre := fun hne ↦
    hmem pre (by simp [(hpremem (hprezero hne)).1])
  have hnexbox : nex ≠ 0 → ∃ c ∈ xs ++ b :: ys, c.state = .free ∧
      boxSlot c.siz = boxSlot b.siz ∧ c.pos = nex := fun hne ↦ hmem nex (by simp [(hnexmem hne).1])
  refine ⟨⟨fun hne ↦ ?_, fun hne ↦ ?_, fun hnz hpz ↦ ?_, fun hne ↦ ?_, fun hzero ↦ ?_⟩,
    fun r' hdetached ↦ ?_⟩
  · rw [hnex] at hne ⊢
    exact (hnexmem hne).2
  · rw [hpre] at hne ⊢
    exact (hpremem (hprezero hne)).2
  · rw [hnex] at hnz ⊢
    rw [hpre] at hpz ⊢
    obtain ⟨c, hc, _, _, rfl⟩ := hnexbox hnz
    obtain ⟨d, hd, _, _, rfl⟩ := hprebox hpz
    exact hrep.word_ne hc hd (by decide) (by decide) (.inr (by decide))
  · rw [hnex] at hne ⊢
    obtain ⟨c, hc, _, _, rfl⟩ := hnexbox hne
    exact hrep.word_ne hc hb (by decide) (by decide : 0 < 6) (.inr (by decide))
  · have hnil : l₁ = [] := by
      by_contra hne
      exact hprene hne (hpre ▸ hzero)
    rw [hnil] at hlinked
    rw [hhead]
    exact hlinked.1
  obtain ⟨hkeeps, hcel, hfre, hloom⟩ := hdetached
  simp only [hpre, hnex, hhead] at hfre hloom
  -- what the words of the boxes become
  have hprew : ∀ c ∈ xs ++ b :: ys, c.pos ≠ nex → r'.loom (c.pos + 2) = r.loom (c.pos + 2) := by
    intro c hc hnot
    rw [hloom, if_neg, if_neg (by omega)]
    rintro ⟨hne, heq⟩
    obtain ⟨d, hd, _, _, rfl⟩ := hprebox hne
    exact hrep.word_ne hc hd (by decide) (by decide) (.inr (by decide)) heq
  have hnexw : ∀ c ∈ xs ++ b :: ys, c.pos ≠ pre → r'.loom (c.pos + 3) = r.loom (c.pos + 3) := by
    intro c hc hnot
    rw [hloom, if_neg (by omega), if_neg]
    rintro ⟨hne, heq⟩
    obtain ⟨d, hd, _, _, rfl⟩ := hnexbox hne
    exact hrep.word_ne hc hd (by decide) (by decide) (.inr (by decide)) heq
  -- a box of another list, or on none, is not a neighbour
  have hother : ∀ c ∈ xs ++ b :: ys, (c.state = .free → boxSlot c.siz ≠ boxSlot b.siz) →
      c.pos ≠ nex ∧ c.pos ≠ pre := by
    intro c hc hne
    constructor
    · intro heq
      obtain ⟨d, hd, hdfree, hdslot, hdpos⟩ := hnexbox (heq ▸ hrep.pos_ne_zero hc)
      refine hrep.pos_ne_of_state hc hd ?_ (heq.trans hdpos.symm)
      rintro rfl
      exact hne hdfree hdslot
    · intro heq
      obtain ⟨d, hd, hdfree, hdslot, hdpos⟩ := hprebox (heq ▸ hrep.pos_ne_zero hc)
      refine hrep.pos_ne_of_state hc hd ?_ (heq.trans hdpos.symm)
      rintro rfl
      exact hne hdfree hdslot
  have hsame : Same (livesOf (xs ++ ys)) r r' := by
    refine hrep.same_of_links (fun c hc ↦ ?_) fun w hw ↦ ?_
    · rcases List.mem_append.mp hc with hc | hc <;> simp [hc]
    · rw [hloom, if_neg, if_neg]
      · rintro ⟨hne, heq⟩
        obtain ⟨d, hd, hdfree, _, rfl⟩ := hnexbox hne
        exact (hw d hd (by simp [hdfree])).1 heq
      · rintro ⟨hne, heq⟩
        obtain ⟨d, hd, hdfree, _, rfl⟩ := hprebox hne
        exact (hw d hd (by simp [hdfree])).2 heq
  refine ⟨hrep.relink r' hkeeps _ ⟨hsiz, ⟨hhead, htail⟩, huse⟩ ?_ ?_ ?_, hsame⟩
  · intro w hw
    rw [hloom, if_neg, if_neg]
    · rintro ⟨hne, heq⟩
      obtain ⟨d, hd, _, _, rfl⟩ := hnexbox hne
      exact (hw d hd).1 heq
    · rintro ⟨hne, heq⟩
      obtain ⟨d, hd, _, _, rfl⟩ := hprebox hne
      exact (hw d hd).2 heq
  · intro sel hsel
    by_cases hself : sel = boxSlot b.siz
    · subst hself
      refine ⟨l₁ ++ l₂, ?_, ?_⟩
      · rw [freeOn_append, freeOn_cons_ne (b := ⟨b.pos, b.siz, .held⟩) ys (by simp)]
        rw [freeOn_append, freeOn_cons_self ys hstate] at hperm
        exact (List.perm_middle.symm.trans (hperm.trans List.perm_middle)).cons_inv
      · have hinner : ∀ q ∈ l₁ ++ l₂, ∃ c ∈ xs ++ b :: ys, c.pos = q := by
          intro q hq
          obtain ⟨c, hc, _, _, hpos⟩ := hmem q (by
            rcases List.mem_append.mp hq with hq | hq <;> simp [hq])
          exact ⟨c, hc, hpos⟩
        have hnew : r'.fre_p (boxSlot b.siz) =
            if l₁ = [] then r.loom (b.pos + 3) else r.fre_p (boxSlot b.siz) := by
          by_cases hnil : l₁ = []
          · have hzero : pre = 0 := by
              by_contra hne
              exact hprezero hne hnil
            rw [hfre, if_pos hzero, Function.update_self, if_pos hnil, hnex]
          · rw [hfre, if_neg (hprene hnil), if_neg hnil]
        rw [hnew]
        refine hlinked.unlink ?_ ?_ ?_ ?_ ?_
        · rw [List.nodup_cons]
          exact ⟨fun hzero ↦ hlinked.ne_null hzero rfl, hnodup⟩
        · intro q hq hne
          obtain ⟨c, hc, rfl⟩ := hinner q hq
          exact hprew c hc (hnex ▸ hne)
        · intro q hq hne
          obtain ⟨c, hc, rfl⟩ := hinner q hq
          exact hnexw c hc (hpre ▸ hne)
        · rw [hnex, hpre]
          intro hne
          rw [hloom, if_neg, if_pos ⟨hne, rfl⟩]
          rintro ⟨hpne, heq⟩
          obtain ⟨c, hc, _, _, rfl⟩ := hnexbox hne
          obtain ⟨d, hd, _, _, rfl⟩ := hprebox hpne
          exact hrep.word_ne hc hd (by decide) (by decide) (.inr (by decide)) heq
        · rw [hnex, hpre]
          intro hne
          rw [hloom, if_pos ⟨hprene hne, rfl⟩]
    · have hfreeOn : freeOn (xs ++ ⟨b.pos, b.siz, .held⟩ :: ys) sel =
          freeOn (xs ++ b :: ys) sel := by
        rw [freeOn_append, freeOn_append, freeOn_cons_ne (b := b) ys fun _ heq ↦ hself heq.symm,
          freeOn_cons_ne (b := ⟨b.pos, b.siz, .held⟩) ys (by simp)]
      rw [hfreeOn]
      refine hrep.linked_congr r' hsel ?_ fun c hc _ hslot ↦ ?_
      · rw [hfre]
        split_ifs
        · rw [Function.update_of_ne hself]
        · rfl
      · have hnot := hother c hc fun _ ↦ hslot ▸ hself
        exact ⟨hprew c hc hnot.1, hnexw c hc hnot.2⟩
  · rw [cellsOf_append, cellsOf_cons_ne ys (by simp),
      ← cellsOf_cons_ne ys (b := b) (by simp [hstate]), ← cellsOf_append]
    refine hrep.chained_congr hcel fun c hc hcell ↦ ?_
    exact hnexw c hc (hother c hc (by simp [hcell])).2

theorem Rep.detach (hrep : Rep r (xs ++ b :: ys)) (hstate : b.state = .free) :
    ∃ r', boxDetach r b.pos = .ok r' ∧ Keeps r r' ∧ r'.cel_p = r.cel_p ∧
      Rep r' (xs ++ ⟨b.pos, b.siz, .held⟩ :: ys) ∧ Same (livesOf (xs ++ ys)) r r' := by
  obtain ⟨hagrees, hunlink⟩ := hrep.unlink hstate
  obtain ⟨r', hdetach, hdetached⟩ := boxDetach_eq hagrees
  exact ⟨r', hdetach, hdetached.keeps, hdetached.cel, hunlink r' hdetached⟩

theorem Rep.pushCell {len : ℕ} (hrep : Rep r (xs ++ b :: ys)) (hstate : b.state = .live len) :
    Rep { r.put (b.pos + 3) r.cel_p with cel_p := b.pos } (xs ++ ⟨b.pos, b.siz, .cell⟩ :: ys) := by
  have hb : b ∈ xs ++ b :: ys := by simp
  have hsiz := hrep.siz_le hb
  have hlive := (hrep.ok b hb).2
  rw [hstate] at hlive
  obtain ⟨htagged, huse, _⟩ := hlive
  have hword : ∀ c ∈ xs ++ b :: ys, ∀ i < 6, c ≠ b ∨ i ≠ 3 →
      (r.put (b.pos + 3) r.cel_p).loom (c.pos + i) = r.loom (c.pos + i) := by
    intro c hc i hi hne
    rw [Road.loom_put, Function.update_of_ne]
    exact hrep.word_ne hc hb hi (by decide) (hne.imp (hrep.pos_ne_of_state hc hb) id)
  refine hrep.relink { r.put (b.pos + 3) r.cel_p with cel_p := b.pos } ⟨rfl, rfl, rfl, rfl⟩ .cell
    ⟨hsiz, htagged, huse⟩ ?_ ?_ ?_
  · intro w hw
    exact Function.update_of_ne (hw b hb).2 ..
  · intro sel hsel
    rw [freeOn_append, freeOn_cons_ne (b := ⟨b.pos, b.siz, .cell⟩) ys (by simp),
      ← freeOn_cons_ne ys (b := b) (by simp [hstate]), ← freeOn_append]
    refine hrep.linked_congr { r.put (b.pos + 3) r.cel_p with cel_p := b.pos } hsel rfl ?_
    intro c hc hfree _
    have hne : c ≠ b := by
      rintro rfl
      simp [hstate] at hfree
    exact ⟨hword c hc 2 (by decide) (.inl hne), hword c hc 3 (by decide) (.inl hne)⟩
  · obtain ⟨l, hperm, hchained⟩ := hrep.cel
    refine ⟨b.pos :: l, ?_, hchained.push (hrep.pos_ne_zero hb) (fun q hq ↦ ?_) ?_⟩
    · rw [cellsOf_append, cellsOf_cons_self (b := ⟨b.pos, b.siz, .cell⟩) ys rfl]
      refine (hperm.cons b.pos).trans ?_
      rw [cellsOf_append, cellsOf_cons_ne ys (by simp [hstate])]
      exact List.perm_middle.symm
    · obtain ⟨c, hc, hcell, rfl⟩ := mem_cellsOf.mp (hperm.mem_iff.mp hq)
      refine hword c hc 3 (by decide) (.inl ?_)
      rintro rfl
      simp [hstate] at hcell
    · exact Function.update_self ..

theorem Rep.popCell (hrep : Rep r bs) (hne : r.cel_p ≠ 0) :
    ∃ xs b ys, bs = xs ++ b :: ys ∧ b.state = .cell ∧ b.pos = r.cel_p ∧
      r.loom (b.pos + 1) = 1 ∧ ∀ len, len + 3 ≤ minimum →
        Rep { r with cel_p := r.loom (r.cel_p + 3) } (xs ++ ⟨b.pos, b.siz, .live len⟩ :: ys) := by
  obtain ⟨l, hperm, hchained⟩ := hrep.cel
  cases l with
  | nil => exact absurd hchained hne
  | cons q l =>
    obtain ⟨hhed, _, hrest⟩ := hchained
    obtain ⟨b, hb, hstate, hpos⟩ := mem_cellsOf.mp (hperm.mem_iff.mp (List.mem_cons_self ..))
    obtain ⟨xs, ys, rfl⟩ := List.append_of_mem hb
    have hsiz := hrep.siz_le hb
    have hcell := (hrep.ok b hb).2
    rw [hstate] at hcell
    refine ⟨xs, b, ys, rfl, hstate, hpos.trans hhed.symm, hcell.2, fun len hlen ↦ ?_⟩
    refine hrep.relink { r with cel_p := r.loom (r.cel_p + 3) } ⟨rfl, rfl, rfl, rfl⟩ (.live len)
      ⟨hsiz, hcell.1, hcell.2, hlen.trans hsiz⟩ (fun w _ ↦ rfl) ?_ ?_
    · intro sel hsel
      rw [freeOn_append, freeOn_cons_ne (b := ⟨b.pos, b.siz, .live len⟩) ys (by simp),
        ← freeOn_cons_ne ys (b := b) (by simp [hstate]), ← freeOn_append]
      exact hrep.fre sel hsel
    · refine ⟨l, ?_, hhed ▸ hrest⟩
      rw [cellsOf_append, cellsOf_cons_ne ys (by simp)]
      rw [cellsOf_append, cellsOf_cons_self ys hstate, hpos] at hperm
      exact (hperm.trans List.perm_middle).cons_inv

/-! ### The hat -/

/-- Boxes on no list can be added to the heap, or dropped from it, when the bounds change with
them. -/
theorem Rep.rebound {bs' : List Box} (hrep : Rep r bs)
    (hsame : r'.cap_p = r.cap_p ∧ r'.rut_p = r.rut_p ∧ r'.fre_p = r.fre_p ∧ r'.cel_p = r.cel_p ∧
      r'.loom = r.loom) (hpos : 0 < r'.low) (htiles : Tiles r'.low bs' r'.high)
    (hok : ∀ b ∈ bs', b.Ok r.loom) (hfree : ∀ sel, freeOn bs' sel = freeOn bs sel)
    (hcells : cellsOf bs' = cellsOf bs) : Rep r' bs' := by
  obtain ⟨hcap, hrut, hfre, hcel, hloom⟩ := hsame
  refine ⟨hpos, hcap ▸ hrep.cap_le, hrut ▸ hrep.rut_le, htiles, hloom.symm ▸ hok, ?_, ?_⟩
  · intro sel hsel
    rw [hfree, hloom, hfre]
    exact hrep.fre sel hsel
  · rw [hcells, hloom, hcel]
    exact hrep.cel

theorem Road.low_north (hnorth : r.isNorth = true) : r.low = r.rut_p := by
  rw [Road.low, if_pos hnorth]

theorem Road.high_north (hnorth : r.isNorth = true) : r.high = r.hat_p := by
  rw [Road.high, if_pos hnorth]

theorem Road.low_south (hsouth : r.isNorth = false) : r.low = r.hat_p := by
  rw [Road.low, if_neg (by simp [hsouth])]

theorem Road.high_south (hsouth : r.isNorth = false) : r.high = r.rut_p := by
  rw [Road.high, if_neg (by simp [hsouth])]

theorem Road.isNorth_iff : r.isNorth = true ↔ r.hat_p < r.cap_p := by
  simp [Road.isNorth]

theorem Road.isNorth_eq_false : r.isNorth = false ↔ r.cap_p ≤ r.hat_p := by
  simp [Road.isNorth]

theorem off_raw {p n u : ℕ} : (⟨p, n, .raw u⟩ : Box).Off := ⟨by simp, by simp⟩

theorem freeOn_concat (xs : List Box) (hoff : b.Off) (sel : ℕ) :
    freeOn (xs ++ [b]) sel = freeOn xs sel := by
  have hnone : freeOn [b] sel = [] := freeOn_of_off (by simpa using hoff) sel
  rw [freeOn_append, hnone, List.append_nil]

theorem cellsOf_concat (xs : List Box) (hoff : b.Off) : cellsOf (xs ++ [b]) = cellsOf xs := by
  have hnone : cellsOf [b] = [] := cellsOf_of_off (by simpa using hoff)
  rw [cellsOf_append, hnone, List.append_nil]

theorem Rep.growNorth (hrep : Rep r bs) (hnorth : r.isNorth = true) (hsiz : minimum ≤ siz)
    (hroom : r.hat_p + siz < r.cap_p) : Rep { r with hat_p := r.hat_p + siz }
      (bs ++ [⟨r.hat_p, siz, .raw (r.loom (r.hat_p + 1))⟩]) := by
  have hnorth' : Road.isNorth { r with hat_p := r.hat_p + siz } = true :=
    Road.isNorth_iff.mpr hroom
  refine hrep.rebound ⟨rfl, rfl, rfl, rfl, rfl⟩ ?_ ?_ ?_ (fun sel ↦ ?_) ?_
  · rw [Road.low_north hnorth', ← Road.low_north hnorth]
    exact hrep.pos
  · rw [Road.low_north hnorth', Road.high_north hnorth']
    refine Tiles.append_iff.mpr ⟨r.hat_p, ?_, rfl, rfl⟩
    rw [← Road.low_north hnorth, ← Road.high_north hnorth]
    exact hrep.tiles
  · intro b hb
    rcases List.mem_append.mp hb with hb | hb
    · exact hrep.ok b hb
    · obtain rfl := List.mem_singleton.mp hb
      exact ⟨hsiz, rfl⟩
  · exact freeOn_concat bs off_raw sel
  · exact cellsOf_concat bs off_raw

theorem Rep.growSouth (hrep : Rep r bs) (hsouth : r.isNorth = false) (hsiz : minimum ≤ siz)
    (hroom : r.cap_p + siz < r.hat_p) : Rep { r with hat_p := r.hat_p - siz }
      (⟨r.hat_p - siz, siz, .raw (r.loom (r.hat_p - siz + 1))⟩ :: bs) := by
  have hsouth' : Road.isNorth { r with hat_p := r.hat_p - siz } = false := by
    rw [Road.isNorth_eq_false]
    show r.cap_p ≤ r.hat_p - siz
    omega
  refine hrep.rebound ⟨rfl, rfl, rfl, rfl, rfl⟩ ?_ ?_ ?_ (fun sel ↦ ?_) ?_
  · rw [Road.low_south hsouth']
    show 0 < r.hat_p - siz
    omega
  · rw [Road.low_south hsouth', Road.high_south hsouth']
    refine ⟨rfl, ?_⟩
    show Tiles (r.hat_p - siz + siz) bs r.rut_p
    rw [Nat.sub_add_cancel (by omega), ← Road.low_south hsouth, ← Road.high_south hsouth]
    exact hrep.tiles
  · intro b hb
    rcases List.mem_cons.mp hb with rfl | hb
    · exact ⟨hsiz, rfl⟩
    · exact hrep.ok b hb
  · exact freeOn_cons_ne bs (by simp)
  · exact cellsOf_cons_ne bs (by simp)

theorem Rep.dropNorth (hrep : Rep r (xs ++ [b])) (hnorth : r.isNorth = true) (hoff : b.Off) :
    Rep { r with hat_p := b.pos } xs ∧ Road.isNorth { r with hat_p := b.pos } = true := by
  have hle := (hrep.tiles.mem (b := b) (by simp)).2
  rw [Road.high_north hnorth] at hle
  rw [Road.isNorth_iff] at hnorth
  have hnorth' : Road.isNorth { r with hat_p := b.pos } = true :=
    Road.isNorth_iff.mpr (by show b.pos < r.cap_p; omega)
  rw [← Road.isNorth_iff] at hnorth
  refine ⟨hrep.rebound ⟨rfl, rfl, rfl, rfl, rfl⟩ ?_ ?_ ?_ (fun sel ↦ ?_) ?_, hnorth'⟩
  · rw [Road.low_north hnorth', ← Road.low_north hnorth]
    exact hrep.pos
  · rw [Road.low_north hnorth', Road.high_north hnorth']
    obtain ⟨mid, hxs, rfl, _⟩ := Tiles.append_iff.mp hrep.tiles
    rwa [Road.low_north hnorth] at hxs
  · exact fun c hc ↦ hrep.ok c (by simp [hc])
  · exact (freeOn_concat xs hoff sel).symm
  · exact (cellsOf_concat xs hoff).symm

theorem Rep.dropSouth (hrep : Rep r (b :: ys)) (hsouth : r.isNorth = false) (hoff : b.Off) :
    Rep { r with hat_p := b.pos + b.siz } ys ∧
      Road.isNorth { r with hat_p := b.pos + b.siz } = false := by
  obtain ⟨hpos, hrest⟩ := hrep.tiles
  rw [Road.low_south hsouth] at hpos hrest
  rw [Road.high_south hsouth] at hrest
  have hcap := Road.isNorth_eq_false.mp hsouth
  have hlow := hrep.pos
  rw [Road.low_south hsouth] at hlow
  have hsouth' : Road.isNorth { r with hat_p := b.pos + b.siz } = false :=
    Road.isNorth_eq_false.mpr (by show r.cap_p ≤ b.pos + b.siz; omega)
  refine ⟨hrep.rebound ⟨rfl, rfl, rfl, rfl, rfl⟩ ?_ ?_ ?_ (fun sel ↦ ?_) ?_, hsouth'⟩
  · rw [Road.low_south hsouth']
    show 0 < b.pos + b.siz
    omega
  · rw [Road.low_south hsouth', Road.high_south hsouth']
    rw [← hpos] at hrest
    exact hrest
  · exact fun c hc ↦ hrep.ok c (by simp [hc])
  · exact (freeOn_cons_ne ys fun hfree ↦ absurd hfree hoff.1).symm
  · exact (cellsOf_cons_ne ys hoff.2).symm

end Vere.Noun.Allocate
