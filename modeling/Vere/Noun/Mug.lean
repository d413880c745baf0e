import Vere.Noun.Blocks
import Vere.Noun.Extract
import Vere.Noun.Murmur
import Vere.Noun.Sing

/-!
# Mugs of nouns

`u3r_mug()` of `pkg/noun/retrieve.c` mugs a noun with a stack of frames, one for each cell above the
noun that is mugged. A frame whose mug is zero waits for that of the head, the others have it and
wait for that of the tail. Mugs are kept in the boxes of indirect atoms and cells, and a box that
has one is not looked into.

Whatever boxes have mugs, as long as these are right the result is `mug`, and they stay right
(`mugNext_runs`). With what a comparison does (`sing_runs`), `sing_mug_structural` says that
equality and mugs are those of the nouns, and that every noun stays.
-/

set_option autoImplicit false

namespace Vere.Noun.Shared

open Lib.Bytes
open Nock
open Imprison (valueOf wordOf)
open Murmur

/-! ### The functions -/

/-- The heap, and the mugs of its indirect atoms. -/
structure Cached where
  heap : Heap
  mugs : ℕ → ℕ

/-- `_cr_mugf`. -/
structure MugFrame where
  mug_l : ℕ
  cel : ℕ

/-- A program that works on nouns with their mugs. -/
abbrev C (α : Type) := EStateM Bail Cached α

/-- A program on the heap. -/
def onHeap {α : Type} (x : M α) : C α := fun s ↦
  match x s.heap with
  | .ok a h => .ok a { s with heap := h }
  | .error why h => .error why { s with heap := h }

/-- `mug_w` of a box, and what it holds. -/
def mugAt (off : ℕ) : C (ℕ × Body) := do
  let s ← get
  let box ← onHeap (load off)
  pure (boxMug s.mugs off box.body, box.body)

/-- The mug of an indirect atom is kept. -/
def keepAtom (off mug_l : ℕ) : C Unit := fun s ↦
  .ok () { s with mugs := Function.update s.mugs off mug_l }

/-- The mug of a cell is kept. -/
def keepCell (off mug_l : ℕ) : M Unit := do
  let box ← load off
  match box.body with
  | .cell _ hed tel => store off { box with body := .cell mug_l hed tel }
  | .atom _ => throw .fault

section Mug

variable (hash : ℕ → List UInt8 → ℕ)

/-- `_cr_mug_next()`. -/
def mugNext : ℕ → List MugFrame → Ref → C (ℕ × List MugFrame)
  | 0, _, _ => throw .spent
  | fuel + 1, pil_u, veb =>
    match veb.off with
    | none => pure (mugWords hash [UInt32.ofNat veb.word], pil_u)
    | some off => do
      let (mug_w, body) ← mugAt off
      if mug_w ≠ 0 then pure (mug_w, pil_u)
      else
        match veb, body with
        | .pug _, .atom val => do
          let mug_l := mugWords hash (bufWords val)
          keepAtom off mug_l
          pure (mug_l, pil_u)
        | .pom _, .cell _ hed _ => mugNext fuel (⟨0, off⟩ :: pil_u) hed
        | _, _ => throw .fault

/-- The loop of `u3r_mug()`. -/
def mugLoop (fuel : ℕ) : ℕ → ℕ → List MugFrame → C ℕ
  | _, mug_l, [] => pure mug_l
  | 0, _, _ => throw .spent
  | n + 1, mug_l, fam_u :: pil_u =>
    if fam_u.mug_l = 0 then do
      let (_, tel) ← onHeap (cellAt fam_u.cel)
      let (mug_l, pil_u) ← mugNext hash fuel ({ fam_u with mug_l := mug_l } :: pil_u) tel
      mugLoop fuel n mug_l pil_u
    else do
      let mug_l := mugBoth hash fam_u.mug_l mug_l
      onHeap (keepCell fam_u.cel mug_l)
      mugLoop fuel n mug_l pil_u

/-- `u3r_mug()`. -/
def rMug (fuel n : ℕ) (veb : Ref) : C ℕ := do
  let (mug_l, pil_u) ← mugNext hash fuel [] veb
  mugLoop hash fuel n mug_l pil_u

/-- `u3r_sing()` with the mugs. -/
def rSing (R : Road) (rods : List Level) (fuel n : ℕ) (a b : Ref) : C Bool := do
  let s ← get
  onHeap (sing R rods s.mugs fuel n a b)

end Mug

/-! ### The mug of words -/

section Words

variable {hash : ℕ → List UInt8 → ℕ}

theorem trimLen_le (key_w : List UInt32) (n : ℕ) : trimLen key_w n ≤ n := by
  induction n with
  | zero => exact Nat.le_refl _
  | succ n ih =>
    rw [trimLen]
    split
    · exact Nat.le_succ_of_le ih
    · exact Nat.le_refl _

/-- Words are trimmed to those of their value. -/
theorem trimLen_eq {key_w : List UInt32} {n : ℕ} (hzeros : ∀ i, n ≤ i → key_w.getD i 0 = 0) :
    trimLen key_w n = lenW (valueOf key_w) := by
  have hword := bufW_valueOf key_w
  induction n with
  | zero =>
    have hvalue : valueOf key_w = 0 := eq_of_bufW fun i ↦ by
      rw [hword, hzeros i (Nat.zero_le i), bufW_eq_zero (by simp [lenW])]
      rfl
    rw [hvalue]
    simp [trimLen, lenW]
  | succ n ih =>
    rw [trimLen]
    split
    · next htop =>
      refine ih fun i hi ↦ ?_
      rcases Nat.eq_or_lt_of_le hi with rfl | hlt
      · exact htop
      · exact hzeros i hlt
    · next htop =>
      have hbufW : bufW (valueOf key_w) n ≠ 0 := by
        rw [hword]
        exact fun hzero ↦ htop (UInt32.toNat_inj.mp hzero)
      have hlow : n < lenW (valueOf key_w) := by
        by_contra hle
        exact hbufW (bufW_eq_zero (Nat.not_lt.mp hle))
      have hhigh : lenW (valueOf key_w) ≤ n + 1 := by
        by_contra hlt
        have hvalue : valueOf key_w ≠ 0 := by
          intro hzero
          rw [hzero] at hlow
          simp [lenW] at hlow
        refine (bufW_top hvalue).2 ?_
        rw [hword, hzeros _ (by omega)]
        rfl
      omega

/-- The bytes of words are those of their value. -/
theorem flatMap_spell (key_w : List UInt32) :
    (key_w.flatMap fun w ↦ spell 4 w.toNat) = spell (4 * key_w.length) (valueOf key_w) := by
  induction key_w with
  | nil => rfl
  | cons w key_w ih =>
    have hlow : (2 ^ 32 * valueOf key_w + w.toNat) % 256 ^ 4 = w.toNat := by
      have hword := w.toNat_lt
      omega
    have hhigh : (2 ^ 32 * valueOf key_w + w.toNat) / 256 ^ 4 = valueOf key_w := by
      have hword := w.toNat_lt
      omega
    rw [List.flatMap_cons, ih, List.length_cons, Nat.mul_succ, Nat.add_comm, spell_add,
      valueOf_cons, hhigh,
      ← spell_mod 4 (2 ^ 32 * _ + _), hlow]

/-- The mug of words is that of the bytes of their value. -/
theorem mugWords_eq (key_w : List UInt32) :
    mugWords hash key_w = mugBytes hash (bytesOf (valueOf key_w)) := by
  have hlen : trimLen key_w key_w.length = lenW (valueOf key_w) :=
    trimLen_eq fun i hi ↦ List.getD_eq_default _ _ hi
  have hle := trimLen_le key_w key_w.length
  have hmet : met (valueOf key_w) ≤ 4 * key_w.length := by
    rw [hlen] at hle
    unfold lenW at hle
    unfold met
    omega
  have hbyt : (if lenW (valueOf key_w) = 0 then 0 else
      (lenW (valueOf key_w) - 1) <<< 2 +
        (((key_w.getD (lenW (valueOf key_w) - 1) 0).toNat.size + 7) >>> 3)) =
      met (valueOf key_w) := by
    by_cases hzero : valueOf key_w = 0
    · rw [hzero]
      simp [lenW, met]
    · have hpos : lenW (valueOf key_w) ≠ 0 := by
        have hsize := Nat.size_pos.mpr (Nat.pos_of_ne_zero hzero)
        unfold lenW
        omega
      have hsize := (Blocks.size_eq hzero).1
      rw [if_neg hpos, ← bufW_valueOf, met, Nat.shiftLeft_eq, Nat.shiftRight_eq_div_pow]
      omega
  unfold mugWords
  dsimp only
  rw [hlen, hbyt, flatMap_spell, take_spell hmet, bytesOf]

theorem mugWords_cat {a : ℕ} (ha : a < 2 ^ 31) :
    mugWords hash [UInt32.ofNat a] = mug hash (.atom a) := by
  have hvalue : valueOf [UInt32.ofNat a] = a := by
    rw [valueOf_cons, UInt32.toNat_ofNat']
    show 2 ^ 32 * 0 + _ = _
    omega
  rw [mugWords_eq, hvalue]
  rfl

theorem mugWords_pug (v : ℕ) : mugWords hash (bufWords v) = mug hash (.atom v) := by
  rw [mugWords_eq, bufWords, Blocks.valueOf_map_wordOf (Nat.le_refl _)]
  rfl

end Words

/-! ### The mugs of cells -/

/-- A box without the mug of a cell. -/
def Box.bare : Box → Box
  | ⟨use_w, .atom val⟩ => ⟨use_w, .atom val⟩
  | ⟨use_w, .cell _ hed tel⟩ => ⟨use_w, .cell 0 hed tel⟩

/-- Heaps that differ in the mugs of cells. -/
def Mugged (h h' : Heap) : Prop := ∀ off, (h' off).map Box.bare = (h off).map Box.bare

section Mugged

variable {R : Road} {h h' : Heap} {boxes : Finset ℕ} {roots : List Ref} {off use_w : ℕ}

theorem Mugged.refl : Mugged h h := fun _ ↦ rfl

theorem Mugged.symm (hmugged : Mugged h h') : Mugged h' h := fun off ↦ (hmugged off).symm

theorem Mugged.trans {h'' : Heap} (hfirst : Mugged h h') (hsecond : Mugged h' h'') : Mugged h h'' :=
  fun off ↦ (hsecond off).trans (hfirst off)

theorem Mugged.atom (hmugged : Mugged h h') {v : ℕ} (hbox : h off = some ⟨use_w, .atom v⟩) :
    h' off = some ⟨use_w, .atom v⟩ := by
  have hbare := hmugged off
  rw [hbox, Option.map_some] at hbare
  obtain ⟨⟨use_w', body⟩, hbox', hbare⟩ := Option.map_eq_some_iff.mp hbare
  cases body with
  | cell mug_w hed tel => cases hbare
  | atom v' =>
    cases hbare
    exact hbox'

theorem Mugged.cell (hmugged : Mugged h h') {mug_w : ℕ} {hed tel : Ref}
    (hbox : h off = some ⟨use_w, .cell mug_w hed tel⟩) :
    ∃ mug_w', h' off = some ⟨use_w, .cell mug_w' hed tel⟩ := by
  have hbare := hmugged off
  rw [hbox, Option.map_some] at hbare
  obtain ⟨⟨use_w', body⟩, hbox', hbare⟩ := Option.map_eq_some_iff.mp hbare
  cases body with
  | atom v => cases hbare
  | cell mug_w' hed' tel' =>
    cases hbare
    exact ⟨mug_w', hbox'⟩

/-- The box is there with the same uses and references. -/
theorem Mugged.box (hmugged : Mugged h h') {box : Box} (hbox : h off = some box) :
    ∃ box', h' off = some box' ∧ box'.use_w = box.use_w ∧ box'.body.refs = box.body.refs ∧
      ∀ o, box'.body.toRef o = box.body.toRef o := by
  obtain ⟨use_w, body⟩ := box
  cases body with
  | atom v => exact ⟨_, hmugged.atom hbox, rfl, rfl, fun _ ↦ rfl⟩
  | cell mug_w hed tel =>
    obtain ⟨mug_w', hbox'⟩ := hmugged.cell hbox
    exact ⟨_, hbox', rfl, rfl, fun _ ↦ rfl⟩

/-- The mug of a cell is written. -/
theorem Mugged.put {mug_w : ℕ} {hed tel : Ref} (hbox : h off = some ⟨use_w, .cell mug_w hed tel⟩)
    (mug_l : ℕ) :
    Mugged h (Function.update h off (some ⟨use_w, .cell mug_l hed tel⟩)) := by
  intro o
  by_cases heq : o = off
  · rw [heq, Function.update_self, hbox]
    rfl
  · rw [Function.update_of_ne heq]

theorem Mugged.denotes (hmugged : Mugged h h') {r : Ref} {n : Noun} (hden : Denotes h r n) :
    Denotes h' r n := by
  induction hden with
  | cat ha => exact .cat ha
  | pug hoff hbox => exact .pug hoff (hmugged.atom hbox)
  | pom hoff hbox _ _ ihhed ihtel =>
    obtain ⟨mug_w, hbox'⟩ := hmugged.cell hbox
    exact .pom hoff hbox' ihhed ihtel

theorem Mugged.safe (hmugged : Mugged h h') (hsafe : Safe R h boxes roots) :
    Safe R h' boxes roots where
  normal := hsafe.normal
  live off hin := by
    obtain ⟨box, hbox⟩ := Option.ne_none_iff_exists'.mp (hsafe.live off hin)
    obtain ⟨box', hbox', -⟩ := hmugged.box hbox
    rw [hbox']
    nofun
  senior off box' hnormal hbox' := by
    obtain ⟨box, hbox, -, hrefs, -⟩ := hmugged.symm.box hbox'
    rw [← hrefs]
    exact hsafe.senior off box hnormal hbox
  counted := by
    refine hsafe.counted.congr (fun off hin ↦ ?_) fun off hin ↦ ?_
    · obtain ⟨box, hbox⟩ := Option.ne_none_iff_exists'.mp (hsafe.live off hin)
      obtain ⟨box', hbox', -, hrefs, -⟩ := hmugged.box hbox
      rw [held_of hbox, held_of hbox', hrefs]
    · obtain ⟨box, hbox⟩ := Option.ne_none_iff_exists'.mp (hsafe.live off hin)
      obtain ⟨box', hbox', huse, -⟩ := hmugged.box hbox
      rw [useOf_of hbox, useOf_of hbox', huse]

/-- Other mugs that are right. -/
theorem World.mugged {hash : Noun → ℕ} {mugs mugs' : ℕ → ℕ} {val : ℕ → Noun}
    (hworld : World R hash mugs val h boxes roots) (hmugged : Mugged h h')
    (hvalid : ∀ off box, Known R boxes off → h' off = some box → boxMug mugs' off box.body ≠ 0 →
      boxMug mugs' off box.body = hash (val off)) :
    World R hash mugs' val h' boxes roots where
  safe := hmugged.safe hworld.safe
  nouns off box' hknown hbox' := by
    obtain ⟨box, hbox, -, -, htoRef⟩ := hmugged.symm.box hbox'
    rw [← htoRef]
    exact hmugged.denotes (hworld.nouns off box hknown hbox)
  used off box' hnormal hbox' := by
    obtain ⟨box, hbox, huse, -⟩ := hmugged.symm.box hbox'
    rw [← huse]
    exact hworld.used off box hnormal hbox
  large off use_w v hknown hbox' := hworld.large off use_w v hknown (hmugged.symm.atom hbox')
  valid := hvalid

end Mugged

/-! ### A mug -/

section Run

variable {R : Road} {hash : ℕ → List UInt8 → ℕ} {val : ℕ → Noun} {s : Cached} {boxes : Finset ℕ}
  {roots : List Ref} {r : Ref} {off : ℕ} {pil_u : List MugFrame}

theorem onHeap_ok {α : Type} {x : M α} {a : α} {h' : Heap} (hx : x s.heap = .ok a h') :
    onHeap x s = .ok a { s with heap := h' } := by
  rw [onHeap, hx]

theorem mugAt_ok {box : Box} (hbox : s.heap off = some box) :
    mugAt off s = .ok (boxMug s.mugs off box.body, box.body) s :=
  bind_ok (onHeap_ok (load_ok hbox)) _

theorem keepCell_ok {use_w mug_w : ℕ} {hed tel : Ref}
    (hbox : s.heap off = some ⟨use_w, .cell mug_w hed tel⟩) (mug_l : ℕ) :
    onHeap (keepCell off mug_l) s =
      .ok () { s with heap := Function.update s.heap off (some ⟨use_w, .cell mug_l hed tel⟩) } :=
  onHeap_ok (bind_ok (load_ok hbox) _)

/-- A box with a mug is not looked into. -/
theorem mugNext_cached (hworld : World R (mug hash) s.mugs val s.heap boxes roots)
    (halive : Alive R val s.heap boxes r) (hoff : r.off = some off) {box : Box}
    (hbox : s.heap off = some box) (hmug : boxMug s.mugs off box.body ≠ 0) (fuel : ℕ) :
    mugNext hash (fuel + 1) pil_u r s = .ok (mug hash (val off), pil_u) s := by
  rw [mugNext, hoff]
  dsimp only
  rw [bind_ok (mugAt_ok hbox)]
  dsimp only
  rw [if_pos hmug, hworld.valid off box (halive.known hoff) hbox hmug]
  rfl

/-- The mug of an indirect atom is kept. -/
theorem World.keepAtom {v : ℕ} (hworld : World R (mug hash) s.mugs val s.heap boxes roots)
    (hval : val off = .atom v) :
    World R (mug hash) (Function.update s.mugs off (mug hash (.atom v))) val s.heap boxes
      roots := by
  refine hworld.mugged .refl fun o box hknown hbox hne ↦ ?_
  have hvalid := hworld.valid o box hknown hbox
  obtain ⟨use_w, body⟩ := box
  cases body with
  | cell mug_w hed tel => exact hvalid hne
  | atom v' =>
    dsimp only [boxMug] at hvalid hne ⊢
    by_cases heq : o = off
    · rw [heq, Function.update_self, hval]
    · rw [Function.update_of_ne heq] at hne ⊢
      exact hvalid hne

/-- The mug of a cell. -/
theorem World.keepCell {use_w mug_w : ℕ} {hed tel : Ref}
    (hworld : World R (mug hash) s.mugs val s.heap boxes roots)
    (hbox : s.heap off = some ⟨use_w, .cell mug_w hed tel⟩) :
    World R (mug hash) s.mugs val
      (Function.update s.heap off (some ⟨use_w, .cell (mug hash (val off)) hed tel⟩)) boxes
        roots := by
  refine hworld.mugged (.put hbox _) fun o box hknown hbox' hne ↦ ?_
  by_cases heq : o = off
  · rw [heq, Function.update_self] at hbox'
    cases hbox'
    rw [heq]
    rfl
  · rw [Function.update_of_ne heq] at hbox'
    exact hworld.valid o box hknown hbox' hne

theorem Alive.mugged {h h' : Heap} (halive : Alive R val h boxes r) (hmugged : Mugged h h') :
    Alive R val h' boxes r :=
  ⟨hmugged.denotes halive.den, halive.inside⟩

theorem mugNext_atom {v : ℕ} (hworld : World R (mug hash) s.mugs val s.heap boxes roots)
    (halive : Alive R val s.heap boxes r) (hn : r.noun val = .atom v) (fuel : ℕ) :
    ∃ mugs, World R (mug hash) mugs val s.heap boxes roots ∧
      mugNext hash (fuel + 1) pil_u r s = .ok (mug hash (.atom v),
      pil_u) { s with mugs := mugs } := by
  have hden := halive.den
  rw [hn] at hden
  cases hden with
  | cat ha =>
    refine ⟨s.mugs, hworld, ?_⟩
    rw [mugNext, ← mugWords_cat ha]
    rfl
  | @pug off use_w _ hoff hbox =>
    by_cases hmug : boxMug s.mugs off (.atom v) = 0
    · refine ⟨_, hworld.keepAtom hn, ?_⟩
      rw [mugNext]
      dsimp only [Ref.off]
      rw [bind_ok (mugAt_ok hbox)]
      dsimp only
      rw [if_neg (not_not.mpr hmug), mugWords_pug]
      rfl
    · exact ⟨s.mugs, hworld, (mugNext_cached hworld halive rfl hbox hmug fuel).trans
        (by rw [← hn]; rfl)⟩

section Frames

variable {most k use_w mug_w : ℕ} {hed tel : Ref}

/-- The mug of the head is kept in the frame, and the tail is next. -/
theorem mugLoop_head (hbox : s.heap off = some ⟨use_w, .cell mug_w hed tel⟩) (mug_l : ℕ) :
    mugLoop hash most (k + 1) mug_l (⟨0, off⟩ :: pil_u) s =
      (mugNext hash most (⟨mug_l, off⟩ :: pil_u) tel >>= fun p ↦
        mugLoop hash most k p.1 p.2) s := by
  rw [mugLoop, if_pos rfl]
  exact bind_ok (onHeap_ok (cellAt_ok hbox)) _

/-- The mug of the tail is there, and the cell gets its own. -/
theorem mugLoop_tail (hbox : s.heap off = some ⟨use_w, .cell mug_w hed tel⟩) {lef_l : ℕ}
    (hhead : lef_l ≠ 0) (mug_l : ℕ) :
    mugLoop hash most (k + 1) mug_l (⟨lef_l, off⟩ :: pil_u) s =
      mugLoop hash most k (mugBoth hash lef_l mug_l) pil_u { s with
        heap := Function.update s.heap off (some ⟨use_w,
        .cell (mugBoth hash lef_l mug_l) hed tel⟩) } := by
  rw [mugLoop, if_neg hhead]
  exact bind_ok (keepCell_ok hbox _) _

end Frames

/-- A noun comes to its mug, with the frames that were there before. -/
theorem mugNext_runs (n : Noun) {fuel most k : ℕ}
    (hworld : World R (mug hash) s.mugs val s.heap boxes roots)
    (halive : Alive R val s.heap boxes r) (hn : r.noun val = n) (hfuel : n.size ≤ fuel)
    (hmost : n.size ≤ most) (hk : 2 * n.size ≤ k) :
    ∃ s' k', k ≤ k' + 2 * n.size ∧ World R (mug hash) s'.mugs val s'.heap boxes roots ∧
      Mugged s.heap s'.heap ∧
      (mugNext hash fuel pil_u r >>= fun p ↦ mugLoop hash most k p.1 p.2) s =
        mugLoop hash most k' (mug hash n) pil_u s' := by
  induction n generalizing s r fuel k pil_u with
  | atom v =>
    simp only [Noun.size] at hfuel
    obtain ⟨fuel, rfl⟩ : ∃ f, fuel = f + 1 := ⟨fuel - 1, by omega⟩
    obtain ⟨mugs, hworld', hnext⟩ := mugNext_atom hworld halive hn fuel
    exact ⟨{ s with mugs := mugs }, k, Nat.le_add_right _ _, hworld', .refl, by rw [bind_ok hnext]⟩
  | cell p q ihp ihq =>
    simp only [Noun.size] at hfuel hmost hk ⊢
    obtain ⟨fuel, rfl⟩ : ∃ f, fuel = f + 1 := ⟨fuel - 1, by omega⟩
    obtain ⟨off, rfl, hval⟩ := halive.pom_of_cell hworld hn
    obtain ⟨_, _, ⟨use_w, mug_w, hed, tel, hbox, rfl⟩, ⟨_, _, _, _, hbox', rfl⟩, hahed, hatel,
      hcell⟩ :=
      halive.cell hworld
    rw [hbox] at hbox'
    cases hbox'
    obtain ⟨hp, hq⟩ := Noun.cell.inj (hcell.symm.trans hval)
    by_cases hmug : mug_w = 0
    · -- the head, then the tail, and then the cell itself
      have hnext : mugNext hash (fuel + 1) pil_u (.pom off) s =
        mugNext hash fuel (⟨0, off⟩ :: pil_u) hed s := by
        rw [mugNext]
        dsimp only [Ref.off]
        rw [bind_ok (mugAt_ok hbox)]
        have hnone : ¬boxMug s.mugs off (.cell mug_w hed tel) ≠ 0 := not_not.mpr hmug
        dsimp only
        rw [if_neg hnone]
      obtain ⟨s₁, k₁, hk₁, hworld₁, hmugged₁, hruns₁⟩ :=
        @ihp s hed (⟨0, off⟩ :: pil_u) fuel k hworld hahed hp (by omega) (by omega) (by omega)
      obtain ⟨k₁, rfl⟩ : ∃ j, k₁ = j + 1 := ⟨k₁ - 1, by omega⟩
      obtain ⟨mug_w₁, hbox₁⟩ := hmugged₁.cell hbox
      obtain ⟨s₂, k₂, hk₂, hworld₂, hmugged₂, hruns₂⟩ :=
        @ihq s₁ tel (⟨mug hash p, off⟩ :: pil_u) most k₁ hworld₁
        (hatel.mugged hmugged₁) hq (by omega) (by omega) (by omega)
      obtain ⟨k₂, rfl⟩ : ∃ j, k₂ = j + 1 := ⟨k₂ - 1, by omega⟩
      obtain ⟨mug_w₂, hbox₂⟩ := hmugged₂.cell hbox₁
      have hworld₃ := hworld₂.keepCell hbox₂
      have hmugged₃ := Mugged.put hbox₂ (mug hash (.cell p q))
      rw [hval] at hworld₃
      refine ⟨{ s₂ with heap := _ }, k₂, by omega, hworld₃,
        hmugged₁.trans (hmugged₂.trans hmugged₃), ?_⟩
      calc (mugNext hash (fuel + 1) pil_u (.pom off) >>= fun p ↦ mugLoop hash most k p.1 p.2) s
        _ = (mugNext hash fuel (⟨0, off⟩ :: pil_u) hed >>= fun p ↦ mugLoop hash most k p.1 p.2) s :=
          bind_eq hnext _
        _ = mugLoop hash most (k₁ + 1) (mug hash p) (⟨0, off⟩ :: pil_u) s₁ := hruns₁
        _ = _ := mugLoop_head hbox₁ _
        _ = mugLoop hash most (k₂ + 1) (mug hash q) (⟨mug hash p, off⟩ :: pil_u) s₂ := hruns₂
        _ = _ := mugLoop_tail hbox₂ (mug_ne_zero p) _
    · refine ⟨s, k, Nat.le_add_right _ _, hworld, .refl, ?_⟩
      rw [bind_ok (mugNext_cached hworld halive rfl hbox hmug fuel), hval]

/-- `u3r_mug()` gives the mug of the noun, and leaves the mugs right. -/
theorem rMug_runs {n : ℕ} {fuel : ℕ} (hworld : World R (mug hash) s.mugs val s.heap boxes roots)
    (halive : Alive R val s.heap boxes r) (hfuel : (r.noun val).size ≤ fuel)
    (hn : 2 * (r.noun val).size ≤ n) :
    ∃ s', rMug hash fuel n r s = .ok (mug hash (r.noun val)) s' ∧
      World R (mug hash) s'.mugs val s'.heap boxes roots ∧
      Mugged s.heap s'.heap := by
  obtain ⟨s', k', -, hworld', hmugged, hruns⟩ :=
    @mugNext_runs R hash val s boxes roots r [] _ fuel fuel n hworld halive rfl hfuel hfuel hn
  refine ⟨s', hruns.trans ?_, hworld', hmugged⟩
  cases k' <;> rfl

end Run

/-! ### Equality and mugs are structural -/

/-- The nouns of the loom, with right mugs. -/
structure Sound (R : Road) (hash : ℕ → List UInt8 → ℕ) (s : Cached) (boxes : Finset ℕ)
    (roots : List Ref) : Prop where
  safe : Safe R s.heap boxes roots
  /-- The boxes are those of nouns. -/
  nouns : ∀ off box, Known R boxes off → s.heap off = some box →
    ∃ n, Denotes s.heap (box.body.toRef off) n
  used : Used R s.heap
  /-- Small atoms are direct. -/
  large : ∀ off use_w v, Known R boxes off → s.heap off = some ⟨use_w, .atom v⟩ → 2 ^ 31 ≤ v
  /-- A mug that is kept is that of the noun. -/
  valid : ∀ off box n, Known R boxes off → s.heap off = some box →
    Denotes s.heap (box.body.toRef off) n →
    boxMug s.mugs off box.body ≠ 0 → boxMug s.mugs off box.body = mug hash n

/-- What a call leaves: right mugs, and every noun whose box is not freed as it was. -/
structure Leaves (R : Road) (hash : ℕ → List UInt8 → ℕ) (roots : List Ref) (s : Cached)
    (boxes : Finset ℕ) (s' : Cached) (boxes' : Finset ℕ) : Prop where
  sound : Sound R hash s' boxes' roots
  sub : boxes' ⊆ boxes
  keep : ∀ r n, Denotes s.heap r n → Inside R boxes' r → Denotes s'.heap r n

section Structural

variable {R : Road} {hash : ℕ → List UInt8 → ℕ} {val : ℕ → Noun} {s s' : Cached}
  {boxes boxes' : Finset ℕ} {roots : List Ref}

theorem Sound.exists_world (hsound : Sound R hash s boxes roots) :
    ∃ val, World R (mug hash) s.mugs val s.heap boxes roots := by
  have hval : ∀ off, ∃ n, ∀ box, Known R boxes off → s.heap off = some box →
    Denotes s.heap (box.body.toRef off) n := by
    intro off
    by_cases hbox : Known R boxes off ∧ ∃ box, s.heap off = some box
    · obtain ⟨hknown, box, hbox⟩ := hbox
      obtain ⟨n, hn⟩ := hsound.nouns off box hknown hbox
      refine ⟨n, fun box' _ hbox' ↦ ?_⟩
      rw [hbox] at hbox'
      cases hbox'
      exact hn
    · exact ⟨.nul, fun box hknown hsome ↦ absurd ⟨hknown, box, hsome⟩ hbox⟩
  choose val hval using hval
  exact ⟨val, hsound.safe, hval, hsound.used, hsound.large, fun off box hknown hbox ↦
    hsound.valid off box _ hknown hbox (hval off box hknown hbox)⟩

theorem World.sound (hworld : World R (mug hash) s.mugs val s.heap boxes roots) :
    Sound R hash s boxes roots where
  safe := hworld.safe
  nouns off box hknown hbox := ⟨val off, hworld.nouns off box hknown hbox⟩
  used := hworld.used
  large := hworld.large
  valid off box n hknown hbox hden hmug := by
    rw [hden.unique (hworld.nouns off box hknown hbox)]
    exact hworld.valid off box hknown hbox hmug

/-- Boxes of nouns that are as large as one of those compared stay. -/
theorem Stays.inside {x₀ y₀ : Noun} {h h' : Heap} {r : Ref}
    (hstays : Stays R (mug hash) s.mugs val roots x₀ y₀ h boxes h' boxes')
    (hin : Inside R boxes r) (hlarge : x₀.size ≤ (r.noun val).size ∨ y₀.size ≤ (r.noun val).size) :
    Inside R boxes' r := by
  cases hoff : r.off with
  | none => exact inside_none hoff
  | some off =>
    rw [noun_of_off hoff] at hlarge
    exact (inside_iff hoff).mpr fun hnormal ↦
      hstays.whole off ((inside_iff hoff).mp hin hnormal) hlarge

/-- For nouns with any right mugs, `u3r_sing()` says whether they are equal and `u3r_mug()` gives
the hash of the noun. Both leave right mugs, and every noun is the one that it was. A comparison
bails only at a noun that the two have at the same place with a use count at its maximum, and raises
no use count by more than a multiple of the size. -/
theorem sing_mug_structural {rods : List Level}
    (hroad : ∀ rod_u ∈ rods.head?, ∀ off, R.normal off = !rod_u.senior off)
    (hsound : Sound R hash s boxes roots) {a b : Ref} {na nb : Noun} (ha : Denotes s.heap a na)
    (hb : Denotes s.heap b nb) (hina : Inside R boxes a) (hinb : Inside R boxes b) :
    ∃ least, ∀ fuel n, least ≤ fuel → least ≤ n →
      ((∃ s' boxes', rSing R rods fuel n a b s = .ok (decide (na = nb)) s' ∧
          Leaves R hash roots s boxes s' boxes' ∧
          Inside R boxes' a ∧ Inside R boxes' b) ∨
        ∃ s' boxes' m, rSing R rods fuel n a b s = .error .fail s' ∧
          Leaves R hash roots s boxes s' boxes' ∧ (Inside R boxes' a ∧ Inside R boxes' b) ∧
          Full s'.heap m ∧ Common m na nb ∧ Raises (3 * na.size + 1) s.heap s'.heap) ∧
      ∃ s', rMug hash fuel n a s = .ok (mug hash na) s' ∧ Leaves R hash roots s boxes s' boxes := by
  obtain ⟨val, hworld⟩ := hsound.exists_world
  obtain ⟨hlive_a, rfl⟩ := hworld.alive ha hina
  obtain ⟨hlive_b, rfl⟩ := hworld.alive hb hinb
  refine ⟨3 * (a.noun val).size + 2, fun fuel n hfuel hn ↦ ⟨?_, ?_⟩⟩
  · have hanswers :=
      @sing_runs R (mug hash) s.mugs val roots s.heap boxes rods fuel a b hroad hworld
      hlive_a hlive_b n (by omega) (by omega)
    have hleaves : ∀ {h' : Heap} {boxes' : Finset ℕ},
        Stays R (mug hash) s.mugs val roots (a.noun val) (b.noun val) s.heap boxes h' boxes' →
        Leaves R hash roots s boxes { s with heap := h' } boxes' ∧ Inside R boxes' a ∧
        Inside R boxes' b :=
      fun {h' boxes'} hstays ↦
        ⟨⟨@World.sound R hash val { s with heap := h' } boxes' roots hstays.world,
          hstays.unified.sub, hstays.unified.keep⟩,
          hstays.inside hina (.inl (Nat.le_refl _)), hstays.inside hinb (.inr (Nat.le_refl _))⟩
    cases hres : sing R rods s.mugs fuel n a b s.heap with
    | error why h' =>
      rw [hres] at hanswers
      obtain ⟨rfl, ⟨boxes', hstays⟩, ⟨m, hfull, hcommon⟩, hraises⟩ := hanswers
      obtain ⟨hleft, hinside⟩ := hleaves hstays
      refine .inr ⟨{ s with heap := h' }, boxes', m, ?_, hleft, hinside, hfull, hcommon, hraises⟩
      show onHeap _ s = _
      rw [onHeap, hres]
    | ok ret h' =>
      rw [hres] at hanswers
      obtain ⟨rfl, boxes', hstays⟩ := hanswers
      exact .inl ⟨{ s with heap := h' }, boxes', onHeap_ok hres, hleaves hstays⟩
  · obtain ⟨s', hmug, hworld', hmugged⟩ :=
      @rMug_runs R hash val s boxes roots a n fuel hworld hlive_a (by omega) (by omega)
    exact ⟨s', hmug, hworld'.sound, subset_rfl, fun r n hden _ ↦ hmugged.denotes hden⟩

end Structural

/-- A road without free boxes. -/
def fullRoad : Road where
  normal _ := true
  celloc _ := none
  fresh := nofun

/-- Two cells `[[5 6] 9]`, with a mug in the head of the second. -/
def pairCached : Cached where
  heap
    | 0 => some ⟨1, .cell 0 (.pom 2) (.cat 9)⟩
    | 1 => some ⟨1, .cell 0 (.pom 3) (.cat 9)⟩
    | 2 => some ⟨1, .cell 0 (.cat 5) (.cat 6)⟩
    | 3 => some ⟨1, .cell (mug murmur3 (.cell (.atom 5) (.atom 6))) (.cat 5) (.cat 6)⟩
    | _ => none
  mugs _ := 0

theorem pairCached_denotes :
    (∀ off ∈ [2, 3], Denotes pairCached.heap (.pom off) (.cell (.atom 5) (.atom 6))) ∧
      ∀ off ∈ [0, 1],
        Denotes pairCached.heap (.pom off) (.cell (.cell (.atom 5) (.atom 6)) (.atom 9)) := by
  have hhead : ∀ off ∈ [2, 3], Denotes pairCached.heap (.pom off) (.cell (.atom 5) (.atom 6)) := by
    intro off hoff
    rcases List.mem_cons.mp hoff with rfl | hoff
    · exact .pom (by decide) rfl (.cat (by decide)) (.cat (by decide))
    · obtain rfl := List.mem_singleton.mp hoff
      exact .pom (by decide) rfl (.cat (by decide)) (.cat (by decide))
  refine ⟨hhead, fun off hoff ↦ ?_⟩
  rcases List.mem_cons.mp hoff with rfl | hoff
  · exact .pom (by decide) rfl (hhead 2 (by decide)) (.cat (by decide))
  · obtain rfl := List.mem_singleton.mp hoff
    exact .pom (by decide) rfl (hhead 3 (by decide)) (.cat (by decide))

theorem pairCached_sound : Sound fullRoad murmur3 pairCached {0, 1, 2, 3} [.pom 0, .pom 1] where
  safe := ⟨fun _ _ ↦ rfl, by decide, nofun, by decide, by decide, by decide⟩
  nouns
    | 0, _, _, rfl => ⟨_, pairCached_denotes.2 0 (by decide)⟩
    | 1, _, _, rfl => ⟨_, pairCached_denotes.2 1 (by decide)⟩
    | 2, _, _, rfl => ⟨_, pairCached_denotes.1 2 (by decide)⟩
    | 3, _, _, rfl => ⟨_, pairCached_denotes.1 3 (by decide)⟩
    | _ + 4, _, _, hbox => nomatch hbox
  used := nofun
  large
    | 0, _, _, _, hbox => nomatch hbox
    | 1, _, _, _, hbox => nomatch hbox
    | 2, _, _, _, hbox => nomatch hbox
    | 3, _, _, _, hbox => nomatch hbox
    | _ + 4, _, _, _, hbox => nomatch hbox
  valid
    | 0, _, _, _, rfl, _, hmug => absurd rfl hmug
    | 1, _, _, _, rfl, _, hmug => absurd rfl hmug
    | 2, _, _, _, rfl, _, hmug => absurd rfl hmug
    | 3, _, _, _, rfl, hden, _ =>
      congrArg (mug murmur3) (pairCached_denotes.1 3 (by decide) |>.unique hden)
    | _ + 4, _, _, _, hbox, _, _ => nomatch hbox

/-- The roads on which the pair is unified. -/
def fullRods : List Level := [⟨fun _ ↦ false, true⟩]

/-- No use count of the pair is near its maximum, so that the comparison does not bail. -/
theorem sing_mug_structural_pair : ∃ fuel n,
    (∃ s' boxes', rSing fullRoad fullRods fuel n (.pom 0) (.pom 1) pairCached = .ok true s' ∧
      Leaves fullRoad murmur3 [.pom 0, .pom 1] pairCached {0, 1, 2, 3} s' boxes') ∧
    ∃ s', rMug murmur3 fuel n (.pom 0) pairCached =
      .ok (mug murmur3 (.cell (.cell (.atom 5) (.atom 6)) (.atom 9))) s' := by
  have hroad : ∀ rod_u ∈ fullRods.head?, ∀ off, fullRoad.normal off = !rod_u.senior off := by
    rintro rod_u ⟨⟩ off
    rfl
  have hin : ∀ off ∈ [0, 1], Inside fullRoad {0, 1, 2, 3} (.pom off) := fun off hoff ↦
    (inside_iff rfl).mpr fun _ ↦ by
      simp only [List.mem_cons, List.not_mem_nil, or_false] at hoff
      rcases hoff with rfl | rfl <;> decide
  have hfew : ∀ off, useOf pairCached.heap off ≤ 1 := by
    rintro (_ | _ | _ | _ | off)
    · exact Nat.le_refl 1
    · exact Nat.le_refl 1
    · exact Nat.le_refl 1
    · exact Nat.le_refl 1
    · exact Nat.zero_le 1
  obtain ⟨least, hleast⟩ :=
    sing_mug_structural hroad pairCached_sound (pairCached_denotes.2 0 (by decide))
    (pairCached_denotes.2 1 (by decide)) (hin 0 (by decide)) (hin 1 (by decide))
  obtain ⟨⟨s', boxes', hsing, hleaves, -⟩ | ⟨s', boxes', m, -, -, -, hfull, -, hraises⟩, s'',
    hmug, -⟩ :=
    hleast least least (Nat.le_refl _) (Nat.le_refl _)
  · exact ⟨least, least, ⟨s', boxes', hsing, hleaves⟩, s'', hmug⟩
  · obtain ⟨r, off, box, -, -, hbox, huse⟩ := hfull
    have hless := (hraises off).trans (Nat.add_le_add_right (hfew off) _)
    rw [useOf_of hbox, huse] at hless
    exact absurd hless (by decide)

/-- The head of the first cell becomes that of the second. -/
example : ∃ s', rSing fullRoad fullRods 40 40 (.pom 0) (.pom 1) pairCached = .ok true s' ∧
    s'.heap 2 = none ∧
    Place.get ⟨.hed, 0⟩ s'.heap = .ok (.pom 3) s'.heap :=
  ⟨_, rfl, rfl, rfl⟩

end Vere.Noun.Shared
