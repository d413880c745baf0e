import Mathlib.Logic.Function.Basic
import Vere.Lib.Counts
import Vere.Noun.Basic

/-!
# Nouns on the loom

The part of `pkg/noun/allocate.c` that shares nouns. A noun is a reference: a direct atom, or the
offset of the box of an indirect atom or of a cell. Every box has a use count; `gain` is `u3k()` and
`lose` is `u3z()`, which frees a box with its last use and loses what the box refers to.

`Denotes h r n` says that reference `r` denotes noun `n` in heap `h`. `Safe R h boxes roots` is what
the program relies on: no box of the road has more references, from other boxes and from `roots`,
than its use count says. Losing a reference keeps the nouns of all other references (`lose_runs`).
-/

set_option autoImplicit false

namespace Vere.Noun.Shared

open Vere.Lib.Counts

/-! ### The heap -/

/-- `u3_noun` as a word: `u3a_is_cat`, `u3a_is_pug` and `u3a_is_pom`. -/
inductive Ref
  | cat (a : ℕ)
  | pug (off : ℕ)
  | pom (off : ℕ)
  deriving DecidableEq

/-- What a box holds: `u3a_atom`, whose words are the value, or `u3a_cell`. -/
inductive Body
  | atom (val : ℕ)
  | cell (mug_w : ℕ) (hed tel : Ref)

/-- `u3a_box`. -/
structure Box where
  use_w : ℕ
  body : Body

/-- The boxes in use, by their offsets. -/
abbrev Heap := ℕ → Option Box

/-- `u3a_to_off`, of a reference that has one. -/
def Ref.off : Ref → Option ℕ
  | .cat _ => none
  | .pug off => some off
  | .pom off => some off

/-- The references in a box. -/
def Body.refs : Body → List Ref
  | .atom _ => []
  | .cell _ hed tel => [hed, tel]

/-- The road. Nouns of senior roads are not counted, and there are no nouns of junior ones. -/
structure Road where
  /-- `u3a_north_is_normal` or `u3a_south_is_normal`. -/
  normal : ℕ → Bool
  /-- The box that `u3a_celloc` returns, unless the road is full. -/
  celloc : Heap → Option ℕ
  /-- It was free. -/
  fresh : ∀ {h : Heap} {off : ℕ}, celloc h = some off → normal off = true ∧ off < 2 ^ 30 ∧
    h off = none

/-- Why a program stops. -/
inductive Bail
  /-- `c3__exit`. -/
  | exit
  /-- `c3__fail`. -/
  | fail
  /-- `c3__foul`. -/
  | foul
  /-- `c3__meme`. -/
  | meme
  /-- A box is read that is not there, or is of another kind. -/
  | fault
  /-- The amount of fuel was too small. -/
  | spent
  deriving DecidableEq

/-- A program that works on the heap; the heap is left as it is when the program bails. -/
abbrev M (α : Type) := EStateM Bail Heap α

/-- Reads a box. -/
def load (off : ℕ) : M Box := fun h ↦
  match h off with
  | some box => .ok box h
  | none => .error .fault h

/-- Writes a box. -/
def store (off : ℕ) (box : Box) : M Unit := fun h ↦ .ok () (Function.update h off (some box))

/-- `u3a_cfree` and `u3a_wfree`. -/
def free (off : ℕ) : M Unit := fun h ↦ .ok () (Function.update h off none)

/-- `u3du`. -/
def u3du : Ref → Bool
  | .pom _ => true
  | _ => false

/-- The fields of a cell. -/
def cellAt (off : ℕ) : M (Ref × Ref) := do
  let box ← load off
  match box.body with
  | .cell _ hed tel => pure (hed, tel)
  | .atom _ => throw .fault

/-- `u3h`. -/
def u3h : Ref → M Ref
  | .pom off => do
    let (hed, _) ← cellAt off
    pure hed
  | _ => throw .exit

/-- `u3t`. -/
def u3t : Ref → M Ref
  | .pom off => do
    let (_, tel) ← cellAt off
    pure tel
  | _ => throw .exit

/-- `u3nc`: a new cell, with one use. -/
def u3nc (R : Road) (hed tel : Ref) : M Ref := fun h ↦
  match R.celloc h with
  | some off => .ok (.pom off) (Function.update h off (some ⟨1, .cell 0 hed tel⟩))
  | none => .error .meme h

/-- `u3k`, that is `u3a_gain()` with `_me_gain_use()`. -/
def gain (R : Road) (som : Ref) : M Ref :=
  match som.off with
  | none => pure som
  | some off =>
    if R.normal off then do
      let box ← load off
      if box.use_w = 0x7fffffff then throw .fail
      else if box.use_w = 0 then throw .foul
      else do
        store off { box with use_w := box.use_w + 1 }
        pure som
    else pure som

/-- `u3z`, that is `u3a_lose()` with `_me_lose_north()` or `_me_lose_south()`. -/
def lose (R : Road) : ℕ → Ref → M Unit
  | 0, _ => throw .spent
  | fuel + 1, dog =>
    match dog.off with
    | none => pure ()
    | some off =>
      if R.normal off then do
        let box ← load off
        if 1 < box.use_w then store off { box with use_w := box.use_w - 1 }
        else if box.use_w = 0 then throw .foul
        else if u3du dog then do
          let (hed, tel) ← cellAt off
          lose R fuel hed
          free off
          lose R fuel tel
        else free off
      else pure ()

/-- `u3a_is_mutable`. -/
def isMutable (R : Road) : Ref → M Bool
  | .pom off =>
    if R.normal off then do
      let box ← load off
      pure (box.use_w == 1)
    else pure false
  | _ => pure false

/-! ### Running a program -/

variable {hed tel : Ref} {n : Noun}

section Run

variable {ε σ α β : Type} {x : EStateM ε σ α} {s s' : σ} {h : Heap}

theorem bind_ok {a : α} (hx : x s = .ok a s') (next : α → EStateM ε σ β) :
    (x >>= next) s = next a s' := by
  show EStateM.bind x next s = _
  rw [EStateM.bind, hx]

theorem bind_error {why : ε} (hx : x s = .error why s') (next : α → EStateM ε σ β) :
    (x >>= next) s = .error why s' := by
  show EStateM.bind x next s = _
  rw [EStateM.bind, hx]

theorem bind_eq {y : EStateM ε σ α} (hxy : x s = y s') (next : α → EStateM ε σ β) :
    (x >>= next) s = (y >>= next) s' := by
  show EStateM.bind x next s = EStateM.bind y next s'
  rw [EStateM.bind, EStateM.bind, hxy]

theorem load_ok {off : ℕ} {box : Box} (hbox : h off = some box) : load off h = .ok box h := by
  rw [load, hbox]

theorem cellAt_ok {off use_w mug_w : ℕ} (hbox : h off = some ⟨use_w, .cell mug_w hed tel⟩) :
    cellAt off h = .ok (hed, tel) h :=
  bind_ok (load_ok hbox) _

theorem u3h_ok {off use_w mug_w : ℕ} (hbox : h off = some ⟨use_w, .cell mug_w hed tel⟩) :
    u3h (.pom off) h = .ok hed h :=
  bind_ok (cellAt_ok hbox) _

theorem u3t_ok {off use_w mug_w : ℕ} (hbox : h off = some ⟨use_w, .cell mug_w hed tel⟩) :
    u3t (.pom off) h = .ok tel h :=
  bind_ok (cellAt_ok hbox) _

end Run

/-! ### What a reference denotes -/

/-- Reference `r` denotes noun `n`. -/
inductive Denotes (h : Heap) : Ref → Noun → Prop
  | cat {a : ℕ} (ha : a < 2 ^ 31) : Denotes h (.cat a) (.atom a)
  | pug {off use_w val : ℕ} (hoff : off < 2 ^ 30) (hbox : h off = some ⟨use_w, .atom val⟩) :
      Denotes h (.pug off) (.atom val)
  | pom {off use_w mug_w : ℕ} {hed tel : Ref} {nh nt : Noun} (hoff : off < 2 ^ 30)
      (hbox : h off = some ⟨use_w, .cell mug_w hed tel⟩) (hhed : Denotes h hed nh)
      (htel : Denotes h tel nt) : Denotes h (.pom off) (.cell nh nt)

theorem Denotes.unique {h : Heap} {r : Ref} {m : Noun} (hn : Denotes h r n) (hm : Denotes h r m) :
    n = m := by
  induction hn generalizing m with
  | cat _ =>
    cases hm
    rfl
  | pug _ hbox =>
    cases hm with
    | pug _ hbox' =>
      rw [hbox] at hbox'
      cases hbox'
      rfl
  | pom _ hbox _ _ ihhed ihtel =>
    cases hm with
    | pom _ hbox' hhed htel =>
      rw [hbox] at hbox'
      cases hbox'
      rw [ihhed hhed, ihtel htel]

/-- The counted offsets of references. -/
def offs (R : Road) (rs : List Ref) : List ℕ :=
  rs.filterMap fun r ↦ r.off.filter fun off ↦ R.normal off

/-- The counted offsets in a box. -/
def held (R : Road) (h : Heap) (off : ℕ) : List ℕ := (h off).elim [] fun box ↦ offs R box.body.refs

/-- The use count of a box. -/
def useOf (h : Heap) (off : ℕ) : ℕ := (h off).elim 0 Box.use_w

variable {R : Road}

theorem offs_cons (r : Ref) (rs : List Ref) : offs R (r :: rs) = offs R [r] ++ offs R rs := by
  rw [← List.singleton_append, offs, List.filterMap_append]
  rfl

theorem offs_append (rs rs' : List Ref) : offs R (rs ++ rs') = offs R rs ++ offs R rs' :=
  List.filterMap_append

theorem offs_none {r : Ref} (hoff : r.off = none) : offs R [r] = [] := by
  simp only [offs, List.filterMap_cons, hoff, Option.filter_none, List.filterMap_nil]

theorem offs_some {r : Ref} {off : ℕ} (hoff : r.off = some off) (hnormal : R.normal off = true) :
    offs R [r] = [off] := by
  simp only [offs, List.filterMap_cons, hoff, Option.filter_some, hnormal, if_true,
    List.filterMap_nil]

theorem offs_senior {r : Ref} {off : ℕ} (hoff : r.off = some off) (hnormal : R.normal off = false) :
    offs R [r] = [] := by
  simp only [offs, List.filterMap_cons, hoff, Option.filter_some, hnormal, List.filterMap_nil]
  rfl

/-- A reference counts at most once. -/
theorem offs_eq_cons {r : Ref} {off : ℕ} {more : List ℕ} (hoffs : offs R [r] = off :: more) :
    r.off = some off ∧ R.normal off = true ∧ more = [] := by
  cases hoff : r.off with
  | none =>
    rw [offs_none hoff] at hoffs
    cases hoffs
  | some off' =>
    cases hnormal : R.normal off' with
    | false =>
      rw [offs_senior hoff hnormal] at hoffs
      cases hoffs
    | true =>
      rw [offs_some hoff hnormal] at hoffs
      cases hoffs
      exact ⟨rfl, hnormal, rfl⟩

theorem held_of {h : Heap} {off : ℕ} {box : Box} (hbox : h off = some box) :
    held R h off = offs R box.body.refs := by
  rw [held, hbox]
  rfl

theorem useOf_of {h : Heap} {off : ℕ} {box : Box} (hbox : h off = some box) :
    useOf h off = box.use_w := by
  rw [useOf, hbox]
  rfl

/-- The boxes hold the same, whatever their use counts. -/
def Same (h h' : Heap) (off : ℕ) : Prop := (h' off).map Box.body = (h off).map Box.body

theorem Same.live {h h' : Heap} {off : ℕ} (hsame : Same h h' off) (hlive : h off ≠ none) :
    h' off ≠ none := by
  intro hnone
  rw [Same, hnone] at hsame
  exact hlive (Option.map_eq_none_iff.mp hsame.symm)

theorem Same.held_eq {h h' : Heap} {off : ℕ} (hsame : Same h h' off) :
    held R h off = held R h' off := by
  have hmap : ∀ box : Option Box, (box.elim [] fun box ↦ offs R box.body.refs) =
      (box.map Box.body).elim [] fun body ↦ offs R body.refs := by
    intro box
    cases box <;> rfl
  rw [held, held, hmap, hmap, hsame]

/-- References into a closed region in which the boxes hold the same denote the same. -/
theorem Denotes.keep {h h' : Heap} {region : Finset ℕ} {r : Ref} {n : Noun}
    (hclosed : ∀ b ∈ region, ∀ o ∈ held R h b, o ∈ region)
    (hsenior : ∀ off box, R.normal off = false → h off = some box → offs R box.body.refs = [])
    (hsame : ∀ off ∈ region, Same h h' off) (hfixed : ∀ off, R.normal off = false → h' off = h off)
    (hden : Denotes h r n) (hin : ∀ off ∈ offs R [r], off ∈ region) : Denotes h' r n := by
  have hbody : ∀ (r : Ref) (off : ℕ) (box : Box), r.off = some off → h off = some box →
      (∀ off ∈ offs R [r], off ∈ region) →
      (∃ use_w, h' off = some ⟨use_w, box.body⟩) ∧ ∀ o ∈ offs R box.body.refs, o ∈ region := by
    intro r off box hoff hbox hin
    cases hnormal : R.normal off with
    | false =>
      rw [hfixed off hnormal, hbox, hsenior off box hnormal hbox]
      exact ⟨⟨box.use_w, rfl⟩, nofun⟩
    | true =>
      have hmem : off ∈ region := hin off (by
        rw [offs_some hoff hnormal]
        exact List.mem_singleton_self off)
      have hmap := hsame off hmem
      rw [Same, hbox] at hmap
      obtain ⟨box', hbox', hbody'⟩ := Option.map_eq_some_iff.mp hmap
      refine ⟨⟨box'.use_w, ?_⟩, fun o ho ↦ hclosed off hmem o ?_⟩
      · rw [hbox', ← hbody']
      · rwa [held_of hbox]
  induction hden with
  | cat ha => exact .cat ha
  | pug hoff hbox =>
    obtain ⟨⟨use_w, hbox'⟩, -⟩ := hbody _ _ _ rfl hbox hin
    exact .pug hoff hbox'
  | @pom off _ _ hed tel _ _ hoff hbox hhed htel ihhed ihtel =>
    obtain ⟨⟨use_w, hbox'⟩, hrefs⟩ := hbody _ _ _ rfl hbox hin
    have hboth : offs R [hed, tel] = offs R [hed] ++ offs R [tel] := offs_cons hed [tel]
    rw [Body.refs, hboth] at hrefs
    exact .pom hoff hbox' (ihhed fun o ho ↦ hrefs o (List.mem_append_left _ ho))
      (ihtel fun o ho ↦ hrefs o (List.mem_append_right _ ho))

/-! ### Safe sharing -/

/-- The references from outside are `roots`, and no box of the road has more references than uses.
-/
structure Safe (R : Road) (h : Heap) (boxes : Finset ℕ) (roots : List Ref) : Prop where
  /-- The boxes are boxes of the road. -/
  normal : ∀ off ∈ boxes, R.normal off = true
  /-- They are in use. -/
  live : ∀ off ∈ boxes, h off ≠ none
  /-- Boxes of senior roads refer to senior roads. -/
  senior : ∀ off box, R.normal off = false → h off = some box → offs R box.body.refs = []
  /-- The use counts are high enough. -/
  counted : Counted boxes (held R h) (useOf h) (offs R roots)

variable {h h' : Heap} {boxes boxes' : Finset ℕ} {r : Ref} {roots roots' : List Ref}

/-- References of the road are to its boxes. -/
def Inside (R : Road) (boxes : Finset ℕ) (r : Ref) : Prop := ∀ off ∈ offs R [r], off ∈ boxes

theorem Safe.inside (hsafe : Safe R h boxes roots) (hr : r ∈ roots) : Inside R boxes r := by
  intro off hoff
  refine hsafe.counted.inside off ?_
  obtain ⟨pre, post, rfl⟩ := List.append_of_mem hr
  rw [offs_append, offs_cons]
  exact List.mem_append_right _ (List.mem_append_left _ hoff)

theorem Safe.perm (hsafe : Safe R h boxes roots) (hperm : roots.Perm roots') :
    Safe R h boxes roots' where
  normal := hsafe.normal
  live := hsafe.live
  senior := hsafe.senior
  counted := hsafe.counted.perm (hperm.filterMap _)

/-- The references in a box are inside, and to boxes that are used. -/
theorem Safe.inside_refs {off : ℕ} {box : Box} (hsafe : Safe R h boxes roots)
    (hin : Inside R boxes (.pom off)) (hbox : h off = some box) (hr : r ∈ box.body.refs) :
    Inside R boxes r ∧ ∀ o ∈ offs R [r], 0 < useOf h o := by
  refine forall₂_and.mp fun o ho ↦ ?_
  have hrefs : o ∈ offs R box.body.refs := by
    obtain ⟨pre, post, hsplit⟩ := List.append_of_mem hr
    rw [hsplit, offs_append, offs_cons]
    exact List.mem_append_right _ (List.mem_append_left _ ho)
  cases hnormal : R.normal off with
  | false =>
    rw [hsafe.senior off box hnormal hbox] at hrefs
    cases hrefs
  | true =>
    have hmem : off ∈ boxes := hin off (by
      rw [offs_some rfl hnormal]
      exact List.mem_singleton_self off)
    have hheld : o ∈ held R h off := by rwa [held_of hbox]
    have ho := hsafe.counted.closed off hmem o hheld
    have hrefs := refs_pos hmem hheld
    have huses := hsafe.counted.uses o ho
    exact ⟨ho, by omega⟩

/-- Boxes that are changed without changing what they hold, and boxes outside, do not matter. -/
theorem Safe.congr (hsafe : Safe R h boxes roots) (hsame : ∀ off ∈ boxes, Same h h' off)
    (huse : ∀ off ∈ boxes, useOf h off ≤ useOf h' off)
    (hfixed : ∀ off, R.normal off = false → h' off = h off) :
    Safe R h' boxes roots where
  normal := hsafe.normal
  live off hoff := (hsame off hoff).live (hsafe.live off hoff)
  senior off box hnormal hbox := hsafe.senior off box hnormal (by rwa [← hfixed off hnormal])
  counted := hsafe.counted.congr (fun b hb ↦ (hsame b hb).held_eq) huse

/-- What the rest of the program sees: all boxes from before that are left hold the same, and
outside of the road's boxes nothing changes. -/
structure Kept (R : Road) (h : Heap) (boxes : Finset ℕ) (h' : Heap) (boxes' : Finset ℕ) : Prop where
  sub : boxes' ⊆ boxes
  same : ∀ off ∈ boxes', Same h h' off
  outside : ∀ off ∉ boxes, h' off = h off

theorem Kept.refl : Kept R h boxes h boxes := ⟨subset_rfl, fun _ _ ↦ rfl, fun _ _ ↦ rfl⟩

theorem Kept.trans {h'' : Heap} {boxes'' : Finset ℕ} (hfirst : Kept R h boxes h' boxes')
    (hsecond : Kept R h' boxes' h'' boxes'') : Kept R h boxes h'' boxes'' where
  sub := hsecond.sub.trans hfirst.sub
  same off hoff := (hsecond.same off hoff).trans (hfirst.same off (hsecond.sub hoff))
  outside off hoff :=
    (hsecond.outside off fun hin ↦ hoff (hfirst.sub hin)).trans (hfirst.outside off hoff)

theorem Safe.fixed (hsafe : Safe R h boxes roots) (hkept : Kept R h boxes h' boxes') {off : ℕ}
    (hnormal : R.normal off = false) : h' off = h off :=
  hkept.outside off fun hin ↦ by
    rw [hsafe.normal off hin] at hnormal
    cases hnormal

/-- References to boxes that are left denote what they did. -/
theorem Kept.denotes (hkept : Kept R h boxes h' boxes') (hsafe : Safe R h boxes roots)
    (hsafe' : Safe R h' boxes' roots') (hden : Denotes h r n) (hin : Inside R boxes' r) :
    Denotes h' r n :=
  hden.keep (fun b hb o ho ↦ hsafe'.counted.closed b hb o (by rwa [← (hkept.same b hb).held_eq]))
    hsafe.senior
    hkept.same (fun _ hnormal ↦ hsafe.fixed hkept hnormal) hin

/-! ### Gaining and losing -/

/-- A use count cannot be raised. -/
def Saturated (h : Heap) : Prop := ∃ off box, h off = some box ∧ box.use_w = 0x7fffffff

theorem same_update {off : ℕ} {box box' : Box} (hbox : h off = some box)
    (hbody : box'.body = box.body) (o : ℕ) :
    Same h (Function.update h off (some box')) o := by
  rw [Same]
  obtain rfl | hne := eq_or_ne o off
  · rw [Function.update_self, hbox, Option.map_some, Option.map_some, hbody]
  · rw [Function.update_of_ne hne]

theorem useOf_update {off : ℕ} {box : Box} :
    useOf (Function.update h off (some box)) off = box.use_w :=
  useOf_of (Function.update_self off (some box) h)

theorem useOf_update_ne {off o : ℕ} {box : Option Box} (hne : o ≠ off) :
    useOf (Function.update h off box) o = useOf h o := by
  rw [useOf, useOf, Function.update_of_ne hne]

/-- Use counts are changed, and references with them. -/
theorem Safe.recount (hsafe : Safe R h boxes roots) (hkept : Kept R h boxes h' boxes)
    (hcounted : Counted boxes (held R h) (useOf h') (offs R roots')) : Safe R h' boxes roots' where
  normal := hsafe.normal
  live off hoff := (hkept.same off hoff).live (hsafe.live off hoff)
  senior off box hnormal hbox := hsafe.senior off box hnormal (by rwa [← hsafe.fixed hkept hnormal])
  counted := hcounted.congr (fun b hb ↦ (hkept.same b hb).held_eq) fun _ _ ↦ Nat.le_refl _

/-- A use count is changed. -/
theorem Kept.count {off : ℕ} {box : Box} (box' : Box) (hbox : h off = some box)
    (hbody : box'.body = box.body) (hoff : off ∈ boxes) :
    Kept R h boxes (Function.update h off (some box')) boxes where
  sub := subset_rfl
  same o _ := same_update hbox hbody o
  outside o ho := Function.update_of_ne (fun heq : o = off ↦ ho (heq ▸ hoff)) _ _

theorem Safe.used (hsafe : Safe R h boxes (r :: roots)) : ∀ off ∈ offs R [r], 0 < useOf h off := by
  intro off hoff
  have hcount : 0 < (offs R (r :: roots)).count off := by
    rw [offs_cons]
    exact List.count_pos_iff.mpr (List.mem_append_left _ hoff)
  have huses := hsafe.counted.uses off (hsafe.inside List.mem_cons_self off hoff)
  omega

/-- A root that is not counted does not matter. -/
theorem Safe.uncounted (hsafe : Safe R h boxes roots) (hnone : offs R roots = offs R roots') :
    Safe R h boxes roots' where
  normal := hsafe.normal
  live := hsafe.live
  senior := hsafe.senior
  counted := hnone ▸ hsafe.counted

theorem Denotes.box {off : ℕ} (hden : Denotes h r n) (hoff : r.off = some off) :
    ∃ box, h off = some box := by
  cases hden with
  | cat _ => cases hoff
  | pug _ hbox =>
    cases hoff
    exact ⟨_, hbox⟩
  | pom _ hbox _ _ =>
    cases hoff
    exact ⟨_, hbox⟩

theorem gain_uncounted (hnone : offs R [r] = []) : gain R r h = .ok r h := by
  rw [gain]
  cases hoff : r.off with
  | none => rfl
  | some off =>
    dsimp only
    rw [if_neg]
    · rfl
    · intro hnormal
      rw [offs_some hoff hnormal] at hnone
      cases hnone

theorem gain_counted {off : ℕ} {box : Box} (hoff : r.off = some off) (hnormal : R.normal off = true)
    (hbox : h off = some box) (hpos : 0 < box.use_w) :
    gain R r h = if box.use_w = 0x7fffffff then .error .fail h
      else .ok r (Function.update h off (some { box with use_w := box.use_w + 1 })) := by
  rw [gain, hoff]
  dsimp only
  rw [if_pos hnormal, bind_ok (load_ok hbox)]
  split_ifs with hfull hzero
  · rfl
  · omega
  · rfl

theorem gain_runs (hsafe : Safe R h boxes roots) (hden : Denotes h r n)
    (hin : Inside R boxes r ∧ ∀ off ∈ offs R [r], 0 < useOf h off) :
    (∃ h', gain R r h = .ok r h' ∧ Safe R h' boxes (r :: roots) ∧ Kept R h boxes h' boxes) ∨
      gain R r h = .error .fail h ∧ Saturated h := by
  cases hoffs : offs R [r] with
  | nil =>
    have hsafe' : Safe R h boxes (r :: roots) :=
      hsafe.uncounted (by rw [offs_cons, hoffs, List.nil_append])
    exact Or.inl ⟨h, gain_uncounted hoffs, hsafe', Kept.refl⟩
  | cons off more =>
    obtain ⟨hoff, hnormal, rfl⟩ := offs_eq_cons hoffs
    obtain ⟨box, hbox⟩ := hden.box hoff
    have hmem := hin.1 off (by rw [hoffs]; exact List.mem_singleton_self off)
    have hpos := hin.2 off (by rw [hoffs]; exact List.mem_singleton_self off)
    rw [useOf_of hbox] at hpos
    rw [gain_counted hoff hnormal hbox hpos]
    split_ifs with hfull
    · exact Or.inr ⟨rfl, off, box, hbox, hfull⟩
    · have hkept : Kept R h boxes _ boxes := Kept.count ⟨box.use_w + 1, box.body⟩ hbox rfl hmem
      refine Or.inl ⟨_, rfl, hsafe.recount hkept ?_, hkept⟩
      rw [offs_cons, hoffs]
      refine hsafe.counted.gain hmem (fun b _ hne ↦ ?_) ?_
      · rw [useOf_update_ne hne]
      · rw [useOf_of hbox, useOf_update]

/-- A box that nobody else refers to is taken out of the heap, for what it holds. -/
theorem Safe.take {off : ℕ} {box : Box} (hsafe : Safe R h boxes (r :: roots))
    (hoff : r.off = some off) (hnormal : R.normal off = true) (hbox : h off = some box)
    (huse : box.use_w = 1) :
    Safe R h (boxes.erase off) (box.body.refs ++ roots) where
  normal o ho := hsafe.normal o (Finset.mem_of_mem_erase ho)
  live o ho := hsafe.live o (Finset.mem_of_mem_erase ho)
  senior := hsafe.senior
  counted := by
    have hcounted := hsafe.counted
    rw [offs_cons, offs_some hoff hnormal, List.singleton_append] at hcounted
    have htake := hcounted.take (by rw [useOf_of hbox, huse])
    rwa [held_of hbox, ← offs_append] at htake

/-- A box that has been taken out may change. -/
theorem Safe.elsewhere {off : ℕ} (hsafe : Safe R h boxes roots) (hoff : off ∉ boxes)
    (hnormal : R.normal off = true) (box : Option Box) :
    Safe R (Function.update h off box) boxes roots := by
  have hne : ∀ o ∈ boxes, o ≠ off := fun o ho heq ↦ hoff (heq ▸ ho)
  refine hsafe.congr (fun o ho ↦ ?_) (fun o ho ↦ ?_) fun o ho ↦ ?_
  · rw [Same, Function.update_of_ne (hne o ho)]
  · rw [useOf_update_ne (hne o ho)]
  · refine Function.update_of_ne ?_ _ _
    rintro rfl
    rw [hnormal] at ho
    cases ho

theorem Kept.elsewhere {off : ℕ} (hkept : Kept R h (boxes.erase off) h' boxes') (hoff : off ∈ boxes)
    (box : Option Box) : Kept R h boxes (Function.update h' off box) boxes' where
  sub := hkept.sub.trans (Finset.erase_subset _ _)
  same o ho := by
    have hne := Finset.ne_of_mem_erase (hkept.sub ho)
    rw [Same, Function.update_of_ne hne]
    exact hkept.same o ho
  outside o ho := by
    have hne : o ≠ off := fun heq ↦ ho (heq ▸ hoff)
    rw [Function.update_of_ne hne]
    exact hkept.outside o fun hin ↦ ho (Finset.mem_of_mem_erase hin)

theorem lose_uncounted (fuel : ℕ) (hnone : offs R [r] = []) : lose R (fuel + 1) r h = .ok () h := by
  rw [lose]
  cases hoff : r.off with
  | none => rfl
  | some off =>
    dsimp only
    rw [if_neg]
    · rfl
    · intro hnormal
      rw [offs_some hoff hnormal] at hnone
      cases hnone

theorem lose_counted {off : ℕ} {box : Box} (fuel : ℕ) (hoff : r.off = some off)
    (hnormal : R.normal off = true) (hbox : h off = some box) (hpos : 0 < box.use_w) :
    lose R (fuel + 1) r h =
      if 1 < box.use_w then
        .ok () (Function.update h off (some { box with use_w := box.use_w - 1 }))
      else if u3du r then
        (do
          let (hed, tel) ← cellAt off
          lose R fuel hed
          free off
          lose R fuel tel) h
      else .ok () (Function.update h off none) := by
  rw [lose, hoff]
  dsimp only
  rw [if_pos hnormal, bind_ok (load_ok hbox), if_neg (Nat.pos_iff_ne_zero.mp hpos)]
  split_ifs <;> rfl

theorem lose_runs (fuel : ℕ) (hsafe : Safe R h boxes (r :: roots)) (hden : Denotes h r n)
    (hfuel : n.size ≤ fuel) :
    ∃ h' boxes', lose R fuel r h = .ok () h' ∧ Safe R h' boxes' roots ∧
    Kept R h boxes h' boxes' := by
  induction fuel generalizing h boxes r roots n with
  | zero =>
    cases n <;> simp [Noun.size] at hfuel
  | succ fuel ih =>
    cases hoffs : offs R [r] with
    | nil =>
      have hsafe' : Safe R h boxes roots :=
        hsafe.uncounted (by rw [offs_cons, hoffs, List.nil_append])
      exact ⟨h, boxes, lose_uncounted fuel hoffs, hsafe', Kept.refl⟩
    | cons off more =>
      obtain ⟨hoff, hnormal, rfl⟩ := offs_eq_cons hoffs
      obtain ⟨box, hbox⟩ := hden.box hoff
      have hmem :=
        hsafe.inside List.mem_cons_self off (by rw [hoffs]; exact List.mem_singleton_self off)
      have hpos := hsafe.used off (by rw [hoffs]; exact List.mem_singleton_self off)
      rw [useOf_of hbox] at hpos
      rw [lose_counted fuel hoff hnormal hbox hpos]
      by_cases hmany : 1 < box.use_w
      · rw [if_pos hmany]
        have hkept : Kept R h boxes _ boxes := Kept.count ⟨box.use_w - 1, box.body⟩ hbox rfl hmem
        refine ⟨_, boxes, rfl, hsafe.recount hkept ?_, hkept⟩
        have hcounted := hsafe.counted
        rw [offs_cons, hoffs] at hcounted
        refine hcounted.lose (fun b _ hne ↦ ?_) ?_
        · rw [useOf_update_ne hne]
        · rw [useOf_of hbox, useOf_update]
          show _ ≤ box.use_w - 1 + 1
          omega
      · rw [if_neg hmany]
        have htaken := hsafe.take hoff hnormal hbox (by omega)
        cases hden with
        | cat _ => cases hoff
        | pug _ hbox' =>
          obtain rfl : _ = off := Option.some.inj hoff
          rw [hbox] at hbox'
          cases hbox'
          exact ⟨_, _, if_neg Bool.false_ne_true,
            htaken.elsewhere (Finset.notMem_erase _ _) hnormal none, Kept.refl.elsewhere hmem none⟩
        | pom _ hbox' hhed htel =>
          obtain rfl : _ = off := Option.some.inj hoff
          rw [hbox] at hbox'
          cases hbox'
          simp only [Noun.size] at hfuel
          -- the head is lost while the box is still there, and the tail when it is free
          obtain ⟨h₁, boxes₁, hhead, hsafe₁, hkept₁⟩ := ih htaken hhed (by omega)
          have hout := fun hin ↦ Finset.notMem_erase _ boxes (hkept₁.sub hin)
          have hsafe₁ := hsafe₁.elsewhere hout hnormal none
          have hkept₁ := hkept₁.elsewhere hmem none
          have htel₁ := hkept₁.denotes hsafe hsafe₁ htel (hsafe₁.inside List.mem_cons_self)
          obtain ⟨h₂, boxes₂, htail, hsafe₂, hkept₂⟩ := ih hsafe₁ htel₁ (by omega)
          refine ⟨h₂, boxes₂, ?_, hsafe₂, hkept₁.trans hkept₂⟩
          refine (if_pos rfl).trans ((bind_ok (cellAt_ok hbox) _).trans ?_)
          exact (bind_ok hhead _).trans ((bind_ok rfl _).trans htail)

/-- A box is put into the heap, for what it holds. -/
theorem Safe.put {off : ℕ} (box : Box) (hsafe : Safe R h boxes (box.body.refs ++ roots))
    (hoff : off ∉ boxes) (hnormal : R.normal off = true) (huse : 1 ≤ box.use_w) :
    Safe R (Function.update h off (some box)) (insert off boxes) (.pom off :: roots) := by
  have hsafe' := hsafe.elsewhere hoff hnormal (some box)
  have hbox : Function.update h off (some box) off = some box :=
    Function.update_self off (some box) h
  refine ⟨fun o ho ↦ ?_, fun o ho ↦ ?_, hsafe'.senior, ?_⟩
  · obtain rfl | ho := Finset.mem_insert.mp ho
    · exact hnormal
    · exact hsafe'.normal o ho
  · obtain rfl | ho := Finset.mem_insert.mp ho
    · rw [hbox]
      nofun
    · exact hsafe'.live o ho
  · rw [offs_cons, offs_some rfl hnormal]
    refine Counted.put ?_ hoff ?_
    · have hcounted := hsafe'.counted
      rwa [offs_append, ← held_of hbox] at hcounted
    · rwa [useOf_of hbox]

/-- References to other boxes denote what they did. -/
theorem Safe.denotes_put {off : ℕ} (hsafe : Safe R h boxes roots) (hoff : off ∉ boxes)
    (hnormal : R.normal off = true) (box : Option Box) (hden : Denotes h r n)
    (hin : Inside R boxes r) : Denotes (Function.update h off box) r n := by
  refine hden.keep hsafe.counted.closed hsafe.senior (fun o ho ↦ ?_) (fun o ho ↦ ?_) hin
  · have hne : o ≠ off := fun heq ↦ hoff (heq ▸ ho)
    rw [Same, Function.update_of_ne hne]
  · refine Function.update_of_ne ?_ _ _
    rintro rfl
    rw [hnormal] at ho
    cases ho

theorem u3nc_runs (hsafe : Safe R h boxes (hed :: tel :: roots)) :
    (∃ off, u3nc R hed tel h = .ok (.pom off) (Function.update h off (some ⟨1, .cell 0 hed tel⟩)) ∧
      off ∉ boxes ∧ R.normal off = true ∧ off < 2 ^ 30 ∧ h off = none ∧
      Safe R (Function.update h off (some ⟨1, .cell 0 hed tel⟩)) (insert off boxes)
        (.pom off :: roots)) ∨
    u3nc R hed tel h = .error .meme h ∧ R.celloc h = none := by
  rw [u3nc]
  cases hcelloc : R.celloc h with
  | none => exact Or.inr ⟨rfl, rfl⟩
  | some off =>
    obtain ⟨hnormal, hbound, hfree⟩ := R.fresh hcelloc
    have hoff : off ∉ boxes := fun hin ↦ hsafe.live off hin hfree
    exact Or.inl ⟨off, rfl, hoff, hnormal, hbound, hfree,
      Safe.put ⟨1, .cell 0 hed tel⟩ hsafe hoff hnormal (Nat.le_refl 1)⟩

end Vere.Noun.Shared
