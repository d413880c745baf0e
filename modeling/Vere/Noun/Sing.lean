import Vere.Noun.Unify
import Vere.Noun.Words

/-!
# Equality of nouns

`u3r_sing()` of `pkg/noun/retrieve.c` compares two nouns with a stack of frames. Cells whose heads,
or tails, were found to be equal share them afterwards (`wed`), and cached mugs that differ end the
comparison. After `2 ^ 16` comparisons pairs of equal nouns are remembered (`singCape`).

The frames of the stack are the path to what is compared (`Chain`), so that the whole nouns are
equal when the bottom frame is popped, and different when any two on the path are (`Chain.differ`).
The nouns of the path are larger than those that are unified, so that none of their boxes is freed
(`wedArm_runs`). `sing_runs` is what follows for the loops.
-/

set_option autoImplicit false

namespace Vere.Noun.Shared

open Nock

/-! ### The functions -/

/-- `SING_NONE`, `SING_HEAD` and `SING_TAIL`. -/
inductive Sat
  | none
  | head
  | tail

/-- `eqframe`. -/
structure EqFrame where
  sat_y : Sat
  a : Ref
  b : Ref

/-- What the comparison of the top frame comes to: the nouns differ, a frame is pushed for their
heads or tails, they were compared before, or they are equal. -/
inductive Next
  | differ
  | push (sat_y : Sat) (a b : Ref)
  | drop
  | done

/-- `mug_w` of a box. The mugs of indirect atoms are `mugs`. -/
def boxMug (mugs : ℕ → ℕ) (off : ℕ) : Body → ℕ
  | .atom _ => mugs off
  | .cell mug_w _ _ => mug_w

section Sing

variable (R : Road) (rods : List Level) (mugs : ℕ → ℕ) (fuel : ℕ)

/-- `_cr_sing_mug()`. -/
def singMug (a_u b_u : ℕ) : M Bool := do
  let a ← load a_u
  let b ← load b_u
  let mug_a := boxMug mugs a_u a.body
  let mug_b := boxMug mugs b_u b.body
  pure !(decide (mug_a ≠ 0) && decide (mug_b ≠ 0) && decide (mug_a ≠ mug_b))

/-- The value of an indirect atom. -/
def atomAt (off : ℕ) : M ℕ := do
  let box ← load off
  match box.body with
  | .atom val => pure val
  | .cell .. => throw .fault

/-- `_cr_sing_atom()`. -/
def singAtom : Ref → Ref → M Bool
  | .pug a_u, .pug b_u => do
    let mug_o ← singMug mugs a_u b_u
    if !mug_o then pure false
    else do
      let val_a ← atomAt a_u
      let val_b ← atomAt b_u
      if lenW val_a ≠ lenW val_b then pure false
      else pure ((List.range (lenW val_a)).all fun i_w ↦ bufW val_a i_w == bufW val_b i_w)
  | _, _ => pure false

/-- A frame of arbitrary nouns, with the test for an earlier comparison. -/
def singNone (test : Ref → Ref → Bool) (a b : Ref) : M Next :=
  if a = b then pure .done
  else
    match a, b with
    | .pom a_u, .pom b_u => do
      let mug_o ← singMug mugs a_u b_u
      if !mug_o then pure .differ
      else if test (.pom a_u) (.pom b_u) then pure .drop
      else do
        let hed_a ← Place.get ⟨.hed, a_u⟩
        let hed_b ← Place.get ⟨.hed, b_u⟩
        pure (.push .head hed_a hed_b)
    | .pom _, _ => pure .differ
    | a, b => do
      let ret_o ← singAtom mugs a b
      if !ret_o then pure .differ else pure .done

/-- The frames of cells whose heads are equal, or which are equal. -/
def singCell (sat_y : Sat) (a_u b_u : ℕ) : M Next :=
  match sat_y with
  | .none => throw .fault
  | .head => do
    wed R fuel rods ⟨.hed, a_u⟩ ⟨.hed, b_u⟩
    let tel_a ← Place.get ⟨.tel, a_u⟩
    let tel_b ← Place.get ⟨.tel, b_u⟩
    pure (.push .tail tel_a tel_b)
  | .tail => do
    wed R fuel rods ⟨.tel, a_u⟩ ⟨.tel, b_u⟩
    pure .done

/-- The switch of `_cr_sing()` and of `_cr_sing_cape()`. -/
def singFrame (test : Ref → Ref → Bool) (fam_u : EqFrame) : M Next :=
  match fam_u.sat_y, fam_u.a, fam_u.b with
  | .none, a, b => singNone mugs test a b
  | sat_y, .pom a_u, .pom b_u => singCell R rods fuel sat_y a_u b_u
  | _, _, _ => throw .fault

/-- `_cr_sing_cape_test()`: pairs of offsets are the keys of the table. -/
def singCapeTest (har_p : List (ℕ × ℕ)) (a b : Ref) : Bool :=
  match a.off, b.off with
  | some off_a, some off_b => har_p.contains (off_a, off_b)
  | _, _ => false

/-- `_cr_sing_cape_keep()`. -/
def singCapeKeep (har_p : List (ℕ × ℕ)) (a b : Ref) : List (ℕ × ℕ) :=
  if a = b then har_p
  else
    match a.off, b.off with
    | some off_a, some off_b => (off_a, off_b) :: har_p
    | _, _ => har_p

/-- `_cr_sing_cape()`. -/
def singCape : ℕ → List EqFrame → List (ℕ × ℕ) → M Bool
  | _, [], _ => pure true
  | 0, _, _ => throw .spent
  | n + 1, fam_u :: pil_u, har_p => do
    let next ← singFrame R rods mugs fuel (singCapeTest har_p) fam_u
    match next with
    | .differ => pure false
    | .push sat_y a b => singCape n (⟨.none, a, b⟩ :: { fam_u with sat_y := sat_y } :: pil_u) har_p
    | .drop => singCape n pil_u har_p
    | .done => singCape n pil_u (singCapeKeep har_p fam_u.a fam_u.b)

/-- The loop of `_cr_sing()`, which goes on with the table when its count of comparisons overflows.
-/
def singLoop : ℕ → List EqFrame → ℕ → M Bool
  | _, [], _ => pure true
  | 0, _, _ => throw .spent
  | n + 1, fam_u :: pil_u, ovr_s => do
    let next ← singFrame R rods mugs fuel (fun _ _ ↦ false) fam_u
    match next with
    | .differ => pure false
    | .push sat_y a b => singLoop n (⟨.none, a, b⟩ :: { fam_u with sat_y := sat_y } :: pil_u) ovr_s
    | .drop => singLoop n pil_u ovr_s
    | .done =>
      if (ovr_s + 1) % 2 ^ 16 = 0 then singCape R rods mugs fuel n (fam_u :: pil_u) []
      else singLoop n pil_u ((ovr_s + 1) % 2 ^ 16)

/-- `u3r_sing()`. -/
def sing (n : ℕ) (a b : Ref) : M Bool := singLoop R rods mugs fuel n [⟨.none, a, b⟩] 0

end Sing

/-! ### The nouns of a heap -/

/-- Boxes denote `val`, indirect atoms are not direct ones, and cached mugs are valid. -/
structure World (R : Road) (hash : Noun → ℕ) (mugs : ℕ → ℕ) (val : ℕ → Noun) (h : Heap)
    (boxes : Finset ℕ) (roots : List Ref) : Prop where
  safe : Safe R h boxes roots
  nouns : Nouns R val h boxes
  used : Used R h
  large : ∀ off use_w v, Known R boxes off → h off = some ⟨use_w, .atom v⟩ → 2 ^ 31 ≤ v
  valid : ∀ off box, Known R boxes off → h off = some box → boxMug mugs off box.body ≠ 0 →
    boxMug mugs off box.body = hash (val off)

/-- A reference to a noun of the heap. -/
structure Alive (R : Road) (val : ℕ → Noun) (h : Heap) (boxes : Finset ℕ) (r : Ref) : Prop where
  den : Denotes h r (r.noun val)
  inside : Inside R boxes r

variable {a_u b_u : ℕ}

section World

variable {R : Road} {hash : Noun → ℕ} {mugs : ℕ → ℕ} {val : ℕ → Noun} {h h' : Heap}
  {boxes boxes' : Finset ℕ} {roots : List Ref} {r x y : Ref} {m n : Noun}

theorem boxMug_eq {body body' : Body} (hshape : body.shape = body'.shape) (off : ℕ) :
    boxMug mugs off body = boxMug mugs off body' := by
  cases body <;> cases body' <;> cases hshape <;> rfl

theorem World.unifies (hworld : World R hash mugs val h boxes roots)
    (hunifies : Unifies R val m roots h boxes h' boxes') :
    World R hash mugs val h' boxes' roots where
  safe := hunifies.safe
  nouns := hunifies.unified.nouns hworld.nouns
  used off box' hnormal hbox' := by
    have hknown : Known R boxes' off := fun htrue ↦ by
      rw [hnormal] at htrue
      cases htrue
    obtain ⟨box, hbox, -⟩ := hunifies.unified.before hknown hbox'
    have huse := hunifies.unified.uses off hnormal
    rw [useOf_of hbox, useOf_of hbox'] at huse
    exact (hworld.used off box hnormal hbox).trans_le huse
  large off use_w v hknown hbox' := by
    obtain ⟨⟨use, body⟩, hbox, hshape⟩ := hunifies.unified.before hknown hbox'
    cases body with
    | cell mug_w hed tel => cases hshape
    | atom v' =>
      cases hshape
      exact hworld.large off use v (hknown.mono hunifies.unified.sub) hbox
  valid off box' hknown hbox' := by
    obtain ⟨box, hbox, hshape⟩ := hunifies.unified.before hknown hbox'
    rw [← boxMug_eq hshape]
    exact hworld.valid off box (hknown.mono hunifies.unified.sub) hbox

theorem World.alive (hworld : World R hash mugs val h boxes roots) (hden : Denotes h r n)
    (hin : Inside R boxes r) :
    Alive R val h boxes r ∧ r.noun val = n := by
  obtain rfl := hworld.nouns.eq_noun hden hin
  exact ⟨⟨hden, hin⟩, rfl⟩

/-- A reference to a noun that is larger than those that are unified stays. -/
theorem Alive.unifies (halive : Alive R val h boxes r)
    (hunifies : Unifies R val m roots h boxes h' boxes') (hlarge : m.size < (r.noun val).size) :
    Alive R val h' boxes' r := by
  have hin : Inside R boxes' r := by
    cases hoff : r.off with
    | none => exact inside_none hoff
    | some off =>
      rw [noun_of_off hoff] at hlarge
      exact (inside_iff hoff).mpr fun hnormal ↦
        hunifies.spares off ((inside_iff hoff).mp halive.inside hnormal) hlarge
  exact ⟨hunifies.unified.keep _ _ halive.den hin, hin⟩

/-- The fields of a cell. -/
theorem Alive.cell (hworld : World R hash mugs val h boxes roots) {off : ℕ}
    (halive : Alive R val h boxes (.pom off)) :
    ∃ hed tel, Holds h ⟨.hed, off⟩ hed ∧ Holds h ⟨.tel, off⟩ tel ∧ Alive R val h boxes hed ∧
      Alive R val h boxes tel ∧
      val off = .cell (hed.noun val) (tel.noun val) := by
  have hden : Denotes h (.pom off) (val off) := halive.den
  have hknown : Known R boxes off := (inside_iff rfl).mp halive.inside
  generalize hn : val off = n at hden
  cases hden with
  | @pom _ use_w mug_w hed tel nh nt hoff hbox hhed htel =>
    have hph : Holds h ⟨.hed, off⟩ hed := ⟨use_w, mug_w, hed, tel, hbox, rfl⟩
    have hpt : Holds h ⟨.tel, off⟩ tel := ⟨use_w, mug_w, hed, tel, hbox, rfl⟩
    obtain ⟨hahed, rfl⟩ := hworld.alive hhed (hph.inside hworld.safe hknown).1
    obtain ⟨hatel, rfl⟩ := hworld.alive htel (hpt.inside hworld.safe hknown).1
    exact ⟨hed, tel, hph, hpt, hahed, hatel, rfl⟩

theorem Alive.known (halive : Alive R val h boxes r) {off : ℕ} (hoff : r.off = some off) :
    Known R boxes off :=
  (inside_iff hoff).mp halive.inside

/-- Cached mugs that differ are those of different nouns. -/
theorem singMug_ok (hworld : World R hash mugs val h boxes roots) (hx : Alive R val h boxes x)
    (hy : Alive R val h boxes y) (ha : x.off = some a_u) (hb : y.off = some b_u) :
    ∃ mug_o, singMug mugs a_u b_u h = .ok mug_o h ∧ (mug_o = false → val a_u ≠ val b_u) := by
  obtain ⟨box_a, hbox_a⟩ := hx.den.box ha
  obtain ⟨box_b, hbox_b⟩ := hy.den.box hb
  refine ⟨_, (bind_ok (load_ok hbox_a) _).trans (bind_ok (load_ok hbox_b) _), fun hfalse hsame ↦ ?_⟩
  rw [Bool.not_eq_false', Bool.and_eq_true, Bool.and_eq_true, decide_eq_true_eq, decide_eq_true_eq,
    decide_eq_true_eq] at hfalse
  obtain ⟨⟨hmug_a, hmug_b⟩, hdiffer⟩ := hfalse
  rw [hworld.valid a_u box_a (hx.known ha) hbox_a hmug_a,
    hworld.valid b_u box_b (hy.known hb) hbox_b hmug_b,
    hsame] at hdiffer
  exact hdiffer rfl

/-- The words of two atoms are compared. -/
theorem words_eq (v w : ℕ) :
    (if lenW v ≠ lenW w then
      false else (List.range (lenW v)).all fun i_w ↦ bufW v i_w == bufW w i_w) =
      decide (v = w) := by
  by_cases hlen : lenW v = lenW w
  · rw [if_neg (not_not.mpr hlen), Bool.eq_iff_iff, List.all_eq_true, decide_eq_true_eq]
    constructor
    · intro hall
      refine eq_of_bufW fun k ↦ ?_
      by_cases hk : k < lenW v
      · exact beq_iff_eq.mp (hall k (List.mem_range.mpr hk))
      · rw [bufW_eq_zero (Nat.not_lt.mp hk), bufW_eq_zero (hlen ▸ Nat.not_lt.mp hk)]
    · rintro rfl k _
      exact beq_self_eq_true _
  · rw [if_pos hlen, eq_comm, decide_eq_false_iff_not]
    rintro rfl
    exact hlen rfl

/-- The value of an indirect atom. -/
theorem Alive.pug (hworld : World R hash mugs val h boxes roots) {off : ℕ}
    (halive : Alive R val h boxes (.pug off)) :
    ∃ v, atomAt off h = .ok v h ∧ val off = .atom v ∧ 2 ^ 31 ≤ v := by
  have hden : Denotes h (.pug off) (val off) := halive.den
  have hknown := halive.known rfl
  generalize hn : val off = n at hden
  cases hden with
  | @pug _ use_w v hoff hbox => exact ⟨v, bind_ok (load_ok hbox) _, rfl,
    hworld.large off use_w v hknown hbox⟩

theorem singAtom_ok (hworld : World R hash mugs val h boxes roots) (hx : Alive R val h boxes x)
    (hy : Alive R val h boxes y) (hne : x ≠ y) (hatom : ∀ off, x ≠ .pom off) :
    singAtom mugs x y h = .ok (decide (x.noun val = y.noun val)) h := by
  have hdiffer : x.noun val ≠ y.noun val →
    (EStateM.Result.ok false h : EStateM.Result Bail Heap Bool) =
      .ok (decide (x.noun val = y.noun val)) h := fun hne ↦ by rw [decide_eq_false hne]
  have hpom : ∀ off, y = .pom off → ∀ v, .atom v ≠ y.noun val := by
    rintro off rfl v hsame
    obtain ⟨hed, tel, -, -, -, -, hcell⟩ := hy.cell hworld
    exact Noun.noConfusion (hsame.trans hcell)
  have hcat : ∀ {a off}, Alive R val h boxes (.cat a) → Alive R val h boxes (.pug off) →
    Noun.atom a ≠ val off := by
    intro a off hcat hpug hsame
    obtain ⟨v, -, hval, hlarge⟩ := hpug.pug hworld
    have hless : a < 2 ^ 31 := by
      cases hcat.den
      assumption
    rw [hval] at hsame
    cases hsame
    omega
  cases x with
  | pom off => exact absurd rfl (hatom off)
  | cat a =>
    refine hdiffer ?_
    cases y with
    | cat b =>
      intro hsame
      cases hsame
      exact hne rfl
    | pug off => exact hcat hx hy
    | pom off => exact hpom off rfl a
  | pug a_u =>
    obtain ⟨v, hv, hval, -⟩ := hx.pug hworld
    cases y with
    | cat b => exact hdiffer (hcat hy hx).symm
    | pom off =>
      refine hdiffer ?_
      show val a_u ≠ _
      rw [hval]
      exact hpom off rfl v
    | pug b_u =>
      obtain ⟨w, hw, hval', -⟩ := hy.pug hworld
      obtain ⟨mug_o, hmug, hvalid⟩ := singMug_ok hworld hx hy rfl rfl
      refine (bind_ok hmug _).trans ?_
      cases mug_o with
      | false => exact hdiffer (hvalid rfl)
      | true =>
        refine (bind_ok hv _).trans ((bind_ok hw _).trans ?_)
        have hsame : (Ref.pug a_u).noun val = (Ref.pug b_u).noun val ↔ v = w := by
          show val a_u = val b_u ↔ _
          rw [hval, hval', Noun.atom.injEq]
        have hwords := words_eq v w
        rw [decide_eq_decide.mpr hsame, ← hwords]
        split <;> rfl

/-- Equal cells, as they are compared, are unified in a field. -/
theorem wedArm_runs {fuel : ℕ} {rods : List Level} {arm : Arm}
    (hworld : World R hash mugs val h boxes roots) (ha : Alive R val h boxes (.pom a_u))
    (hb : Alive R val h boxes (.pom b_u)) (hx : Holds h ⟨arm, a_u⟩ x) (hy : Holds h ⟨arm, b_u⟩ y)
    (hax : Alive R val h boxes x) (hay : Alive R val h boxes y) (hsame : x.noun val = y.noun val)
    (hlx : (x.noun val).size < (val a_u).size) (hly : (x.noun val).size < (val b_u).size)
    (hfuel : (x.noun val).size ≤ fuel)
    (hroad : ∀ rod_u ∈ rods.head?, ∀ off, R.normal off = !rod_u.senior off) :
    (∃ h' boxes', wed R fuel rods ⟨arm, a_u⟩ ⟨arm, b_u⟩ h = .ok () h' ∧
      Unifies R val (x.noun val) roots h boxes h' boxes') ∨
      (wed R fuel rods ⟨arm, a_u⟩ ⟨arm, b_u⟩ h = .error .fail h ∧ Full h (x.noun val)) := by
  have hden := hay.den
  rw [← hsame] at hden
  exact wed_runs hworld.safe hworld.nouns hworld.used hx hy (ha.known rfl) (hb.known rfl)
    hax.den hden hlx hly hfuel hroad

end World

/-! ### The path to what is compared -/

/-- What is known of the nouns of a frame when it is on top. -/
def Fits : Sat → Noun → Noun → Prop
  | .none, _, _ => True
  | .head, x, y => ∃ p q r, x = .cell p q ∧ y = .cell p r
  | .tail, x, y => ∃ p q, x = .cell p q ∧ y = .cell p q

/-- The nouns of the frame above are the heads of those of the frame, or the tails where the heads
are equal. -/
def Under : Sat → Noun → Noun → Noun → Noun → Prop
  | .none, _, _, _, _ => False
  | .head, x, y, u, v => ∃ q r, x = .cell u q ∧ y = .cell v r
  | .tail, x, y, u, v => ∃ p, x = .cell p u ∧ y = .cell p v

/-- A noun is at the same place in two nouns. -/
inductive Common (m : Noun) : Noun → Noun → Prop
  | here : Common m m m
  | hed {p p' q q' : Noun} (hhead : Common m p p') : Common m (.cell p q) (.cell p' q')
  | tel {p p' q q' : Noun} (htail : Common m q q') : Common m (.cell p q) (.cell p' q')

/-- The frames are a path through the nouns of the bottom frame. -/
inductive Chain (val : ℕ → Noun) (x₀ y₀ : Noun) : List EqFrame → Prop
  | base {fam_u : EqFrame} (ha : fam_u.a.noun val = x₀) (hb : fam_u.b.noun val = y₀) :
      Chain val x₀ y₀ [fam_u]
  | push {fam_u below : EqFrame} {pil_u : List EqFrame} (hbelow : Chain val x₀ y₀ (below :: pil_u))
      (hunder : Under below.sat_y (below.a.noun val) (below.b.noun val) (fam_u.a.noun val)
        (fam_u.b.noun val)) :
      Chain val x₀ y₀ (fam_u :: below :: pil_u)

section Chain

variable {val : ℕ → Noun} {x₀ y₀ : Noun} {fam_u below : EqFrame} {pil_u : List EqFrame}

theorem Chain.sat (hchain : Chain val x₀ y₀ (fam_u :: pil_u)) (sat_y : Sat) :
    Chain val x₀ y₀ ({ fam_u with sat_y := sat_y } :: pil_u) := by
  cases hchain with
  | base ha hb => exact .base ha hb
  | push hbelow hunder => exact .push hbelow hunder

/-- Nouns on the path that differ are in different nouns. -/
theorem Chain.differ (hchain : Chain val x₀ y₀ (fam_u :: pil_u))
    (hne : fam_u.a.noun val ≠ fam_u.b.noun val) : x₀ ≠ y₀ := by
  induction pil_u generalizing fam_u with
  | nil =>
    cases hchain with
    | base ha hb => rwa [← ha, ← hb]
  | cons below pil_u ih =>
    cases hchain with
    | push hbelow hunder =>
      refine ih hbelow fun hsame ↦ hne ?_
      cases hsat : below.sat_y with
      | none =>
        rw [hsat] at hunder
        exact hunder.elim
      | head =>
        rw [hsat] at hunder
        obtain ⟨q, r, hx, hy⟩ := hunder
        rw [hx, hy] at hsame
        exact (Noun.cell.inj hsame).1
      | tail =>
        rw [hsat] at hunder
        obtain ⟨p, hx, hy⟩ := hunder
        rw [hx, hy] at hsame
        exact (Noun.cell.inj hsame).2

/-- What is at the same place in the nouns on top is at the same place in the whole nouns. -/
theorem Chain.common {m : Noun} (hchain : Chain val x₀ y₀ (fam_u :: pil_u))
    (hcommon : Common m (fam_u.a.noun val) (fam_u.b.noun val)) : Common m x₀ y₀ := by
  induction pil_u generalizing fam_u with
  | nil =>
    cases hchain with
    | base ha hb => rwa [← ha, ← hb]
  | cons below pil_u ih =>
    cases hchain with
    | push hbelow hunder =>
      refine ih hbelow ?_
      cases hsat : below.sat_y with
      | none =>
        rw [hsat] at hunder
        exact hunder.elim
      | head =>
        rw [hsat] at hunder
        obtain ⟨q, r, hx, hy⟩ := hunder
        rw [hx, hy]
        exact .hed hcommon
      | tail =>
        rw [hsat] at hunder
        obtain ⟨p, hx, hy⟩ := hunder
        rw [hx, hy]
        exact .tel hcommon

/-- The frame below is next when the nouns of the top one are equal. -/
theorem Chain.pop (hchain : Chain val x₀ y₀ (fam_u :: below :: pil_u))
    (hsame : fam_u.a.noun val = fam_u.b.noun val) :
    Chain val x₀ y₀ (below :: pil_u) ∧ Fits below.sat_y (below.a.noun val) (below.b.noun val) := by
  cases hchain with
  | push hbelow hunder =>
    refine ⟨hbelow, ?_⟩
    rw [← hsame] at hunder
    cases hsat : below.sat_y with
    | none => trivial
    | head =>
      rw [hsat] at hunder
      obtain ⟨q, r, hx, hy⟩ := hunder
      exact ⟨_, q, r, hx, hy⟩
    | tail =>
      rw [hsat] at hunder
      obtain ⟨p, hx, hy⟩ := hunder
      exact ⟨p, _, hx, hy⟩

/-- The nouns below are larger. -/
theorem Chain.size (hchain : Chain val x₀ y₀ (fam_u :: pil_u)) :
    ((fam_u.a.noun val).size ≤ x₀.size ∧ (fam_u.b.noun val).size ≤ y₀.size) ∧ ∀ f ∈ fam_u :: pil_u,
      (fam_u.a.noun val).size ≤ (f.a.noun val).size ∧
      (fam_u.b.noun val).size ≤ (f.b.noun val).size := by
  induction pil_u generalizing fam_u with
  | nil =>
    cases hchain with
    | base ha hb =>
      refine ⟨⟨ha ▸ Nat.le_refl _, hb ▸ Nat.le_refl _⟩, fun f hf ↦ ?_⟩
      obtain rfl := List.mem_singleton.mp hf
      exact ⟨Nat.le_refl _, Nat.le_refl _⟩
  | cons below pil_u ih =>
    cases hchain with
    | push hbelow hunder =>
      obtain ⟨hwhole, hall⟩ := ih hbelow
      have hless : (fam_u.a.noun val).size ≤ (below.a.noun val).size ∧
          (fam_u.b.noun val).size ≤ (below.b.noun val).size := by
        cases hsat : below.sat_y with
        | none =>
          rw [hsat] at hunder
          exact hunder.elim
        | head =>
          rw [hsat] at hunder
          obtain ⟨q, r, hx, hy⟩ := hunder
          rw [hx, hy, Noun.size, Noun.size]
          omega
        | tail =>
          rw [hsat] at hunder
          obtain ⟨p, hx, hy⟩ := hunder
          rw [hx, hy, Noun.size, Noun.size]
          omega
      refine ⟨⟨hless.1.trans hwhole.1, hless.2.trans hwhole.2⟩, fun f hf ↦ ?_⟩
      rcases List.mem_cons.mp hf with rfl | hf
      · exact ⟨Nat.le_refl _, Nat.le_refl _⟩
      · exact ⟨hless.1.trans (hall f hf).1, hless.2.trans (hall f hf).2⟩

end Chain

/-- How many steps a frame takes at most, by the noun of its first reference. -/
def weight : Sat → Noun → ℕ
  | .none, x => 3 * x.size
  | .head, .cell _ q => 3 * q.size + 2
  | .head, .atom _ => 0
  | .tail, _ => 1

/-- How many steps the frames take at most. -/
def weights (val : ℕ → Noun) (pil_u : List EqFrame) : ℕ :=
  (pil_u.map fun f ↦ weight f.sat_y (f.a.noun val)).sum

/-- A comparison of two nouns goes on: no box of a noun as large as one of them has been freed. -/
structure Stays (R : Road) (hash : Noun → ℕ) (mugs : ℕ → ℕ) (val : ℕ → Noun) (roots : List Ref)
    (x₀ y₀ : Noun) (h : Heap) (boxes : Finset ℕ) (h' : Heap) (boxes' : Finset ℕ) : Prop where
  world : World R hash mugs val h' boxes' roots
  unified : Unified R h boxes h' boxes'
  whole : ∀ off ∈ boxes, x₀.size ≤ (val off).size ∨ y₀.size ≤ (val off).size → off ∈ boxes'

/-- The frames on the stack. -/
structure Path (R : Road) (val : ℕ → Noun) (x₀ y₀ : Noun) (h : Heap) (boxes : Finset ℕ)
    (fam_u : EqFrame) (pil_u : List EqFrame) : Prop where
  chain : Chain val x₀ y₀ (fam_u :: pil_u)
  fits : Fits fam_u.sat_y (fam_u.a.noun val) (fam_u.b.noun val)
  alive : ∀ f ∈ fam_u :: pil_u, Alive R val h boxes f.a ∧ Alive R val h boxes f.b

section Frame

variable {R : Road} {hash : Noun → ℕ} {mugs : ℕ → ℕ} {val : ℕ → Noun} {roots : List Ref}
  {x₀ y₀ : Noun} {h h' : Heap} {boxes boxes' : Finset ℕ} {fam_u : EqFrame} {pil_u : List EqFrame}
  {rods : List Level} {fuel : ℕ} {test : Ref → Ref → Bool}

theorem Stays.refl (hworld : World R hash mugs val h boxes roots) :
    Stays R hash mugs val roots x₀ y₀ h boxes h boxes :=
  ⟨hworld, .refl, fun _ hin _ ↦ hin⟩

theorem Stays.trans {h'' : Heap} {boxes'' : Finset ℕ}
    (hfirst : Stays R hash mugs val roots x₀ y₀ h boxes h' boxes')
    (hsecond : Stays R hash mugs val roots x₀ y₀ h' boxes' h'' boxes'') :
    Stays R hash mugs val roots x₀ y₀ h boxes h'' boxes'' where
  world := hsecond.world
  unified := hfirst.unified.trans hsecond.unified
  whole off hin hlarge := hsecond.whole off (hfirst.whole off hin hlarge) hlarge

/-- What the switch leaves, by what it comes to. -/
def Framed (R : Road) (hash : Noun → ℕ) (mugs : ℕ → ℕ) (val : ℕ → Noun) (roots : List Ref)
    (x₀ y₀ : Noun) (fam_u : EqFrame) (pil_u : List EqFrame) (h : Heap) (boxes : Finset ℕ) :
    EStateM.Result Bail Heap Next → Prop
  | .ok .differ h' => h' = h ∧ x₀ ≠ y₀
  | .ok (.push sat_y a b) h' => ∃ boxes', Stays R hash mugs val roots x₀ y₀ h boxes h' boxes' ∧
      Raises 1 h h' ∧ Path R val x₀ y₀ h' boxes' ⟨.none, a,
      b⟩ ({ fam_u with sat_y := sat_y } :: pil_u) ∧
      weight .none (a.noun val) + weight sat_y (fam_u.a.noun val) <
        weight fam_u.sat_y (fam_u.a.noun val)
  | .ok .drop h' => h' = h ∧ fam_u.a.noun val = fam_u.b.noun val
  | .ok .done h' => ∃ boxes', Stays R hash mugs val roots x₀ y₀ h boxes h' boxes' ∧ Raises 1 h h' ∧
      Path R val x₀ y₀ h' boxes' fam_u pil_u ∧ fam_u.a.noun val = fam_u.b.noun val
  | .error why h' =>
    why = .fail ∧ h' = h ∧ ∃ m, Full h m ∧ Common m (fam_u.a.noun val) (fam_u.b.noun val)

/-- After a unification the frames are as before. -/
theorem Path.unifies {m : Noun} (hpath : Path R val x₀ y₀ h boxes fam_u pil_u)
    (hworld : World R hash mugs val h boxes roots)
    (hunifies : Unifies R val m roots h boxes h' boxes')
    (hless : m.size < (fam_u.a.noun val).size ∧ m.size < (fam_u.b.noun val).size) :
    Stays R hash mugs val roots x₀ y₀ h boxes h' boxes' ∧
    Path R val x₀ y₀ h' boxes' fam_u pil_u := by
  obtain ⟨hwhole, hall⟩ := hpath.chain.size
  refine ⟨⟨hworld.unifies hunifies, hunifies.unified,
    fun off hin hlarge ↦ hunifies.spares off hin (by omega)⟩,
    hpath.chain, hpath.fits, fun f hf ↦ ?_⟩
  obtain ⟨hsize_a, hsize_b⟩ := hall f hf
  obtain ⟨halive_a, halive_b⟩ := hpath.alive f hf
  exact ⟨halive_a.unifies hunifies (by omega), halive_b.unifies hunifies (by omega)⟩

/-- A reference to a cell. -/
theorem Alive.pom_of_cell {r : Ref} {p q : Noun} (hworld : World R hash mugs val h boxes roots)
    (halive : Alive R val h boxes r) (hcell : r.noun val = .cell p q) :
    ∃ off, r = .pom off ∧ val off = .cell p q := by
  cases r with
  | cat a => cases hcell
  | pug off =>
    obtain ⟨v, -, hval, -⟩ := halive.pug hworld
    cases hval.symm.trans hcell
  | pom off => exact ⟨off, rfl, hcell⟩

theorem singNone_framed {a b : Ref} (hworld : World R hash mugs val h boxes roots)
    (hpath : Path R val x₀ y₀ h boxes ⟨.none, a, b⟩ pil_u)
    (htest : test a b = true → a.noun val = b.noun val) :
    Framed R hash mugs val roots x₀ y₀ ⟨.none, a, b⟩ pil_u h boxes (singNone mugs test a b h) := by
  obtain ⟨ha, hb⟩ := hpath.alive _ List.mem_cons_self
  unfold singNone
  by_cases heq : a = b
  · rw [if_pos heq]
    exact ⟨boxes, .refl hworld, .refl, hpath, congrArg (Ref.noun val) heq⟩
  rw [if_neg heq]
  have hatom : (∀ off, a ≠ .pom off) → Framed R hash mugs val roots x₀ y₀ ⟨.none, a,
    b⟩ pil_u h boxes
      ((do let ret_o ← singAtom mugs a b; if !ret_o then
        pure .differ else pure .done : M Next) h) :=
    fun hatom ↦ by
    rw [bind_ok (singAtom_ok hworld ha hb heq hatom)]
    by_cases hsame : a.noun val = b.noun val
    · rw [decide_eq_true hsame]
      exact ⟨boxes, .refl hworld, .refl, hpath, hsame⟩
    · rw [decide_eq_false hsame]
      exact ⟨rfl, hpath.chain.differ hsame⟩
  cases a with
  | cat v => exact hatom nofun
  | pug off => exact hatom nofun
  | pom a_u =>
    have hcell : (∀ off, b ≠ .pom off) → (Ref.pom a_u).noun val ≠ b.noun val := fun hnot hsame ↦ by
      obtain ⟨hed, tel, -, -, -, -, hval⟩ := ha.cell hworld
      obtain ⟨off, hoff, -⟩ := hb.pom_of_cell hworld (hsame.symm.trans hval)
      exact hnot off hoff
    cases b with
    | cat v => exact ⟨rfl, hpath.chain.differ (hcell nofun)⟩
    | pug off => exact ⟨rfl, hpath.chain.differ (hcell nofun)⟩
    | pom b_u =>
      obtain ⟨mug_o, hmug, hvalid⟩ := singMug_ok hworld ha hb rfl rfl
      dsimp only
      rw [bind_ok hmug]
      cases mug_o with
      | false => exact ⟨rfl, hpath.chain.differ (hvalid rfl)⟩
      | true =>
        by_cases hbefore : test (.pom a_u) (.pom b_u) = true
        · rw [hbefore]
          exact ⟨rfl, htest hbefore⟩
        · obtain ⟨hed_a, tel_a, hgha, -, hahed_a, -, hval_a⟩ := ha.cell hworld
          obtain ⟨hed_b, tel_b, hghb, -, hahed_b, -, hval_b⟩ := hb.cell hworld
          rw [Bool.not_eq_true] at hbefore
          rw [hbefore]
          have hruns : (do
              let hed_a ← Place.get ⟨.hed, a_u⟩
              let hed_b ← Place.get ⟨.hed, b_u⟩
              pure (.push .head hed_a hed_b) : M Next) h = .ok (.push .head hed_a hed_b) h :=
            (bind_ok hgha.get _).trans (bind_ok hghb.get _)
          refine Eq.mpr (congrArg _ hruns) ⟨boxes, .refl hworld, .refl,
            ⟨.push (hpath.chain.sat .head) ⟨_, _, hval_a, hval_b⟩,
            trivial, fun f hf ↦ ?_⟩, ?_⟩
          · rcases List.mem_cons.mp hf with rfl | hf
            · exact ⟨hahed_a, hahed_b⟩
            · rcases List.mem_cons.mp hf with rfl | hf
              · exact ⟨ha, hb⟩
              · exact hpath.alive f (List.mem_cons_of_mem _ hf)
          · show 3 * _ + weight .head (val a_u) < 3 * (val a_u).size
            rw [hval_a, weight, Noun.size]
            omega

theorem singHead_framed (hworld : World R hash mugs val h boxes roots)
    (hpath : Path R val x₀ y₀ h boxes ⟨.head, .pom a_u, .pom b_u⟩ pil_u) (hfuel : x₀.size ≤ fuel)
    (hroad : ∀ rod_u ∈ rods.head?, ∀ off, R.normal off = !rod_u.senior off) :
    Framed R hash mugs val roots x₀ y₀ ⟨.head, .pom a_u, .pom b_u⟩ pil_u h boxes
      (singCell R rods fuel .head a_u b_u h) := by
  obtain ⟨ha, hb⟩ := hpath.alive _ List.mem_cons_self
  obtain ⟨p, q, r, hval_a, hval_b⟩ := hpath.fits
  replace hval_a : val a_u = .cell p q := hval_a
  replace hval_b : val b_u = .cell p r := hval_b
  have hsize := hpath.chain.size.1.1
  obtain ⟨hed_a, tel_a, hgha, -, hahed_a, -, hcell_a⟩ := ha.cell hworld
  obtain ⟨hed_b, tel_b, hghb, -, hahed_b, -, hcell_b⟩ := hb.cell hworld
  have hp_a := (Noun.cell.inj (hcell_a.symm.trans hval_a)).1
  have hp_b := (Noun.cell.inj (hcell_b.symm.trans hval_b)).1
  have hless : p.size < (val a_u).size ∧ p.size < (val b_u).size := by
    rw [hval_a, hval_b, Noun.size, Noun.size]
    omega
  replace hsize : (val a_u).size ≤ x₀.size := hsize
  have hroom : (hed_a.noun val).size ≤ fuel := by
    rw [hp_a]
    omega
  unfold singCell
  rcases wedArm_runs hworld ha hb hgha hghb hahed_a hahed_b (hp_a.trans hp_b.symm)
    (by rw [hp_a]; exact hless.1)
    (by rw [hp_a]; exact hless.2) hroom hroad with ⟨h₁, boxes₁, hwed, hunifies⟩ | ⟨hfail, hfull⟩
  · rw [hp_a] at hunifies
    obtain ⟨hstays, hpath₁⟩ := hpath.unifies hworld hunifies hless
    obtain ⟨ha₁, hb₁⟩ := hpath₁.alive _ List.mem_cons_self
    obtain ⟨_, tel_a₁, -, hgta, -, hatel_a, hcell_a₁⟩ := ha₁.cell hstays.world
    obtain ⟨_, tel_b₁, -, hgtb, -, hatel_b, hcell_b₁⟩ := hb₁.cell hstays.world
    have hhead_a := (Noun.cell.inj (hcell_a₁.symm.trans hval_a)).1
    have hhead_b := (Noun.cell.inj (hcell_b₁.symm.trans hval_b)).1
    rw [hhead_a] at hcell_a₁
    rw [hhead_b] at hcell_b₁
    dsimp only
    rw [bind_ok hwed, bind_ok hgta.get, bind_ok hgtb.get]
    refine ⟨boxes₁, hstays, hunifies.raises, ⟨.push (hpath.chain.sat .tail) ⟨p, hcell_a₁, hcell_b₁⟩,
      trivial, fun f hf ↦ ?_⟩, ?_⟩
    · rcases List.mem_cons.mp hf with rfl | hf
      · exact ⟨hatel_a, hatel_b⟩
      · rcases List.mem_cons.mp hf with rfl | hf
        · exact ⟨ha₁, hb₁⟩
        · exact hpath₁.alive f (List.mem_cons_of_mem _ hf)
    · show 3 * _ + 1 < weight .head (val a_u)
      rw [hcell_a₁, weight]
      omega
  · rw [hp_a] at hfull
    dsimp only
    rw [bind_error hfail]
    refine ⟨rfl, rfl, p, hfull, ?_⟩
    show Common p (val a_u) (val b_u)
    rw [hval_a, hval_b]
    exact .hed .here

theorem singTail_framed (hworld : World R hash mugs val h boxes roots)
    (hpath : Path R val x₀ y₀ h boxes ⟨.tail, .pom a_u, .pom b_u⟩ pil_u) (hfuel : x₀.size ≤ fuel)
    (hroad : ∀ rod_u ∈ rods.head?, ∀ off, R.normal off = !rod_u.senior off) :
    Framed R hash mugs val roots x₀ y₀ ⟨.tail, .pom a_u, .pom b_u⟩ pil_u h boxes
      (singCell R rods fuel .tail a_u b_u h) := by
  obtain ⟨ha, hb⟩ := hpath.alive _ List.mem_cons_self
  obtain ⟨p, q, hval_a, hval_b⟩ := hpath.fits
  replace hval_a : val a_u = .cell p q := hval_a
  replace hval_b : val b_u = .cell p q := hval_b
  have hsize : (val a_u).size ≤ x₀.size := hpath.chain.size.1.1
  obtain ⟨hed_a, tel_a, -, hgta, -, hatel_a, hcell_a⟩ := ha.cell hworld
  obtain ⟨hed_b, tel_b, -, hgtb, -, hatel_b, hcell_b⟩ := hb.cell hworld
  have hq_a := (Noun.cell.inj (hcell_a.symm.trans hval_a)).2
  have hq_b := (Noun.cell.inj (hcell_b.symm.trans hval_b)).2
  have hless : q.size < (val a_u).size ∧ q.size < (val b_u).size := by
    rw [hval_a, hval_b, Noun.size]
    omega
  have hroom : (tel_a.noun val).size ≤ fuel := by
    rw [hq_a]
    omega
  unfold singCell
  rcases wedArm_runs hworld ha hb hgta hgtb hatel_a hatel_b (hq_a.trans hq_b.symm)
    (by rw [hq_a]; exact hless.1)
    (by rw [hq_a]; exact hless.2) hroom hroad with ⟨h₁, boxes₁, hwed, hunifies⟩ | ⟨hfail, hfull⟩
  · rw [hq_a] at hunifies
    obtain ⟨hstays, hpath₁⟩ := hpath.unifies hworld hunifies hless
    dsimp only
    rw [bind_ok hwed]
    exact ⟨boxes₁, hstays, hunifies.raises, hpath₁, hval_a.trans hval_b.symm⟩
  · rw [hq_a] at hfull
    dsimp only
    rw [bind_error hfail]
    refine ⟨rfl, rfl, q, hfull, ?_⟩
    show Common q (val a_u) (val b_u)
    rw [hval_a, hval_b]
    exact .tel .here

theorem singFrame_framed (hworld : World R hash mugs val h boxes roots)
    (hpath : Path R val x₀ y₀ h boxes fam_u pil_u) (hfuel : x₀.size ≤ fuel)
    (hroad : ∀ rod_u ∈ rods.head?, ∀ off, R.normal off = !rod_u.senior off)
    (htest : test fam_u.a fam_u.b = true → fam_u.a.noun val = fam_u.b.noun val) :
    Framed R hash mugs val roots x₀ y₀ fam_u pil_u h boxes
      (singFrame R rods mugs fuel test fam_u h) := by
  obtain ⟨sat_y, a, b⟩ := fam_u
  obtain ⟨ha, hb⟩ := hpath.alive _ List.mem_cons_self
  cases sat_y with
  | none => exact singNone_framed hworld hpath htest
  | head =>
    obtain ⟨p, q, r, hval_a, hval_b⟩ := hpath.fits
    obtain ⟨a_u, rfl, -⟩ := ha.pom_of_cell hworld hval_a
    obtain ⟨b_u, rfl, -⟩ := hb.pom_of_cell hworld hval_b
    exact singHead_framed hworld hpath hfuel hroad
  | tail =>
    obtain ⟨p, q, hval_a, hval_b⟩ := hpath.fits
    obtain ⟨a_u, rfl, -⟩ := ha.pom_of_cell hworld hval_a
    obtain ⟨b_u, rfl, -⟩ := hb.pom_of_cell hworld hval_b
    exact singTail_framed hworld hpath hfuel hroad

/-- What a comparison gives: whether the nouns are equal, or a bail at a noun that they have in
common and whose use count cannot be raised. Until it bails no use count is raised by more than `k`.
-/
def Answers (R : Road) (hash : Noun → ℕ) (mugs : ℕ → ℕ) (val : ℕ → Noun) (roots : List Ref)
    (x₀ y₀ : Noun) (k : ℕ) (h : Heap) (boxes : Finset ℕ) : EStateM.Result Bail Heap Bool → Prop
  | .ok ret h' =>
    ret = decide (x₀ = y₀) ∧ ∃ boxes', Stays R hash mugs val roots x₀ y₀ h boxes h' boxes'
  | .error why h' => why = .fail ∧ (∃ boxes', Stays R hash mugs val roots x₀ y₀ h boxes h' boxes') ∧
      (∃ m, Full h' m ∧ Common m x₀ y₀) ∧ Raises k h h'

theorem Answers.after {res : EStateM.Result Bail Heap Bool} {j k l : ℕ}
    (hstays : Stays R hash mugs val roots x₀ y₀ h boxes h' boxes') (hraises : Raises j h h')
    (hanswers : Answers R hash mugs val roots x₀ y₀ k h' boxes' res) (hle : j + k ≤ l) :
    Answers R hash mugs val roots x₀ y₀ l h boxes res := by
  cases res with
  | error why h'' =>
    obtain ⟨hwhy, ⟨boxes'', hstays'⟩, hfull, hmore⟩ := hanswers
    exact ⟨hwhy, ⟨boxes'', hstays.trans hstays'⟩, hfull, (hraises.trans hmore).mono hle⟩
  | ok ret h'' =>
    obtain ⟨hret, boxes'', hstays'⟩ := hanswers
    exact ⟨hret, boxes'', hstays.trans hstays'⟩

/-- A frame at which the comparison bails. -/
theorem Framed.answers {why : Bail} {k : ℕ} (hworld : World R hash mugs val h boxes roots)
    (hpath : Path R val x₀ y₀ h boxes fam_u pil_u)
    (hframed : Framed R hash mugs val roots x₀ y₀ fam_u pil_u h boxes (.error why h')) :
    Answers R hash mugs val roots x₀ y₀ k h boxes (.error why h') := by
  obtain ⟨rfl, rfl, m, hfull, hcommon⟩ := hframed
  exact ⟨rfl, ⟨boxes, .refl hworld⟩, ⟨m, hfull, hpath.chain.common hcommon⟩, .refl⟩

theorem Path.weight_pos (hpath : Path R val x₀ y₀ h boxes fam_u pil_u) :
    0 < weight fam_u.sat_y (fam_u.a.noun val) := by
  have hfits := hpath.fits
  cases hsat : fam_u.sat_y with
  | none =>
    show 0 < 3 * _
    cases fam_u.a.noun val <;> simp [Noun.size]
  | head =>
    rw [hsat] at hfits
    obtain ⟨p, q, r, hx, -⟩ := hfits
    rw [hx]
    exact Nat.succ_pos _
  | tail => exact Nat.one_pos

/-- When the nouns of the top frame are equal, the next frame is on top, or the whole nouns are. -/
theorem Path.popped (hpath : Path R val x₀ y₀ h boxes fam_u pil_u)
    (hsame : fam_u.a.noun val = fam_u.b.noun val) :
    (pil_u = [] ∧ x₀ = y₀) ∨
      ∃ below rest, pil_u = below :: rest ∧ Path R val x₀ y₀ h boxes below rest := by
  cases pil_u with
  | nil =>
    cases hpath.chain with
    | base ha hb => exact .inl ⟨rfl, by rw [← ha, ← hb, hsame]⟩
  | cons below rest =>
    obtain ⟨hchain, hfits⟩ := hpath.chain.pop hsame
    exact .inr ⟨below, rest, rfl, hchain, hfits,
      fun f hf ↦ hpath.alive f (List.mem_cons_of_mem _ hf)⟩

theorem weights_cons (val : ℕ → Noun) (fam_u : EqFrame) (pil_u : List EqFrame) :
    weights val (fam_u :: pil_u) = weight fam_u.sat_y (fam_u.a.noun val) + weights val pil_u := by
  rw [weights, List.map_cons, List.sum_cons]
  rfl

/-- The pairs of the table are those of equal nouns. -/
def Kin (val : ℕ → Noun) (har_p : List (ℕ × ℕ)) : Prop := ∀ key ∈ har_p, val key.1 = val key.2

theorem Kin.sound {har_p : List (ℕ × ℕ)} (hkin : Kin val har_p) {a b : Ref}
    (htest : singCapeTest har_p a b = true) :
    a.noun val = b.noun val := by
  unfold singCapeTest at htest
  cases ha : a.off with
  | none =>
    rw [ha] at htest
    cases htest
  | some off_a =>
    cases hb : b.off with
    | none =>
      rw [ha, hb] at htest
      cases htest
    | some off_b =>
      rw [ha, hb] at htest
      rw [noun_of_off ha, noun_of_off hb]
      exact hkin (off_a, off_b) (List.contains_iff_mem.mp htest)

theorem Kin.keep {har_p : List (ℕ × ℕ)} (hkin : Kin val har_p) {a b : Ref}
    (hsame : a.noun val = b.noun val) :
    Kin val (singCapeKeep har_p a b) := by
  unfold singCapeKeep
  split
  · exact hkin
  · split
    · next off_a off_b ha hb =>
      intro key hkey
      rcases List.mem_cons.mp hkey with rfl | hkey
      · show val off_a = val off_b
        rw [← @noun_of_off val a off_a ha, ← @noun_of_off val b off_b hb, hsame]
      · exact hkin key hkey
    · exact hkin

theorem singCape_runs (hroad : ∀ rod_u ∈ rods.head?, ∀ off, R.normal off = !rod_u.senior off)
    (hfuel : x₀.size ≤ fuel) (n : ℕ) {har_p : List (ℕ × ℕ)} (hkin : Kin val har_p)
    (hworld : World R hash mugs val h boxes roots) (hpath : Path R val x₀ y₀ h boxes fam_u pil_u)
    (hroom : weights val (fam_u :: pil_u) < n) :
    Answers R hash mugs val roots x₀ y₀ (weights val (fam_u :: pil_u)) h boxes
      (singCape R rods mugs fuel n (fam_u :: pil_u) har_p h) := by
  induction n generalizing h boxes fam_u pil_u har_p with
  | zero => exact absurd hroom (Nat.not_lt_zero _)
  | succ n ih =>
    have hpos := hpath.weight_pos
    have hrest := weights_cons val fam_u pil_u
    -- what follows when the frame is popped
    have hpop : ∀ {h' : Heap} {boxes' : Finset ℕ} {har_p : List (ℕ × ℕ)}, Kin val har_p →
        Stays R hash mugs val roots x₀ y₀ h boxes h' boxes' → Raises 1 h h' →
        Path R val x₀ y₀ h' boxes' fam_u pil_u → fam_u.a.noun val = fam_u.b.noun val →
        Answers R hash mugs val roots x₀ y₀ (weights val (fam_u :: pil_u)) h boxes
          (singCape R rods mugs fuel n pil_u har_p h') :=
      fun {h' boxes' har_p} hkin hstays hraises hpath' hsame ↦ by
        rcases hpath'.popped hsame with ⟨rfl, hwhole⟩ | ⟨below, rest, rfl, hbelow⟩
        · cases n <;> exact ⟨(decide_eq_true hwhole).symm, boxes', hstays⟩
        · exact (ih hkin hstays.world hbelow (by omega)).after hstays hraises (by omega)
    have hframed := singFrame_framed hworld hpath hfuel hroad hkin.sound
    rw [singCape]
    cases hres : singFrame R rods mugs fuel (singCapeTest har_p) fam_u h with
    | error why h' =>
      rw [hres] at hframed
      rw [bind_error hres]
      exact hframed.answers hworld hpath
    | ok next h' =>
      rw [hres] at hframed
      rw [bind_ok hres]
      cases next with
      | differ =>
        obtain ⟨rfl, hne⟩ := hframed
        exact ⟨(decide_eq_false hne).symm, boxes, .refl hworld⟩
      | push sat_y a b =>
        obtain ⟨boxes', hstays, hraises, hpath', hless⟩ := hframed
        have hpushed : 1 + weights val (⟨.none, a, b⟩ :: { fam_u with sat_y := sat_y } :: pil_u) ≤
            weights val (fam_u :: pil_u) := by
          rw [hrest, weights_cons, weights_cons]
          dsimp only
          omega
        exact (ih hkin hstays.world hpath' (by omega)).after hstays hraises hpushed
      | drop =>
        obtain ⟨rfl, hsame⟩ := hframed
        exact hpop hkin (.refl hworld) .refl hpath hsame
      | done =>
        obtain ⟨boxes', hstays, hraises, hpath', hsame⟩ := hframed
        exact hpop (hkin.keep hsame) hstays hraises hpath' hsame

theorem singLoop_runs (hroad : ∀ rod_u ∈ rods.head?, ∀ off, R.normal off = !rod_u.senior off)
    (hfuel : x₀.size ≤ fuel) (n : ℕ) (ovr_s : ℕ) (hworld : World R hash mugs val h boxes roots)
    (hpath : Path R val x₀ y₀ h boxes fam_u pil_u) (hroom : weights val (fam_u :: pil_u) + 1 < n) :
    Answers R hash mugs val roots x₀ y₀ (weights val (fam_u :: pil_u) + 1) h boxes
      (singLoop R rods mugs fuel n (fam_u :: pil_u) ovr_s h) := by
  induction n generalizing h boxes fam_u pil_u ovr_s with
  | zero => exact absurd hroom (Nat.not_lt_zero _)
  | succ n ih =>
    have hpos := hpath.weight_pos
    have hrest := weights_cons val fam_u pil_u
    have hpop : ∀ {h' : Heap} {boxes' : Finset ℕ} (ovr_s : ℕ),
        Stays R hash mugs val roots x₀ y₀ h boxes h' boxes' → Raises 1 h h' →
        Path R val x₀ y₀ h' boxes' fam_u pil_u → fam_u.a.noun val = fam_u.b.noun val →
        Answers R hash mugs val roots x₀ y₀ (weights val (fam_u :: pil_u) + 1) h boxes
          (singLoop R rods mugs fuel n pil_u ovr_s h') :=
      fun {h' boxes'} ovr_s hstays hraises hpath' hsame ↦ by
        rcases hpath'.popped hsame with ⟨rfl, hwhole⟩ | ⟨below, rest, rfl, hbelow⟩
        · cases n <;> exact ⟨(decide_eq_true hwhole).symm, boxes', hstays⟩
        · exact (ih ovr_s hstays.world hbelow (by omega)).after hstays hraises (by omega)
    have hframed : Framed R hash mugs val roots x₀ y₀ fam_u pil_u h boxes
        (singFrame R rods mugs fuel (fun _ _ ↦ false) fam_u h) :=
        singFrame_framed hworld hpath hfuel hroad nofun
    rw [singLoop]
    cases hres : singFrame R rods mugs fuel (fun _ _ ↦ false) fam_u h with
    | error why h' =>
      rw [hres] at hframed
      rw [bind_error hres]
      exact hframed.answers hworld hpath
    | ok next h' =>
      rw [hres] at hframed
      rw [bind_ok hres]
      cases next with
      | differ =>
        obtain ⟨rfl, hne⟩ := hframed
        exact ⟨(decide_eq_false hne).symm, boxes, .refl hworld⟩
      | push sat_y a b =>
        obtain ⟨boxes', hstays, hraises, hpath', hless⟩ := hframed
        have hpushed : 1 + weights val (⟨.none, a, b⟩ :: { fam_u with sat_y := sat_y } :: pil_u) ≤
            weights val (fam_u :: pil_u) := by
          rw [hrest, weights_cons, weights_cons]
          dsimp only
          omega
        exact (ih ovr_s hstays.world hpath' (by omega)).after hstays hraises (by omega)
      | drop =>
        obtain ⟨rfl, hsame⟩ := hframed
        exact hpop ovr_s (.refl hworld) .refl hpath hsame
      | done =>
        obtain ⟨boxes', hstays, hraises, hpath', hsame⟩ := hframed
        by_cases hover : (ovr_s + 1) % 2 ^ 16 = 0
        · -- the table is empty, and the frame is looked at once more
          have hnone : Kin val [] := fun _ hkey ↦ absurd hkey List.not_mem_nil
          have hcape := singCape_runs hroad hfuel n hnone hstays.world hpath' (by omega)
          have hanswers := hcape.after hstays hraises (Nat.add_comm 1 _).le
          dsimp only
          rwa [if_pos hover]
        · dsimp only
          rw [if_neg hover]
          exact hpop _ hstays hraises hpath' hsame

/-- `u3r_sing()` says whether two nouns are equal, and leaves the nouns of the heap. -/
theorem sing_runs {a b : Ref}
    (hroad : ∀ rod_u ∈ rods.head?, ∀ off, R.normal off = !rod_u.senior off)
    (hworld : World R hash mugs val h boxes roots) (ha : Alive R val h boxes a)
    (hb : Alive R val h boxes b) {n : ℕ} (hfuel : (a.noun val).size ≤ fuel)
    (hroom : 3 * (a.noun val).size + 1 < n) :
    Answers R hash mugs val roots (a.noun val) (b.noun val) (3 * (a.noun val).size + 1) h boxes
      (sing R rods mugs fuel n a b h) := by
  refine singLoop_runs hroad hfuel n 0 hworld ⟨.base rfl rfl, trivial, fun f hf ↦ ?_⟩ hroom
  obtain rfl := List.mem_singleton.mp hf
  exact ⟨ha, hb⟩

end Frame

end Vere.Noun.Shared
