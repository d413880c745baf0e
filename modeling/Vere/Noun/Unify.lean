import Vere.Noun.Shared

/-!
# Unification of nouns

`u3a_wed()` of `pkg/noun/allocate.c` makes two references to equal nouns one, in the cells that they
are read from. On the road itself the reference that is given up loses a use, which can free its
noun; on senior roads uses are only gained.

Boxes denote nouns, and what they denote is `val` all along (`Nouns`). Losing a reference frees
boxes of nouns that are not larger than its own (`lose_far`), so that the boxes of larger nouns,
which a comparison still refers to, stay. `Unified` is what a step leaves as it was, and `wed_runs`
says that unification is such a step.
-/

set_option autoImplicit false

namespace Vere.Noun.Shared

open Vere.Lib.Counts

/-! ### The functions -/

/-- A reference as a word, with its tag. -/
def Ref.word : Ref → ℕ
  | .cat a => a
  | .pug off => 2 ^ 31 + off
  | .pom off => 2 ^ 31 + 2 ^ 30 + off

/-- What `u3a_wed()` asks about a road: which boxes are senior to it, and whether it is a north
road. -/
structure Level where
  senior : ℕ → Bool
  north : Bool

/-- `u3a_is_senior`. -/
def Level.isSenior (rod_u : Level) : Ref → Bool
  | .cat _ => true
  | .pug off => rod_u.senior off
  | .pom off => rod_u.senior off

/-- The two fields of a cell. -/
inductive Arm
  | hed
  | tel

/-- The field of the two. -/
def Arm.pick {α : Type} : Arm → α → α → α
  | .hed, h, _ => h
  | .tel, _, t => t

/-- The cell with another reference in a field. -/
def Arm.cell (mug_w : ℕ) (hed tel r : Ref) : Arm → Body
  | .hed => .cell mug_w r tel
  | .tel => .cell mug_w hed r

/-- A pointer to a field of a cell. -/
structure Place where
  arm : Arm
  off : ℕ

/-- The reference that is pointed to. -/
def Place.get (p : Place) : M Ref := do
  let (hed, tel) ← cellAt p.off
  pure (p.arm.pick hed tel)

/-- Another reference is written. -/
def Place.set (p : Place) (r : Ref) : M Unit := do
  let box ← load p.off
  match box.body with
  | .cell mug_w hed tel => store p.off { box with body := p.arm.cell mug_w hed tel r }
  | .atom _ => throw .fault

/-- `_me_gain_use()`. -/
def gainUse (dog : Ref) : M Unit :=
  match dog.off with
  | none => throw .fault
  | some off => do
    let box ← load off
    if box.use_w = 0x7fffffff then throw .fail
    else if box.use_w = 0 then throw .foul
    else store off { box with use_w := box.use_w + 1 }

section Wed

variable (R : Road) (fuel : ℕ)

/-- A reference is given up for another one. On the road itself it loses its use. -/
def Place.giveUp (own_t : Bool) (p : Place) (r : Ref) : M Unit := do
  let old ← p.get
  if own_t then lose R fuel old else pure ()
  p.set r

/-- `_ca_wed_who()`. -/
def wedWho (own_t : Bool) (rod_u : Level) (a b : Place) : M Bool := do
  let ref_a ← a.get
  let ref_b ← b.get
  let asr_t := rod_u.isSenior ref_a
  let bsr_t := rod_u.isSenior ref_b
  if !asr_t && !bsr_t then
    if decide (ref_b.word < ref_a.word) = rod_u.north then do
      gainUse ref_a
      b.giveUp R fuel own_t ref_a
      pure true
    else do
      gainUse ref_b
      a.giveUp R fuel own_t ref_b
      pure true
  else if asr_t && !bsr_t then do
    b.giveUp R fuel own_t ref_a
    pure true
  else if !asr_t && bsr_t then do
    a.giveUp R fuel own_t ref_b
    pure true
  else pure false

/-- The loop of `u3a_wed()` over the roads below the home road, from its own road on. -/
def wedOn : Bool → List Level → Place → Place → M Unit
  | _, [], _, _ => pure ()
  | own_t, rod_u :: par, a, b => do
    let done ← wedWho R fuel own_t rod_u a b
    if done then pure () else wedOn false par a b

/-- `u3a_wed()`. -/
def wed (rods : List Level) (a b : Place) : M Unit := do
  let ref_a ← a.get
  let ref_b ← b.get
  if ref_a = ref_b then pure () else wedOn R fuel true rods a b

end Wed

/-! ### How much use counts are raised -/

/-- No use count is raised by more than `k`. -/
def Raises (k : ℕ) (h h' : Heap) : Prop := ∀ off, useOf h' off ≤ useOf h off + k

/-- The heap that a program leaves. -/
def after {α : Type} : EStateM.Result Bail Heap α → Heap
  | .ok _ h => h
  | .error _ h => h

/-- A program that raises no use count by more than `k`, whether it bails or not. -/
def Raising {α : Type} (k : ℕ) (x : M α) : Prop := ∀ h, Raises k h (after (x h))

variable {off : ℕ}

section Raising

variable {α β : Type} {k l : ℕ} {h h' : Heap} {x : M α} {f : α → M β}

theorem Raises.refl : Raises k h h := fun _ ↦ Nat.le_add_right _ _

theorem Raises.trans {h'' : Heap} (hfirst : Raises k h h') (hsecond : Raises l h' h'') :
    Raises (k + l) h h'' := by
  intro off
  have hone := hfirst off
  have htwo := hsecond off
  omega

theorem Raises.mono (hraises : Raises k h h') (hle : k ≤ l) : Raises l h h' :=
  fun off ↦ (hraises off).trans (Nat.add_le_add_left hle _)

/-- A box is written with a use count that is not much higher. -/
theorem Raises.put {off : ℕ} {box box' : Box} (hbox : h off = some box)
    (hle : box'.use_w ≤ box.use_w + k) :
    Raises k h (Function.update h off (some box')) := by
  intro o
  by_cases heq : o = off
  · rw [heq, useOf_update, useOf_of hbox]
    exact hle
  · rw [useOf_update_ne heq]
    exact Nat.le_add_right _ _

theorem Raising.pure (a : α) : Raising k (Pure.pure a : M α) := fun _ ↦ .refl

theorem Raising.throw (why : Bail) : Raising k (MonadExcept.throw why : M α) := fun _ ↦ .refl

theorem Raising.seq (hx : Raising 0 x) (hf : ∀ a, Raising k (f a)) : Raising k (x >>= f) := by
  intro h
  have hfirst := hx h
  cases hres : x h with
  | ok a h' =>
    rw [hres] at hfirst
    rw [bind_ok hres]
    exact Nat.zero_add k ▸ hfirst.trans (hf a h')
  | error why h' =>
    rw [hres] at hfirst
    rw [bind_error hres]
    exact Raises.mono hfirst (Nat.zero_le k)

/-- What follows a read knows the box. -/
theorem Raising.load {f : Box → M β} (hf : ∀ h box, h off = some box →
    Raises k h (after (f box h))) :
    Raising k (load off >>= f) := by
  intro h
  cases hbox : h off with
  | none =>
    have hfault : Shared.load off h = .error .fault h := by rw [Shared.load, hbox]
    rw [bind_error hfault]
    exact .refl
  | some box =>
    rw [bind_ok (load_ok hbox)]
    exact hf h box hbox

theorem Raising.free (off : ℕ) : Raising 0 (free off) := by
  intro h o
  show useOf (Function.update h off none) o ≤ _
  by_cases heq : o = off
  · rw [heq, useOf, Function.update_self]
    exact Nat.zero_le _
  · rw [useOf_update_ne heq]
    exact Nat.le_add_right _ _

theorem Raising.cellAt (off : ℕ) : Raising 0 (cellAt off) := by
  refine .load fun h box _ ↦ ?_
  cases box.body with
  | atom v => exact .refl
  | cell mug_w hed tel => exact .refl

theorem Raising.lose (R : Road) (fuel : ℕ) (r : Ref) : Raising 0 (lose R fuel r) := by
  induction fuel generalizing r with
  | zero => exact .throw _
  | succ fuel ih =>
    rw [Shared.lose]
    cases r.off with
    | none => exact .pure ()
    | some off =>
      dsimp only
      by_cases hnormal : R.normal off = true
      · rw [if_pos hnormal]
        refine .load fun h box hbox ↦ ?_
        by_cases hmany : 1 < box.use_w
        · rw [if_pos hmany]
          exact .put hbox ((Nat.sub_le _ _).trans (Nat.le_add_right _ _))
        rw [if_neg hmany]
        by_cases hzero : box.use_w = 0
        · rw [if_pos hzero]
          exact .refl
        rw [if_neg hzero]
        by_cases hcell : u3du r = true
        · rw [if_pos hcell]
          exact (Raising.cellAt off).seq (fun _ ↦ (ih _).seq fun _ ↦ (Raising.free off).seq
            fun _ ↦ ih _) h
        · rw [if_neg hcell]
          exact Raising.free off h
      · rw [if_neg hnormal]
        exact .pure ()

theorem Raising.get (p : Place) : Raising 0 p.get :=
  (Raising.cellAt p.off).seq fun _ ↦ .pure _

theorem Raising.set (p : Place) (r : Ref) : Raising 0 (p.set r) := by
  refine .load fun h box hbox ↦ ?_
  cases box.body with
  | atom v => exact .refl
  | cell mug_w hed tel => exact .put hbox (Nat.le_add_right _ _)

theorem Raising.gainUse (r : Ref) : Raising 1 (gainUse r) := by
  rw [Shared.gainUse]
  cases r.off with
  | none => exact .throw _
  | some off =>
    refine .load fun h box hbox ↦ ?_
    by_cases hfull : box.use_w = 0x7fffffff
    · rw [if_pos hfull]
      exact .refl
    rw [if_neg hfull]
    by_cases hzero : box.use_w = 0
    · rw [if_pos hzero]
      exact .refl
    · rw [if_neg hzero]
      exact .put hbox (Nat.le_refl _)

theorem Raising.giveUp (R : Road) (fuel : ℕ) (own_t : Bool) (p : Place) (r : Ref) :
    Raising 0 (p.giveUp R fuel own_t r) := by
  refine (Raising.get p).seq fun old ↦ ?_
  cases own_t with
  | false => exact .set p r
  | true => exact (Raising.lose R fuel old).seq fun _ ↦ .set p r

end Raising

/-! ### What boxes denote -/

/-- The reference to a box. -/
def Body.toRef : Body → ℕ → Ref
  | .atom _, off => .pug off
  | .cell .., off => .pom off

theorem Body.off_toRef (body : Body) (off : ℕ) : (body.toRef off).off = some off := by
  cases body <;> rfl

/-- The noun of a reference, where `val` has those of the boxes. -/
def Ref.noun (val : ℕ → Noun) : Ref → Noun
  | .cat a => .atom a
  | .pug off => val off
  | .pom off => val off

/-- A box of the road that is in use, or one of a senior road. -/
def Known (R : Road) (boxes : Finset ℕ) (off : ℕ) : Prop := R.normal off = true → off ∈ boxes

/-- The boxes denote `val`. -/
def Nouns (R : Road) (val : ℕ → Noun) (h : Heap) (boxes : Finset ℕ) : Prop :=
  ∀ off box, Known R boxes off → h off = some box → Denotes h (box.body.toRef off) (val off)

variable {R : Road} {val : ℕ → Noun} {h h' : Heap} {boxes boxes' : Finset ℕ} {r : Ref} {n : Noun}
  {roots : List Ref}

theorem noun_of_off {off : ℕ} (hoff : r.off = some off) : r.noun val = val off := by
  cases r with
  | cat a => cases hoff
  | pug o => exact congrArg val (Option.some.inj hoff)
  | pom o => exact congrArg val (Option.some.inj hoff)

theorem inside_none (hoff : r.off = none) : Inside R boxes r := by
  intro off hmem
  rw [offs_none hoff] at hmem
  cases hmem

theorem inside_iff (hoff : r.off = some off) : Inside R boxes r ↔ Known R boxes off := by
  constructor
  · intro hin hnormal
    exact hin off (by rw [offs_some hoff hnormal]; exact List.mem_singleton_self off)
  · intro hknown o ho
    cases hnormal : R.normal off with
    | false =>
      rw [offs_senior hoff hnormal] at ho
      cases ho
    | true =>
      rw [offs_some hoff hnormal] at ho
      obtain rfl := List.mem_singleton.mp ho
      exact hknown hnormal

theorem Known.mono (hsub : boxes' ⊆ boxes) (hknown : Known R boxes' off) : Known R boxes off :=
  fun hnormal ↦ hsub (hknown hnormal)

theorem Denotes.toRef (hden : Denotes h r n) {box : Box} (hoff : r.off = some off)
    (hbox : h off = some box) : box.body.toRef off = r := by
  cases hden with
  | cat _ => cases hoff
  | pug _ hbox' =>
    cases hoff
    rw [hbox] at hbox'
    cases hbox'
    rfl
  | pom _ hbox' _ _ =>
    cases hoff
    rw [hbox] at hbox'
    cases hbox'
    rfl

/-- What a reference denotes is what its box does. -/
theorem Nouns.eq_noun (hnouns : Nouns R val h boxes) (hden : Denotes h r n)
    (hin : Inside R boxes r) : n = r.noun val := by
  cases hoff : r.off with
  | none =>
    cases hden with
    | cat _ => rfl
    | pug _ _ => cases hoff
    | pom _ _ _ _ => cases hoff
  | some off =>
    obtain ⟨box, hbox⟩ := hden.box hoff
    have hval := hnouns off box ((inside_iff hoff).mp hin) hbox
    rw [hden.toRef hoff hbox] at hval
    rw [hden.unique hval, noun_of_off hoff]

theorem Nouns.erase (hnouns : Nouns R val h boxes) (hsub : boxes' ⊆ boxes) : Nouns R val h boxes' :=
  fun off box hknown hbox ↦ hnouns off box (hknown.mono hsub) hbox

/-- A box that has been taken out does not matter. -/
theorem Nouns.elsewhere (hnouns : Nouns R val h boxes) (hsafe : Safe R h boxes roots)
    (hoff : off ∉ boxes) (hnormal : R.normal off = true) (box : Option Box) :
    Nouns R val (Function.update h off box) boxes := by
  intro o box' hknown hbox
  have hne : o ≠ off := by
    rintro rfl
    exact hoff (hknown hnormal)
  rw [Function.update_of_ne hne] at hbox
  exact hsafe.denotes_put hoff hnormal box (hnouns o box' hknown hbox)
    ((inside_iff (box'.body.off_toRef o)).mpr hknown)

theorem Nouns.kept (hnouns : Nouns R val h boxes) (hsafe : Safe R h boxes roots) {roots' : List Ref}
    (hsafe' : Safe R h' boxes' roots') (hkept : Kept R h boxes h' boxes') :
    Nouns R val h' boxes' := by
  intro off box' hknown hbox'
  have hbody : ∃ box, h off = some box ∧ box.body = box'.body := by
    cases hnormal : R.normal off with
    | false => exact ⟨box', by rw [← hsafe.fixed hkept hnormal, hbox'], rfl⟩
    | true =>
      have hsame := hkept.same off (hknown hnormal)
      rw [Same, hbox', Option.map_some] at hsame
      exact Option.map_eq_some_iff.mp hsame.symm
  obtain ⟨box, hbox, hbody⟩ := hbody
  have hden := hnouns off box (hknown.mono hkept.sub) hbox
  rw [hbody] at hden
  exact hkept.denotes hsafe hsafe' hden ((inside_iff (box'.body.off_toRef off)).mpr hknown)

/-! ### Losing a reference -/

/-- A box of a larger noun stays when a reference is lost, and it can be written before as well as
after. -/
def Far (val : ℕ → Noun) (n : Noun) (lose : Heap → EStateM.Result Bail Heap Unit) (h : Heap)
    (boxes : Finset ℕ) (h' : Heap) (boxes' : Finset ℕ) : Prop :=
  ∀ off, n.size < (val off).size → h' off = h off ∧ (off ∈ boxes → off ∈ boxes') ∧
    ∀ box, lose (Function.update h off box) = .ok () (Function.update h' off box)

theorem lose_far (fuel : ℕ) (hsafe : Safe R h boxes (r :: roots)) (hden : Denotes h r n)
    (hfuel : n.size ≤ fuel) (hnouns : Nouns R val h boxes) :
    ∃ h' boxes', lose R fuel r h = .ok () h' ∧ Safe R h' boxes' roots ∧ Kept R h boxes h' boxes' ∧
      Nouns R val h' boxes' ∧ Far val n (lose R fuel r) h boxes h' boxes' := by
  induction fuel generalizing h boxes r roots n with
  | zero =>
    cases n <;> simp [Noun.size] at hfuel
  | succ fuel ih =>
    cases hoffs : offs R [r] with
    | nil =>
      have hsafe' : Safe R h boxes roots :=
        hsafe.uncounted (by rw [offs_cons, hoffs, List.nil_append])
      exact ⟨h, boxes, lose_uncounted fuel hoffs, hsafe', Kept.refl, hnouns,
        fun off _ ↦ ⟨rfl, id, fun box ↦ lose_uncounted fuel hoffs⟩⟩
    | cons o more =>
      obtain ⟨hoff, hnormal, rfl⟩ := offs_eq_cons hoffs
      obtain ⟨box, hbox⟩ := hden.box hoff
      have hin := hsafe.inside (List.mem_cons_self (a := r))
      have hmem := hin o (by rw [hoffs]; exact List.mem_singleton_self o)
      have hpos := hsafe.used o (by rw [hoffs]; exact List.mem_singleton_self o)
      have hval : n = val o := by rw [hnouns.eq_noun hden hin, noun_of_off hoff]
      -- the box of the reference itself is not one of a larger noun
      have hne : ∀ off, n.size < (val off).size → off ≠ o := by
        rintro off hlarge rfl
        rw [hval] at hlarge
        exact Nat.lt_irrefl _ hlarge
      have hother : ∀ off, n.size < (val off).size → ∀ b, Function.update h off b o = some box :=
        fun off hlarge b ↦ by
        rw [Function.update_of_ne (hne off hlarge).symm, hbox]
      rw [useOf_of hbox] at hpos
      by_cases hmany : 1 < box.use_w
      · have hruns : ∀ g : Heap, g o = some box → lose R (fuel + 1) r g =
            .ok () (Function.update g o (some { box with use_w := box.use_w - 1 })) := fun g hg ↦ by
          rw [lose_counted fuel hoff hnormal hg hpos, if_pos hmany]
        have hkept : Kept R h boxes _ boxes := Kept.count ⟨box.use_w - 1, box.body⟩ hbox rfl hmem
        have hsafe' : Safe R _ boxes roots := hsafe.recount hkept (by
          have hcounted := hsafe.counted
          rw [offs_cons, hoffs] at hcounted
          refine hcounted.lose (fun b _ hne ↦ ?_) ?_
          · rw [useOf_update_ne hne]
          · rw [useOf_of hbox, useOf_update]
            show _ ≤ box.use_w - 1 + 1
            omega)
        refine ⟨_, boxes, hruns h hbox, hsafe', hkept, hnouns.kept hsafe hsafe' hkept,
          fun off hlarge ↦ ⟨?_, id, fun b ↦ ?_⟩⟩
        · rw [Function.update_of_ne (hne off hlarge)]
        · rw [hruns _ (hother off hlarge b), Function.update_comm (hne off hlarge)]
      · have htaken := hsafe.take hoff hnormal hbox (by omega)
        have hrest := hnouns.erase (Finset.erase_subset o boxes)
        have hstays : ∀ off, n.size < (val off).size → off ∈ boxes → off ∈ boxes.erase o :=
          fun off hlarge hin ↦
          Finset.mem_erase.mpr ⟨hne off hlarge, hin⟩
        cases hden with
        | cat _ => cases hoff
        | @pug _ _ v _ hbox' =>
          obtain rfl : _ = o := Option.some.inj hoff
          rw [hbox] at hbox'
          cases hbox'
          have hruns : ∀ g : Heap, g _ = some _ →
            lose R (fuel + 1) (.pug _) g = .ok () (Function.update g _ none) :=
            fun g hg ↦ by
              rw [lose_counted fuel hoff hnormal hg hpos, if_neg hmany]
              exact if_neg Bool.false_ne_true
          refine ⟨_, _, hruns h hbox, htaken.elsewhere (Finset.notMem_erase _ _) hnormal none,
            Kept.refl.elsewhere hmem none,
            hrest.elsewhere htaken (Finset.notMem_erase _ _) hnormal none,
            fun off hlarge ↦ ⟨?_, hstays off hlarge, fun b ↦ ?_⟩⟩
          · rw [Function.update_of_ne (hne off hlarge)]
          · rw [hruns _ (hother off hlarge b), Function.update_comm (hne off hlarge)]
        | @pom _ _ _ hed tel nh nt _ hbox' hhed htel =>
          obtain rfl : _ = o := Option.some.inj hoff
          rw [hbox] at hbox'
          cases hbox'
          simp only [Noun.size] at hfuel
          -- the head is lost while the box is still there, and the tail when it is free
          obtain ⟨h₁, boxes₁, hhead, hsafe₁, hkept₁, hnouns₁, hfar₁⟩ :=
            ih htaken hhed (by omega) hrest
          have hout := fun hin ↦ Finset.notMem_erase _ boxes (hkept₁.sub hin)
          have hnouns₁ := hnouns₁.elsewhere hsafe₁ hout hnormal none
          have hsafe₁ := hsafe₁.elsewhere hout hnormal none
          have hkept₁ := hkept₁.elsewhere hmem none
          have htel₁ := hkept₁.denotes hsafe hsafe₁ htel (hsafe₁.inside List.mem_cons_self)
          obtain ⟨h₂, boxes₂, htail, hsafe₂, hkept₂, hnouns₂, hfar₂⟩ :=
            ih hsafe₁ htel₁ (by omega) hnouns₁
          have hruns : ∀ g g₁ g₂ : Heap, g _ = some _ → lose R fuel hed g = .ok () g₁ →
              lose R fuel tel (Function.update g₁ _ none) = .ok () g₂ →
              lose R (fuel + 1) (.pom _) g = .ok () g₂ :=
            fun g g₁ g₂ hg hg₁ hg₂ ↦ by
              rw [lose_counted fuel hoff hnormal hg hpos, if_neg hmany]
              refine (if_pos rfl).trans ((bind_ok (cellAt_ok hg) _).trans ?_)
              exact (bind_ok hg₁ _).trans ((bind_ok rfl _).trans hg₂)
          refine ⟨h₂, boxes₂, hruns h h₁ h₂ hbox hhead htail, hsafe₂, hkept₁.trans hkept₂, hnouns₂,
            fun off hlarge ↦ ?_⟩
          have hless : nh.size < (val off).size ∧ nt.size < (val off).size := by
            simp only [Noun.size] at hlarge
            omega
          obtain ⟨hsame₁, hin₁, hcomm₁⟩ := hfar₁ off hless.1
          obtain ⟨hsame₂, hin₂, hcomm₂⟩ := hfar₂ off hless.2
          refine ⟨?_, fun hin ↦ hin₂ (hin₁ (hstays off hlarge hin)), fun b ↦ ?_⟩
          · rw [hsame₂, Function.update_of_ne (hne off hlarge), hsame₁]
          · refine hruns _ _ _ (hother off hlarge b) (hcomm₁ b) ?_
            rw [Function.update_comm (hne off hlarge)]
            exact hcomm₂ b

/-! ### Another reference in a field -/

section Redirect

variable {p : Place} {use_w mug_w : ℕ} {hed tel y : Ref}

theorem Place.get_ok (hbox : h p.off = some ⟨use_w, .cell mug_w hed tel⟩) :
    p.get h = .ok (p.arm.pick hed tel) h :=
  bind_ok (cellAt_ok hbox) _

theorem Place.set_ok (hbox : h p.off = some ⟨use_w, .cell mug_w hed tel⟩) (y : Ref) :
    p.set y h = .ok () (Function.update h p.off (some ⟨use_w, p.arm.cell mug_w hed tel y⟩)) :=
  bind_ok (load_ok hbox) _

/-- A reference to an equal noun in a field changes no noun. -/
theorem Denotes.redirect (hbox : h p.off = some ⟨use_w, .cell mug_w hed tel⟩) {m : Noun}
    (hold : Denotes h (p.arm.pick hed tel) m) (hnew : Denotes h y m) (hden : Denotes h r n) :
    Denotes (Function.update h p.off (some ⟨use_w, p.arm.cell mug_w hed tel y⟩)) r n := by
  induction hsize : n.size using Nat.strong_induction_on generalizing r n with
  | _ size ih =>
    cases hden with
    | cat ha => exact .cat ha
    | @pug off _ _ hoff hbox' =>
      have hne : off ≠ p.off := by
        rintro rfl
        rw [hbox] at hbox'
        cases hbox'
      exact .pug hoff (by rw [Function.update_of_ne hne]; exact hbox')
    | @pom off _ _ _ _ nh nt hoff hbox' hhed htel =>
      simp only [Noun.size] at hsize
      by_cases heq : off = p.off
      · subst heq
        rw [hbox] at hbox'
        cases hbox'
        obtain ⟨arm, o⟩ := p
        cases arm with
        | hed =>
          obtain rfl := hold.unique hhed
          exact .pom hoff (Function.update_self ..) (ih _ (by omega) hnew rfl)
            (ih _ (by omega) htel rfl)
        | tel =>
          obtain rfl := hold.unique htel
          exact .pom hoff (Function.update_self ..) (ih _ (by omega) hhed rfl)
            (ih _ (by omega) hnew rfl)
      · exact .pom hoff (by rw [Function.update_of_ne heq]; exact hbox') (ih _ (by omega) hhed rfl)
          (ih _ (by omega) htel rfl)

/-- The counted references of a cell with another reference in it. -/
theorem count_cell (R : Road) (arm : Arm) (mug_w : ℕ) (hed tel y : Ref) (o : ℕ) :
    (offs R (Body.cell mug_w hed tel).refs).count o + (offs R [y]).count o =
      (offs R (arm.cell mug_w hed tel y).refs).count o + (offs R [arm.pick hed tel]).count o := by
  cases arm with
  | hed =>
    show (offs R [hed, tel]).count o + _ = (offs R [y, tel]).count o + (offs R [hed]).count o
    rw [offs_cons hed [tel], offs_cons y [tel], List.count_append, List.count_append]
    omega
  | tel =>
    show (offs R [hed, tel]).count o + _ = (offs R [hed, y]).count o + (offs R [tel]).count o
    rw [offs_cons hed [tel], offs_cons hed [y], List.count_append, List.count_append]
    omega

/-- The program gets the reference that a field had, for the one that it has. -/
theorem Safe.redirect (hsafe : Safe R h boxes (y :: roots))
    (hbox : h p.off = some ⟨use_w, .cell mug_w hed tel⟩) (hknown : Known R boxes p.off)
    (hsenior : R.normal p.off = false → offs R [y] = []) :
    Safe R (Function.update h p.off (some ⟨use_w, p.arm.cell mug_w hed tel y⟩)) boxes
      (p.arm.pick hed tel :: roots) := by
  obtain ⟨h₁, hh₁⟩ : ∃ h₁, h₁ =
    Function.update h p.off (some ⟨use_w, p.arm.cell mug_w hed tel y⟩) :=
    ⟨_, rfl⟩
  have hself : h₁ p.off = some ⟨use_w, p.arm.cell mug_w hed tel y⟩ := by
    rw [hh₁]
    exact Function.update_self ..
  have hother : ∀ off, off ≠ p.off → h₁ off = h off := fun off hne ↦ by
    rw [hh₁]
    exact Function.update_of_ne hne ..
  have huse : useOf h = useOf h₁ := by
    funext off
    by_cases heq : off = p.off
    · rw [heq, useOf_of hbox, useOf_of hself]
    · rw [useOf, useOf, hother off heq]
  have hheld : ∀ off, off ≠ p.off → held R h off = held R h₁ off := fun off hne ↦ by
    rw [held, held, hother off hne]
  have hcount := count_cell R p.arm mug_w hed tel y
  rw [← hh₁]
  refine ⟨hsafe.normal, fun off hin ↦ ?_, fun off box hnormal hoff ↦ ?_, ?_⟩
  · by_cases heq : off = p.off
    · rw [heq, hself]
      exact Option.some_ne_none _
    · rw [hother off heq]
      exact hsafe.live off hin
  · by_cases heq : off = p.off
    · rw [heq, hself] at hoff
      cases hoff
      rw [heq] at hnormal
      refine List.eq_nil_iff_forall_not_mem.mpr fun o ho ↦ ?_
      have hnone := hcount o
      rw [hsafe.senior p.off _ hnormal hbox, hsenior hnormal, List.count_nil] at hnone
      have hpos : 0 < (offs R (p.arm.cell mug_w hed tel y).refs).count o :=
        List.count_pos_iff.mpr ho
      omega
    · rw [hother off heq] at hoff
      exact hsafe.senior off box hnormal hoff
  · have hcounted := hsafe.counted
    rw [offs_cons] at hcounted ⊢
    rw [← huse]
    cases hnormal : R.normal p.off with
    | true =>
      refine hcounted.exchange (hknown hnormal) (fun b _ hne ↦ hheld b hne) fun o ↦ ?_
      rw [held_of hbox, held_of hself]
      exact hcount o
    | false =>
      have hout : ∀ b ∈ boxes, b ≠ p.off := by
        rintro b hb rfl
        rw [hsafe.normal _ hb] at hnormal
        cases hnormal
      have hnone : offs R [p.arm.pick hed tel] = [] := by
        refine List.eq_nil_iff_forall_not_mem.mpr fun o ho ↦ ?_
        have hsame := hcount o
        rw [hsafe.senior p.off _ hnormal hbox, hsenior hnormal, List.count_nil] at hsame
        have hpos := List.count_pos_iff.mpr ho
        omega
      rw [hsenior hnormal] at hcounted
      rw [hnone]
      exact hcounted.congr (fun b hb ↦ hheld b (hout b hb)) fun _ _ ↦ Nat.le_refl _

end Redirect

/-! ### What a step leaves -/

/-- What is never written in a box: the value of an atom, or the mug of a cell. -/
def Body.shape : Body → ℕ ⊕ ℕ
  | .atom val => .inl val
  | .cell mug_w _ _ => .inr mug_w

/-- The boxes that are left denote what they did, and they keep their shapes. Uses of senior boxes
are only gained. -/
structure Unified (R : Road) (h : Heap) (boxes : Finset ℕ) (h' : Heap) (boxes' : Finset ℕ) :
    Prop where
  sub : boxes' ⊆ boxes
  keep : ∀ r n, Denotes h r n → Inside R boxes' r → Denotes h' r n
  shape : ∀ off, Known R boxes' off →
    (h' off).map (Body.shape ∘ Box.body) = (h off).map (Body.shape ∘ Box.body)
  uses : ∀ off, R.normal off = false → useOf h off ≤ useOf h' off

theorem Inside.mono (hsub : boxes' ⊆ boxes) (hin : Inside R boxes' r) : Inside R boxes r :=
  fun off hoff ↦ hsub (hin off hoff)

theorem Unified.refl : Unified R h boxes h boxes :=
  ⟨subset_rfl, fun _ _ hden _ ↦ hden, fun _ _ ↦ rfl, fun _ _ ↦ Nat.le_refl _⟩

theorem Unified.trans {h'' : Heap} {boxes'' : Finset ℕ} (hfirst : Unified R h boxes h' boxes')
    (hsecond : Unified R h' boxes' h'' boxes'') : Unified R h boxes h'' boxes'' where
  sub := hsecond.sub.trans hfirst.sub
  keep r n hden hin := hsecond.keep r n (hfirst.keep r n hden (hin.mono hsecond.sub)) hin
  shape off hknown := (hsecond.shape off hknown).trans (hfirst.shape off (hknown.mono hsecond.sub))
  uses off hnormal := (hfirst.uses off hnormal).trans (hsecond.uses off hnormal)

theorem Body.toRef_eq {body body' : Body} (hshape : body.shape = body'.shape) (off : ℕ) :
    body.toRef off = body'.toRef off := by
  cases body <;> cases body' <;> first | rfl | cases hshape

/-- A box that is left was there before. -/
theorem Unified.before (hunified : Unified R h boxes h' boxes') {box' : Box}
    (hknown : Known R boxes' off) (hbox' : h' off = some box') :
    ∃ box, h off = some box ∧ box.body.shape = box'.body.shape := by
  have hshape := hunified.shape off hknown
  rw [hbox', Option.map_some] at hshape
  exact Option.map_eq_some_iff.mp hshape.symm

theorem Unified.nouns (hunified : Unified R h boxes h' boxes') (hnouns : Nouns R val h boxes) :
    Nouns R val h' boxes' := by
  intro off box' hknown hbox'
  obtain ⟨box, hbox, hshape⟩ := hunified.before hknown hbox'
  have hden := hnouns off box (hknown.mono hunified.sub) hbox
  rw [Body.toRef_eq hshape] at hden
  exact hunified.keep _ _ hden ((inside_iff (box'.body.off_toRef off)).mpr hknown)

/-- Boxes in which nothing but use counts changes. -/
theorem Denotes.same (hsame : ∀ o, Same h h' o) (hden : Denotes h r n) : Denotes h' r n := by
  have hbody : ∀ off box, h off = some box → ∃ use_w, h' off = some ⟨use_w, box.body⟩ :=
    fun off box hbox ↦ by
    have hmap := hsame off
    rw [Same, hbox, Option.map_some] at hmap
    obtain ⟨box', hbox', hbody⟩ := Option.map_eq_some_iff.mp hmap
    exact ⟨box'.use_w, by rw [hbox', ← hbody]⟩
  induction hden with
  | cat ha => exact .cat ha
  | pug hoff hbox =>
    obtain ⟨use_w, hbox'⟩ := hbody _ _ hbox
    exact .pug hoff hbox'
  | pom hoff hbox _ _ ihhed ihtel =>
    obtain ⟨use_w, hbox'⟩ := hbody _ _ hbox
    exact .pom hoff hbox' ihhed ihtel

theorem Unified.of_same (hsame : ∀ o, Same h h' o)
    (huse : ∀ off, R.normal off = false → useOf h off ≤ useOf h' off) :
    Unified R h boxes h' boxes where
  sub := subset_rfl
  keep _ _ hden _ := hden.same hsame
  shape off _ := by
    have hmap := congrArg (Option.map Body.shape) (hsame off)
    rwa [Option.map_map, Option.map_map] at hmap
  uses := huse

/-- Use counts are changed, of senior boxes too. -/
theorem Safe.same {roots' : List Ref} (hsafe : Safe R h boxes roots) (hsame : ∀ o, Same h h' o)
    (hcounted : Counted boxes (held R h) (useOf h') (offs R roots')) : Safe R h' boxes roots' where
  normal := hsafe.normal
  live off hoff := (hsame off).live (hsafe.live off hoff)
  senior off box' hnormal hbox' := by
    have hmap := hsame off
    rw [Same, hbox', Option.map_some] at hmap
    obtain ⟨box, hbox, hbody⟩ := Option.map_eq_some_iff.mp hmap.symm
    rw [← hbody]
    exact hsafe.senior off box hnormal hbox
  counted := hcounted.congr (fun b _ ↦ (hsame b).held_eq) fun _ _ ↦ Nat.le_refl _

theorem Unified.of_kept {roots' : List Ref} (hsafe : Safe R h boxes roots)
    (hsafe' : Safe R h' boxes' roots') (hkept : Kept R h boxes h' boxes') :
    Unified R h boxes h' boxes' where
  sub := hkept.sub
  keep r n hden hin := hkept.denotes hsafe hsafe' hden hin
  shape off hknown := by
    cases hnormal : R.normal off with
    | false => rw [hsafe.fixed hkept hnormal]
    | true =>
      have hmap := congrArg (Option.map Body.shape) (hkept.same off (hknown hnormal))
      rwa [Option.map_map, Option.map_map] at hmap
  uses off hnormal := by
    rw [useOf, useOf, hsafe.fixed hkept hnormal]

/-! ### Unification -/

/-- A reference is in a field. -/
def Holds (h : Heap) (p : Place) (x : Ref) : Prop :=
  ∃ use_w mug_w hed tel, h p.off = some ⟨use_w, .cell mug_w hed tel⟩ ∧ p.arm.pick hed tel = x

theorem Holds.get {p : Place} {x : Ref} (hp : Holds h p x) : p.get h = .ok x h := by
  obtain ⟨use_w, mug_w, hed, tel, hbox, rfl⟩ := hp
  exact Place.get_ok hbox

theorem Holds.same {p : Place} {x : Ref} (hsame : ∀ o, Same h h' o) (hp : Holds h p x) :
    Holds h' p x := by
  obtain ⟨use_w, mug_w, hed, tel, hbox, hpick⟩ := hp
  have hmap := hsame p.off
  rw [Same, hbox, Option.map_some] at hmap
  obtain ⟨⟨use_w', body⟩, hbox', rfl⟩ := Option.map_eq_some_iff.mp hmap
  exact ⟨use_w', mug_w, hed, tel, hbox', hpick⟩

/-- A reference in a field is given up for one to an equal noun, and the boxes of larger nouns stay.
-/
theorem giveUp_runs {fuel : ℕ} {own_t : Bool} {p : Place} {x y : Ref} {m : Noun}
    (hsafe : Safe R h boxes (y :: roots)) (hnouns : Nouns R val h boxes) (hp : Holds h p x)
    (hknown : Known R boxes p.off) (hold : Denotes h x m) (hnew : Denotes h y m)
    (hsenior : R.normal p.off = false → offs R [y] = []) (hlarge : m.size < (val p.off).size)
    (hfuel : m.size ≤ fuel) (hown : own_t = false → offs R [x] = []) :
    ∃ h' boxes', p.giveUp R fuel own_t y h = .ok () h' ∧ Safe R h' boxes' roots ∧
      Unified R h boxes h' boxes' ∧
      ∀ off ∈ boxes, m.size < (val off).size → off ∈ boxes' := by
  obtain ⟨use_w, mug_w, hed, tel, hbox, rfl⟩ := hp
  obtain ⟨box, hbody⟩ : ∃ box : Box, box = ⟨use_w, p.arm.cell mug_w hed tel y⟩ := ⟨_, rfl⟩
  have hsafe₁ := hsafe.redirect hbox hknown hsenior
  rw [← hbody] at hsafe₁
  have hkeep : ∀ r n, Denotes h r n → Denotes (Function.update h p.off (some box)) r n :=
    fun r n hden ↦ by
    rw [hbody]
    exact Denotes.redirect hbox hold hnew hden
  have hunified : Unified R h boxes (Function.update h p.off (some box)) boxes := by
    refine ⟨subset_rfl, fun r n hden _ ↦ hkeep r n hden, fun off _ ↦ ?_, fun off _ ↦ ?_⟩
    · by_cases heq : off = p.off
      · rw [heq, Function.update_self, hbox, hbody]
        cases p.arm <;> rfl
      · rw [Function.update_of_ne heq]
    · by_cases heq : off = p.off
      · rw [heq, useOf_update, useOf_of hbox, hbody]
      · rw [useOf_update_ne heq]
  have hset : ∀ g : Heap, g p.off = some ⟨use_w, .cell mug_w hed tel⟩ →
      p.set y g = .ok () (Function.update g p.off (some box)) := fun g hg ↦ by
    rw [Place.set_ok hg y, hbody]
  unfold Place.giveUp
  rw [bind_ok (Place.get_ok hbox)]
  cases own_t with
  | false =>
    refine ⟨_, boxes, (bind_ok rfl _).trans (hset h hbox), hsafe₁.uncounted ?_, hunified,
      fun off hin _ ↦ hin⟩
    rw [offs_cons, hown rfl, List.nil_append]
  | true =>
    -- the reference is lost before the field is written, which comes to the same
    obtain ⟨h', boxes', hlose, hsafe', hkept, -, hfar⟩ :=
      lose_far fuel hsafe₁ (hkeep _ _ hold) hfuel (hunified.nouns hnouns)
    obtain ⟨hself, -, hcomm⟩ := hfar p.off hlarge
    have hbefore := hcomm (some ⟨use_w, .cell mug_w hed tel⟩)
    rw [Function.update_idem, ← hbox, Function.update_eq_self] at hbefore
    rw [Function.update_self] at hself
    have hthen := hset (Function.update h' p.off (h p.off)) (by rw [Function.update_self, hbox])
    refine ⟨h', boxes', (bind_ok hbefore _).trans (hthen.trans ?_), hsafe',
      hunified.trans (.of_kept hsafe₁ hsafe' hkept), fun off hin hless ↦ (hfar off hless).2.1 hin⟩
    rw [Function.update_idem, ← hself, Function.update_eq_self]

theorem gainUse_runs (hsafe : Safe R h boxes roots) (hin : Inside R boxes r) {box : Box}
    (hoff : r.off = some off) (hbox : h off = some box) (hpos : 0 < box.use_w) :
    (∃ h', gainUse r h = .ok () h' ∧ Safe R h' boxes (r :: roots) ∧ (∀ o, Same h h' o) ∧
      ∀ o, useOf h o ≤ useOf h' o) ∨ gainUse r h = .error .fail h ∧ box.use_w = 0x7fffffff := by
  rw [gainUse, hoff]
  dsimp only
  rw [bind_ok (load_ok hbox)]
  by_cases hfull : box.use_w = 0x7fffffff
  · rw [if_pos hfull]
    exact .inr ⟨rfl, hfull⟩
  · rw [if_neg hfull, if_neg (Nat.pos_iff_ne_zero.mp hpos)]
    have hsame : ∀ o, Same h (Function.update h off (some ⟨box.use_w + 1, box.body⟩)) o :=
      same_update hbox rfl
    have huse : ∀ o, useOf h o ≤ useOf (Function.update h off (some ⟨box.use_w + 1, box.body⟩)) o :=
      fun o ↦ by
      by_cases heq : o = off
      · rw [heq, useOf_of hbox, useOf_update]
        exact Nat.le_succ _
      · rw [useOf_update_ne heq]
    refine .inl ⟨_, rfl, hsafe.same hsame ?_, hsame, huse⟩
    rw [offs_cons]
    cases hnormal : R.normal off with
    | false =>
      rw [offs_senior hoff hnormal]
      exact hsafe.counted.congr (fun _ _ ↦ rfl) fun o _ ↦ huse o
    | true =>
      rw [offs_some hoff hnormal]
      refine hsafe.counted.gain ((inside_iff hoff).mp hin hnormal) (fun o _ _ ↦ huse o) ?_
      rw [useOf_of hbox, useOf_update]

/-- What unification of references to `m` does: no box of a larger noun is freed, and use counts are
raised by one at most. -/
structure Unifies (R : Road) (val : ℕ → Noun) (m : Noun) (roots : List Ref) (h : Heap)
    (boxes : Finset ℕ) (h' : Heap) (boxes' : Finset ℕ) : Prop where
  safe : Safe R h' boxes' roots
  unified : Unified R h boxes h' boxes'
  spares : ∀ off ∈ boxes, m.size < (val off).size → off ∈ boxes'
  raises : Raises 1 h h'

/-- Boxes of senior roads are used. -/
def Used (R : Road) (h : Heap) : Prop :=
  ∀ off box, R.normal off = false → h off = some box → 0 < box.use_w

/-- The use count of a box of `m` cannot be raised. -/
def Full (h : Heap) (m : Noun) : Prop :=
  ∃ r off box, Denotes h r m ∧ r.off = some off ∧ h off = some box ∧ box.use_w = 0x7fffffff

section Wed

variable {fuel : ℕ} {own_t : Bool} {rod_u : Level} {p q : Place} {x y : Ref} {m : Noun}

theorem Holds.mem (hp : Holds h p x) :
    ∃ box, h p.off = some box ∧ x ∈ box.body.refs ∧ box.body.toRef p.off = .pom p.off := by
  obtain ⟨use_w, mug_w, hed, tel, hbox, rfl⟩ := hp
  refine ⟨_, hbox, ?_, rfl⟩
  show _ ∈ [hed, tel]
  cases p.arm
  · exact List.mem_cons_self
  · exact List.mem_cons_of_mem _ List.mem_cons_self

theorem Holds.inside (hp : Holds h p x) (hsafe : Safe R h boxes roots)
    (hknown : Known R boxes p.off) :
    Inside R boxes x ∧ ∀ o ∈ offs R [x], 0 < useOf h o := by
  obtain ⟨box, hbox, hmem, -⟩ := hp.mem
  exact hsafe.inside_refs ((inside_iff rfl).mpr hknown) hbox hmem

theorem Holds.senior (hp : Holds h p x) (hsafe : Safe R h boxes roots)
    (hnormal : R.normal p.off = false) :
    offs R [x] = [] := by
  obtain ⟨box, hbox, hmem, -⟩ := hp.mem
  have hnone := hsafe.senior p.off box hnormal hbox
  obtain ⟨pre, post, hsplit⟩ := List.append_of_mem hmem
  rw [hsplit, offs_append, offs_cons] at hnone
  exact (List.append_eq_nil_iff.mp (List.append_eq_nil_iff.mp hnone).2).1

theorem isSenior_iff (hroad : ∀ off, R.normal off = !rod_u.senior off) :
    rod_u.isSenior r = true ↔ offs R [r] = [] := by
  cases hoff : r.off with
  | none =>
    rw [offs_none hoff]
    cases r with
    | cat a => exact ⟨fun _ ↦ rfl, fun _ ↦ rfl⟩
    | pug off => cases hoff
    | pom off => cases hoff
  | some off =>
    have hsame : rod_u.isSenior r = rod_u.senior off := by
      cases r with
      | cat a => cases hoff
      | pug o => exact congrArg rod_u.senior (Option.some.inj hoff)
      | pom o => exact congrArg rod_u.senior (Option.some.inj hoff)
    rw [hsame]
    cases hsenior : rod_u.senior off with
    | false =>
      rw [offs_some hoff (by rw [hroad, hsenior]; rfl)]
      exact ⟨nofun, nofun⟩
    | true =>
      rw [offs_senior hoff (by rw [hroad, hsenior]; rfl)]
      exact ⟨fun _ ↦ rfl, fun _ ↦ rfl⟩

theorem off_of_junior (hjunior : rod_u.isSenior r = false) : ∃ off, r.off = some off := by
  cases r with
  | cat a => cases hjunior
  | pug off => exact ⟨off, rfl⟩
  | pom off => exact ⟨off, rfl⟩

/-- The reference in `q` is kept, and the one in `p` is given up for it. -/
theorem gain_giveUp_runs (hsafe : Safe R h boxes roots) (hnouns : Nouns R val h boxes)
    (hused : Used R h) (hp : Holds h p x) (hq : Holds h q y) (hkp : Known R boxes p.off)
    (hkq : Known R boxes q.off) (hx : Denotes h x m) (hy : Denotes h y m)
    (hlarge : m.size < (val p.off).size) (hfuel : m.size ≤ fuel)
    (hsenior : R.normal p.off = false → offs R [y] = []) (hown : own_t = false → offs R [x] = [])
    (hoff : ∃ off, y.off = some off) :
    (∃ h' boxes', (do gainUse y; p.giveUp R fuel own_t y; pure true) h = .ok true h' ∧
      Unifies R val m roots h boxes h' boxes') ∨
      (do gainUse y; p.giveUp R fuel own_t y; pure true : M Bool) h = .error .fail h ∧
      Full h m := by
  obtain ⟨off, hoff⟩ := hoff
  obtain ⟨box, hbox⟩ := hy.box hoff
  obtain ⟨hin, hpos⟩ := hq.inside hsafe hkq
  have huse : 0 < box.use_w := by
    cases hnormal : R.normal off with
    | false => exact hused off box hnormal hbox
    | true =>
      have huse := hpos off (by rw [offs_some hoff hnormal]; exact List.mem_singleton_self off)
      rwa [useOf_of hbox] at huse
  rcases gainUse_runs hsafe hin hoff hbox huse with ⟨h₁, hgain, hsafe₁, hsame, huses⟩ |
    ⟨hfail, hfull⟩
  · have hunified₁ : Unified R h boxes h₁ boxes := .of_same hsame fun o _ ↦ huses o
    obtain ⟨h', boxes', hgive, hsafe', hunified, hspares⟩ :=
      giveUp_runs hsafe₁ (hunified₁.nouns hnouns) (hp.same hsame) hkp (hx.same hsame)
      (hy.same hsame) hsenior hlarge
        hfuel hown
    have hraises₁ := Raising.gainUse y h
    have hraises := Raising.giveUp R fuel own_t p y h₁
    rw [hgain] at hraises₁
    rw [hgive] at hraises
    exact .inl ⟨h', boxes', (bind_ok hgain _).trans (bind_ok hgive _), hsafe',
      hunified₁.trans hunified, hspares, hraises₁.trans hraises⟩
  · exact .inr ⟨bind_error hfail _, y, off, box, hy, hoff, hbox, hfull⟩

/-- What a road is to `u3a_wed()`: its own road, or one that both references are senior to. -/
def Tries (R : Road) (own_t : Bool) (rod_u : Level) (x y : Ref) : Prop :=
  if own_t then ∀ off, R.normal off = !rod_u.senior off else offs R [x] = [] ∧ offs R [y] = []

theorem wedWho_eq (hp : Holds h p x) (hq : Holds h q y) :
    wedWho R fuel own_t rod_u p q h =
      match rod_u.isSenior x, rod_u.isSenior y with
      | false, false =>
        if decide (y.word < x.word) = rod_u.north then
          (do gainUse x; q.giveUp R fuel own_t x; pure true : M Bool) h
        else (do gainUse y; p.giveUp R fuel own_t y; pure true : M Bool) h
      | false, true => (do p.giveUp R fuel own_t y; pure true : M Bool) h
      | true, false => (do q.giveUp R fuel own_t x; pure true : M Bool) h
      | true, true => .ok false h := by
  unfold wedWho
  rw [bind_ok hp.get, bind_ok hq.get]
  cases rod_u.isSenior x <;> cases rod_u.isSenior y
  · show (ite (decide (y.word < x.word) = rod_u.north) _ _ : M Bool) h =
      ite (decide (y.word < x.word) = rod_u.north) _ _
    by_cases hdeep : decide (y.word < x.word) = rod_u.north
    · rw [if_pos hdeep, if_pos hdeep]
    · rw [if_neg hdeep, if_neg hdeep]
  · rfl
  · rfl
  · rfl

theorem wedWho_runs (hsafe : Safe R h boxes roots) (hnouns : Nouns R val h boxes)
    (hused : Used R h) (hp : Holds h p x) (hq : Holds h q y) (hkp : Known R boxes p.off)
    (hkq : Known R boxes q.off) (hx : Denotes h x m) (hy : Denotes h y m)
    (hlp : m.size < (val p.off).size) (hlq : m.size < (val q.off).size) (hfuel : m.size ≤ fuel)
    (hroad : Tries R own_t rod_u x y) :
    (∃ h' boxes', wedWho R fuel own_t rod_u p q h = .ok true h' ∧
        Unifies R val m roots h boxes h' boxes') ∨
      (wedWho R fuel own_t rod_u p q h = .ok false h ∧ offs R [x] = [] ∧ offs R [y] = []) ∨
      (wedWho R fuel own_t rod_u p q h = .error .fail h ∧ Full h m) := by
  -- a reference that is given up for a senior one is counted only on the road itself
  have hsenior : ∀ z, rod_u.isSenior z = true → (own_t = true ∨ offs R [z] = []) →
    offs R [z] = [] := fun z hz hor ↦ by
    rcases hor with rfl | hnone
    · exact (isSenior_iff hroad).mp hz
    · exact hnone
  have hjunior : ∀ (q : Place) (z w : Ref), Holds h q z → rod_u.isSenior z = false →
    (own_t = false → offs R [w] = []) →
      R.normal q.off = false → offs R [w] = [] := fun q z w hqz hz hor hnormal ↦ by
    cases own_t with
    | false => exact hor rfl
    | true =>
      have hnone := (isSenior_iff hroad).mpr (hqz.senior hsafe hnormal)
      rw [hz] at hnone
      cases hnone
  have hnone : own_t = false → offs R [x] = [] ∧ offs R [y] = [] := by
    rintro rfl
    exact hroad
  have hgive : ∀ {p : Place} {x y : Ref}, Holds h p x → Known R boxes p.off → Denotes h x m →
    Denotes h y m →
      m.size < (val p.off).size → offs R [y] = [] → (own_t = false → offs R [x] = []) →
      ∃ h' boxes', (do p.giveUp R fuel own_t y; pure true : M Bool) h = .ok true h' ∧
        Unifies R val m roots h boxes h' boxes' := fun {p x y} hp hkp hx hy hlp hy' hx' ↦ by
    have hsafe₁ : Safe R h boxes (y :: roots) :=
      hsafe.uncounted (by rw [offs_cons, hy', List.nil_append])
    obtain ⟨h', boxes', hgive, hsafe', hunified, hspares⟩ :=
      giveUp_runs hsafe₁ hnouns hp hkp hx hy (fun _ ↦ hy') hlp hfuel hx'
    have hraises := Raising.giveUp R fuel own_t p y h
    rw [hgive] at hraises
    exact ⟨h', boxes', bind_ok hgive _, hsafe', hunified, hspares, hraises.mono (Nat.zero_le 1)⟩
  rw [wedWho_eq hp hq]
  cases hsx : rod_u.isSenior x <;> cases hsy : rod_u.isSenior y
  · by_cases hdeep : decide (y.word < x.word) = rod_u.north
    · have hruns := gain_giveUp_runs hsafe hnouns hused hq hp hkq hkp hy hx hlq hfuel
        (hjunior q y x hq hsy fun hown ↦ (hnone hown).1) (fun hown ↦ (hnone hown).2)
          (off_of_junior hsx)
      dsimp only
      rw [if_pos hdeep]
      exact hruns.imp id .inr
    · have hruns := gain_giveUp_runs hsafe hnouns hused hp hq hkp hkq hx hy hlp hfuel
        (hjunior p x y hp hsx fun hown ↦ (hnone hown).2) (fun hown ↦ (hnone hown).1)
          (off_of_junior hsy)
      dsimp only
      rw [if_neg hdeep]
      exact hruns.imp id .inr
  · refine .inl (hgive hp hkp hx hy hlp (hsenior y hsy ?_) fun hown ↦ (hnone hown).1)
    cases own_t
    · exact .inr (hnone rfl).2
    · exact .inl rfl
  · refine .inl (hgive hq hkq hy hx hlq (hsenior x hsx ?_) fun hown ↦ (hnone hown).2)
    cases own_t
    · exact .inr (hnone rfl).1
    · exact .inl rfl
  · refine .inr (.inl ⟨rfl, ?_⟩)
    cases own_t
    · exact hnone rfl
    · exact ⟨hsenior x hsx (.inl rfl), hsenior y hsy (.inl rfl)⟩

theorem wedOn_runs (rods : List Level) (hsafe : Safe R h boxes roots)
    (hnouns : Nouns R val h boxes) (hused : Used R h) (hp : Holds h p x) (hq : Holds h q y)
    (hkp : Known R boxes p.off) (hkq : Known R boxes q.off) (hx : Denotes h x m)
    (hy : Denotes h y m) (hlp : m.size < (val p.off).size) (hlq : m.size < (val q.off).size)
    (hfuel : m.size ≤ fuel) (hroad : ∀ rod_u ∈ rods.head?, Tries R own_t rod_u x y) :
    (∃ h' boxes', wedOn R fuel own_t rods p q h = .ok () h' ∧
    Unifies R val m roots h boxes h' boxes') ∨
      (wedOn R fuel own_t rods p q h = .error .fail h ∧ Full h m) := by
  induction rods generalizing own_t with
  | nil => exact .inl ⟨h, boxes, rfl, hsafe, .refl, fun _ hin _ ↦ hin, .refl⟩
  | cons rod_u par ih =>
    rw [wedOn]
    rcases wedWho_runs hsafe hnouns hused hp hq hkp hkq hx hy hlp hlq hfuel (hroad rod_u rfl) with
      ⟨h', boxes', hwho, hunifies⟩ | ⟨hwho, hnone⟩ | ⟨hwho, hfull⟩
    · exact .inl ⟨h', boxes', bind_ok hwho _, hunifies⟩
    · rw [bind_ok hwho]
      refine ih fun rod_u _ ↦ ?_
      unfold Tries
      rwa [if_neg Bool.false_ne_true]
    · exact .inr ⟨bind_error hwho _, hfull⟩

/-- `u3a_wed()` leaves every noun as it is, and frees no box of a larger noun. -/
theorem wed_runs {rods : List Level} (hsafe : Safe R h boxes roots) (hnouns : Nouns R val h boxes)
    (hused : Used R h) (hp : Holds h p x) (hq : Holds h q y) (hkp : Known R boxes p.off)
    (hkq : Known R boxes q.off) (hx : Denotes h x m) (hy : Denotes h y m)
    (hlp : m.size < (val p.off).size) (hlq : m.size < (val q.off).size) (hfuel : m.size ≤ fuel)
    (hroad : ∀ rod_u ∈ rods.head?, ∀ off, R.normal off = !rod_u.senior off) :
    (∃ h' boxes', wed R fuel rods p q h = .ok () h' ∧ Unifies R val m roots h boxes h' boxes') ∨
      (wed R fuel rods p q h = .error .fail h ∧ Full h m) := by
  unfold wed
  rw [bind_ok hp.get, bind_ok hq.get]
  by_cases heq : x = y
  · rw [if_pos heq]
    exact .inl ⟨h, boxes, rfl, hsafe, .refl, fun _ hin _ ↦ hin, .refl⟩
  · rw [if_neg heq]
    exact wedOn_runs rods hsafe hnouns hused hp hq hkp hkq hx hy hlp hlq hfuel fun rod_u hmem ↦
      hroad rod_u hmem

end Wed

end Vere.Noun.Shared
