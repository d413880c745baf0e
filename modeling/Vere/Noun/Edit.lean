import Vere.Noun.Axis
import Vere.Noun.Shared

/-!
# Editing a noun

`u3i_edit()` of `pkg/noun/imprison.c`. Where a cell on the way has one use it is overwritten
(`mutateCat`, `mutate`), and from the first cell on that has more, the cells of the way are copied
(`editCat`, `edit`). One level of each is `overwrite` and `copy`, for either side of the cell.

`edit_replaces` is what both do: the result denotes the noun with another one at the axis, no other
reference of the program notices, and no mug is left that is wrong.
-/

set_option autoImplicit false

namespace Vere.Noun.Shared

open Vere.Noun.Nock (mas cap path slot slotAt editAt)

/-! ### The program -/

/-- `u3x_dep`. -/
def xDep (a_w : ℕ) : ℕ := a_w.size - 1

/-- `u3x_cap`. -/
def xCap (a_w : ℕ) : ℕ := 2 ||| a_w >>> (xDep a_w - 1)

/-- `u3x_mas`, on a word. -/
def xMas (a_w : ℕ) : ℕ := a_w &&& (2 ^ 32 - (1 <<< xDep a_w + 1)) ||| 1 <<< (xDep a_w - 1)

/-- `u3qc_mas()`, or its bail. -/
def qcMas (a : ℕ) : M ℕ := fun h ↦
  match mas (.atom a) with
  | .ok mor => .ok mor h
  | .error _ => .error .fail h

/-- `u3qc_cap()`, or its bail. -/
def qcCap (a : ℕ) : M ℕ := fun h ↦
  match cap (.atom a) with
  | .ok side => .ok side h
  | .error _ => .error .fail h

/-- `u3h` and `u3t`. -/
def side (tel : Bool) (som : Ref) : M Ref := if tel then u3t som else u3h som

/-- `&(cel_u->hed)` and `&(cel_u->tel)`, assigned to. -/
def setSide (tel : Bool) (off : ℕ) (new : Ref) : M Unit := do
  let box ← load off
  match box.body with
  | .cell mug_w hed_n tel_n =>
    store off { box with body := if tel then .cell mug_w hed_n new else .cell mug_w new tel_n }
  | .atom _ => throw .fault

/-- `cel_u->mug_w`, assigned to. -/
def setMug (off mug_w : ℕ) : M Unit := do
  let box ← load off
  match box.body with
  | .cell _ hed tel => store off { box with body := .cell mug_w hed tel }
  | .atom _ => throw .fault

/-- One level of `_edit()`: `new` computes one side of the new cell. The source leaves open which of
the two arguments of `u3nc` is computed first; here it is `new`. -/
def copy (R : Road) (fuel : ℕ) (tel : Bool) (big : Ref) (new : M Ref) : M Ref := do
  let new ← new
  let old ← side (!tel) big
  let old ← gain R old
  let pro ← (if tel then u3nc R old new else u3nc R new old)
  lose R fuel big
  pure pro

/-- `_edit_cat()`. -/
def editCat (R : Road) : ℕ → Ref → ℕ → Ref → M Ref
  | 0, _, _, _ => throw .spent
  | fuel + 1, big, axe_l, som =>
    if u3du big then
      let more (tel : Bool) : M Ref := do
        let old ← side tel big
        let old ← gain R old
        editCat R fuel old (xMas axe_l) som
      if axe_l = 2 then copy R (fuel + 1) false big (pure som)
      else if axe_l = 3 then copy R (fuel + 1) true big (pure som)
      else if xCap axe_l = 2 then copy R (fuel + 1) false big (more false)
      else copy R (fuel + 1) true big (more true)
    else throw .exit

/-- `_edit()`. -/
def edit (R : Road) : ℕ → Ref → ℕ → Ref → M Ref
  | 0, _, _, _ => throw .spent
  | fuel + 1, big, axe, som =>
    if axe < 2 ^ 31 then editCat R (fuel + 1) big axe som
    else if u3du big then do
      let mor ← qcMas axe
      let cap ← qcCap axe
      let more (tel : Bool) : M Ref := do
        let old ← side tel big
        let old ← gain R old
        edit R fuel old mor som
      if cap = 2 then copy R (fuel + 1) false big (more false)
      else copy R (fuel + 1) true big (more true)
    else throw .exit

/-- One level of `_mutate()`: `new` computes one side of the cell. -/
def overwrite (tel : Bool) (off : ℕ) (new : M Ref) : M Unit := do
  let new ← new
  setSide tel off new
  setMug off 0

/-- The choice that `_edit_or_mutate_cat()` and `_edit_or_mutate()` make. -/
def editOr (R : Road) (mutate : M Unit) (edit : M Ref) (big : Ref) : M Ref := do
  let mutable ← isMutable R big
  if mutable then do
    mutate
    pure big
  else edit

/-- `_mutate_cat()`. -/
def mutateCat (R : Road) : ℕ → Ref → ℕ → Ref → M Unit
  | 0, _, _, _ => throw .spent
  | fuel + 1, big, axe_l, som =>
    match big with
    | .pom off =>
      let last (tel : Bool) : M Ref := do
        let old ← side tel big
        lose R (fuel + 1) old
        pure som
      let more (tel : Bool) : M Ref := do
        let tar ← side tel big
        editOr R (mutateCat R fuel tar (xMas axe_l) som) (editCat R fuel tar (xMas axe_l) som) tar
      if axe_l = 2 then overwrite false off (last false)
      else if axe_l = 3 then overwrite true off (last true)
      else if xCap axe_l = 2 then overwrite false off (more false)
      else overwrite true off (more true)
    | _ => throw .exit

/-- `_edit_or_mutate()`, which `mutate` calls. -/
def editOrMutate (R : Road) (mutate : Ref → ℕ → Ref → M Unit) (fuel : ℕ) (big : Ref) (axe : ℕ)
    (som : Ref) : M Ref :=
  if axe < 2 ^ 31 then editOr R (mutateCat R fuel big axe som) (editCat R fuel big axe som) big
  else editOr R (mutate big axe som) (edit R fuel big axe som) big

/-- `_mutate()`. -/
def mutate (R : Road) : ℕ → Ref → ℕ → Ref → M Unit
  | 0, _, _, _ => throw .spent
  | fuel + 1, big, axe, som =>
    if axe < 2 ^ 31 then mutateCat R (fuel + 1) big axe som
    else
      match big with
      | .pom off => do
        let mor ← qcMas axe
        let cap ← qcCap axe
        let more (tel : Bool) : M Ref := do
          let tar ← side tel big
          editOrMutate R (mutate R fuel) fuel tar mor som
        if cap = 2 then overwrite false off (more false)
        else overwrite true off (more true)
      | _ => throw .exit

/-- `u3i_edit()`. -/
def u3iEdit (R : Road) (fuel : ℕ) (big : Ref) (axe : ℕ) (som : Ref) : M Ref :=
  if axe = 0 then throw .exit
  else if axe = 1 then do
    lose R fuel big
    pure som
  else editOrMutate R (mutate R fuel) fuel big axe som

/-! ### What an edit leaves -/

variable {R : Road} {h h' h'' : Heap} {boxes boxes' boxes'' : Finset ℕ} {r som : Ref}
  {roots roots' : List Ref}

/-- Cells of the road that are left either hold and denote what they did, or have no mug; other
boxes in use do not change. -/
structure Frame (R : Road) (h : Heap) (boxes : Finset ℕ) (h' : Heap) (boxes' : Finset ℕ) :
    Prop where
  made : ∀ off ∈ boxes', off ∈ boxes ∨ h off = none
  outside : ∀ off ∉ boxes, h off ≠ none → h' off = h off
  fixed : ∀ off, R.normal off = false → h' off = h off
  cells : ∀ off ∈ boxes', ∀ use_w mug_w hed tel, h' off = some ⟨use_w, .cell mug_w hed tel⟩ →
    mug_w = 0 ∨ off ∈ boxes ∧ Same h h' off ∧ ∀ n, Denotes h (.pom off) n → Denotes h' (.pom off) n

theorem Frame.trans (hfirst : Frame R h boxes h' boxes') (hsecond : Frame R h' boxes' h'' boxes'') :
    Frame R h boxes h'' boxes'' where
  made off hoff := by
    by_cases hin : off ∈ boxes
    · exact Or.inl hin
    · right
      by_contra hlive
      obtain hin' | hfree := hsecond.made off hoff
      · exact (hfirst.made off hin').elim hin hlive
      · rw [hfirst.outside off hin hlive] at hfree
        exact hlive hfree
  outside off hoff hlive := by
    have hsame := hfirst.outside off hoff hlive
    have hout : off ∉ boxes' := fun hin ↦ (hfirst.made off hin).elim hoff hlive
    rw [hsecond.outside off hout (by rwa [hsame]), hsame]
  fixed off hoff := (hsecond.fixed off hoff).trans (hfirst.fixed off hoff)
  cells off hoff use_w mug_w hed tel hcell := by
    obtain hzero | ⟨hin, hsame, hden⟩ := hsecond.cells off hoff use_w mug_w hed tel hcell
    · exact Or.inl hzero
    · have hmap := hsame
      rw [Same, hcell] at hmap
      obtain ⟨⟨use_w', body⟩, hcell', rfl⟩ := Option.map_eq_some_iff.mp hmap.symm
      obtain hzero | ⟨hin', hsame', hden'⟩ := hfirst.cells off hin use_w' mug_w hed tel hcell'
      · exact Or.inl hzero
      · exact Or.inr ⟨hin', hsame.trans hsame', fun n hn ↦ hden n (hden' n hn)⟩

theorem inside_pom {off : ℕ} (hoff : off ∈ boxes) : Inside R boxes (.pom off) := by
  intro o ho
  cases hnormal : R.normal off with
  | false =>
    rw [offs_senior rfl hnormal] at ho
    cases ho
  | true =>
    rw [offs_some rfl hnormal] at ho
    rwa [List.mem_singleton.mp ho]

/-- Gaining and losing make such a frame. -/
theorem Frame.of_kept (hkept : Kept R h boxes h' boxes') (hsafe : Safe R h boxes roots)
    (hsafe' : Safe R h' boxes' roots') : Frame R h boxes h' boxes' where
  made _ hoff := Or.inl (hkept.sub hoff)
  outside off hoff _ := hkept.outside off hoff
  fixed _ hoff := hsafe.fixed hkept hoff
  cells off hoff _ _ _ _ _ := Or.inr ⟨hkept.sub hoff, hkept.same off hoff,
    fun _ hn ↦ hkept.denotes hsafe hsafe' hn (inside_pom hoff)⟩

/-- So does a new cell. -/
theorem Frame.of_new {off use_w : ℕ} {hed tel : Ref} (hsafe : Safe R h boxes roots)
    (hoff : off ∉ boxes) (hnormal : R.normal off = true) (hfree : h off = none) :
    Frame R h boxes (Function.update h off (some ⟨use_w, .cell 0 hed tel⟩)) (insert off boxes) where
  made o ho := by
    obtain rfl | ho := Finset.mem_insert.mp ho
    · exact Or.inr hfree
    · exact Or.inl ho
  outside o _ hlive := by
    refine Function.update_of_ne ?_ _ _
    rintro rfl
    exact hlive hfree
  fixed o ho := by
    refine Function.update_of_ne ?_ _ _
    rintro rfl
    rw [hnormal] at ho
    cases ho
  cells o ho use_w' mug_w hed' tel' hcell := by
    obtain rfl | ho := Finset.mem_insert.mp ho
    · rw [Function.update_self] at hcell
      cases hcell
      exact Or.inl rfl
    · have hne : o ≠ off := fun heq ↦ hoff (heq ▸ ho)
      exact Or.inr ⟨ho, by rw [Same, Function.update_of_ne hne],
        fun n hn ↦ hsafe.denotes_put hoff hnormal _ hn (inside_pom ho)⟩

variable {use_w : ℕ} {p n : Noun} {tel : Bool} {way : List Bool} {o : Option Noun}

/-- A cell that was taken out and is put back with no mug. -/
theorem Frame.put_back {off : ℕ} {hed tel : Ref} (hframe : Frame R h (boxes.erase off) h' boxes')
    (hsafe' : Safe R h' boxes' roots) (hin : off ∈ boxes) (hout : off ∉ boxes')
    (hnormal : R.normal off = true) :
    Frame R h boxes (Function.update h' off (some ⟨use_w, .cell 0 hed tel⟩))
      (insert off boxes') where
  made o ho := by
    obtain rfl | ho := Finset.mem_insert.mp ho
    · exact Or.inl hin
    · exact (hframe.made o ho).imp_left Finset.mem_of_mem_erase
  outside o ho hlive := by
    have hne : o ≠ off := fun heq ↦ ho (heq ▸ hin)
    rw [Function.update_of_ne hne]
    exact hframe.outside o (fun herase ↦ ho (Finset.mem_of_mem_erase herase)) hlive
  fixed o ho := by
    have hne : o ≠ off := by
      rintro rfl
      rw [hnormal] at ho
      cases ho
    rw [Function.update_of_ne hne]
    exact hframe.fixed o ho
  cells o ho use_w' mug_w hed' tel' hcell := by
    obtain rfl | ho := Finset.mem_insert.mp ho
    · rw [Function.update_self] at hcell
      cases hcell
      exact Or.inl rfl
    · have hne : o ≠ off := fun heq ↦ hout (heq ▸ ho)
      rw [Function.update_of_ne hne] at hcell
      obtain hzero | ⟨herase, hsame, hden⟩ := hframe.cells o ho use_w' mug_w hed' tel' hcell
      · exact Or.inl hzero
      · refine Or.inr ⟨Finset.mem_of_mem_erase herase, ?_, fun n hn ↦ ?_⟩
        · rw [Same, Function.update_of_ne hne]
          exact hsame
        · exact hsafe'.denotes_put hout hnormal _ (hden n hn) (inside_pom ho)

/-- The heap is full, or a use count is at its highest. -/
def Exhausted (R : Road) : EStateM.Result Bail Heap Ref → Prop
  | .ok _ _ => False
  | .error why h => why = .meme ∧ R.celloc h = none ∨ why = .fail ∧ Saturated h

/-- A program that has taken over its arguments and returns a reference to noun `p`. -/
def Yields (R : Road) (h : Heap) (boxes : Finset ℕ) (roots : List Ref) (p : Noun)
    (res : EStateM.Result Bail Heap Ref) : Prop :=
  ∃ r h' boxes', res = .ok r h' ∧ Safe R h' boxes' (r :: roots) ∧ Denotes h' r p ∧
    Frame R h boxes h' boxes' ∧
    ∀ r' ∈ roots, ∀ n, Denotes h r' n → Denotes h' r' n

/-- How a program ends that computes `p`, or bails without a change of any box if there is none. -/
def Outcome (R : Road) (h : Heap) (boxes : Finset ℕ) (roots : List Ref) :
    Option Noun → EStateM.Result Bail Heap Ref → Prop
  | some p, res => Yields R h boxes roots p res ∨ Exhausted R res
  | none, res => ∃ why h', res = .error why h' ∧ (why = .exit ∨ why = .fail) ∧ ∀ off, Same h h' off

/-! ### One level -/

/-- A cell with another noun on one side. -/
def withSide (tel : Bool) (nh nt n : Noun) : Noun := if tel then .cell nh n else .cell n nt

theorem editAt_cons (tel : Bool) (way : List Bool) (v nh nt : Noun) :
    editAt (tel :: way) v (.cell nh nt) =
      (editAt way v (if tel then nt else nh)).map (withSide tel nh nt) := by
  cases tel <;> rfl

theorem side_size (tel : Bool) (nh nt : Noun) :
    (if tel then nt else nh).size < (Noun.cell nh nt).size := by
  simp only [Noun.size]
  cases tel
  · show nh.size < _
    omega
  · show nt.size < _
    omega

/-- The fields of a cell. -/
theorem side_runs {off : ℕ} {nh nt : Noun} (hden : Denotes h (.pom off) (.cell nh nt)) :
    ∃ use_w mug_w hed tel, h off = some ⟨use_w, .cell mug_w hed tel⟩ ∧ Denotes h hed nh ∧
    Denotes h tel nt ∧
      ∀ bit, side bit (.pom off) h = .ok (if bit then tel else hed) h := by
  cases hden with
  | pom _ hbox hhed htel =>
    refine ⟨_, _, _, _, hbox, hhed, htel, fun bit ↦ ?_⟩
    cases bit
    · exact u3h_ok hbox
    · exact u3t_ok hbox

/-- What happens before a program belongs to its outcome. -/
theorem Outcome.after {res : EStateM.Result Bail Heap Ref}
    (hout : Outcome R h' boxes' roots (some p) res) (hframe : Frame R h boxes h' boxes')
    (hkeep : ∀ r' ∈ roots, ∀ n, Denotes h r' n → Denotes h' r' n) :
    Outcome R h boxes roots (some p) res := by
  obtain ⟨r, h'', boxes'', hres, hsafe, hp, hframe', hkeep'⟩ | hfull := hout
  · exact Or.inl ⟨r, h'', boxes'', hres, hsafe, hp, hframe.trans hframe',
      fun r' hr' n hn ↦ hkeep' r' hr' n (hkeep r' hr' n hn)⟩
  · exact Or.inr hfull

theorem copy_end {fuel : ℕ} {big hed tel : Ref} {nb ph pt : Noun}
    (hsafe : Safe R h boxes (hed :: tel :: big :: roots)) (hhed : Denotes h hed ph)
    (htel : Denotes h tel pt) (hbig : Denotes h big nb) (hfuel : nb.size ≤ fuel) :
    Outcome R h boxes roots (some (.cell ph pt)) ((do
      let pro ← u3nc R hed tel
      lose R fuel big
      pure pro) h) := by
  obtain ⟨off, hcell, hoff, hnormal, hbound, hfree, hsafe₁⟩ | ⟨hfull, hnone⟩ := u3nc_runs hsafe
  · rw [bind_ok hcell]
    have hframe := @Frame.of_new R h boxes _ off 1 hed tel hsafe hoff hnormal hfree
    have hkeep : ∀ r' ∈ hed :: tel :: big :: roots, ∀ n, Denotes h r' n → Denotes _ r' n :=
      fun r' hr' n hn ↦
      hsafe.denotes_put hoff hnormal (some ⟨1, .cell 0 hed tel⟩) hn (hsafe.inside hr')
    have hpro := Denotes.pom hbound (Function.update_self off (some ⟨1, .cell 0 hed tel⟩) h)
      (hkeep hed (by simp) ph hhed) (hkeep tel (by simp) pt htel)
    have hsafe₁ := hsafe₁.perm (List.Perm.swap big (.pom off) roots)
    obtain ⟨h₂, boxes₂, hlose, hsafe₂, hkept₂⟩ :=
      lose_runs fuel hsafe₁ (hkeep big (by simp) nb hbig) hfuel
    rw [bind_ok hlose]
    refine Or.inl ⟨.pom off, h₂, boxes₂, rfl, hsafe₂, ?_,
      hframe.trans (Frame.of_kept hkept₂ hsafe₁ hsafe₂), ?_⟩
    · exact hkept₂.denotes hsafe₁ hsafe₂ hpro (hsafe₂.inside List.mem_cons_self)
    · intro r' hr' n hn
      exact hkept₂.denotes hsafe₁ hsafe₂ (hkeep r' (by simp [hr']) n hn)
        (hsafe₂.inside (List.mem_cons_of_mem _ hr'))
  · rw [bind_error hfull]
    exact Or.inr (Or.inl ⟨rfl, hnone⟩)

theorem copy_runs {fuel off : ℕ} {v nh nt : Noun} {new : M Ref}
    (hfuel : (Noun.cell nh nt).size ≤ fuel) (hden : Denotes h (.pom off) (.cell nh nt))
    (hnew : Outcome R h boxes (.pom off :: roots) (editAt way v (if tel then nt else nh)) (new h)) :
    Outcome R h boxes roots (editAt (tel :: way) v (.cell nh nt))
      (copy R fuel tel (.pom off) new h) := by
  rw [editAt_cons]
  cases hedit : editAt way v (if tel then nt else nh) with
  | none =>
    rw [hedit] at hnew
    obtain ⟨why, h', hres, hwhy, hsame⟩ := hnew
    exact ⟨why, h', bind_error hres _, hwhy, hsame⟩
  | some p =>
    rw [hedit] at hnew
    obtain ⟨r, h₁, boxes₁, hres, hsafe₁, hp₁, hframe₁, hkeep₁⟩ | hfull := hnew
    · obtain ⟨_, _, hed_n, tel_n, hbox, hhed, htel, hside⟩ :=
        side_runs (hkeep₁ _ List.mem_cons_self _ hden)
      have hbig := hsafe₁.inside (List.mem_cons_of_mem r List.mem_cons_self)
      have hrefs : (if !tel then tel_n else hed_n) ∈ [hed_n, tel_n] := by
        cases tel <;> simp
      have hold : Denotes h₁ (if !tel then tel_n else hed_n) (if !tel then nt else nh) := by
        cases tel
        · exact htel
        · exact hhed
      rw [copy, bind_ok hres, bind_ok (hside _)]
      obtain ⟨h₂, hgain, hsafe₂, hkept₂⟩ | ⟨hgain, hmany⟩ :=
        gain_runs hsafe₁ hold (hsafe₁.inside_refs hbig hbox hrefs)
      · rw [bind_ok hgain]
        have hkeep₂ : ∀ r' ∈ _, ∀ n, Denotes h₁ r' n → Denotes h₂ r' n := fun r' hr' n hn ↦
          hkept₂.denotes hsafe₁ hsafe₂ hn (hsafe₁.inside hr')
        have hp₂ := hkeep₂ r List.mem_cons_self p hp₁
        have hold₂ := hkept₂.denotes hsafe₁ hsafe₂ hold (hsafe₂.inside List.mem_cons_self)
        have hbig₂ :=
          hkeep₂ _ (List.mem_cons_of_mem r
            List.mem_cons_self) _ (hkeep₁ _ List.mem_cons_self _ hden)
        have hframe := hframe₁.trans (Frame.of_kept hkept₂ hsafe₁ hsafe₂)
        have hkeep : ∀ r' ∈ roots, ∀ n, Denotes h r' n → Denotes h₂ r' n := fun r' hr' n hn ↦
          hkeep₂ r' (by simp [hr']) n (hkeep₁ r' (List.mem_cons_of_mem _ hr') n hn)
        cases tel
        · exact (copy_end (hsafe₂.perm (List.Perm.swap _ _ _)) hp₂ hold₂ hbig₂ hfuel).after
            hframe hkeep
        · exact (copy_end hsafe₂ hold₂ hp₂ hbig₂ hfuel).after hframe hkeep
      · rw [bind_error hgain]
        exact Or.inr (Or.inr ⟨rfl, hmany⟩)
    · right
      cases hres : new h with
      | ok r h' =>
        rw [hres] at hfull
        exact hfull.elim
      | error why h' =>
        rw [copy, bind_error hres]
        rwa [hres] at hfull

theorem setSide_ok {off mug_w : ℕ} {hed_n tel_n : Ref}
    (hbox : h off = some ⟨use_w, .cell mug_w hed_n tel_n⟩) (new : Ref) :
    setSide tel off new h = .ok () (Function.update h off
      (some ⟨use_w, if tel then .cell mug_w hed_n new else .cell mug_w new tel_n⟩)) :=
  bind_ok (load_ok hbox) _

theorem setMug_ok {off mug_w : ℕ} {hed_n tel_n : Ref}
    (hbox : h off = some ⟨use_w, .cell mug_w hed_n tel_n⟩) :
    setMug off 0 h = .ok () (Function.update h off (some ⟨use_w, .cell 0 hed_n tel_n⟩)) :=
  bind_ok (load_ok hbox) _

theorem overwrite_ok {off mug_w : ℕ} {hed_n tel_n : Ref} {new : M Ref} (hnew : new h = .ok r h')
    (hbox : h' off = some ⟨use_w, .cell mug_w hed_n tel_n⟩) :
    overwrite tel off new h = .ok () (Function.update h' off
      (some ⟨use_w, if tel then .cell 0 hed_n r else .cell 0 r tel_n⟩)) := by
  rw [overwrite, bind_ok hnew, bind_ok (setSide_ok hbox r)]
  cases tel
  · exact (setMug_ok (Function.update_self off _ h')).trans (by rw [Function.update_idem]; rfl)
  · exact (setMug_ok (Function.update_self off _ h')).trans (by rw [Function.update_idem]; rfl)

/-- The cell is put back for what it holds. -/
theorem yields_put_back {off : ℕ} {hed_n tel_n : Ref} {ph pt : Noun} (hnormal : R.normal off = true)
    (hin : off ∈ boxes) (hbound : off < 2 ^ 30) (hout : off ∉ boxes')
    (hsafe' : Safe R h' boxes' (hed_n :: tel_n :: roots))
    (hframe : Frame R h (boxes.erase off) h' boxes') (hhed : Denotes h' hed_n ph)
    (htel : Denotes h' tel_n pt) (hkeep : ∀ r' ∈ roots, ∀ n, Denotes h r' n → Denotes h' r' n) :
    Yields R h boxes roots (.cell ph pt)
      (.ok (.pom off) (Function.update h' off (some ⟨1, .cell 0 hed_n tel_n⟩))) := by
  have hkeep' : ∀ r' ∈ hed_n :: tel_n :: roots, ∀ n, Denotes h' r' n → Denotes _ r' n :=
    fun r' hr' n hn ↦
    hsafe'.denotes_put hout hnormal (some ⟨1, .cell 0 hed_n tel_n⟩) hn (hsafe'.inside hr')
  refine ⟨.pom off, _, insert off boxes', rfl, ?_, ?_, hframe.put_back hsafe' hin hout hnormal, ?_⟩
  · exact Safe.put ⟨1, .cell 0 hed_n tel_n⟩ hsafe' hout hnormal (Nat.le_refl 1)
  · exact .pom hbound (Function.update_self off _ h') (hkeep' hed_n (by simp) ph hhed)
      (hkeep' tel_n (by simp) pt htel)
  · intro r' hr' n hn
    exact hkeep' r' (by simp [hr']) n (hkeep r' hr' n hn)

theorem overwrite_runs {off mug_w : ℕ} {hed_n tel_n : Ref} {v nh nt : Noun} {new : M Ref}
    (hnormal : R.normal off = true) (hin : off ∈ boxes) (hbound : off < 2 ^ 30)
    (hbox : h off = some ⟨1, .cell mug_w hed_n tel_n⟩) (hhed : Denotes h hed_n nh)
    (htel : Denotes h tel_n nt)
    (hnew : Outcome R h (boxes.erase off) ((if tel then hed_n else tel_n) :: roots)
      (editAt way v (if tel then nt else nh)) (new h)) :
    Outcome R h boxes roots (editAt (tel :: way) v (.cell nh nt)) ((do
      overwrite tel off new
      pure (Ref.pom off)) h) := by
  rw [editAt_cons]
  cases hedit : editAt way v (if tel then nt else nh) with
  | none =>
    rw [hedit] at hnew
    obtain ⟨why, h', hres, hwhy, hsame⟩ := hnew
    exact ⟨why, h', bind_error (bind_error hres _) _, hwhy, hsame⟩
  | some p =>
    rw [hedit] at hnew
    obtain ⟨r, h₁, boxes₁, hres, hsafe₁, hp₁, hframe₁, hkeep₁⟩ | hfull := hnew
    · have hout : off ∉ boxes₁ := by
        intro hin₁
        obtain herase | hfree := hframe₁.made off hin₁
        · exact Finset.notMem_erase off boxes herase
        · rw [hbox] at hfree
          cases hfree
      have hbox₁ : h₁ off = some ⟨1, .cell mug_w hed_n tel_n⟩ := by
        rw [hframe₁.outside off (Finset.notMem_erase off boxes) (by rw [hbox]; nofun), hbox]
      rw [bind_ok (overwrite_ok hres hbox₁)]
      have hkeep : ∀ r' ∈ roots, ∀ n, Denotes h r' n → Denotes h₁ r' n := fun r' hr' ↦
        hkeep₁ r' (List.mem_cons_of_mem _ hr')
      left
      cases tel with
      | false =>
        have htel₁ := hkeep₁ tel_n List.mem_cons_self nt htel
        exact yields_put_back hnormal hin hbound hout hsafe₁ hframe₁ hp₁ htel₁ hkeep
      | true =>
        have hhed₁ := hkeep₁ hed_n List.mem_cons_self nh hhed
        have hsafe₁ := hsafe₁.perm (List.Perm.swap _ _ _)
        exact yields_put_back hnormal hin hbound hout hsafe₁ hframe₁ hhed₁ hp₁ hkeep
    · right
      cases hres : new h with
      | ok r h' =>
        rw [hres] at hfull
        exact hfull.elim
      | error why h' =>
        have herror : overwrite tel off new h = .error why h' := bind_error hres _
        rw [bind_error herror]
        rwa [hres] at hfull

/-! ### The axis -/

section Axes

variable {axe k : ℕ} (hsize : axe.size = k + 2)
include hsize

theorem xCap_eq : xCap axe = if axe.testBit k then 3 else 2 := by
  have hlow : 2 ^ (k + 1) ≤ axe := Nat.lt_size.mp (by omega)
  have hhigh : axe < 2 ^ (k + 2) := Nat.size_le.mp (by omega)
  have hbit : axe.testBit k = decide (axe >>> k % 2 = 1) := by
    rw [Nat.testBit_eq_decide_div_mod_eq, Nat.shiftRight_eq_div_pow]
  have hvalue : axe >>> k = 2 ∨ axe >>> k = 3 := by
    rw [Nat.shiftRight_eq_div_pow]
    rw [pow_succ, pow_succ] at hhigh
    have hge : 2 ≤ axe / 2 ^ k := (Nat.le_div_iff_mul_le (Nat.two_pow_pos k)).mpr (by omega)
    have hlt : axe / 2 ^ k < 4 := (Nat.div_lt_iff_lt_mul (Nat.two_pow_pos k)).mpr (by omega)
    omega
  rw [xCap, xDep, hsize, show k + 2 - 1 - 1 = k by omega, hbit]
  obtain hvalue | hvalue := hvalue
  · rw [hvalue]
    rfl
  · rw [hvalue]
    rfl

theorem xMas_eq (hword : axe < 2 ^ 32) : xMas axe = axe % 2 ^ (k + 1) ||| 2 ^ k := by
  have hdep : k + 1 < 32 := by
    have hle := Nat.size_le.mpr hword
    omega
  have hlt : 2 ^ (k + 1) < 2 ^ 32 := Nat.pow_lt_pow_right (by omega) hdep
  have hhigh : axe < 2 ^ (k + 2) := Nat.size_le.mp (by omega)
  rw [xMas, xDep, hsize, show k + 2 - 1 = k + 1 from rfl, Nat.add_sub_cancel, Nat.one_shiftLeft,
    Nat.one_shiftLeft]
  congr 1
  refine Nat.eq_of_testBit_eq fun i ↦ ?_
  rw [Nat.testBit_and, Nat.testBit_two_pow_sub_succ hlt, Nat.testBit_mod_two_pow]
  obtain hbelow | rfl | habove := Nat.lt_trichotomy i (k + 1)
  · rw [Nat.testBit_two_pow_of_ne (by omega)]
    simp [hbelow, show i < 32 by omega]
  · simp
  · have hzero : axe.testBit i = false :=
      Nat.testBit_lt_two_pow (hhigh.trans_le (Nat.pow_le_pow_right (by omega) (by omega)))
    simp [hzero]

end Axes

/-- Below a cell that denotes a noun there are other cells, so that no way through cells is longer
than the number of offsets. -/
theorem way_length {v : Noun} (hden : Denotes h r n) (hedit : editAt way v n = some p) :
    way.length ≤ 2 ^ 30 := by
  have hcells : ∃ cells : List ℕ, cells.length = way.length ∧ cells.Nodup ∧
      ∀ off ∈ cells, off < 2 ^ 30 ∧ ∃ m, Denotes h (.pom off) m ∧ m.size ≤ n.size := by
    induction way generalizing r n p with
    | nil => exact ⟨[], rfl, List.nodup_nil, nofun⟩
    | cons tel way ih =>
      cases hden with
      | cat _ => cases tel <;> cases hedit
      | pug _ _ => cases tel <;> cases hedit
      | @pom off use_w mug_w hed_n tel_n nh nt hoff hbox hhed htel =>
        rw [editAt_cons] at hedit
        obtain ⟨q, hq, -⟩ := Option.map_eq_some_iff.mp hedit
        obtain ⟨cells, hlength, hnodup, hcells⟩ := ih (r := if tel then tel_n else hed_n) (by
          cases tel
          · exact hhed
          · exact htel) hq
        have hbelow := side_size tel nh nt
        refine ⟨off :: cells, by simp [hlength], List.nodup_cons.mpr ⟨fun hmem ↦ ?_, hnodup⟩,
          fun o ho ↦ ?_⟩
        · obtain ⟨-, m, hm, hle⟩ := hcells off hmem
          rw [hm.unique (.pom hoff hbox hhed htel)] at hle
          omega
        · obtain rfl | ho := List.mem_cons.mp ho
          · exact ⟨hoff, _, .pom hoff hbox hhed htel, Nat.le_refl _⟩
          · obtain ⟨hlt, m, hm, hle⟩ := hcells o ho
            exact ⟨hlt, m, hm, by omega⟩
  obtain ⟨cells, hlength, hnodup, hcells⟩ := hcells
  have hsub : cells.toFinset ⊆ Finset.range (2 ^ 30) := fun off hoff ↦
    Finset.mem_range.mpr (hcells off (List.mem_toFinset.mp hoff)).1
  have hcard := Finset.card_le_card hsub
  rwa [Finset.card_range, List.toFinset_card_of_nodup hnodup, hlength] at hcard

/-! ### The copying route -/

theorem Frame.refl : Frame R h boxes h boxes where
  made _ hoff := Or.inl hoff
  outside _ _ _ := rfl
  fixed _ _ := rfl
  cells _ hoff _ _ _ _ _ := Or.inr ⟨hoff, rfl, fun _ hn ↦ hn⟩

/-- A gained reference belongs to the outcome. -/
theorem Outcome.after_gain {res : EStateM.Result Bail Heap Ref}
    (hout : Outcome R h' boxes roots o res) (hkept : Kept R h boxes h' boxes)
    (hsafe : Safe R h boxes roots') (hsafe' : Safe R h' boxes (r :: roots'))
    (hroots : roots ⊆ roots') : Outcome R h boxes roots o res := by
  cases o with
  | some p =>
    refine hout.after (Frame.of_kept hkept hsafe hsafe') fun r' hr' n hn ↦ ?_
    exact hkept.denotes hsafe hsafe' hn (hsafe.inside (hroots hr'))
  | none =>
    obtain ⟨why, h'', hres, hwhy, hsame⟩ := hout
    refine ⟨why, h'', hres, hwhy, fun off ↦ (hsame off).trans ?_⟩
    by_cases hin : off ∈ boxes
    · exact hkept.same off hin
    · rw [hkept.outside off hin]

/-- A use count at its highest stops every program. -/
theorem Outcome.of_saturated (hfull : Saturated h) :
    Outcome R h boxes roots o (.error .fail h) := by
  cases o with
  | some p => exact Or.inr (Or.inr ⟨rfl, hfull⟩)
  | none => exact ⟨.fail, h, rfl, Or.inr rfl, fun _ ↦ rfl⟩

/-- One side of a cell is fetched and gained, and the program goes on with it. -/
theorem descend_runs {off : ℕ} {nh nt v : Noun} {next : Ref → M Ref}
    (hsafe : Safe R h boxes (.pom off :: som :: roots)) (hden : Denotes h (.pom off) (.cell nh nt))
    (hsom : Denotes h som v)
    (hnext : ∀ h' r', Safe R h' boxes (r' :: som :: .pom off :: roots) →
    Denotes h' r' (if tel then nt else nh) →
      Denotes h' som v → Outcome R h' boxes (.pom off :: roots) o (next r' h')) :
    Outcome R h boxes (.pom off :: roots) o ((do
      let old ← side tel (.pom off)
      let old ← gain R old
      next old) h) := by
  obtain ⟨_, _, hed_n, tel_n, hbox, hhed, htel, hside⟩ := side_runs hden
  rw [bind_ok (hside tel)]
  have hrefs : (if tel then tel_n else hed_n) ∈ [hed_n, tel_n] := by
    cases tel <;> simp
  have hold : Denotes h (if tel then tel_n else hed_n) (if tel then nt else nh) := by
    cases tel
    · exact hhed
    · exact htel
  have hbig := hsafe.inside List.mem_cons_self
  obtain ⟨h', hgain, hsafe', hkept⟩ | ⟨hgain, hmany⟩ :=
    gain_runs hsafe hold (hsafe.inside_refs hbig hbox hrefs)
  · rw [bind_ok hgain]
    have hout := hnext h' _ (hsafe'.perm (List.Perm.cons _ (List.Perm.swap _ _ _)))
      (hkept.denotes hsafe hsafe' hold (hsafe'.inside List.mem_cons_self))
      (hkept.denotes hsafe hsafe' hsom (hsafe.inside (by simp)))
    refine hout.after_gain hkept hsafe hsafe' fun r' hr' ↦ ?_
    obtain rfl | hr' := List.mem_cons.mp hr'
    · exact List.mem_cons_self
    · exact List.mem_cons_of_mem _ (List.mem_cons_of_mem _ hr')
  · rw [bind_error hgain]
    exact Outcome.of_saturated hmany

/-- Below an atom there is nothing. -/
theorem exit_atom {axe : ℕ} {v : Noun} {a : ℕ} (haxe : 2 ≤ axe) :
    Outcome R h boxes roots (editAt (path axe) v (.atom a)) (.error .exit h) := by
  obtain ⟨k, hk⟩ : ∃ k, axe.size = k + 2 := ⟨axe.size - 2, by
    have hlt : 1 < axe.size := Nat.lt_size.mpr haxe
    omega⟩
  rw [Nock.path_eq hk]
  cases axe.testBit k <;> exact ⟨.exit, h, rfl, Or.inl rfl, fun _ ↦ rfl⟩

/-- An axis from 4 on has a first step and an axis behind it. -/
theorem axis_step {axe : ℕ} (haxe : 2 ≤ axe) (htwo : axe ≠ 2) (hthree : axe ≠ 3) :
    ∃ k, axe.size = k + 2 ∧ 2 ≤ axe % 2 ^ (k + 1) ||| 2 ^ k ∧
    axe % 2 ^ (k + 1) ||| 2 ^ k < axe := by
  obtain ⟨k, hk⟩ : ∃ k, axe.size = k + 2 := ⟨axe.size - 2, by
    have hlt : 1 < axe.size := Nat.lt_size.mpr haxe
    omega⟩
  have hbelow := Nock.size_below axe k
  have hfour : 2 < axe.size := Nat.lt_size.mpr (by omega)
  refine ⟨k, hk, Nat.lt_size.mp (show 1 < _ by omega), ?_⟩
  by_contra hle
  have hsize := Nat.size_le_size (Nat.not_lt.mp hle)
  omega

theorem editCat_runs {fuel axe : ℕ} {v : Noun} (haxe : 2 ≤ axe) (hcat : axe < 2 ^ 31)
    (hfuel : n.size ≤ fuel) (hsafe : Safe R h boxes (r :: som :: roots)) (hden : Denotes h r n)
    (hsom : Denotes h som v) :
    Outcome R h boxes roots (editAt (path axe) v n) (editCat R fuel r axe som h) := by
  induction fuel generalizing h boxes r roots n axe with
  | zero => cases n <;> simp [Noun.size] at hfuel
  | succ fuel ih =>
    rw [editCat]
    cases hden with
    | cat _ => exact exit_atom haxe
    | pug _ _ => exact exit_atom haxe
    | @pom off _ _ _ _ nh nt hoff hbox hhed htel =>
      have hden := Denotes.pom hoff hbox hhed htel
      have hlast : Outcome R h boxes (.pom off :: roots) (some v) (EStateM.Result.ok som h) :=
        Or.inl ⟨som, h, boxes, rfl, hsafe.perm (List.Perm.swap _ _ _), hsom, Frame.refl,
          fun _ _ _ hn ↦ hn⟩
      simp only [u3du]
      by_cases htwo : axe = 2
      · rw [if_pos htwo, htwo]
        show Outcome R h boxes roots (editAt [false] v _) _
        exact copy_runs hfuel hden hlast
      by_cases hthree : axe = 3
      · rw [if_neg htwo, if_pos hthree, hthree]
        show Outcome R h boxes roots (editAt [true] v _) _
        exact copy_runs hfuel hden hlast
      obtain ⟨k, hk, hmor, hlt⟩ := axis_step haxe htwo hthree
      have hmore : ∀ tel, Outcome R h boxes (.pom off :: roots)
          (editAt (path (axe % 2 ^ (k + 1) ||| 2 ^ k)) v (if tel then nt else nh)) ((do
            let old ← side tel (.pom off)
            let old ← gain R old
            editCat R fuel old (xMas axe) som) h) := by
        intro tel
        refine descend_runs hsafe hden hsom fun h' r' hsafe' hden' hsom' ↦ ?_
        rw [xMas_eq hk (by omega)]
        have hbelow := side_size tel nh nt
        exact ih hmor (by omega) (by omega) hsafe' hden' hsom'
      rw [if_neg htwo, if_neg hthree, Nock.path_eq hk, xCap_eq hk]
      cases axe.testBit k
      · exact copy_runs hfuel hden (hmore false)
      · exact copy_runs hfuel hden (hmore true)

/-- `u3qc_mas()` and `u3qc_cap()`, where the way is not longer than the loom allows. -/
theorem qcMas_runs {axe k : ℕ} (hk : axe.size = k + 2) (hsize : axe.size ≤ 2 ^ 31) :
    qcMas axe h = .ok (axe % 2 ^ (k + 1) ||| 2 ^ k) h ∧
    qcCap axe h = .ok (if axe.testBit k then 3 else 2) h := by
  rw [qcMas, Nock.mas_eq hk hsize, qcCap, Nock.cap_eq hk hsize]
  exact ⟨rfl, rfl⟩

/-- An axis that is too long for `u3qc_mas()` leads into an atom. -/
theorem long_runs {axe : ℕ} {v : Noun} (hsize : 2 ^ 31 < axe.size) (hden : Denotes h r n) :
    qcMas axe h = .error .fail h ∧ editAt (path axe) v n = none := by
  refine ⟨by rw [qcMas, Nock.mas_long hsize], ?_⟩
  cases hedit : editAt (path axe) v n with
  | none => rfl
  | some p =>
    have hlength := way_length hden hedit
    rw [path, List.length_map, List.length_reverse, List.length_range, Nock.log2_eq_size] at hlength
    omega

theorem edit_runs {fuel axe : ℕ} {v : Noun} (haxe : 2 ≤ axe) (hfuel : n.size ≤ fuel)
    (hsafe : Safe R h boxes (r :: som :: roots)) (hden : Denotes h r n) (hsom : Denotes h som v) :
    Outcome R h boxes roots (editAt (path axe) v n) (edit R fuel r axe som h) := by
  induction fuel generalizing h boxes r roots n axe with
  | zero => cases n <;> simp [Noun.size] at hfuel
  | succ fuel ih =>
    rw [edit]
    by_cases hcat : axe < 2 ^ 31
    · rw [if_pos hcat]
      exact editCat_runs haxe hcat hfuel hsafe hden hsom
    rw [if_neg hcat]
    cases hden with
    | cat _ => exact exit_atom haxe
    | pug _ _ => exact exit_atom haxe
    | @pom off _ _ _ _ nh nt hoff hbox hhed htel =>
      have hden := Denotes.pom hoff hbox hhed htel
      rw [u3du, if_pos rfl]
      by_cases hsize : axe.size ≤ 2 ^ 31
      · obtain ⟨k, hk, hmor, -⟩ := axis_step haxe (by omega) (by omega)
        obtain ⟨hmas, hcap⟩ := qcMas_runs (h := h) hk hsize
        rw [bind_ok hmas, bind_ok hcap, Nock.path_eq hk]
        have hmore : ∀ tel, Outcome R h boxes (.pom off :: roots)
            (editAt (path (axe % 2 ^ (k + 1) ||| 2 ^ k)) v (if tel then nt else nh)) ((do
              let old ← side tel (.pom off)
              let old ← gain R old
              edit R fuel old (axe % 2 ^ (k + 1) ||| 2 ^ k) som) h) := by
          intro tel
          refine descend_runs hsafe hden hsom fun h' r' hsafe' hden' hsom' ↦ ?_
          have hbelow := side_size tel nh nt
          exact ih hmor (by omega) hsafe' hden' hsom'
        cases axe.testBit k
        · exact copy_runs hfuel hden (hmore false)
        · exact copy_runs hfuel hden (hmore true)
      · obtain ⟨hmas, hnone⟩ := long_runs (v := v) (Nat.not_le.mp hsize) hden
        rw [bind_error hmas, hnone]
        exact ⟨.fail, h, rfl, Or.inr rfl, fun _ ↦ rfl⟩

/-! ### The route in place -/

/-- A cell of the road with one use is overwritten, any other noun is copied. -/
theorem editOr_runs {mutate : M Unit} {edit : M Ref} (hsafe : Safe R h boxes (r :: som :: roots))
    (hden : Denotes h r n) (hedit : Outcome R h boxes roots o (edit h))
    (hmutate : ∀ off nh nt mug_w hed_n tel_n, r = .pom off → n = .cell nh nt → R.normal off = true →
    off < 2 ^ 30 →
      h off = some ⟨1, .cell mug_w hed_n tel_n⟩ → Denotes h hed_n nh → Denotes h tel_n nt →
      Outcome R h boxes roots o ((do
        mutate
        pure r) h)) : Outcome R h boxes roots o (editOr R mutate edit r h) := by
  rw [editOr]
  cases hden with
  | cat _ => exact hedit
  | pug _ _ => exact hedit
  | @pom off use_w mug_w hed_n tel_n nh nt hoff hbox hhed htel =>
    rw [isMutable]
    cases hnormal : R.normal off with
    | false => exact hedit
    | true =>
      have hload : (load off >>= fun box ↦ pure (box.use_w == 1)) h =
        EStateM.Result.ok (use_w == 1) h :=
        bind_ok (load_ok hbox) _
      rw [if_pos rfl, bind_ok hload]
      by_cases hone : use_w = 1
      · subst hone
        exact hmutate off nh nt mug_w hed_n tel_n rfl rfl hnormal hoff hbox hhed htel
      · rw [if_neg (by simpa using hone)]
        exact hedit

section Mutate

variable {off mug_w fuel axe : ℕ} {hed_n tel_n : Ref} {nh nt v : Noun}

theorem take_side (tel : Bool) (hsafe : Safe R h boxes (.pom off :: som :: roots))
    (hnormal : R.normal off = true) (hbox : h off = some ⟨1, .cell mug_w hed_n tel_n⟩) :
    Safe R h (boxes.erase off)
      ((if tel then tel_n else hed_n) :: som :: (if tel then hed_n else tel_n) :: roots) := by
  have htaken : Safe R h (boxes.erase off) (hed_n :: tel_n :: som :: roots) :=
    hsafe.take rfl hnormal hbox rfl
  cases tel
  · exact htaken.perm (List.Perm.cons _ (List.Perm.swap _ _ _))
  · exact htaken.perm ((List.Perm.swap _ _ _).trans (List.Perm.cons _ (List.Perm.swap _ _ _)))

theorem last_runs (hsafe : Safe R h boxes (.pom off :: som :: roots))
    (hnormal : R.normal off = true) (hbox : h off = some ⟨1, .cell mug_w hed_n tel_n⟩)
    (hhed : Denotes h hed_n nh) (htel : Denotes h tel_n nt) (hsom : Denotes h som v)
    (hfuel : (Noun.cell nh nt).size ≤ fuel) :
    Outcome R h (boxes.erase off) ((if tel then hed_n else tel_n) :: roots) (some v) ((do
      let old ← side tel (.pom off)
      lose R fuel old
      pure som) h) := by
  have htaken := take_side tel hsafe hnormal hbox
  have hold : Denotes h (if tel then tel_n else hed_n) (if tel then nt else nh) := by
    cases tel
    · exact hhed
    · exact htel
  have hside : side tel (.pom off) h = .ok (if tel then tel_n else hed_n) h := by
    cases tel
    · exact u3h_ok hbox
    · exact u3t_ok hbox
  have hbelow := side_size tel nh nt
  obtain ⟨h', boxes', hlose, hsafe', hkept⟩ := lose_runs fuel htaken hold (by omega)
  rw [bind_ok hside, bind_ok hlose]
  have hkeep : ∀ r' ∈ som :: (if tel then hed_n else tel_n) :: roots, ∀ n, Denotes h r' n →
    Denotes h' r' n :=
    fun r' hr' n hn ↦ hkept.denotes htaken hsafe' hn (hsafe'.inside hr')
  exact Or.inl ⟨som, h', boxes', rfl, hsafe', hkeep som List.mem_cons_self v hsom,
    Frame.of_kept hkept htaken hsafe', fun r' hr' ↦ hkeep r' (List.mem_cons_of_mem _ hr')⟩

/-- One side of a cell is taken over, and the program goes on with it. -/
theorem enter_runs {next : Ref → M Ref} (hsafe : Safe R h boxes (.pom off :: som :: roots))
    (hnormal : R.normal off = true) (hbox : h off = some ⟨1, .cell mug_w hed_n tel_n⟩)
    (hhed : Denotes h hed_n nh) (htel : Denotes h tel_n nt)
    (hnext : ∀ tar, Safe R h (boxes.erase off)
      (tar :: som :: (if tel then hed_n else tel_n) :: roots) →
      Denotes h tar (if tel then nt else nh) →
      Outcome R h (boxes.erase off) ((if tel then hed_n else tel_n) :: roots) o (next tar h)) :
    Outcome R h (boxes.erase off) ((if tel then hed_n else tel_n) :: roots) o ((do
      let tar ← side tel (.pom off)
      next tar) h) := by
  have hside : side tel (.pom off) h = .ok (if tel then tel_n else hed_n) h := by
    cases tel
    · exact u3h_ok hbox
    · exact u3t_ok hbox
  rw [bind_ok hside]
  refine hnext _ (take_side tel hsafe hnormal hbox) ?_
  cases tel
  · exact hhed
  · exact htel

theorem mutateCat_runs (haxe : 2 ≤ axe) (hcat : axe < 2 ^ 31)
    (hfuel : (Noun.cell nh nt).size ≤ fuel) (hsafe : Safe R h boxes (.pom off :: som :: roots))
    (hnormal : R.normal off = true) (hbound : off < 2 ^ 30)
    (hbox : h off = some ⟨1, .cell mug_w hed_n tel_n⟩) (hhed : Denotes h hed_n nh)
    (htel : Denotes h tel_n nt) (hsom : Denotes h som v) :
    Outcome R h boxes roots (editAt (path axe) v (.cell nh nt)) ((do
      mutateCat R fuel (.pom off) axe som
      pure (Ref.pom off)) h) := by
  induction fuel generalizing boxes roots axe off mug_w hed_n tel_n nh nt with
  | zero => simp [Noun.size] at hfuel
  | succ fuel ih =>
    have hin : off ∈ boxes := hsafe.inside List.mem_cons_self off (by
      rw [offs_some rfl hnormal]
      exact List.mem_singleton_self off)
    rw [mutateCat]
    by_cases htwo : axe = 2
    · rw [if_pos htwo, htwo]
      show Outcome R h boxes roots (editAt [false] v _) _
      exact overwrite_runs hnormal hin hbound hbox hhed htel
        (last_runs hsafe hnormal hbox hhed htel hsom hfuel)
    by_cases hthree : axe = 3
    · rw [if_neg htwo, if_pos hthree, hthree]
      show Outcome R h boxes roots (editAt [true] v _) _
      exact overwrite_runs hnormal hin hbound hbox hhed htel
        (last_runs hsafe hnormal hbox hhed htel hsom hfuel)
    obtain ⟨k, hk, hmor, hlt⟩ := axis_step haxe htwo hthree
    have hmore : ∀ tel, Outcome R h (boxes.erase off) ((if tel then hed_n else tel_n) :: roots)
        (editAt (path (axe % 2 ^ (k + 1) ||| 2 ^ k)) v (if tel then nt else nh)) ((do
          let tar ← side tel (.pom off)
          editOr R (mutateCat R fuel tar (xMas axe) som) (editCat R fuel tar (xMas axe) som) tar)
            h) := by
      intro tel
      refine enter_runs hsafe hnormal hbox hhed htel fun tar hsafe' htar ↦ ?_
      have hbelow := side_size tel nh nt
      rw [xMas_eq hk (by omega)]
      refine editOr_runs hsafe' htar (editCat_runs hmor (by omega) (by omega) hsafe' htar hsom) ?_
      rintro off' nh' nt' mug_w' hed' tel' rfl hn hnormal' hbound' hbox' hhed' htel'
      rw [hn]
      exact ih hmor (by omega) (by rw [← hn]; omega) hsafe' hnormal' hbound' hbox' hhed' htel'
    rw [if_neg htwo, if_neg hthree, Nock.path_eq hk, xCap_eq hk]
    cases axe.testBit k
    · exact overwrite_runs hnormal hin hbound hbox hhed htel (hmore false)
    · exact overwrite_runs hnormal hin hbound hbox hhed htel (hmore true)

/-- The two routes from a noun on, where the route in place is right for the cells that take it. -/
theorem editOrMutate_runs {mutate : Ref → ℕ → Ref → M Unit} (haxe : 2 ≤ axe) (hfuel : n.size ≤ fuel)
    (hsafe : Safe R h boxes (r :: som :: roots)) (hden : Denotes h r n) (hsom : Denotes h som v)
    (hmutate : ∀ off nh nt mug_w hed_n tel_n, r = .pom off → n = .cell nh nt → R.normal off = true →
    off < 2 ^ 30 →
      h off = some ⟨1, .cell mug_w hed_n tel_n⟩ → Denotes h hed_n nh → Denotes h tel_n nt →
      Outcome R h boxes roots (editAt (path axe) v n) ((do
        mutate r axe som
        pure r) h)) :
    Outcome R h boxes roots (editAt (path axe) v n) (editOrMutate R mutate fuel r axe som h) := by
  rw [editOrMutate]
  by_cases hcat : axe < 2 ^ 31
  · rw [if_pos hcat]
    refine editOr_runs hsafe hden (editCat_runs haxe hcat hfuel hsafe hden hsom) ?_
    rintro off nh nt mug_w hed_n tel_n rfl rfl hnormal hbound hbox hhed htel
    exact mutateCat_runs haxe hcat hfuel hsafe hnormal hbound hbox hhed htel hsom
  · rw [if_neg hcat]
    exact editOr_runs hsafe hden (edit_runs haxe hfuel hsafe hden hsom) hmutate

theorem mutate_runs (haxe : 2 ≤ axe) (hfuel : (Noun.cell nh nt).size ≤ fuel)
    (hsafe : Safe R h boxes (.pom off :: som :: roots)) (hnormal : R.normal off = true)
    (hbound : off < 2 ^ 30) (hbox : h off = some ⟨1, .cell mug_w hed_n tel_n⟩)
    (hhed : Denotes h hed_n nh) (htel : Denotes h tel_n nt) (hsom : Denotes h som v) :
    Outcome R h boxes roots (editAt (path axe) v (.cell nh nt)) ((do
      mutate R fuel (.pom off) axe som
      pure (Ref.pom off)) h) := by
  induction fuel generalizing boxes roots axe off mug_w hed_n tel_n nh nt with
  | zero => simp [Noun.size] at hfuel
  | succ fuel ih =>
    have hin : off ∈ boxes := hsafe.inside List.mem_cons_self off (by
      rw [offs_some rfl hnormal]
      exact List.mem_singleton_self off)
    rw [mutate]
    by_cases hcat : axe < 2 ^ 31
    · rw [if_pos hcat]
      exact mutateCat_runs haxe hcat hfuel hsafe hnormal hbound hbox hhed htel hsom
    rw [if_neg hcat]
    dsimp only
    by_cases hsize : axe.size ≤ 2 ^ 31
    · obtain ⟨k, hk, hmor, -⟩ := axis_step haxe (by omega) (by omega)
      obtain ⟨hmas, hcap⟩ := qcMas_runs (h := h) hk hsize
      rw [bind_eq ((bind_ok hmas _).trans (bind_ok hcap _)), Nock.path_eq hk]
      have hmore : ∀ tel, Outcome R h (boxes.erase off) ((if tel then hed_n else tel_n) :: roots)
          (editAt (path (axe % 2 ^ (k + 1) ||| 2 ^ k)) v (if tel then nt else nh)) ((do
            let tar ← side tel (.pom off)
            editOrMutate R (mutate R fuel) fuel tar (axe % 2 ^ (k + 1) ||| 2 ^ k) som) h) := by
        intro tel
        refine enter_runs hsafe hnormal hbox hhed htel fun tar hsafe' htar ↦ ?_
        have hbelow := side_size tel nh nt
        refine editOrMutate_runs hmor (by omega) hsafe' htar hsom ?_
        rintro off' nh' nt' mug_w' hed' tel' rfl hn hnormal' hbound' hbox' hhed' htel'
        rw [hn]
        exact ih hmor (by rw [← hn]; omega) hsafe' hnormal' hbound' hbox' hhed' htel'
      cases axe.testBit k
      · exact overwrite_runs hnormal hin hbound hbox hhed htel (hmore false)
      · exact overwrite_runs hnormal hin hbound hbox hhed htel (hmore true)
    · obtain ⟨hmas, hnone⟩ := long_runs (v := v) (Nat.not_le.mp hsize) (.pom hbound hbox hhed htel)
      rw [bind_error (bind_error hmas _), hnone]
      exact ⟨.fail, h, rfl, Or.inr rfl, fun _ ↦ rfl⟩

end Mutate

/-! ### The edit -/

/-- Where an edit is possible it puts the noun at the end of the way. -/
theorem slotAt_editAt {v : Noun} (hedit : editAt way v n = some p) : slotAt way p = some v := by
  induction way generalizing n p with
  | nil =>
    cases hedit
    rfl
  | cons tel way ih =>
    cases n with
    | atom a => cases tel <;> cases hedit
    | cell nh nt =>
      rw [editAt_cons] at hedit
      obtain ⟨q, hq, rfl⟩ := Option.map_eq_some_iff.mp hedit
      cases tel
      · exact ih hq
      · exact ih hq

/-- The noun at the end of a way that parts from it stays. -/
theorem slotAt_editAt_of_apart {way' : List Bool} {v : Noun} (hedit : editAt way v n = some p)
    (hbelow : ¬way <+: way') (habove : ¬way' <+: way) : slotAt way' p = slotAt way' n := by
  induction way generalizing way' n p with
  | nil => exact absurd List.nil_prefix hbelow
  | cons tel way ih =>
    cases n with
    | atom a => cases tel <;> cases hedit
    | cell nh nt =>
      rw [editAt_cons] at hedit
      obtain ⟨q, hq, rfl⟩ := Option.map_eq_some_iff.mp hedit
      cases way' with
      | nil => exact absurd List.nil_prefix habove
      | cons tel' way' =>
        by_cases hsame : tel = tel'
        · subst hsame
          have hkeep := ih hq (fun hpre ↦ hbelow (List.cons_prefix_cons.mpr ⟨rfl, hpre⟩))
            fun hpre ↦ habove (List.cons_prefix_cons.mpr ⟨rfl, hpre⟩)
          cases tel
          · exact hkeep
          · exact hkeep
        · cases tel <;> cases tel' <;> first | exact absurd rfl hsame | rfl

/-- An edit is possible where there is something to replace. -/
theorem editAt_eq_none_iff (way : List Bool) (v n : Noun) :
    editAt way v n = none ↔ slotAt way n = none := by
  induction way generalizing n with
  | nil => exact iff_of_false nofun nofun
  | cons tel way ih =>
    cases n with
    | atom a => cases tel <;> exact iff_of_true rfl rfl
    | cell nh nt =>
      rw [editAt_cons, Option.map_eq_none_iff, ih]
      cases tel
      · rfl
      · rfl

/-- A cached mug is zero, or the mug of the noun that the cell denotes. -/
def MugsRight (mugOf : Noun → ℕ) (h : Heap) (boxes : Finset ℕ) : Prop :=
  ∀ off ∈ boxes, ∀ use_w mug_w hed tel, h off = some ⟨use_w, .cell mug_w hed tel⟩ →
    mug_w = 0 ∨ ∃ n, Denotes h (.pom off) n ∧ mug_w = mugOf n

theorem Frame.mugs {mugOf : Noun → ℕ} (hframe : Frame R h boxes h' boxes')
    (hmugs : MugsRight mugOf h boxes) :
    MugsRight mugOf h' boxes' := by
  intro off hoff use_w mug_w hed tel hcell
  obtain hzero | ⟨hin, hsame, hden⟩ := hframe.cells off hoff use_w mug_w hed tel hcell
  · exact Or.inl hzero
  · rw [Same, hcell] at hsame
    obtain ⟨⟨use_w', body⟩, hcell', rfl⟩ := Option.map_eq_some_iff.mp hsame.symm
    obtain hzero | ⟨n, hn, hmug⟩ := hmugs off hin use_w' mug_w hed tel hcell'
    · exact Or.inl hzero
    · exact Or.inr ⟨n, hden n hn, hmug⟩

theorem u3iEdit_runs {fuel axe : ℕ} {v : Noun} (hfuel : n.size ≤ fuel)
    (hsafe : Safe R h boxes (r :: som :: roots)) (hden : Denotes h r n) (hsom : Denotes h som v) :
    Outcome R h boxes roots (Nock.edit axe v n) (u3iEdit R fuel r axe som h) := by
  rw [u3iEdit, Nock.edit]
  by_cases hzero : axe = 0
  · rw [if_pos hzero, if_pos hzero]
    exact ⟨.exit, h, rfl, Or.inl rfl, fun _ ↦ rfl⟩
  rw [if_neg hzero, if_neg hzero]
  by_cases hone : axe = 1
  · rw [if_pos hone, hone]
    obtain ⟨h', boxes', hlose, hsafe', hkept⟩ := lose_runs fuel hsafe hden hfuel
    rw [bind_ok hlose]
    have hkeep : ∀ r' ∈ som :: roots, ∀ n, Denotes h r' n → Denotes h' r' n :=
      fun r' hr' n hn ↦ hkept.denotes hsafe hsafe' hn (hsafe'.inside hr')
    exact Or.inl ⟨som, h', boxes', rfl, hsafe', hkeep som List.mem_cons_self v hsom,
      Frame.of_kept hkept hsafe hsafe', fun r' hr' ↦ hkeep r' (List.mem_cons_of_mem _ hr')⟩
  · rw [if_neg hone]
    have haxe : 2 ≤ axe := by omega
    refine editOrMutate_runs haxe hfuel hsafe hden hsom ?_
    rintro off nh nt mug_w hed_n tel_n rfl rfl hnormal hbound hbox hhed htel
    exact mutate_runs haxe hfuel hsafe hnormal hbound hbox hhed htel hsom

/-- `u3i_edit()`, whichever cells it overwrites, and `_edit()`, which copies all of them, return
`#[axe v n]`, or stop because memory or a use count is exhausted. Nothing else that the program
holds changes, a cell whose content changed has no cached mug, and cached mugs stay right. Where
there is nothing at the axis both bail, and the boxes are as before. -/
theorem edit_replaces {fuel axe : ℕ} {n v : Noun} (hfuel : n.size ≤ fuel)
    (hsafe : Safe R h boxes (r :: som :: roots)) (hden : Denotes h r n) (hsom : Denotes h som v) :
    (∀ res, res = u3iEdit R fuel r axe som h ∨ 2 ≤ axe ∧ res = edit R fuel r axe som h →
      (∀ p, Nock.edit axe v n = some p → Exhausted R res ∨ ∃ r' h' boxes', res = .ok r' h' ∧
        Safe R h' boxes' (r' :: roots) ∧ Denotes h' r' p ∧ Frame R h boxes h' boxes' ∧
        (∀ root ∈ roots, ∀ m, Denotes h root m → Denotes h' root m) ∧
        ∀ mugOf, MugsRight mugOf h boxes → MugsRight mugOf h' boxes') ∧
      (slot axe n = none → ∃ why h', res = .error why h' ∧ (why = .exit ∨ why = .fail) ∧
      ∀ off, Same h h' off)) ∧
    (slot axe n = none ↔ Nock.edit axe v n = none) ∧
    ∀ p, Nock.edit axe v n = some p → slot axe p = some v ∧
      ∀ b, ¬path axe <+: path b → ¬path b <+: path axe → slot b p = slot b n := by
  have hnone : slot axe n = none ↔ Nock.edit axe v n = none := by
    rw [slot, Nock.edit]
    by_cases hzero : axe = 0
    · rw [if_pos hzero, if_pos hzero]
    · rw [if_neg hzero, if_neg hzero, editAt_eq_none_iff]
  refine ⟨fun res hres ↦ ?_, hnone, fun p hp ↦ ?_⟩
  · have hout : Outcome R h boxes roots (Nock.edit axe v n) res := by
      obtain rfl | ⟨haxe, rfl⟩ := hres
      · exact u3iEdit_runs hfuel hsafe hden hsom
      · rw [Nock.edit, if_neg (by omega)]
        exact edit_runs haxe hfuel hsafe hden hsom
    refine ⟨fun p hp ↦ ?_, fun hempty ↦ ?_⟩
    · rw [hp] at hout
      obtain ⟨r', h', boxes', hok, hsafe', hden', hframe, hkeep⟩ | hfull := hout
      · exact Or.inr ⟨r', h', boxes', hok, hsafe', hden', hframe, hkeep, fun mugOf ↦ hframe.mugs⟩
      · exact Or.inl hfull
    · rwa [hnone.mp hempty] at hout
  · have hzero : axe ≠ 0 := by
      rintro rfl
      cases hp
    rw [Nock.edit, if_neg hzero] at hp
    refine ⟨by rw [slot, if_neg hzero, slotAt_editAt hp], fun b hbelow habove ↦ ?_⟩
    rw [slot, slot, slotAt_editAt_of_apart hp hbelow habove]

/-- A road of eight boxes, the first free one of which is the next. -/
def smallRoad : Road where
  normal _ := true
  celloc h := (List.range 8).find? fun off ↦ (h off).isNone
  fresh := by
    intro h off hoff
    have hmem := List.mem_of_find?_eq_some hoff
    have hfree := List.find?_some hoff
    have hlt := List.mem_range.mp hmem
    exact ⟨rfl, by omega, Option.isNone_iff_eq_none.mp hfree⟩

/-- The cell `[5 [6 7]]`, the tail of which has another use. -/
def smallHeap : Heap
  | 0 => some ⟨1, .cell 17 (.cat 5) (.pom 1)⟩
  | 1 => some ⟨2, .cell 18 (.cat 6) (.cat 7)⟩
  | _ => none

theorem smallHeap_safe : Safe smallRoad smallHeap {0, 1} [.pom 0, .cat 9, .pom 1] where
  normal _ _ := rfl
  live := by decide
  senior := nofun
  counted := ⟨by decide, by decide, by decide⟩

theorem smallHeap_denotes :
    Denotes smallHeap (.pom 0) (.cell (.atom 5) (.cell (.atom 6) (.atom 7))) ∧
      Denotes smallHeap (.pom 1) (.cell (.atom 6) (.atom 7)) ∧
      Denotes smallHeap (.cat 9) (.atom 9) := by
  have htail : Denotes smallHeap (.pom 1) (.cell (.atom 6) (.atom 7)) :=
    .pom (by omega) rfl (.cat (by omega)) (.cat (by omega))
  exact ⟨.pom (by omega) rfl (.cat (by omega)) htail, htail, .cat (by omega)⟩

theorem edit_replaces_six : ∃ r h, u3iEdit smallRoad 5 (.pom 0) 6 (.cat 9) smallHeap = .ok r h ∧
    Denotes h r (.cell (.atom 5) (.cell (.atom 9) (.atom 7))) ∧
    Denotes h (.pom 1) (.cell (.atom 6) (.atom 7)) := by
  obtain ⟨hden, hroot, hsom⟩ := smallHeap_denotes
  have hedit : Nock.edit 6 (.atom 9) (.cell (.atom 5) (.cell (.atom 6) (.atom 7))) =
      some (.cell (.atom 5) (.cell (.atom 9) (.atom 7))) := by decide
  obtain hfull | ⟨r, h, boxes, hok, -, hresult, -, hkeep, -⟩ :=
    ((edit_replaces (by decide) smallHeap_safe hden hsom).1
      (u3iEdit smallRoad 5 (.pom 0) 6 (.cat 9) smallHeap)
      (Or.inl rfl)).1 _ hedit
  · cases hfull
  · exact ⟨r, h, hok, hresult, hkeep _ (List.mem_singleton_self _) _ hroot⟩
end Vere.Noun.Shared
