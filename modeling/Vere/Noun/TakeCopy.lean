import Vere.Noun.Take

/-!
# A copy in progress

In the middle of `u3a_take()`, some boxes of the inner road have copies. `Taking` says what is then
on the loom: old boxes refer to what they referred to, a box that has been copied has a reference to
its copy in the place of its mug, and the use counts of the road are those at the start and the
references that have been made since. What a step of the copy does keeps it: a reference to a box of
the road is gained (`Taking.gain`), and a box is copied once there are copies of what it refers to
(`Taking.copy`).
-/

set_option autoImplicit false

namespace Vere.Noun.Take

open Shared (Ref Arm bind_ok bind_error)

/-! ### Nouns -/

/-- The value of the words of an atom. -/
def valueOf (buf_w : List ℕ) : ℕ := buf_w.foldr (fun w val ↦ w + 2 ^ 32 * val) 0

/-- A reference denotes a noun. -/
inductive Denotes (h : Heap) : Ref → Noun → Prop
  | cat {a : ℕ} (ha : a < 2 ^ 31) : Denotes h (.cat a) (.atom a)
  | pug {off use_w mug_w : ℕ} {buf_w : List ℕ} (hbox : h off = some ⟨use_w, mug_w, .atom buf_w⟩) :
      Denotes h (.pug off) (.atom (valueOf buf_w))
  | pom {off use_w mug_w : ℕ} {hed tel : Ref} {nh nt : Noun}
      (hbox : h off = some ⟨use_w, mug_w, .cell hed tel⟩) (hhed : Denotes h hed nh)
      (htel : Denotes h tel nt) : Denotes h (.pom off) (.cell nh nt)

variable {h : Heap}

theorem Denotes.unique {r : Ref} {n m : Noun} (hn : Denotes h r n) (hm : Denotes h r m) :
    n = m := by
  induction hn generalizing m with
  | cat _ =>
    cases hm
    rfl
  | pug hbox =>
    cases hm with
    | pug hbox' =>
      cases hbox.symm.trans hbox'
      rfl
  | pom hbox _ _ ihhed ihtel =>
    cases hm with
    | pom hbox' hhed htel =>
      cases hbox.symm.trans hbox'
      rw [ihhed hhed, ihtel htel]

/-- The part of a noun at the end of a path. -/
def part (h : Heap) : Ref → List Arm → Option Ref
  | r, [] => some r
  | .pom off, arm :: path =>
    match h off with
    | some ⟨_, _, .cell hed tel⟩ => part h (arm.pick hed tel) path
    | _ => none
  | _, _ :: _ => none

theorem part_cell {off use_w mug_w : ℕ} {hed tel : Ref}
    (hbox : h off = some ⟨use_w, mug_w, .cell hed tel⟩) (arm : Arm) (path : List Arm) :
    part h (.pom off) (arm :: path) = part h (arm.pick hed tel) path := by
  rw [part, hbox]

/-- The parts of a noun are nouns, and not larger. -/
theorem Denotes.part {r r' : Ref} {n : Noun} {path : List Arm} (hden : Denotes h r n)
    (hpart : Take.part h r path = some r') : ∃ m, Denotes h r' m ∧ m.size ≤ n.size := by
  induction path generalizing r n with
  | nil =>
    obtain rfl := Option.some.inj hpart
    exact ⟨n, hden, Nat.le_refl _⟩
  | cons arm path ih =>
    cases hden with
    | cat _ => cases hpart
    | pug _ => cases hpart
    | pom hbox hhed htel =>
      rw [part_cell hbox] at hpart
      cases arm with
      | hed =>
        obtain ⟨m, hdenotes, hle⟩ := ih hhed hpart
        exact ⟨m, hdenotes, hle.trans (by simp only [Noun.size]; omega)⟩
      | tel =>
        obtain ⟨m, hdenotes, hle⟩ := ih htel hpart
        exact ⟨m, hdenotes, hle.trans (by simp only [Noun.size]; omega)⟩

theorem off_toRef (body : Body) (off : ℕ) : (body.toRef off).off = some off := by
  cases body with
  | atom buf_w => rfl
  | cell hed tel => rfl

/-- A noun on the loom is in the box of its kind. -/
theorem Denotes.box {r : Ref} {n : Noun} {off : ℕ} (hden : Denotes h r n)
    (hoff : r.off = some off) :
    ∃ box, h off = some box ∧ box.body.toRef off = r := by
  cases hden with
  | cat _ => cases hoff
  | pug hbox =>
    obtain rfl := Option.some.inj hoff
    exact ⟨_, hbox, rfl⟩
  | pom hbox _ _ =>
    obtain rfl := Option.some.inj hoff
    exact ⟨_, hbox, rfl⟩

theorem refOf_pug {off : ℕ} (hoff : off < 2 ^ 30) : refOf (2 ^ 31 + off) = .pug off := by
  unfold refOf
  rw [if_neg (by omega), if_pos (by omega), Nat.add_sub_cancel_left]

theorem refOf_pom (off : ℕ) : refOf (2 ^ 31 + 2 ^ 30 + off) = .pom off := by
  unfold refOf
  rw [if_neg (by omega), if_neg (by omega), Nat.add_sub_cancel_left]

/-- A reference in the place of a mug is told from a mug. -/
theorem refOf_word {off : ℕ} (body : Body) (hoff : off < 2 ^ 30) :
    2 ^ 31 ≤ (body.toRef off).word ∧ refOf (body.toRef off).word = body.toRef off := by
  cases body with
  | atom buf_w => exact ⟨Nat.le_add_right _ _, refOf_pug hoff⟩
  | cell hed tel => exact ⟨(Nat.le_add_right _ _).trans (Nat.le_add_right _ _), refOf_pom off⟩

/-- How often a box is referred to. -/
def uses (rs : List Ref) (off : ℕ) : ℕ := rs.countP fun r ↦ r.off = some off

theorem uses_append (rs rs' : List Ref) (off : ℕ) :
    uses (rs ++ rs') off = uses rs off + uses rs' off :=
  List.countP_append

theorem uses_cons (r : Ref) (rs : List Ref) (off : ℕ) :
    uses (r :: rs) off = uses rs off + if r.off = some off then 1 else 0 := by
  unfold uses
  rw [List.countP_cons]
  simp only [decide_eq_true_eq]

theorem uses_perm {rs rs' : List Ref} (hperm : rs.Perm rs') (off : ℕ) :
    uses rs off = uses rs' off :=
  hperm.countP_eq _

theorem uses_eq_zero {rs : List Ref} {off : ℕ} (hnone : ∀ r ∈ rs, r.off ≠ some off) :
    uses rs off = 0 :=
  List.countP_eq_zero.mpr fun r hr ↦ by simpa using hnone r hr

/-! ### Roads -/

section Road

variable {rod_u rod_u' : Road} {north : Bool} {off : ℕ}

theorem Road.Bounded.isNorth (hbounded : rod_u.Bounded north) : rod_u.isNorth = north := by
  cases north with
  | true => exact decide_eq_true hbounded.2.1
  | false => exact decide_eq_false (Nat.not_lt.mpr hbounded.2.1)

theorem Road.Heaped.not_senior (hbounded : rod_u.Bounded north) (hheaped : rod_u.Heaped north off) :
    rod_u.isSenior north off = false := by
  cases north with
  | true =>
    obtain ⟨_, hhat, hcap, _⟩ := hbounded
    obtain ⟨hlow, hhigh⟩ := hheaped
    simp only [Road.isSenior, if_true, decide_eq_false_iff_not]
    omega
  | false =>
    obtain ⟨hmat, hcap, _⟩ := hbounded
    obtain ⟨hlow, hhigh⟩ := hheaped
    simp only [Road.isSenior, Bool.false_eq_true, if_false, decide_eq_false_iff_not]
    omega

theorem Road.Heaped.not_junior (hbounded : rod_u.Bounded north) (hheaped : rod_u.Heaped north off) :
    rod_u.isJunior north off = false := by
  cases north with
  | true =>
    obtain ⟨_, hhat, hcap, _⟩ := hbounded
    obtain ⟨hlow, hhigh⟩ := hheaped
    simp only [Road.isJunior, if_true, decide_eq_false_iff_not]
    omega
  | false =>
    obtain ⟨hmat, hcap, _⟩ := hbounded
    obtain ⟨hlow, hhigh⟩ := hheaped
    simp only [Road.isJunior, Bool.false_eq_true, if_false, decide_eq_false_iff_not]
    omega

theorem Road.Heaped.normal (hbounded : rod_u.Bounded north) (hheaped : rod_u.Heaped north off) :
    rod_u.isNormal north off = true := by
  rw [Road.isNormal, hheaped.not_senior hbounded, hheaped.not_junior hbounded]
  rfl

theorem Road.Heaped.lt (hbounded : rod_u.Bounded north) (hheaped : rod_u.Heaped north off) :
    off < 2 ^ 30 := by
  cases north with
  | true =>
    obtain ⟨_, hhat, hcap, _, hmat⟩ := hbounded
    exact hheaped.2.trans_le ((hhat.le.trans hcap).trans hmat)
  | false =>
    obtain ⟨_, _, _, _, hrut⟩ := hbounded
    exact hheaped.2.trans_le hrut

theorem Road.junior_not_senior (hbounded : rod_u.Bounded north)
    (hjunior : rod_u.isJunior north off = true) :
    rod_u.isSenior north off = false := by
  cases north with
  | true =>
    obtain ⟨_, hhat, hcap, _⟩ := hbounded
    simp only [Road.isJunior, Road.isSenior, if_true, decide_eq_true_eq,
      decide_eq_false_iff_not] at hjunior ⊢
    omega
  | false =>
    obtain ⟨hmat, hcap, hhat, _⟩ := hbounded
    simp only [Road.isJunior, Road.isSenior, Bool.false_eq_true, if_false, decide_eq_true_eq,
      decide_eq_false_iff_not] at hjunior ⊢
    omega

end Road

/-! ### The copies -/

/-- A copy, with the references in it. -/
structure Copy where
  old : ℕ
  new : ℕ
  refs : List Ref

/-- The references in copies. -/
def held (cps : List Copy) : List Ref := cps.flatMap Copy.refs

/-- What a reference becomes. Only junior nouns are copied. -/
inductive Moves (junior : ℕ → Prop) (cps : List Copy) : Ref → Ref → Prop
  | cat (a : ℕ) : Moves junior cps (.cat a) (.cat a)
  | stay {r : Ref} {off : ℕ} (hoff : r.off = some off)
  (hjunior : ¬junior off) : Moves junior cps r r
  | pug {cp : Copy} (hcp : cp ∈ cps) : Moves junior cps (.pug cp.old) (.pug cp.new)
  | pom {cp : Copy} (hcp : cp ∈ cps) : Moves junior cps (.pom cp.old) (.pom cp.new)

/-- What a box becomes. -/
inductive BodyMoves (junior : ℕ → Prop) (cps : List Copy) : Body → Body → Prop
  | atom (buf_w : List ℕ) : BodyMoves junior cps (.atom buf_w) (.atom buf_w)
  | cell {hed tel hed' tel' : Ref} (hhed : Moves junior cps hed hed')
  (htel : Moves junior cps tel tel') :
      BodyMoves junior cps (.cell hed tel) (.cell hed' tel')

variable {A : Allocator} {junior : ℕ → Prop} {cps cps' : List Copy} {r r' : Ref} {body body' : Body}

theorem Moves.mono (hsub : cps ⊆ cps') (hmoves : Moves junior cps r r') :
    Moves junior cps' r r' := by
  cases hmoves with
  | cat a => exact .cat a
  | stay hoff hjunior => exact .stay hoff hjunior
  | pug hcp => exact .pug (hsub hcp)
  | pom hcp => exact .pom (hsub hcp)

theorem BodyMoves.mono (hsub : cps ⊆ cps') (hmoves : BodyMoves junior cps body body') :
    BodyMoves junior cps' body body' := by
  cases hmoves with
  | atom buf_w => exact .atom buf_w
  | cell hhed htel => exact .cell (hhed.mono hsub) (htel.mono hsub)

theorem BodyMoves.toRef_eq (hmoves : BodyMoves junior cps body body') (off : ℕ) :
    body'.toRef off = body.toRef off := by
  cases hmoves with
  | atom buf_w => rfl
  | cell hhed htel => rfl

theorem Moves.of_copy {cp : Copy} (hcp : cp ∈ cps) (body : Body) :
    Moves junior cps (body.toRef cp.old) (body.toRef cp.new) := by
  cases body with
  | atom buf_w => exact .pug hcp
  | cell hed tel => exact .pom hcp

/-- The start of a copy. Every box has a noun, and none has been copied. Nouns of a road do not
refer to inner roads. -/
structure Ready (R₀ : Road) (north : Bool) (h₀ : Heap) : Prop where
  bounded : R₀.Bounded north
  nouns : ∀ off box, h₀ off = some box → ∃ n, Denotes h₀ (box.body.toRef off) n
  placed : ∀ off box, h₀ off = some box →
    R₀.isSenior north off = true ∨ R₀.Heaped north off ∨ R₀.isJunior north off = true
  used : ∀ off box, h₀ off = some box → R₀.Heaped north off → 0 < box.use_w
  mugs : ∀ off box, h₀ off = some box → R₀.isJunior north off = true → box.mug_w < 2 ^ 31
  lengths : ∀ off use_w mug_w buf_w, h₀ off = some ⟨use_w, mug_w, .atom buf_w⟩ →
    buf_w.length + 5 < 2 ^ 32
  outward : ∀ off box, h₀ off = some box → R₀.isJunior north off = false → ∀ r ∈ box.body.refs, ∀ b,
    r.off = some b → R₀.isJunior north b = false

/-- A copy in progress. Old boxes hold what they held. A junior one that has been copied refers to
its copy, whose use count is the number of references to it from copies and from the program. -/
structure Taking (R₀ : Road) (north : Bool) (h₀ : Heap) (cps : List Copy) (pend : List Ref)
    (s : Loom A) :
    Prop where
  bounded : s.rod_u.Bounded north
  mat : s.rod_u.mat_p = R₀.mat_p
  rut : s.rod_u.rut_p = R₀.rut_p
  cap : if north then s.rod_u.cap_p + 2 * s.pil_u.length = R₀.cap_p
    else s.rod_u.cap_p = R₀.cap_p + 2 * s.pil_u.length
  grows : ∀ off, h₀ off ≠ none → R₀.Heaped north off → s.rod_u.Heaped north off
  holds : A.Holds s.pool s.rod_u north fun off ↦ s.heap off ≠ none ∧ s.rod_u.Heaped north off
  olds : (cps.map Copy.old).Nodup
  news : (cps.map Copy.new).Nodup
  old : ∀ off box, h₀ off = some box → ∃ use_w mug_w, s.heap off = some ⟨use_w, mug_w, box.body⟩ ∧
    (R₀.Heaped north off → use_w = box.use_w + uses (held cps ++ pend) off) ∧
    (¬R₀.Heaped north off → use_w = box.use_w) ∧
    ((∃ cp ∈ cps, cp.old = off ∧ mug_w = (box.body.toRef cp.new).word) ∨
      (∀ cp ∈ cps, cp.old ≠ off) ∧ mug_w = box.mug_w)
  new : ∀ cp ∈ cps, R₀.isJunior north cp.old = true ∧ s.rod_u.Heaped north cp.new ∧
    h₀ cp.new = none ∧
    ∃ box body, h₀ cp.old = some box ∧
      BodyMoves (fun off ↦ R₀.isJunior north off = true) cps box.body body ∧
      cp.refs = body.refs ∧ s.heap cp.new = some ⟨uses (held cps ++ pend) cp.new, box.mug_w, body⟩
  absent : ∀ off, h₀ off = none → (∀ cp ∈ cps, cp.new ≠ off) → s.heap off = none
  live : ∀ r ∈ held cps ++ pend, ∀ off, r.off = some off → s.heap off ≠ none
  counted : ∀ cp ∈ cps, 0 < uses (held cps ++ pend) cp.new

variable {R₀ : Road} {north : Bool} {h₀ : Heap} {pend rest : List Ref} {s : Loom A} {off : ℕ}
  {box : Box}

theorem Ready.taking (hready : Ready s.rod_u north s.heap) (hpile : s.pil_u = [])
    (hholds : A.Holds s.pool s.rod_u north fun off ↦ s.heap off ≠ none ∧ s.rod_u.Heaped north off) :
    Taking s.rod_u north s.heap [] [] s where
  bounded := hready.bounded
  mat := rfl
  rut := rfl
  cap := by
    rw [hpile]
    cases north <;> rfl
  grows _ _ hheaped := hheaped
  holds := hholds
  olds := .nil
  news := .nil
  old off box hbox := ⟨box.use_w, box.mug_w, hbox, fun _ ↦ rfl, fun _ ↦ rfl, .inr ⟨nofun, rfl⟩⟩
  new := nofun
  absent _ hnone _ := hnone
  live := nofun
  counted := nofun

/-- Where an old box is, on the road as it has become. -/
theorem Taking.place (hready : Ready R₀ north h₀) (htaking : Taking R₀ north h₀ cps pend s)
    (hbox : h₀ off = some box) :
    s.rod_u.isSenior north off = R₀.isSenior north off ∧
      (R₀.isSenior north off = false → s.rod_u.isJunior north off = R₀.isJunior north off) ∧
      (R₀.isSenior north off = false → R₀.isJunior north off = false → R₀.Heaped north off) := by
  have hsenior : s.rod_u.isSenior north off = R₀.isSenior north off := by
    unfold Road.isSenior
    rw [htaking.mat, htaking.rut]
  refine ⟨hsenior, fun hnot ↦ ?_, fun hnot hjunior ↦ ?_⟩
  · rcases hready.placed off box hbox with hold | hheaped | hjunior
    · rw [hold] at hnot
      cases hnot
    · rw [hheaped.not_junior hready.bounded,
      (htaking.grows off (by rw [hbox]; nofun) hheaped).not_junior htaking.bounded]
    · have hcap := htaking.cap
      have hmat := htaking.mat
      rw [hjunior]
      cases north with
      | true =>
        simp only [Road.isJunior, if_true, decide_eq_true_eq] at hjunior hcap ⊢
        omega
      | false =>
        simp only [Road.isJunior, Bool.false_eq_true, if_false, decide_eq_true_eq] at hjunior hcap ⊢
        omega
  · rcases hready.placed off box hbox with hold | hheaped | hold
    · rw [hold] at hnot
      cases hnot
    · exact hheaped
    · rw [hold] at hjunior
      cases hjunior

/-- A box that is neither senior nor junior is in the heap of the road. -/
theorem Taking.heaped (hready : Ready R₀ north h₀) (htaking : Taking R₀ north h₀ cps pend s)
    (hbox : s.heap off ≠ none) (hsenior : s.rod_u.isSenior north off = false)
    (hjunior : s.rod_u.isJunior north off = false) : s.rod_u.Heaped north off := by
  cases hold : h₀ off with
  | some box =>
    obtain ⟨hsame, hplace, hheaped⟩ := htaking.place hready hold
    have hnot := hsame.symm.trans hsenior
    exact htaking.grows off (by rw [hold]; nofun) (hheaped hnot ((hplace hnot).symm.trans hjunior))
  | none =>
    by_contra hnot
    refine hbox (htaking.absent off hold fun cp hcp hnew ↦ hnot ?_)
    rw [← hnew]
    exact (htaking.new cp hcp).2.1

/-- Frames are pushed and dropped. -/
theorem Taking.stack (htaking : Taking R₀ north h₀ cps pend s) {cap_p : ℕ} {pil_u : List Frame}
    (hbounded : Road.Bounded { s.rod_u with cap_p := cap_p } north)
    (hcap : if north then cap_p + 2 * pil_u.length = R₀.cap_p
      else cap_p = R₀.cap_p + 2 * pil_u.length) :
    Taking R₀ north h₀ cps pend { s with
      rod_u := { s.rod_u with cap_p := cap_p }, pil_u := pil_u } :=
  ⟨hbounded, htaking.mat, htaking.rut, hcap, htaking.grows, A.holds_mono htaking.holds hbounded
    fun _ hlive ↦ hlive,
    htaking.olds, htaking.news, htaking.old, htaking.new, htaking.absent, htaking.live,
    htaking.counted⟩

theorem uses_middle (rs : List Ref) (r : Ref) (rs' : List Ref) (off : ℕ) :
    uses (rs ++ r :: rs') off = uses (rs ++ rs') off + if r.off = some off then 1 else 0 := by
  rw [uses_perm List.perm_middle, uses_cons]

/-- A reference is gained to a box of the road. -/
theorem Taking.gain (htaking : Taking R₀ north h₀ cps pend s) (hoff : r.off = some off)
    (hbox : s.heap off = some box) (hheaped : h₀ off ≠ none → R₀.Heaped north off) :
    Taking R₀ north h₀ cps (r :: pend)
      { s with heap := Function.update s.heap off (some { box with use_w := box.use_w + 1 }) } := by
  have hother : ∀ b, b ≠ off → uses (held cps ++ r :: pend) b = uses (held cps ++ pend) b := by
    intro b hb
    rw [uses_middle, if_neg (by rw [hoff]; simpa using hb.symm), Nat.add_zero]
  have hself : uses (held cps ++ r :: pend) off = uses (held cps ++ pend) off + 1 := by
    rw [uses_middle, if_pos hoff]
  have hsome : ∀ b, Function.update s.heap off (some { box with use_w := box.use_w + 1 }) b ≠ none ↔
      s.heap b ≠ none := by
    intro b
    by_cases hb : b = off
    · rw [hb, Function.update_self, hbox]
      exact iff_of_true nofun nofun
    · rw [Function.update_of_ne hb]
  refine ⟨htaking.bounded, htaking.mat, htaking.rut, htaking.cap, htaking.grows, ?_, htaking.olds,
    htaking.news,
    fun b box' hbox' ↦ ?_, fun cp hcp ↦ ?_, fun b hnone hnew ↦ ?_, fun r' hr' b hb ↦ ?_,
    fun cp hcp ↦ ?_⟩
  · exact A.holds_mono htaking.holds htaking.bounded fun b hlive ↦ ⟨(hsome b).mp hlive.1, hlive.2⟩
  · obtain ⟨use_w, mug_w, hheap, hnormal, houter, hmug⟩ := htaking.old b box' hbox'
    by_cases hb : b = off
    · subst hb
      obtain rfl := Option.some.inj (hbox.symm.trans hheap)
      have hroad := hheaped (by rw [hbox']; nofun)
      refine ⟨_, _, Function.update_self .., fun _ ↦ ?_, fun hnot ↦ absurd hroad hnot, hmug⟩
      rw [hself, ← Nat.add_assoc, ← hnormal hroad]
    · refine ⟨use_w, mug_w, (Function.update_of_ne hb ..).trans hheap, fun hroad ↦ ?_, houter, hmug⟩
      rw [hother b hb]
      exact hnormal hroad
  · obtain ⟨hjunior, hnew, hfresh, box', body, hold, hmoves, hrefs, hheap⟩ := htaking.new cp hcp
    refine ⟨hjunior, hnew, hfresh, box', body, hold, hmoves, hrefs, ?_⟩
    by_cases hb : cp.new = off
    · rw [hb, hself]
      show Function.update s.heap off _ off = _
      rw [Function.update_self, Option.some.inj (hbox.symm.trans (hb ▸ hheap))]
    · rw [hother _ hb]
      exact (Function.update_of_ne hb ..).trans hheap
  · have hb : b ≠ off := by
      rintro rfl
      rw [htaking.absent b hnone hnew] at hbox
      cases hbox
    exact (Function.update_of_ne hb ..).trans (htaking.absent b hnone hnew)
  · rcases List.mem_cons.mp (List.perm_middle.mem_iff.mp hr') with rfl | hr'
    · obtain rfl := Option.some.inj (hoff.symm.trans hb)
      exact (hsome off).mpr (by rw [hbox]; nofun)
    · exact (hsome b).mpr (htaking.live r' hr' b hb)
  · rw [uses_middle]
    exact Nat.add_pos_left (htaking.counted cp hcp) _

/-- A junior box is copied, when what it refers to has been. -/
theorem Taking.copy (hready : Ready R₀ north h₀) (htaking : Taking R₀ north h₀ cps pend s)
    {pool : A.Pool} {len_w hat_p old new : ℕ} (hjunior : R₀.isJunior north old = true)
    (hnot : ∀ cp ∈ cps, cp.old ≠ old) (hold : h₀ old = some box)
    (hmoves : BodyMoves (fun off ↦ R₀.isJunior north off = true) cps box.body body)
    (hpend : pend.Perm (body.refs ++ rest)) (hlen : len_w + 3 < 2 ^ 32)
    (hwalloc : A.walloc s.pool s.rod_u len_w = some (pool, hat_p, new)) :
    s.heap old = some box ∧ new ≠ old ∧
    Taking R₀ north h₀ (⟨old, new, body.refs⟩ :: cps) (body.toRef new :: rest)
      { s with
        pool := pool
        rod_u := { s.rod_u with hat_p := hat_p }
        heap := Function.update (Function.update s.heap new (some ⟨1, box.mug_w, body⟩)) old
          (some { box with mug_w := (body.toRef new).word }) } := by
  obtain ⟨hbounded, hgrows, hheaped, hnotLive, hholds⟩ :=
    A.walloc_holds htaking.bounded htaking.holds hlen hwalloc
  have hnotHeaped : ¬R₀.Heaped north old := by
    intro hheaped
    rw [hheaped.not_junior hready.bounded] at hjunior
    cases hjunior
  have hheapOld : s.heap old = some box := by
    obtain ⟨use_w, mug_w, hheap, _, houter, hmug⟩ := htaking.old old box hold
    rcases hmug with ⟨cp, hcp, hcopied, _⟩ | ⟨_, hmug⟩
    · exact absurd hcopied (hnot cp hcp)
    · rw [hheap, houter hnotHeaped, hmug]
  have hheapedOld : ∀ b, s.heap b ≠ none → Road.Heaped { s.rod_u with hat_p := hat_p } north b →
      s.rod_u.Heaped north b := by
    intro b hb hin
    have hsenior : Road.isSenior { s.rod_u with hat_p := hat_p } north b = false :=
      hin.not_senior hbounded
    have hjunior : Road.isJunior { s.rod_u with hat_p := hat_p } north b = false :=
      hin.not_junior hbounded
    exact htaking.heaped hready hb hsenior hjunior
  have hkept : ∀ b, h₀ b ≠ none → s.heap b ≠ none := by
    intro b hb
    obtain ⟨box, hbox⟩ := Option.ne_none_iff_exists'.mp hb
    obtain ⟨_, _, hheap, _⟩ := htaking.old b box hbox
    rw [hheap]
    nofun
  have hnone : s.heap new = none := by
    by_contra hsome
    exact hnotLive ⟨hsome, hheapedOld new hsome hheaped⟩
  have hne : ∀ b, s.heap b ≠ none → b ≠ new := by
    rintro b hb rfl
    exact hb hnone
  have hneOld : new ≠ old := fun h ↦ hne old (by rw [hheapOld]; nofun) h.symm
  have hunused : uses (held cps ++ pend) new = 0 :=
    uses_eq_zero fun r hr hoff ↦ htaking.live r hr new hoff hnone
  have hcount : ∀ b, uses (held (⟨old, new, body.refs⟩ :: cps) ++ body.toRef new :: rest) b =
      uses (held cps ++ pend) b + if b = new then 1 else 0 := by
    intro b
    have hheld : held (⟨old, new, body.refs⟩ :: cps) = body.refs ++ held cps := rfl
    rw [uses_middle, hheld, uses_append, uses_append, uses_append, uses_perm hpend, uses_append,
      off_toRef]
    simp only [Option.some.injEq, eq_comm (a := new)]
    omega
  have hkeep : ∀ b, b ≠ old → b ≠ new →
      Function.update (Function.update s.heap new (some ⟨1, box.mug_w, body⟩)) old
      (some { box with mug_w := (body.toRef new).word }) b = s.heap b :=
    fun b hbOld hbNew ↦ (Function.update_of_ne hbOld ..).trans (Function.update_of_ne hbNew ..)
  have hsome : ∀ b, b ≠ new → s.heap b ≠ none → Function.update (Function.update s.heap new
      (some ⟨1, box.mug_w, body⟩)) old (some { box with mug_w := (body.toRef new).word }) b ≠
        none := by
    intro b hbNew hb
    by_cases hbOld : b = old
    · rw [hbOld, Function.update_self]
      nofun
    · rw [hkeep b hbOld hbNew]
      exact hb
  have hsub : cps ⊆ ⟨old, new, body.refs⟩ :: cps := List.subset_cons_self _ _
  refine ⟨hheapOld, hneOld, hbounded, htaking.mat, htaking.rut, htaking.cap,
    fun b hlive hin ↦ hgrows b ⟨hkept b hlive, htaking.grows b hlive hin⟩, ?_, List.nodup_cons.mpr
      ⟨?_, htaking.olds⟩,
    List.nodup_cons.mpr ⟨?_, htaking.news⟩, fun b box' hbox' ↦ ?_, fun cp hcp ↦ ?_,
      fun b hbNone hbNew ↦
      ?_,
    fun r hr b hb ↦ ?_, fun cp hcp ↦ ?_⟩
  · refine A.holds_mono hholds hbounded fun b hlive ↦ ?_
    by_cases hb : b = new
    · exact .inr hb
    · have hbSome : s.heap b ≠ none := by
        intro hbNone
        by_cases hbOld : b = old
        · rw [hbOld, hheapOld] at hbNone
          cases hbNone
        · exact hlive.1 ((hkeep b hbOld hb).trans hbNone)
      exact .inl ⟨hbSome, hheapedOld b hbSome hlive.2⟩
  · rintro hmem
    obtain ⟨cp, hcp, hcopied⟩ := List.mem_map.mp hmem
    exact hnot cp hcp hcopied
  · rintro hmem
    obtain ⟨cp, hcp, hcopied⟩ := List.mem_map.mp hmem
    obtain ⟨_, _, _, _, _, _, _, _, hheap⟩ := htaking.new cp hcp
    rw [show cp.new = new from hcopied, hnone] at hheap
    cases hheap
  · obtain ⟨use_w, mug_w, hheap, hnormal, houter, hmug⟩ := htaking.old b box' hbox'
    by_cases hbOld : b = old
    · subst hbOld
      obtain rfl := Option.some.inj (hold.symm.trans hbox')
      refine ⟨box.use_w, _, Function.update_self .., fun hin ↦ absurd hin hnotHeaped, fun _ ↦
        rfl, .inl ?_⟩
      exact ⟨_, List.mem_cons_self, rfl, congrArg Ref.word (hmoves.toRef_eq new)⟩
    · have hbNew := hne b (by rw [hheap]; nofun)
      refine ⟨use_w, mug_w, (hkeep b hbOld hbNew).trans hheap, fun hin ↦ ?_, houter, ?_⟩
      · rw [hcount, if_neg hbNew, Nat.add_zero]
        exact hnormal hin
      · rcases hmug with ⟨cp, hcp, hcopied⟩ | ⟨hall, hmug⟩
        · exact .inl ⟨cp, hsub hcp, hcopied⟩
        · refine .inr ⟨fun cp hcp ↦ ?_, hmug⟩
          rcases List.mem_cons.mp hcp with rfl | hcp
          · exact Ne.symm hbOld
          · exact hall cp hcp
  · rcases List.mem_cons.mp hcp with rfl | hcp
    · have hfresh : h₀ new = none := by
        by_contra hsome
        obtain ⟨box', hbox'⟩ := Option.ne_none_iff_exists'.mp hsome
        obtain ⟨_, _, hheap, _⟩ := htaking.old new box' hbox'
        rw [hnone] at hheap
        cases hheap
      refine ⟨hjunior, hheaped, hfresh, box, body, hold, hmoves.mono hsub, rfl, ?_⟩
      rw [hcount, hunused, if_pos rfl]
      exact (Function.update_of_ne hneOld ..).trans (Function.update_self ..)
    · obtain ⟨hjun, hin, hfresh, box', body', hbox', hmoves', hrefs, hheap⟩ := htaking.new cp hcp
      have hcpNew := hne cp.new (by rw [hheap]; nofun)
      have hcpOld : cp.new ≠ old := by
        intro heq
        rw [heq, hold] at hfresh
        cases hfresh
      refine ⟨hjun, hgrows _ ⟨by rw [hheap]; nofun, hin⟩, hfresh, box', body', hbox',
        hmoves'.mono hsub, hrefs, ?_⟩
      rw [hcount, if_neg hcpNew, Nat.add_zero]
      exact (hkeep _ hcpOld hcpNew).trans hheap
  · have hbOld : b ≠ old := by
      rintro rfl
      rw [hold] at hbNone
      cases hbNone
    have hsame := hkeep b hbOld (hbNew _ List.mem_cons_self).symm
    exact hsame.trans (htaking.absent b hbNone fun cp hcp ↦ hbNew cp (hsub hcp))
  · by_cases hbNew : b = new
    · show Function.update (Function.update s.heap new _) old _ b ≠ none
      rw [hbNew, Function.update_of_ne hneOld, Function.update_self]
      nofun
    · refine hsome b hbNew (htaking.live r ?_ b hb)
      have hnotNew : r ≠ body.toRef new := by
        rintro rfl
        rw [off_toRef] at hb
        exact hbNew (Option.some.inj hb).symm
      rcases List.mem_append.mp hr with hr | hr
      · rcases List.mem_append.mp (show r ∈ body.refs ++ held cps from hr) with hr | hr
        · exact List.mem_append_right _ (hpend.symm.subset (List.mem_append_left _ hr))
        · exact List.mem_append_left _ hr
      · rcases List.mem_cons.mp hr with hr | hr
        · exact absurd hr hnotNew
        · exact List.mem_append_right _ (hpend.symm.subset (List.mem_append_right _ hr))
  · rw [hcount]
    rcases List.mem_cons.mp hcp with rfl | hcp
    · rw [if_pos rfl]
      exact Nat.succ_pos _
    · exact Nat.add_pos_left (htaking.counted cp hcp) _

end Vere.Noun.Take
