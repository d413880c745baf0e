import Vere.Noun.TakeCopy

/-!
# Runs of a copy

`u3a_take()` works on the next noun, and then on the frames of its stack. What the call comes to
with a noun is what the frames come to with the copy of the noun (`Leads`), or a bail in the middle
of the copy, where there is no room for the next part of the noun (`Halts`). This is by induction on
the noun (`take_runs`): a cell is pushed, its head and then its tail are taken, and the frame is
dropped with the copy of the cell.
-/

set_option autoImplicit false

namespace Vere.Noun.Take

open Shared (Ref Arm bind_ok bind_error)

variable {A : Allocator} {R₀ : Road} {north : Bool} {h₀ : Heap} {cps : List Copy} {pend : List Ref}
  {s s' : Loom A}
  {off : ℕ} {box : Box} {veb pro : Ref}

/-- The next noun, and then the frames. -/
def takeFrom (north : Bool) (f g : ℕ) (veb : Ref) : M A Ref := do
  let pro ← takeNext north f veb
  takeLoop north g pro

/-! ### Where a copy bails -/

/-- The words of a copy. -/
def Body.words : Body → ℕ
  | .atom buf_w => buf_w.length + 2
  | .cell .. => 3

/-- The box of a part of the noun, which is junior and has not been copied. -/
structure Due (R₀ : Road) (north : Bool) (h₀ : Heap) (cps : List Copy) (veb : Ref) (box : Box) :
    Prop where
  reached : ∃ path r off, part h₀ veb path = some r ∧ r.off = some off ∧ h₀ off = some box ∧
    R₀.isJunior north off = true ∧ ∀ cp ∈ cps, cp.old ≠ off

/-- There is no box for the copy of a part of the noun, no room for the frame of a part that is a
cell, or the use count of what a part has become is as large as it can be. -/
inductive Spent (R₀ : Road) (north : Bool) (h₀ : Heap) (cps : List Copy) (veb : Ref) (s : Loom A) :
    Stop → Prop
  | box {box : Box} (hdue : Due R₀ north h₀ cps veb box)
      (hnone : A.walloc s.pool s.rod_u box.body.words = none) : Spent R₀ north h₀ cps veb s .meme
  | frame {use_w mug_w : ℕ} {hed tel : Ref}
    (hdue : Due R₀ north h₀ cps veb ⟨use_w, mug_w, .cell hed tel⟩)
      (hframe : if north then s.rod_u.cap_p ≤ s.rod_u.hat_p + 2
        else s.rod_u.hat_p ≤ s.rod_u.cap_p + 2) :
      Spent R₀ north h₀ cps veb s .meme
  | use {path : List Arm} {r q : Ref} {off : ℕ} {box : Box} (hpart : part h₀ veb path = some r)
      (hmoves : Moves (fun b ↦ R₀.isJunior north b = true) cps r q) (hoff : q.off = some off)
      (hbox : s.heap off = some box)
      (huse : box.use_w = 0x7fffffff) : Spent R₀ north h₀ cps veb s .fail

/-- The free lists and the hat are those after the boxes of copies have been allocated. -/
inductive Draws (h₀ : Heap) (s : Loom A) : List Copy → Loom A → Prop
  | same {s' : Loom A} (hpool : s'.pool = s.pool)
      (hroad : s'.rod_u = { s.rod_u with cap_p := s'.rod_u.cap_p }) : Draws h₀ s [] s'
  | copy {more : List Copy} {cp : Copy} {box : Box} {s₁ s' : Loom A} (hdraws : Draws h₀ s more s₁)
      (hbox : h₀ cp.old = some box)
      (hwalloc : A.walloc s₁.pool s₁.rod_u box.body.words = some (s'.pool, s'.rod_u.hat_p, cp.new))
      (hroad : s'.rod_u = { s₁.rod_u with hat_p := s'.rod_u.hat_p, cap_p := s'.rod_u.cap_p }) :
      Draws h₀ s (cp :: more) s'

/-- The stack does not matter. -/
theorem Draws.restack {more : List Copy} {s₁ : Loom A} (hdraws : Draws h₀ s more s₁)
    (hpool : s'.pool = s₁.pool) (hroad : s'.rod_u = { s₁.rod_u with cap_p := s'.rod_u.cap_p }) :
    Draws h₀ s more s' := by
  have hhat : s'.rod_u.hat_p = s₁.rod_u.hat_p := by rw [hroad]
  cases hdraws with
  | same hpool₁ hroad₁ => exact .same (hpool.trans hpool₁) (hroad.trans (by rw [hroad₁]))
  | copy hdraws hbox hwalloc hroad₁ =>
    refine .copy hdraws hbox ?_ ?_
    · rw [hpool, hhat]
      exact hwalloc
    · rw [hhat]
      exact hroad.trans (by rw [hroad₁])

theorem Draws.trans {more more' : List Copy} {s₁ : Loom A} (hfirst : Draws h₀ s more s₁)
    (hsecond : Draws h₀ s₁ more' s') : Draws h₀ s (more' ++ more) s' := by
  induction hsecond with
  | same hpool hroad => exact hfirst.restack hpool hroad
  | copy _ hbox hwalloc hroad ih => exact .copy ih hbox hwalloc hroad

/-- A copy of a noun that has bailed. What has been copied are parts of the noun, whose boxes have
been allocated, and there are no more frames and references of the call than the noun has parts. -/
structure Halts (R₀ : Road) (north : Bool) (h₀ : Heap) (cps : List Copy) (pend : List Ref)
    (s : Loom A) (veb : Ref) (n : Noun) (why : Stop) (s' : Loom A) (more : List Copy)
    (extra : List Ref) : Prop where
  taking : Taking R₀ north h₀ (more ++ cps) (extra ++ pend) s'
  draws : Draws h₀ s more s'
  parts : ∀ cp ∈ more, ∃ path r, part h₀ veb path = some r ∧ r.off = some cp.old
  frames : s'.pil_u.length ≤ s.pil_u.length + n.size
  refs : extra.length ≤ n.size
  spent : Spent R₀ north h₀ (more ++ cps) veb s' why

/-- With enough steps, a call bails. -/
def Bails (run : ℕ → ℕ → EStateM.Result Stop (Loom A) Ref) (why : Stop) (s' : Loom A) : Prop :=
  ∃ need, ∀ f g, need ≤ f → need ≤ g → run f g = .error why s'

/-- A noun that bails in the middle of its copy. -/
def Stops (R₀ : Road) (north : Bool) (h₀ : Heap) (cps : List Copy) (pend : List Ref) (s : Loom A)
    (veb : Ref) (n : Noun) (run : ℕ → ℕ → EStateM.Result Stop (Loom A) Ref) : Prop :=
  ∃ why s' more extra, Halts R₀ north h₀ cps pend s veb n why s' more extra ∧ Bails run why s'

theorem Due.arm {veb arm : Ref} {a : Arm} (hdue : Due R₀ north h₀ cps arm box)
    (hpart : ∀ path, part h₀ veb (a :: path) = part h₀ arm path) : Due R₀ north h₀ cps veb box := by
  obtain ⟨path, r, off, hreach, hrest⟩ := hdue.reached
  exact ⟨a :: path, r, off, (hpart path).trans hreach, hrest⟩

/-- What is spent at a part of a cell is spent at the cell. -/
theorem Spent.arm {veb arm : Ref} {a : Arm} {why : Stop} (hspent : Spent R₀ north h₀ cps arm s why)
    (hpart : ∀ path, part h₀ veb (a :: path) = part h₀ arm path) :
    Spent R₀ north h₀ cps veb s why := by
  cases hspent with
  | box hdue hnone => exact .box (hdue.arm hpart) hnone
  | frame hdue hframe => exact .frame (hdue.arm hpart) hframe
  | use hreach hmoves hoff hbox huse => exact .use ((hpart _).trans hreach) hmoves hoff hbox huse

variable {why : Stop}

/-- A call that bails at its noun. -/
theorem stops_here {n : Noun} {run : ℕ → ℕ → EStateM.Result Stop (Loom A) Ref}
    (htaking : Taking R₀ north h₀ cps pend s) (hspent : Spent R₀ north h₀ cps veb s why)
    (hbails : Bails run why s) : Stops R₀ north h₀ cps pend s veb n run :=
  ⟨why, s, [], [], ⟨htaking, .same rfl rfl, nofun, Nat.le_add_right _ _, Nat.zero_le _,
    hspent⟩, hbails⟩

/-- With enough steps, a call comes to what the frames come to with a product. -/
def Leads (north : Bool) (run : ℕ → ℕ → EStateM.Result Stop (Loom A) Ref) (pro : Ref)
    (s' : Loom A) :
    Prop :=
  ∀ r, (∃ need, ∀ g, need ≤ g → takeLoop north g pro s' = r) →
    ∃ need, ∀ f g, need ≤ f → need ≤ g → run f g = r

theorem bails_of_error (herror : ∀ f, takeNext north (f + 1) veb s = .error why s') :
    Bails (fun f g ↦ takeFrom north f g veb s) why s' := by
  refine ⟨1, fun f g hf _ ↦ ?_⟩
  obtain ⟨f, rfl⟩ := Nat.exists_eq_add_of_le' hf
  exact bind_error (herror f) _

theorem leads_of_ok (hok : ∀ f, takeNext north (f + 1) veb s = .ok pro s') :
    Leads north (fun f g ↦ takeFrom north f g veb s) pro s' := by
  rintro r ⟨need, hneed⟩
  refine ⟨need + 1, fun f g hf hg ↦ ?_⟩
  obtain ⟨f, rfl⟩ := Nat.exists_eq_add_of_le' ((Nat.le_add_left 1 need).trans hf)
  exact (bind_ok (hok f) _).trans (hneed g ((Nat.le_succ need).trans hg))

/-- The frames bail. -/
theorem Leads.bails {run : ℕ → ℕ → EStateM.Result Stop (Loom A) Ref} {s'' : Loom A}
    (hleads : Leads north run pro s')
    (herror : ∀ g, takeLoop north (g + 1) pro s' = .error why s'') :
    Bails run why s'' := by
  refine hleads _ ⟨1, fun g hg ↦ ?_⟩
  obtain ⟨g, rfl⟩ := Nat.exists_eq_add_of_le' hg
  exact herror g

/-- The frames go on. -/
theorem Leads.step {run : ℕ → ℕ → EStateM.Result Stop (Loom A) Ref} {pro' : Ref} {s'' : Loom A}
    (hleads : Leads north run pro s')
      (hstep : ∀ g, takeLoop north (g + 1) pro s' = takeLoop north g pro' s'') :
    Leads north run pro' s'' := by
  rintro r ⟨need, hneed⟩
  refine hleads r ⟨need + 1, fun g hg ↦ ?_⟩
  obtain ⟨g, rfl⟩ := Nat.exists_eq_add_of_le' ((Nat.le_add_left 1 need).trans hg)
  exact (hstep g).trans (hneed g (by omega))

section Next

variable {run : ℕ → ℕ → EStateM.Result Stop (Loom A) Ref} {tel : Ref} {s₁ : Loom A}

/-- The frames go on with another noun, which bails. -/
theorem Leads.next_bails {s'' : Loom A} (hleads : Leads north run pro s')
    (hstep : ∀ g, takeLoop north (g + 1) pro s' = takeFrom north g g tel s₁)
    (hbails : Bails (fun f g ↦ takeFrom north f g tel s₁) why s'') : Bails run why s'' := by
  obtain ⟨need, hneed⟩ := hbails
  refine hleads _ ⟨need + 1, fun g hg ↦ ?_⟩
  obtain ⟨g, rfl⟩ := Nat.exists_eq_add_of_le' ((Nat.le_add_left 1 need).trans hg)
  exact (hstep g).trans (hneed g g (by omega) (by omega))

/-- The frames go on with another noun. -/
theorem Leads.next {pro' : Ref} {s'' : Loom A} (hleads : Leads north run pro s')
    (hstep : ∀ g, takeLoop north (g + 1) pro s' = takeFrom north g g tel s₁)
    (hnext : Leads north (fun f g ↦ takeFrom north f g tel s₁) pro' s'') :
    Leads north run pro' s'' := by
  rintro r hends
  obtain ⟨need, hneed⟩ := hnext r hends
  refine hleads r ⟨need + 1, fun g hg ↦ ?_⟩
  obtain ⟨g, rfl⟩ := Nat.exists_eq_add_of_le' ((Nat.le_add_left 1 need).trans hg)
  exact (hstep g).trans (hneed g g (by omega) (by omega))

/-- A cell is pushed, and its head is next. -/
theorem bails_of_head {hed : Ref} {s'' : Loom A}
    (hstep : ∀ f, takeNext north (f + 1) veb s = takeNext north f hed s₁)
    (hbails : Bails (fun f g ↦ takeFrom north f g hed s₁) why s'') :
    Bails (fun f g ↦ takeFrom north f g veb s) why s'' := by
  obtain ⟨need, hneed⟩ := hbails
  refine ⟨need + 1, fun f g hf hg ↦ ?_⟩
  obtain ⟨f, rfl⟩ := Nat.exists_eq_add_of_le' ((Nat.le_add_left 1 need).trans hf)
  exact (Shared.bind_eq (hstep f) _).trans (hneed f g (by omega) (by omega))

theorem leads_of_head {hed : Ref}
    (hstep : ∀ f, takeNext north (f + 1) veb s = takeNext north f hed s₁)
    (hleads : Leads north (fun f g ↦ takeFrom north f g hed s₁) pro s') :
    Leads north (fun f g ↦ takeFrom north f g veb s) pro s' := by
  rintro r hends
  obtain ⟨need, hneed⟩ := hleads r hends
  refine ⟨need + 1, fun f g hf hg ↦ ?_⟩
  obtain ⟨f, rfl⟩ := Nat.exists_eq_add_of_le' ((Nat.le_add_left 1 need).trans hf)
  exact (Shared.bind_eq (hstep f) _).trans (hneed f g (by omega) (by omega))

end Next

theorem takeNext_none (hoff : veb.off = none) (f : ℕ) :
    takeNext north (f + 1) veb s = .ok veb s := by
  rw [takeNext, hoff]
  rfl

theorem takeNext_senior (hoff : veb.off = some off) (hsenior : s.rod_u.isSenior north off = true)
    (f : ℕ) :
    takeNext north (f + 1) veb s = .ok veb s := by
  rw [takeNext, hoff]
  show (if s.rod_u.isSenior north off = true then pure veb else _ : M A Ref) s = _
  rw [if_pos hsenior]
  rfl

theorem takeNext_normal (hoff : veb.off = some off) (hsenior : s.rod_u.isSenior north off = false)
    (hjunior : s.rod_u.isJunior north off = false) (f : ℕ) :
    takeNext north (f + 1) veb s = (do gainUse off; pure veb : M A Ref) s := by
  rw [takeNext, hoff]
  show (if s.rod_u.isSenior north off = true then pure veb
    else if (!s.rod_u.isJunior north off) = true then
    (do gainUse off; pure veb) else _ : M A Ref) s = _
  rw [if_neg (by rw [hsenior]; exact Bool.false_ne_true), if_pos (by rw [hjunior]; rfl)]

section Junior

variable (hoff : veb.off = some off) (hsenior : s.rod_u.isSenior north off = false)
  (hjunior : s.rod_u.isJunior north off = true) (hbox : s.heap off = some box)

include hoff hsenior hjunior hbox

/-- A noun that has been copied. -/
theorem takeNext_copied {nov : Ref} {new : ℕ} (hmug : 2 ^ 31 ≤ box.mug_w)
    (hnov : refOf box.mug_w = nov) (hnew : nov.off = some new)
    (hnormal : s.rod_u.isNormal north new = true) (f : ℕ) :
    takeNext north (f + 1) veb s = (do gainUse new; pure nov : M A Ref) s := by
  rw [takeNext, hoff]
  show (if s.rod_u.isSenior north off = true then pure veb
    else if (!s.rod_u.isJunior north off) = true then _ else do
      let veb_u ← load off
      _ : M A Ref) s = _
  rw [if_neg (by rw [hsenior]; exact Bool.false_ne_true),
    if_neg (by rw [hjunior]; exact Bool.false_ne_true)]
  rw [bind_ok (show load off s = .ok box s by rw [load, hbox])]
  rw [if_pos hmug]
  subst hnov
  rw [hnew]
  show (if s.rod_u.isNormal north new = true then _ else _ : M A Ref) s = _
  rw [if_pos hnormal]

theorem takeNext_new (hmug : box.mug_w < 2 ^ 31) (f : ℕ) :
    takeNext north (f + 1) veb s =
      (match veb, box.body with
      | .pom _, .cell hed _ => do
        push north ⟨none, off⟩
        takeNext north f hed
      | .pug _, _ => takeAtom off
      | _, _ => throw .fault : M A Ref) s := by
  rw [takeNext, hoff]
  show (if s.rod_u.isSenior north off = true then pure veb
    else if (!s.rod_u.isJunior north off) = true then _ else do
      let veb_u ← load off
      _ : M A Ref) s = _
  rw [if_neg (by rw [hsenior]; exact Bool.false_ne_true),
    if_neg (by rw [hjunior]; exact Bool.false_ne_true)]
  rw [bind_ok (show load off s = .ok box s by rw [load, hbox])]
  exact (congrFun (if_neg (Nat.not_le.mpr hmug)) s).trans rfl

end Junior

theorem gainUse_eq (hbox : s.heap off = some box) (hused : 0 < box.use_w) :
    gainUse off s = .error .fail s ∧ box.use_w = 0x7fffffff ∨
      gainUse off s = .ok () { s with
        heap := Function.update s.heap off (some { box with use_w := box.use_w + 1 }) } := by
  unfold gainUse
  rw [bind_ok (show load off s = .ok box s by rw [load, hbox])]
  by_cases hmax : box.use_w = 0x7fffffff
  · rw [if_pos hmax]
    exact .inl ⟨rfl, hmax⟩
  · rw [if_neg hmax, if_neg hused.ne']
    exact .inr rfl

/-- A reference that is not counted is held. -/
theorem Taking.keep (htaking : Taking R₀ north h₀ cps pend s) {r : Ref}
    (hkeep : ∀ b, r.off = some b → ¬R₀.Heaped north b ∧ h₀ b ≠ none) :
      Taking R₀ north h₀ cps (r :: pend) s := by
  have hsame : ∀ b, (∀ cp ∈ cps, cp.new ≠ b) → R₀.Heaped north b → uses (held cps ++ r :: pend) b =
      uses (held cps ++ pend) b := by
    intro b _ hin
    rw [uses_middle, if_neg fun hb ↦ (hkeep b hb).1 hin, Nat.add_zero]
  have hnew : ∀ cp ∈ cps, uses (held cps ++ r :: pend) cp.new = uses (held cps ++ pend) cp.new := by
    intro cp hcp
    rw [uses_middle, if_neg fun hb ↦ (hkeep _ hb).2 (htaking.new cp hcp).2.2.1, Nat.add_zero]
  refine ⟨htaking.bounded, htaking.mat, htaking.rut, htaking.cap, htaking.grows, htaking.holds,
    htaking.olds,
    htaking.news, fun b box hbox ↦ ?_, fun cp hcp ↦ ?_, htaking.absent, fun r' hr' b hb ↦
      ?_, fun cp hcp ↦ ?_⟩
  · obtain ⟨use_w, mug_w, hheap, hnormal, houter, hmug⟩ := htaking.old b box hbox
    refine ⟨use_w, mug_w, hheap, fun hin ↦ ?_, houter, hmug⟩
    rw [hsame b ?_ hin]
    · exact hnormal hin
    · rintro cp hcp rfl
      rw [(htaking.new cp hcp).2.2.1] at hbox
      cases hbox
  · rw [hnew cp hcp]
    exact htaking.new cp hcp
  · rcases List.mem_cons.mp (List.perm_middle.mem_iff.mp hr') with rfl | hr'
    · obtain ⟨box, hbox⟩ := Option.ne_none_iff_exists'.mp (hkeep b hb).2
      obtain ⟨_, _, hheap, _⟩ := htaking.old b box hbox
      rw [hheap]
      nofun
    · exact htaking.live r' hr' b hb
  · rw [hnew cp hcp]
    exact htaking.counted cp hcp

/-- What taking a noun comes to. What it copies are parts of the noun. -/
structure Takes (R₀ : Road) (north : Bool) (h₀ : Heap) (cps : List Copy) (pend : List Ref)
    (s : Loom A) (veb : Ref)
    (pro : Ref) (s' : Loom A) (more : List Copy) : Prop where
  leads : Leads north (fun f g ↦ takeFrom north f g veb s) pro s'
  taking : Taking R₀ north h₀ (more ++ cps) (pro :: pend) s'
  pile : s'.pil_u = s.pil_u
  moves : Moves (fun b ↦ R₀.isJunior north b = true) (more ++ cps) veb pro
  draws : Draws h₀ s more s'
  parts : ∀ cp ∈ more, ∃ path r, part h₀ veb path = some r ∧ r.off = some cp.old

/-- A noun that is not copied, or has been. -/
theorem Taking.known {n : Noun} (hready : Ready R₀ north h₀)
    (htaking : Taking R₀ north h₀ cps pend s) (hoff : veb.off = some off)
    (hbox : h₀ off = some box) (hkind : box.body.toRef off = veb)
    (hknown : R₀.isJunior north off = true → ∃ cp ∈ cps, cp.old = off) :
    Stops R₀ north h₀ cps pend s veb n (fun f g ↦ takeFrom north f g veb s) ∨
      ∃ pro s', Takes R₀ north h₀ cps pend s veb pro s' [] := by
  obtain ⟨hsenior, hjunior, hheaped⟩ := htaking.place hready hbox
  obtain ⟨use_w, mug_w, hheap, hnormal, houter, hmug⟩ := htaking.old off box hbox
  -- `u3k()` of a box of the road, and what it refers to
  have hgain : ∀ {r : Ref} {b : ℕ} {bx : Box}, r.off = some b → s.heap b = some bx → 0 < bx.use_w →
      (h₀ b ≠ none → R₀.Heaped north b) → Moves (fun b ↦ R₀.isJunior north b = true) cps veb r →
      (∀ f, takeNext north (f + 1) veb s = (do gainUse b; pure r : M A Ref) s) →
      Stops R₀ north h₀ cps pend s veb n (fun f g ↦ takeFrom north f g veb s) ∨
        ∃ pro s', Takes R₀ north h₀ cps pend s veb pro s' [] := by
    intro r b bx hr hbx hused hin hmoves hnext
    rcases gainUse_eq hbx hused with ⟨hfail, hmax⟩ | hok
    · exact .inl
        (stops_here htaking (.use (show part h₀ veb [] = some veb from rfl) hmoves hr hbx hmax)
        (bails_of_error fun f ↦ (hnext f).trans (bind_error hfail _)))
    · exact .inr ⟨r, _, leads_of_ok fun f ↦ (hnext f).trans (bind_ok hok _),
        htaking.gain hr hbx hin, rfl, hmoves, .same rfl rfl, nofun⟩
  cases hold : R₀.isSenior north off with
  | true =>
    have hnotJunior : ¬R₀.isJunior north off = true := by
      intro hjun
      rw [Road.junior_not_senior hready.bounded hjun] at hold
      cases hold
    refine .inr ⟨veb, s, leads_of_ok (takeNext_senior hoff (hsenior.trans hold)), htaking.keep
      fun b hb ↦ ?_, rfl, .stay hoff hnotJunior, .same rfl rfl, nofun⟩
    obtain rfl := Option.some.inj (hoff.symm.trans hb)
    refine ⟨fun hin ↦ ?_, by rw [hbox]; nofun⟩
    rw [hin.not_senior hready.bounded] at hold
    cases hold
  | false =>
    cases hjun : R₀.isJunior north off with
    | false =>
      have hin := hheaped hold hjun
      refine hgain hoff hheap ?_ (fun _ ↦ hin) (.stay hoff (by rw [hjun]; nofun))
        (takeNext_normal hoff (hsenior.trans hold) ((hjunior hold).trans hjun))
      have hused := hready.used off box hbox hin
      have hcount := hnormal hin
      show 0 < use_w
      omega
    | true =>
      obtain ⟨cp, hcp, rfl⟩ := hknown hjun
      obtain ⟨_, hin, hfresh, box', body, hbox', hmoves, _, hnew⟩ := htaking.new cp hcp
      obtain rfl := Option.some.inj (hbox.symm.trans hbox')
      obtain ⟨hlarge, href⟩ := refOf_word box.body (hin.lt htaking.bounded)
      have hword : mug_w = (box.body.toRef cp.new).word := by
        rcases hmug with ⟨cp', hcp', hsame, hword⟩ | ⟨hnone, _⟩
        · rw [hword, List.inj_on_of_nodup_map htaking.olds hcp' hcp hsame]
        · exact absurd rfl (hnone cp hcp)
      refine hgain (off_toRef box.body cp.new) hnew ?_ (fun h ↦ absurd hfresh h) ?_
        (takeNext_copied hoff (hsenior.trans hold) ((hjunior hold).trans hjun) hheap ?_ ?_
          (off_toRef _ _)
          (hin.normal htaking.bounded))
      · exact htaking.counted cp hcp
      · rw [← hkind]
        exact .of_copy hcp box.body
      · show 2 ^ 31 ≤ mug_w
        rw [hword]
        exact hlarge
      · show refOf mug_w = _
        rw [hword]
        exact href

/-! ### Cells and atoms -/

theorem takeAtom_eq {buf_w : List ℕ} (hbox : s.heap off = some box)
    (hbody : box.body = .atom buf_w) :
    (A.walloc s.pool s.rod_u (buf_w.length + 2) = none ∧ takeAtom off s = .error .meme s) ∨
      ∃ pool hat_p new, A.walloc s.pool s.rod_u (buf_w.length + 2) = some (pool, hat_p, new) ∧
        takeAtom off s = .ok (.pug new) { s with
          pool := pool
          rod_u := { s.rod_u with hat_p := hat_p }
          heap :=
  Function.update (Function.update s.heap new (some ⟨1, box.mug_w, .atom buf_w⟩)) off
            (some { box with mug_w := (Ref.pug new).word }) } := by
  obtain ⟨use_w, mug_w, body⟩ := box
  dsimp only at hbody
  subst hbody
  unfold takeAtom
  rw [bind_ok (show load off s = .ok _ s by rw [load, hbox])]
  dsimp only
  cases hwalloc : A.walloc s.pool s.rod_u (buf_w.length + 2) with
  | none =>
    refine .inl ⟨rfl, ?_⟩
    exact bind_error (show walloc (buf_w.length + 2) s = .error .meme s by rw [walloc, hwalloc]) _
  | some found =>
    obtain ⟨pool, hat_p, new⟩ := found
    refine .inr ⟨pool, hat_p, new, rfl, ?_⟩
    exact bind_ok (show walloc (buf_w.length + 2) s = .ok new _ by rw [walloc, hwalloc]) _

theorem takeCell_eq (hed tel : Ref) (hbox : s.heap off = some box) :
    (A.walloc s.pool s.rod_u 3 = none ∧ takeCell off hed tel s = .error .meme s) ∨
      ∃ pool hat_p new, A.walloc s.pool s.rod_u 3 = some (pool, hat_p, new) ∧
        takeCell off hed tel s = .ok (.pom new) { s with
          pool := pool
          rod_u := { s.rod_u with hat_p := hat_p }
          heap :=
  Function.update (Function.update s.heap new (some ⟨1, box.mug_w, .cell hed tel⟩)) off
            (some { box with mug_w := (Ref.pom new).word }) } := by
  unfold takeCell
  rw [bind_ok (show load off s = .ok box s by rw [load, hbox])]
  cases hwalloc : A.walloc s.pool s.rod_u 3 with
  | none =>
    refine .inl ⟨rfl, ?_⟩
    exact bind_error (show walloc 3 s = .error .meme s by rw [walloc, hwalloc]) _
  | some found =>
    obtain ⟨pool, hat_p, new⟩ := found
    refine .inr ⟨pool, hat_p, new, rfl, ?_⟩
    exact bind_ok (show walloc 3 s = .ok new _ by rw [walloc, hwalloc]) _

theorem Taking.push (htaking : Taking R₀ north h₀ cps pend s) (fam_u : Frame) :
    (Take.push north fam_u s = .error .meme s ∧
      if north then s.rod_u.cap_p ≤ s.rod_u.hat_p + 2 else s.rod_u.hat_p ≤ s.rod_u.cap_p + 2) ∨
      ∃ s₁, Take.push north fam_u s = .ok () s₁ ∧ Taking R₀ north h₀ cps pend s₁ ∧
        s₁.pil_u = fam_u :: s.pil_u ∧ Draws h₀ s [] s₁ := by
  have hbounded := htaking.bounded
  have hcap := htaking.cap
  unfold Take.push
  cases north with
  | true =>
    simp only [Road.Bounded, if_true] at hbounded hcap ⊢
    by_cases hroom : s.rod_u.hat_p < s.rod_u.cap_p - 2
    · rw [if_pos hroom]
      refine .inr ⟨_, rfl, htaking.stack ?_ ?_, rfl, .same rfl rfl⟩
      · simp only [Road.Bounded, if_true]
        omega
      · simp only [if_true, List.length_cons]
        omega
    · rw [if_neg hroom]
      exact .inl ⟨rfl, by omega⟩
  | false =>
    simp only [Road.Bounded, Bool.false_eq_true, if_false] at hbounded hcap ⊢
    by_cases hroom : s.rod_u.cap_p + 2 < s.rod_u.hat_p
    · rw [if_pos hroom]
      refine .inr ⟨_, rfl, htaking.stack ?_ ?_, rfl, .same rfl rfl⟩
      · simp only [Road.Bounded, Bool.false_eq_true, if_false]
        omega
      · simp only [Bool.false_eq_true, if_false, List.length_cons]
        omega
    · rw [if_neg hroom]
      exact .inl ⟨rfl, by omega⟩

theorem Taking.drop (hready : Ready R₀ north h₀) (htaking : Taking R₀ north h₀ cps pend s)
    {fam_u : Frame} {pil_u : List Frame} (hpile : s.pil_u = fam_u :: pil_u) :
    ∃ s₁, Take.drop north s = .ok () s₁ ∧ Taking R₀ north h₀ cps pend s₁ ∧ s₁.pil_u = pil_u ∧
      Draws h₀ s [] s₁ := by
  have hbounded := htaking.bounded
  have hbase := hready.bounded
  have hcap := htaking.cap
  have hmat := htaking.mat
  rw [hpile, List.length_cons] at hcap
  refine ⟨_, rfl, htaking.stack ?_ ?_, by rw [hpile]; rfl, .same rfl rfl⟩
  · cases north with
    | true =>
      simp only [Road.Bounded, if_true] at hbounded hbase hcap ⊢
      omega
    | false =>
      simp only [Road.Bounded, Bool.false_eq_true, if_false] at hbounded hbase hcap ⊢
      omega
  · rw [hpile, List.tail_cons]
    cases north with
    | true =>
      simp only [if_true] at hcap ⊢
      omega
    | false =>
      simp only [Bool.false_eq_true, if_false] at hcap ⊢
      omega

theorem takeLoop_head {old use_w mug_w : ℕ} {hed tel : Ref} {pil_u : List Frame}
    (hpile : s.pil_u = ⟨none, old⟩ :: pil_u)
    (hbox : s.heap old = some ⟨use_w, mug_w, .cell hed tel⟩) (g : ℕ) :
    takeLoop north (g + 1) pro s = takeFrom north g g tel
      { s with pil_u := ⟨some pro, old⟩ :: pil_u } := by
  rw [takeLoop, bind_ok (show (get : M A (Loom A)) s = .ok s s from rfl), hpile]
  exact bind_ok (show load old s = .ok _ s by rw [load, hbox]) _

theorem takeLoop_tail {old : ℕ} {hed : Ref} {pil_u : List Frame}
    (hpile : s.pil_u = ⟨some hed, old⟩ :: pil_u) (g : ℕ) :
    takeLoop north (g + 1) pro s =
      (do
        let pro ← takeCell old hed pro
        Take.drop north
        takeLoop north g pro : M A Ref) s := by
  rw [takeLoop, bind_ok (show (get : M A (Loom A)) s = .ok s s from rfl), hpile]

theorem takeLoop_done (hpile : s.pil_u = []) (g : ℕ) :
    takeLoop north (g + 1) pro s = .ok pro s := by
  rw [takeLoop, bind_ok (show (get : M A (Loom A)) s = .ok s s from rfl), hpile]
  rfl

/-- Without frames, the call comes to the product. -/
theorem Leads.done {run : ℕ → ℕ → EStateM.Result Stop (Loom A) Ref}
    (hleads : Leads north run pro s') (hpile : s'.pil_u = []) :
    ∃ need, ∀ f g, need ≤ f → need ≤ g → run f g = .ok pro s' := by
  refine hleads (.ok pro s') ⟨1, fun g hg ↦ ?_⟩
  obtain ⟨g, rfl⟩ := Nat.exists_eq_add_of_le' hg
  exact takeLoop_done hpile g

/-! ### The induction -/

/-- A junior box that has not been copied. -/
theorem Taking.unseen (hready : Ready R₀ north h₀) (htaking : Taking R₀ north h₀ cps pend s)
    (hbox : h₀ off = some box) (hjunior : R₀.isJunior north off = true)
      (hnot : ∀ cp ∈ cps, cp.old ≠ off) :
    s.heap off = some box ∧ s.rod_u.isSenior north off = false ∧ s.rod_u.isJunior north off = true ∧
      box.mug_w < 2 ^ 31 := by
  obtain ⟨hsenior, hsame, _⟩ := htaking.place hready hbox
  obtain ⟨use_w, mug_w, hheap, _, houter, hmug⟩ := htaking.old off box hbox
  have hold := Road.junior_not_senior hready.bounded hjunior
  have hnotHeaped : ¬R₀.Heaped north off := by
    intro hin
    rw [hin.not_junior hready.bounded] at hjunior
    cases hjunior
  refine ⟨?_, hsenior.trans hold, (hsame hold).trans hjunior, hready.mugs off box hbox hjunior⟩
  rcases hmug with ⟨cp, hcp, hcopied, _⟩ | ⟨_, hmug⟩
  · exact absurd hcopied (hnot cp hcp)
  · rw [hheap, houter hnotHeaped, hmug]

/-- A part of a cell. -/
theorem parts_arm {arm : Ref} {a : Arm} {more : List Copy}
    (hpart : ∀ path, part h₀ veb (a :: path) = part h₀ arm path)
    (hparts : ∀ cp ∈ more, ∃ path r, part h₀ arm path = some r ∧ r.off = some cp.old) :
    ∀ cp ∈ more, ∃ path r, part h₀ veb path = some r ∧ r.off = some cp.old := by
  intro cp hcp
  obtain ⟨path, r, hreach, hoff⟩ := hparts cp hcp
  exact ⟨a :: path, r, (hpart path).trans hreach, hoff⟩

/-- The head of a cell bails. -/
theorem Halts.head {hed : Ref} {nh nt : Noun} {why : Stop} {s₁ : Loom A} {more : List Copy}
    {extra : List Ref} {fam_u : Frame}
    (hhalts : Halts R₀ north h₀ cps pend s₁ hed nh why s' more extra)
    (hpart : ∀ path, part h₀ veb (.hed :: path) = part h₀ hed path) (hdraws : Draws h₀ s [] s₁)
    (hpile : s₁.pil_u = fam_u :: s.pil_u) :
    Halts R₀ north h₀ cps pend s veb (.cell nh nt) why s' more extra where
  taking := hhalts.taking
  draws := List.append_nil more ▸ hdraws.trans hhalts.draws
  parts := parts_arm hpart hhalts.parts
  frames := by
    have hframes := hhalts.frames
    rw [hpile, List.length_cons] at hframes
    simp only [Noun.size]
    omega
  refs := hhalts.refs.trans (by simp only [Noun.size]; omega)
  spent := hhalts.spent.arm hpart

/-- The tail of a cell bails, after the head has been copied. -/
theorem Halts.tail {hed' tel : Ref} {nh nt : Noun} {why : Stop} {s₁ : Loom A}
    {more₁ more : List Copy} {extra : List Ref} {fam_u : Frame}
    (hhalts : Halts R₀ north h₀ (more₁ ++ cps) (hed' :: pend) s₁ tel nt why s' more extra)
    (hpart : ∀ path, part h₀ veb (.tel :: path) = part h₀ tel path) (hdraws : Draws h₀ s more₁ s₁)
    (hparts : ∀ cp ∈ more₁, ∃ path r, part h₀ veb path = some r ∧ r.off = some cp.old)
    (hpile : s₁.pil_u = fam_u :: s.pil_u) :
    Halts R₀ north h₀ cps pend s veb (.cell nh nt) why s' (more ++ more₁) (extra ++ [hed']) where
  taking := by
    rw [List.append_assoc, List.append_assoc]
    exact hhalts.taking
  draws := hdraws.trans hhalts.draws
  parts cp hcp := (List.mem_append.mp hcp).elim (parts_arm hpart hhalts.parts cp) (hparts cp)
  frames := by
    have hframes := hhalts.frames
    rw [hpile, List.length_cons] at hframes
    simp only [Noun.size]
    omega
  refs := by
    have hrefs := hhalts.refs
    rw [List.length_append, List.length_singleton]
    simp only [Noun.size]
    omega
  spent := by
    rw [List.append_assoc]
    exact hhalts.spent.arm hpart

/-- Taking a noun comes to a reference to its copy, or bails. -/
theorem take_runs (hready : Ready R₀ north h₀) {n : Noun} (hden : Denotes h₀ veb n)
    (htaking : Taking R₀ north h₀ cps pend s) :
    Stops R₀ north h₀ cps pend s veb n (fun f g ↦ takeFrom north f g veb s) ∨
      ∃ pro s' more, Takes R₀ north h₀ cps pend s veb pro s' more := by
  induction hden generalizing cps pend s with
  | cat ha =>
    refine .inr ⟨_, s, [], leads_of_ok (takeNext_none rfl), htaking.keep ?_, rfl, .cat _,
      .same rfl rfl, nofun⟩
    rintro b ⟨⟩
  | @pug off use_w mug_w buf_w hbox =>
    by_cases hseen : R₀.isJunior north off = true → ∃ cp ∈ cps, cp.old = off
    · exact (htaking.known hready (show (Ref.pug off).off = some off
        from rfl) hbox rfl hseen).imp id
        fun ⟨pro, s', htakes⟩ ↦ ⟨pro, s', [], htakes⟩
    · obtain ⟨hjunior, hnot⟩ := Classical.not_imp.mp hseen
      have hfresh : ∀ cp ∈ cps, cp.old ≠ off := fun cp hcp heq ↦ hnot ⟨cp, hcp, heq⟩
      obtain ⟨hheap, hsenior, hjun, hmug⟩ := htaking.unseen hready hbox hjunior hfresh
      have hnext : ∀ f, takeNext north (f + 1) (.pug off) s = takeAtom off s :=
        takeNext_new rfl hsenior hjun hheap hmug
      rcases takeAtom_eq hheap rfl with ⟨hnone, herror⟩ | ⟨pool, hat_p, new, hwalloc, hok⟩
      · exact .inl (stops_here htaking (.box ⟨[], _, off, rfl, rfl, hbox, hjunior, hfresh⟩ hnone)
          (bails_of_error fun f ↦ (hnext f).trans herror))
      · obtain ⟨_, _, hcopied⟩ := htaking.copy hready hjunior hfresh hbox (.atom buf_w) (.refl _)
          (hready.lengths _ _ _ _ hbox) hwalloc
        refine .inr ⟨_, _, [⟨off, new, []⟩], leads_of_ok fun f ↦ (hnext f).trans hok, hcopied, rfl,
          Moves.of_copy List.mem_cons_self (.atom buf_w), .copy (.same rfl rfl) hbox hwalloc rfl,
          fun cp hcp ↦ ?_⟩
        obtain rfl := List.mem_singleton.mp hcp
        exact ⟨[], _, rfl, rfl⟩
  | @pom off use_w mug_w hed tel nh nt hbox hhed htel ihhed ihtel =>
    by_cases hseen : R₀.isJunior north off = true → ∃ cp ∈ cps, cp.old = off
    · exact (htaking.known hready (show (Ref.pom off).off = some off
        from rfl) hbox rfl hseen).imp id
        fun ⟨pro, s', htakes⟩ ↦ ⟨pro, s', [], htakes⟩
    obtain ⟨hjunior, hnot⟩ := Classical.not_imp.mp hseen
    have hfresh : ∀ cp ∈ cps, cp.old ≠ off := fun cp hcp heq ↦ hnot ⟨cp, hcp, heq⟩
    obtain ⟨hheap, hsenior, hjun, hmug⟩ := htaking.unseen hready hbox hjunior hfresh
    have hnext : ∀ f, takeNext north (f + 1) (.pom off) s =
        (do Take.push north ⟨none, off⟩; takeNext north f hed : M A Ref) s :=
      takeNext_new rfl hsenior hjun hheap hmug
    rcases htaking.push ⟨none, off⟩ with ⟨herror, hframe⟩ | ⟨s₁, hpush, htaking₁, hpile₁, hdraws₁⟩
    · exact .inl (stops_here htaking (.frame ⟨[], _, off, rfl, rfl, hbox, hjunior, hfresh⟩ hframe)
        (bails_of_error fun f ↦ (hnext f).trans (bind_error herror _)))
    have hhead : ∀ f, takeNext north (f + 1) (.pom off) s = takeNext north f hed s₁ :=
      fun f ↦ (hnext f).trans (bind_ok hpush _)
    -- the head
    rcases ihhed htaking₁ with ⟨why, s', more, extra, hhalts, hbails⟩ |
      ⟨hed', s₂, more₁, hleads₁, htaking₂, hpile₂, hmoves₁, hdraws₂, hparts₁⟩
    · exact .inl ⟨why, s', more, extra, hhalts.head (part_cell hbox .hed) hdraws₁ hpile₁,
        bails_of_head hhead hbails⟩
    rw [hpile₁] at hpile₂
    replace hdraws₂ := hdraws₁.trans hdraws₂
    rw [List.append_nil] at hdraws₂
    have hpartsHead := parts_arm (part_cell hbox .hed) hparts₁
    obtain ⟨_, _, hheap₂, _⟩ := htaking₂.old off _ hbox
    have hleads : Leads north (fun f g ↦ takeFrom north f g (.pom off) s) hed' s₂ :=
      leads_of_head hhead hleads₁
    have htaking₃ : Taking R₀ north h₀ (more₁ ++ cps) (hed' :: pend)
        { s₂ with pil_u := ⟨some hed', off⟩ :: s.pil_u } := by
      refine htaking₂.stack htaking₂.bounded ?_
      have hcap := htaking₂.cap
      rwa [hpile₂] at hcap
    have hdraws₃ : Draws h₀ s more₁ { s₂ with pil_u := ⟨some hed', off⟩ :: s.pil_u } :=
      hdraws₂.restack rfl rfl
    -- the tail
    rcases ihtel htaking₃ with ⟨why, s', more, extra, hhalts, hbails⟩ |
      ⟨tel', s₄, more₂, hleads₂, htaking₄, hpile₄, hmoves₂, hdraws₄, hparts₂⟩
    · exact .inl ⟨why, s', more ++ more₁, extra ++ [hed'],
        hhalts.tail (part_cell hbox .tel) hdraws₃ hpartsHead rfl,
        hleads.next_bails (takeLoop_head hpile₂ hheap₂) hbails⟩
    replace hleads := hleads.next (takeLoop_head hpile₂ hheap₂) hleads₂
    replace hdraws₄ := hdraws₃.trans hdraws₄
    have hpartsTail := parts_arm (part_cell hbox .tel) hparts₂
    -- the cell itself has not been copied, since its parts are smaller
    have hdiffer : ∀ {arm : Ref} {m : Noun} {cp : Copy}, Denotes h₀ arm m →
        m.size < (Noun.cell nh nt).size →
        (∃ path r, part h₀ arm path = some r ∧ r.off = some cp.old) → cp.old ≠ off := by
      rintro arm m cp harm hlt ⟨path, r, hpart, hoff⟩ heq
      obtain ⟨m', hdenotes, hle⟩ := harm.part hpart
      rw [heq] at hoff
      obtain ⟨box, hbox', rfl⟩ := hdenotes.box hoff
      obtain rfl := Option.some.inj (hbox.symm.trans hbox')
      rw [hdenotes.unique (.pom hbox hhed htel)] at hle
      exact Nat.lt_irrefl _ (hle.trans_lt hlt)
    have hlarger : ∀ cp ∈ more₂ ++ (more₁ ++ cps), cp.old ≠ off := by
      intro cp hcp
      rcases List.mem_append.mp hcp with hcp | hcp
      · exact hdiffer htel (by simp only [Noun.size]; omega) (hparts₂ cp hcp)
      · rcases List.mem_append.mp hcp with hcp | hcp
        · exact hdiffer hhed (by simp only [Noun.size]; omega) (hparts₁ cp hcp)
        · exact hfresh cp hcp
    have hparts : ∀ cp ∈ more₂ ++ more₁, ∃ path r, part h₀ (.pom off) path = some r ∧
      r.off = some cp.old :=
      fun cp hcp ↦ (List.mem_append.mp hcp).elim (hpartsTail cp) (hpartsHead cp)
    obtain ⟨hheap₄, _⟩ := htaking₄.unseen hready hbox hjunior hlarger
    rcases takeCell_eq hed' tel' hheap₄ with ⟨hnone, herror⟩ | ⟨pool, hat_p, new, hwalloc, hok⟩
    · refine .inl ⟨.meme, s₄, more₂ ++ more₁, [tel', hed'], ⟨?_, hdraws₄, hparts, ?_, ?_, ?_⟩,
        hleads.bails fun g ↦ (takeLoop_tail hpile₄ g).trans (bind_error herror _)⟩
      · rw [List.append_assoc]
        exact htaking₄
      · rw [hpile₄, List.length_cons]
        simp only [Noun.size]
        omega
      · have hpos : ∀ m : Noun, 0 < m.size := fun m ↦ by cases m <;> simp [Noun.size]
        have hhead := hpos nh
        have htail := hpos nt
        simp only [Noun.size, List.length_cons, List.length_nil]
        omega
      · rw [List.append_assoc]
        exact .box ⟨[], _, off, rfl, rfl, hbox, hjunior, hlarger⟩ hnone
    have hmoves : BodyMoves (fun b ↦ R₀.isJunior north b = true) (more₂ ++ (more₁ ++ cps))
      (.cell hed tel)
        (.cell hed' tel') := .cell (hmoves₁.mono (List.subset_append_right _ _)) hmoves₂
    have hswap : (tel' :: hed' :: pend).Perm ((Body.cell hed' tel').refs ++ pend) := .swap _ _ _
    obtain ⟨_, _, htaking₅⟩ := htaking₄.copy hready hjunior hlarger hbox hmoves hswap
      (by decide) hwalloc
    obtain ⟨s₆, hdrop, htaking₆, hpile₆, hdraws₆⟩ := htaking₅.drop hready hpile₄
    refine .inr ⟨.pom new, s₆, ⟨off, new, [hed', tel']⟩ :: (more₂ ++ more₁), ?_, ?_, hpile₆, ?_, ?_,
      fun cp hcp ↦ ?_⟩
    · refine hleads.step fun g ↦ (takeLoop_tail hpile₄ g).trans ?_
      exact (bind_ok hok _).trans (bind_ok hdrop _)
    · rw [List.cons_append, List.append_assoc]
      exact htaking₆
    · exact Moves.of_copy List.mem_cons_self (.cell hed tel)
    · show Draws h₀ s ([] ++ ⟨off, new, [hed', tel']⟩ :: (more₂ ++ more₁)) s₆
      refine Draws.trans ?_ hdraws₆
      exact .copy hdraws₄ hbox hwalloc rfl
    · rcases List.mem_cons.mp hcp with rfl | hcp
      · exact ⟨[], _, rfl, rfl⟩
      · exact hparts cp hcp

end Vere.Noun.Take
