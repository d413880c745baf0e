import Vere.Lib.Visit
import Vere.Noun.TakeRun

/-!
# Copies and mugs

What `u3a_take()` leaves. A reference to a copy denotes what the reference to the noun did
(`Taking.denotes`), and its parts are what became of the parts of the noun (`Taking.parts`), none of
them on the inner road and the same if and only if they were (`Taking.same_iff`). `Copied` says this
of a whole copy.

`u3a_wash()` visits what can be reached from a noun by boxes that have a mug (`washJunior_visits`),
which is every box that has been copied (`Taking.visited`), so that the mugs that are left are those
of nouns (`Taking.washed`).
-/

set_option autoImplicit false

namespace Vere.Noun.Take

open Lib.Visit
open Shared (Ref Arm bind_ok bind_error)

variable {A : Allocator} {R₀ : Road} {north : Bool} {h₀ : Heap} {cps : List Copy} {pend : List Ref}
  {s s' : Loom A}
  {off : ℕ} {box : Box} {r r' : Ref} {n : Noun} {path : List Arm}

/-! ### The copy -/

/-- What a box that is not junior refers to is not copied. -/
theorem Ready.stays (hready : Ready R₀ north h₀) (hbox : h₀ off = some box)
    (hjunior : R₀.isJunior north off = false)
    (hr : r ∈ box.body.refs) : Moves (fun b ↦ R₀.isJunior north b = true) cps r r := by
  cases hoff : r.off with
  | none =>
    cases r with
    | cat a => exact .cat a
    | pug b => cases hoff
    | pom b => cases hoff
  | some b => exact .stay hoff (by rw [hready.outward off box hbox hjunior r hr b hoff]; nofun)

/-- A copy denotes the same. -/
theorem Taking.denotes (hready : Ready R₀ north h₀) (htaking : Taking R₀ north h₀ cps pend s)
    (hden : Denotes h₀ r n) (hmoves : Moves (fun b ↦ R₀.isJunior north b = true) cps r r') :
      Denotes s.heap r' n := by
  induction hden generalizing r' with
  | cat ha =>
    cases hmoves with
    | cat _ => exact .cat ha
    | stay hoff _ => cases hoff
  | @pug off use_w mug_w buf_w hbox =>
    cases hmoves with
    | stay _ _ =>
      obtain ⟨_, _, hheap, _⟩ := htaking.old off _ hbox
      exact .pug hheap
    | pug hcp =>
      obtain ⟨_, _, _, box, body, hbox', hbody, _, hheap⟩ := htaking.new _ hcp
      obtain rfl := Option.some.inj (hbox.symm.trans hbox')
      cases hbody
      exact .pug hheap
  | @pom off use_w mug_w hed tel nh nt hbox _ _ ihhed ihtel =>
    cases hmoves with
    | stay hoff hjunior =>
      obtain rfl := Option.some.inj hoff
      obtain ⟨_, _, hheap, _⟩ := htaking.old off _ hbox
      rw [Bool.not_eq_true] at hjunior
      exact .pom hheap (ihhed (hready.stays hbox hjunior List.mem_cons_self))
        (ihtel (hready.stays hbox hjunior (List.mem_cons_of_mem _ List.mem_cons_self)))
    | pom hcp =>
      obtain ⟨_, _, _, box, body, hbox', hbody, _, hheap⟩ := htaking.new _ hcp
      obtain rfl := Option.some.inj (hbox.symm.trans hbox')
      cases hbody with
      | cell hhed htel => exact .pom hheap (ihhed hhed) (ihtel htel)

/-- The parts of a copy are what the parts became. -/
theorem Taking.parts (hready : Ready R₀ north h₀) (htaking : Taking R₀ north h₀ cps pend s)
    {x' : Ref} (hden : Denotes h₀ r n)
    (hmoves : Moves (fun b ↦ R₀.isJunior north b = true) cps r r')
    (hpart : part s.heap r' path = some x') :
    ∃ x m, part h₀ r path = some x ∧ Denotes h₀ x m ∧
      Moves (fun b ↦ R₀.isJunior north b = true) cps x x' := by
  induction path generalizing r r' n with
  | nil =>
    obtain rfl := Option.some.inj hpart
    exact ⟨r, n, rfl, hden, hmoves⟩
  | cons arm path ih =>
    cases hden with
    | cat _ =>
      cases hmoves with
      | cat _ => cases hpart
      | stay hoff _ => cases hoff
    | pug hbox =>
      cases hmoves with
      | stay _ _ => cases hpart
      | pug _ => cases hpart
    | @pom off use_w mug_w hed tel nh nt hbox hhed htel =>
      have hgo : ∀ {off' use_w' mug_w' : ℕ} {hed' tel' : Ref}, s.heap off' = some
          ⟨use_w', mug_w', .cell hed' tel'⟩ →
          part s.heap (.pom off') (arm :: path) = some x' →
          Moves (fun b ↦ R₀.isJunior north b = true) cps hed hed' →
          Moves (fun b ↦ R₀.isJunior north b = true) cps tel tel' →
          ∃ x m, part h₀ (.pom off) (arm :: path) = some x ∧ Denotes h₀ x m ∧
            Moves (fun b ↦ R₀.isJunior north b = true) cps x x' := by
        intro off' use_w' mug_w' hed' tel' hheap hpart hmovesHed hmovesTel
        rw [part_cell hheap] at hpart
        rw [part_cell hbox]
        cases arm with
        | hed => exact ih hhed hmovesHed hpart
        | tel => exact ih htel hmovesTel hpart
      cases hmoves with
      | stay hoff hjunior =>
        obtain rfl := Option.some.inj hoff
        obtain ⟨_, _, hheap, _⟩ := htaking.old off _ hbox
        rw [Bool.not_eq_true] at hjunior
        exact hgo hheap hpart (hready.stays hbox hjunior List.mem_cons_self)
          (hready.stays hbox hjunior (List.mem_cons_of_mem _ List.mem_cons_self))
      | pom hcp =>
        obtain ⟨_, _, _, box, body, hbox', hbody, _, hheap⟩ := htaking.new _ hcp
        obtain rfl := Option.some.inj (hbox.symm.trans hbox')
        cases hbody with
        | cell hmovesHed hmovesTel => exact hgo hheap hpart hmovesHed hmovesTel

theorem Taking.junior_eq (htaking : Taking R₀ north h₀ cps pend s) (hpile : s.pil_u = [])
    (off : ℕ) :
    s.rod_u.isJunior north off = R₀.isJunior north off := by
  have hcap := htaking.cap
  rw [hpile] at hcap
  unfold Road.isJunior
  cases north with
  | true =>
    rw [if_pos rfl, List.length_nil] at hcap
    rw [← hcap, htaking.mat]
    rfl
  | false =>
    rw [if_neg (by nofun), List.length_nil] at hcap
    rw [hcap, htaking.mat]
    rfl

/-- A copy is not junior. -/
theorem Taking.apart (htaking : Taking R₀ north h₀ cps pend s) (hpile : s.pil_u = [])
    (hmoves : Moves (fun b ↦ R₀.isJunior north b = true) cps r r') (hoff : r'.off = some off) :
    s.rod_u.isJunior north off = false := by
  cases hmoves with
  | cat _ => cases hoff
  | stay hoff' hjunior =>
    obtain rfl := Option.some.inj (hoff'.symm.trans hoff)
    rw [htaking.junior_eq hpile]
    exact Bool.eq_false_of_not_eq_true hjunior
  | pug hcp =>
    obtain rfl := Option.some.inj hoff
    exact (htaking.new _ hcp).2.1.not_junior htaking.bounded
  | pom hcp =>
    obtain rfl := Option.some.inj hoff
    exact (htaking.new _ hcp).2.1.not_junior htaking.bounded

theorem toRef_congr {body body' : Body} {a b : ℕ} (heq : body.toRef a = body'.toRef b) :
    a = b ∧ ∀ c, body.toRef c = body'.toRef c := by
  cases body with
  | atom buf_w =>
    cases body' with
    | atom buf_w' => exact ⟨Ref.pug.inj heq, fun _ ↦ rfl⟩
    | cell hed tel => cases heq
  | cell hed tel =>
    cases body' with
    | atom buf_w => cases heq
    | cell hed' tel' => exact ⟨Ref.pom.inj heq, fun _ ↦ rfl⟩

/-- A reference stays, or becomes one to a copy. -/
theorem Moves.cases {junior : ℕ → Prop} (hmoves : Moves junior cps r r') :
    (r' = r ∧ ∀ b, r.off = some b → ¬junior b) ∨
      ∃ cp ∈ cps, ∃ body : Body, r = body.toRef cp.old ∧ r' = body.toRef cp.new := by
  cases hmoves with
  | cat _ => exact .inl ⟨rfl, nofun⟩
  | stay hoff hjunior =>
    refine .inl ⟨rfl, fun b hb ↦ ?_⟩
    obtain rfl := Option.some.inj (hoff.symm.trans hb)
    exact hjunior
  | pug hcp => exact .inr ⟨_, hcp, .atom [], rfl, rfl⟩
  | pom hcp => exact .inr ⟨_, hcp, .cell (.cat 0) (.cat 0), rfl, rfl⟩

/-- References become the same if and only if they were. -/
theorem Taking.same_iff (htaking : Taking R₀ north h₀ cps pend s) {x y x' y' : Ref} {m m' : Noun}
    (hx : Denotes h₀ x m) (hy : Denotes h₀ y m')
      (hmx : Moves (fun b ↦ R₀.isJunior north b = true) cps x x')
    (hmy : Moves (fun b ↦ R₀.isJunior north b = true) cps y y') : x' = y' ↔ x = y := by
  have hstale : ∀ {z : Ref} {m : Noun} {cp : Copy} {body : Body}, cp ∈ cps → Denotes h₀ z m →
      z ≠ body.toRef cp.new := by
    rintro z m cp body hcp hz rfl
    obtain ⟨box, hbox, _⟩ := hz.box (off_toRef body cp.new)
    rw [(htaking.new cp hcp).2.2.1] at hbox
    cases hbox
  have hmoved : ∀ {z : Ref} {cp : Copy} {body : Body}, cp ∈ cps →
      (∀ b, z.off = some b → ¬R₀.isJunior north b = true) → z ≠ body.toRef cp.old := by
    rintro z cp body hcp hz rfl
    exact hz cp.old (off_toRef body cp.old) (htaking.new cp hcp).1
  rcases hmx.cases with ⟨rfl, hkeep⟩ | ⟨cp, hcp, body, rfl, rfl⟩
  · rcases hmy.cases with ⟨rfl, _⟩ | ⟨cp', hcp', body', rfl, rfl⟩
    · exact Iff.rfl
    · exact iff_of_false (hstale hcp' hx) (hmoved hcp' hkeep)
  · rcases hmy.cases with ⟨rfl, hkeep⟩ | ⟨cp', hcp', body', rfl, rfl⟩
    · exact iff_of_false (hstale hcp hy).symm (hmoved hcp hkeep).symm
    · constructor
      · intro heq
        obtain ⟨hnew, hkind⟩ := toRef_congr heq
        rw [List.inj_on_of_nodup_map htaking.news hcp hcp' hnew]
        exact hkind _
      · intro heq
        obtain ⟨hold, hkind⟩ := toRef_congr heq
        rw [List.inj_on_of_nodup_map htaking.olds hcp hcp' hold]
        exact hkind _

/-! ### Washing -/

/-- The boxes of the junior road that references lead to. -/
def juniors (rod_u : Road) (north : Bool) (rs : List Ref) : List ℕ :=
  (rs.filterMap Ref.off).filter fun off ↦ rod_u.isJunior north off

/-- What a box of the junior road leads to. -/
def juniorNext (rod_u : Road) (north : Bool) (h : Heap) (off : ℕ) : List ℕ :=
  (h off).elim [] fun box ↦ juniors rod_u north box.body.refs

/-- The boxes without a mug. -/
def Blank (h : Heap) : Set ℕ := fun off ↦ ∃ use_w body, h off = some ⟨use_w, 0, body⟩

/-- A heap with the mugs of some boxes removed. -/
def blanked (h : Heap) (news : List ℕ) : Heap := fun off ↦
  if off ∈ news then (h off).map fun box ↦ { box with mug_w := 0 } else h off

theorem blanked_nil (h : Heap) : blanked h [] = h := by
  funext off
  exact if_neg List.not_mem_nil

theorem blanked_blanked (h : Heap) (news news' : List ℕ) :
    blanked (blanked h news) news' = blanked h (news ++ news') := by
  funext off
  unfold blanked
  by_cases hnew : off ∈ news
  · rw [if_pos hnew, if_pos (List.mem_append_left _ hnew)]
    split
    · rw [Option.map_map]
      rfl
    · rfl
  · by_cases hnew' : off ∈ news'
    · rw [if_pos hnew', if_neg hnew, if_pos (List.mem_append_right _ hnew')]
    · rw [if_neg hnew', if_neg hnew, if_neg (by simp [hnew, hnew'])]

theorem blanked_one {h : Heap} (hbox : h off = some box) :
    blanked h [off] = Function.update h off (some { box with mug_w := 0 }) := by
  funext b
  unfold blanked
  by_cases hb : b = off
  · rw [hb, if_pos (List.mem_singleton_self off), hbox, Function.update_self]
    rfl
  · rw [if_neg (by simpa using hb), Function.update_of_ne hb]

/-- The bodies are the same. -/
theorem blanked_body (h : Heap) (news : List ℕ) (off : ℕ) :
    (blanked h news off).map Box.body = (h off).map Box.body := by
  unfold blanked
  split
  · rw [Option.map_map]
    rfl
  · rfl

theorem juniorNext_congr {rod_u : Road} {h h' : Heap}
    (hbody : (h' off).map Box.body = (h off).map Box.body) :
    juniorNext rod_u north h' off = juniorNext rod_u north h off := by
  have helim : ∀ box : Option Box, (box.elim [] fun box ↦ juniors rod_u north box.body.refs) =
      (box.map Box.body).elim [] fun body ↦ juniors rod_u north body.refs := by
    intro box
    cases box <;> rfl
  rw [juniorNext, juniorNext, helim, helim, hbody]

theorem Denotes.congr {h h' : Heap} (hbody : ∀ off box, h off = some box →
    (h' off).map Box.body = some box.body)
    (hden : Denotes h r n) : Denotes h' r n := by
  induction hden with
  | cat ha => exact .cat ha
  | pug hbox =>
    obtain ⟨⟨use_w, mug_w, body⟩, hbox', rfl⟩ := Option.map_eq_some_iff.mp (hbody _ _ hbox)
    exact .pug hbox'
  | pom hbox _ _ ihhed ihtel =>
    obtain ⟨⟨use_w, mug_w, body⟩, hbox', rfl⟩ := Option.map_eq_some_iff.mp (hbody _ _ hbox)
    exact .pom hbox' ihhed ihtel

theorem blank_blanked {h : Heap} {news : List ℕ} (hnews : ∀ off ∈ news, h off ≠ none) :
    Blank (blanked h news) = Blank h ∪ {off | off ∈ news} := by
  ext off
  show (∃ use_w body, blanked h news off = some ⟨use_w, 0, body⟩) ↔
    (∃ use_w body, h off = some ⟨use_w, 0, body⟩) ∨ off ∈ news
  by_cases hmem : off ∈ news
  · refine iff_of_true ?_ (.inr hmem)
    obtain ⟨box, hbox⟩ := Option.ne_none_iff_exists'.mp (hnews off hmem)
    exact ⟨box.use_w, box.body, by rw [blanked, if_pos hmem, hbox]; rfl⟩
  · rw [blanked, if_neg hmem]
    simp [hmem]

theorem juniors_cat {rod_u : Road} (hoff : r.off = none) : juniors rod_u north [r] = [] := by
  rw [juniors, List.filterMap_cons, hoff]
  rfl

theorem juniors_other {rod_u : Road} (hoff : r.off = some off)
    (hjunior : rod_u.isJunior north off = false) :
    juniors rod_u north [r] = [] := by
  rw [juniors, List.filterMap_cons, hoff]
  simp [hjunior]

theorem juniors_junior {rod_u : Road} (hoff : r.off = some off)
    (hjunior : rod_u.isJunior north off = true) :
    juniors rod_u north [r] = [off] := by
  rw [juniors, List.filterMap_cons, hoff]
  simp [hjunior]

theorem juniors_pair (rod_u : Road) (hed tel : Ref) :
    juniors rod_u north [hed, tel] = juniors rod_u north [hed] ++ juniors rod_u north [tel] := by
  rw [← List.singleton_append, juniors, List.filterMap_append, List.filter_append]
  rfl

theorem juniorNext_of {rod_u : Road} {h : Heap} (hbox : h off = some box) :
    juniorNext rod_u north h off = juniors rod_u north box.body.refs := by
  rw [juniorNext, hbox]
  rfl

/-- Washing visits the boxes that have a mug. -/
theorem washJunior_visits {s : Loom A} (fuel : ℕ) (hden : Denotes s.heap r n)
    (hfuel : n.size ≤ fuel) :
    ∃ news, washJunior north fuel r s = .ok () { s with heap := blanked s.heap news } ∧
      Visits (juniorNext s.rod_u north s.heap) (Blank s.heap) (juniors s.rod_u north [r]) news ∧
      ∀ off ∈ news, s.heap off ≠ none := by
  induction fuel generalizing r n s with
  | zero =>
    cases n <;> simp [Noun.size] at hfuel
  | succ fuel ih =>
    have hnothing : { s with heap := blanked s.heap [] } = s := by rw [blanked_nil]
    cases hoff : r.off with
    | none =>
      refine ⟨[], ?_, ?_, by simp⟩
      · rw [washJunior, hoff, hnothing]
        rfl
      · rw [juniors_cat hoff]
        exact .done
    | some off =>
      cases hjunior : s.rod_u.isJunior north off with
      | false =>
        refine ⟨[], ?_, ?_, by simp⟩
        · rw [washJunior, hoff, hnothing]
          show (if s.rod_u.isJunior north off = true then _ else pure () : M A Unit) s = _
          rw [if_neg (by rw [hjunior]; exact Bool.false_ne_true)]
          rfl
        · rw [juniors_other hoff hjunior]
          exact .done
      | true =>
        obtain ⟨box, hbox, hkind⟩ := hden.box hoff
        -- What follows the blank mug depends on the reference and the body.
        obtain ⟨more, hrun, hpug, hpom⟩ : ∃ more : M A Unit,
            washJunior north (fuel + 1) r s =
              (if box.mug_w = 0 then
                pure () else do store off { box with mug_w := 0 }; more : M A Unit) s ∧
            (∀ o, r = .pug o → more = pure ()) ∧
            ∀ o hed tel, r = .pom o → box.body = .cell hed tel →
              more = (do washJunior north fuel hed; washJunior north fuel tel) := by
          apply Exists.intro
          refine ⟨?_, ?_, ?_⟩
          · rw [washJunior, hoff]
            show (if s.rod_u.isJunior north off = true then (do let dog_u ← load off; _) else _ :
              M A Unit) s = _
            rw [if_pos hjunior]
            exact bind_ok (show load off s = .ok box s by rw [load, hbox]) _
          · rintro o rfl
            rfl
          · rintro o hed tel rfl hbody
            rw [hbody]
        rw [hrun, juniors_junior hoff hjunior]
        by_cases hmug : box.mug_w = 0
        · refine ⟨[], ?_, .pass ⟨box.use_w, box.body, ?_⟩ .done, by simp⟩
          · rw [if_pos hmug, hnothing]
            rfl
          · rw [hbox, ← hmug]
        rw [if_neg hmug]
        have hnew : off ∉ Blank s.heap := by
          rintro ⟨use_w, body, hblank⟩
          exact hmug (congrArg Box.mug_w (Option.some.inj (hbox.symm.trans hblank)))
        have hone : ∀ b ∈ [off], s.heap b ≠ none := by
          intro b hb
          rw [List.mem_singleton.mp hb, hbox]
          exact Option.some_ne_none _
        have hseen : Blank (blanked s.heap [off]) = insert off (Blank s.heap) := by
          rw [blank_blanked hone, Set.union_comm]
          ext b
          simp
        rw [bind_ok (show store off { box with mug_w := 0 } s =
          .ok () { s with heap := blanked s.heap [off] } by rw [blanked_one hbox]; rfl)]
        cases hden with
        | cat _ => cases hoff
        | @pug off' use_w mug_w buf_w hbox' =>
          obtain rfl := Option.some.inj hoff
          refine ⟨[off'], ?_, .enter hnew ?_, hone⟩
          · rw [hpug _ rfl]
            rfl
          · rw [juniorNext_of hbox']
            exact .done
        | @pom off' use_w mug_w hed tel nh nt hbox' hhed htel =>
          obtain rfl := Option.some.inj hoff
          obtain rfl := Option.some.inj (hbox.symm.trans hbox')
          have hcongr : ∀ {r : Ref} {n : Noun} {h : Heap} (news : List ℕ), Denotes h r n →
              Denotes (blanked h news) r n := fun news hden ↦ hden.congr fun b box hb ↦ by
            rw [blanked_body, hb]
            rfl
          have hnext : ∀ h news, juniorNext s.rod_u north (blanked h news) =
            juniorNext s.rod_u north h :=
            fun h news ↦ funext fun b ↦ juniorNext_congr (blanked_body _ _ _)
          have hlive : ∀ {h : Heap} {news more : List ℕ}, (∀ b ∈ more, blanked h news b ≠ none) →
              ∀ b ∈ more, h b ≠ none := by
            intro h news more hmore b hb hnone
            exact hmore b hb (Option.map_eq_none_iff.mp (by rw [blanked_body, hnone]; rfl :
              (blanked h news b).map _ = _))
          simp only [Noun.size] at hfuel
          obtain ⟨news₁, hrun₁, hvisits₁, hlive₁⟩ :=
            @ih hed nh { s with heap := blanked s.heap [off'] } (hcongr _ hhed) (by omega)
          obtain ⟨news₂, hrun₂, hvisits₂, hlive₂⟩ :=
            @ih tel nt { s with heap := blanked (blanked s.heap [off']) news₁ }
              (hcongr _ (hcongr _ htel)) (by omega)
          refine ⟨off' :: (news₁ ++ news₂), ?_, .enter hnew ?_, ?_⟩
          · rw [hpom _ _ _ rfl rfl]
            refine (bind_ok hrun₁ _).trans (hrun₂.trans ?_)
            simp only [blanked_blanked]
            rfl
          · rw [juniorNext_of hbox', List.append_nil]
            show Visits _ _ (juniors s.rod_u north [hed, tel]) _
            rw [juniors_pair]
            simp only [hnext, hseen] at hvisits₁
            refine hvisits₁.append ?_
            simp only [hnext, blank_blanked hlive₁, hseen] at hvisits₂
            exact hvisits₂
          · intro b hb
            rcases List.mem_cons.mp hb with rfl | hb
            · exact hone b (List.mem_singleton_self b)
            · rcases List.mem_append.mp hb with hb | hb
              · exact hlive hlive₁ b hb
              · exact hlive (hlive hlive₂) b hb

/-! ### The whole copy -/

/-- The use count of a box. -/
def useOf (h : Heap) (off : ℕ) : ℕ := (h off).elim 0 Box.use_w

/-- What a box refers to. -/
def refsAt (h : Heap) (off : ℕ) : List Ref := (h off).elim [] fun box ↦ box.body.refs

/-- A reference after a copy. It denotes the same noun, no part of which is junior, with the parts
in common that it had. A box of the road gains the references from the new boxes and the product. -/
structure Copied (s s' : Loom A) (north : Bool) (veb pro : Ref) (news : List ℕ) : Prop where
  equal : ∀ n, Denotes s.heap veb n → Denotes s'.heap pro n
  apart : ∀ path r off, part s'.heap pro path = some r → r.off = some off →
    s'.rod_u.isJunior north off = false
  shared : ∀ path path' x y x' y', part s.heap veb path = some x → part s.heap veb path' = some y →
    part s'.heap pro path = some x' → part s'.heap pro path' = some y' → (x' = y' ↔ x = y)
  fresh : news.Nodup ∧ ∀ off, off ∈ news ↔ s.heap off = none ∧ s'.heap off ≠ none
  uses : ∀ off, s'.rod_u.Heaped north off →
    useOf s'.heap off = useOf s.heap off + uses (pro :: news.flatMap (refsAt s'.heap)) off
  kept : ∀ off box, s.heap off = some box → ∃ box', s'.heap off = some box' ∧ box'.body = box.body ∧
    (¬s.rod_u.Heaped north off → box'.use_w = box.use_w) ∧
    (s.rod_u.isJunior north off = false → box'.mug_w = box.mug_w)
  road : s'.rod_u = { s.rod_u with hat_p := s'.rod_u.hat_p } ∧ s'.rod_u.Bounded north ∧
    s'.pil_u = []

/-- The mugs that are there are those of the nouns. -/
def Mugged (hash : Noun → ℕ) (h : Heap) : Prop :=
  ∀ off box n, h off = some box → Denotes h (box.body.toRef off) n → box.mug_w = 0 ∨
    box.mug_w = hash n

theorem Taking.copied {veb pro : Ref} {n : Noun} (hready : Ready s.rod_u north s.heap)
    (htaking : Taking s.rod_u north s.heap cps [pro] s') (hpile : s'.pil_u = [])
      (hden : Denotes s.heap veb n)
    (hmoves : Moves (fun b ↦ s.rod_u.isJunior north b = true) cps veb pro) :
    Copied s s' north veb pro (cps.map Copy.new) := by
  have hheld : (cps.map Copy.new).flatMap (refsAt s'.heap) = held cps := by
    rw [List.flatMap_map]
    refine List.flatMap_congr fun cp hcp ↦ ?_
    obtain ⟨_, _, _, box, body, _, _, hrefs, hheap⟩ := htaking.new cp hcp
    rw [refsAt, hheap, hrefs]
    rfl
  refine ⟨fun m hm ↦ htaking.denotes hready hm hmoves, fun path r off hpart hoff ↦ ?_,
    fun path path' x y x' y' hx hy hx' hy' ↦ ?_, ⟨htaking.news, fun off ↦ ?_⟩, fun off hin ↦ ?_,
    fun off box hbox ↦ ?_, ?_, htaking.bounded, hpile⟩
  · obtain ⟨x, m, _, _, hmx⟩ := htaking.parts hready hden hmoves hpart
    exact htaking.apart hpile hmx hoff
  · obtain ⟨z, m, hz, hdenX, hmx⟩ := htaking.parts hready hden hmoves hx'
    obtain rfl := Option.some.inj (hz.symm.trans hx)
    obtain ⟨z', m', hz', hdenY, hmy⟩ := htaking.parts hready hden hmoves hy'
    obtain rfl := Option.some.inj (hz'.symm.trans hy)
    exact htaking.same_iff hdenX hdenY hmx hmy
  · constructor
    · intro hmem
      obtain ⟨cp, hcp, rfl⟩ := List.mem_map.mp hmem
      obtain ⟨_, _, hfresh, _, _, _, _, _, hheap⟩ := htaking.new cp hcp
      exact ⟨hfresh, by rw [hheap]; nofun⟩
    · rintro ⟨hnone, hsome⟩
      by_contra hmem
      exact hsome (htaking.absent off hnone fun cp hcp heq ↦ hmem (heq ▸ List.mem_map_of_mem hcp))
  · rw [hheld, uses_perm (List.perm_append_singleton pro (held cps)).symm]
    cases hold : s.heap off with
    | some box =>
      obtain ⟨hsenior, hjunior, hheaped⟩ := htaking.place hready hold
      have hnotSenior := hsenior.symm.trans (hin.not_senior htaking.bounded)
      have hroad :=
        hheaped hnotSenior ((hjunior hnotSenior).symm.trans (hin.not_junior htaking.bounded))
      obtain ⟨use_w, mug_w, hheap, hnormal, _⟩ := htaking.old off box hold
      rw [useOf, useOf, hheap, hold]
      exact hnormal hroad
    | none =>
      by_cases hcopy : ∃ cp ∈ cps, cp.new = off
      · obtain ⟨cp, hcp, rfl⟩ := hcopy
        obtain ⟨_, _, _, _, _, _, _, _, hheap⟩ := htaking.new cp hcp
        rw [useOf, useOf, hheap, hold]
        exact (Nat.zero_add _).symm
      · have hnone := htaking.absent off hold fun cp hcp heq ↦ hcopy ⟨cp, hcp, heq⟩
        rw [useOf, useOf, hnone, hold, uses_eq_zero fun r hr hoff ↦
          htaking.live r hr off hoff hnone]
        rfl
  · obtain ⟨use_w, mug_w, hheap, _, houter, hmug⟩ := htaking.old off box hbox
    refine ⟨_, hheap, rfl, houter, fun hjunior ↦ ?_⟩
    rcases hmug with ⟨cp, hcp, rfl, _⟩ | ⟨_, hmug⟩
    · rw [(htaking.new cp hcp).1] at hjunior
      cases hjunior
    · exact hmug
  · have hcap := htaking.cap
    rw [hpile] at hcap
    obtain ⟨⟨cap_p, hat_p, mat_p, rut_p⟩, pool, heap, pil_u⟩ := s'
    obtain rfl : mat_p = s.rod_u.mat_p := htaking.mat
    obtain rfl : rut_p = s.rod_u.rut_p := htaking.rut
    obtain rfl : cap_p = s.rod_u.cap_p := by
      cases north with
      | true => exact hcap
      | false => exact hcap
    rfl

/-- Junior nouns that have been copied have references to their copies. -/
theorem Taking.not_blank (htaking : Taking R₀ north h₀ cps pend s)
    (hmoves : Moves (fun b ↦ R₀.isJunior north b = true) cps r r') (hoff : r.off = some off)
    (hjunior : R₀.isJunior north off = true) : off ∉ Blank s.heap := by
  have hcopied : ∀ cp ∈ cps, cp.old ∉ Blank s.heap := by
    rintro cp hcp ⟨use_w, body, hblank⟩
    obtain ⟨_, hin, _, box, _, hbox, _⟩ := htaking.new cp hcp
    obtain ⟨use_w', mug_w, hheap, _, _, hmug⟩ := htaking.old cp.old box hbox
    obtain rfl : mug_w = 0 := congrArg Box.mug_w (Option.some.inj (hheap.symm.trans hblank))
    rcases hmug with ⟨cp', hcp', hsame, hword⟩ | ⟨hnone, _⟩
    · rw [List.inj_on_of_nodup_map htaking.olds hcp' hcp hsame] at hword
      have hlarge := (refOf_word box.body (hin.lt htaking.bounded)).1
      rw [← hword] at hlarge
      exact absurd hlarge (by decide)
    · exact hnone cp hcp rfl
  cases hmoves with
  | cat _ => cases hoff
  | stay hoff' hnot =>
    obtain rfl := Option.some.inj (hoff'.symm.trans hoff)
    exact absurd hjunior hnot
  | pug hcp =>
    obtain rfl := Option.some.inj hoff
    exact hcopied _ hcp
  | pom hcp =>
    obtain rfl := Option.some.inj hoff
    exact hcopied _ hcp

/-- A visit of a junior noun comes to its junior parts. -/
theorem Taking.visited (hready : Ready R₀ north h₀) (htaking : Taking R₀ north h₀ cps pend s)
    {news : List ℕ}
    {x : Ref} (hclosed : ∀ a ∈ news, ∀ b ∈ juniorNext R₀ north s.heap a, b ∈ Blank s.heap ∨
    b ∈ news) (hden : Denotes h₀ r n) (hmoves : Moves (fun b ↦ R₀.isJunior north b = true) cps r r')
    (hnew : ∀ b, r.off = some b → R₀.isJunior north b = true → b ∈ news)
      (hpart : part h₀ r path = some x) :
    ∀ b, x.off = some b → R₀.isJunior north b = true → b ∈ news := by
  induction path generalizing r r' n with
  | nil =>
    obtain rfl := Option.some.inj hpart
    exact hnew
  | cons arm path ih =>
    cases hden with
    | cat _ => cases hpart
    | pug _ => cases hpart
    | @pom off use_w mug_w hed tel nh nt hbox hhed htel =>
      rw [part_cell hbox] at hpart
      have hmem : arm.pick hed tel ∈ [hed, tel] := by
        cases arm with
        | hed => exact List.mem_cons_self
        | tel => exact List.mem_cons_of_mem _ List.mem_cons_self
      obtain ⟨m, hdenArm⟩ : ∃ m, Denotes h₀ (arm.pick hed tel) m := by
        cases arm with
        | hed => exact ⟨nh, hhed⟩
        | tel => exact ⟨nt, htel⟩
      cases hmoves with
      | stay hoff hjunior =>
        obtain rfl := Option.some.inj hoff
        rw [Bool.not_eq_true] at hjunior
        refine ih hdenArm (hready.stays hbox hjunior hmem) (fun b hb hjun ↦ ?_) hpart
        rw [hready.outward off _ hbox hjunior _ hmem b hb] at hjun
        cases hjun
      | @pom cp hcp =>
        obtain ⟨hjunior, _, _, box, body, hbox', hbody, _, _⟩ := htaking.new _ hcp
        obtain rfl := Option.some.inj (hbox.symm.trans hbox')
        obtain ⟨_, _, hheap, _⟩ := htaking.old cp.old _ hbox
        obtain ⟨arm', hmovesArm⟩ :
            ∃ arm', Moves (fun b ↦ R₀.isJunior north b = true) cps (arm.pick hed tel) arm' := by
          cases hbody with
          | cell hmovesHed hmovesTel =>
            cases arm with
            | hed => exact ⟨_, hmovesHed⟩
            | tel => exact ⟨_, hmovesTel⟩
        refine ih hdenArm hmovesArm (fun b hb hjun ↦ ?_) hpart
        refine (hclosed cp.old (hnew cp.old rfl hjunior) b ?_).resolve_left
          (htaking.not_blank hmovesArm hb hjun)
        rw [juniorNext_of hheap]
        exact List.mem_filter.mpr ⟨List.mem_filterMap.mpr ⟨_, hmem, hb⟩, hjun⟩

/-- Where no reference to a copy is left, the mugs are those of the nouns. -/
theorem Taking.mugged (hash : Noun → ℕ) (hready : Ready R₀ north h₀)
    (htaking : Taking R₀ north h₀ cps pend s)
    (hmugs : Mugged hash h₀) {news : List ℕ} (hall : ∀ cp ∈ cps, cp.old ∈ news) :
    Mugged hash (blanked s.heap news) := by
  intro off box n hbox hden
  by_cases hmem : off ∈ news
  · rw [blanked, if_pos hmem] at hbox
    obtain ⟨box', _, rfl⟩ := Option.map_eq_some_iff.mp hbox
    exact .inl rfl
  rw [blanked, if_neg hmem] at hbox
  -- a noun that is denoted before the wash is the one denoted after
  have hsame : ∀ {r : Ref} {m : Noun}, Denotes s.heap r m → Denotes (blanked s.heap news) r m :=
    fun hden ↦ hden.congr fun b box hb ↦ by
      rw [blanked_body, hb]
      rfl
  cases hold : h₀ off with
  | some box₀ =>
    obtain ⟨use_w, mug_w, hheap, _, _, hmug⟩ := htaking.old off box₀ hold
    obtain rfl := Option.some.inj (hheap.symm.trans hbox)
    rcases hmug with ⟨cp, hcp, rfl, _⟩ | ⟨_, rfl⟩
    · exact absurd (hall cp hcp) hmem
    · obtain ⟨m, hdenotes⟩ := hready.nouns off box₀ hold
      have hkept : Denotes s.heap (box₀.body.toRef off) m := hdenotes.congr fun b box hb ↦ by
        obtain ⟨_, _, hheap, _⟩ := htaking.old b box hb
        rw [hheap]
        rfl
      rw [hden.unique (hsame hkept)]
      exact hmugs off box₀ m hold hdenotes
  | none =>
    by_cases hcopy : ∃ cp ∈ cps, cp.new = off
    · obtain ⟨cp, hcp, rfl⟩ := hcopy
      obtain ⟨_, _, _, box₀, body, hbox₀, hbody, _, hheap⟩ := htaking.new cp hcp
      obtain rfl := Option.some.inj (hheap.symm.trans hbox)
      obtain ⟨m, hdenotes⟩ := hready.nouns cp.old box₀ hbox₀
      have hcopied := hsame (htaking.denotes hready hdenotes (.of_copy hcp box₀.body))
      rw [← hbody.toRef_eq] at hcopied
      rw [hden.unique hcopied]
      exact hmugs cp.old box₀ m hbox₀ hdenotes
    · rw [htaking.absent off hold fun cp hcp heq ↦ hcopy ⟨cp, hcp, heq⟩] at hbox
      cases hbox

/-- Washing removes the references to copies. -/
theorem Taking.washed {veb pro : Ref} {n : Noun} (hash : Noun → ℕ)
    (hready : Ready s.rod_u north s.heap) (htaking : Taking s.rod_u north s.heap cps [pro] s')
    (hpile : s'.pil_u = [])
      (hden : Denotes s.heap veb n)
    (hmoves : Moves (fun b ↦ s.rod_u.isJunior north b = true) cps veb pro)
    (hparts : ∀ cp ∈ cps, ∃ path r, part s.heap veb path = some r ∧ r.off = some cp.old)
    (hmugs : Mugged hash s.heap) {fuel : ℕ} (hfuel : n.size ≤ fuel) :
    ∃ news, wash fuel veb s' = .ok () { s' with heap := blanked s'.heap news } ∧
      (∀ off ∈ news, s.rod_u.isJunior north off = true) ∧ Mugged hash (blanked s'.heap news) := by
  have hdenotes : Denotes s'.heap veb n := hden.congr fun b box hb ↦ by
    obtain ⟨_, _, hheap, _⟩ := htaking.old b box hb
    rw [hheap]
    rfl
  have hjuniors : ∀ off, s'.rod_u.isJunior north off = s.rod_u.isJunior north off :=
    htaking.junior_eq hpile
  have hlist : ∀ rs, juniors s'.rod_u north rs = juniors s.rod_u north rs := by
    intro rs
    unfold juniors
    simp only [hjuniors]
  have hnext : juniorNext s'.rod_u north s'.heap = juniorNext s.rod_u north s'.heap := by
    funext off
    unfold juniorNext
    simp only [hlist]
  obtain ⟨news, hwash, hvisits, _⟩ : ∃ news, washJunior north fuel veb s' = _ ∧ _ ∧ _ :=
    washJunior_visits fuel hdenotes hfuel
  rw [hnext, hlist] at hvisits
  refine ⟨news, ?_, fun off hmem ↦ ?_, htaking.mugged hash hready hmugs fun cp hcp ↦ ?_⟩
  · show washJunior s'.rod_u.isNorth fuel veb s' = _
    rw [htaking.bounded.isNorth]
    exact hwash
  · obtain ⟨a, ha, hpath⟩ := hvisits.reached off hmem
    have hjunior : ∀ {rs : List Ref} {b : ℕ}, b ∈ juniors s.rod_u north rs →
        s.rod_u.isJunior north b = true :=
      fun hb ↦ (List.mem_filter.mp hb).2
    rcases hpath.cases_tail with rfl | ⟨b, _, hb⟩
    · exact hjunior ha
    · unfold juniorNext at hb
      cases hheap : s'.heap b with
      | none =>
        rw [hheap] at hb
        exact absurd hb List.not_mem_nil
      | some box =>
        rw [hheap] at hb
        exact hjunior hb
  · obtain ⟨path, r, hpart, hoff⟩ := hparts cp hcp
    refine htaking.visited hready hvisits.closed hden hmoves (fun b hb hjun ↦ ?_) hpart cp.old hoff
      (htaking.new cp hcp).1
    refine (hvisits.roots b ?_).resolve_left (htaking.not_blank hmoves hb hjun)
    rw [juniors_junior hb hjun]
    exact List.mem_singleton_self b

end Vere.Noun.Take
