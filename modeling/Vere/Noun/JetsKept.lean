import Mathlib.Logic.Relation
import Vere.Noun.JetsSearch

/-!
# Registrations that drop nothing

A search reads the registry of a battery, looks for the parents of the core, and then writes the
registry back with the location that it found in the table. A location that was added to the
registry meanwhile is dropped, and so is one that is in the same place. `Calm` is a condition on the
dashboard and the core before the step under which that cannot be: what a search finds does not
depend on when it is made, and no two cores of one battery, one of them inside the other, are added
at different locations (`spot_kept`, `mile_kept`).
-/

set_option autoImplicit false

namespace Vere.Noun.Jets

open Relation (ReflTransGen TransGen)
open Vere.Noun.Nock (slot)

variable {D : Dash} {st s s' : State} {loc pel l l' : Loc} {cor par bat pay : Noun} {reg : Reg}
  {axe : ℕ}

/-! ### Places -/

/-- Where `_cj_gust()` puts a location: under its payload, or under its axis and its parent. -/
def Loc.place : Loc → Noun ⊕ ℕ × Loc
  | .root sat _ _ => .inl sat
  | .fast pel _ _ => .inr (3, pel)
  | .slow axe pel _ _ => .inr (axe, pel)

theorem Loc.place_inl {sat : Noun} : loc.place = .inl sat ↔ ∃ nam huc, loc = .root sat nam huc := by
  cases loc <;> simp [Loc.place]

theorem Loc.place_inr : loc.place = .inr (axe, pel) ↔ loc.axe = axe ∧ loc.pel = some pel := by
  cases loc <;> simp [Loc.place, Loc.axe, Loc.pel]

theorem Reg.Ok.mem_iff (hok : reg.Ok) : loc ∈ reg.locs ↔
    (∃ sat, loc.place = .inl sat ∧ reg.rut.lookup sat = some loc) ∨
      ∃ par ∈ reg.pas, ∃ pel, loc.place = .inr (par.1, pel) ∧ par.2.lookup pel = some loc := by
  rw [Reg.mem_locs]
  constructor
  · rintro (⟨sat, hroot⟩ | ⟨par, hpar, pel, hlookup⟩)
    · exact Or.inl ⟨sat, Loc.place_inl.mpr (hok.roots sat loc hroot), hroot⟩
    · exact Or.inr ⟨par, hpar, pel, Loc.place_inr.mpr (hok.pars par hpar pel loc hlookup), hlookup⟩
  · rintro (⟨sat, -, hroot⟩ | ⟨par, hpar, pel, -, hlookup⟩)
    · exact Or.inl ⟨sat, hroot⟩
    · exact Or.inr ⟨par, hpar, pel, hlookup⟩

/-- The axes of a registry are different. -/
theorem Reg.Ok.par_eq (hok : reg.Ok) {par par' : ℕ × Lol} (hpar : par ∈ reg.pas)
    (hpar' : par' ∈ reg.pas) (haxe : par.1 = par'.1) : par = par' := by
  have hnodup : (reg.pas.map Prod.fst).Nodup := hok.sorted.imp fun hlt ↦ Nat.ne_of_lt hlt
  exact List.inj_on_of_nodup_map hnodup hpar hpar' haxe

/-- There is one location in a place. -/
theorem Reg.Ok.eq_of_place (hok : reg.Ok) (hl : l ∈ reg.locs) (hl' : l' ∈ reg.locs)
    (hplace : l.place = l'.place) :
    l = l' := by
  obtain ⟨sat, hat, hroot⟩ | ⟨par, hpar, pel, hat, hlookup⟩ := hok.mem_iff.mp hl <;>
    obtain ⟨sat', hat', hroot'⟩ | ⟨par', hpar', pel', hat', hlookup'⟩ := hok.mem_iff.mp hl'
  · obtain rfl : sat = sat' := Sum.inl.inj (hat.symm.trans (hplace.trans hat'))
    exact Option.some.inj (hroot.symm.trans hroot')
  · cases hat.symm.trans (hplace.trans hat')
  · cases hat.symm.trans (hplace.trans hat')
  · obtain ⟨haxe, rfl⟩ := Prod.mk.inj (Sum.inr.inj (hat.symm.trans (hplace.trans hat')))
    obtain rfl := hok.par_eq hpar hpar' haxe
    exact Option.some.inj (hlookup.symm.trans hlookup')

/-- An entry of a list of ancestors, of an axis and a parent. -/
def Entry (lan : List (ℕ × Lol)) (axe : ℕ) (pel loc : Loc) : Prop :=
  ∃ par ∈ lan, par.1 = axe ∧ par.2.lookup pel = some loc

theorem Entry.cons {lan : List (ℕ × Lol)} (par : ℕ × Lol) (hentry : Entry lan axe pel loc) :
    Entry (par :: lan) axe pel loc := by
  obtain ⟨q, hq, hat, hlookup⟩ := hentry
  exact ⟨q, List.mem_cons_of_mem par hq, hat, hlookup⟩

section Ancestors

variable {lan lan' : List (ℕ × Lol)} {axe' : ℕ} {pel' : Loc}

theorem entry_minePar_old (hold : minePar_old axe pel loc lan = some lan')
    (hentry : Entry lan axe' pel' l) (hne : (axe', pel') ≠ (axe, pel)) :
    Entry lan' axe' pel' l := by
  induction lan generalizing lan' with
  | nil => cases hold
  | cons par lan ih =>
    rw [minePar_old] at hold
    obtain ⟨q, hq, rfl, hlookup⟩ := hentry
    split_ifs at hold with heq
    · cases hold
      obtain rfl | hq := List.mem_cons.mp hq
      · refine ⟨_, List.mem_cons_self, heq, ?_⟩
        have hpel : pel' ≠ pel := fun hsame ↦ hne (by rw [hsame, heq])
        rw [AList.lookup_insert_ne hpel]
        exact hlookup
      · exact ⟨q, List.mem_cons_of_mem _ hq, rfl, hlookup⟩
    · obtain ⟨nex, hnex, rfl⟩ := Option.map_eq_some_iff.mp hold
      obtain rfl | hq := List.mem_cons.mp hq
      · exact ⟨_, List.mem_cons_self, rfl, hlookup⟩
      · exact (ih hnex ⟨q, hq, rfl, hlookup⟩).cons par

theorem entry_minePar_new (hentry : Entry lan axe' pel' l) :
    Entry (minePar_new axe pel loc lan) axe' pel' l := by
  induction lan with
  | nil =>
    obtain ⟨q, hq, -⟩ := hentry
    cases hq
  | cons par lan ih =>
    rw [minePar_new]
    split_ifs with hlt
    · exact hentry.cons _
    · obtain ⟨q, hq, rfl, hlookup⟩ := hentry
      obtain rfl | hq := List.mem_cons.mp hq
      · exact ⟨_, List.mem_cons_self, rfl, hlookup⟩
      · exact (ih ⟨q, hq, rfl, hlookup⟩).cons par

theorem entry_minePar (hentry : Entry lan axe' pel' l) (hne : (axe', pel') ≠ (axe, pel)) :
    Entry (minePar axe pel loc lan) axe' pel' l := by
  rw [minePar]
  cases hold : minePar_old axe pel loc lan with
  | some old => exact entry_minePar_old hold hentry hne
  | none => exact entry_minePar_new hentry

end Ancestors

/-- `_cj_gust()` keeps the locations in other places. -/
theorem mem_gust (hok : reg.Ok) (hl : l ∈ reg.locs) (hne : l.place ≠ loc.place) :
    l ∈ (gust (some reg) loc).locs := by
  have hpars : ∀ axe pel, loc.place = .inr (axe, pel) →
      l ∈ Reg.locs ⟨reg.rut, minePar axe pel loc reg.pas⟩ := by
    intro axe pel hplace
    obtain ⟨sat, -, hroot⟩ | ⟨par, hpar, pel', hat, hlookup⟩ := hok.mem_iff.mp hl
    · exact Reg.mem_locs.mpr (Or.inl ⟨sat, hroot⟩)
    · have hother : (par.1, pel') ≠ (axe, pel) := by
        intro hsame
        rw [hat, hplace, hsame] at hne
        exact hne rfl
      have hkept : Entry (minePar axe pel loc reg.pas) par.1 pel' l :=
        entry_minePar ⟨par, hpar, rfl, hlookup⟩ hother
      obtain ⟨q, hq, -, hfound⟩ := hkept
      exact Reg.mem_locs.mpr (Or.inr ⟨q, hq, pel', hfound⟩)
  cases loc with
  | root sat nam huc =>
    obtain ⟨sat', hat, hroot⟩ | hpar := hok.mem_iff.mp hl
    · have hother : sat' ≠ sat := by
        rintro rfl
        exact hne hat
      exact Reg.mem_locs.mpr (Or.inl ⟨sat', (AList.lookup_insert_ne hother).trans hroot⟩)
    · obtain ⟨par, hin, pel, -, hlookup⟩ := hpar
      exact Reg.mem_locs.mpr (Or.inr ⟨par, hin, pel, hlookup⟩)
  | fast pel nam huc => exact hpars 3 pel rfl
  | slow axe pel nam huc => exact hpars axe pel rfl

/-! ### Calm cores -/

/-- A location of the table, which a search may add to the registry of a battery. -/
def Tabled (D : Dash) (bat : Noun) (loc : Loc) : Prop :=
  D.hashless = false ∧ ∃ hot, D.hot_p (D.bash bat) = some hot ∧ loc ∈ hot.reg.locs

/-- A location that a battery is registered at, or that the table has for it. -/
def Listed (D : Dash) (st : State) (bat : Noun) (loc : Loc) : Prop :=
  RegAt st bat loc ∨ Tabled D bat loc

/-- A core is at a location. -/
inductive At (D : Dash) (st : State) : Noun → Loc → Prop
  | root {loc : Loc} {bat sat : Noun} (hlisted : Listed D st bat loc)
    (hplace : loc.place = .inl sat) :
      At D st (.cell bat sat) loc
  | parent {loc pel : Loc} {axe : ℕ} {bat pay par : Noun} (hlisted : Listed D st bat loc)
    (hplace : loc.place = .inr (axe, pel))
      (hslot : slot axe (.cell bat pay) = some par)
      (hpar : At D st par pel) : At D st (.cell bat pay) loc

/-- A noun of the core is in the place of a parent. -/
def Under (D : Dash) (st : State) (cor par : Noun) : Prop :=
  ∃ bat pay loc axe pel, cor = .cell bat pay ∧ Listed D st bat loc ∧ loc.place = .inr (axe, pel) ∧
    slot axe cor = some par

/-- What holds of the core and of its nouns in the places of parents: one at a location which is not
registered yet is at no other, and of two with the same battery, one inside the other, at different
locations, one is registered already. -/
structure Calm (D : Dash) (st : State) (cor : Noun) : Prop where
  single : ∀ bat pay, ReflTransGen (Under D st) cor (.cell bat pay) →
    ∀ loc loc', At D st (.cell bat pay) loc →
    At D st (.cell bat pay) loc' → RegAt st bat loc ∨ loc = loc'
  apart : ∀ bat pay pay', ReflTransGen (Under D st) cor (.cell bat pay) →
    TransGen (Under D st) (.cell bat pay) (.cell bat pay') →
    ∀ loc loc', At D st (.cell bat pay) loc →
      At D st (.cell bat pay') loc' → RegAt st bat loc ∨ RegAt st bat loc' ∨ loc = loc'

theorem Calm.under (hcalm : Calm D st cor) (hunder : Under D st cor par) : Calm D st par where
  single bat pay hpart := hcalm.single bat pay (hpart.head hunder)
  apart bat pay pay' hpart := hcalm.apart bat pay pay' (hpart.head hunder)

/-- What holds of the roads between the searches of a step: what was registered at its beginning
still is, and otherwise there are locations of the table only. -/
structure Mid (D : Dash) (st s : State) : Prop where
  view : View D s
  ne_nil : s ≠ []
  kept : Kept s
  regs : ∀ bat loc, RegAt st bat loc → RegAt s bat loc
  listed : ∀ bat loc, RegAt s bat loc → Listed D st bat loc

theorem Mid.start (hview : View D st) (hst : st ≠ []) (hkept : Kept st) : Mid D st st :=
  ⟨hview, hst, hkept, fun _ _ h ↦ h, fun _ _ h ↦ Or.inl h⟩

theorem Mid.listed_iff (hmid : Mid D st s) : Listed D s bat loc ↔ Listed D st bat loc := by
  constructor
  · rintro (hreg | htabled)
    · exact hmid.listed bat loc hreg
    · exact Or.inr htabled
  · rintro (hreg | htabled)
    · exact Or.inl (hmid.regs bat loc hreg)
    · exact Or.inr htabled

/-! ### What is found in the nouns of a core -/

section Finds

variable {P : Noun → Option Loc → Prop}

/-- A core fits a location. -/
def Fit (P : Noun → Option Loc → Prop) (cor pay : Noun) (loc : Loc) : Prop :=
  match loc.place with
  | .inl sat => sat = pay
  | .inr (axe, pel) => ∃ par, slot axe cor = some par ∧ P par (some pel)

/-- It does not. -/
def Miss (P : Noun → Option Loc → Prop) (cor pay : Noun) (loc : Loc) : Prop :=
  match loc.place with
  | .inl sat => sat ≠ pay
  | .inr (axe, pel) => ∀ par, slot axe cor = some par → ∃ o, P par o ∧ o ≠ some pel

theorem Fit.congr (hfit : Fit P cor pay l) (hplace : l.place = l'.place) : Fit P cor pay l' := by
  rw [Fit, hplace] at hfit
  exact hfit

theorem Fit.not_miss (hlisted : Listed D st bat loc)
    (hsame : ∀ par, Under D st (.cell bat pay) par → ∀ o o', P par o → P par o' → o = o')
    (hfit : Fit P (.cell bat pay) pay loc) (hmiss : Miss P (.cell bat pay) pay loc) : False := by
  rw [Fit] at hfit
  rw [Miss] at hmiss
  cases hplace : loc.place with
  | inl sat =>
    rw [hplace] at hfit hmiss
    exact hmiss hfit
  | inr at_ =>
    obtain ⟨axe, pel⟩ := at_
    rw [hplace] at hfit hmiss
    obtain ⟨par, hslot, hpel⟩ := hfit
    obtain ⟨o, ho, hne⟩ := hmiss par hslot
    exact hne (hsame par ⟨bat, pay, loc, axe, pel, rfl, hlisted, hplace, hslot⟩ _ _ ho hpel)

/-- Two locations that a core fits, at one axis, are in one place. -/
theorem Fit.place_eq (hlisted : Listed D st bat l) (hplaced : l.Placed) (hplaced' : l'.Placed)
    (hsame : ∀ par, Under D st (.cell bat pay) par → ∀ o o', P par o → P par o' → o = o')
    (hfit : Fit P (.cell bat pay) pay l) (hfit' : Fit P (.cell bat pay) pay l')
    (haxe : l.axe = l'.axe) :
    l.place = l'.place := by
  have hroot : ∀ {loc : Loc} {sat : Noun}, loc.place = .inl sat → loc.axe = 0 := by
    intro loc sat hplace
    obtain ⟨nam, huc, rfl⟩ := Loc.place_inl.mp hplace
    rfl
  have hbelow : ∀ {loc pel : Loc} {axe : ℕ}, loc.Placed → loc.place = .inr (axe, pel) →
      loc.axe ≠ 0 := by
    intro loc pel axe hplaced hplace
    have hpel : loc.pel ≠ none := by
      rw [(Loc.place_inr.mp hplace).2]
      exact Option.some_ne_none _
    exact Nat.one_le_iff_ne_zero.mp (hplaced hpel).1
  rw [Fit] at hfit hfit'
  cases hplace : l.place with
  | inl sat =>
    cases hplace' : l'.place with
    | inl sat' =>
      rw [hplace] at hfit
      rw [hplace'] at hfit'
      rw [show sat = pay from hfit, show sat' = pay from hfit']
    | inr at' => exact absurd (haxe.symm.trans (hroot hplace)) (hbelow hplaced' hplace')
  | inr at_ =>
    obtain ⟨axe, pel⟩ := at_
    cases hplace' : l'.place with
    | inl sat' => exact absurd (haxe.trans (hroot hplace')) (hbelow hplaced hplace)
    | inr at' =>
      obtain ⟨axe', pel'⟩ := at'
      rw [hplace] at hfit
      rw [hplace'] at hfit'
      obtain rfl : axe = axe' :=
        (Loc.place_inr.mp hplace).1.symm.trans (haxe.trans (Loc.place_inr.mp hplace').1)
      obtain ⟨par, hslot, hpel⟩ := hfit
      obtain ⟨par', hslot', hpel'⟩ := hfit'
      cases hslot.symm.trans hslot'
      cases hsame par ⟨bat, pay, l, axe, pel, rfl, hlisted, hplace, hslot⟩ _ _ hpel hpel'
      rfl

/-- The core fits no location of an entry. -/
def MissAll (P : Noun → Option Loc → Prop) (cor : Noun) (entry : ℕ × Lol) : Prop :=
  ∀ pel loc, entry.2.lookup pel = some loc → ∀ par, slot entry.1 cor = some par → ∃ o, P par o ∧
    o ≠ some pel

/-- What the loop over the parents finds: a location that the core fits, and none at the axes before
it, or none at all. -/
structure First (P : Noun → Option Loc → Prop) (cor : Noun) (pas : List (ℕ × Lol))
    (o : Option Loc) : Prop where
  found : ∀ loc, o = some loc → ∃ entry ∈ pas, ∃ pel par, entry.2.lookup pel = some loc ∧
    slot entry.1 cor = some par ∧
    P par (some pel) ∧ ∀ q ∈ pas, q.1 < entry.1 → MissAll P cor q
  none : o = none → ∀ q ∈ pas, MissAll P cor q

theorem First.cons {entry : ℕ × Lol} {pas : List (ℕ × Lol)} {o : Option Loc}
    (hmiss : MissAll P cor entry) (hfirst : First P cor pas o) : First P cor (entry :: pas) o where
  found loc hloc := by
    obtain ⟨q, hq, pel, par, hlookup, hslot, hpel, hbefore⟩ := hfirst.found loc hloc
    refine ⟨q, List.mem_cons_of_mem _ hq, pel, par, hlookup, hslot, hpel, fun q' hq' hlt ↦ ?_⟩
    obtain rfl | hq' := List.mem_cons.mp hq'
    · exact hmiss
    · exact hbefore q' hq' hlt
  none ho q hq := by
    obtain rfl | hq := List.mem_cons.mp hq
    · exact hmiss
    · exact hfirst.none ho q hq

variable {spot : Noun → M (Option Loc)} {Q : State → Prop} {o : Option Loc}

theorem parFind_fit {pas : List (ℕ × Lol)} (hsorted : (pas.map Prod.fst).Pairwise (· < ·))
    (hspot : ∀ entry ∈ pas, ∀ par, slot entry.1 cor = some par → ∀ o s s', Q s →
    spot par s = .ok (o, s') → P par o ∧ Q s') (hs : Q s)
    (hrun : parFind spot cor pas s = .ok (o, s')) : Q s' ∧ First P cor pas o := by
  induction pas generalizing s with
  | nil =>
    obtain ⟨rfl, rfl⟩ := Prod.mk.inj (pure_eq_ok.mp hrun)
    exact ⟨hs, fun _ hnone ↦ (by cases hnone), fun _ q hq ↦ by cases hq⟩
  | cons entry pas ih =>
    rw [List.map_cons, List.pairwise_cons] at hsorted
    -- the other parents, when the core does not fit the first one
    have hnext : MissAll P cor entry → ∀ s, Q s → parFind spot cor pas s = .ok (o, s') → Q s' ∧
        First P cor (entry :: pas) o := by
      intro hmiss s hs hrun
      obtain ⟨hs', hfirst⟩ := ih hsorted.2 (fun q hq ↦ hspot q (List.mem_cons_of_mem _ hq)) hs hrun
      exact ⟨hs', hfirst.cons hmiss⟩
    obtain ⟨axe, lol⟩ := entry
    rw [parFind] at hrun
    cases hslot : slot axe cor with
    | none =>
      rw [hslot] at hrun
      refine hnext (fun pel loc _ par hsome ↦ ?_) s hs hrun
      cases hslot.symm.trans hsome
    | some par =>
      rw [hslot] at hrun
      obtain ⟨pel, s₁, hpel, hrun⟩ := bind_eq_ok.mp hrun
      obtain ⟨hfinds, hs₁⟩ := hspot _ List.mem_cons_self par hslot pel s s₁ hs hpel
      cases hlookup : pel.bind lol.lookup with
      | none =>
        rw [hlookup] at hrun
        refine hnext (fun pel' loc hin par' hsome ↦ ?_) s₁ hs₁ hrun
        cases hslot.symm.trans hsome
        refine ⟨pel, hfinds, ?_⟩
        rintro rfl
        cases hlookup.symm.trans hin
      | some loc =>
        rw [hlookup] at hrun
        obtain ⟨rfl, rfl⟩ := Prod.mk.inj (pure_eq_ok.mp hrun)
        obtain ⟨pel, rfl, hin⟩ := Option.bind_eq_some_iff.mp hlookup
        refine ⟨hs₁, fun loc' hloc' ↦ ?_, fun hnone ↦ by cases hnone⟩
        cases hloc'
        refine ⟨_, List.mem_cons_self, pel, par, hin, hslot, hfinds, fun q hq hlt ↦ ?_⟩
        obtain rfl | hq := List.mem_cons.mp hq
        · exact absurd hlt (lt_irrefl _)
        · exact absurd hlt (Nat.lt_asymm (hsorted.1 _ (List.mem_map_of_mem hq)))

/-- `_cj_reg_find()` finds the first location that the core fits. -/
theorem regFind_fit (hok : reg.Ok)
    (hspot : ∀ loc ∈ reg.locs, ∀ axe pel, loc.place = .inr (axe, pel) → ∀ par,
      slot axe (.cell bat pay) = some par → ∀ o s s', Q s → spot par s = .ok (o, s') →
      P par o ∧ Q s')
    (hs : Q s) (hrun : regFind spot reg bat pay s = .ok (o, s')) :
    Q s' ∧ (∀ loc, o = some loc → loc ∈ reg.locs ∧ Fit P (.cell bat pay) pay loc ∧
        ∀ l ∈ reg.locs, l.axe < loc.axe → Miss P (.cell bat pay) pay l) ∧
      (o = none → ∀ l ∈ reg.locs, Miss P (.cell bat pay) pay l) := by
  have hentry : ∀ entry ∈ reg.pas, ∀ par, slot entry.1 (.cell bat pay) = some par →
      ∀ o s s', Q s → spot par s = .ok (o, s') → P par o ∧ Q s' := by
    intro entry hin
    obtain ⟨pel, loc, hlookup⟩ := hok.used entry hin
    exact hspot loc (Reg.mem_locs.mpr (Or.inr ⟨entry, hin, pel, hlookup⟩)) entry.1 pel
      (Loc.place_inr.mpr (hok.pars entry hin pel loc hlookup))
  rw [regFind] at hrun
  cases hroot : reg.rut.lookup pay with
  | some loc =>
    rw [hroot] at hrun
    obtain ⟨rfl, rfl⟩ := Prod.mk.inj (pure_eq_ok.mp hrun)
    obtain ⟨nam, huc, rfl⟩ := hok.roots pay loc hroot
    refine ⟨hs, fun loc' hloc' ↦ ?_, fun hnone ↦ by cases hnone⟩
    cases hloc'
    refine ⟨Reg.mem_locs.mpr (Or.inl ⟨pay, hroot⟩), rfl, fun l _ hlt ↦ ?_⟩
    cases hlt
  | none =>
    rw [hroot] at hrun
    obtain ⟨hs', hfirst⟩ := parFind_fit hok.sorted hentry hs hrun
    -- a root that is there has another payload
    have hmiss : ∀ l ∈ reg.locs, (∀ par ∈ reg.pas, ∀ pel, l.place = .inr (par.1, pel) →
      par.2.lookup pel = some l →
        ∀ par', slot par.1 (.cell bat pay) = some par' → ∃ o, P par' o ∧ o ≠ some pel) →
        Miss P (.cell bat pay) pay l := by
      intro l hl hpars
      rw [Miss]
      obtain ⟨sat, hat, hsat⟩ | ⟨par, hpar, pel, hat, hlookup⟩ := hok.mem_iff.mp hl
      · rw [hat]
        rintro rfl
        cases hroot.symm.trans hsat
      · rw [hat]
        exact hpars par hpar pel hat hlookup
    refine ⟨hs', fun loc hloc ↦ ?_, fun ho l hl ↦ hmiss l hl fun par hpar pel _ hlookup ↦
      hfirst.none ho par hpar pel l hlookup⟩
    obtain ⟨par, hpar, pel, n, hlookup, hslot, hpel, hbefore⟩ := hfirst.found loc hloc
    have hat := Loc.place_inr.mpr (hok.pars par hpar pel loc hlookup)
    refine ⟨Reg.mem_locs.mpr (Or.inr ⟨par, hpar, pel, hlookup⟩), ?_,
      fun l hl hlt ↦ hmiss l hl fun q hq pel' hat' hlookup' ↦ ?_⟩
    · rw [Fit, hat]
      exact ⟨n, hslot, hpel⟩
    · refine hbefore q hq ?_ pel' l hlookup'
      rw [← (Loc.place_inr.mp hat').1, ← (hok.pars par hpar pel loc hlookup).1]
      exact hlt

end Finds

/-! ### Writing a registry -/

section Add

variable {road : Road} {rest : State} {bas : ℕ} {act : Act} {old : Option Reg}

theorem regAt_add {bat' : Noun} : RegAt (road.add rest bat bas reg loc act :: rest) bat' l ↔
    bat' = bat ∧ l ∈ reg.locs ∨ bat' ≠ bat ∧ RegAt (road :: rest) bat' l := by
  rw [RegAt]
  by_cases hsame : bat' = bat
  · subst hsame
    rw [findCold_add]
    simp
  · rw [findCold_add_ne hsame]
    simp [hsame, RegAt]

theorem add_kept (hkept : Kept (road :: rest))
    (hkeep : ∀ l, RegAt (road :: rest) bat l → l ∈ reg.locs) :
    Kept (road.add rest bat bas reg loc act :: rest) := by
  intro r hr
  obtain rfl | hr := List.mem_cons.mp hr
  · have hall : keepsAll (findCold (road :: rest) bat) reg = true :=
      keepsAll_iff.mpr fun bar hbar l hl ↦ hkeep l ⟨bar, hbar, hl⟩
    have hroad : road.lost = false := hkept road List.mem_cons_self
    show (road.lost || !keepsAll (findCold (road :: rest) bat) reg) = false
    rw [hall, hroad]
    rfl
  · exact hkept r (List.mem_cons_of_mem _ hr)

/-- A registry with all that is there at the time is written. -/
theorem add_mid (hview : View D (road.add rest bat bas (gust old loc) loc act :: rest))
    (hmid : Mid D st (road :: rest)) (hlisted : Listed D st bat loc)
    (hold : ∀ reg l, old = some reg → l ∈ reg.locs → Listed D st bat l)
    (hkeep : ∀ l, RegAt (road :: rest) bat l → l ∈ (gust old loc).locs) :
    Mid D st (road.add rest bat bas (gust old loc) loc act :: rest) where
  view := hview
  ne_nil := List.cons_ne_nil _ _
  kept := add_kept hmid.kept hkeep
  regs bat' l hreg := by
    have hbefore := hmid.regs bat' l hreg
    by_cases hsame : bat' = bat
    · subst hsame
      exact regAt_add.mpr (Or.inl ⟨rfl, hkeep l hbefore⟩)
    · exact regAt_add.mpr (Or.inr ⟨hsame, hbefore⟩)
  listed bat' l hreg := by
    obtain ⟨rfl, hin⟩ | ⟨-, hreg⟩ := regAt_add.mp hreg
    · obtain rfl | ⟨reg, hreg, hin⟩ := mem_locs_gust.2 l hin
      · exact hlisted
      · exact hold reg l hreg hin
    · exact hmid.listed bat' l hreg

end Add

/-! ### Searches in a calm core -/

/-- What a search in a noun finds at some time of the step. -/
def Runs (D : Dash) (st : State) (n : ℕ) (par : Noun) (o : Option Loc) : Prop :=
  ∃ fuel ≤ n, ∃ s s' bas, Mid D st s ∧ spotN D fuel par none s = .ok ((o, bas), s')

/-- What a search does: it adds locations of nouns of the core, and finds one where the core is. -/
structure Calmly (D : Dash) (st : State) (cor : Noun) (o : Option Loc) (s s' : State) : Prop where
  mid : Mid D st s'
  adds : ∀ bat loc, RegAt s' bat loc → RegAt s bat loc ∨
    ∃ pay, ReflTransGen (Under D st) cor (.cell bat pay) ∧ At D st (.cell bat pay) loc
  finds : ∀ loc, o = some loc → At D st cor loc

/-- Where a search finds the location of the core `[bat pay]`. -/
inductive Outcome (D : Dash) (s : State) (P : Noun → Option Loc → Prop) (bat pay : Noun) :
    Option Loc → Prop
  | cold {loc : Loc} (hreg : RegAt s bat loc) (hfit : Fit P (.cell bat pay) pay loc)
      (hbefore : ∀ l, RegAt s bat l → l.axe < loc.axe →
      Miss P (.cell bat pay) pay l) : Outcome D s P bat pay (some loc)
  | hot {loc : Loc} (htabled : Tabled D bat loc) (hfit : Fit P (.cell bat pay) pay loc)
      (hmiss : ∀ l, RegAt s bat l → Miss P (.cell bat pay) pay l) : Outcome D s P bat pay (some loc)
  | none (hmiss : ∀ l, Listed D s bat l → Miss P (.cell bat pay) pay l) : Outcome D s P bat pay none

section Outcomes

variable {P : Noun → Option Loc → Prop} {o o' : Option Loc}

theorem Outcome.fits (hout : Outcome D s P bat pay (some loc)) :
    Listed D s bat loc ∧ Fit P (.cell bat pay) pay loc := by
  cases hout with
  | cold hreg hfit => exact ⟨Or.inl hreg, hfit⟩
  | hot htabled hfit => exact ⟨Or.inr htabled, hfit⟩

/-- Where the core fits a location, one is found, and if that is registered then one that is and
comes no later. -/
theorem Outcome.found (hmid : Mid D st s)
    (hsame : ∀ par, Under D st (.cell bat pay) par → ∀ o o', P par o → P par o' → o = o')
    (hout : Outcome D s P bat pay o) (hlisted : Listed D s bat l)
    (hfit : Fit P (.cell bat pay) pay l) :
    ∃ loc, o = some loc ∧ (RegAt s bat l → RegAt s bat loc ∧ loc.axe ≤ l.axe) := by
  have hne : ¬Miss P (.cell bat pay) pay l :=
    fun hmiss ↦ hfit.not_miss (hmid.listed_iff.mp hlisted) hsame hmiss
  cases hout with
  | cold hreg _ hbefore =>
    exact ⟨_, rfl, fun hl ↦ ⟨hreg, Nat.le_of_not_lt fun hlt ↦ hne (hbefore l hl hlt)⟩⟩
  | hot _ _ hmiss => exact ⟨_, rfl, fun hl ↦ absurd (hmiss l hl) hne⟩
  | none hmiss => exact absurd (hmiss l hlisted) hne

/-- What is found does not depend on the time. -/
theorem Outcome.unique (hcalm : Calm D st (.cell bat pay)) (hmid : Mid D st s) (hmid' : Mid D st s')
    (hat : ∀ loc, Listed D st bat loc → Fit P (.cell bat pay) pay loc → At D st (.cell bat pay) loc)
    (hsame : ∀ par, Under D st (.cell bat pay) par → ∀ o o', P par o → P par o' → o = o')
    (hout : Outcome D s P bat pay o) (hout' : Outcome D s' P bat pay o') : o = o' := by
  cases o with
  | none =>
    cases o' with
    | none => rfl
    | some l' =>
      obtain ⟨hlisted', hfit'⟩ := hout'.fits
      obtain ⟨loc, hloc, -⟩ :=
        hout.found hmid hsame (hmid.listed_iff.mpr (hmid'.listed_iff.mp hlisted')) hfit'
      cases hloc
  | some l =>
    obtain ⟨hlisted, hfit⟩ := hout.fits
    have hst := hmid.listed_iff.mp hlisted
    obtain ⟨l', rfl, hfirst'⟩ := hout'.found hmid' hsame (hmid'.listed_iff.mpr hst) hfit
    obtain ⟨hlisted', hfit'⟩ := hout'.fits
    have hst' := hmid'.listed_iff.mp hlisted'
    obtain ⟨l₁, hl₁, hfirst⟩ := hout.found hmid hsame (hmid.listed_iff.mpr hst') hfit'
    cases hl₁
    have hself : ReflTransGen (Under D st) (.cell bat pay) (.cell bat pay) := ReflTransGen.refl
    obtain hreg | rfl := hcalm.single bat pay hself l l' (hat l hst hfit) (hat l' hst' hfit')
    · obtain hreg' | rfl := hcalm.single bat pay hself l' l (hat l' hst' hfit') (hat l hst hfit)
      · -- both are registered, and neither comes before the other
        obtain ⟨hin', hle'⟩ := hfirst' (hmid'.regs bat l hreg)
        obtain ⟨-, hle⟩ := hfirst (hmid.regs bat l' hreg')
        have hplace := Fit.place_eq hst (hmid.view.placed (hmid.regs bat l hreg))
          (hmid'.view.placed hin') hsame hfit hfit'
          (Nat.le_antisymm hle hle')
        obtain ⟨bar, hbar, hin⟩ := hmid'.regs bat l hreg
        obtain ⟨bar', hbar', hin'⟩ := hin'
        cases hbar.symm.trans hbar'
        rw [(hmid'.view.ok bat bar hbar).1.eq_of_place hin hin' hplace]
      · rfl
    · rfl

end Outcomes

/-- What is shown of the searches with an amount of fuel: they are calm, and what they find does not
depend on the time. -/
structure Steady (D : Dash) (st : State) (n : ℕ) : Prop where
  calmly : ∀ {cor : Noun} {o : Option Loc} {bas : Option ℕ} {s s' : State} (fuel : ℕ), fuel ≤ n →
    Calm D st cor →
    Mid D st s → spotN D fuel cor none s = .ok ((o, bas), s') → Calmly D st cor o s s'
  same : ∀ {cor : Noun} {o o' : Option Loc}, Calm D st cor → Runs D st n cor o →
    Runs D st n cor o' → o = o'

/-- What holds of the roads while a search goes on that began on `s`. -/
structure Since (D : Dash) (st s : State) (cor : Noun) (s₁ : State) : Prop where
  mid : Mid D st s₁
  adds : ∀ bat loc, RegAt s₁ bat loc → RegAt s bat loc ∨
    ∃ pay, TransGen (Under D st) cor (.cell bat pay) ∧ At D st (.cell bat pay) loc

theorem Since.start (hmid : Mid D st s) : Since D st s cor s := ⟨hmid, fun _ _ h ↦ Or.inl h⟩

theorem Since.calmly {o : Option Loc} (hsince : Since D st s cor s')
    (hfinds : ∀ loc, o = some loc → At D st cor loc) :
    Calmly D st cor o s s' where
  mid := hsince.mid
  adds bat loc hl := by
    refine (hsince.adds bat loc hl).imp_right ?_
    rintro ⟨pay, hpart, hat⟩
    exact ⟨pay, hpart.to_reflTransGen, hat⟩
  finds := hfinds

section Nouns

variable {n fuel : ℕ} {o : Option Loc} {bas : Option ℕ}

theorem Steady.same_under (hsteady : Steady D st n) (hcalm : Calm D st (.cell bat pay)) (par : Noun)
    (hunder : Under D st (.cell bat pay) par) (o o' : Option Loc) (ho : Runs D st n par o)
    (ho' : Runs D st n par o') : o = o' :=
  hsteady.same (hcalm.under hunder) ho ho'

/-- A core is at the locations that it fits. -/
theorem Steady.at_of_fit (hsteady : Steady D st n) (hcalm : Calm D st (.cell bat pay))
    (hlisted : Listed D st bat loc) (hfit : Fit (Runs D st n) (.cell bat pay) pay loc) :
    At D st (.cell bat pay) loc := by
  rw [Fit] at hfit
  cases hplace : loc.place with
  | inl sat =>
    rw [hplace] at hfit
    obtain rfl : sat = pay := hfit
    exact At.root hlisted hplace
  | inr at_ =>
    obtain ⟨axe, pel⟩ := at_
    rw [hplace] at hfit
    obtain ⟨par, hslot, f, hf, s₁, s₂, bas', hs₁, hnoun⟩ := hfit
    have hunder : Under D st (.cell bat pay) par :=
      ⟨bat, pay, loc, axe, pel, rfl, hlisted, hplace, hslot⟩
    exact At.parent hlisted hplace hslot
      ((hsteady.calmly f hf (hcalm.under hunder) hs₁ hnoun).finds pel rfl)

/-- A search in a noun of the core, while the search for the core goes on. -/
theorem Steady.noun (hsteady : Steady D st n) (hfuel : fuel ≤ n) (hcalm : Calm D st (.cell bat pay))
    (hlisted : Listed D st bat loc) (axe : ℕ) (pel : Loc) (hplace : loc.place = .inr (axe, pel))
    (par : Noun) (hslot : slot axe (.cell bat pay) = some par) (o : Option Loc) (s₁ s₂ : State)
    (hs₁ : Since D st s (.cell bat pay) s₁)
    (hrun : (spotN D fuel par none >>= fun found ↦ pure found.1 : M (Option Loc)) s₁ =
      .ok (o, s₂)) :
    Runs D st n par o ∧ Since D st s (.cell bat pay) s₂ := by
  obtain ⟨⟨o', bas'⟩, s₃, hrun, hpure⟩ := bind_eq_ok.mp hrun
  obtain ⟨rfl, rfl⟩ := Prod.mk.inj (pure_eq_ok.mp hpure)
  have hunder : Under D st (.cell bat pay) par :=
    ⟨bat, pay, loc, axe, pel, rfl, hlisted, hplace, hslot⟩
  have hdone := hsteady.calmly fuel hfuel (hcalm.under hunder) hs₁.mid hrun
  refine ⟨⟨fuel, hfuel, s₁, _, bas', hs₁.mid, hrun⟩, hdone.mid, fun bat' l hl ↦ ?_⟩
  obtain hbefore | ⟨pay', hpart, hat⟩ := hdone.adds bat' l hl
  · exact hs₁.adds bat' l hbefore
  · exact Or.inr ⟨pay', TransGen.head' hunder hpart, hat⟩

/-- The search in the cold state. -/
theorem Steady.cold (hsteady : Steady D st n) (hfuel : fuel ≤ n) (hcalm : Calm D st (.cell bat pay))
    (hmid : Mid D st s) (hfind : (match findCold s bat with
      | none => pure none
      | some bar =>
        regFind (fun par ↦ spotN D fuel par none >>= fun found ↦ pure found.1) bar.2 bat pay :
        M (Option Loc)) s = .ok (o, s')) :
    Since D st s (.cell bat pay) s' ∧ (∀ loc, o = some loc → RegAt s bat loc ∧
        Fit (Runs D st n) (.cell bat pay) pay loc ∧
          ∀ l, RegAt s bat l → l.axe < loc.axe → Miss (Runs D st n) (.cell bat pay) pay l) ∧
      (o = none → ∀ l, RegAt s bat l → Miss (Runs D st n) (.cell bat pay) pay l) := by
  cases hbar : findCold s bat with
  | none =>
    rw [hbar] at hfind
    obtain ⟨rfl, rfl⟩ := Prod.mk.inj (pure_eq_ok.mp hfind)
    refine ⟨Since.start hmid, (fun loc h ↦ by cases h), fun _ l hl ↦ ?_⟩
    obtain ⟨bar, hsome, -⟩ := hl
    cases hbar.symm.trans hsome
  | some bar =>
    rw [hbar] at hfind
    have hof : ∀ l, RegAt s bat l → l ∈ bar.2.locs := by
      rintro l ⟨bar', hsome, hl⟩
      cases hbar.symm.trans hsome
      exact hl
    obtain ⟨hs', hfound, hmiss⟩ := regFind_fit (hmid.view.ok bat bar hbar).1
      (fun loc hin ↦ hsteady.noun hfuel hcalm (hmid.listed bat loc ⟨bar, hbar, hin⟩))
        (Since.start hmid) hfind
    refine ⟨hs', fun loc hloc ↦ ?_, fun hnone l hl ↦ hmiss hnone l (hof l hl)⟩
    obtain ⟨hin, hfit, hbefore⟩ := hfound loc hloc
    exact ⟨⟨bar, hbar, hin⟩, hfit, fun l hl ↦ hbefore l (hof l hl)⟩

/-- The search in the table, of a core that was not found in the cold state. What it writes back has
all that was added meanwhile. -/
theorem Steady.hot (hsteady : Steady D st n) (hfuel : fuel ≤ n) (hcalm : Calm D st (.cell bat pay))
    (hmid : Mid D st s) {s₂ : State} (hs₂ : Since D st s (.cell bat pay) s₂)
    (hmiss : ∀ l, RegAt s bat l → Miss (Runs D st n) (.cell bat pay) pay l) (hview' : View D s')
    (hhot : spotHot D (fun par ↦ spotN D fuel par none >>= fun found ↦ pure found.1)
      (findCold s bat) (D.bash bat) bat pay s₂ =
      .ok (o, s')) :
    Calmly D st (.cell bat pay) o s s' ∧ Outcome D s (Runs D st n) bat pay o := by
  have hone := hsteady.same_under hcalm
  have hnothing : ∀ s₃, Since D st s (.cell bat pay) s₃ →
      (∀ l, Tabled D bat l → Miss (Runs D st n) (.cell bat pay) pay l) →
        Calmly D st (.cell bat pay) none s s₃ ∧ Outcome D s (Runs D st n) bat pay none := by
    intro s₃ hs₃ htable
    refine ⟨hs₃.calmly nofun, Outcome.none fun l hl ↦ ?_⟩
    obtain hreg | htabled := hl
    · exact hmiss l hreg
    · exact htable l htabled
  rw [spotHot] at hhot
  split_ifs at hhot with hhashless
  · obtain ⟨rfl, rfl⟩ := Prod.mk.inj (pure_eq_ok.mp hhot)
    refine hnothing _ hs₂ fun l htabled ↦ ?_
    rw [htabled.1] at hhashless
    cases hhashless
  · rw [Bool.not_eq_true] at hhashless
    cases hinfo : D.hot_p (D.bash bat) with
    | none =>
      rw [hinfo] at hhot
      obtain ⟨rfl, rfl⟩ := Prod.mk.inj (pure_eq_ok.mp hhot)
      refine hnothing _ hs₂ fun l htabled ↦ ?_
      obtain ⟨-, hot, hsome, -⟩ := htabled
      cases hinfo.symm.trans hsome
    | some hot =>
      rw [hinfo] at hhot
      obtain ⟨found, s₄, hfind, hput⟩ := bind_eq_ok.mp hhot
      obtain ⟨hs₄, hfound, htable⟩ := regFind_fit (D.hot_ok _ hot hinfo)
        (fun loc hin ↦ hsteady.noun hfuel hcalm (Or.inr ⟨hhashless, hot, hinfo, hin⟩)) hs₂ hfind
      cases found with
      | none =>
        obtain ⟨rfl, rfl⟩ := Prod.mk.inj (pure_eq_ok.mp hput)
        refine hnothing _ hs₄ fun l htabled ↦ ?_
        obtain ⟨-, hot', hsome, hin⟩ := htabled
        cases hinfo.symm.trans hsome
        exact htable rfl l hin
      | some loc =>
        obtain ⟨hin, hfit, -⟩ := hfound loc rfl
        have htabled : Tabled D bat loc := ⟨hhashless, hot, hinfo, hin⟩
        have hself := hsteady.at_of_fit hcalm (Or.inr htabled) hfit
        obtain ⟨road, rest, rfl, rfl, rfl⟩ := putBoth_eq hs₄.mid.ne_nil hput
        have hold : ∀ reg l, (findCold s bat).map Prod.snd = some reg → l ∈ reg.locs →
            RegAt s bat l := by
          intro reg l hreg hl
          obtain ⟨bar, hbar, rfl⟩ := Option.map_eq_some_iff.mp hreg
          exact ⟨bar, hbar, hl⟩
        -- a location that was there at the beginning is in another place
        have hkeep : ∀ l, RegAt s bat l → l ∈ (gust ((findCold s bat).map Prod.snd) loc).locs := by
          rintro l ⟨bar, hbar, hl⟩
          rw [hbar]
          refine mem_gust (hmid.view.ok bat bar hbar).1 hl fun hplace ↦ ?_
          exact (hfit.congr hplace.symm).not_miss (hmid.listed bat l ⟨bar, hbar, hl⟩) hone
            (hmiss l ⟨bar, hbar, hl⟩)
        have hmid' := add_mid hview' hs₄.mid (Or.inr htabled)
          (fun reg l hreg hl ↦ hmid.listed bat l (hold reg l hreg hl))
          fun l hl ↦ by
            obtain hbefore | ⟨pay', hpart, hother⟩ := hs₄.adds bat l hl
            · exact hkeep l hbefore
            · obtain hreg | hreg | rfl :=
                hcalm.apart bat pay pay' ReflTransGen.refl hpart loc l hself hother
              · exact absurd (hmiss loc (hmid.regs bat loc hreg)) fun h ↦
                  hfit.not_miss (Or.inr htabled) hone h
              · exact hkeep l (hmid.regs bat l hreg)
              · exact mem_locs_gust.1
        refine ⟨⟨hmid', fun bat' l hl ↦ ?_, fun loc' hloc' ↦ ?_⟩, Outcome.hot htabled hfit hmiss⟩
        · obtain ⟨rfl, hin⟩ | ⟨-, hreg⟩ := regAt_add.mp hl
          · obtain rfl | ⟨reg, hreg, hin⟩ := mem_locs_gust.2 l hin
            · exact Or.inr ⟨pay, ReflTransGen.refl, hself⟩
            · exact Or.inl (hold reg l hreg hin)
          · exact (@Since.calmly _ _ _ _ _ none hs₄ nofun).adds bat' l hreg
        · cases hloc'
          exact hself

/-- A search in a calm core, when those in its nouns are known. -/
theorem Steady.spotN (hsteady : Steady D st n) (hfuel : fuel ≤ n)
    (hcalm : Calm D st (.cell bat pay)) (hmid : Mid D st s)
    (hrun : spotN D (fuel + 1) (.cell bat pay) none s = .ok ((o, bas), s')) :
    Calmly D st (.cell bat pay) o s s' ∧ Outcome D s (Runs D st n) bat pay o := by
  have hview' := (spotN_step (fuel + 1) rightBas_none hrun hmid.view hmid.ne_nil).1.view
  have hright := (rightBas_none : RightBas D none (.cell bat pay)).or hmid.view
  rw [Jets.spotN] at hrun
  obtain ⟨s₀, s₁, hget, hrun⟩ := bind_eq_ok.mp hrun
  obtain ⟨rfl, rfl⟩ : s = s₀ ∧ s = s₁ := by
    cases hget
    exact ⟨rfl, rfl⟩
  obtain ⟨found, s₂, hfind, hrun⟩ := bind_eq_ok.mp hrun
  obtain ⟨hs₂, hfound, hmiss⟩ := hsteady.cold hfuel hcalm hmid hfind
  cases found with
  | some loc =>
    obtain ⟨hres, rfl⟩ := Prod.mk.inj (pure_eq_ok.mp hrun)
    cases hres
    obtain ⟨hreg, hfit, hbefore⟩ := hfound loc rfl
    refine ⟨hs₂.calmly fun loc' hloc' ↦ ?_, Outcome.cold hreg hfit hbefore⟩
    cases hloc'
    exact hsteady.at_of_fit hcalm (hmid.listed bat loc hreg) hfit
  | none =>
    obtain ⟨o', s₃, hhot, hpure⟩ := bind_eq_ok.mp hrun
    obtain ⟨hres, rfl⟩ := Prod.mk.inj (pure_eq_ok.mp hpure)
    cases hres
    rw [hright.getD] at hhot
    exact hsteady.hot hfuel hcalm hmid hs₂ (hmiss rfl) hview' hhot

end Nouns

/-- Searches in a calm core drop nothing, and what they find does not depend on the time. -/
theorem steady (n : ℕ) : Steady D st n := by
  induction n with
  | zero =>
    constructor
    · intro cor o bas s s' fuel hfuel _ _ hrun
      obtain rfl := Nat.le_zero.mp hfuel
      cases hrun
    · rintro cor o o' - ⟨fuel, hfuel, s, s', bas, -, hrun⟩
      obtain rfl := Nat.le_zero.mp hfuel
      cases hrun
  | succ n ih =>
    constructor
    · intro cor o bas s s' fuel hfuel hcalm hmid hrun
      cases fuel with
      | zero => cases hrun
      | succ fuel =>
        cases cor with
        | atom a => cases hrun
        | cell bat pay => exact (ih.spotN (Nat.le_of_succ_le_succ hfuel) hcalm hmid hrun).1
    · rintro cor o o' hcalm ⟨fuel, hfuel, s, s₁, bas, hmid, hrun⟩ ⟨fuel', hfuel', s', s₁', bas',
        hmid', hrun'⟩
      cases fuel with
      | zero => cases hrun
      | succ fuel =>
        cases fuel' with
        | zero => cases hrun'
        | succ fuel' =>
          cases cor with
          | atom a => cases hrun
          | cell bat pay =>
            have hout := (ih.spotN (Nat.le_of_succ_le_succ hfuel) hcalm hmid hrun).2
            have hout' := (ih.spotN (Nat.le_of_succ_le_succ hfuel') hcalm hmid' hrun').2
            exact hout.unique hcalm hmid hmid'
              (fun _ hlisted hfit ↦ ih.at_of_fit hcalm hlisted hfit)
              (ih.same_under hcalm) hout'

/-! ### Registrations -/

theorem slot_size_le {n m : Noun} (hslot : slot axe n = some m) : m.size ≤ n.size := by
  by_cases hone : axe = 1
  · subst hone
    cases hslot
    exact le_refl _
  · exact Nat.le_of_lt (slot_size hone hslot)

/-- A look-up of a calm core drops nothing. -/
theorem spot_calm {res : Option Loc × Option ℕ} (hcalm : Calm D st cor) (hmid : Mid D st s)
    (hspot : spot D cor none s = .ok (res, s')) : Calmly D st cor res.1 s s' :=
  (steady cor.size).calmly cor.size (le_refl _) hcalm hmid hspot

section Hints

variable {nam : ℕ} {huc : Hooks} {o : Option Loc}

/-- The search for the parent that a hint names. -/
theorem minx_calm (hmid : Mid D st s) (hcalm : ∀ par, slot axe (.cell bat pay) = some par →
    Calm D st par) (hminx : minx D nam axe huc (.cell bat pay) s = .ok (o, s')) :
    Mid D st s' ∧ ∀ loc, o = some loc →
    Fit (Runs D st (Noun.cell bat pay).size) (.cell bat pay) pay loc := by
  have hnone : (pure none : M (Option Loc)) s = .ok (o, s') →
      Mid D st s' ∧ ∀ loc, o = some loc →
      Fit (Runs D st (Noun.cell bat pay).size) (.cell bat pay) pay loc := by
    intro h
    obtain ⟨rfl, rfl⟩ := Prod.mk.inj (pure_eq_ok.mp h)
    exact ⟨hmid, nofun⟩
  rw [minx] at hminx
  split_ifs at hminx with hzero
  · obtain ⟨rfl, rfl⟩ := Prod.mk.inj (pure_eq_ok.mp hminx)
    refine ⟨hmid, fun loc hloc ↦ ?_⟩
    cases hloc
    rfl
  · cases hslot : slot axe (.cell bat pay) with
    | none =>
      rw [hslot] at hminx
      exact hnone hminx
    | some par =>
      rw [hslot] at hminx
      cases par with
      | atom a => exact hnone hminx
      | cell bat' pay' =>
        obtain ⟨⟨pel, bas⟩, s₁, hspot, hnext⟩ := bind_eq_ok.mp hminx
        have hdone := spot_calm (hcalm _ hslot) hmid hspot
        cases pel with
        | none =>
          obtain ⟨rfl, rfl⟩ := Prod.mk.inj (pure_eq_ok.mp hnext)
          exact ⟨hdone.mid, nofun⟩
        | some pel =>
          obtain ⟨rfl, rfl⟩ := Prod.mk.inj (pure_eq_ok.mp hnext)
          refine ⟨hdone.mid, fun loc hloc ↦ ?_⟩
          have hplace : loc.place = .inr (axe, pel) := by
            cases hloc
            split_ifs with hfast
            · rw [hfast.1]
              rfl
            · rfl
          rw [Fit, hplace]
          exact ⟨_, hslot, _, slot_size_le hslot, s, _, bas, hmid, hspot⟩

/-- A core that was not located is registered in a place of its own. -/
theorem mine_kept {bas : ℕ} (hmid : Mid D st s) (hself : Calm D st (.cell bat pay))
    (hcalm : ∀ par, slot axe (.cell bat pay) = some par → Calm D st par)
    (hmiss : ∀ l, Listed D st bat l →
    Miss (Runs D st (Noun.cell bat pay).size) (.cell bat pay) pay l)
    (hmine : mine D nam axe huc bat pay bas s = .ok (o, s')) : Kept s' := by
  obtain ⟨found, s₁, hminx, hnext⟩ := bind_eq_ok.mp hmine
  obtain ⟨hmid₁, hfound⟩ := minx_calm hmid hcalm hminx
  cases found with
  | none =>
    obtain ⟨rfl, rfl⟩ := Prod.mk.inj (pure_eq_ok.mp hnext)
    exact hmid₁.kept
  | some loc =>
    have hfit := hfound loc rfl
    obtain ⟨_, _, hget, hnext⟩ := bind_eq_ok.mp hnext
    cases hget
    obtain ⟨pac, s₂, hpac, hnext⟩ := bind_eq_ok.mp hnext
    obtain ⟨rfl, -⟩ := parAct_eq_ok.mp hpac
    obtain ⟨road, rest, rfl⟩ := List.exists_cons_of_ne_nil hmid₁.ne_nil
    obtain ⟨_, _, hmined, hnext⟩ := bind_eq_ok.mp hnext
    cases hmined
    obtain ⟨road', rest', hcons, rfl, rfl⟩ := putBoth_eq (List.cons_ne_nil _ _) hnext
    cases hcons
    refine add_kept (fun r hr ↦ ?_) fun l hl ↦ ?_
    · obtain rfl | hr := List.mem_cons.mp hr
      · exact hmid₁.kept road List.mem_cons_self
      · exact hmid₁.kept r (List.mem_cons_of_mem _ hr)
    · have hreg : RegAt (road :: rest) bat l := hl
      obtain ⟨bar, hbar, hin⟩ := hreg
      rw [hbar]
      refine mem_gust (hmid₁.view.ok bat bar hbar).1 hin fun hplace ↦ ?_
      have hlisted := hmid₁.listed bat l ⟨bar, hbar, hin⟩
      exact (hfit.congr hplace.symm).not_miss hlisted ((steady _).same_under hself)
        (hmiss l hlisted)

/-- The condition on a registration: the core is calm, and so is the noun in which the hint says
that the parent is. -/
structure CalmHint (D : Dash) (st : State) (clu cor : Noun) : Prop where
  core : Calm D st cor
  hinted : ∀ nam axe huc par, fsck clu = .ok (some (nam, axe, huc)) → slot axe cor = some par →
    Calm D st par

/-- A registration under it drops nothing. -/
theorem mile_kept {clu : Noun} (hhint : CalmHint D st clu cor) (hview : View D st) (hst : st ≠ [])
    (hkept : Kept st) (hmile : mile D clu cor st = .ok (o, s')) : Kept s' := by
  have hmid := Mid.start hview hst hkept
  cases cor with
  | atom a =>
    obtain ⟨rfl, rfl⟩ := Prod.mk.inj (pure_eq_ok.mp hmile)
    exact hkept
  | cell bat pay =>
    obtain ⟨cey, st₁, hlift, hnext⟩ := bind_eq_ok.mp hmile
    obtain ⟨hfsck, rfl⟩ := lift_eq_ok.mp hlift
    obtain _ | ⟨nam, axe, huc⟩ := cey
    · obtain ⟨rfl, rfl⟩ := Prod.mk.inj (pure_eq_ok.mp hnext)
      exact hkept
    have hcalm := fun par ↦ hhint.hinted nam axe huc par hfsck
    obtain ⟨⟨found, bas⟩, st₂, hspot, hnext⟩ := bind_eq_ok.mp hnext
    obtain ⟨hdone, hout⟩ :=
      (steady (Noun.cell bat pay).size).spotN (Nat.le_succ _) hhint.core hmid hspot
    cases found with
    | none =>
      refine mine_kept hdone.mid hhint.core hcalm (fun l hl ↦ ?_) hnext
      cases hout with
      | none hmiss => exact hmiss l hl
    | some loc =>
      obtain ⟨⟨⟩, st₃, haudit, hpure⟩ := bind_eq_ok.mp hnext
      obtain ⟨rfl, rfl⟩ := Prod.mk.inj (pure_eq_ok.mp hpure)
      rw [audit] at haudit
      split_ifs at haudit with hsays
      · obtain ⟨_, _, hminx, hpure⟩ := bind_eq_ok.mp haudit
        obtain ⟨-, rfl⟩ := Prod.mk.inj (pure_eq_ok.mp hpure)
        exact (minx_calm hdone.mid hcalm hminx).1.kept
      · obtain ⟨-, rfl⟩ := Prod.mk.inj (pure_eq_ok.mp haudit)
        exact hdone.mid.kept

end Hints

end Vere.Noun.Jets
