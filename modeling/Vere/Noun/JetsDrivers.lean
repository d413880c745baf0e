import Vere.Noun.JetsReam
import Vere.Noun.JetsSite

/-!
# Drivers

`Activates` says which activations a location can get: that of the hot state, or the one that is
made from its name and the activation of its parent. In every run the warm state has no others
(`Reaches.activates`). A driver is right for a core if it gives `u3_none` or the product of the
formula; drivers are `Truthful` if they are right for the cores that match their location, which is
what a kick relies on.
-/

set_option autoImplicit false

namespace Vere.Noun.Jets

open Vere.Noun.Nock (slot)

variable {D : Dash} {nock : Noun → Noun → Option Noun} {st st' : State} {loc pel : Loc}
  {cor bat pay : Noun}
  {war_p war_p' : AList fun _ : Loc ↦ Act}

/-! ### Activations -/

/-- The activations of a location. -/
inductive Activates (D : Dash) : Loc → Act → Prop
  | hot {bas : ℕ} {hot : Hot} {loc : Loc} (hhot : D.hot_p bas = some hot)
    (hloc : loc ∈ hot.reg.locs) :
      Activates D loc hot.act
  | root {loc : Loc} (hpel : loc.pel = none) : Activates D loc (actBelow D none loc)
  | child {pel loc : Loc} {pac : Act} (hpel : loc.pel = some pel) (hpac : Activates D pel pac) :
      Activates D loc (actBelow D (some pac) loc)

/-- The roads have no other activations. -/
def Active (D : Dash) (st : State) : Prop := ∀ loc act, Has st loc act → Activates D loc act

theorem Active.grows (hactive : Active D st) (hgrows : Grows D st st') : Active D st' := by
  intro loc act h
  obtain hbefore | ⟨bas, hot, hhot, hloc, rfl⟩ := hgrows.warm loc act h
  · exact hactive loc act hbefore
  · exact Activates.hot hhot hloc

theorem mine_active {nam axe : ℕ} {huc : Hooks} {bas : ℕ} {o : Option Loc} (hactive : Active D st)
    (hmine : mine D nam axe huc bat pay bas st = .ok (o, st')) : Active D st' := by
  obtain ⟨found, st₁, hminx, hnext⟩ := bind_eq_ok.mp hmine
  have hactive₁ := hactive.grows ((minx_search nam axe huc (.cell bat pay)).grows hminx)
  cases found with
  | none =>
    obtain ⟨-, rfl⟩ := Prod.mk.inj (pure_eq_ok.mp hnext)
    exact hactive₁
  | some loc =>
    obtain ⟨_, _, hget, hnext⟩ := bind_eq_ok.mp hnext
    cases hget
    obtain ⟨pac, st₂, hpar, hnext⟩ := bind_eq_ok.mp hnext
    obtain ⟨rfl, hpac⟩ := parAct_eq_ok.mp hpar
    obtain ⟨_, st₃, hmined, hnext⟩ := bind_eq_ok.mp hnext
    have hne : st₁ ≠ [] := by
      rintro rfl
      cases hmined
    have hact : Activates D loc (actBelow D pac loc) := by
      obtain ⟨hpel, rfl⟩ | ⟨pel, act, hpel, hact, rfl⟩ := hpac
      · exact Activates.root hpel
      · exact Activates.child hpel (hactive₁ pel act (has_of_findWarm hact))
    obtain ⟨road, rest, rfl⟩ := List.exists_cons_of_ne_nil hne
    cases hmined
    obtain ⟨road', rest', hcons, rfl, -⟩ := putBoth_eq (List.cons_ne_nil _ _) hnext
    cases hcons
    intro l act h
    obtain ⟨rfl, rfl⟩ | ⟨r, hr, hlookup⟩ := has_add h
    · exact hact
    · obtain rfl | hr := List.mem_cons.mp hr
      · exact hactive₁ l act ⟨road, List.mem_cons_self, hlookup⟩
      · exact hactive₁ l act ⟨r, List.mem_cons_of_mem _ hr, hlookup⟩

theorem mile_active {clu : Noun} {o : Option Loc} (hactive : Active D st)
    (hmile : mile D clu cor st = .ok (o, st')) : Active D st' := by
  cases cor with
  | atom a =>
    obtain ⟨-, rfl⟩ := Prod.mk.inj (pure_eq_ok.mp hmile)
    exact hactive
  | cell bat pay =>
    obtain ⟨cey, st₁, hlift, hnext⟩ := bind_eq_ok.mp hmile
    obtain ⟨-, rfl⟩ := lift_eq_ok.mp hlift
    obtain _ | ⟨nam, axe, huc⟩ := cey
    · obtain ⟨-, rfl⟩ := Prod.mk.inj (pure_eq_ok.mp hnext)
      exact hactive
    · obtain ⟨⟨found, bas⟩, st₂, hspot, hnext⟩ := bind_eq_ok.mp hnext
      have hactive₂ := hactive.grows ((spot_search _ _).grows hspot)
      cases found with
      | none => exact mine_active hactive₂ hnext
      | some loc =>
        obtain ⟨⟨⟩, st₃, haudit, hpure⟩ := bind_eq_ok.mp hnext
        obtain ⟨-, rfl⟩ := Prod.mk.inj (pure_eq_ok.mp hpure)
        rw [audit] at haudit
        split_ifs at haudit
        · obtain ⟨_, st₄, hminx, hpure⟩ := bind_eq_ok.mp haudit
          obtain ⟨-, rfl⟩ := Prod.mk.inj (pure_eq_ok.mp hpure)
          exact hactive₂.grows ((minx_search _ _ _ _).grows hminx)
        · obtain ⟨-, rfl⟩ := Prod.mk.inj (pure_eq_ok.mp haudit)
          exact hactive₂

/-! ### Rebuilt activations -/

/-- A warm state with activations of its locations. -/
def ActiveMap (D : Dash) (war_p : AList fun _ : Loc ↦ Act) : Prop :=
  ∀ loc act, war_p.lookup loc = some act → Activates D loc act

theorem ActiveMap.insert {act : Act} (hactive : ActiveMap D war_p) (hact : Activates D loc act) :
    ActiveMap D (war_p.insert loc act) := by
  intro l a hlookup
  by_cases hsame : l = loc
  · subst hsame
    rw [AList.lookup_insert] at hlookup
    cases hlookup
    exact hact
  · rw [AList.lookup_insert_ne hsame] at hlookup
    exact hactive l a hlookup

theorem reamRoots_active {reg : Reg} (hok : reg.Ok) (hactive : ActiveMap D war_p) :
    ActiveMap D (reamRoots D war_p reg) := by
  refine List.foldlRecOn _ _ hactive fun war_p h entry hentry ↦ h.insert (Activates.root ?_)
  obtain ⟨nam, huc, hroot⟩ := hok.roots entry.1 entry.2 (AList.mem_lookup_iff.mpr hentry)
  rw [hroot]
  rfl

theorem reamTurn_active (lop rem : List (Loc × Loc))
    (hlop : ∀ entry ∈ lop, entry.2.pel = some entry.1) (hactive : ActiveMap D war_p) :
    ActiveMap D (reamTurn D lop war_p rem).1 := by
  induction lop generalizing war_p rem with
  | nil => exact hactive
  | cons entry lop ih =>
    obtain ⟨pel, loc⟩ := entry
    have hrest := fun e he ↦ hlop e (List.mem_cons_of_mem _ he)
    rw [reamTurn]
    cases hpac : war_p.lookup pel with
    | none => exact ih _ hrest hactive
    | some pac =>
      exact ih _ hrest
        (hactive.insert (Activates.child (hlop _ List.mem_cons_self) (hactive pel pac hpac)))

theorem reamLoop_active {fuel : ℕ} {lop : List (Loc × Loc)}
    (hlop : ∀ entry ∈ lop, entry.2.pel = some entry.1) (hactive : ActiveMap D war_p)
    (hloop : reamLoop D fuel lop war_p = some war_p') : ActiveMap D war_p' := by
  induction fuel generalizing lop war_p with
  | zero =>
    cases lop with
    | nil =>
      cases hloop
      exact hactive
    | cons _ _ => cases hloop
  | succ fuel ih =>
    cases lop with
    | nil =>
      cases hloop
      exact hactive
    | cons entry lop =>
      refine ih (fun e he ↦ ?_) (reamTurn_active _ [] hlop hactive) hloop
      exact hlop e (((reamTurn_turn (entry :: lop) [] war_p).left e he).resolve_right nofun)

theorem ream_active {fuel : ℕ} {home home' : Road} (hview : View D [home])
    (hream : ream D fuel home = some home') :
    Active D [home'] := by
  obtain ⟨war_p, hloop, rfl⟩ := Option.map_eq_some_iff.mp hream
  have hok : ∀ reg ∈ home.regs, reg.Ok := by
    intro reg hreg
    obtain ⟨⟨bat, bar⟩, hmem, rfl⟩ := List.mem_map.mp hreg
    exact (hview.ok bat bar (findCold_home.mpr (AList.mem_lookup_iff.mpr hmem))).1
  have hlop : ∀ entry ∈ home.lop, entry.2.pel = some entry.1 := by
    intro entry hentry
    obtain ⟨reg, hreg, hanc⟩ := List.mem_flatMap.mp hentry
    obtain ⟨par, hpar, hlookup⟩ := Reg.mem_ancestors.mp hanc
    exact ((hok reg hreg).pars par hpar entry.1 entry.2 hlookup).2
  have hempty : ActiveMap D ∅ := fun loc act hlookup ↦ by
    rw [AList.lookup_empty] at hlookup
    cases hlookup
  have hroots : ActiveMap D (home.roots D) :=
    List.foldlRecOn _ _ hempty fun _ h reg hreg ↦ reamRoots_active (hok reg hreg) h
  have hdone := reamLoop_active hlop hroots hloop
  rintro loc act ⟨road, hroad, hlookup⟩
  rw [List.mem_singleton] at hroad
  subst hroad
  exact hdone loc act hlookup

/-- In every run the locations have their activations. -/
theorem Reaches.activates (hreach : Reaches D st) : Active D st := by
  induction hreach with
  | boot =>
    rintro loc act ⟨road, hroad, hlookup⟩
    rw [List.mem_singleton] at hroad
    subst hroad
    rw [Road.new, AList.lookup_empty] at hlookup
    cases hlookup
  | mine clu cor _ hmile ih => exact mile_active ih hmile
  | spot cor _ hspot ih => exact ih.grows ((spot_search cor none).grows hspot)
  | leap _ ih =>
    rintro loc act ⟨road, hroad, hlookup⟩
    obtain rfl | hroad := List.mem_cons.mp hroad
    · rw [Road.new, AList.lookup_empty] at hlookup
      cases hlookup
    · exact ih loc act ⟨road, hroad, hlookup⟩
  | @love inner outer rest _ ih =>
    rintro loc act ⟨road, hroad, hlookup⟩
    obtain rfl | hroad := List.mem_cons.mp hroad
    · obtain hinner | ⟨-, houter⟩ := AList.mem_lookup_union.mp hlookup
      · exact ih loc act ⟨inner, List.mem_cons_self, hinner⟩
      · exact ih loc act ⟨outer, List.mem_cons_of_mem _ List.mem_cons_self, houter⟩
    · exact ih loc act ⟨road, List.mem_cons_of_mem _ (List.mem_cons_of_mem _ hroad), hlookup⟩
  | fall _ ih =>
    rintro loc act ⟨road, hroad, hlookup⟩
    exact ih loc act ⟨road, List.mem_cons_of_mem _ hroad, hlookup⟩
  | ream hst hream _ => exact ream_active hst.view hream

/-! ### Drivers -/

/-- A driver gives `u3_none` for a core, or the product of the formula, and bails only if there is
none. -/
def Right (nock : Noun → Noun → Option Noun) (ham_u : Harm) (axe : ℕ) (cor : Noun) : Prop :=
  ham_u.fun_f cor = some none ∨ ∃ fol, slot axe cor = some fol ∧
    ham_u.fun_f cor = (nock cor fol).map some

/-- Every driver is right for the cores that match its location. -/
def Truthful (D : Dash) (nock : Noun → Noun → Option Noun) (st : State) : Prop :=
  ∀ loc act, Activates D loc act → ∀ axe ham_u, nailArm D act axe = some ham_u →
    ∀ cor, Matches D st loc cor → Right nock ham_u axe cor

theorem at_eq {axe : ℕ} {fol : Noun} (hfol : slot axe cor = some fol) : at_ axe cor = .ok fol := by
  rw [at_, hfol]

/-- The compiler makes a program of a formula. -/
def Compiles (fol : Noun) : Prop := ∃ pog, Nock.bite fol = .ok pog

theorem prog_eq_ok {fol pog_p : Noun} : prog fol = .ok pog_p ↔ Compiles fol ∧ pog_p = fol := by
  rw [prog, Compiles]
  cases Nock.bite fol with
  | error why => cases why <;> exact iff_of_false nofun fun h ↦ by obtain ⟨⟨_, h⟩, -⟩ := h; cases h
  | ok pog =>
    constructor
    · intro h
      cases h
      exact ⟨⟨pog, rfl⟩, rfl⟩
    · rintro ⟨-, rfl⟩
      rfl

/-- A kick by a right driver is a punt or the call. -/
theorem kickZ_right {ham_u : Harm} {axe : ℕ} {fol : Noun} (hright : Right nock ham_u axe cor)
    (hfol : slot axe cor = some fol) :
    kickZ nock cor ham_u axe = .ok none ∨ kickZ nock cor ham_u axe =
      (burn nock fol cor).map some := by
  rw [kickZ]
  by_cases hlive : ham_u.liv
  · rw [if_neg (not_not.mpr hlive)]
    obtain hnone | ⟨fol', hfol', hfun⟩ := hright
    · rw [hnone]
      exact Or.inl rfl
    · rw [hfol] at hfol'
      cases hfol'
      rw [hfun]
      refine Or.inr ?_
      cases hnock : nock cor fol with
      | none =>
        rw [burn, hnock]
        rfl
      | some pro =>
        have hburn : burn nock fol cor = .ok pro := by rw [burn, hnock]
        dsimp only [Option.map_some]
        rw [at_eq hfol, hburn]
        by_cases hice : ham_u.ice
        · exact if_pos hice
        · refine (if_neg hice).trans ?_
          show (burn nock fol cor >>= fun ame ↦ if ame = pro then
            .ok (some pro) else .error .fail) = _
          rw [hburn]
          exact if_pos rfl
  · rw [if_pos hlive]
    exact Or.inl rfl

theorem siteJet_right {sit_u : Site} {fol : Noun}
    (hright : ∀ ham_u, sit_u.ham_u = some ham_u → Right nock ham_u sit_u.axe cor)
    (hfol : slot sit_u.axe cor = some fol) :
    siteJet nock cor sit_u = .ok none ∨ siteJet nock cor sit_u = (burn nock fol cor).map some := by
  rw [siteJet]
  cases hham : sit_u.ham_u with
  | none => exact Or.inl rfl
  | some ham_u => exact kickZ_right (hright ham_u hham) hfol

/-- The kick of a located core: it is left to the program, or it is the call of the formula. -/
theorem siteKickHot_cases {fol : Noun} {traced : Bool} {sit_u sit_u' : Site} {lok_o : Bool}
    (hjet : siteJet nock cor sit_u = .ok none ∨
    siteJet nock cor sit_u = (burn nock fol cor).map some)
    (hlock : (if lok_o then siteLock cor sit_u else .ok sit_u) = .ok sit_u')
    (hpog : sit_u'.pog_p = fol) :
    siteKickHot nock traced cor sit_u lok_o = .ok (none, sit_u') ∨ ∃ s, (s = sit_u ∨ s = sit_u') ∧
      siteKickHot nock traced cor sit_u lok_o = (burn nock fol cor).map fun pro ↦ (some pro,
      s) := by
  unfold siteKickHot
  obtain hpunt | hcall := hjet
  · rw [hpunt, hlock]
    cases traced with
    | false => exact Or.inl rfl
    | true =>
      refine Or.inr ⟨sit_u', Or.inr rfl, ?_⟩
      show (burn nock sit_u'.pog_p cor >>= fun pro ↦ .ok (some pro, sit_u')) = _
      rw [hpog]
      cases burn nock fol cor with
      | error why => rfl
      | ok pro => rfl
  · rw [hcall]
    refine Or.inr ⟨sit_u, Or.inl rfl, ?_⟩
    cases burn nock fol cor with
    | error why => rfl
    | ok pro => rfl

end Vere.Noun.Jets
