import Vere.Noun.Jets

/-!
# Registries

What the registries of the jet dashboard keep. `gust_ok` says that `_cj_gust()` keeps a registry in
order. `View` is the invariant of the roads that every registration and look-up keeps, whatever
happens: the locations in the cold state are registered for their batteries and have an activation.
`spot_step` and `mile_step` say so, and what a core that is located is like (`Found`).
-/

set_option autoImplicit false

namespace Vere.Noun.Jets

open Vere.Lib (Layers.find)
open Vere.Noun.Nock (slot)

/-! ### Registries -/

theorem mem_values {α β : Type} [DecidableEq α] {s : AList fun _ : α ↦ β} {b : β} :
    b ∈ s.entries.map Sigma.snd ↔ ∃ a, s.lookup a = some b := by
  rw [List.mem_map]
  constructor
  · rintro ⟨⟨a, b'⟩, hmem, rfl⟩
    exact ⟨a, AList.mem_lookup_iff.mpr hmem⟩
  · rintro ⟨a, ha⟩
    exact ⟨⟨a, b⟩, AList.mem_lookup_iff.mp ha, rfl⟩

theorem Reg.mem_locs {reg : Reg} {loc : Loc} :
    loc ∈ reg.locs ↔ (∃ sat, reg.rut.lookup sat = some loc) ∨
    ∃ par ∈ reg.pas, ∃ pel, par.2.lookup pel = some loc := by
  rw [Reg.locs, List.mem_append, mem_values, List.mem_flatMap]
  simp only [mem_values]

theorem Reg.new_ok : Reg.new.Ok where
  sorted := List.Pairwise.nil
  axes := nofun
  roots sat loc h := by
    rw [Reg.new, AList.lookup_empty] at h
    cases h
  pars := nofun
  used := nofun

section Ancestors

variable {axe : ℕ} {pel loc : Loc} {lan lan' : List (ℕ × Lol)}

theorem minePar_old_axes (hold : minePar_old axe pel loc lan = some lan') :
    lan'.map Prod.fst = lan.map Prod.fst := by
  induction lan generalizing lan' with
  | nil => cases hold
  | cons par lan ih =>
    rw [minePar_old] at hold
    split_ifs at hold with heq
    · cases hold
      rw [List.map_cons, List.map_cons, heq]
    · obtain ⟨nex, hnex, rfl⟩ := Option.map_eq_some_iff.mp hold
      rw [List.map_cons, List.map_cons, ih hnex]

theorem minePar_old_none (hold : minePar_old axe pel loc lan = none) : axe ∉ lan.map Prod.fst := by
  induction lan with
  | nil => nofun
  | cons par lan ih =>
    rw [minePar_old] at hold
    split_ifs at hold with heq
    rw [List.map_cons, List.mem_cons, not_or]
    exact ⟨heq, ih (Option.map_eq_none_iff.mp hold)⟩

/-- What is in a list of ancestors after a location has been put under its axis. -/
def Mined (axe : ℕ) (pel loc : Loc) (lan lan' : List (ℕ × Lol)) : Prop :=
  (∃ par ∈ lan', par.1 = axe ∧ par.2.lookup pel = some loc) ∧
    ∀ par ∈ lan', par ∈ lan ∨ par.1 = axe ∧ ∃ lol, (lol = ∅ ∨ (axe, lol) ∈ lan) ∧
    par.2 = lol.insert pel loc

theorem Mined.cons (par : ℕ × Lol) (hmined : Mined axe pel loc lan lan') :
    Mined axe pel loc (par :: lan) (par :: lan') := by
  obtain ⟨⟨at', hat', hhave⟩, hall⟩ := hmined
  refine ⟨⟨at', List.mem_cons_of_mem par hat', hhave⟩, fun q hq ↦ ?_⟩
  obtain rfl | hq := List.mem_cons.mp hq
  · exact Or.inl List.mem_cons_self
  · obtain hold | ⟨heq, lol, hlol, hins⟩ := hall q hq
    · exact Or.inl (List.mem_cons_of_mem par hold)
    · exact Or.inr ⟨heq, lol, hlol.imp_right (List.mem_cons_of_mem par), hins⟩

theorem minePar_old_mined (hold : minePar_old axe pel loc lan = some lan') :
    Mined axe pel loc lan lan' := by
  induction lan generalizing lan' with
  | nil => cases hold
  | cons par lan ih =>
    rw [minePar_old] at hold
    split_ifs at hold with heq
    · cases hold
      refine ⟨⟨_, List.mem_cons_self, rfl, AList.lookup_insert _⟩, fun q hq ↦ ?_⟩
      obtain rfl | hq := List.mem_cons.mp hq
      · exact Or.inr ⟨rfl, par.2, Or.inr (by rw [heq]; exact List.mem_cons_self), rfl⟩
      · exact Or.inl (List.mem_cons_of_mem par hq)
    · obtain ⟨nex, hnex, rfl⟩ := Option.map_eq_some_iff.mp hold
      exact (ih hnex).cons par

theorem minePar_new_mined : Mined axe pel loc lan (minePar_new axe pel loc lan) := by
  induction lan with
  | nil =>
    refine ⟨⟨_, List.mem_cons_self, rfl, AList.lookup_insert _⟩, fun q hq ↦ ?_⟩
    rw [List.mem_singleton.mp hq]
    exact Or.inr ⟨rfl, ∅, Or.inl rfl, rfl⟩
  | cons par lan ih =>
    rw [minePar_new]
    split_ifs with hlt
    · refine ⟨⟨_, List.mem_cons_self, rfl, AList.lookup_insert _⟩, fun q hq ↦ ?_⟩
      obtain rfl | hq := List.mem_cons.mp hq
      · exact Or.inr ⟨rfl, ∅, Or.inl rfl, rfl⟩
      · exact Or.inl hq
    · exact ih.cons par

theorem minePar_mined : Mined axe pel loc lan (minePar axe pel loc lan) := by
  rw [minePar]
  cases hold : minePar_old axe pel loc lan with
  | some old => exact minePar_old_mined hold
  | none => exact minePar_new_mined

theorem minePar_new_sorted (hnew : axe ∉ lan.map Prod.fst)
    (hsorted : (lan.map Prod.fst).Pairwise (· < ·)) :
    ((minePar_new axe pel loc lan).map Prod.fst).Pairwise (· < ·) := by
  induction lan with
  | nil => exact List.pairwise_singleton _ _
  | cons par lan ih =>
    rw [List.map_cons, List.mem_cons, not_or] at hnew
    rw [List.map_cons, List.pairwise_cons] at hsorted
    rw [minePar_new]
    split_ifs with hlt
    · refine List.pairwise_cons.mpr ⟨fun axe' haxe' ↦ ?_, List.pairwise_cons.mpr hsorted⟩
      obtain rfl | haxe' := List.mem_cons.mp haxe'
      · exact hlt
      · exact Nat.lt_trans hlt (hsorted.1 axe' haxe')
    · refine List.pairwise_cons.mpr ⟨fun axe' haxe' ↦ ?_, ih hnew.2 hsorted.2⟩
      obtain ⟨q, hq, rfl⟩ := List.mem_map.mp haxe'
      obtain hold | ⟨heq, -⟩ := minePar_new_mined.2 q hq
      · exact hsorted.1 _ (List.mem_map_of_mem hold)
      · rw [heq]
        omega

theorem minePar_sorted (hsorted : (lan.map Prod.fst).Pairwise (· < ·)) :
    ((minePar axe pel loc lan).map Prod.fst).Pairwise (· < ·) := by
  rw [minePar]
  cases hold : minePar_old axe pel loc lan with
  | some old =>
    dsimp only
    rwa [minePar_old_axes hold]
  | none => exact minePar_new_sorted (minePar_old_none hold) hsorted

end Ancestors

/-- A location can be put under its axis. -/
def Loc.Placed (loc : Loc) : Prop := loc.pel ≠ none → 1 ≤ loc.axe ∧ loc.axe < 2 ^ 31

section Gust

variable {reg : Reg} {loc : Loc}

theorem ok_minePar {axe : ℕ} {pel : Loc} (hok : reg.Ok) (haxe : 1 ≤ axe ∧ axe < 2 ^ 31)
    (hat : loc.axe = axe) (hpel : loc.pel = some pel) :
    Reg.Ok ⟨reg.rut, minePar axe pel loc reg.pas⟩ where
  sorted := minePar_sorted hok.sorted
  axes par hpar := by
    obtain hold | ⟨heq, -⟩ := minePar_mined.2 par hpar
    · exact hok.axes par hold
    · rwa [heq]
  roots := hok.roots
  pars par hpar pel' loc' hlookup := by
    obtain hold | ⟨heq, lol, hlol, hins⟩ := minePar_mined.2 par hpar
    · exact hok.pars par hold pel' loc' hlookup
    · rw [hins] at hlookup
      by_cases hsame : pel' = pel
      · subst hsame
        rw [AList.lookup_insert] at hlookup
        cases hlookup
        exact ⟨hat.trans heq.symm, hpel⟩
      · rw [AList.lookup_insert_ne hsame] at hlookup
        obtain rfl | hmem := hlol
        · rw [AList.lookup_empty] at hlookup
          cases hlookup
        · rw [heq]
          exact hok.pars (axe, lol) hmem pel' loc' hlookup
  used par hpar := by
    obtain hold | ⟨-, lol, -, hins⟩ := minePar_mined.2 par hpar
    · exact hok.used par hold
    · exact ⟨pel, loc, by rw [hins, AList.lookup_insert]⟩

theorem mem_locs_minePar {axe : ℕ} {pel : Loc} :
    loc ∈ Reg.locs ⟨reg.rut, minePar axe pel loc reg.pas⟩ ∧
      ∀ l ∈ Reg.locs ⟨reg.rut, minePar axe pel loc reg.pas⟩, l = loc ∨ l ∈ reg.locs := by
  constructor
  · obtain ⟨⟨par, hpar, -, hhave⟩, -⟩ := @minePar_mined axe pel loc reg.pas
    exact Reg.mem_locs.mpr (Or.inr ⟨par, hpar, pel, hhave⟩)
  · intro l hl
    obtain hroot | ⟨par, hpar, pel', hlookup⟩ := Reg.mem_locs.mp hl
    · exact Or.inr (Reg.mem_locs.mpr (Or.inl hroot))
    · obtain hold | ⟨-, lol, hlol, hins⟩ := minePar_mined.2 par hpar
      · exact Or.inr (Reg.mem_locs.mpr (Or.inr ⟨par, hold, pel', hlookup⟩))
      · rw [hins] at hlookup
        by_cases hsame : pel' = pel
        · subst hsame
          rw [AList.lookup_insert] at hlookup
          cases hlookup
          exact Or.inl rfl
        · rw [AList.lookup_insert_ne hsame] at hlookup
          obtain rfl | hmem := hlol
          · rw [AList.lookup_empty] at hlookup
            cases hlookup
          · exact Or.inr (Reg.mem_locs.mpr (Or.inr ⟨(axe, lol), hmem, pel', hlookup⟩))

/-- `_cj_gust()` keeps a registry in order. -/
theorem gust_ok {old : Option Reg} (hold : ∀ reg, old = some reg → reg.Ok) (hplaced : loc.Placed) :
    (gust old loc).Ok := by
  have hok : (old.getD Reg.new).Ok := by
    cases old with
    | none => exact Reg.new_ok
    | some reg => exact hold reg rfl
  cases loc with
  | root sat nam huc =>
    refine ⟨hok.sorted, hok.axes, fun sat' loc hlookup ↦ ?_, hok.pars, hok.used⟩
    by_cases hsame : sat' = sat
    · subst hsame
      rw [gust, AList.lookup_insert] at hlookup
      cases hlookup
      exact ⟨nam, huc, rfl⟩
    · rw [gust, AList.lookup_insert_ne hsame] at hlookup
      exact hok.roots sat' loc hlookup
  | fast pel nam huc => exact ok_minePar hok (hplaced nofun) rfl rfl
  | slow axe pel nam huc => exact ok_minePar hok (hplaced nofun) rfl rfl

/-- It adds the location, and nothing else. -/
theorem mem_locs_gust {old : Option Reg} :
    loc ∈ (gust old loc).locs ∧ ∀ l ∈ (gust old loc).locs, l = loc ∨ ∃ reg, old = some reg ∧
    l ∈ reg.locs := by
  have hfrom : ∀ l, l = loc ∨ l ∈ (old.getD Reg.new).locs → l = loc ∨ ∃ reg, old = some reg ∧
      l ∈ reg.locs := by
    intro l hl
    cases old with
    | none => exact hl.imp_right fun hnew ↦ by cases hnew
    | some reg => exact hl.imp_right fun hin ↦ ⟨reg, rfl, hin⟩
  cases loc with
  | root sat nam huc =>
    constructor
    · exact Reg.mem_locs.mpr (Or.inl ⟨sat, AList.lookup_insert _⟩)
    · intro l hl
      refine hfrom l ?_
      obtain ⟨sat', hlookup⟩ | hpar := Reg.mem_locs.mp hl
      · by_cases hsame : sat' = sat
        · subst hsame
          rw [gust, AList.lookup_insert] at hlookup
          cases hlookup
          exact Or.inl rfl
        · rw [gust, AList.lookup_insert_ne hsame] at hlookup
          exact Or.inr (Reg.mem_locs.mpr (Or.inl ⟨sat', hlookup⟩))
      · exact Or.inr (Reg.mem_locs.mpr (Or.inr hpar))
  | fast pel nam huc => exact ⟨mem_locs_minePar.1, fun l hl ↦ hfrom l (mem_locs_minePar.2 l hl)⟩
  | slow axe pel nam huc => exact ⟨mem_locs_minePar.1, fun l hl ↦ hfrom l (mem_locs_minePar.2 l hl)⟩

end Gust

/-- Locations in a registry are placed. -/
theorem Reg.Ok.placed {reg : Reg} (hok : reg.Ok) {loc : Loc} (hloc : loc ∈ reg.locs) :
    loc.Placed := by
  obtain ⟨sat, hroot⟩ | ⟨par, hpar, pel, hlookup⟩ := Reg.mem_locs.mp hloc
  · obtain ⟨nam, huc, rfl⟩ := hok.roots sat loc hroot
    exact fun hpel ↦ absurd rfl hpel
  · intro _
    rw [(hok.pars par hpar pel loc hlookup).1]
    exact hok.axes par hpar

/-! ### The roads -/

/-- A location is in the registry of a battery. -/
def RegAt (st : State) (bat : Noun) (loc : Loc) : Prop :=
  ∃ bar, findCold st bat = some bar ∧ loc ∈ bar.2.locs

/-- A location has an activation. -/
def Warm (st : State) (loc : Loc) : Prop := (findWarm st loc).isSome

/-- No location has been dropped. -/
def Kept (st : State) : Prop := ∀ road ∈ st, road.lost = false

/-- A location was registered for a battery, in the hot state or from a hint. -/
def Known (D : Dash) (st : State) (bat : Noun) (loc : Loc) : Prop :=
  (∃ hot, D.hot_p (D.bash bat) = some hot ∧ loc ∈ hot.reg.locs) ∨
    ∃ road ∈ st, (bat, loc) ∈ road.mined

/-- A core matches a location: its battery is registered there, and the noun at the parent axis
matches the parent's location, down to an equal static root. -/
def Matches (D : Dash) (st : State) : Loc → Noun → Prop
  | .root sat nam huc, cor => ∃ bat, cor = .cell bat sat ∧ Known D st bat (.root sat nam huc)
  | .fast pel nam huc, cor =>
    (∃ bat pay, cor = .cell bat pay ∧ Known D st bat (.fast pel nam huc)) ∧
      ∃ par, slot 3 cor = some par ∧ Matches D st pel par
  | .slow axe pel nam huc, cor =>
    (∃ bat pay, cor = .cell bat pay ∧ Known D st bat (.slow axe pel nam huc)) ∧
      ∃ par, slot axe cor = some par ∧ Matches D st pel par

variable {D : Dash} {st st' st'' : State} {loc : Loc} {cor bat pay : Noun}

/-- What holds of the roads at any time. -/
structure View (D : Dash) (st : State) : Prop where
  ok : ∀ bat bar, findCold st bat = some bar → bar.2.Ok ∧ bar.1 = D.bash bat
  known : ∀ bat loc, RegAt st bat loc → Known D st bat loc
  warm : ∀ bat loc, RegAt st bat loc → Warm st loc

theorem View.placed (hview : View D st) (hreg : RegAt st bat loc) : loc.Placed := by
  obtain ⟨bar, hbar, hin⟩ := hreg
  exact (hview.ok bat bar hbar).1.placed hin

/-- Every location's parent is in a registry too. -/
def Closed (st : State) : Prop :=
  ∀ bat loc, RegAt st bat loc → ∀ pel, loc.pel = some pel → ∃ bat', RegAt st bat' pel

/-- What a program does to the roads: it works on the innermost one, and as long as no location is
dropped from a registry they are all kept. -/
structure Step (D : Dash) (st st' : State) : Prop where
  outer : ∃ road road' rest, st = road :: rest ∧ st' = road' :: rest
  view : View D st'
  warm : ∀ loc, Warm st loc → Warm st' loc
  known : ∀ bat loc, Known D st bat loc → Known D st' bat loc
  kept : Kept st' → Kept st
  regs : Kept st' → ∀ bat loc, RegAt st bat loc → RegAt st' bat loc
  closed : Kept st' → Closed st → Closed st'

theorem Step.refl (hview : View D st) (hst : st ≠ []) : Step D st st where
  outer := by
    cases st with
    | nil => exact absurd rfl hst
    | cons road rest => exact ⟨road, road, rest, rfl, rfl⟩
  view := hview
  warm _ h := h
  known _ _ h := h
  kept h := h
  regs _ _ _ h := h
  closed _ h := h

theorem Step.trans (hfirst : Step D st st') (hsecond : Step D st' st'') : Step D st st'' where
  outer := by
    obtain ⟨road, road', rest, rfl, rfl⟩ := hfirst.outer
    obtain ⟨_, road'', _, hcons, rfl⟩ := hsecond.outer
    cases hcons
    exact ⟨road, road'', rest, rfl, rfl⟩
  view := hsecond.view
  warm loc h := hsecond.warm loc (hfirst.warm loc h)
  known bat loc h := hsecond.known bat loc (hfirst.known bat loc h)
  kept h := hfirst.kept (hsecond.kept h)
  regs h bat loc hreg := hsecond.regs h bat loc (hfirst.regs (hsecond.kept h) bat loc hreg)
  closed h hclosed := hsecond.closed h (hfirst.closed (hsecond.kept h) hclosed)

theorem Step.ne_nil (hstep : Step D st st') : st' ≠ [] := by
  obtain ⟨_, _, _, -, rfl⟩ := hstep.outer
  nofun

theorem Matches.mono (hknown : ∀ bat loc, Known D st bat loc → Known D st' bat loc)
    (hmatches : Matches D st loc cor) :
    Matches D st' loc cor := by
  induction loc generalizing cor with
  | root sat nam huc =>
    obtain ⟨bat, hcor, hbat⟩ := hmatches
    exact ⟨bat, hcor, hknown _ _ hbat⟩
  | fast pel nam huc ih =>
    obtain ⟨⟨bat, pay, hcor, hbat⟩, par, hpar, hpel⟩ := hmatches
    exact ⟨⟨bat, pay, hcor, hknown _ _ hbat⟩, par, hpar, ih hpel⟩
  | slow axe pel nam huc ih =>
    obtain ⟨⟨bat, pay, hcor, hbat⟩, par, hpar, hpel⟩ := hmatches
    exact ⟨⟨bat, pay, hcor, hknown _ _ hbat⟩, par, hpar, ih hpel⟩

theorem Matches.known (hmatches : Matches D st loc cor) :
    ∃ bat pay, cor = .cell bat pay ∧ Known D st bat loc := by
  cases loc with
  | root sat nam huc =>
    obtain ⟨bat, hcor, hbat⟩ := hmatches
    exact ⟨bat, sat, hcor, hbat⟩
  | fast pel nam huc => exact hmatches.1
  | slow axe pel nam huc => exact hmatches.1

/-- What is known of a core that has been located. -/
structure Found (D : Dash) (st : State) (loc : Loc) (cor : Noun) : Prop where
  matches_loc : Matches D st loc cor
  warm : Warm st loc
  placed : loc.Placed
  reg : Kept st → ∃ bat pay, cor = .cell bat pay ∧ RegAt st bat loc

theorem Found.mono (hfound : Found D st loc cor) (hstep : Step D st st') : Found D st' loc cor where
  matches_loc := hfound.matches_loc.mono hstep.known
  warm := hstep.warm loc hfound.warm
  placed := hfound.placed
  reg hkept := by
    obtain ⟨bat, pay, hcor, hreg⟩ := hfound.reg (hstep.kept hkept)
    exact ⟨bat, pay, hcor, hstep.regs hkept bat loc hreg⟩

/-! ### Adding a location -/

theorem keepsAll_iff {old : Option (ℕ × Reg)} {new : Reg} :
    keepsAll old new = true ↔ ∀ bar, old = some bar → ∀ l ∈ bar.2.locs, l ∈ new.locs := by
  cases old with
  | none => exact iff_of_true rfl nofun
  | some bar =>
    rw [keepsAll, Option.all_some, List.all_eq_true]
    constructor
    · intro hall bar' hbar l hl
      cases hbar
      exact of_decide_eq_true (hall l hl)
    · intro hall l hl
      exact decide_eq_true (hall bar rfl l hl)

section Add

variable {road : Road} {rest : State} {bas : ℕ} {reg : Reg} {act : Act}

/-- The innermost road after a location has been added. -/
def Road.add (road : Road) (rest : State) (bat : Noun) (bas : ℕ) (reg : Reg) (loc : Loc)
    (act : Act) : Road :=
  { road with
    cod_p := road.cod_p.insert bat (bas, reg)
    war_p := road.war_p.insert loc act
    lost := road.lost || !keepsAll (findCold (road :: rest) bat) reg }

theorem findCold_add : findCold (road.add rest bat bas reg loc act :: rest) bat = some (bas, reg) :=
  Vere.Lib.Layers.find_insert

theorem findCold_add_ne {bat' : Noun} (hne : bat' ≠ bat) :
    findCold (road.add rest bat bas reg loc act :: rest) bat' = findCold (road :: rest) bat' :=
  Vere.Lib.Layers.find_insert_ne hne

theorem warm_add {l : Loc} : Warm (road.add rest bat bas reg loc act :: rest) l ↔ l = loc ∨
    Warm (road :: rest) l := by
  rw [Warm, Warm, findWarm, findWarm]
  by_cases hsame : l = loc
  · subst hsame
    refine iff_of_true ?_ (Or.inl rfl)
    rw [List.map_cons, Road.add, Vere.Lib.Layers.find_insert]
    rfl
  · rw [List.map_cons, List.map_cons, Road.add, Vere.Lib.Layers.find_insert_ne hsame]
    simp only [hsame, false_or]

theorem known_add {bat' : Noun} {l : Loc} :
    Known D (road.add rest bat bas reg loc act :: rest) bat' l ↔ Known D (road :: rest) bat' l := by
  simp only [Known, List.exists_mem_cons_iff]
  rfl

/-- A location is added to the registry of its battery, which may be an older one. -/
theorem add_step {old : Option Reg} (hview : View D (road :: rest)) (hbas : bas = D.bash bat)
    (hplaced : loc.Placed) (hold : ∀ reg, old = some reg → reg.Ok ∧
    ∀ l ∈ reg.locs, Known D (road :: rest) bat l ∧ Warm (road :: rest) l ∧
      (Kept (road :: rest) → Closed (road :: rest) → ∀ pel, l.pel = some pel →
      ∃ bat', RegAt (road :: rest) bat' pel))
    (hknown : Known D (road :: rest) bat loc)
    (hpel : Kept (road :: rest) → ∀ pel, loc.pel = some pel →
    ∃ bat', RegAt (road :: rest) bat' pel) :
    Step D (road :: rest) (road.add rest bat bas (gust old loc) loc act :: rest) ∧
      RegAt (road.add rest bat bas (gust old loc) loc act :: rest) bat loc := by
  obtain ⟨hself, hfrom⟩ := @mem_locs_gust loc old
  have hat : ∀ bat' l, RegAt (road.add rest bat bas (gust old loc) loc act :: rest) bat' l →
      RegAt (road :: rest) bat' l ∨ bat' = bat ∧
      (l = loc ∨ ∃ reg, old = some reg ∧ l ∈ reg.locs) := by
    rintro bat' l ⟨bar, hbar, hl⟩
    by_cases hsame : bat' = bat
    · subst hsame
      rw [findCold_add] at hbar
      cases hbar
      exact Or.inr ⟨rfl, hfrom l hl⟩
    · rw [findCold_add_ne hsame] at hbar
      exact Or.inl ⟨bar, hbar, hl⟩
  have hkept : Kept (road.add rest bat bas (gust old loc) loc act :: rest) →
      Kept (road :: rest) ∧ keepsAll (findCold (road :: rest) bat) (gust old loc) = true := by
    intro hkept
    have hhead : (road.lost || !keepsAll (findCold (road :: rest) bat) (gust old loc)) = false :=
      hkept _ List.mem_cons_self
    rw [Bool.or_eq_false_iff, Bool.not_eq_false'] at hhead
    refine ⟨fun r hr ↦ ?_, hhead.2⟩
    obtain rfl | hr := List.mem_cons.mp hr
    · exact hhead.1
    · exact hkept r (List.mem_cons_of_mem _ hr)
  have hregs : Kept (road.add rest bat bas (gust old loc) loc act :: rest) →
    ∀ bat' l, RegAt (road :: rest) bat' l →
      RegAt (road.add rest bat bas (gust old loc) loc act :: rest) bat' l := by
    rintro h bat' l ⟨bar, hbar, hl⟩
    by_cases hsame : bat' = bat
    · subst hsame
      exact ⟨_, findCold_add, keepsAll_iff.mp (hkept h).2 bar hbar l hl⟩
    · exact ⟨bar, (findCold_add_ne hsame).trans hbar, hl⟩
  refine ⟨⟨⟨road, _, rest, rfl, rfl⟩, ⟨fun bat' bar hbar ↦ ?_, fun bat' l hl ↦ ?_,
    fun bat' l hl ↦ ?_⟩, fun l hl ↦ warm_add.mpr (Or.inr hl), fun bat' l hl ↦ known_add.mpr hl,
    fun h ↦ (hkept h).1, hregs, fun h hclosed bat' l hl pel hlpel ↦ ?_⟩, _, findCold_add, hself⟩
  · by_cases hsame : bat' = bat
    · subst hsame
      rw [findCold_add] at hbar
      cases hbar
      exact ⟨gust_ok (fun reg hreg ↦ (hold reg hreg).1) hplaced, hbas⟩
    · rw [findCold_add_ne hsame] at hbar
      exact hview.ok bat' bar hbar
  · rw [known_add]
    obtain hreg | ⟨rfl, rfl | ⟨reg, hreg, hin⟩⟩ := hat bat' l hl
    · exact hview.known bat' l hreg
    · exact hknown
    · exact ((hold reg hreg).2 l hin).1
  · rw [warm_add]
    obtain hreg | ⟨rfl, rfl | ⟨reg, hreg, hin⟩⟩ := hat bat' l hl
    · exact Or.inr (hview.warm bat' l hreg)
    · exact Or.inl rfl
    · exact Or.inr ((hold reg hreg).2 l hin).2.1
  · have hbefore : ∃ bat', RegAt (road :: rest) bat' pel := by
      obtain hreg | ⟨rfl, rfl | ⟨reg, hreg, hin⟩⟩ := hat bat' l hl
      · exact hclosed bat' l hreg pel hlpel
      · exact hpel (hkept h).1 pel hlpel
      · exact ((hold reg hreg).2 l hin).2.2 (hkept h).1 hclosed pel hlpel
    obtain ⟨bat'', hreg⟩ := hbefore
    exact ⟨bat'', hregs h bat'' pel hreg⟩

end Add

/-! ### Running a program -/

theorem bind_of_ok {α β : Type} {x : M α} {next : α → M β} {a : α} {s s' : State}
    (hx : x s = .ok (a, s')) :
    (x >>= next) s = next a s' := by
  show (x s >>= fun p ↦ next p.1 p.2) = _
  rw [hx]
  rfl

theorem bind_eq_ok {α β : Type} {x : M α} {next : α → M β} {res : β × State} :
    (x >>= next) st = .ok res ↔ ∃ a st', x st = .ok (a, st') ∧ next a st' = .ok res := by
  show (x st >>= fun p ↦ next p.1 p.2) = _ ↔ _
  cases x st with
  | error why => exact iff_of_false nofun nofun
  | ok p =>
    constructor
    · intro h
      exact ⟨p.1, p.2, rfl, h⟩
    · rintro ⟨a, st', hp, h⟩
      cases hp
      exact h

theorem pure_eq_ok {α : Type} {a : α} {res : α × State} :
    (pure a : M α) st = .ok res ↔ res = (a, st) := by
  constructor
  · intro h
    cases h
    rfl
  · rintro rfl
    rfl

theorem lift_eq_ok {α : Type} {x : Except Bail α} {a : α} :
    (x : M α) st = .ok (a, st') ↔ x = .ok a ∧ st = st' := by
  cases x with
  | error why => exact iff_of_false nofun nofun
  | ok a' =>
    constructor
    · intro h
      cases h
      exact ⟨rfl, rfl⟩
    · rintro ⟨h, rfl⟩
      cases h
      rfl

theorem nail_eq_ok {act : Act} : nail loc st = .ok (act, st') ↔ findWarm st loc = some act ∧
    st = st' := by
  rw [nail]
  cases findWarm st loc with
  | none => exact iff_of_false nofun nofun
  | some act' =>
    constructor
    · intro h
      cases h
      exact ⟨rfl, rfl⟩
    · rintro ⟨h, rfl⟩
      cases h
      rfl

theorem parAct_eq_ok {pac : Option Act} : parAct loc st = .ok (pac, st') ↔
    st = st' ∧ (loc.pel = none ∧ pac = none ∨ ∃ pel act, loc.pel = some pel ∧
    findWarm st pel = some act ∧ pac = some act) := by
  rw [parAct]
  cases hpel : loc.pel with
  | none =>
    constructor
    · intro h
      cases h
      exact ⟨rfl, Or.inl ⟨rfl, rfl⟩⟩
    · rintro ⟨rfl, ⟨-, rfl⟩ | ⟨pel, act, hnone, -⟩⟩
      · rfl
      · cases hnone
  | some pel =>
    dsimp only
    cases hwarm : findWarm st pel with
    | none =>
      refine iff_of_false nofun ?_
      rintro ⟨-, ⟨hnone, -⟩ | ⟨pel', act, hsame, hact, -⟩⟩
      · cases hnone
      · cases hsame
        rw [hwarm] at hact
        cases hact
    | some act =>
      constructor
      · intro h
        cases h
        exact ⟨rfl, Or.inr ⟨pel, act, rfl, hwarm, rfl⟩⟩
      · rintro ⟨rfl, ⟨hnone, -⟩ | ⟨pel', act', hsame, hact, rfl⟩⟩
        · cases hnone
        · cases hsame
          rw [hwarm] at hact
          cases hact
          rfl

/-! ### Locating -/

/-- What a search for a core does. -/
def Spots (D : Dash) (spot : Noun → M (Option Loc)) : Prop :=
  ∀ {cor : Noun} {st st' : State} {o : Option Loc}, spot cor st = .ok (o, st') → View D st →
    st ≠ [] →
    Step D st st' ∧ ∀ loc, o = some loc → Found D st' loc cor

theorem parFind_step {spot : Noun → M (Option Loc)} (hspots : Spots D spot) {pas : List (ℕ × Lol)}
    {o : Option Loc} (hfind : parFind spot cor pas st = .ok (o, st')) (hview : View D st)
    (hst : st ≠ []) :
    Step D st st' ∧ ∀ loc, o = some loc →
      ∃ par ∈ pas, ∃ pel n, slot par.1 cor = some n ∧ Found D st' pel n ∧
      par.2.lookup pel = some loc := by
  induction pas generalizing st with
  | nil =>
    obtain ⟨rfl, rfl⟩ := Prod.mk.inj (pure_eq_ok.mp hfind)
    exact ⟨Step.refl hview hst, nofun⟩
  | cons par pas ih =>
    obtain ⟨axe, lol⟩ := par
    rw [parFind] at hfind
    cases hslot : slot axe cor with
    | none =>
      rw [hslot] at hfind
      obtain ⟨hstep, hfound⟩ := ih hfind hview hst
      refine ⟨hstep, fun loc hloc ↦ ?_⟩
      obtain ⟨par, hpar, rest⟩ := hfound loc hloc
      exact ⟨par, List.mem_cons_of_mem _ hpar, rest⟩
    | some n =>
      rw [hslot] at hfind
      obtain ⟨pel, st₁, hspot, hnext⟩ := bind_eq_ok.mp hfind
      obtain ⟨hstep₁, hfound₁⟩ := hspots hspot hview hst
      cases hlookup : pel.bind lol.lookup with
      | some loc =>
        rw [hlookup] at hnext
        obtain ⟨rfl, rfl⟩ := Prod.mk.inj (pure_eq_ok.mp hnext)
        obtain ⟨pel, rfl, hin⟩ := Option.bind_eq_some_iff.mp hlookup
        refine ⟨hstep₁, fun loc' hloc' ↦ ?_⟩
        cases hloc'
        exact ⟨(axe, lol), List.mem_cons_self, pel, n, hslot, hfound₁ pel rfl, hin⟩
      | none =>
        rw [hlookup] at hnext
        obtain ⟨hstep, hfound⟩ := ih hnext hstep₁.view hstep₁.ne_nil
        refine ⟨hstep₁.trans hstep, fun loc hloc ↦ ?_⟩
        obtain ⟨par, hpar, rest⟩ := hfound loc hloc
        exact ⟨par, List.mem_cons_of_mem _ hpar, rest⟩

/-- A core fits a location, whichever battery it has. -/
def Fits (D : Dash) (st : State) (loc : Loc) (cor pay : Noun) : Prop :=
  (∃ nam huc, loc = .root pay nam huc) ∨ ∃ pel n, loc.pel = some pel ∧ slot loc.axe cor = some n ∧
    Found D st pel n

theorem regFind_step {spot : Noun → M (Option Loc)} (hspots : Spots D spot) {reg : Reg}
    (hok : reg.Ok) {o : Option Loc} (hfind : regFind spot reg bat pay st = .ok (o, st'))
    (hview : View D st) (hst : st ≠ []) :
    Step D st st' ∧ ∀ loc, o = some loc → loc ∈ reg.locs ∧ Fits D st' loc (.cell bat pay) pay := by
  rw [regFind] at hfind
  cases hroot : reg.rut.lookup pay with
  | some loc =>
    rw [hroot] at hfind
    obtain ⟨rfl, rfl⟩ := Prod.mk.inj (pure_eq_ok.mp hfind)
    refine ⟨Step.refl hview hst, fun loc' hloc' ↦ ?_⟩
    cases hloc'
    exact ⟨Reg.mem_locs.mpr (Or.inl ⟨pay, hroot⟩), Or.inl (hok.roots pay loc hroot)⟩
  | none =>
    rw [hroot] at hfind
    obtain ⟨hstep, hfound⟩ := parFind_step hspots hfind hview hst
    refine ⟨hstep, fun loc hloc ↦ ?_⟩
    obtain ⟨par, hpar, pel, n, hslot, hpel, hlookup⟩ := hfound loc hloc
    obtain ⟨hat, hlocpel⟩ := hok.pars par hpar pel loc hlookup
    exact ⟨Reg.mem_locs.mpr (Or.inr ⟨par, hpar, pel, hlookup⟩),
      Or.inr ⟨pel, n, hlocpel, by rw [hat]; exact hslot, hpel⟩⟩

theorem Fits.matches_loc (hfits : Fits D st loc (.cell bat pay) pay) (hknown : Known D st bat loc) :
    Matches D st loc (.cell bat pay) := by
  obtain ⟨nam, huc, rfl⟩ | ⟨pel, n, hpel, hslot, hfound⟩ := hfits
  · exact ⟨bat, rfl, hknown⟩
  · cases loc with
    | root sat nam huc => cases hpel
    | fast pel nam huc =>
      cases hpel
      exact ⟨⟨bat, pay, rfl, hknown⟩, n, hslot, hfound.matches_loc⟩
    | slow axe pel nam huc =>
      cases hpel
      exact ⟨⟨bat, pay, rfl, hknown⟩, n, hslot, hfound.matches_loc⟩

theorem Fits.reg (hfits : Fits D st loc cor pay) (hkept : Kept st) (pel : Loc)
    (hpel : loc.pel = some pel) :
    ∃ bat', RegAt st bat' pel := by
  obtain ⟨nam, huc, rfl⟩ | ⟨pel', n, hpel', -, hfound⟩ := hfits
  · cases hpel
  · rw [hpel] at hpel'
    cases hpel'
    obtain ⟨bat', -, -, hreg⟩ := hfound.reg hkept
    exact ⟨bat', hreg⟩

theorem putBoth_eq {bas : ℕ} {reg : Reg} {act : Act} {o : Option Loc} (hst : st ≠ [])
    (hput : (do
      putCold bat bas reg
      putWarm loc act
      pure (some loc) : M (Option Loc)) st = .ok (o, st')) :
    ∃ road rest, st = road :: rest ∧ st' = road.add rest bat bas reg loc act :: rest ∧
    o = some loc := by
  cases st with
  | nil => exact absurd rfl hst
  | cons road rest =>
    obtain ⟨_, st₁, hcold, hput⟩ := bind_eq_ok.mp hput
    cases hcold
    obtain ⟨_, st₂, hwarm, hput⟩ := bind_eq_ok.mp hput
    cases hwarm
    obtain ⟨rfl, rfl⟩ := Prod.mk.inj (pure_eq_ok.mp hput)
    exact ⟨road, rest, rfl, rfl, rfl⟩

/-- The search in the hot state, some time after the cold state was read. -/
theorem spotHot_step {spot : Noun → M (Option Loc)} (hspots : Spots D spot) {st₀ : State}
    {o : Option Loc} (hhot : spotHot D spot (findCold st₀ bat) (D.bash bat) bat pay st = .ok (o,
    st')) (hview₀ : View D st₀) (hstep₀ : Step D st₀ st) :
    Step D st st' ∧ ∀ loc, o = some loc → Found D st' loc (.cell bat pay) := by
  have hview := hstep₀.view
  have hnone : ∀ {st st' : State} {o : Option Loc}, View D st → st ≠ [] →
      (pure none : M (Option Loc)) st = .ok (o, st') →
      Step D st st' ∧ ∀ loc, o = some loc → Found D st' loc (.cell bat pay) := by
    intro st st' o hview hst h
    obtain ⟨rfl, rfl⟩ := Prod.mk.inj (pure_eq_ok.mp h)
    exact ⟨Step.refl hview hst, nofun⟩
  rw [spotHot] at hhot
  split_ifs at hhot with hhashless
  · exact hnone hview hstep₀.ne_nil hhot
  · cases hinfo : D.hot_p (D.bash bat) with
    | none =>
      rw [hinfo] at hhot
      exact hnone hview hstep₀.ne_nil hhot
    | some hot =>
      rw [hinfo] at hhot
      have hok := D.hot_ok _ hot hinfo
      obtain ⟨found, st₁, hfind, hnext⟩ := bind_eq_ok.mp hhot
      obtain ⟨hstep₁, hfound₁⟩ := regFind_step hspots hok hfind hview hstep₀.ne_nil
      cases found with
      | none =>
        obtain ⟨hstep, hfound⟩ := hnone hstep₁.view hstep₁.ne_nil hnext
        exact ⟨hstep₁.trans hstep, hfound⟩
      | some loc =>
        obtain ⟨hin, hfits⟩ := hfound₁ loc rfl
        obtain ⟨road, rest, rfl, rfl, rfl⟩ := putBoth_eq hstep₁.ne_nil hnext
        have hknown : Known D (road :: rest) bat loc := Or.inl ⟨hot, hinfo, hin⟩
        have hmatches := hfits.matches_loc hknown
        have hstep₀₁ := hstep₀.trans hstep₁
        obtain ⟨hstep, hreg⟩ :=
          @add_step D loc bat road rest (D.bash bat) hot.act ((findCold st₀ bat).map Prod.snd)
          hstep₁.view rfl (hok.placed hin)
          (fun reg hreg ↦ by
            obtain ⟨bar, hbar, rfl⟩ := Option.map_eq_some_iff.mp hreg
            refine ⟨(hview₀.ok bat bar hbar).1, fun l hl ↦ ?_⟩
            have hreg₀ : RegAt st₀ bat l := ⟨bar, hbar, hl⟩
            exact ⟨hstep₀₁.known _ _ (hview₀.known bat l hreg₀),
              hstep₀₁.warm l (hview₀.warm bat l hreg₀),
              fun hkept hclosed pel hpel ↦ hclosed bat l (hstep₀₁.regs hkept bat l hreg₀) pel hpel⟩)
          hknown (fun hkept pel hpel ↦ hfits.reg hkept pel hpel)
        refine ⟨hstep₁.trans hstep, fun loc' hloc' ↦ ?_⟩
        cases hloc'
        exact ⟨hmatches.mono hstep.known, hstep.view.warm bat loc hreg, hstep.view.placed hreg,
          fun _ ↦ ⟨bat, pay, rfl, hreg⟩⟩

/-- The hash that the caller of a search has is that of the battery. -/
def RightBas (D : Dash) (bas : Option ℕ) (cor : Noun) : Prop :=
  ∀ bat pay, cor = .cell bat pay → ∀ b, bas = some b → b = D.bash bat

theorem rightBas_none : RightBas D none cor := fun _ _ _ _ h ↦ by cases h

/-- The hash that a search goes on with. -/
theorem RightBas.or {bas : Option ℕ} (hbas : RightBas D bas (.cell bat pay)) (hview : View D st) :
    RightBas D (bas.or ((findCold st bat).map Prod.fst)) (.cell bat pay) := by
  intro bat' pay' hcor b hb
  cases hcor
  obtain hb | ⟨-, hb⟩ := Option.or_eq_some_iff.mp hb
  · exact hbas bat pay rfl b hb
  · obtain ⟨bar, hbar, rfl⟩ := Option.map_eq_some_iff.mp hb
    exact (hview.ok bat bar hbar).2

theorem RightBas.getD {bas : Option ℕ} (hbas : RightBas D bas (.cell bat pay)) :
    bas.getD (D.bash bat) = D.bash bat := by
  cases bas with
  | none => rfl
  | some b => exact hbas bat pay rfl b rfl

/-- What a search leaves behind. -/
theorem spotN_step (fuel : ℕ) {bas : Option ℕ} {res : Option Loc × Option ℕ}
    (hbas : RightBas D bas cor) (hspot : spotN D fuel cor bas st = .ok (res, st'))
    (hview : View D st) (hst : st ≠ []) :
    Step D st st' ∧ RightBas D res.2 cor ∧ (res.1 = none → res.2 ≠ none) ∧
      ∀ loc, res.1 = some loc → Found D st' loc cor := by
  induction fuel generalizing cor bas st st' res with
  | zero => cases hspot
  | succ fuel ih =>
    cases cor with
    | atom a => cases hspot
    | cell bat pay =>
      have hspots : Spots D fun par ↦ spotN D fuel par none >>= fun found ↦
          pure found.1 := by
        intro cor st st' o h hview hst
        obtain ⟨⟨pel, bas'⟩, st₁, hrun, hpure⟩ := bind_eq_ok.mp h
        obtain ⟨rfl, rfl⟩ := Prod.mk.inj (pure_eq_ok.mp hpure)
        obtain ⟨hstep, -, -, hfound⟩ := ih rightBas_none hrun hview hst
        exact ⟨hstep, hfound⟩
      rw [spotN] at hspot
      obtain ⟨st₀, st₁, hget, hnext⟩ := bind_eq_ok.mp hspot
      obtain ⟨rfl, rfl⟩ : st = st₀ ∧ st = st₁ := by
        cases hget
        exact ⟨rfl, rfl⟩
      obtain ⟨found, st₂, hcold, hnext⟩ := bind_eq_ok.mp hnext
      have hright := hbas.or hview
      -- the search in the cold state
      have hfirst : Step D st st₂ ∧ ∀ loc, found = some loc → Found D st₂ loc (.cell bat pay) := by
        cases hbar : findCold st bat with
        | none =>
          rw [hbar] at hcold
          obtain ⟨rfl, rfl⟩ := Prod.mk.inj (pure_eq_ok.mp hcold)
          exact ⟨Step.refl hview hst, fun loc hloc ↦ by cases hloc⟩
        | some bar =>
          rw [hbar] at hcold
          obtain ⟨hstep, hfound⟩ := regFind_step hspots (hview.ok bat bar hbar).1 hcold hview hst
          refine ⟨hstep, fun loc hloc ↦ ?_⟩
          obtain ⟨hin, hfits⟩ := hfound loc hloc
          have hreg : RegAt st bat loc := ⟨bar, hbar, hin⟩
          exact ⟨hfits.matches_loc (hstep.known _ _ (hview.known bat loc hreg)),
            hstep.warm loc (hview.warm bat loc hreg), hview.placed hreg,
            fun hkept ↦ ⟨bat, pay, rfl, hstep.regs hkept bat loc hreg⟩⟩
      obtain ⟨hstep, hfound⟩ := hfirst
      cases found with
      | some loc =>
        obtain ⟨rfl, rfl⟩ := Prod.mk.inj (pure_eq_ok.mp hnext)
        refine ⟨hstep, hright, (fun h ↦ by cases h), fun loc' hloc' ↦ ?_⟩
        cases hloc'
        exact hfound loc rfl
      | none =>
        obtain ⟨o, st₃, hhot, hpure⟩ := bind_eq_ok.mp hnext
        obtain ⟨rfl, rfl⟩ := Prod.mk.inj (pure_eq_ok.mp hpure)
        rw [hright.getD] at hhot ⊢
        obtain ⟨hstep', hfound'⟩ := spotHot_step hspots hhot hview hstep
        refine ⟨hstep.trans hstep', fun bat' pay' hcor b hb ↦ ?_, (fun _ h ↦ by cases h), hfound'⟩
        cases hcor
        cases hb
        rfl

theorem spot_step {res : Option Loc × Option ℕ} (hspot : spot D cor none st = .ok (res, st'))
    (hview : View D st) (hst : st ≠ []) :
    Step D st st' ∧ RightBas D res.2 cor ∧ (res.1 = none → res.2 ≠ none) ∧
      ∀ loc, res.1 = some loc → Found D st' loc cor :=
  spotN_step cor.size rightBas_none hspot hview hst

/-! ### Registering -/

theorem clueAxe_lt {h t : Noun} {axe : ℕ} (haxe : clueAxe h t = some axe) : axe < 2 ^ 31 := by
  unfold clueAxe at haxe
  by_cases hroot : h = .atom 1 ∧ t = .atom 0
  · rw [if_pos hroot] at haxe
    cases haxe
    omega
  · rw [if_neg hroot] at haxe
    split at haxe
    · split_ifs at haxe with hlt
      cases haxe
      exact hlt
    · cases haxe

theorem fsck_axe {clu : Noun} {nam axe : ℕ} {huc : Hooks}
    (hfsck : fsck clu = .ok (some (nam, axe, huc))) :
    axe < 2 ^ 31 := by
  cases clu with
  | atom a => cases hfsck
  | cell p_clu t =>
    cases t with
    | atom a => cases hfsck
    | cell q_clu r_clu =>
      rw [fsck] at hfsck
      cases hchum : chum p_clu with
      | error why =>
        rw [hchum] at hfsck
        cases hfsck
      | ok nam' =>
        rw [hchum] at hfsck
        cases nam' with
        | none => cases hfsck
        | some nam' =>
          cases hskip : skipHints q_clu with
          | error why =>
            dsimp only [bind, Except.bind] at hfsck
            rw [hskip] at hfsck
            cases hfsck
          | ok q =>
            dsimp only [bind, Except.bind] at hfsck
            rw [hskip] at hfsck
            cases q with
            | atom a => cases hfsck
            | cell h t =>
              dsimp only at hfsck
              cases haxe : clueAxe h t with
              | none =>
                rw [haxe] at hfsck
                cases hfsck
              | some axe' =>
                rw [haxe] at hfsck
                obtain ⟨huk, -, hsame⟩ := Option.map_eq_some_iff.mp (Except.ok.inj hfsck)
                cases hsame
                exact clueAxe_lt haxe

theorem minx_step {nam axe : ℕ} {huc : Hooks} {o : Option Loc} (haxe : axe < 2 ^ 31)
    (hminx : minx D nam axe huc (.cell bat pay) st = .ok (o, st')) (hview : View D st)
    (hst : st ≠ []) :
    Step D st st' ∧ ∀ loc, o = some loc → loc.Placed ∧ Fits D st' loc (.cell bat pay) pay := by
  rw [minx] at hminx
  split_ifs at hminx with hzero
  · obtain ⟨rfl, rfl⟩ := Prod.mk.inj (pure_eq_ok.mp hminx)
    refine ⟨Step.refl hview hst, fun loc hloc ↦ ?_⟩
    cases hloc
    exact ⟨fun hpel ↦ absurd rfl hpel, Or.inl ⟨nam, huc, rfl⟩⟩
  · have hnone : (pure none : M (Option Loc)) st = .ok (o, st') →
        Step D st st' ∧ ∀ loc, o = some loc → loc.Placed ∧ Fits D st' loc (.cell bat pay) pay := by
      intro h
      obtain ⟨rfl, rfl⟩ := Prod.mk.inj (pure_eq_ok.mp h)
      exact ⟨Step.refl hview hst, nofun⟩
    cases hslot : slot axe (.cell bat pay) with
    | none =>
      rw [hslot] at hminx
      exact hnone hminx
    | some par =>
      rw [hslot] at hminx
      cases par with
      | atom a => exact hnone hminx
      | cell bat' pay' =>
        obtain ⟨⟨pel, bas⟩, st₁, hspot, hnext⟩ := bind_eq_ok.mp hminx
        obtain ⟨hstep, -, -, hfound⟩ := spot_step hspot hview hst
        cases pel with
        | none =>
          obtain ⟨rfl, rfl⟩ := Prod.mk.inj (pure_eq_ok.mp hnext)
          exact ⟨hstep, nofun⟩
        | some pel =>
          obtain ⟨rfl, rfl⟩ := Prod.mk.inj (pure_eq_ok.mp hnext)
          refine ⟨hstep, fun loc hloc ↦ ?_⟩
          cases hloc
          have hpel := hfound pel rfl
          by_cases hfast : axe = 3 ∧ pel.isStatic
          · rw [if_pos hfast]
            obtain ⟨rfl, -⟩ := hfast
            refine ⟨fun _ ↦ ⟨?_, haxe⟩, Or.inr ⟨pel, _, rfl, hslot, hpel⟩⟩
            exact Nat.one_le_iff_ne_zero.mpr hzero
          · rw [if_neg hfast]
            exact ⟨fun _ ↦ ⟨Nat.one_le_iff_ne_zero.mpr hzero, haxe⟩,
              Or.inr ⟨pel, _, rfl, hslot, hpel⟩⟩

/-- The history is written down. -/
theorem mined_step {road : Road} {rest : State} (hview : View D (road :: rest)) (bat : Noun)
    (loc : Loc) :
    Step D (road :: rest) ({ road with mined := (bat, loc) :: road.mined } :: rest) ∧
      Known D ({ road with mined := (bat, loc) :: road.mined } :: rest) bat loc := by
  have hknown : ∀ bat' l, Known D (road :: rest) bat' l →
      Known D ({ road with mined := (bat, loc) :: road.mined } :: rest) bat' l := by
    intro bat' l h
    obtain hhot | ⟨r, hr, hmem⟩ := h
    · exact Or.inl hhot
    · obtain rfl | hr := List.mem_cons.mp hr
      · exact Or.inr ⟨_, List.mem_cons_self, List.mem_cons_of_mem _ hmem⟩
      · exact Or.inr ⟨r, List.mem_cons_of_mem _ hr, hmem⟩
  refine ⟨⟨⟨road, _, rest, rfl, rfl⟩, ⟨hview.ok,
    fun bat' l hreg ↦ hknown bat' l (hview.known bat' l hreg), hview.warm⟩, fun _ h ↦ h, hknown,
    fun h r hr ↦ ?_, fun _ _ _ h ↦ h, fun _ h ↦ h⟩, ?_⟩
  · have hhead : road.lost = false :=
      h { road with mined := (bat, loc) :: road.mined } List.mem_cons_self
    obtain rfl | hr := List.mem_cons.mp hr
    · exact hhead
    · exact h r (List.mem_cons_of_mem _ hr)
  · exact Or.inr ⟨_, List.mem_cons_self, List.mem_cons_self⟩

theorem mine_step {nam axe : ℕ} {huc : Hooks} {o : Option Loc} (haxe : axe < 2 ^ 31)
    (hmine : mine D nam axe huc bat pay (D.bash bat) st = .ok (o, st')) (hview : View D st)
    (hst : st ≠ []) :
    Step D st st' ∧ ∀ loc, o = some loc → Found D st' loc (.cell bat pay) := by
  obtain ⟨found, st₁, hminx, hnext⟩ := bind_eq_ok.mp hmine
  obtain ⟨hstep₁, hfound₁⟩ := minx_step haxe hminx hview hst
  cases found with
  | none =>
    obtain ⟨rfl, rfl⟩ := Prod.mk.inj (pure_eq_ok.mp hnext)
    exact ⟨hstep₁, nofun⟩
  | some loc =>
    obtain ⟨hplaced, hfits⟩ := hfound₁ loc rfl
    obtain ⟨_, _, hget, hnext⟩ := bind_eq_ok.mp hnext
    cases hget
    obtain ⟨pac, st₂, hpac, hnext⟩ := bind_eq_ok.mp hnext
    obtain ⟨rfl, -⟩ := parAct_eq_ok.mp hpac
    obtain ⟨road, rest, rfl⟩ := List.exists_cons_of_ne_nil hstep₁.ne_nil
    obtain ⟨_, _, hmined, hnext⟩ := bind_eq_ok.mp hnext
    cases hmined
    obtain ⟨hstep₂, hknown⟩ := mined_step hstep₁.view bat loc
    have hstep := hstep₁.trans hstep₂
    have hfits₂ : Fits D ({ road with mined := (bat, loc) :: road.mined } :: rest) loc
      (.cell bat pay) pay :=
      hfits.imp_right fun ⟨pel, n, hpel, hslot, hfound⟩ ↦ ⟨pel, n, hpel, hslot, hfound.mono hstep₂⟩
    obtain ⟨road', rest', hcons, rfl, rfl⟩ := putBoth_eq hstep₂.ne_nil hnext
    cases hcons
    obtain ⟨hstep₃, hreg⟩ := @add_step D loc bat _ rest (D.bash bat) (actBelow D pac loc)
      ((findCold (road :: rest) bat).map Prod.snd) hstep₂.view rfl hplaced
      (fun reg hreg ↦ by
        obtain ⟨bar, hbar, rfl⟩ := Option.map_eq_some_iff.mp hreg
        refine ⟨(hstep₁.view.ok bat bar hbar).1, fun l hl ↦ ?_⟩
        have hreg₁ : RegAt (road :: rest) bat l := ⟨bar, hbar, hl⟩
        exact ⟨hstep₂.known _ _ (hstep₁.view.known bat l hreg₁),
          hstep₂.warm l (hstep₁.view.warm bat l hreg₁),
          fun hkept hclosed pel hpel ↦ hclosed bat l (hstep₂.regs hkept bat l hreg₁) pel hpel⟩)
      hknown (fun hkept pel hpel ↦ hfits₂.reg hkept pel hpel)
    refine ⟨hstep.trans hstep₃, fun loc' hloc' ↦ ?_⟩
    cases hloc'
    exact ⟨(hfits₂.matches_loc hknown).mono hstep₃.known, hstep₃.view.warm bat loc hreg, hplaced,
      fun _ ↦ ⟨bat, pay, rfl, hreg⟩⟩

theorem audit_step {nam axe : ℕ} {huc : Hooks} (haxe : axe < 2 ^ 31)
    (haudit : audit D loc nam axe huc (.cell bat pay) st = .ok ((), st')) (hview : View D st)
    (hst : st ≠ []) :
    Step D st st' := by
  rw [audit] at haudit
  split_ifs at haudit with hsays
  · obtain ⟨o, st₁, hminx, hpure⟩ := bind_eq_ok.mp haudit
    obtain ⟨-, rfl⟩ := Prod.mk.inj (pure_eq_ok.mp hpure)
    exact (minx_step haxe hminx hview hst).1
  · obtain ⟨-, rfl⟩ := Prod.mk.inj (pure_eq_ok.mp haudit)
    exact Step.refl hview hst

/-- What a registration leaves behind. -/
theorem mile_step {clu : Noun} {o : Option Loc} (hmile : mile D clu cor st = .ok (o, st'))
    (hview : View D st) (hst : st ≠ []) :
    Step D st st' ∧ ∀ loc, o = some loc → Found D st' loc cor := by
  cases cor with
  | atom a =>
    obtain ⟨rfl, rfl⟩ := Prod.mk.inj (pure_eq_ok.mp hmile)
    exact ⟨Step.refl hview hst, nofun⟩
  | cell bat pay =>
    obtain ⟨cey, st₁, hlift, hnext⟩ := bind_eq_ok.mp hmile
    obtain ⟨hfsck, rfl⟩ := lift_eq_ok.mp hlift
    cases cey with
    | none =>
      obtain ⟨rfl, rfl⟩ := Prod.mk.inj (pure_eq_ok.mp hnext)
      exact ⟨Step.refl hview hst, nofun⟩
    | some cey =>
      obtain ⟨nam, axe, huc⟩ := cey
      have haxe := fsck_axe hfsck
      obtain ⟨⟨found, bas⟩, st₂, hspot, hnext⟩ := bind_eq_ok.mp hnext
      obtain ⟨hstep, hbas, hsome, hfound⟩ := spot_step hspot hview hst
      cases found with
      | none =>
        obtain ⟨b, rfl⟩ := Option.ne_none_iff_exists'.mp (hsome rfl)
        obtain rfl := hbas bat pay rfl b rfl
        obtain ⟨hstep', hfound'⟩ := mine_step haxe hnext hstep.view hstep.ne_nil
        exact ⟨hstep.trans hstep', hfound'⟩
      | some loc =>
        obtain ⟨⟨⟩, st₃, haudit, hpure⟩ := bind_eq_ok.mp hnext
        obtain ⟨rfl, rfl⟩ := Prod.mk.inj (pure_eq_ok.mp hpure)
        have hstep' := audit_step haxe haudit hstep.view hstep.ne_nil
        refine ⟨hstep.trans hstep', fun loc' hloc' ↦ ?_⟩
        cases hloc'
        exact (hfound loc rfl).mono hstep'

end Vere.Noun.Jets
