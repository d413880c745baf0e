import Vere.Noun.JetsKept

/-!
# Rebuilding the warm state

`u3j_ream()` builds the activations of all registered locations again, parents before children, and
goes on until it is done. That it ends depends on every location's parent being registered
(`Closed`), and that holds as long as no registration has dropped a location, as in runs on calm
cores (`dashboard_rebuilt`).

A search reads the registry of a battery before it looks for the parents of the core, and writes it
back with the new location when it has found them. When a parent search in between adds another
location for the same battery, this one is dropped, with its own children still registered below it
(`lost_parent`), and then the loop does not end.
-/

set_option autoImplicit false

namespace Vere.Noun.Jets

open Vere.Lib (Layers.find)
open Relation (ReflTransGen)
open Vere.Noun.Nock (slot)

variable {D : Dash} {st st' : State} {loc pel : Loc} {bat : Noun}
  {war_p war_p' : AList fun _ : Loc ↦ Act}

/-! ### All roads -/

/-- The invariant of a road and of the ones it is nested in. -/
def Inv (D : Dash) (st : State) : Prop :=
  ∀ part, part <:+ st → part ≠ [] → View D part ∧ (Kept part → Closed part)

theorem Inv.step (hinv : Inv D st) (hstep : Step D st st') : Inv D st' := by
  obtain ⟨hview, hclosed⟩ : View D st ∧ (Kept st → Closed st) := by
    obtain ⟨road, road', rest, rfl, rfl⟩ := hstep.outer
    exact hinv _ (List.suffix_refl _) nofun
  intro part hpart hne
  obtain rfl | hin : part = st' ∨ part <:+ st := by
    obtain ⟨road, road', rest, rfl, rfl⟩ := hstep.outer
    exact (List.suffix_cons_iff.mp hpart).imp_right fun h ↦ h.trans (List.suffix_cons road rest)
  · exact ⟨hstep.view, fun hkept ↦ hstep.closed hkept (hclosed (hstep.kept hkept))⟩
  · exact hinv part hin hne

/-- Roads on which the same is found. -/
theorem view_of_same (hcold : ∀ bat, findCold st' bat = findCold st bat)
    (hwarm : ∀ loc, Warm st loc → Warm st' loc)
    (hknown : ∀ bat loc, Known D st bat loc → Known D st' bat loc) (hkept : Kept st' → Kept st)
    (hview : View D st ∧ (Kept st → Closed st)) : View D st' ∧ (Kept st' → Closed st') := by
  have hreg : ∀ bat loc, RegAt st' bat loc ↔ RegAt st bat loc := fun bat loc ↦ by
    rw [RegAt, RegAt, hcold bat]
  refine ⟨⟨fun bat bar hbar ↦ ?_, fun bat loc h ↦ ?_, fun bat loc h ↦ ?_⟩,
    fun h bat loc hloc pel hpel ↦ ?_⟩
  · exact hview.1.ok bat bar ((hcold bat).symm.trans hbar)
  · exact hknown bat loc (hview.1.known bat loc ((hreg bat loc).mp h))
  · exact hwarm loc (hview.1.warm bat loc ((hreg bat loc).mp h))
  · obtain ⟨bat', hbat'⟩ := hview.2 (hkept h) bat loc ((hreg bat loc).mp hloc) pel hpel
    exact ⟨bat', (hreg bat' pel).mpr hbat'⟩

theorem inv_leap (hinv : Inv D st) (hne : st ≠ []) : Inv D (Road.new :: st) := by
  intro part hpart hpne
  obtain rfl | hin := List.suffix_cons_iff.mp hpart
  · refine view_of_same (fun bat ↦ ?_) (fun loc h ↦ ?_) (fun bat loc h ↦ ?_) (fun h road hroad ↦ ?_)
      (hinv st (List.suffix_refl st) hne)
    · exact Vere.Lib.Layers.find_empty
    · rw [Warm, findWarm, List.map_cons, Road.new, Vere.Lib.Layers.find_empty]
      exact h
    · refine h.imp_right ?_
      rintro ⟨road, hroad, hmem⟩
      exact ⟨road, List.mem_cons_of_mem _ hroad, hmem⟩
    · exact h road (List.mem_cons_of_mem _ hroad)
  · exact hinv part hin hpne

theorem inv_reap {inner outer : Road} {rest : State} (hinv : Inv D (inner :: outer :: rest)) :
    Inv D (reap inner outer :: rest) := by
  intro part hpart hpne
  obtain rfl | hin := List.suffix_cons_iff.mp hpart
  · refine view_of_same (fun bat ↦ ?_) (fun loc h ↦ ?_) (fun bat loc h ↦ ?_) (fun h road hroad ↦ ?_)
      (hinv (inner :: outer :: rest) (List.suffix_refl _) (List.cons_ne_nil _ _))
    · exact Vere.Lib.Layers.find_union
    · rw [Warm, findWarm, List.map_cons, reap, Vere.Lib.Layers.find_union]
      exact h
    · refine h.imp_right ?_
      rintro ⟨road, hroad, hmem⟩
      obtain rfl | hroad := List.mem_cons.mp hroad
      · exact ⟨_, List.mem_cons_self, List.mem_append_left _ hmem⟩
      obtain rfl | hroad := List.mem_cons.mp hroad
      · exact ⟨_, List.mem_cons_self, List.mem_append_right _ hmem⟩
      · exact ⟨road, List.mem_cons_of_mem _ hroad, hmem⟩
    · have hhead : (inner.lost || outer.lost) = false := h (reap inner outer) List.mem_cons_self
      rw [Bool.or_eq_false_iff] at hhead
      obtain rfl | hroad := List.mem_cons.mp hroad
      · exact hhead.1
      obtain rfl | hroad := List.mem_cons.mp hroad
      · exact hhead.2
      · exact h road (List.mem_cons_of_mem _ hroad)
  · exact hinv part
      (hin.trans ((List.suffix_cons outer rest).trans (List.suffix_cons inner _))) hpne

/-! ### The loop -/

/-- What a turn does: an entry is done, its parent being warm, or left for later; entries whose
parent is warm at the beginning are done. -/
structure Turn (lop : List (Loc × Loc)) (war_p : AList fun _ : Loc ↦ Act) (rem : List (Loc × Loc))
    (war_p' : AList fun _ : Loc ↦ Act) (rem' : List (Loc × Loc)) : Prop where
  mono : ∀ l ∈ war_p, l ∈ war_p'
  done : ∀ entry ∈ lop, entry.1 ∈ war_p' ∧ entry.2 ∈ war_p' ∨ entry ∈ rem'
  left : ∀ entry ∈ rem', entry ∈ lop ∨ entry ∈ rem
  keep : ∀ entry ∈ rem, entry ∈ rem'
  from_lop : ∀ l ∈ war_p', l ∈ war_p ∨ ∃ entry ∈ lop, entry.2 = l
  length : rem'.length ≤ lop.length + rem.length
  shorter : (∃ entry ∈ lop, entry.1 ∈ war_p) → rem'.length < lop.length + rem.length

theorem reamTurn_turn (lop rem : List (Loc × Loc)) (war_p : AList fun _ : Loc ↦ Act) :
    Turn lop war_p rem (reamTurn D lop war_p rem).1 (reamTurn D lop war_p rem).2 := by
  induction lop generalizing war_p rem with
  | nil => exact ⟨fun _ h ↦ h, nofun, fun _ h ↦ Or.inr h, fun _ h ↦ h,
    fun _ h ↦ Or.inl h, by simp [reamTurn], nofun⟩
  | cons entry lop ih =>
    obtain ⟨pel, loc⟩ := entry
    rw [reamTurn]
    cases hpac : war_p.lookup pel with
    | none =>
      dsimp only
      have hturn := ih ((pel, loc) :: rem) war_p
      have hcold : pel ∉ war_p := AList.lookup_eq_none.mp hpac
      refine ⟨hturn.mono, fun e he ↦ ?_, fun e he ↦ ?_,
        fun e he ↦ hturn.keep e (List.mem_cons_of_mem _ he), fun l hl ↦ ?_, ?_,
        fun ⟨e, he, hwarm⟩ ↦ ?_⟩
      · obtain rfl | he := List.mem_cons.mp he
        · exact Or.inr (hturn.keep _ List.mem_cons_self)
        · exact hturn.done e he
      · obtain he | he := hturn.left e he
        · exact Or.inl (List.mem_cons_of_mem _ he)
        · obtain rfl | he := List.mem_cons.mp he
          · exact Or.inl List.mem_cons_self
          · exact Or.inr he
      · exact (hturn.from_lop l hl).imp_right fun ⟨e, he, hloc⟩ ↦
          ⟨e, List.mem_cons_of_mem _ he, hloc⟩
      · have hlength := hturn.length
        simp only [List.length_cons] at hlength ⊢
        omega
      · obtain rfl | he := List.mem_cons.mp he
        · exact absurd hwarm hcold
        · have hlength := hturn.shorter ⟨e, he, hwarm⟩
          simp only [List.length_cons] at hlength ⊢
          omega
    | some pac =>
      dsimp only
      have hturn := ih rem (war_p.insert loc (actBelow D (some pac) loc))
      have hwarm : pel ∈ war_p := AList.lookup_isSome.mp (by rw [hpac]; rfl)
      have hmono : ∀ l ∈ war_p, l ∈
        (reamTurn D lop (war_p.insert loc (actBelow D (some pac) loc)) rem).1 :=
        fun l hl ↦ hturn.mono l ((AList.mem_insert _).mpr (Or.inr hl))
      have hlength := hturn.length
      refine ⟨hmono, fun e he ↦ ?_, fun e he ↦ ?_, hturn.keep, fun l hl ↦ ?_, ?_, fun _ ↦ ?_⟩
      · obtain rfl | he := List.mem_cons.mp he
        · exact Or.inl ⟨hmono pel hwarm, hturn.mono loc ((AList.mem_insert _).mpr (Or.inl rfl))⟩
        · exact hturn.done e he
      · exact (hturn.left e he).imp_left (List.mem_cons_of_mem _)
      · obtain hl | ⟨e, he, hloc⟩ := hturn.from_lop l hl
        · obtain rfl | hl := (AList.mem_insert _).mp hl
          · exact Or.inr ⟨_, List.mem_cons_self, rfl⟩
          · exact Or.inl hl
        · exact Or.inr ⟨e, List.mem_cons_of_mem _ he, hloc⟩
      · rw [List.length_cons]
        omega
      · rw [List.length_cons]
        omega

variable {fuel : ℕ}

/-- When the loop ends, every entry is in the warm state. -/
theorem reamLoop_warm {lop : List (Loc × Loc)} (hloop : reamLoop D fuel lop war_p = some war_p') :
    (∀ l ∈ war_p, l ∈ war_p') ∧ ∀ entry ∈ lop, entry.2 ∈ war_p' := by
  induction fuel generalizing lop war_p with
  | zero =>
    cases lop with
    | nil =>
      cases hloop
      exact ⟨fun _ h ↦ h, nofun⟩
    | cons _ _ => cases hloop
  | succ fuel ih =>
    cases lop with
    | nil =>
      cases hloop
      exact ⟨fun _ h ↦ h, nofun⟩
    | cons entry lop =>
      have hturn := @reamTurn_turn D (entry :: lop) [] war_p
      obtain ⟨hmono, hrest⟩ := ih hloop
      refine ⟨fun l hl ↦ hmono l (hturn.mono l hl), fun e he ↦ ?_⟩
      obtain ⟨-, hdone⟩ | hleft := hturn.done e he
      · exact hmono _ hdone
      · exact hrest e hleft

/-- Every parent is warm or is going to be. -/
def Rooted (lop : List (Loc × Loc)) (war_p : AList fun _ : Loc ↦ Act) : Prop :=
  ∀ entry ∈ lop, entry.2.pel = some entry.1 ∧ (entry.1 ∈ war_p ∨ ∃ above ∈ lop, above.2 = entry.1)

/-- Induction from a location's parent to the location. -/
theorem Loc.up {P : Loc → Prop} (hup : ∀ loc : Loc, (∀ pel, loc.pel = some pel → P pel) → P loc)
    (loc : Loc) : P loc := by
  induction loc with
  | root sat nam huc => exact hup _ nofun
  | fast pel nam huc ih =>
    refine hup _ fun pel' hpel ↦ ?_
    cases hpel
    exact ih
  | slow axe pel nam huc ih =>
    refine hup _ fun pel' hpel ↦ ?_
    cases hpel
    exact ih

/-- Going up from any entry there is one whose parent is warm. -/
theorem Rooted.exists_warm {lop : List (Loc × Loc)} (hrooted : Rooted lop war_p) {entry : Loc × Loc}
    (hentry : entry ∈ lop) :
    ∃ entry ∈ lop, entry.1 ∈ war_p := by
  have hup : ∀ loc pel, (pel, loc) ∈ lop → ∃ entry ∈ lop, entry.1 ∈ war_p := by
    intro loc
    induction loc using Loc.up with
    | hup loc ih =>
      intro pel hin
      obtain ⟨hpel, hwarm | ⟨above, habove, rfl⟩⟩ := hrooted (pel, loc) hin
      · exact ⟨_, hin, hwarm⟩
      · exact ih above.2 hpel above.1 habove
  exact hup entry.2 entry.1 hentry

/-- The loop ends where every parent is there. -/
theorem reamLoop_ends {fuel : ℕ} {lop : List (Loc × Loc)} (hrooted : Rooted lop war_p)
    (hfuel : lop.length ≤ fuel) :
    ∃ war_p', reamLoop D fuel lop war_p = some war_p' := by
  induction fuel generalizing lop war_p with
  | zero =>
    rw [Nat.le_zero, List.length_eq_zero_iff] at hfuel
    subst hfuel
    exact ⟨war_p, rfl⟩
  | succ fuel ih =>
    cases lop with
    | nil => exact ⟨war_p, rfl⟩
    | cons entry lop =>
      have hturn := @reamTurn_turn D (entry :: lop) [] war_p
      have hshorter := hturn.shorter (hrooted.exists_warm List.mem_cons_self)
      refine ih (fun e he ↦ ?_) ?_
      · obtain hin | hin := hturn.left e he
        · obtain ⟨hpel, hwarm | ⟨above, habove, hat⟩⟩ := hrooted e hin
          · exact ⟨hpel, Or.inl (hturn.mono _ hwarm)⟩
          · refine ⟨hpel, (hturn.done above habove).imp (fun hdone ↦ ?_) fun hleft ↦
              ⟨above, hleft, hat⟩⟩
            rw [← hat]
            exact hdone.2
        · cases hin
      · simp only [List.length_nil, Nat.add_zero, List.length_cons] at hshorter hfuel
        omega

/-- It does not end where a parent is missing. -/
theorem reamLoop_stuck {lop : List (Loc × Loc)} (hentry : (pel, loc) ∈ lop) (hcold : pel ∉ war_p)
    (hmissing : ∀ entry ∈ lop, entry.2 ≠ pel) : reamLoop D fuel lop war_p = none := by
  induction fuel generalizing lop war_p with
  | zero =>
    cases lop with
    | nil => cases hentry
    | cons _ _ => rfl
  | succ fuel ih =>
    cases lop with
    | nil => cases hentry
    | cons entry lop =>
      have hturn := @reamTurn_turn D (entry :: lop) [] war_p
      have hcold' : pel ∉ (reamTurn D (entry :: lop) war_p []).1 := by
        intro hin
        obtain hin | ⟨e, he, hat⟩ := hturn.from_lop pel hin
        · exact hcold hin
        · exact hmissing e he hat
      refine ih ?_ hcold' fun e he ↦ ?_
      · exact (hturn.done _ hentry).resolve_left fun hdone ↦ hcold' hdone.1
      · exact hmissing e ((hturn.left e he).resolve_right nofun)

/-! ### The home road -/

theorem Reg.mem_ancestors {reg : Reg} {entry : Loc × Loc} :
    entry ∈ reg.ancestors ↔ ∃ par ∈ reg.pas, par.2.lookup entry.1 = some entry.2 := by
  simp only [Reg.ancestors, List.mem_flatMap, List.mem_map]
  constructor
  · rintro ⟨par, hpar, ⟨pel, loc⟩, hmem, rfl⟩
    exact ⟨par, hpar, AList.mem_lookup_iff.mpr hmem⟩
  · rintro ⟨par, hpar, hlookup⟩
    exact ⟨par, hpar, ⟨entry.1, entry.2⟩, AList.mem_lookup_iff.mp hlookup, rfl⟩

theorem mem_insert_all {l : Loc} (entries : List (Sigma fun _ : Noun ↦ Loc)) :
    l ∈ entries.foldl (fun war_p entry ↦ war_p.insert entry.2 (actBelow D none entry.2)) war_p ↔
      l ∈ war_p ∨ ∃ entry ∈ entries, entry.2 = l := by
  induction entries generalizing war_p with
  | nil => simp
  | cons entry entries ih =>
    rw [List.foldl_cons, ih, AList.mem_insert, List.exists_mem_cons_iff, or_assoc, eq_comm (a := l)]
    exact or_left_comm

theorem mem_reamRoots {l : Loc} (regs : List Reg) :
    l ∈ regs.foldl (reamRoots D) war_p ↔ l ∈ war_p ∨ ∃ reg ∈ regs, ∃ sat, reg.rut.lookup sat =
      some l := by
  induction regs generalizing war_p with
  | nil => simp
  | cons reg regs ih =>
    have hhead : l ∈ reamRoots D war_p reg ↔ l ∈ war_p ∨ ∃ sat, reg.rut.lookup sat = some l := by
      rw [reamRoots, mem_insert_all, ← mem_values, List.mem_map]
    rw [List.foldl_cons, ih, List.exists_mem_cons_iff, hhead, or_assoc]

variable {home home' : Road}

theorem findCold_home {bar : ℕ × Reg} :
    findCold [home] bat = some bar ↔ home.cod_p.lookup bat = some bar := by
  rw [findCold, List.map_singleton, Vere.Lib.Layers.find_cons, Vere.Lib.Layers.find_nil,
    Option.or_none]

theorem findCold_congr (hcod : home'.cod_p = home.cod_p) :
    findCold [home'] bat = findCold [home] bat := by
  rw [findCold, findCold, List.map_singleton, List.map_singleton, hcod]

theorem regAt_congr (hcod : home'.cod_p = home.cod_p) :
    RegAt [home'] bat loc ↔ RegAt [home] bat loc := by
  rw [RegAt, RegAt, findCold_congr hcod]

theorem warm_home : Warm [home] loc ↔ loc ∈ home.war_p := by
  rw [Warm, findWarm, List.map_singleton, Vere.Lib.Layers.find_cons, Vere.Lib.Layers.find_nil,
    Option.or_none, AList.lookup_isSome]

/-- The registries of the home road. -/
def Road.regs (home : Road) : List Reg := home.cod_p.entries.map fun entry ↦ entry.2.2

theorem regAt_home : (∃ bat, RegAt [home] bat loc) ↔ ∃ reg ∈ home.regs, loc ∈ reg.locs := by
  simp only [RegAt, findCold_home, Road.regs, List.mem_map]
  constructor
  · rintro ⟨bat, bar, hbar, hin⟩
    exact ⟨bar.2, ⟨⟨bat, bar⟩, AList.mem_lookup_iff.mp hbar, rfl⟩, hin⟩
  · rintro ⟨reg, ⟨⟨bat, bar⟩, hmem, rfl⟩, hin⟩
    exact ⟨bat, bar, AList.mem_lookup_iff.mpr hmem, hin⟩

/-- What the loop of `_cj_ream()` starts with. -/
def Road.roots (D : Dash) (home : Road) : AList fun _ : Loc ↦ Act := home.regs.foldl (reamRoots D) ∅

/-- What it has to do. -/
def Road.lop (home : Road) : List (Loc × Loc) := home.regs.flatMap Reg.ancestors

theorem mem_roots_or_lop (hreg : RegAt [home] bat loc) :
    loc ∈ home.roots D ∨ ∃ entry ∈ home.lop, entry.2 = loc := by
  obtain ⟨reg, hmem, hin⟩ := regAt_home.mp ⟨bat, hreg⟩
  obtain hroot | ⟨par, hpar, pel, hlookup⟩ := Reg.mem_locs.mp hin
  · exact Or.inl ((mem_reamRoots home.regs).mpr (Or.inr ⟨reg, hmem, hroot⟩))
  · exact Or.inr ⟨(pel, loc), List.mem_flatMap.mpr ⟨reg, hmem,
      Reg.mem_ancestors.mpr ⟨par, hpar, hlookup⟩⟩, rfl⟩

/-- Afterwards every location is warm. -/
theorem ream_warm (hream : ream D fuel home = some home') (hreg : RegAt [home] bat loc) :
    Warm [home'] loc := by
  obtain ⟨war_p, hloop, rfl⟩ := Option.map_eq_some_iff.mp hream
  obtain ⟨hmono, hdone⟩ := reamLoop_warm hloop
  rw [warm_home]
  obtain hroot | ⟨entry, hentry, rfl⟩ := @mem_roots_or_lop D loc bat home hreg
  · exact hmono loc hroot
  · exact hdone entry hentry

theorem ream_kept (hream : ream D fuel home = some home') :
    home'.cod_p = home.cod_p ∧ home'.mined = home.mined ∧ home'.lost = home.lost := by
  obtain ⟨war_p, -, rfl⟩ := Option.map_eq_some_iff.mp hream
  exact ⟨rfl, rfl, rfl⟩

theorem rooted_home (hview : View D [home]) (hclosed : Closed [home]) :
    Rooted home.lop (home.roots D) := by
  intro entry hentry
  obtain ⟨reg, hmem, hanc⟩ := List.mem_flatMap.mp hentry
  obtain ⟨par, hpar, hlookup⟩ := Reg.mem_ancestors.mp hanc
  obtain ⟨bat, hreg⟩ :=
    regAt_home.mpr ⟨reg, hmem, Reg.mem_locs.mpr (Or.inr ⟨par, hpar, entry.1, hlookup⟩)⟩
  obtain ⟨⟨bat', bar⟩, hbar, rfl⟩ := List.mem_map.mp hmem
  have hok := (hview.ok bat' bar (findCold_home.mpr (AList.mem_lookup_iff.mpr hbar))).1
  have hpel := (hok.pars par hpar entry.1 entry.2 hlookup).2
  obtain ⟨bat'', hreg'⟩ := hclosed bat entry.2 hreg entry.1 hpel
  exact ⟨hpel, mem_roots_or_lop hreg'⟩

/-- Where a parent is missing, it is in no registry, and the loop does not end. -/
theorem missing_parent (hentry : (pel, loc) ∈ home.lop) (hcold : pel ∉ home.roots D)
    (hmissing : ∀ entry ∈ home.lop, entry.2 ≠ pel) :
    (∃ bat, RegAt [home] bat loc ∧ ∀ bat', ¬RegAt [home] bat' pel) ∧
    ∀ fuel, ream D fuel home = none := by
  obtain ⟨reg, hreg, hanc⟩ := List.mem_flatMap.mp hentry
  obtain ⟨par, hpar, hlookup⟩ := Reg.mem_ancestors.mp hanc
  obtain ⟨bat, hat⟩ :=
    regAt_home.mpr ⟨reg, hreg, Reg.mem_locs.mpr (Or.inr ⟨par, hpar, pel, hlookup⟩)⟩
  refine ⟨⟨bat, hat, fun bat' hat' ↦ ?_⟩, fun fuel ↦
    Option.map_eq_none_iff.mpr (reamLoop_stuck hentry hcold hmissing)⟩
  obtain hroot | ⟨entry, hin, hsame⟩ := @mem_roots_or_lop D _ _ _ hat'
  · exact hcold hroot
  · exact hmissing entry hin hsame

theorem inv_ream (hinv : Inv D [home]) (hream : ream D fuel home = some home') : Inv D [home'] := by
  intro part hpart hne
  obtain rfl : part = [home'] := by
    obtain hself | hin := List.suffix_cons_iff.mp hpart
    · exact hself
    · exact absurd (List.suffix_nil.mp hin) hne
  obtain ⟨hview, hclosed⟩ := hinv [home] (List.suffix_refl _) nofun
  obtain ⟨hcod, hmined, hlost⟩ := ream_kept hream
  refine ⟨⟨fun bat bar hbar ↦ ?_, fun bat loc h ↦ ?_, fun bat loc h ↦ ?_⟩,
    fun h bat loc hloc pel hpel ↦ ?_⟩
  · exact hview.ok bat bar ((findCold_congr hcod).symm.trans hbar)
  · have hknown := hview.known bat loc ((regAt_congr hcod).mp h)
    simp only [Known, List.mem_singleton, exists_eq_left] at hknown ⊢
    rwa [hmined]
  · exact ream_warm hream ((regAt_congr hcod).mp h)
  · have hkept : Kept [home] := by
      simp only [Kept, List.mem_singleton, forall_eq] at h ⊢
      rwa [← hlost]
    obtain ⟨bat', hbat'⟩ := hclosed hkept bat loc ((regAt_congr hcod).mp hloc) pel hpel
    exact ⟨bat', (regAt_congr hcod).mpr hbat'⟩

/-! ### Runs -/

/-- In every run the invariant holds of the roads. -/
theorem Reaches.inv (hreach : Reaches D st) : st ≠ [] ∧ Inv D st := by
  induction hreach with
  | boot =>
    refine ⟨nofun, fun part hpart hne ↦ ?_⟩
    have hcold : ∀ bat, findCold [Road.new] bat = none := fun bat ↦ Vere.Lib.Layers.find_empty
    obtain rfl : part = [Road.new] := by
      obtain hself | hin := List.suffix_cons_iff.mp hpart
      · exact hself
      · exact absurd (List.suffix_nil.mp hin) hne
    have hnone : ∀ bat loc, ¬RegAt [Road.new] bat loc := by
      rintro bat loc ⟨bar, hbar, -⟩
      rw [hcold bat] at hbar
      cases hbar
    refine ⟨⟨fun bat bar hbar ↦ ?_, fun bat loc h ↦ absurd h (hnone bat loc),
      fun bat loc h ↦ absurd h (hnone bat loc)⟩, fun _ bat loc h ↦ absurd h (hnone bat loc)⟩
    rw [hcold bat] at hbar
    cases hbar
  | mine clu cor _ hmile ih =>
    have hstep := (mile_step hmile (ih.2 _ (List.suffix_refl _) ih.1).1 ih.1).1
    exact ⟨hstep.ne_nil, ih.2.step hstep⟩
  | spot cor _ hspot ih =>
    have hstep := (spot_step hspot (ih.2 _ (List.suffix_refl _) ih.1).1 ih.1).1
    exact ⟨hstep.ne_nil, ih.2.step hstep⟩
  | leap _ ih => exact ⟨nofun, inv_leap ih.2 ih.1⟩
  | love _ ih => exact ⟨nofun, inv_reap ih.2⟩
  | fall _ ih => exact ⟨nofun, fun part hpart ↦ ih.2 part (hpart.trans (List.suffix_cons _ _))⟩
  | ream _ hream ih => exact ⟨nofun, inv_ream ih.2 hream⟩

theorem Reaches.view (hreach : Reaches D st) : View D st :=
  (hreach.inv.2 st (List.suffix_refl st) hreach.inv.1).1

theorem Reaches.closed (hreach : Reaches D st) : Kept st → Closed st :=
  (hreach.inv.2 st (List.suffix_refl st) hreach.inv.1).2

/-! ### Assertions -/

variable {why : Bail}

theorem spot_asserts (hwhy : Assertion why) (cor : Noun) (bas : Option ℕ) (st : State) :
    Asserts why (spot D cor bas) st :=
  (spot_search cor bas).asserts hwhy st

theorem skipHints_ne (fol : Noun) : skipHints fol ≠ .error .unwarm := by
  fun_induction skipHints fol with
  | case3 hint fol ih => exact ih
  | _ => nofun

theorem chum_ne (nam : Noun) : chum nam ≠ .error .unwarm := by
  fun_cases chum nam <;> nofun

theorem fsck_ne (clu : Noun) : fsck clu ≠ .error .unwarm := by
  fun_cases fsck clu with
  | case1 p_clu q_clu r_clu =>
    intro h
    cases hchum : chum p_clu with
    | error why =>
      rw [hchum] at h
      cases h
      exact chum_ne p_clu hchum
    | ok nam =>
      rw [hchum] at h
      cases nam with
      | none => cases h
      | some nam =>
        dsimp only [bind, Except.bind] at h
        cases hskip : skipHints q_clu with
        | error why =>
          rw [hskip] at h
          cases h
          exact skipHints_ne q_clu hskip
        | ok q =>
          rw [hskip] at h
          cases q with
          | atom a => cases h
          | cell h' t =>
            dsimp only at h
            cases haxe : clueAxe h' t with
            | none =>
              rw [haxe] at h
              cases h
            | some axe =>
              rw [haxe] at h
              cases h
  | case2 => nofun

/-- The parent of a location that is registered is warm. -/
theorem parAct_ok {n pay : Noun} (hfits : Fits D st loc n pay) :
    ∃ pac, parAct loc st = .ok (pac, st) := by
  obtain ⟨nam, huc, rfl⟩ | ⟨pel, _, hpel, -, hparent⟩ := hfits
  · exact ⟨none, rfl⟩
  · obtain ⟨act, hact⟩ := Option.isSome_iff_exists.mp hparent.warm
    exact ⟨some act, parAct_eq_ok.mpr ⟨rfl, .inr ⟨pel, act, hpel, hact, rfl⟩⟩⟩

theorem mine_asserts (hwhy : Assertion why) {pay : Noun} {nam axe : ℕ} {huc : Hooks} {bas : ℕ}
    (haxe : axe < 2 ^ 31) (hview : View D st) (hst : st ≠ []) :
    Asserts why (mine D nam axe huc bat pay bas) st := by
  refine asserts_bind ((minx_search _ _ _ _).asserts hwhy st) fun found st₁ hminx ↦ ?_
  obtain ⟨hstep, hfound⟩ := minx_step haxe hminx hview hst
  cases found with
  | none => exact asserts_pure
  | some loc =>
    obtain ⟨-, hfits⟩ := hfound loc rfl
    refine asserts_bind (by rintro ⟨⟩) fun _ st₂ hget ↦ asserts_bind ?_ fun _ st₃ _ ↦
      asserts_bind ?_ fun _ _ _ ↦ asserts_put hwhy
    · cases hget
      obtain ⟨pac, hpac⟩ := parAct_ok hfits
      rw [Asserts, hpac]
      rintro ⟨⟩
    · obtain rfl | rfl := hwhy <;> cases st₃ <;> rintro ⟨⟩

theorem mile_asserts (hwhy : Assertion why) {clu : Noun} (hclu : fsck clu ≠ .error why) (cor : Noun)
    (hview : View D st) (hst : st ≠ []) : Asserts why (mile D clu cor) st := by
  cases cor with
  | atom a => exact asserts_pure
  | cell bat pay =>
    refine asserts_bind (asserts_lift hclu) fun cey st₁ hlift ↦ ?_
    obtain ⟨hfsck, rfl⟩ := lift_eq_ok.mp hlift
    obtain _ | ⟨nam, axe, huc⟩ := cey
    · exact asserts_pure
    have haxe := fsck_axe hfsck
    refine asserts_bind (spot_asserts hwhy _ _ _) fun found st₂ hspot ↦ ?_
    have hstep := (spot_step hspot hview hst).1
    obtain ⟨_ | loc, bas⟩ := found
    · exact mine_asserts hwhy haxe hstep.view hstep.ne_nil
    · refine asserts_bind ?_ fun _ _ _ ↦ asserts_pure
      rw [audit]
      split_ifs
      · exact asserts_bind ((minx_search _ _ _ _).asserts hwhy _) fun _ _ _ ↦ asserts_pure
      · exact asserts_pure

theorem cast_ne (hwhy : Assertion why) (loc : Loc) (cor : Noun) : cast loc cor ≠ .error why := by
  fun_induction cast loc cor with
  | case2 axe pel nam huc bat pay par hslot ih =>
    cases hcast : cast pel par with
    | error e =>
      intro h
      cases h
      exact ih hcast
    | ok fin_u => nofun
  | _ => obtain rfl | rfl := hwhy <;> nofun

theorem fine_ne (hwhy : Assertion why) (cor : Noun) (fin_u : Fink) :
    fine cor fin_u ≠ .error why := by
  unfold fine
  fun_induction fineFrom fin_u.sat fin_u.fis_u cor with
  | case5 _ _ _ _ _ _ _ ih => exact ih
  | _ => obtain rfl | rfl := hwhy <;> nofun

/-- A registration fails an assertion only where the clue does. -/
theorem riteMine_asserts (hwhy : Assertion why) (rit_u : Option (Noun × Fink)) {clu : Noun}
    (hclu : fsck clu ≠ .error why) (cor : Noun) (hreach : Reaches D st) :
    Asserts why (riteMine D rit_u clu cor) st := by
  refine asserts_bind (asserts_lift ?_) fun fin_o st₁ hlift ↦ ?_
  · obtain _ | ⟨old, fin_p⟩ := rit_u
    · nofun
    · rw [riteFine]
      split_ifs
      · exact fine_ne hwhy cor fin_p
      · nofun
  obtain ⟨-, rfl⟩ := lift_eq_ok.mp hlift
  cases fin_o with
  | true => exact asserts_pure
  | false =>
    refine asserts_bind (mile_asserts hwhy hclu cor hreach.view hreach.inv.1) fun found _ _ ↦ ?_
    cases found with
    | none => exact asserts_pure
    | some loc => exact asserts_bind (asserts_lift (cast_ne hwhy loc cor)) fun _ _ _ ↦ asserts_pure

/-! ### The main result -/

theorem nail_eq (hwarm : Warm st loc) : ∃ act, nail loc st = .ok (act, st) := by
  obtain ⟨act, hact⟩ := Option.isSome_iff_exists.mp hwarm
  exact ⟨act, nail_eq_ok.mpr ⟨hact, rfl⟩⟩

theorem reamLoop_mono {fuel' : ℕ} {lop : List (Loc × Loc)} (hle : fuel ≤ fuel')
    (hloop : reamLoop D fuel lop war_p = some war_p') :
    reamLoop D fuel' lop war_p = some war_p' := by
  induction fuel generalizing fuel' lop war_p with
  | zero =>
    cases lop with
    | nil =>
      cases hloop
      cases fuel' <;> rfl
    | cons _ _ => cases hloop
  | succ fuel ih =>
    cases lop with
    | nil =>
      cases hloop
      cases fuel' <;> rfl
    | cons entry lop =>
      cases fuel' with
      | zero => cases hle
      | succ fuel' =>
        have hrest := ih (Nat.le_of_succ_le_succ hle) hloop
        exact hrest

/-- The jet state is in order: lists of ancestors increase, parents are registered, and no program
fails an assertion on an entry of the warm state. -/
structure InOrder (D : Dash) (st : State) : Prop where
  sorted : ∀ bat bar, findCold st bat = some bar → (bar.2.pas.map Prod.fst).Pairwise (· < ·)
  closed : ∀ bat loc, RegAt st bat loc → ∀ pel, loc.pel = some pel → ∃ bat', RegAt st bat' pel
  mines : ∀ clu cor, mile D clu cor st ≠ .error .unwarm
  nails : ∀ bat loc, RegAt st bat loc → ∃ act, nail loc st = .ok (act, st)
  spots : ∀ cor loc bas st', spot D cor none st = .ok ((some loc, bas), st') →
    ∃ act, nail loc st' = .ok (act, st')

theorem Reaches.inOrder (hreach : Reaches D st) (hkept : Kept st) : InOrder D st where
  sorted bat bar hbar := (hreach.view.ok bat bar hbar).1.sorted
  closed := hreach.closed hkept
  mines clu cor := mile_asserts (Or.inl rfl) (fsck_ne clu) cor hreach.view hreach.inv.1
  nails bat loc hreg := nail_eq (hreach.view.warm bat loc hreg)
  spots _ loc _ _ hspot := nail_eq ((spot_step hspot hreach.view hreach.inv.1).2.2.2 loc rfl).warm

/-- A run on calm cores: every core that is looked for or registered is calm on the dashboard as it
is before the step. -/
inductive CalmRun (D : Dash) : State → Prop
  | boot : CalmRun D [Road.new]
  | mine {st st' : State} {loc : Option Loc} (clu cor : Noun) (hrun : CalmRun D st)
  (hcalm : CalmHint D st clu cor)
      (hmile : mile D clu cor st = .ok (loc, st')) : CalmRun D st'
  | spot {st st' : State} {found : Option Loc × Option ℕ} (cor : Noun) (hrun : CalmRun D st)
    (hcalm : Calm D st cor)
      (hspot : spot D cor none st = .ok (found, st')) : CalmRun D st'
  | leap {st : State} (hrun : CalmRun D st) : CalmRun D (Road.new :: st)
  | love {inner outer : Road} {rest : State} (hrun : CalmRun D (inner :: outer :: rest)) :
      CalmRun D (reap inner outer :: rest)
  | fall {inner outer : Road} {rest : State} (hrun : CalmRun D (inner :: outer :: rest)) :
      CalmRun D (outer :: rest)
  | ream {home home' : Road} {fuel : ℕ} (hrun : CalmRun D [home])
    (hream : ream D fuel home = some home') :
      CalmRun D [home']

theorem CalmRun.reaches (hrun : CalmRun D st) : Reaches D st := by
  induction hrun with
  | boot => exact Reaches.boot
  | mine clu cor _ _ hmile ih => exact ih.mine clu cor hmile
  | spot cor _ _ hspot ih => exact ih.spot cor hspot
  | leap _ ih => exact ih.leap
  | love _ ih => exact ih.love
  | fall _ ih => exact ih.fall
  | ream _ hream ih => exact ih.ream hream

/-- No location is dropped. -/
theorem CalmRun.kept (hrun : CalmRun D st) : Kept st := by
  induction hrun with
  | boot =>
    intro road hroad
    rw [List.mem_singleton.mp hroad]
    rfl
  | mine clu cor hrun hcalm hmile ih =>
    exact mile_kept hcalm hrun.reaches.view hrun.reaches.inv.1 ih hmile
  | spot cor hrun hcalm hspot ih =>
    exact (spot_calm hcalm (Mid.start hrun.reaches.view hrun.reaches.inv.1 ih) hspot).mid.kept
  | leap _ ih =>
    intro road hroad
    obtain rfl | hroad := List.mem_cons.mp hroad
    · rfl
    · exact ih road hroad
  | @love inner outer rest _ ih =>
    intro road hroad
    obtain rfl | hroad := List.mem_cons.mp hroad
    · have hinner := ih inner List.mem_cons_self
      have houter := ih outer (List.mem_cons_of_mem _ List.mem_cons_self)
      rw [reap, hinner, houter]
      rfl
    · exact ih road (List.mem_cons_of_mem _ (List.mem_cons_of_mem _ hroad))
  | fall _ ih => exact fun road hroad ↦ ih road (List.mem_cons_of_mem _ hroad)
  | @ream home home' _ _ hream ih =>
    intro road hroad
    rw [List.mem_singleton.mp hroad, (ream_kept hream).2.2]
    exact ih home List.mem_cons_self

/-- In every run on calm cores the jet state is in order, and `u3j_ream()` ends with an activation
for every location. -/
theorem dashboard_rebuilt (hrun : CalmRun D st) :
    InOrder D st ∧ ∀ home, st = [home] → ∃ home',
      (∀ fuel, home.lop.length ≤ fuel → ream D fuel home = some home') ∧ home'.cod_p = home.cod_p ∧
      (∀ bat loc, RegAt [home'] bat loc → Warm [home'] loc) ∧ InOrder D [home'] := by
  have hreach := hrun.reaches
  refine ⟨hreach.inOrder hrun.kept, ?_⟩
  rintro home rfl
  obtain ⟨war_p, hloop⟩ :=
    @reamLoop_ends D _ _ _ (rooted_home hreach.view (hreach.closed hrun.kept)) (le_refl _)
  have hream : ∀ fuel, home.lop.length ≤ fuel →
    ream D fuel home = some { home with war_p := war_p } :=
    fun fuel hfuel ↦ Option.map_eq_some_iff.mpr ⟨war_p, reamLoop_mono hfuel hloop, rfl⟩
  have hrun' := hrun.ream (hream _ (le_refl _))
  exact ⟨_, hream, rfl, hrun'.reaches.view.warm, hrun'.reaches.inOrder hrun'.kept⟩

/-! ### A location that is dropped -/

/-- What a program leaves. -/
def after {α : Type} (x : Except Bail (α × State)) : State :=
  match x with
  | .ok (_, st) => st
  | .error _ => []

theorem after_eq {α : Type} {x : Except Bail (α × State)} (hok : x.isOk) :
    ∃ a, x = .ok (a, after x) := by
  cases x with
  | error why => cases hok
  | ok p => exact ⟨p.1, rfl⟩

/-- A clue without hooks. -/
def clue (nam axe : ℕ) : Noun :=
  .cell (.atom nam) (.cell (if axe = 0 then .cell (.atom 1) (.atom 0)
    else .cell (.atom 0) (.atom axe)) (.atom 0))

namespace Dropped

/-- A root, whose battery is no program of the table. -/
def root (n : ℕ) : Loc := .root (.atom 140) n []

/-- The battery of the cores on the roots. -/
def battery : Noun := .cell (.atom 1) (.atom 1)

/-- The location that is going to be dropped, and the one that takes its place. -/
def core (n : ℕ) : Loc := .slow 7 (root n) 7 []

/-- The battery of a core on the first of them. -/
def childBat : Noun := .cell (.atom 1) (.atom 2)

/-- Its location. -/
def child : Loc := .slow 7 (core 1) 8 []

/-- A table with the three locations. -/
def dash : Dash where
  ray_u _ := ⟨[], []⟩
  dev_u := []
  hot_p bas :=
    if bas = 1 then some ⟨gust (some (gust none (core 1))) (core 2), ⟨0, ∅, [7]⟩⟩
    else if bas = 2 then some ⟨gust none child, ⟨0, ∅, [8, 7]⟩⟩
    else none
  hot_ok bas hot hhot := by
    have hplaced : ∀ pel nam, (Loc.slow 7 pel nam []).Placed :=
      fun _ _ _ ↦ show 1 ≤ 7 ∧ 7 < 2 ^ 31 by decide
    split_ifs at hhot
    · cases hhot
      refine gust_ok (fun reg hreg ↦ ?_) (hplaced _ _)
      cases hreg
      exact gust_ok (fun _ hnone ↦ by cases hnone) (hplaced _ _)
    · cases hhot
      exact gust_ok (fun _ hnone ↦ by cases hnone) (hplaced _ _)
  bash n := if n = battery then 1 else if n = childBat then 2 else 0
  hashless := false

/-- The core of a root. -/
def rootCore (n : ℕ) : Noun := .cell (.cell (.atom 0) (.atom n)) (.atom 140)

/-- A core of the battery with the first root in its sample, which a hint puts there. -/
def aside : Noun := .cell battery (.cell (rootCore 1) (.cell (.atom 0) (.atom 0)))

/-- A core on the second root, with a core of the child's battery in its sample. -/
def nested : Noun :=
  .cell battery
    (.cell
      (.cell childBat (.cell (.atom 0) (.cell battery
        (.cell (.cell (.atom 0) (.atom 0)) (rootCore 1))))) (rootCore 2))

/-- One root. -/
def oneRoot : State := after (mile dash (clue 1 0) (rootCore 1) [Road.new])

/-- Two roots. -/
def twoRoots : State := after (mile dash (clue 2 0) (rootCore 2) oneRoot)

/-- Two roots and a location at another axis. -/
def hinted : State := after (mile dash (clue 9 6) aside twoRoots)

/-- After the core has been looked for. -/
def dropped : State := after (spot dash nested none hinted)

/-- The hints and the search end well, and what is left of the registrations. -/
theorem dropped_computes : (mile dash (clue 1 0) (rootCore 1) [Road.new]).isOk = true ∧
    (mile dash (clue 2 0) (rootCore 2) oneRoot).isOk = true ∧
    (mile dash (clue 9 6) aside twoRoots).isOk = true ∧
    (spot dash nested none hinted).isOk = true ∧ dropped.length = 1 ∧
    core 1 ∉ (dropped.headD Road.new).roots dash ∧
    (∀ entry ∈ (dropped.headD Road.new).lop, entry.2 ≠ core 1) ∧
    (core 1, child) ∈ (dropped.headD Road.new).lop := by
  decide +kernel

theorem reaches_oneRoot : Reaches dash oneRoot := by
  obtain ⟨_, hmile⟩ := @after_eq _ (mile dash (clue 1 0) (rootCore 1) [Road.new]) dropped_computes.1
  exact Reaches.boot.mine _ _ hmile

theorem reaches_hinted : Reaches dash hinted := by
  obtain ⟨-, hsecond, hthird, -⟩ := dropped_computes
  obtain ⟨_, hsecond⟩ := @after_eq _ (mile dash (clue 2 0) (rootCore 2) oneRoot) hsecond
  obtain ⟨_, hthird⟩ := @after_eq _ (mile dash (clue 9 6) aside twoRoots) hthird
  exact (reaches_oneRoot.mine _ _ hsecond).mine _ _ hthird

theorem reaches_dropped : Reaches dash dropped := by
  obtain ⟨-, -, -, hspot, -⟩ := dropped_computes
  obtain ⟨_, hspot⟩ := @after_eq _ (spot dash nested none hinted) hspot
  exact reaches_hinted.spot _ hspot

theorem home_eq {st : State} (hlength : st.length = 1) : st = [st.headD Road.new] := by
  obtain ⟨home, rfl⟩ := List.length_eq_one_iff.mp hlength
  rfl

/-- The child is registered and its parent is not, and the loop does not end. -/
theorem lost_parent : ∃ D home, Reaches D [home] ∧
    (∃ bat loc pel, RegAt [home] bat loc ∧ loc.pel = some pel ∧ ∀ bat', ¬RegAt [home] bat' pel) ∧
    ∀ fuel, ream D fuel home = none := by
  obtain ⟨-, -, -, -, hlength, hcold, hmissing, hentry⟩ := dropped_computes
  have hhome := @home_eq dropped hlength
  have hreach : Reaches dash [dropped.headD Road.new] := by
    rw [← hhome]
    exact reaches_dropped
  obtain ⟨⟨bat, hreg, hmissing'⟩, hstuck⟩ := missing_parent hentry hcold hmissing
  exact ⟨dash, dropped.headD Road.new, hreach, ⟨bat, child, core 1, hreg, rfl, hmissing'⟩, hstuck⟩

/-- A core on the first root. -/
def plain : Noun := .cell battery (.cell (.cell (.atom 0) (.atom 0)) (rootCore 1))

/-- After it has been found in the table. -/
def kept : State := after (spot dash plain none oneRoot)

/-- A clue for a root. -/
def rootClue : Except Bail (Option (ℕ × ℕ × Hooks)) → Bool
  | .ok (some (_, axe, _)) => axe = 0
  | _ => false

/-- The search ends well, and what is registered before and after it. -/
theorem kept_computes : (spot dash plain none oneRoot).isOk = true ∧ kept.length = 1 ∧
    (kept.headD Road.new).lop.length = 1 ∧ (∃ reg ∈ (kept.headD Road.new).regs, core 1 ∈ reg.locs) ∧
    (findCold oneRoot battery).isNone = true ∧
    (findCold oneRoot (.cell (.atom 0) (.atom 1))).map (fun bar ↦ bar.2.locs) = some [root 1] ∧
    rootClue (fsck (clue 1 0)) = true := by
  decide +kernel

/-- Cores with a battery that nothing is known of are calm. -/
theorem calm_of_unlisted {pay : Noun} (hnone : ∀ loc, ¬Listed D st bat loc) :
    Calm D st (.cell bat pay) := by
  have hunder : ∀ par, ¬Under D st (.cell bat pay) par := by
    rintro par ⟨bat', pay', loc, axe, pel, hcor, hlisted, -⟩
    cases hcor
    exact hnone loc hlisted
  have hpart : ∀ p, ReflTransGen (Under D st) (.cell bat pay) p → p = .cell bat pay := by
    intro p hp
    obtain rfl | ⟨par, hpar, -⟩ := Relation.ReflTransGen.cases_head hp
    · rfl
    · exact absurd hpar (hunder par)
  have hat : ∀ loc, ¬At D st (.cell bat pay) loc := by
    intro loc hloc
    cases hloc with
    | root hlisted => exact hnone loc hlisted
    | parent hlisted => exact hnone loc hlisted
  constructor
  · intro bat' pay' hp loc loc' hloc
    rw [hpart _ hp] at hloc
    exact absurd hloc (hat loc)
  · intro bat' pay' pay'' hp _ loc loc' hloc
    rw [hpart _ hp] at hloc
    exact absurd hloc (hat loc)

/-- The locations of the batteries, before the search. -/
theorem listed_oneRoot : (Listed dash oneRoot (.cell (.atom 0) (.atom 1)) loc → loc = root 1) ∧
    (Listed dash oneRoot battery loc → loc = core 1 ∨ loc = core 2) := by
  obtain ⟨-, -, -, -, hbattery, hroot, -⟩ := kept_computes
  constructor
  · rintro (⟨bar, hbar, hin⟩ | ⟨-, hot, hhot, -⟩)
    · rw [hbar] at hroot
      rw [show bar.2.locs = [root 1] from Option.some.inj hroot] at hin
      exact List.mem_singleton.mp hin
    · cases hhot
  · rintro (⟨bar, hbar, -⟩ | ⟨-, hot, hhot, hin⟩)
    · rw [hbar] at hbattery
      cases hbattery
    · cases hhot
      obtain rfl | ⟨reg, hreg, hin⟩ := mem_locs_gust.2 loc hin
      · exact Or.inr rfl
      · cases hreg
        obtain rfl | ⟨reg, hreg, -⟩ := mem_locs_gust.2 loc hin
        · exact Or.inl rfl
        · cases hreg

/-- The core on the root is calm: it is at one location, and its parent has another battery. -/
theorem calm_plain : Calm dash oneRoot plain := by
  have hroot : ∀ loc, At dash oneRoot (rootCore 1) loc → loc = root 1 := by
    intro loc hat
    cases hat with
    | root hlisted => exact listed_oneRoot.1 hlisted
    | parent hlisted => exact listed_oneRoot.1 hlisted
  have hplain : ∀ loc, At dash oneRoot plain loc → loc = core 1 := by
    intro loc hat
    have hwhich : ∀ {axe : ℕ} {pel : Loc}, Listed dash oneRoot battery loc →
        loc.place = .inr (axe, pel) → axe = 7 := by
      intro axe pel hlisted hplace
      obtain rfl | rfl := listed_oneRoot.2 hlisted <;>
        exact (Prod.mk.inj (Sum.inr.inj hplace)).1.symm
    cases hat with
    | root hlisted hplace => obtain rfl | rfl := listed_oneRoot.2 hlisted <;> cases hplace
    | parent hlisted hplace hslot hpar =>
      obtain rfl := hwhich hlisted hplace
      cases hslot
      obtain rfl := hroot _ hpar
      obtain rfl | rfl := listed_oneRoot.2 hlisted
      · rfl
      · cases hplace
  have hparts : ∀ p par, p = plain ∨ p = rootCore 1 → Under dash oneRoot p par → p = plain ∧
      par = rootCore 1 := by
    rintro p par hp ⟨bat, pay, loc, axe, pel, hcor, hlisted, hplace, hslot⟩
    obtain rfl | rfl := hp
    · cases hcor
      obtain rfl | rfl := listed_oneRoot.2 hlisted <;> cases hplace <;> cases hslot <;>
        exact ⟨rfl, rfl⟩
    · cases hcor
      obtain rfl := listed_oneRoot.1 hlisted
      cases hplace
  have hpart : ∀ p, ReflTransGen (Under dash oneRoot) plain p → p = plain ∨ p = rootCore 1 := by
    intro p hp
    induction hp with
    | refl => exact Or.inl rfl
    | tail _ hunder ih => exact Or.inr (hparts _ _ ih hunder).2
  constructor
  · intro bat pay hp loc loc' hloc hloc'
    refine Or.inr ?_
    obtain hcor | hcor := hpart _ hp
    · rw [hcor] at hloc hloc'
      rw [hplain loc hloc, hplain loc' hloc']
    · rw [hcor] at hloc hloc'
      rw [hroot loc hloc, hroot loc' hloc']
  · intro bat pay pay' hp hbelow
    obtain ⟨par, hunder, hrest⟩ := Relation.TransGen.head'_iff.mp hbelow
    obtain ⟨hcor, rfl⟩ := hparts _ _ (hpart _ hp) hunder
    obtain hself | ⟨par, hunder', -⟩ := Relation.ReflTransGen.cases_head hrest
    · cases hcor
      cases hself
    · cases (hparts _ _ (Or.inr rfl) hunder').1

theorem calmRun_kept : CalmRun dash kept := by
  obtain ⟨hspot, -, -, -, -, -, haxe⟩ := kept_computes
  have hcalm : CalmHint dash [Road.new] (clue 1 0) (rootCore 1) := by
    refine ⟨calm_of_unlisted ?_, fun nam axe huc par hfsck hslot ↦ ?_⟩
    · rintro loc (⟨bar, hbar, -⟩ | ⟨-, hot, hhot, -⟩)
      · rw [show findCold [Road.new] _ = none from Vere.Lib.Layers.find_empty] at hbar
        cases hbar
      · cases hhot
    · rw [hfsck] at haxe
      obtain rfl : axe = 0 := of_decide_eq_true haxe
      cases hslot
  obtain ⟨_, hmile⟩ := @after_eq _ (mile dash (clue 1 0) (rootCore 1) [Road.new]) dropped_computes.1
  obtain ⟨_, hspot⟩ := @after_eq _ (spot dash plain none oneRoot) hspot
  exact (CalmRun.boot.mine _ _ hcalm hmile).spot _ calm_plain hspot

theorem kept_eq : kept = [kept.headD Road.new] := home_eq kept_computes.2.1

theorem kept_length : (kept.headD Road.new).lop.length = 1 := kept_computes.2.2.1

theorem kept_reg : ∃ bat, RegAt [kept.headD Road.new] bat (core 1) :=
  regAt_home.mpr kept_computes.2.2.2.1

theorem dashboard_rebuilt_kept :
    ∃ home', (∀ fuel, 1 ≤ fuel → ream dash fuel (kept.headD Road.new) = some home') ∧
    Warm [home'] (core 1) := by
  obtain ⟨home', hends, hcod, hwarm, -⟩ := (dashboard_rebuilt calmRun_kept).2 _ kept_eq
  rw [kept_length] at hends
  obtain ⟨bat, hreg⟩ := kept_reg
  refine ⟨home', hends, hwarm bat (core 1) ?_⟩
  exact (regAt_congr hcod).mpr hreg

end Dropped

end Vere.Noun.Jets
