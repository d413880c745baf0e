import Vere.Noun.Axis
import Vere.Noun.JetsRegistry

/-!
# Searches

A search for a core does nothing but read the roads and add locations of the hot state with their
activations (`spotN_search`). From this follows what it leaves alone: the history of registrations
(`Grows`), and that it fails no assertion (`Search.asserts`). And it ends for every core that is
`Shaped`, in which none of the parent axes that it tries leads to an atom (`spot_shaped`).
-/

set_option autoImplicit false

namespace Vere.Noun.Jets

open Vere.Lib (Layers.find)
open Vere.Noun.Nock (slot path slotAt)

variable {D : Dash} {st st' st'' : State} {loc : Loc} {cor bat pay : Noun}

/-! ### Programs of a search -/

/-- Programs that read the roads, add locations of the hot state with their activations, and stop.
-/
inductive Search (D : Dash) : {α : Type} → M α → Prop
  | done {α : Type} (a : α) : Search D (pure a : M α)
  | read : Search D (get : M State)
  | stop {α : Type} {why : Bail} (hwhy : why = .exit ∨ why = .spent) : Search D (throw why : M α)
  | add {bas : ℕ} {hot : Hot} {loc : Loc} (bat : Noun) (reg : Reg) (b : ℕ)
  (hhot : D.hot_p bas = some hot)
      (hloc : loc ∈ hot.reg.locs) : Search D (do
        putCold bat b reg
        putWarm loc hot.act
        pure (some loc) : M (Option Loc))
  | next {α β : Type} {x : M α} {next : α → M β} (hx : Search D x)
      (hnext : ∀ st a st', x st = .ok (a, st') → Search D (next a)) : Search D (x >>= next)

section Programs

variable {spot : Noun → M (Option Loc)}

theorem parFind_search (hspot : ∀ par, Search D (spot par)) (cor : Noun) (pas : List (ℕ × Lol)) :
    Search D (parFind spot cor pas) := by
  induction pas with
  | nil => exact Search.done none
  | cons par pas ih =>
    obtain ⟨axe, lol⟩ := par
    rw [parFind]
    cases slot axe cor with
    | none => exact ih
    | some n =>
      refine (hspot n).next fun _ pel _ _ ↦ ?_
      cases pel.bind lol.lookup with
      | none => exact ih
      | some loc => exact Search.done (some loc)

theorem regFind_search (hspot : ∀ par, Search D (spot par)) (reg : Reg) (bat pay : Noun) :
    Search D (regFind spot reg bat pay) := by
  rw [regFind]
  cases reg.rut.lookup pay with
  | none => exact parFind_search hspot _ _
  | some loc => exact Search.done (some loc)

theorem parFind_mem {pas : List (ℕ × Lol)} (hfind : parFind spot cor pas st = .ok (some loc, st')) :
    ∃ par ∈ pas, ∃ pel, par.2.lookup pel = some loc := by
  induction pas generalizing st with
  | nil => cases hfind
  | cons par pas ih =>
    obtain ⟨axe, lol⟩ := par
    rw [parFind] at hfind
    cases hslot : slot axe cor with
    | none =>
      rw [hslot] at hfind
      obtain ⟨q, hq, hlookup⟩ := ih hfind
      exact ⟨q, List.mem_cons_of_mem _ hq, hlookup⟩
    | some n =>
      rw [hslot] at hfind
      obtain ⟨pel, st₁, -, hnext⟩ := bind_eq_ok.mp hfind
      cases hlookup : pel.bind lol.lookup with
      | none =>
        rw [hlookup] at hnext
        obtain ⟨q, hq, hlookup⟩ := ih hnext
        exact ⟨q, List.mem_cons_of_mem _ hq, hlookup⟩
      | some l =>
        rw [hlookup] at hnext
        obtain ⟨hl, -⟩ := Prod.mk.inj (pure_eq_ok.mp hnext)
        cases hl
        obtain ⟨p, -, hin⟩ := Option.bind_eq_some_iff.mp hlookup
        exact ⟨_, List.mem_cons_self, p, hin⟩

/-- A location that is found in a registry is one of its locations. -/
theorem regFind_mem {reg : Reg} (hfind : regFind spot reg bat pay st = .ok (some loc, st')) :
    loc ∈ reg.locs := by
  rw [regFind] at hfind
  cases hroot : reg.rut.lookup pay with
  | none =>
    rw [hroot] at hfind
    exact Reg.mem_locs.mpr (Or.inr (parFind_mem hfind))
  | some l =>
    rw [hroot] at hfind
    obtain ⟨hl, -⟩ := Prod.mk.inj (pure_eq_ok.mp hfind)
    cases hl
    exact Reg.mem_locs.mpr (Or.inl ⟨pay, hroot⟩)

theorem spotHot_search (hspot : ∀ par, Search D (spot par)) (bar : Option (ℕ × Reg)) (bas : ℕ)
    (bat pay : Noun) :
    Search D (spotHot D spot bar bas bat pay) := by
  rw [spotHot]
  split_ifs
  · exact Search.done none
  · cases hhot : D.hot_p bas with
    | none => exact Search.done none
    | some hot =>
      refine (regFind_search hspot hot.reg bat pay).next fun st found st' hfind ↦ ?_
      cases found with
      | none => exact Search.done none
      | some loc => exact Search.add bat _ bas hhot (regFind_mem hfind)

end Programs

theorem spotN_search (fuel : ℕ) (cor : Noun) (bas : Option ℕ) :
    Search D (spotN D fuel cor bas) := by
  induction fuel generalizing cor bas with
  | zero => exact Search.stop (Or.inr rfl)
  | succ fuel ih =>
    cases cor with
    | atom a => exact Search.stop (Or.inl rfl)
    | cell bat pay =>
      have hspot : ∀ par, Search D (spotN D fuel par none >>= fun found ↦
          pure found.1 : M (Option Loc)) := fun par ↦ (ih par none).next fun _ _ _ _ ↦ Search.done _
      rw [spotN]
      refine Search.read.next fun _ st₀ _ _ ↦ Search.next ?_ fun _ found _ _ ↦ ?_
      · cases findCold st₀ bat with
        | none => exact Search.done none
        | some bar => exact regFind_search hspot bar.2 bat pay
      · cases found with
        | some loc => exact Search.done _
        | none => exact (spotHot_search hspot _ _ bat pay).next fun _ _ _ _ ↦ Search.done _

theorem spot_search (cor : Noun) (bas : Option ℕ) : Search D (spot D cor bas) :=
  spotN_search cor.size cor bas

theorem minx_search (nam axe : ℕ) (huc : Hooks) (cor : Noun) :
    Search D (minx D nam axe huc cor) := by
  unfold minx
  split_ifs
  · cases cor with
    | atom a => exact Search.stop (Or.inl rfl)
    | cell bat pay => exact Search.done _
  · cases slot axe cor with
    | none => exact Search.done _
    | some par =>
      cases par with
      | atom a => exact Search.done _
      | cell bat pay =>
        refine (spot_search _ _).next fun _ found _ _ ↦ ?_
        obtain ⟨_ | pel, bas⟩ := found
        · exact Search.done _
        · exact Search.done _

/-! ### What a search does -/

/-- What a failed assertion is. -/
def Assertion (why : Bail) : Prop := why = .unwarm ∨ why = .assert

/-- A program does not stop for a reason. -/
def Asserts {α : Type} (why : Bail) (x : M α) (st : State) : Prop := x st ≠ .error why

variable {why : Bail}

variable {α : Type}

theorem asserts_bind {β : Type} {x : M α} {next : α → M β} (hx : Asserts why x st)
    (hnext : ∀ a st', x st = .ok (a, st') → Asserts why (next a) st') :
    Asserts why (x >>= next) st := by
  show (x st >>= fun p ↦ next p.1 p.2) ≠ _
  cases hrun : x st with
  | error e =>
    intro h
    cases h
    exact hx hrun
  | ok p => exact hnext p.1 p.2 hrun

theorem asserts_pure {a : α} : Asserts why (pure a : M α) st := nofun

theorem asserts_lift {x : Except Bail α} (hx : x ≠ .error why) : Asserts why (x : M α) st := by
  cases x with
  | error e =>
    intro h
    cases h
    exact hx rfl
  | ok a => nofun

theorem asserts_put (hwhy : Assertion why) {bas : ℕ} {reg : Reg} {act : Act} :
    Asserts why (do
      putCold bat bas reg
      putWarm loc act
      pure (some loc) : M (Option Loc)) st := by
  obtain rfl | rfl := hwhy
  all_goals refine asserts_bind ?_ fun _ st' _ ↦ asserts_bind ?_ fun _ _ _ ↦ asserts_pure
  · cases st <;> nofun
  · cases st' <;> nofun
  · cases st <;> nofun
  · cases st' <;> nofun

theorem Search.asserts {x : M α} (hsearch : Search D x) (hwhy : Assertion why) (st : State) :
    Asserts why x st := by
  induction hsearch generalizing st with
  | done a => exact asserts_pure
  | read => nofun
  | stop hstop =>
    intro h
    cases h
    obtain rfl | rfl := hstop <;> obtain ⟨⟨⟩⟩ | ⟨⟨⟩⟩ := hwhy
  | add => exact asserts_put hwhy
  | next _ _ ih ihnext => exact asserts_bind (ih st) fun a st' hrun ↦ ihnext st a st' hrun st'

/-- A location has an activation on some road. -/
def Has (st : State) (loc : Loc) (act : Act) : Prop := ∃ road ∈ st, road.war_p.lookup loc = some act

theorem has_of_findWarm {act : Act} (hwarm : findWarm st loc = some act) : Has st loc act := by
  obtain ⟨layer, hlayer, hlookup⟩ := Vere.Lib.Layers.mem_of_find hwarm
  obtain ⟨road, hroad, rfl⟩ := List.mem_map.mp hlayer
  exact ⟨road, hroad, hlookup⟩

theorem has_add {road : Road} {rest : State} {bas : ℕ} {reg : Reg} {act act' : Act} {l : Loc}
    (hhas : Has (road.add rest bat bas reg loc act :: rest) l act') :
    l = loc ∧ act' = act ∨ Has (road :: rest) l act' := by
  obtain ⟨r, hr, hlookup⟩ := hhas
  obtain rfl | hr := List.mem_cons.mp hr
  · rw [Road.add] at hlookup
    by_cases hsame : l = loc
    · subst hsame
      rw [AList.lookup_insert] at hlookup
      exact Or.inl ⟨rfl, (Option.some.inj hlookup).symm⟩
    · rw [AList.lookup_insert_ne hsame] at hlookup
      exact Or.inr ⟨road, List.mem_cons_self, hlookup⟩
  · exact Or.inr ⟨r, List.mem_cons_of_mem _ hr, hlookup⟩

/-- What a search does to the roads: nothing is registered, and a location that gets an activation
has that of the hot state. -/
structure Grows (D : Dash) (st st' : State) : Prop where
  mined : st'.map Road.mined = st.map Road.mined
  warm : ∀ loc act, Has st' loc act → Has st loc act ∨ ∃ bas hot, D.hot_p bas = some hot ∧
    loc ∈ hot.reg.locs ∧ act = hot.act

theorem Grows.refl : Grows D st st := ⟨rfl, fun _ _ h ↦ Or.inl h⟩

theorem Grows.trans (hfirst : Grows D st st') (hsecond : Grows D st' st'') : Grows D st st'' where
  mined := hsecond.mined.trans hfirst.mined
  warm loc act h := by
    obtain hbefore | hhot := hsecond.warm loc act h
    · exact hfirst.warm loc act hbefore
    · exact Or.inr hhot

theorem Search.grows {x : M α} (hsearch : Search D x) {a : α} (hrun : x st = .ok (a, st')) :
    Grows D st st' := by
  induction hsearch generalizing st st' with
  | done b =>
    obtain ⟨-, rfl⟩ := Prod.mk.inj (pure_eq_ok.mp hrun)
    exact Grows.refl
  | read =>
    cases hrun
    exact Grows.refl
  | stop => cases hrun
  | add bat reg b hhot hloc =>
    have hne : st ≠ [] := by
      rintro rfl
      cases hrun
    obtain ⟨road, rest, rfl, rfl, -⟩ := putBoth_eq hne hrun
    refine ⟨rfl, fun l act h ↦ ?_⟩
    obtain ⟨rfl, rfl⟩ | hbefore := has_add h
    · exact Or.inr ⟨_, _, hhot, hloc, rfl⟩
    · exact Or.inl hbefore
  | next _ _ ih ihnext =>
    obtain ⟨b, st₁, hx, hnext⟩ := bind_eq_ok.mp hrun
    exact (ih hx).trans (ihnext st b st₁ hx hnext)

theorem Grows.known (hgrows : Grows D st st') : Known D st' bat loc ↔ Known D st bat loc := by
  have hmined : ∀ s : State, (∃ road ∈ s, (bat, loc) ∈ road.mined) ↔
      ∃ mined ∈ s.map Road.mined, (bat, loc) ∈ mined := by
    intro s
    simp only [List.mem_map, exists_exists_and_eq_and]
  rw [Known, Known, hmined st', hmined st, hgrows.mined]

/-! ### Searches that end -/

/-- A search for a parent in the loop of `_cj_reg_find()`. -/
def spotPar (D : Dash) (fuel : ℕ) (par : Noun) : M (Option Loc) :=
  spotN D fuel par none >>= fun found ↦ pure found.1

/-- The loop of `_cj_reg_find()` for the core `[bat pay]` tries an axis, with the roads as they are
by then: the payload is no root, and the parents at the axes before it are none that the registry
has. -/
def Tries (D : Dash) (reg : Reg) (bat pay : Noun) (st s : State) (axe : ℕ) (par : Noun) : Prop :=
  reg.rut.lookup pay = none ∧ ∃ before lol after fuel, reg.pas = before ++ (axe, lol) :: after ∧
    parFind (spotPar D fuel) (.cell bat pay) before st = .ok (none, s) ∧
    slot axe (.cell bat pay) = some par

/-- The search in the cold state finds nothing. -/
def ColdMiss (D : Dash) (bat pay : Noun) (st s : State) : Prop :=
  match findCold st bat with
  | none => s = st
  | some bar => ∃ fuel, regFind (spotPar D fuel) bar.2 bat pay st = .ok (none, s)

/-- A search tries an axis, in the cold state or then in the table. -/
def Asks (D : Dash) (st : State) (bat pay : Noun) (s : State) (axe : ℕ) (par : Noun) : Prop :=
  (∃ bar, findCold st bat = some bar ∧ Tries D bar.2 bat pay st s axe par) ∨
    D.hashless = false ∧ ∃ hot s₀, D.hot_p (D.bash bat) = some hot ∧ ColdMiss D bat pay st s₀ ∧
      Tries D hot.reg bat pay s₀ s axe par

/-- No parent axis that a search tries leads to an atom or to the core itself, in the core and in
the nouns that it leads to. -/
inductive Shaped (D : Dash) : State → Noun → Prop
  | cell {st : State} {bat pay : Noun} (hone : ∀ s axe par, Asks D st bat pay s axe par → axe ≠ 1)
      (hpar : ∀ s axe par, Asks D st bat pay s axe par → Shaped D s par) : Shaped D st
        (.cell bat pay)

theorem slotAt_size {way : List Bool} {n m : Noun} (hway : way ≠ [])
    (hslot : slotAt way n = some m) : m.size < n.size := by
  induction way generalizing n with
  | nil => exact absurd rfl hway
  | cons side way ih =>
    cases n with
    | atom a => cases side <;> cases hslot
    | cell h t =>
      have hpart : ∀ k, slotAt way k = some m → m.size ≤ k.size := by
        intro k hk
        cases way with
        | nil =>
          cases hk
          exact le_refl _
        | cons side' way => exact Nat.le_of_lt (ih nofun hk)
      rw [Noun.size]
      cases side with
      | false =>
        have hle := hpart h hslot
        omega
      | true =>
        have hle := hpart t hslot
        omega

theorem slot_size {axe : ℕ} {n m : Noun} (hone : axe ≠ 1) (hslot : slot axe n = some m) :
    m.size < n.size := by
  rw [slot] at hslot
  split_ifs at hslot with hzero
  refine slotAt_size (fun hpath ↦ ?_) hslot
  exact hone (Nock.path_inj hzero Nat.one_ne_zero hpath)

/-- What holds of the roads while a search goes on: what is registered stays as it was at the
beginning. -/
structure During (D : Dash) (st s : State) : Prop where
  view : View D s
  ne_nil : s ≠ []
  known : ∀ bat loc, Known D s bat loc ↔ Known D st bat loc

theorem spotN_during {fuel : ℕ} {bas : Option ℕ} {res : Option Loc × Option ℕ} (hview : View D st)
    (hst : st ≠ []) (hbas : RightBas D bas cor) (hrun : spotN D fuel cor bas st = .ok (res, st')) :
    During D st st' := by
  have hstep := (spotN_step fuel hbas hrun hview hst).1
  exact ⟨hstep.view, hstep.ne_nil, fun _ _ ↦ ((spotN_search fuel cor bas).grows hrun).known⟩

theorem spotPar_spots (fuel : ℕ) : Spots D (spotPar D fuel) := by
  intro cor st st' o hrun hview hst
  obtain ⟨⟨pel, bas⟩, st₁, hspot, hpure⟩ := bind_eq_ok.mp hrun
  obtain ⟨rfl, rfl⟩ := Prod.mk.inj (pure_eq_ok.mp hpure)
  obtain ⟨hstep, -, -, hfound⟩ := spotN_step fuel rightBas_none hspot hview hst
  exact ⟨hstep, hfound⟩

section Programs

variable {spot : Noun → M (Option Loc)} {s : State}

/-- The loop over the parents ends, if the searches do for the parents that it comes to. -/
theorem parFind_ends {pas : List (ℕ × Lol)}
    (hspot : ∀ before axe lol after s₁ par, pas = before ++ (axe, lol) :: after →
      parFind spot cor before s = .ok (none, s₁) → slot axe cor = some par →
      ∃ o s₂, spot par s₁ = .ok (o, s₂)) :
    ∃ o s', parFind spot cor pas s = .ok (o, s') := by
  induction pas generalizing s with
  | nil => exact ⟨none, s, rfl⟩
  | cons entry pas ih =>
    obtain ⟨axe, lol⟩ := entry
    -- the parents at the other axes, when this one is passed
    have hrest : ∀ s₁, (∀ before, parFind spot cor ((axe, lol) :: before) s =
      parFind spot cor before s₁) →
        ∃ o s', parFind spot cor ((axe, lol) :: pas) s = .ok (o, s') := by
      intro s₁ hpass
      rw [hpass]
      refine ih fun before axe' lol' after s₂ par hpas hrun hslot ↦ ?_
      refine hspot ((axe, lol) :: before) axe' lol' after s₂ par ?_
        ((hpass before).trans hrun) hslot
      rw [hpas]
      rfl
    cases hslot : slot axe cor with
    | none => exact hrest s fun before ↦ by rw [parFind, hslot]
    | some par =>
      obtain ⟨pel, s₁, hpel⟩ := hspot [] axe lol pas s par rfl rfl hslot
      cases hlookup : pel.bind lol.lookup with
      | none =>
        refine hrest s₁ fun before ↦ ?_
        rw [parFind, hslot]
        dsimp only
        rw [bind_of_ok hpel, hlookup]
      | some loc =>
        refine ⟨some loc, s₁, ?_⟩
        rw [parFind, hslot]
        refine bind_eq_ok.mpr ⟨pel, s₁, hpel, ?_⟩
        rw [hlookup]
        rfl

theorem regFind_ends {reg : Reg} (hspot : reg.rut.lookup pay = none → ∀ before axe lol after s₁ par,
      reg.pas = before ++ (axe, lol) :: after → parFind spot (.cell bat pay) before s =
        .ok (none, s₁) →
        slot axe (.cell bat pay) = some par → ∃ o s₂, spot par s₁ = .ok (o, s₂)) :
    ∃ o s', regFind spot reg bat pay s = .ok (o, s') := by
  rw [regFind]
  cases hroot : reg.rut.lookup pay with
  | none => exact parFind_ends (hspot hroot)
  | some loc => exact ⟨some loc, s, rfl⟩

end Programs

/-- The search in the hot state ends. -/
theorem spotHot_ends {spot : Noun → M (Option Loc)} {bar : Option (ℕ × Reg)} {s : State}
    (hfind : D.hashless = false → ∀ hot, D.hot_p (D.bash bat) = some hot →
      ∃ o s', regFind spot hot.reg bat pay s = .ok (o, s') ∧ s' ≠ []) :
    ∃ o s', spotHot D spot bar (D.bash bat) bat pay s = .ok (o, s') := by
  rw [spotHot]
  split_ifs with hhashless
  · exact ⟨none, s, rfl⟩
  · cases hhot : D.hot_p (D.bash bat) with
    | none => exact ⟨none, s, rfl⟩
    | some hot =>
      obtain ⟨found, s₁, hrun, hs₁⟩ := hfind (Bool.not_eq_true _ ▸ hhashless) hot hhot
      cases found with
      | none => exact ⟨none, s₁, bind_eq_ok.mpr ⟨none, s₁, hrun, rfl⟩⟩
      | some loc =>
        obtain ⟨road, rest, rfl⟩ := List.exists_cons_of_ne_nil hs₁
        exact ⟨some loc, _, bind_eq_ok.mpr ⟨some loc, _, hrun, rfl⟩⟩

/-- A search in a core that is shaped ends. -/
theorem spotN_ends (fuel : ℕ) {bas : Option ℕ} (hshaped : Shaped D st cor) (hfuel : cor.size ≤ fuel)
    (hview : View D st) (hst : st ≠ []) (hbas : RightBas D bas cor) :
    ∃ res st', spotN D fuel cor bas st = .ok (res, st') := by
  induction hshaped generalizing fuel bas with
  | @cell st bat pay hone hpar ih =>
    cases fuel with
    | zero => cases hfuel
    | succ fuel =>
      -- the parents that are tried are smaller
      have hspot : ∀ s axe par, Asks D st bat pay s axe par → slot axe (.cell bat pay) = some par →
        View D s → s ≠ [] →
          ∃ o s', spotPar D fuel par s = .ok (o, s') := by
        intro s axe par hasks hslot hview hs
        have hsmall := slot_size (hone s axe par hasks) hslot
        obtain ⟨res, s', hrun⟩ := @ih s axe par hasks fuel none (by omega) hview hs rightBas_none
        exact ⟨res.1, s', bind_eq_ok.mpr ⟨res, s', hrun, rfl⟩⟩
      have hright := hbas.or hview
      obtain ⟨found, s₁, hcold, hs₁⟩ : ∃ found s₁, (match findCold st bat with
          | none => pure none
          | some bar => regFind (spotPar D fuel) bar.2 bat pay : M (Option Loc)) st = .ok (found,
            s₁) ∧
            (View D s₁ ∧ s₁ ≠ []) ∧ (found = none → ColdMiss D bat pay st s₁) := by
        cases hbar : findCold st bat with
        | none =>
          refine ⟨none, st, rfl, ⟨hview, hst⟩, fun _ ↦ ?_⟩
          rw [ColdMiss, hbar]
        | some bar =>
          have hok := (hview.ok bat bar hbar).1
          obtain ⟨o, s₁, hrun⟩ := @regFind_ends bat pay (spotPar D fuel) st bar.2
            fun hroot before axe lol after s₁ par hpas hbefore hslot ↦ by
              have hstep := (parFind_step (spotPar_spots fuel) hbefore hview hst).1
              exact hspot s₁ axe par (Or.inl ⟨bar, hbar, hroot, before, lol, after, fuel, hpas,
                hbefore, hslot⟩) hslot
                hstep.view hstep.ne_nil
          have hstep := (regFind_step (spotPar_spots fuel) hok hrun hview hst).1
          refine ⟨o, s₁, hrun, ⟨hstep.view, hstep.ne_nil⟩, fun ho ↦ ?_⟩
          subst ho
          rw [ColdMiss, hbar]
          exact ⟨fuel, hrun⟩
      obtain ⟨⟨hview₁, hne₁⟩, hmiss⟩ := hs₁
      rw [spotN]
      cases found with
      | some loc =>
        exact ⟨_, s₁, bind_eq_ok.mpr ⟨st, st, rfl, bind_eq_ok.mpr ⟨some loc, s₁, hcold, rfl⟩⟩⟩
      | none =>
        obtain ⟨o, s₂, hhot⟩ := @spotHot_ends D bat pay (spotPar D fuel) (findCold st bat) s₁
          fun hhashless hot hinfo ↦ by
            obtain ⟨o, s₂, hrun⟩ := @regFind_ends bat pay (spotPar D fuel) s₁ hot.reg
              fun hroot before axe lol after s₂ par hpas hbefore hslot ↦ by
                have hstep := (parFind_step (spotPar_spots fuel) hbefore hview₁ hne₁).1
                exact hspot s₂ axe par (Or.inr ⟨hhashless, hot, s₁, hinfo, hmiss rfl, hroot, before,
                  lol, after, fuel, hpas, hbefore, hslot⟩) hslot hstep.view hstep.ne_nil
            have hstep :=
              (regFind_step (spotPar_spots fuel) (D.hot_ok _ hot hinfo) hrun hview₁ hne₁).1
            exact ⟨o, s₂, hrun, hstep.ne_nil⟩
        refine ⟨_, s₂, bind_eq_ok.mpr ⟨st, st, rfl,
          bind_eq_ok.mpr ⟨none, s₁, hcold, bind_eq_ok.mpr ⟨o, s₂, ?_, rfl⟩⟩⟩⟩
        rw [hright.getD]
        exact hhot

/-- In a core that is shaped a search ends, and leaves what is registered as it is. -/
theorem spot_shaped {bas : Option ℕ} (hshaped : Shaped D st cor) (hview : View D st) (hst : st ≠ [])
    (hbas : RightBas D bas cor) :
    ∃ res st', spot D cor bas st = .ok (res, st') ∧ During D st st' := by
  obtain ⟨res, st', hrun⟩ := spotN_ends cor.size hshaped (le_refl _) hview hst hbas
  exact ⟨res, st', hrun, spotN_during hview hst hbas hrun⟩

end Vere.Noun.Jets
