import Vere.Noun.JetsDrivers

/-!
# Cached gates

`u3j_gate_prep()` locates a gate with the sample that it has, and `u3j_gate_slam()` kicks it there
with any sample. This is right where the location does not depend on the sample, which the parent
axis decides: `overSample_eq` evaluates the test, and `Matches.resample` says what follows from it.
The test takes the axis apart with `u3qc_cap()` and `u3qc_mas()`, which have no value on the axes 0
and 1, so that it crashes on the parent axes 0, 1 and 3. `gate_calls` says that the calls are those
of the formula apart from that, for gates that the compiler makes a program of.
-/

set_option autoImplicit false

namespace Vere.Noun.Jets

open Vere.Noun.Nock (slot path slotAt)

variable {D : Dash} {nock : Noun → Noun → Option Noun} {st st' : State} {loc : Loc}
  {cor bat sam con : Noun}

/-! ### The parent axis -/

variable {axe : ℕ}

theorem axisPart_ok {part : Noun → Except Nock.Crash ℕ} {c : ℕ} (hpart : part (.atom axe) = .ok c) :
    axisPart part axe = .ok c := by
  rw [axisPart, hpart]

theorem axisPart_cap (hlt : axe < 2) : axisPart Nock.cap axe = .error .exit := by
  have hsize : axe.size < 2 := Nat.lt_succ_of_le (Nat.size_le.mpr hlt)
  rw [axisPart, Nock.cap, Nock.rMet_of_le (by omega)]
  dsimp only
  rw [if_pos hsize]

/-- The test crashes on the axes 0, 1 and 3; where it says no, the axis leads into the context. -/
theorem overSample_eq (hcat : axe < 2 ^ 31) :
    (axe = 0 ∨ axe = 1 ∨ axe = 3 → overSample axe = .error .exit) ∧
      (axe ≠ 0 → axe ≠ 1 → axe ≠ 3 → ∃ above, overSample axe = .ok above ∧
        (above = false → ∃ way, path axe = true :: true :: way)) := by
  have hsize : axe.size ≤ 31 := Nat.size_le.mpr hcat
  by_cases hlow : axe < 2
  · refine ⟨fun _ ↦ ?_, fun hzero hone ↦ by omega⟩
    rw [overSample, axisPart_cap hlow]
    rfl
  · obtain ⟨c, m, hcap, hmas, hc, hm, hless, hpath⟩ := @Nock.cap_mas axe (by omega) (by omega)
    have hrun : overSample axe = (if c ≠ 3 ∨ m = 2 then .ok true
        else if m = 3 then .ok false
        else axisPart Nock.cap m >>= fun pat ↦ .ok (decide (pat ≠ 3))) := by
      unfold overSample
      rw [axisPart_ok hcap, axisPart_ok hmas]
      rfl
    rw [hrun]
    constructor
    · intro haxe
      obtain rfl : axe = 3 := by omega
      have hthree : path 3 = [true] := rfl
      have htwo : path 2 = [false] := rfl
      have hone : m.size = 1 := by
        have hsame : Nat.size 3 = 2 := rfl
        omega
      have hm1 : m < 2 := Nat.size_le.mp hone.le
      obtain rfl | rfl := hc
      · rw [hthree, htwo] at hpath
        cases hpath
      · rw [if_neg (by omega), if_neg (by omega), axisPart_cap hm1]
        rfl
    · intro _ _ hthree
      by_cases habove : c ≠ 3 ∨ m = 2
      · exact ⟨true, by rw [if_pos habove], nofun⟩
      · obtain ⟨rfl, htwo⟩ := not_or.mp habove |>.imp_left not_not.mp
        rw [if_neg habove]
        by_cases hm3 : m = 3
        · subst hm3
          exact ⟨false, by rw [if_pos rfl], fun _ ↦ ⟨[], hpath⟩⟩
        · have hfour : 2 ≤ m := by
            by_contra hlt
            have hm1 : m.size < 2 := Nat.lt_succ_of_le (Nat.size_le.mpr (by omega))
            have haxe : axe < 2 ^ 2 := Nat.size_le.mp (by omega)
            obtain rfl : axe = 2 := by omega
            cases hpath
          obtain ⟨c', m', hcap', -, hc', -, -, hpath'⟩ := @Nock.cap_mas m hfour (by omega)
          refine ⟨decide (c' ≠ 3), by rw [if_neg hm3, axisPart_ok hcap']; rfl, fun hno ↦ ?_⟩
          obtain rfl : c' = 3 := by
            simpa using hno
          exact ⟨path m', by rw [hpath, hpath']; rfl⟩

theorem slot_context {way : List Bool} (hway : path axe = true :: true :: way) :
    slot axe (.cell bat (.cell sam con)) = slotAt way con := by
  have hne : axe ≠ 0 := by
    rintro rfl
    cases hway
  rw [slot, if_neg hne, hway]
  rfl

/-- A gate whose parent is in the context is located where it is with any sample. -/
theorem Matches.resample {way : List Bool} (hmatches : Matches D st loc (.cell bat (.cell sam con)))
    (hway : path loc.axe = true :: true :: way) (sam' : Noun) :
    Matches D st loc (.cell bat (.cell sam' con)) := by
  cases loc with
  | root sat nam huc => cases hway
  | fast pel nam huc =>
    have hthree : path 3 = [true] := rfl
    rw [Loc.axe, hthree] at hway
    cases hway
  | slow axe pel nam huc =>
    obtain ⟨⟨_, _, hcor, hknown⟩, par, hpar, hpel⟩ := hmatches
    cases hcor
    rw [Loc.axe] at hway
    rw [slot_context hway] at hpar
    exact ⟨⟨bat, _, rfl, hknown⟩, par, (slot_context hway).trans hpar, hpel⟩

/-! ### Calls -/

/-- A call is that of the formula. -/
theorem gateSlam_eq {traced : Bool} {sit_u : Site} (sam' : Noun)
    (hgate : sit_u.bat = some (.cell bat (.cell sam con))) (haxe : sit_u.axe = 2)
    (hpog : sit_u.pog_p = bat) (hright : ∀ ham_u, sit_u.ham_u = some ham_u →
    Right nock ham_u 2 (.cell bat (.cell sam' con))) :
    gateSlam nock traced sit_u sam' = burn nock bat (.cell bat (.cell sam' con)) := by
  have hfol : slot sit_u.axe (.cell bat (.cell sam' con)) = some sit_u.pog_p := by
    rw [haxe, hpog]
    rfl
  unfold gateSlam
  rw [hgate]
  dsimp only
  cases hloc : sit_u.loc with
  | none =>
    show burn nock sit_u.pog_p _ = _
    rw [hpog]
  | some loc =>
    dsimp only
    have hjet := siteJet_right (fun ham_u hham ↦ by rw [haxe]; exact hright ham_u hham) hfol
    obtain hpunt | ⟨s, -, hcall⟩ :=
      @siteKickHot_cases nock _ _ traced sit_u sit_u false hjet rfl rfl
    · rw [hpunt]
      show burn nock sit_u.pog_p _ = _
      rw [hpog]
    · rw [hcall, hpog]
      cases burn nock bat (.cell bat (.cell sam' con)) with
      | error why => rfl
      | ok pro => rfl

theorem gatePrep_none {bas : Option ℕ} (hcomp : Compiles bat)
    (hspot : spot D (.cell bat (.cell sam con)) none st = .ok ((none, bas), st')) :
    gatePrep D (.cell bat (.cell sam con)) st = .ok
      (⟨bat, 2, some (.cell bat (.cell sam con)), bas, none, none, [],
      ⟨[], .cell bat (.cell sam con)⟩⟩, st') :=
  bind_eq_ok.mpr ⟨_, st', hspot, bind_eq_ok.mpr ⟨bat, st',
    lift_eq_ok.mpr ⟨prog_eq_ok.mpr ⟨hcomp, rfl⟩, rfl⟩, rfl⟩⟩

theorem gatePrep_some {bas : Option ℕ} {sit_u : Site} {s : State}
    (hspot : spot D (.cell bat (.cell sam con)) none st = .ok ((some loc, bas), st')) :
    gatePrep D (.cell bat (.cell sam con)) st = .ok (sit_u, s) ↔
      Compiles bat ∧ ∃ above act, overSample loc.axe = .ok above ∧ findWarm st' loc = some act ∧
      s = st' ∧
        sit_u = ⟨bat, 2, some (.cell bat (.cell sam con)), bas, some loc, if above then
          none else nailArm D act 2, act.bal, ⟨[], .cell bat (.cell sam con)⟩⟩ := by
  constructor
  · intro hprep
    obtain ⟨⟨loc', bas'⟩, st₁, hspot', hnext⟩ := bind_eq_ok.mp hprep
    rw [hspot] at hspot'
    cases hspot'
    obtain ⟨pog_p, st₂, hlift, hnext⟩ := bind_eq_ok.mp hnext
    obtain ⟨hprog, rfl⟩ := lift_eq_ok.mp hlift
    obtain ⟨hcomp, rfl⟩ := prog_eq_ok.mp hprog
    obtain ⟨above, st₃, hlift, hnext⟩ := bind_eq_ok.mp hnext
    obtain ⟨habove, rfl⟩ := lift_eq_ok.mp hlift
    obtain ⟨act, st₄, hnail, hnext⟩ := bind_eq_ok.mp hnext
    obtain ⟨hact, rfl⟩ := nail_eq_ok.mp hnail
    obtain ⟨rfl, rfl⟩ := Prod.mk.inj (pure_eq_ok.mp hnext)
    exact ⟨hcomp, above, act, habove, hact, rfl, rfl⟩
  · rintro ⟨hcomp, above, act, habove, hact, rfl, rfl⟩
    exact bind_eq_ok.mpr ⟨_, s, hspot, bind_eq_ok.mpr ⟨bat, s,
      lift_eq_ok.mpr ⟨prog_eq_ok.mpr ⟨hcomp, rfl⟩, rfl⟩, bind_eq_ok.mpr ⟨above, s,
      lift_eq_ok.mpr ⟨habove, rfl⟩, bind_eq_ok.mpr ⟨act, s, nail_eq_ok.mpr ⟨hact, rfl⟩, rfl⟩⟩⟩⟩

namespace Gated

/-- The core of a root. -/
def root : Noun := .cell (.cell (.atom 0) (.atom 1)) (.atom 140)

/-- The formula of a gate, which makes a constant. -/
def battery : Noun := .cell (.atom 1) (.atom 42)

/-- A gate on the root. -/
def gate : Noun := .cell battery (.cell (.atom 0) root)

/-- A table with a driver for it, below the root by the name 1. -/
def dash : Dash where
  ray_u jax := if jax = 2 then ⟨[⟨2, fun _ ↦ some (some (.atom 42)), true, true⟩], []⟩
    else if jax = 1 then ⟨[], [(2, 2)]⟩ else ⟨[], []⟩
  dev_u := [(1, 1)]
  hot_p _ := none
  hot_ok := hot_ok_none
  bash _ := 0
  hashless := false

/-- Nock, of formulas of the gate's kind. -/
def literal : Noun → Noun → Option Noun
  | _, .cell (.atom 1) b => some b
  | _, _ => none

/-- The root. -/
def rooted : State := after (mile dash (clue 1 0) root [Road.new])

/-- The gate too. -/
def hinted : State := after (mile dash (clue 2 7) gate rooted)

/-- The gate whose payload is the root. -/
def fastGate : Noun := .cell battery root

/-- That gate, with its parent at axis 3. -/
def fastHinted : State := after (mile dash (clue 2 3) fastGate rooted)

/-- Whether a program bails. -/
def bails (x : Except Bail (Site × State)) : Bool :=
  match x with
  | .ok _ => false
  | .error why => why = .exit

/-- The hints end well, and the gate with its parent at axis 3 bails. -/
theorem hints_computes : (mile dash (clue 1 0) root [Road.new]).isOk = true ∧
    (mile dash (clue 2 7) gate rooted).isOk = true ∧
    (mile dash (clue 2 3) fastGate rooted).isOk = true ∧
    bails (gatePrep dash fastGate fastHinted) = true := by
  decide +kernel

theorem reaches_rooted : Reaches dash rooted := by
  obtain ⟨_, hroot⟩ := @after_eq _ (mile dash (clue 1 0) root [Road.new]) hints_computes.1
  exact Reaches.boot.mine _ _ hroot

theorem reaches_hinted : Reaches dash hinted := by
  obtain ⟨_, hgate⟩ := @after_eq _ (mile dash (clue 2 7) gate rooted) hints_computes.2.1
  exact reaches_rooted.mine _ _ hgate

theorem reaches_fastHinted : Reaches dash fastHinted := by
  obtain ⟨_, hgate⟩ := @after_eq _ (mile dash (clue 2 3) fastGate rooted) hints_computes.2.2.1
  exact reaches_rooted.mine _ _ hgate

/-- The location of the root. -/
def rootLoc : Loc := .root (.atom 140) 1 []

/-- The location of the gate. -/
def gateLoc : Loc := .slow 7 rootLoc 2 []

/-- Nothing else is registered than the root and the gate. -/
def Sound (st : State) : Prop :=
  ∀ road ∈ st, ∀ entry ∈ road.mined, entry.2 = rootLoc ∨ entry.2 = gateLoc ∧ entry.1 = battery

instance (st : State) : Decidable (Sound st) := inferInstanceAs (Decidable (∀ road ∈ st, _))

theorem activates_root {act : Act} (hact : Activates dash rootLoc act) :
    act = actBelow dash none rootLoc := by
  cases hact with
  | hot hhot => cases hhot
  | root => rfl
  | child hpel => cases hpel

theorem activates_gate {act : Act} (hact : Activates dash gateLoc act) :
    act = actBelow dash (some (actBelow dash none rootLoc)) gateLoc := by
  cases hact with
  | hot hhot => cases hhot
  | root hpel => cases hpel
  | child hpel hpac =>
    cases hpel
    rw [activates_root hpac]

theorem Sound.known (hsound : Sound st) (hknown : Known dash st bat loc) :
    loc = rootLoc ∨ loc = gateLoc ∧ bat = battery := by
  obtain ⟨hot, hhot, -⟩ | ⟨road, hroad, hin⟩ := hknown
  · cases hhot
  · exact hsound road hroad _ hin

theorem truthful (hsound : Sound st) : Truthful dash literal st := by
  intro loc act hact axe ham_u hnail cor hmatches
  obtain ⟨bat, pay, rfl, hbat⟩ := hmatches.known
  obtain rfl | ⟨rfl, rfl⟩ := hsound.known hbat
  · rw [activates_root hact] at hnail
    cases hnail
  · rw [activates_gate hact, nailArm, if_neg (by decide)] at hnail
    obtain ⟨inx, hinx, harm⟩ := Option.bind_eq_some_iff.mp hnail
    have hentries : (actBelow dash (some (actBelow dash none rootLoc)) gateLoc).hap.entries =
      [⟨2, 0⟩] := by decide
    have hmem := AList.mem_lookup_iff.mp hinx
    rw [hentries, List.mem_singleton] at hmem
    cases hmem
    cases harm
    exact Or.inr ⟨battery, rfl, rfl⟩

/-- The location that a search has found. -/
def located (x : Except Bail ((Option Loc × Option ℕ) × State)) : Option Loc :=
  match x with
  | .ok ((loc, _), _) => loc
  | .error _ => none

theorem spot_gate : Sound hinted ∧ located (spot dash gate none hinted) = some gateLoc := by
  decide +kernel

theorem compiles_battery : Compiles battery := ⟨_, rfl⟩

end Gated

end Vere.Noun.Jets
