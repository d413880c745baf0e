import Vere.Noun.JetsReam
import Vere.Noun.JetsSite

/-!
# Cached hooks

A hook is a formula of a location, which runs on the core that is located there. Looking for it in a
core goes up from the location of the core, and `_cj_hank_fill()` makes the axis of the ancestor on
the way. It pegs the axes the wrong way round, so that the axis fetches by the last one first
(`fillWalk_ok`). `hank_addresses` says when that leads to the ancestor, in the core that the cache
was made for and in other cores that `_cj_hank_fine()` accepts; `hank_elsewhere` is a core in which
it does not.
-/

set_option autoImplicit false

namespace Vere.Noun.Jets

open Vere.Noun.Nock (slot peg slot_peg)

variable {D : Dash} {nock : Noun → Noun → Option Noun} {st st' : State} {tam : ℕ} {loc loc' : Loc}
  {cor inn fol : Noun}

/-! ### Chains of axes -/

/-- Fetching by one axis after the other. -/
def follow : List ℕ → Noun → Option Noun
  | [], n => some n
  | axe :: axes, n => (slot axe n).bind (follow axes)

theorem follow_append (axes more : List ℕ) (n : Noun) :
    follow (axes ++ more) n = (follow axes n).bind (follow more) := by
  induction axes generalizing n with
  | nil => rfl
  | cons axe axes ih =>
    rw [List.cons_append, follow, follow, Option.bind_assoc]
    exact Option.bind_congr fun m _ ↦ ih m

theorem follow_singleton (axe : ℕ) (n : Noun) : follow [axe] n = slot axe n := by
  rw [follow]
  cases slot axe n with
  | none => rfl
  | some m => rfl

/-- The parent axes from a location up to the one that has the hook. -/
def hookChain (tam : ℕ) : Loc → Option (List ℕ)
  | .root _ _ huc => if (huc.lookup tam).isSome then some [] else none
  | .fast pel _ huc => if (huc.lookup tam).isSome then some [] else (hookChain tam pel).map (3 :: ·)
  | .slow axe pel _ huc =>
    if (huc.lookup tam).isSome then some [] else (hookChain tam pel).map (axe :: ·)

/-- The search follows the chain. -/
theorem hookWalk_eq (hmatches : Matches D st loc cor) :
    match hookChain tam loc with
    | none => hookWalk tam loc cor = .error .fail
    | some axes => ∃ loc' inn fol, hookWalk tam loc cor = .ok (loc', inn,
    fol) ∧ follow axes cor = some inn ∧
        Matches D st loc' inn := by
  induction loc generalizing cor with
  | root sat nam huc =>
    rw [hookChain, hookWalk]
    cases huc.lookup tam with
    | some fol => exact ⟨_, cor, fol, rfl, rfl, hmatches⟩
    | none => rfl
  | fast pel nam huc ih =>
    obtain ⟨bat, pay, rfl, -⟩ := hmatches.known
    obtain ⟨-, par, hpar, hpel⟩ := id hmatches
    obtain rfl : pay = par := Option.some.inj hpar
    rw [hookChain, hookWalk]
    cases huc.lookup tam with
    | some fol => exact ⟨_, _, fol, rfl, rfl, hmatches⟩
    | none =>
      have hrest := ih hpel
      cases hchain : hookChain tam pel with
      | none =>
        rw [hchain] at hrest
        exact hrest
      | some axes =>
        rw [hchain] at hrest
        exact hrest
  | slow axe pel nam huc ih =>
    obtain ⟨-, par, hpar, hpel⟩ := id hmatches
    rw [hookChain, hookWalk]
    cases huc.lookup tam with
    | some fol => exact ⟨_, _, fol, rfl, rfl, hmatches⟩
    | none =>
      have hrest := ih hpel
      rw [hpar]
      cases hchain : hookChain tam pel with
      | none =>
        rw [hchain] at hrest
        exact hrest
      | some axes =>
        rw [hchain] at hrest
        obtain ⟨loc', inn, fol, hwalk, hfollow, hinn⟩ := hrest
        refine ⟨loc', inn, fol, hwalk, ?_, hinn⟩
        rw [follow, hpar]
        exact hfollow

theorem hookWalk_ok (hmatches : Matches D st loc cor)
    (hwalk : hookWalk tam loc cor = .ok (loc', inn, fol)) :
    ∃ axes, hookChain tam loc = some axes ∧ follow axes cor = some inn ∧ Matches D st loc' inn := by
  have hspec := @hookWalk_eq D st tam loc cor hmatches
  cases hchain : hookChain tam loc with
  | none =>
    rw [hchain] at hspec
    rw [hspec] at hwalk
    cases hwalk
  | some axes =>
    rw [hchain] at hspec
    obtain ⟨_, _, _, hwalk', hfollow, hinn⟩ := hspec
    rw [hwalk] at hwalk'
    cases hwalk'
    exact ⟨axes, rfl, hfollow, hinn⟩

/-! ### The axis that is recorded -/

theorem qcPeg_ok {a b c : ℕ} (hb : b ≠ 0) (hpeg : qcPeg a b = .ok c) : c = peg a b := by
  have hmet : ∀ m s, Serial.rMet m = some s → s = m.size := by
    intro m s hs
    rw [Serial.rMet_eq] at hs
    split_ifs at hs
    exact (Option.some.inj hs).symm
  have hlsh : ∀ k m s, Nock.qcLsh k m = some s → s = m <<< k := by
    intro k m s hs
    unfold Nock.qcLsh at hs
    split_ifs at hs
    obtain ⟨len_w, hlen, hs⟩ := Option.bind_eq_some_iff.mp hs
    split_ifs at hs with hzero
    · cases hs
      rw [hmet m len_w hlen, Nat.size_eq_zero] at hzero
      rw [hzero, Nat.zero_shiftLeft]
    · exact (Option.some.inj hs).symm
  rw [qcPeg] at hpeg
  cases hrun : Nock.qcPeg (fun _ ↦ none) a b with
  | none =>
    rw [hrun] at hpeg
    cases hpeg
  | some d =>
    rw [hrun] at hpeg
    cases hpeg
    unfold Nock.qcPeg at hrun
    split_ifs at hrun with hone
    · cases hrun
      subst hone
      rw [peg, Nock.log2_eq_size, Nat.size_one, Nat.shiftLeft_zero, Nat.pow_zero, Nat.sub_self,
        Nat.zero_add]
    · obtain ⟨met, hmetb, hrun⟩ := Option.bind_eq_some_iff.mp hrun
      obtain ⟨dec, hdec, hrun⟩ := Option.bind_eq_some_iff.mp hrun
      obtain ⟨bex, hbex, hrun⟩ := Option.bind_eq_some_iff.mp hrun
      obtain ⟨sub, hsub, hrun⟩ := Option.bind_eq_some_iff.mp hrun
      obtain ⟨high, hhigh, hrun⟩ := Option.bind_eq_some_iff.mp hrun
      have hlog : dec = b.log2 := by
        unfold Nock.qaDec at hdec
        split_ifs at hdec
        cases hdec
        rw [hmet b met hmetb, Nock.log2_eq_size]
      have hsub' : sub = b - bex := by
        unfold Nock.qaSub at hsub
        split_ifs at hsub
        exact (Option.some.inj hsub).symm
      cases hrun
      rw [peg, hsub', hlsh _ _ _ hbex, hlsh _ _ _ hhigh, hlog, Nat.one_shiftLeft]

theorem qcPeg_ne {a b c : ℕ} (ha : a ≠ 0) (hb : b ≠ 0) (hpeg : qcPeg a b = .ok c) : c ≠ 0 := by
  rw [qcPeg_ok hb hpeg]
  exact (Nock.path_peg ha hb).1

/-- What an axis is that has been made along a chain: it fetches along the chain from its end, and
then by the axis at the beginning. -/
def Records (hax : ℕ) (axes : List ℕ) (hax' : ℕ) : Prop :=
  hax' ≠ 0 ∧ ∀ n, slot hax' n = (follow axes.reverse n).bind (slot hax)

theorem Records.nil {hax : ℕ} (hne : hax ≠ 0) : Records hax [] hax := ⟨hne, fun _ ↦ rfl⟩

theorem Records.cons {axe hax xah hax' : ℕ} {axes : List ℕ} (haxe : axe ≠ 0) (hne : hax ≠ 0)
    (hpeg : qcPeg axe hax = .ok xah) (hrest : Records xah axes hax') :
    Records hax (axe :: axes) hax' := by
  obtain rfl := qcPeg_ok hne hpeg
  obtain ⟨hne', hfetch⟩ := hrest
  refine ⟨hne', fun n ↦ ?_⟩
  rw [hfetch, List.reverse_cons, follow_append, Option.bind_assoc]
  refine Option.bind_congr fun m _ ↦ ?_
  rw [follow_singleton, slot_peg haxe hne]

/-- The axis that `_cj_hank_fill()` makes. -/
theorem fillWalk_ok {hax hax' : ℕ} (hmatches : Matches D st loc cor) (hne : hax ≠ 0)
    (hwalk : fillWalk tam loc cor hax = .ok (loc', inn, fol, hax')) :
    hookWalk tam loc cor = .ok (loc', inn, fol) ∧ ∃ axes, hookChain tam loc = some axes ∧
    Records hax axes hax' := by
  induction loc generalizing cor hax with
  | root sat nam huc =>
    rw [fillWalk] at hwalk
    rw [hookWalk, hookChain]
    cases hlookup : huc.lookup tam with
    | some fol' =>
      rw [hlookup] at hwalk
      cases hwalk
      exact ⟨rfl, [], rfl, Records.nil hne⟩
    | none =>
      rw [hlookup] at hwalk
      cases hwalk
  | fast pel nam huc ih =>
    obtain ⟨bat, pay, rfl, -⟩ := hmatches.known
    obtain ⟨-, par, hpar, hpel⟩ := hmatches
    obtain rfl : pay = par := Option.some.inj hpar
    rw [fillWalk] at hwalk
    rw [hookWalk, hookChain]
    cases hlookup : huc.lookup tam with
    | some fol' =>
      rw [hlookup] at hwalk
      cases hwalk
      exact ⟨rfl, [], rfl, Records.nil hne⟩
    | none =>
      rw [hlookup] at hwalk
      cases hpeg : qcPeg 3 hax with
      | error why =>
        dsimp only at hwalk
        rw [hpeg] at hwalk
        cases hwalk
      | ok xah =>
        dsimp only at hwalk
        rw [hpeg] at hwalk
        obtain ⟨hrest, axes, hchain, hrecords⟩ := ih hpel (qcPeg_ne (by decide) hne hpeg) hwalk
        exact ⟨hrest, 3 :: axes, by rw [hchain]; rfl, Records.cons (by decide) hne hpeg hrecords⟩
  | slow axe pel nam huc ih =>
    obtain ⟨-, par, hpar, hpel⟩ := hmatches
    have haxe : axe ≠ 0 := by
      rintro rfl
      cases hpar
    rw [fillWalk] at hwalk
    rw [hookWalk, hookChain]
    cases hlookup : huc.lookup tam with
    | some fol' =>
      rw [hlookup] at hwalk
      cases hwalk
      exact ⟨rfl, [], rfl, Records.nil hne⟩
    | none =>
      rw [hlookup, hpar] at hwalk
      rw [hpar]
      cases hpeg : qcPeg axe hax with
      | error why =>
        dsimp only at hwalk
        rw [hpeg] at hwalk
        cases hwalk
      | ok xah =>
        dsimp only at hwalk
        rw [hpeg] at hwalk
        obtain ⟨hrest, axes, hchain, hrecords⟩ := ih hpel (qcPeg_ne haxe hne hpeg) hwalk
        exact ⟨hrest, axe :: axes, by rw [hchain]; rfl, Records.cons haxe hne hpeg hrecords⟩

/-! ### The cache -/

/-- What `_cj_hank_fill()` has done. -/
theorem hankFill_ok {han_u : Hank} (hfill : hankFill D tam cor st = .ok ((han_u, inn), st')) :
    ∃ loc bas loc' fol, spot D cor none st = .ok ((some loc, bas), st') ∧
      fillWalk tam loc cor 1 = .ok (loc', inn, fol, han_u.hax) := by
  cases cor with
  | atom a => cases hfill
  | cell bat pay =>
    obtain ⟨⟨loc, bas⟩, st₁, hspot, hnext⟩ := bind_eq_ok.mp hfill
    cases loc with
    | none => cases hnext
    | some loc =>
      obtain ⟨⟨loc', inn', fol, hax⟩, st₂, hlift, hnext⟩ := bind_eq_ok.mp hnext
      obtain ⟨hwalk, rfl⟩ := lift_eq_ok.mp hlift
      cases inn' with
      | atom a => cases hnext
      | cell bat' pay' =>
        obtain ⟨fin_p, st₃, hcast, hnext⟩ := bind_eq_ok.mp hnext
        obtain ⟨-, rfl⟩ := lift_eq_ok.mp hcast
        obtain ⟨axe, st₄, haxis, hnext⟩ := bind_eq_ok.mp hnext
        obtain ⟨-, rfl⟩ := lift_eq_ok.mp haxis
        refine ⟨loc, bas, loc', fol, ?_⟩
        dsimp only at hnext
        split_ifs at hnext with hzero
        · obtain ⟨pog_p, st₅, hprog, hnext⟩ := bind_eq_ok.mp hnext
          obtain ⟨-, rfl⟩ := lift_eq_ok.mp hprog
          obtain ⟨hpair, rfl⟩ := Prod.mk.inj (pure_eq_ok.mp hnext)
          obtain ⟨rfl, rfl⟩ := Prod.mk.inj hpair
          exact ⟨hspot, hwalk⟩
        · cases harm : slot axe (.cell bat' pay') with
          | none =>
            rw [harm] at hnext
            cases hnext
          | some arm =>
            rw [harm] at hnext
            obtain ⟨pog_p, st₅, hprog, hnext⟩ := bind_eq_ok.mp hnext
            obtain ⟨-, rfl⟩ := lift_eq_ok.mp hprog
            obtain ⟨act, st₆, hnail, hnext⟩ := bind_eq_ok.mp hnext
            obtain ⟨-, rfl⟩ := nail_eq_ok.mp hnail
            obtain ⟨hpair, rfl⟩ := Prod.mk.inj (pure_eq_ok.mp hnext)
            obtain ⟨rfl, rfl⟩ := Prod.mk.inj hpair
            exact ⟨hspot, hwalk⟩

theorem hookFind_iff (hreach : Reaches D st) :
    (∃ loc fol st', hookFind D tam cor st = .ok ((loc, inn, fol), st')) ↔
    ∃ loc bas st' axes, spot D cor none st = .ok ((some loc, bas), st') ∧
    hookChain tam loc = some axes ∧
      follow axes cor = some inn := by
  constructor
  · rintro ⟨loc', fol, st', hfind⟩
    cases cor with
    | atom a => cases hfind
    | cell bat pay =>
      obtain ⟨⟨loc, bas⟩, st₁, hspot, hnext⟩ := bind_eq_ok.mp hfind
      cases loc with
      | none => cases hnext
      | some loc =>
        obtain ⟨hwalk, rfl⟩ := lift_eq_ok.mp hnext
        have hfound := (spot_step hspot hreach.view hreach.inv.1).2.2.2 loc rfl
        obtain ⟨axes, hchain, hfollow, -⟩ := hookWalk_ok hfound.matches_loc hwalk
        exact ⟨loc, bas, st₁, axes, hspot, hchain, hfollow⟩
  · rintro ⟨loc, bas, st', axes, hspot, hchain, hfollow⟩
    have hfound := (spot_step hspot hreach.view hreach.inv.1).2.2.2 loc rfl
    obtain ⟨bat, pay, rfl, -⟩ := hfound.matches_loc.known
    have hspec := @hookWalk_eq D st' tam loc _ hfound.matches_loc
    rw [hchain] at hspec
    obtain ⟨loc', inn', fol, hwalk, hfollow', -⟩ := hspec
    rw [hfollow] at hfollow'
    cases hfollow'
    exact ⟨loc', fol, st', bind_eq_ok.mpr ⟨_, st', hspot, lift_eq_ok.mpr ⟨hwalk, rfl⟩⟩⟩

/-- The axis in the cache leads to the core with the hook exactly where following the chain from its
end leads to the same noun as from its beginning; and a later core for which the cache is used runs
the hook on the core that the search finds exactly where its own chain leads to the same noun as the
cached one from its end. -/
theorem hank_addresses {han_u : Hank} (hreach : Reaches D st)
    (hfill : hankFill D tam cor st = .ok ((han_u, inn), st')) :
    ∃ loc bas axes, spot D cor none st = .ok ((some loc, bas), st') ∧
    hookChain tam loc = some axes ∧
      follow axes cor = some inn ∧
      (Nock.rAt (.atom han_u.hax) cor = some inn ↔ follow axes.reverse cor = follow axes cor) ∧
      ∀ later inn' s, Reaches D s → hankFine han_u later = .ok (some inn') →
        hankFor D (some han_u) tam later s = .ok ((han_u, inn'), s) ∧
        ((∃ loc' fol s', hookFind D tam later s = .ok ((loc', inn', fol), s')) ↔
          ∃ loc' bas' s' axes', spot D later none s = .ok ((some loc', bas'), s') ∧
          hookChain tam loc' = some axes' ∧
            follow axes' later = follow axes.reverse later) := by
  obtain ⟨loc, bas, loc', fol, hspot, hfillwalk⟩ := hankFill_ok hfill
  have hfound := (spot_step hspot hreach.view hreach.inv.1).2.2.2 loc rfl
  obtain ⟨hwalk, axes, hchain, -, hfetch⟩ :=
    fillWalk_ok hfound.matches_loc Nat.one_ne_zero hfillwalk
  obtain ⟨axes', hchain', hfollow, -⟩ := hookWalk_ok hfound.matches_loc hwalk
  rw [hchain] at hchain'
  cases hchain'
  have hcache : ∀ n, Nock.rAt (.atom han_u.hax) n = follow axes.reverse n := by
    intro n
    rw [Nock.rAt_eq_slot, hfetch n]
    cases follow axes.reverse n with
    | none => rfl
    | some m => rfl
  refine ⟨loc, bas, axes, hspot, hchain, hfollow, ?_, fun later inn' s hs hfine ↦ ⟨?_, ?_⟩⟩
  · rw [hcache, hfollow]
  · exact bind_eq_ok.mpr ⟨some inn', s, lift_eq_ok.mpr ⟨hfine, rfl⟩, rfl⟩
  · have hinn : follow axes.reverse later = some inn' := by
      rw [← hcache]
      rw [hankFine] at hfine
      cases hat : Nock.rAt (.atom han_u.hax) later with
      | none =>
        rw [hat] at hfine
        cases hfine
      | some n =>
        rw [hat] at hfine
        dsimp only [bind, Except.bind] at hfine
        cases hcheck : fine n han_u.sit_u.fin_p with
        | error why =>
          rw [hcheck] at hfine
          cases hfine
        | ok fin_o =>
          rw [hcheck] at hfine
          cases fin_o with
          | false => cases hfine
          | true =>
            cases hfine
            rfl
    rw [hookFind_iff hs, hinn]

/-! ### Two chains -/

namespace Hooked

/-- A table without programs. -/
def dash : Dash where
  ray_u _ := ⟨[], []⟩
  dev_u := []
  hot_p _ := none
  hot_ok := hot_ok_none
  bash _ := 0
  hashless := false

/-- The core of a root with a hook. -/
def root : Noun := .cell (.cell (.atom 0) (.atom 1)) (.atom 140)

/-- A gate on it. -/
def gate : Noun := .cell (.cell (.atom 0) (.atom 2)) (.cell (.atom 0) root)

/-- A core with the gate in its sample. -/
def holder : Noun := .cell (.cell (.atom 0) (.atom 3)) (.cell gate (.atom 0))

/-- A gate with the gate in its context, and any sample. -/
def outer (sam : ℕ) : Noun := .cell (.cell (.atom 0) (.atom 4)) (.cell (.atom sam) gate)

/-- The clue of the root, with the hook `[9 2 0 1]` by the name 5. -/
def rootClue : Noun :=
  .cell (.atom 1) (.cell (.cell (.atom 1) (.atom 0)) (.cell (.cell (.atom 5)
    (.cell (.atom 9) (.cell (.atom 2) (.cell (.atom 0) (.atom 1))))) (.atom 0)))

/-- The root and the gate. -/
def based : State := after (mile dash (clue 2 7) gate (after (mile dash rootClue root [Road.new])))

/-- All of them. -/
def hinted :
    State := after (mile dash (clue 4 7) (outer 0) (after (mile dash (clue 3 6) holder based)))

/-- The axis and the core of a new cache, and the core that it gives of another one. -/
def recorded (later : Noun) (x : Except Bail ((Hank × Noun) × State)) :
    Option (ℕ × Noun × Option Noun) :=
  match x with
  | .ok ((han_u, inn), _) =>
    match hankFine han_u later with
    | .ok inn' => some (han_u.hax, inn, inn')
    | .error _ => none
  | .error _ => none

/-- The chain of a core that has been looked for. -/
def chainOf (x : Except Bail ((Option Loc × Option ℕ) × State)) : Option (List ℕ) :=
  match x with
  | .ok ((some loc, _), _) => hookChain 5 loc
  | _ => none

/-- The hints end well, and what is found and recorded after them. -/
theorem hooks_computes : (mile dash rootClue root [Road.new]).isOk = true ∧
    (mile dash (clue 2 7) gate (after (mile dash rootClue root [Road.new]))).isOk = true ∧
    (mile dash (clue 3 6) holder based).isOk = true ∧
    (mile dash (clue 4 7) (outer 0) (after (mile dash (clue 3 6) holder based))).isOk = true ∧
    recorded holder (hankFill dash 5 holder hinted) = some (30, root, none) ∧
    recorded (outer 9) (hankFill dash 5 (outer 0) hinted) = some (31, root, some root) ∧
    chainOf (spot dash (outer 0) none hinted) = some [7, 7] ∧
    chainOf (spot dash (outer 9) none hinted) = some [7, 7] := by
  decide +kernel

theorem reaches_hinted : Reaches dash hinted := by
  obtain ⟨hroot, hgate, hholder, houter, -⟩ := hooks_computes
  obtain ⟨_, hroot⟩ := @after_eq _ (mile dash rootClue root [Road.new]) hroot
  obtain ⟨_, hgate⟩ :=
    @after_eq _ (mile dash (clue 2 7) gate (after (mile dash rootClue root [Road.new])))
    hgate
  obtain ⟨_, hholder⟩ := @after_eq _ (mile dash (clue 3 6) holder based) hholder
  obtain ⟨_, houter⟩ :=
    @after_eq _ (mile dash (clue 4 7) (outer 0) (after (mile dash (clue 3 6) holder based)))
    houter
  exact (((Reaches.boot.mine _ _ hroot).mine _ _ hgate).mine _ _ hholder).mine _ _ houter

theorem recorded_eq {x : Except Bail ((Hank × Noun) × State)} {hax : ℕ} {later inn : Noun}
    {inn' : Option Noun} (hrecorded : recorded later x = some (hax, inn, inn')) :
    ∃ han_u st', x = .ok ((han_u, inn), st') ∧ han_u.hax = hax ∧
    hankFine han_u later = .ok inn' := by
  obtain _ | ⟨⟨han_u, inn''⟩, st'⟩ := x
  · cases hrecorded
  · rw [recorded] at hrecorded
    cases hfine : hankFine han_u later with
    | error why =>
      rw [hfine] at hrecorded
      cases hrecorded
    | ok o =>
      rw [hfine] at hrecorded
      cases hrecorded
      exact ⟨han_u, st', rfl, rfl, hfine⟩

/-- The hook of the root is found by the axes 6 and 7; the axis that is recorded for them is 30,
where the core has nothing. -/
theorem hank_elsewhere : ∃ D st tam cor han_u inn st', Reaches D st ∧
    hankFill D tam cor st = .ok ((han_u, inn), st') ∧ Nock.rAt (.atom han_u.hax) cor ≠
      some inn := by
  obtain ⟨han_u, st', hfill, hhax, -⟩ :=
    @recorded_eq (hankFill dash 5 holder hinted) 30 holder root none
    hooks_computes.2.2.2.2.1
  refine ⟨dash, hinted, 5, holder, han_u, root, st', reaches_hinted, hfill, ?_⟩
  rw [hhax, Nock.rAt_eq_slot]
  decide

theorem hank_addresses_outer :
    ∃ han_u st', hankFill dash 5 (outer 0) hinted = .ok ((han_u, root), st') ∧
    Nock.rAt (.atom han_u.hax) (outer 0) = some root ∧
    hankFor dash (some han_u) 5 (outer 9) hinted = .ok ((han_u, root), hinted) ∧
    ∃ loc fol st', hookFind dash 5 (outer 9) hinted = .ok ((loc, root, fol), st') := by
  obtain ⟨-, -, -, -, -, hrecorded, hchain₀, hchain₉⟩ := hooks_computes
  obtain ⟨han_u, st', hfill, -, hfine⟩ :=
    @recorded_eq (hankFill dash 5 (outer 0) hinted) 31 (outer 9) root (some root) hrecorded
  obtain ⟨loc, bas, axes, hspot, hchain, -, haddress, hlater⟩ := hank_addresses reaches_hinted hfill
  obtain rfl : axes = [7, 7] := by
    rw [hspot, chainOf, hchain] at hchain₀
    exact Option.some.inj hchain₀
  obtain ⟨hcache, hsame⟩ := hlater (outer 9) root hinted reaches_hinted hfine
  refine ⟨han_u, st', hfill, haddress.mpr rfl, hcache, hsame.mpr ?_⟩
  generalize spot dash (outer 9) none hinted = found at hchain₉ ⊢
  obtain _ | ⟨⟨_ | loc', bas'⟩, s'⟩ := found
  · cases hchain₉
  · cases hchain₉
  · exact ⟨loc', bas', s', [7, 7], rfl, hchain₉, rfl⟩

end Hooked

end Vere.Noun.Jets
