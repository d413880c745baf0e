import Mathlib.Algebra.Group.Nat.Defs
import Vere.Lib.Layers
import Vere.Noun.NockRules

/-!
# The jet dashboard

`pkg/noun/jets.c`: how a core is located. The cold state of a road maps batteries to registries, and
the warm state maps locations to activations; both are looked up on the road and on the ones it is
nested in. A registry has the locations of a battery by their static payloads, and by the axis and
the location of the parent core. `spot` is `_cj_spot()`, which looks for a core in the cold state
and then in the hot state, the table that the dashboard is compiled into; what it finds there it
adds to the cold state. `mile` is `_cj_mile()`, which registers a core from a hint, `riteMine` is
`u3j_rite_mine()`, with a cache, and `ream` is `u3j_ream()`, which builds the warm state again.

Maps are maps here, in no particular order, and hooks are in the order of their names, so that maps
with the same entries are equal.
-/

set_option autoImplicit false

namespace Vere.Noun.Jets

open Vere.Lib (Layers.find)
open Vere.Noun.Nock (slot)

/-! ### Locations and registries -/

/-- `(map term axis)`: formulas by hook name. -/
abbrev Hooks := List (ℕ × Noun)

/-- `u3kdb_put`, of hooks. -/
def putHook (nam : ℕ) (fol : Noun) : Hooks → Hooks
  | [] => [(nam, fol)]
  | (nam', fol') :: huc =>
    if nam < nam' then (nam, fol) :: (nam', fol') :: huc
    else if nam = nam' then (nam, fol) :: huc
    else (nam', fol') :: putHook nam fol huc

/-- A location `[pattern name hooks]`, by its pattern. -/
inductive Loc
  /-- `[c3y c3y payload]`. -/
  | root (sat : Noun) (nam : ℕ) (huc : Hooks)
  /-- `[c3y c3n parent]`: the parent is the payload, and static itself. -/
  | fast (pel : Loc) (nam : ℕ) (huc : Hooks)
  /-- `[c3n axis parent]`. -/
  | slow (axe : ℕ) (pel : Loc) (nam : ℕ) (huc : Hooks)
  deriving DecidableEq

namespace Loc

/-- `_cj_loc_axe()`: the axis of the parent, or 0. -/
def axe : Loc → ℕ
  | .root _ _ _ => 0
  | .fast _ _ _ => 3
  | .slow axe _ _ _ => axe

/-- `_cj_loc_pel()`, if it is a location. -/
def pel : Loc → Option Loc
  | .root _ _ _ => none
  | .fast pel _ _ => some pel
  | .slow _ pel _ _ => some pel

/-- The name. -/
def nam : Loc → ℕ
  | .root _ nam _ => nam
  | .fast _ nam _ => nam
  | .slow _ _ nam _ => nam

/-- The hooks. -/
def huc : Loc → Hooks
  | .root _ _ huc => huc
  | .fast _ _ huc => huc
  | .slow _ _ _ huc => huc

/-- The head of the pattern. -/
def isStatic : Loc → Bool
  | .slow _ _ _ _ => false
  | _ => true

end Loc

/-- The locations of a battery with its parent at one axis, by the location of the parent. -/
abbrev Lol := AList fun _ : Loc ↦ Loc

/-- `registry`. -/
structure Reg where
  /-- `roots`. -/
  rut : AList fun _ : Noun ↦ Loc
  /-- `parents`. -/
  pas : List (ℕ × Lol)

/-- `[u3_nul u3_nul]`. -/
def Reg.new : Reg := ⟨∅, []⟩

/-- `_cj_mine_par_old()`. -/
def minePar_old (axe : ℕ) (pel loc : Loc) : List (ℕ × Lol) → Option (List (ℕ × Lol))
  | [] => none
  | (axe', lol) :: lan =>
    if axe = axe' then some ((axe, lol.insert pel loc) :: lan)
    else (minePar_old axe pel loc lan).map fun nex ↦ (axe', lol) :: nex

/-- `_cj_mine_par_new()`. -/
def minePar_new (axe : ℕ) (pel loc : Loc) : List (ℕ × Lol) → List (ℕ × Lol)
  | [] => [(axe, (∅ : Lol).insert pel loc)]
  | (axe', lol) :: lan =>
    if axe < axe' then (axe, (∅ : Lol).insert pel loc) :: (axe', lol) :: lan
    else (axe', lol) :: minePar_new axe pel loc lan

/-- `_cj_mine_par()`. -/
def minePar (axe : ℕ) (pel loc : Loc) (lan : List (ℕ × Lol)) : List (ℕ × Lol) :=
  match minePar_old axe pel loc lan with
  | some old => old
  | none => minePar_new axe pel loc lan

/-- `_cj_gust()`, whose axis and parent are those of the location. -/
def gust (reg : Option Reg) (loc : Loc) : Reg :=
  let reg := reg.getD Reg.new
  match loc with
  | .root sat _ _ => ⟨reg.rut.insert sat loc, reg.pas⟩
  | .fast pel _ _ => ⟨reg.rut, minePar 3 pel loc reg.pas⟩
  | .slow axe pel _ _ => ⟨reg.rut, minePar axe pel loc reg.pas⟩

/-- The locations in a registry. -/
def Reg.locs (reg : Reg) : List Loc :=
  reg.rut.entries.map Sigma.snd ++ reg.pas.flatMap fun par ↦ par.2.entries.map Sigma.snd

/-- What a registry is like: its locations are under their own payload, or axis and parent, the axes
increase, and there is a location under each. -/
structure Reg.Ok (reg : Reg) : Prop where
  sorted : (reg.pas.map Prod.fst).Pairwise (· < ·)
  axes : ∀ par ∈ reg.pas, 1 ≤ par.1 ∧ par.1 < 2 ^ 31
  roots : ∀ sat loc, reg.rut.lookup sat = some loc → ∃ nam huc, loc = .root sat nam huc
  pars : ∀ par ∈ reg.pas, ∀ pel loc, par.2.lookup pel = some loc → loc.axe = par.1 ∧
    loc.pel = some pel
  used : ∀ par ∈ reg.pas, ∃ pel loc, par.2.lookup pel = some loc

/-! ### The dashboard -/

/-- `activation`, without the `jit`, which is null. -/
structure Act where
  /-- Index of the core's entry in `u3D.ray_u`. -/
  jax : ℕ
  /-- Arm indices by axis. -/
  hap : AList fun _ : ℕ ↦ ℕ
  /-- The label. -/
  bal : List ℕ

/-- `hot-info`. -/
structure Hot where
  reg : Reg
  act : Act

/-- `u3j_harm`: a driver, of which `fun_f` gives `none` for a bail and `some none` for `u3_none`. -/
structure Harm where
  /-- The number behind the dot in `fcs_c`. -/
  axe_d : ℕ
  fun_f : Noun → Option (Option Noun)
  ice : Bool
  liv : Bool

/-- `u3j_core`. -/
structure Core where
  arm_u : List Harm
  /-- Names and indices of the entries below. -/
  dev_u : List (ℕ × ℕ)

/-- `u3j_Dash` as `u3j_boot()` installs it. -/
structure Dash where
  /-- `ray_u`. -/
  ray_u : ℕ → Core
  /-- Names and indices of the entries on top. -/
  dev_u : List (ℕ × ℕ)
  /-- `u3H->rod_u.jed.hot_p`. -/
  hot_p : ℕ → Option Hot
  /-- Its registries are made by `_cj_gust()`. -/
  hot_ok : ∀ bas hot, hot_p bas = some hot → hot.reg.Ok
  /-- `_cj_bash()`. -/
  bash : Noun → ℕ
  /-- `u3o_hashless`. -/
  hashless : Bool

/-- A table without a hot state. -/
theorem hot_ok_none : ∀ (_ : ℕ) (hot : Hot), none = some hot → hot.reg.Ok :=
  fun _ _ hhot ↦ by cases hhot

/-- `_cj_hot_mean()`. -/
def hotMean (D : Dash) (par_l nam : ℕ) : ℕ :=
  ((if par_l ≠ 0 then (D.ray_u par_l).dev_u else D.dev_u).lookup nam).getD 0

/-- The axis of an arm, and its index. -/
def humpArm (hap : AList fun _ : ℕ ↦ ℕ) : Harm × ℕ → AList fun _ : ℕ ↦ ℕ
  | (jet_u, i_l) =>
    let axe_l := if jet_u.axe_d >>> 32 = 0 then jet_u.axe_d else 0
    if axe_l = 0 then hap else hap.insert axe_l i_l

/-- `_cj_warm_hump()`. -/
def warmHump (D : Dash) (jax_l : ℕ) : AList fun _ : ℕ ↦ ℕ :=
  if jax_l = 0 then ∅ else (D.ray_u jax_l).arm_u.zipIdx.foldl humpArm ∅

/-! ### Roads -/

/-- The jet state of a road. The last two fields are history that no function reads. -/
structure Road where
  /-- `cod_p`: `[bash registry]` by battery. -/
  cod_p : AList fun _ : Noun ↦ ℕ × Reg
  /-- `war_p`. -/
  war_p : AList fun _ : Loc ↦ Act
  /-- Batteries registered from hints, and their locations. -/
  mined : List (Noun × Loc)
  /-- A location was dropped from the registry of a battery. -/
  lost : Bool

/-- The roads, from `u3R` outwards to the home road. -/
abbrev State := List Road

/-- An empty road. -/
def Road.new : Road := ⟨∅, ∅, [], false⟩

/-- `_cj_find_cold()`. -/
def findCold (st : State) (bat : Noun) : Option (ℕ × Reg) := Layers.find (st.map Road.cod_p) bat

/-- `_cj_find_warm()`. -/
def findWarm (st : State) (loc : Loc) : Option Act := Layers.find (st.map Road.war_p) loc

/-- Why a program stops. -/
inductive Bail
  /-- `u3m_bail(c3__exit)`. -/
  | exit
  /-- `u3m_bail(c3__fail)`. -/
  | fail
  /-- A formula or a driver bails. -/
  | crash
  /-- `c3_assert( u3_none != act )`, of an activation in the warm state. -/
  | unwarm
  /-- Another `c3_assert()`. -/
  | assert
  /-- `u3_none` is read as a noun. -/
  | missing
  /-- The amount of fuel was too small. -/
  | spent
  deriving DecidableEq

/-- A program that works on the roads. When it stops the road is thrown away. -/
abbrev M (α : Type) := StateT State (Except Bail) α

/-- Whether a registry has all locations of another one. -/
def keepsAll (old : Option (ℕ × Reg)) (new : Reg) : Bool :=
  old.all fun bar ↦ bar.2.locs.all fun loc ↦ loc ∈ new.locs

/-- `u3h_put`, to the cold state of the road. -/
def putCold (bat : Noun) (bas : ℕ) (reg : Reg) : M Unit := fun st ↦
  match st with
  | [] => .error .missing
  | road :: rest =>
    .ok ((), { road with
      cod_p := road.cod_p.insert bat (bas, reg)
      lost := road.lost || !keepsAll (findCold st bat) reg } :: rest)

/-- `u3h_put`, to the warm state of the road. -/
def putWarm (loc : Loc) (act : Act) : M Unit := fun st ↦
  match st with
  | [] => .error .missing
  | road :: rest => .ok ((), { road with war_p := road.war_p.insert loc act } :: rest)

/-! ### Locating a core -/

/-- The loop of `_cj_reg_find()` over the parents. -/
def parFind (spot : Noun → M (Option Loc)) (cor : Noun) : List (ℕ × Lol) → M (Option Loc)
  | [] => pure none
  | (axe, lol) :: pas =>
    match slot axe cor with
    | none => parFind spot cor pas
    | some par => do
      let pel ← spot par
      match pel.bind lol.lookup with
      | some loc => pure (some loc)
      | none => parFind spot cor pas

/-- `_cj_reg_find()`, of the core `[bat pay]`. -/
def regFind (spot : Noun → M (Option Loc)) (reg : Reg) (bat pay : Noun) : M (Option Loc) :=
  match reg.rut.lookup pay with
  | some loc => pure (some loc)
  | none => parFind spot (.cell bat pay) reg.pas

variable (D : Dash)

/-- The second part of `_cj_spot()`: the battery was not found in the cold state, or not with this
core. `bar` is what the cold state had when the search began. -/
def spotHot (spot : Noun → M (Option Loc)) (bar : Option (ℕ × Reg)) (bas : ℕ) (bat pay : Noun) :
    M (Option Loc) :=
  if D.hashless then pure none
  else
    match D.hot_p bas with
    | none => pure none
    | some hot => do
      let loc ← regFind spot hot.reg bat pay
      match loc with
      | none => pure none
      | some loc => do
        putCold bat bas (gust (bar.map Prod.snd) loc)
        putWarm loc hot.act
        pure (some loc)

/-- `_cj_spot()`, with what it leaves in `bas`. -/
def spotN : ℕ → Noun → Option ℕ → M (Option Loc × Option ℕ)
  | 0, _, _ => throw .spent
  | _ + 1, .atom _, _ => throw .exit
  | fuel + 1, .cell bat pay, bas => do
    let spot (par : Noun) : M (Option Loc) := do
      let (pel, _) ← spotN fuel par none
      pure pel
    let st ← get
    let bar := findCold st bat
    let loc ← (match bar with
      | none => pure none
      | some bar => regFind spot bar.2 bat pay)
    let bas := bas.or (bar.map Prod.fst)
    match loc with
    | some loc => pure (some loc, bas)
    | none => do
      let bas := bas.getD (D.bash bat)
      let loc ← spotHot D spot bar bas bat pay
      pure (loc, some bas)

/-- `_cj_spot()`. The parents of a core are parts of it, so that its size is fuel enough. -/
def spot (cor : Noun) (bas : Option ℕ) : M (Option Loc × Option ℕ) := spotN D cor.size cor bas

/-! ### Registering a core -/

/-- What is behind hints: the loops that skip `[11 hint formula]`. -/
def skipHints : Noun → Except Bail Noun
  | .atom a => .ok (.atom a)
  | .cell h t => if h = .atom 11 then
      match t with
      | .atom _ => .error .exit
      | .cell _ fol => skipHints fol
    else .ok (.cell h t)

/-- `u3r_string()`: the bytes up to the first zero. -/
def string (a : ℕ) : List ℕ :=
  ((List.range (a.log2 / 8 + 1)).map fun i ↦ a >>> (8 * i) % 256).takeWhile (· ≠ 0)

/-- `u3i_string()`. -/
def iString (str : List ℕ) : ℕ := str.foldr (fun byte a ↦ byte + 256 * a) 0

/-- `_cj_chum()`, as the atom that is made of it. -/
def chum : Noun → Except Bail (Option ℕ)
  | .atom a => .ok (some (iString (string a)))
  | .cell _ (.cell _ _) => .ok none
  | .cell h (.atom t) =>
    if t < 2 ^ 31 then
      match h with
      | .cell _ _ => .error .assert
      | .atom a => .ok (some (iString ((string a ++ (Nat.toDigits 10 t).map Char.toNat).take 31)))
    else .ok none

/-- The list of hooks in a clue. -/
def clueHooks : Hooks → Noun → Option Hooks
  | huk, .atom _ => some huk
  | huk, .cell (.cell (.atom nam) fol) rest => clueHooks (putHook nam fol huk) rest
  | _, .cell _ _ => none

/-- The axis in a clue: `[1 0]` stands for none, otherwise it is the one that is fetched. -/
def clueAxe (h t : Noun) : Option ℕ :=
  if h = .atom 1 ∧ t = .atom 0 then some 0
  else
    match h, t with
    | .atom 0, .atom axe_l => if axe_l < 2 ^ 31 then some axe_l else none
    | _, _ => none

/-- `_cj_je_fsck()`: name, axis and hooks of a clue. -/
def fsck : Noun → Except Bail (Option (ℕ × ℕ × Hooks))
  | .cell p_clu (.cell q_clu r_clu) => do
    let nam ← chum p_clu
    match nam with
    | none => .ok none
    | some nam => do
      let q_clu ← skipHints q_clu
      match q_clu with
      | .atom _ => .ok none
      | .cell h t =>
        match clueAxe h t with
        | none => .ok none
        | some axe_l => .ok ((clueHooks [] r_clu).map fun huk ↦ (nam, axe_l, huk))
  | _ => .ok none

/-- `_cj_minx()`. -/
def minx (nam axe : ℕ) (huc : Hooks) (cor : Noun) : M (Option Loc) :=
  if axe = 0 then
    match cor with
    | .atom _ => throw .exit
    | .cell _ pay => pure (some (.root pay nam huc))
  else
    match slot axe cor with
    | some (.cell bat pay) => do
      let (pel, _) ← spot D (.cell bat pay) none
      match pel with
      | none => pure none
      | some pel =>
        pure (some (if axe = 3 ∧ pel.isStatic then .fast pel nam huc else .slow axe pel nam huc))
    | _ => pure none

/-- The activation of a location below one with activation `pac`, or of a root. -/
def actBelow (pac : Option Act) (loc : Loc) : Act :=
  let jax_l := hotMean D ((pac.map Act.jax).getD 0) loc.nam
  ⟨jax_l, warmHump D jax_l, loc.nam :: (pac.map Act.bal).getD []⟩

/-- The warm entry of the parent in `_cj_mine()`, which asserts that there is one. -/
def parAct (loc : Loc) : M (Option Act) := fun st ↦
  match loc.pel with
  | none => .ok (none, st)
  | some pel =>
    match findWarm st pel with
    | none => .error .unwarm
    | some pac => .ok (some pac, st)

/-- The history of registrations. -/
def putMined (bat : Noun) (loc : Loc) : M Unit := fun st ↦
  match st with
  | [] => .error .missing
  | road :: rest => .ok ((), { road with mined := (bat, loc) :: road.mined } :: rest)

/-- The activation that `_cj_nail()` asserts to be there. -/
def nail (loc : Loc) : M Act := fun st ↦
  match findWarm st loc with
  | none => .error .unwarm
  | some act => .ok (act, st)

/-- `_cj_mine()`. -/
def mine (nam axe : ℕ) (huc : Hooks) (bat pay : Noun) (bas : ℕ) : M (Option Loc) := do
  let loc ← minx D nam axe huc (.cell bat pay)
  match loc with
  | none => pure none
  | some loc => do
    let st ← get
    let reg := gust ((findCold st bat).map Prod.snd) loc
    let pac ← parAct loc
    putMined bat loc
    putCold bat bas reg
    putWarm loc (actBelow D pac loc)
    pure (some loc)

/-- `_cj_audit()`, which looks for the parent again if the hint says something else. -/
def audit (loc : Loc) (nam axe : ℕ) (huc : Hooks) (cor : Noun) : M Unit :=
  if loc.nam ≠ nam ∨ loc.axe ≠ axe ∨ loc.huc ≠ huc then do
    let _ ← minx D nam axe huc cor
    pure ()
  else pure ()

/-- `_cj_mile()`, which `u3j_mine()` and `u3j_rite_mine()` call. -/
def mile (clu cor : Noun) : M (Option Loc) :=
  match cor with
  | .atom _ => pure none
  | .cell bat pay => do
    let cey ← (fsck clu : Except Bail _)
    match cey with
    | none => pure none
    | some (nam, axe, huc) => do
      let (loc, bas) ← spot D (.cell bat pay) none
      match loc with
      | none => mine D nam axe huc bat pay (bas.getD 0)
      | some loc => do
        audit D loc nam axe huc (.cell bat pay)
        pure (some loc)

/-! ### Registration sites -/

/-- `u3j_fist`. -/
structure Fist where
  bat : Noun
  pax : ℕ
  deriving DecidableEq

/-- `u3j_fink`: enough data to verify a located core. -/
structure Fink where
  fis_u : List Fist
  sat : Noun
  deriving DecidableEq

/-- `_cj_cast()`. -/
def cast : Loc → Noun → Except Bail Fink
  | .slow axe pel _ _, .cell bat pay => do
    match slot axe (.cell bat pay) with
    | none => .error .missing
    | some par =>
      let fin_u ← cast pel par
      .ok { fin_u with fis_u := ⟨bat, axe⟩ :: fin_u.fis_u }
  | .slow _ _ _ _, .atom _ => .error .exit
  | _, cor => .ok ⟨[], cor⟩

/-- The loop of `_cj_fine()`. -/
def fineFrom (sat : Noun) : List Fist → Noun → Except Bail Bool
  | [], cor => .ok (sat = cor)
  | _ :: _, .atom _ => .error .exit
  | fis_u :: more, .cell bat pay =>
    if fis_u.bat ≠ bat then .ok false
    else
      match slot fis_u.pax (.cell bat pay) with
      | none => .error .missing
      | some par => fineFrom sat more par

/-- `_cj_fine()`. -/
def fine (cor : Noun) (fin_u : Fink) : Except Bail Bool := fineFrom fin_u.sat fin_u.fis_u cor

/-- What `u3j_rite_mine()` compares, if its site has the clue. -/
def riteFine (rit_u : Option (Noun × Fink)) (clu cor : Noun) : Except Bail Bool :=
  match rit_u with
  | some (old, fin_p) => if old = clu then fine cor fin_p else .ok false
  | none => .ok false

/-- `u3j_rite_mine()`, by the clue and the fink of its site, which it has once a core was located.
-/
def riteMine (rit_u : Option (Noun × Fink)) (clu cor : Noun) : M (Option (Noun × Fink)) := do
  let fin_o ← (riteFine rit_u clu cor : Except Bail _)
  if fin_o then pure rit_u
  else do
    let loc ← mile D clu cor
    match loc with
    | none => pure rit_u
    | some loc => do
      let fin_p ← (cast loc cor : Except Bail _)
      pure (some (clu, fin_p))

/-! ### Roads and checkpoints -/

/-- `u3j_take()` and `u3j_reap()`: a road and the one outside of it. -/
def reap (inner outer : Road) : Road where
  cod_p := inner.cod_p ∪ outer.cod_p
  war_p := inner.war_p ∪ outer.war_p
  mined := inner.mined ++ outer.mined
  lost := inner.lost || outer.lost

/-- The roots in a registry, as `_cj_ream()` puts them into the warm state. -/
def reamRoots (war_p : AList fun _ : Loc ↦ Act) (reg : Reg) : AList fun _ : Loc ↦ Act :=
  reg.rut.entries.foldl (fun war_p entry ↦ war_p.insert entry.2 (actBelow D none entry.2)) war_p

/-- The ancestors in a registry, each `[parent=location this=location]`. -/
def Reg.ancestors (reg : Reg) : List (Loc × Loc) :=
  reg.pas.flatMap fun par ↦ par.2.entries.map fun entry ↦ (entry.1, entry.2)

/-- One turn of the loop of `_cj_ream()`: the warm state, and what is left for the next one. -/
def reamTurn : List (Loc × Loc) → AList (fun _ : Loc ↦ Act) → List (Loc × Loc) →
    AList (fun _ : Loc ↦ Act) × List (Loc × Loc)
  | [], war_p, rem => (war_p, rem)
  | (pel, loc) :: lop, war_p, rem =>
    match war_p.lookup pel with
    | none => reamTurn lop war_p ((pel, loc) :: rem)
    | some pac => reamTurn lop (war_p.insert loc (actBelow D (some pac) loc)) rem

/-- The loop of `_cj_ream()`. -/
def reamLoop : ℕ → List (Loc × Loc) → AList (fun _ : Loc ↦ Act) → Option (AList fun _ : Loc ↦ Act)
  | _, [], war_p => some war_p
  | 0, _ :: _, _ => none
  | fuel + 1, lop, war_p => reamLoop fuel (reamTurn D lop war_p []).2 (reamTurn D lop war_p []).1

/-- `u3j_ream()` on the home road. -/
def ream (fuel : ℕ) (home : Road) : Option Road :=
  let regs := home.cod_p.entries.map fun entry ↦ entry.2.2
  (reamLoop D fuel (regs.flatMap Reg.ancestors) (regs.foldl (reamRoots D) ∅)).map fun war_p ↦
    { home with war_p := war_p }

/-- The states that registrations, look-ups, nested roads and checkpoints lead to. -/
inductive Reaches : State → Prop
  | boot : Reaches [Road.new]
  | mine {st st' : State} {loc : Option Loc} (clu cor : Noun) (hst : Reaches st)
      (hmile : mile D clu cor st = .ok (loc, st')) : Reaches st'
  | spot {st st' : State} {found : Option Loc × Option ℕ} (cor : Noun) (hst : Reaches st)
      (hspot : spot D cor none st = .ok (found, st')) : Reaches st'
  | leap {st : State} (hst : Reaches st) : Reaches (Road.new :: st)
  | love {inner outer : Road} {rest : State} (hst : Reaches (inner :: outer :: rest)) :
      Reaches (reap inner outer :: rest)
  | fall {inner outer : Road} {rest : State} (hst : Reaches (inner :: outer :: rest)) :
      Reaches (outer :: rest)
  | ream {home home' : Road} {fuel : ℕ} (hst : Reaches [home])
    (hream : ream D fuel home = some home') :
      Reaches [home']

end Vere.Noun.Jets
