import Vere.Noun.Axis
import Vere.Noun.Jets
import Vere.Noun.NockAsm

/-!
# Call sites

`pkg/noun/jets.c`: the caches of kicks, gates and hooks. A site has the location of the core that it
has been used with last, and a fink of it.
`siteKick` is `_cj_site_kick()`, `gatePrep` and `gateSlam` are `u3j_gate_prep()` and
`u3j_gate_slam()`, and `hankFill` is `_cj_hank_fill()`, which `u3j_cook()` calls for a hook that it
has not cached; `hookIn` is `_cj_hook_in()`.

A program is the formula that it is made from, if the compiler makes one of it (`prog`), and `nock`
runs it.
-/

set_option autoImplicit false

namespace Vere.Noun.Jets

open Vere.Noun.Nock (slot)

/-! ### Kicks -/

variable (D : Dash) (nock : Noun → Noun → Option Noun)

/-- `ham_u` in `_cj_nail()`, if there is a driver. -/
def nailArm (act : Act) (axe : ℕ) : Option Harm :=
  if act.jax = 0 then
    none else (act.hap.lookup axe).bind fun inx_l ↦ (D.ray_u act.jax).arm_u[inx_l]?

/-- `u3n_burn()` and `u3n_nock_on()`. -/
def burn (fol cor : Noun) : Except Bail Noun :=
  match nock cor fol with
  | some pro => .ok pro
  | none => .error .crash

/-- `u3x_at()`. -/
def at_ (axe : ℕ) (cor : Noun) : Except Bail Noun :=
  match slot axe cor with
  | some fol => .ok fol
  | none => .error .exit

/-- `_cj_prog()`: `u3n_find()` compiles a formula that it does not have a program for. -/
def prog (fol : Noun) : Except Bail Noun :=
  match Nock.bite fol with
  | .ok _ => .ok fol
  | .error .bail => .error .exit
  | .error .assert => .error .assert

/-- `_cj_kick_z()`. A driver that is not perfect is compared with the formula. -/
def kickZ (cor : Noun) (ham_u : Harm) (axe : ℕ) : Except Bail (Option Noun) :=
  if ¬ham_u.liv then .ok none
  else
    match ham_u.fun_f cor with
    | none => .error .crash
    | some none => .ok none
    | some (some pro) =>
      if ham_u.ice then .ok (some pro)
      else do
        let fol ← at_ axe cor
        let ame ← burn nock fol cor
        if ame = pro then .ok (some pro) else .error .fail

/-- `u3j_site`, with `ham_u` if `jet_o`. -/
structure Site where
  pog_p : Noun
  axe : ℕ
  bat : Option Noun
  bas : Option ℕ
  loc : Option Loc
  ham_u : Option Harm
  lab : List ℕ
  fin_p : Fink

/-- `_cj_site_lock()`. -/
def siteLock (cor : Noun) (sit_u : Site) : Except Bail Site :=
  match cor with
  | .atom _ => .error .exit
  | .cell bat pay =>
    if sit_u.bat = some bat then .ok sit_u
    else do
      let fol ← at_ sit_u.axe (.cell bat pay)
      let pog_p ← prog fol
      .ok { sit_u with pog_p := pog_p, bat := some bat }

/-- The kick by the driver of a site, if it has one. -/
def siteJet (cor : Noun) (sit_u : Site) : Except Bail (Option Noun) :=
  match sit_u.ham_u with
  | some ham_u => kickZ nock cor ham_u sit_u.axe
  | none => .ok none

/-- `_cj_site_kick_hot()`; `traced` stands for `u3o_debug_cpu` and `u3o_trace`. -/
def siteKickHot (traced : Bool) (cor : Noun) (sit_u : Site) (lok_o : Bool) :
    Except Bail (Option Noun × Site) := do
  let pro ← siteJet nock cor sit_u
  match pro with
  | some pro => .ok (some pro, sit_u)
  | none => do
    let sit_u ← (if lok_o then siteLock cor sit_u else .ok sit_u)
    if traced then do
      let pro ← burn nock sit_u.pog_p cor
      .ok (some pro, sit_u)
    else .ok (none, sit_u)

/-- The first part of `_cj_site_kick()`: the cached location, if the core matches the fink. -/
def siteFine (cor : Noun) (sit_u : Site) : Except Bail Bool :=
  match sit_u.loc with
  | none => .ok false
  | some _ => fine cor sit_u.fin_p

/-- The second part: the core is looked for. -/
def siteSpot (cor : Noun) (sit_u : Site) : M (Bool × Site) := do
  let (loc, bas) ← spot D cor sit_u.bas
  match loc with
  | none => pure (false, { sit_u with bas := bas })
  | some loc => do
    let fin_p ← (cast loc cor : Except Bail _)
    let act ← nail loc
    pure (true, { sit_u with
      bas := bas, loc := some loc, fin_p := fin_p, ham_u := nailArm D act sit_u.axe,
        lab := act.bal })

/-- Both parts: whether the core is located, and the site with its location. -/
def siteFind (cor : Noun) (sit_u : Site) : M (Bool × Site) := do
  let fin_o ← (siteFine cor sit_u : Except Bail _)
  if fin_o then pure (true, sit_u) else siteSpot D cor sit_u

/-- `_cj_site_kick()`. -/
def siteKick (traced : Bool) (cor : Noun) (sit_u : Site) : M (Option Noun × Site) := do
  let (found, sit_u) ← siteFind D cor sit_u
  let (pro, sit_u) ← (if found then (siteKickHot nock traced cor sit_u true : Except Bail _)
    else pure (none, sit_u))
  match pro with
  | some pro => pure (some pro, sit_u)
  | none => do
    let sit_u ← (siteLock cor sit_u : Except Bail _)
    pure (none, sit_u)

/-! ### Gates -/

/-- `u3qc_cap()` and `u3qc_mas()` of an axis of a location. -/
def axisPart (part : Noun → Except Nock.Crash ℕ) (axe : ℕ) : Except Bail ℕ :=
  match part (.atom axe) with
  | .ok pro => .ok pro
  | .error _ => .error .exit

/-- The test in `u3j_gate_prep()` whether the parent axis includes the sample. -/
def overSample (pax : ℕ) : Except Bail Bool := do
  let pay ← axisPart Nock.cap pax
  let pam ← axisPart Nock.mas pax
  if pay ≠ 3 ∨ pam = 2 then .ok true
  else if pam = 3 then .ok false
  else do
    let pat ← axisPart Nock.cap pam
    .ok (pat ≠ 3)

/-- `u3j_gate_prep()`. The whole gate is in the place of the battery. -/
def gatePrep (cor : Noun) : M Site :=
  match cor with
  | .cell bat (.cell sam con) => do
    let cor := Noun.cell bat (.cell sam con)
    let (loc, bas) ← spot D cor none
    let pog_p ← (prog bat : Except Bail _)
    let sit_u : Site := ⟨pog_p, 2, some cor, bas, loc, none, [], ⟨[], cor⟩⟩
    match loc with
    | none => pure sit_u
    | some loc => do
      let above ← (overSample loc.axe : Except Bail _)
      let act ← nail loc
      pure { sit_u with ham_u := if above then none else nailArm D act 2, lab := act.bal }
  | _ => throw .exit

/-- `u3j_gate_slam()`. -/
def gateSlam (traced : Bool) (sit_u : Site) (sam : Noun) : Except Bail Noun :=
  match sit_u.bat with
  | some (.cell bat (.cell _ con)) => do
    let cor := Noun.cell bat (.cell sam con)
    let (pro, sit_u) ← (match sit_u.loc with
      | some _ => siteKickHot nock traced cor sit_u false
      | none => .ok (none, sit_u))
    match pro with
    | some pro => .ok pro
    | none => burn nock sit_u.pog_p cor
  | _ => .error .exit

/-! ### Hooks -/

/-- `_cj_axis()`: the axis in the formula of a hook, or 0. -/
def axis (fol : Noun) : Except Bail ℕ := do
  let fol ← skipHints fol
  match fol with
  | .cell p_fol (.cell (.atom q_fol) r_fol) =>
    if p_fol = .atom 9 ∧ q_fol < 2 ^ 31 ∧ r_fol = .cell (.atom 0) (.atom 1) then
      .ok q_fol else .ok 0
  | .cell p_fol (.atom q_fol) => if p_fol = .atom 0 ∧ q_fol < 2 ^ 31 then .ok q_fol else .ok 0
  | _ => .ok 0

/-- The loop of `_cj_hook_in()`: the location with the hook, the core that is there, and the
formula. -/
def hookWalk (tam : ℕ) : Loc → Noun → Except Bail (Loc × Noun × Noun)
  | .root sat nam huc, cor =>
    match huc.lookup tam with
    | some fol => .ok (.root sat nam huc, cor, fol)
    | none => .error .fail
  | .fast pel nam huc, cor =>
    match huc.lookup tam with
    | some fol => .ok (.fast pel nam huc, cor, fol)
    | none =>
      match cor with
      | .atom _ => .error .exit
      | .cell _ pay => hookWalk tam pel pay
  | .slow axe pel nam huc, cor =>
    match huc.lookup tam with
    | some fol => .ok (.slow axe pel nam huc, cor, fol)
    | none =>
      match slot axe cor with
      | none => .error .missing
      | some par => hookWalk tam pel par

/-- The first part of `_cj_hook_in()`. -/
def hookFind (tam : ℕ) (cor : Noun) : M (Loc × Noun × Noun) :=
  match cor with
  | .atom _ => throw .fail
  | .cell bat pay => do
    let (loc, _) ← spot D (.cell bat pay) none
    match loc with
    | none => throw .fail
    | some loc => (hookWalk tam loc (.cell bat pay) : Except Bail _)

/-- `_cj_hook_in()`, for `u3j_hook()` and `u3j_soft()`. -/
def hookIn (tam : ℕ) (cor : Noun) (jet_o : Bool) : M Noun := do
  let (loc, cor, fol) ← hookFind D tam cor
  let axe_l ← (axis fol : Except Bail _)
  if axe_l = 0 then (burn nock fol cor : Except Bail _)
  else do
    let act ← nail loc
    let pro ← (match (act.hap.lookup axe_l).bind fun inx_l ↦ (D.ray_u act.jax).arm_u[inx_l]? with
      | some ham_u => if jet_o then (kickZ nock cor ham_u axe_l : Except Bail _) else pure none
      | none => pure none)
    match pro with
    | some pro => pure pro
    | none => do
      let arm ← (at_ axe_l cor : Except Bail _)
      (burn nock arm cor : Except Bail _)

/-- `_cj_hank` with an axis: `hax` and `sit_u`. -/
structure Hank where
  hax : ℕ
  sit_u : Site

/-- `_cj_hank_fine()`, with `*inn`. -/
def hankFine (han_u : Hank) (cor : Noun) : Except Bail (Option Noun) :=
  match Nock.rAt (.atom han_u.hax) cor with
  | none => .ok none
  | some inn => do
    let fin_o ← fine inn han_u.sit_u.fin_p
    .ok (if fin_o then some inn else none)

/-- `u3qc_peg()` of axes that a core has. -/
def qcPeg (a b : ℕ) : Except Bail ℕ :=
  match Nock.qcPeg (fun _ ↦ none) a b with
  | some c => .ok c
  | none => .error .exit

/-- The loop of `_cj_hank_fill()`, which makes the axis of the core as it goes. -/
def fillWalk (tam : ℕ) : Loc → Noun → ℕ → Except Bail (Loc × Noun × Noun × ℕ)
  | .root sat nam huc, cor, hax =>
    match huc.lookup tam with
    | some fol => .ok (.root sat nam huc, cor, fol, hax)
    | none => .error .fail
  | .fast pel nam huc, cor, hax =>
    match huc.lookup tam with
    | some fol => .ok (.fast pel nam huc, cor, fol, hax)
    | none =>
      match cor with
      | .atom _ => .error .exit
      | .cell _ pay => do
        let xah ← qcPeg 3 hax
        fillWalk tam pel pay xah
  | .slow axe pel nam huc, cor, hax =>
    match huc.lookup tam with
    | some fol => .ok (.slow axe pel nam huc, cor, fol, hax)
    | none =>
      match slot axe cor with
      | none => .error .missing
      | some par => do
        let xah ← qcPeg axe hax
        fillWalk tam pel par xah

/-- `_cj_hank_fill()`: the cache, and the core with the hook. -/
def hankFill (tam : ℕ) (cor : Noun) : M (Hank × Noun) :=
  match cor with
  | .atom _ => throw .fail
  | .cell bat pay => do
    let (loc, _) ← spot D (.cell bat pay) none
    match loc with
    | none => throw .fail
    | some loc => do
      let (loc, inn, fol, hax) ← (fillWalk tam loc (.cell bat pay) 1 : Except Bail _)
      match inn with
      | .atom _ => throw .exit
      | .cell bat pay => do
        let fin_p ← (cast loc (.cell bat pay) : Except Bail _)
        let axe ← (axis fol : Except Bail _)
        let sit_u : Site := ⟨fol, axe, some bat, none, some loc, none, [], fin_p⟩
        if axe = 0 then do
          let pog_p ← (prog fol : Except Bail _)
          pure (⟨hax, { sit_u with pog_p := pog_p }⟩, .cell bat pay)
        else
          match slot axe (.cell bat pay) with
          | none => throw .missing
          | some arm => do
            let pog_p ← (prog arm : Except Bail _)
            let act ← nail loc
            let sit_u := { sit_u with pog_p := pog_p, ham_u := nailArm D act axe, lab := act.bal }
            pure (⟨hax, sit_u⟩, .cell bat pay)

/-- The first part of `u3j_cook()`: the cache if it is valid for the core, or a new one, and the
core with the hook. -/
def hankFor (han_u : Option Hank) (tam : ℕ) (cor : Noun) : M (Hank × Noun) :=
  match han_u with
  | none => hankFill D tam cor
  | some han_u => do
    let inn ← (hankFine han_u cor : Except Bail _)
    match inn with
    | some inn => pure (han_u, inn)
    | none => hankFill D tam cor

/-- `u3j_cook()`. -/
def cook (traced : Bool) (han_u : Option Hank) (tam : ℕ) (cor : Noun) : M (Noun × Hank) := do
  let (han_u, inn) ← hankFor D han_u tam cor
  let (pro, sit_u) ← siteKick D nock traced inn han_u.sit_u
  match pro with
  | some pro => pure (pro, { han_u with sit_u := sit_u })
  | none => do
    let pro ← (burn nock sit_u.pog_p inn : Except Bail _)
    pure (pro, { han_u with sit_u := sit_u })

end Vere.Noun.Jets
