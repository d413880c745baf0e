import Vere.King.Disk
import Vere.Noun.Basic

/-!
# The serf

`pkg/vere/serf.c`: the process that holds the kernel. `u3_serf_work` applies a new event, and puts
an error event in its place when it fails; `u3_serf_play` applies a batch of events from the log.
What the kernel makes of an event is a function of the kernel, the date and the event, and so is its
mug; a new event can also be cut short, by its time limit or for lack of memory. A call that does
not return, because it fails an assertion or bails outside of `u3m_soft`, is `none`.

`replay_work` says that the facts of any sequence of new events, played from the same state in any
batches, lead to the same states. `serf_bail_keeps` says that what is rejected changes nothing.
-/

set_option autoImplicit false

namespace Vere.King

open Vere.Noun

/-! ### The state -/

/-- An error of `u3m_soft()`: `[cod tan]`. -/
structure Goof where
  cod : ℕ
  tan : Noun
  deriving DecidableEq

def Goof.noun (dud : Goof) : Noun := .cell (.atom dud.cod) dud.tan

/-- What the serf gets from the kernel: `u3r_mug()`, and `u3v_poke()` and `u3v_life()` under
`u3m_soft()`. `poke` has the kernel, the date and the event, `life` the boot sequence. -/
structure Arvo where
  mug : Noun → UInt32
  poke : Noun → Noun → Noun → Except Goof Noun
  life : Noun → Except Goof Noun

/-- `u3_serf`, with the fields of `u3A` that it sets. -/
structure Serf where
  sen_d : ℕ
  dun_d : ℕ
  mug_l : UInt32
  eve_d : ℕ
  roc : Noun
  now : Noun
  deriving DecidableEq

/-- `u3_serf_init()`, with `_serf_ripe()`, on a kernel after `eve_d` events. -/
def serfInit (arv : Arvo) (eve_d : ℕ) (roc now : Noun) : Serf :=
  { sen_d := eve_d, dun_d := eve_d, mug_l := if eve_d = 0 then 0 else arv.mug roc, eve_d := eve_d,
    roc := roc, now := now }

/-- A fact of the log: an event, with the mug after it. -/
abbrev Fact := Disk.Fact Noun

/-- The response to a new event. -/
inductive Work
  | done (eve_d : ℕ) (mug_l : UInt32) (vir : Noun)
  | swap (eve_d : ℕ) (mug_l : UInt32) (job vir : Noun)
  | bail (lud : List Goof)

/-- The response to a batch from the log. -/
inductive Play
  | done (mug_l : UInt32)
  | bail (eve_d : ℕ) (mug_l : UInt32) (dud : Goof)
  deriving DecidableEq

/-! ### Events -/

def c3Arvo : Noun := .atom 0x6f767261

def c3Crud : Noun := .atom 0x64757263

def c3Mass : Noun := .atom 0x7373616d

def c3Trim : Noun := .atom 0x6d697274

def c3Evil : ℕ := 0x6c697665

/-- `u3x_cell()`. -/
def u3xCell : Noun → Option (Noun × Noun)
  | .cell h t => some (h, t)
  | .atom _ => none

/-- `u3i_vint()`. -/
def u3iVint : Noun → Option Noun
  | .atom a => some (.atom (a + 1))
  | .cell _ _ => none

/-- `_serf_make_crud()`: the error event for a failed event. -/
def serfMakeCrud (job : Noun) (dud : Goof) : Option Noun := do
  let (now, ovo) ← u3xCell job
  let now ← u3iVint now
  some (trel now (trel nul c3Arvo nul) (trel c3Crud dud.noun ovo))

/-- The loop of `_serf_sure_feck()`: the data of the first `%mass` effect is taken out. -/
def serfSureMass : Noun → Option Noun
  | .atom a => if a = 0 then some nul else none
  | .cell ovo riv => do
    let fec ← u3t ovo
    let tag ← u3h fec
    if tag = c3Mass then do
      let wir ← u3h ovo
      some (.cell (trel wir c3Mass nul) riv)
    else do
      let riv ← serfSureMass riv
      some (.cell ovo riv)

/-- `_serf_sure_feck()`: the effects of an event. `pri` is the memory pressure that is found, if
any. -/
def serfSureFeck (pri : Option ℕ) (vir : Noun) : Option Noun := do
  let vir ← serfSureMass vir
  match pri with
  | none => some vir
  | some pri => some (.cell (.cell (trel nul c3Arvo nul) (.cell c3Trim (.atom pri))) vir)

/-- `_serf_sure_core()`: save the state. -/
def serfSureCore (arv : Arvo) (sef_u : Serf) (cor : Noun) : Serf :=
  { sef_u with dun_d := sef_u.sen_d, roc := cor, eve_d := sef_u.sen_d, mug_l := arv.mug cor }

/-- `_serf_sure()`. -/
def serfSure (arv : Arvo) (pri : Option ℕ) (sef_u : Serf) (par : Noun) : Option (Noun × Serf) := do
  let (vir, cor) ← u3xCell par
  let vir ← serfSureFeck pri vir
  some (vir, serfSureCore arv sef_u cor)

/-- `_serf_poke()`, and `_serf_play_poke()` with nothing to cut it short. The date is put back when
the event fails. -/
def serfPoke (arv : Arvo) (cut : Option Goof) (sef_u : Serf) (job : Noun) :
    Option (Except Goof Noun × Serf) := do
  let (now, ovo) ← u3xCell job
  match cut with
  | some dud => some (.error dud, sef_u)
  | none =>
    match arv.poke sef_u.roc now ovo with
    | .ok par => some (.ok par, { sef_u with now := now })
    | .error dud => some (.error dud, sef_u)

/-- What the surroundings do to a new event: what cuts short the event and its error event, and the
memory pressure after it. -/
structure Limits where
  cut : Option Goof
  crud : Option Goof
  pri : Option ℕ

/-- The second half of `_serf_work()`: the event is rejected, and its error event takes its place.
-/
def serfWorkCrud (arv : Arvo) (lim : Limits) (sef_u : Serf) (job : Noun) (dud : Goof) :
    Option (Work × Serf) := do
  let job ← serfMakeCrud job dud
  let (gon, sef_u) ← serfPoke arv lim.crud sef_u job
  match gon with
  | .ok par => do
    let (vir, sef_u) ← serfSure arv lim.pri sef_u par
    some (.swap sef_u.dun_d sef_u.mug_l job vir, sef_u)
  | .error gon => some (.bail [gon, dud], { sef_u with sen_d := sef_u.dun_d })

/-- `_serf_work()`: apply an event, capture effects. -/
def serfWork (arv : Arvo) (lim : Limits) (sef_u : Serf) (job : Noun) : Option (Work × Serf) :=
  if sef_u.sen_d ≠ sef_u.dun_d then none
  else do
    let (gon, sef_u) ← serfPoke arv lim.cut { sef_u with sen_d := sef_u.sen_d + 1 } job
    match gon with
    | .ok par => do
      let (vir, sef_u) ← serfSure arv lim.pri sef_u par
      some (.done sef_u.dun_d sef_u.mug_l vir, sef_u)
    | .error dud =>
      if dud.cod = c3Evil then some (.bail [dud], { sef_u with sen_d := sef_u.dun_d })
      else serfWorkCrud arv lim sef_u job dud

/-- `u3_serf_work()`: there is a kernel. -/
def u3SerfWork (arv : Arvo) (lim : Limits) (sef_u : Serf) (job : Noun) : Option (Work × Serf) :=
  if sef_u.mug_l = 0 then none else serfWork arv lim sef_u job

/-! ### Batches -/

/-- `u3i_list()`. -/
def u3iList : List Noun → Noun
  | [] => nul
  | job :: lit => .cell job (u3iList lit)

/-- `_serf_play_life()`: the boot sequence. -/
def serfPlayLife (arv : Arvo) (sef_u : Serf) (eve : List Noun) : Option (Play × Serf) :=
  if sef_u.sen_d ≠ 0 then none
  else
    let sef_u := { sef_u with sen_d := eve.length, roc := nul }
    match arv.life (u3iList eve) with
    | .ok cor =>
      let sef_u := serfSureCore arv sef_u cor
      some (.done sef_u.mug_l, sef_u)
    | .error dud => some (.bail 0 0 dud, { sef_u with sen_d := 0, dun_d := 0 })

/-- `_serf_play_list()`: a batch of events. -/
def serfPlayList (arv : Arvo) (sef_u : Serf) : List Noun → Option (Play × Serf)
  | [] => some (.done sef_u.mug_l, sef_u)
  | job :: eve => do
    let (gon, sef_u) ← serfPoke arv none { sef_u with sen_d := sef_u.sen_d + 1 } job
    match gon with
    | .ok par => do
      let (_, sef_u) ← serfSure arv none sef_u par
      serfPlayList arv sef_u eve
    | .error dud =>
      let sef_u := { sef_u with sen_d := sef_u.dun_d }
      some (.bail sef_u.dun_d sef_u.mug_l dud, sef_u)

/-- `u3_serf_play()`: apply a list of events. -/
def u3SerfPlay (arv : Arvo) (sef_u : Serf) (eve_d : ℕ) (lit : List Noun) : Option (Play × Serf) :=
  if eve_d ≠ sef_u.sen_d + 1 then none
  else if sef_u.dun_d = 0 then serfPlayLife arv sef_u lit
  else serfPlayList arv sef_u lit

/-! ### Runs -/

/-- The fact that the king logs for a new event. -/
def Work.fact (job : Noun) : Work → Option Fact
  | .done eve_d mug_l _ => some ⟨eve_d, mug_l, job⟩
  | .swap eve_d mug_l job _ => some ⟨eve_d, mug_l, job⟩
  | .bail _ => none

/-- A sequence of new events: the facts, each with the state after it, and the last state. -/
def serfWorks (arv : Arvo) (sef_u : Serf) :
    List (Limits × Noun) → Option (List (Fact × Serf) × Serf)
  | [] => some ([], sef_u)
  | (lim, job) :: rest => do
    let (pro, nex_u) ← u3SerfWork arv lim sef_u job
    let (hist, last) ← serfWorks arv nex_u rest
    match pro.fact job with
    | some tac => some ((tac, nex_u) :: hist, last)
    | none => some (hist, last)

/-- A sequence of batches: the responses, each with the state after it. -/
def serfPlays (arv : Arvo) (sef_u : Serf) : List (List Fact) → Option (List (Play × Serf))
  | [] => some []
  | fon :: rest => do
    let eve_d := (fon.head?.map fun tac ↦ tac.eve_d).getD 0
    let (pro, nex_u) ← u3SerfPlay arv sef_u eve_d (fon.map fun tac ↦ tac.job)
    let pros ← serfPlays arv nex_u rest
    some ((pro, nex_u) :: pros)

/-- The states between writs. -/
structure Serf.Ready (arv : Arvo) (sef_u : Serf) : Prop where
  sen : sef_u.sen_d = sef_u.dun_d
  eve : sef_u.eve_d = sef_u.dun_d
  mug : sef_u.mug_l = if sef_u.dun_d = 0 then 0 else arv.mug sef_u.roc

variable {arv : Arvo} {sef_u sef_u' : Serf}

theorem serfInit_ready (eve_d : ℕ) (roc now : Noun) : (serfInit arv eve_d roc now).Ready arv :=
  ⟨rfl, rfl, rfl⟩

theorem serfSureCore_ready (hne : sef_u.sen_d ≠ 0) (cor : Noun) :
    (serfSureCore arv sef_u cor).Ready arv :=
  ⟨rfl, rfl, (if_neg hne).symm⟩

variable {cut : Option Goof} {job : Noun} {hist : List (Fact × Serf)} {last : Serf}

/-- What a poke can do: the kernel accepts the event, or nothing changes. -/
theorem serfPoke_cases {gon : Except Goof Noun}
    (hpoke : serfPoke arv cut sef_u job = some (gon, sef_u')) :
    (∃ now ovo par, job = .cell now ovo ∧ gon = .ok par ∧ arv.poke sef_u.roc now ovo = .ok par ∧
      sef_u' = { sef_u with now := now }) ∨ (∃ dud, gon = .error dud) ∧ sef_u' = sef_u := by
  cases job with
  | atom a => simp [serfPoke, u3xCell] at hpoke
  | cell now ovo =>
    cases cut with
    | some dud =>
      simp only [serfPoke, u3xCell, Option.bind_eq_bind, Option.bind_some, Option.some.injEq,
        Prod.mk.injEq] at hpoke
      exact .inr ⟨⟨dud, hpoke.1.symm⟩, hpoke.2.symm⟩
    | none =>
      cases hres : arv.poke sef_u.roc now ovo with
      | ok par =>
        simp only [serfPoke, u3xCell, Option.bind_eq_bind, Option.bind_some, hres,
          Option.some.injEq, Prod.mk.injEq] at hpoke
        exact .inl ⟨now, ovo, par, rfl, hpoke.1.symm, hres, hpoke.2.symm⟩
      | error dud =>
        simp only [serfPoke, u3xCell, Option.bind_eq_bind, Option.bind_some, hres,
          Option.some.injEq, Prod.mk.injEq] at hpoke
        exact .inr ⟨⟨dud, hpoke.1.symm⟩, hpoke.2.symm⟩

/-- Saving the state after an event does not depend on the memory pressure. -/
theorem serfSure_cases {pri : Option ℕ} {par vir : Noun}
    (hsure : serfSure arv pri sef_u par = some (vir, sef_u')) :
    (∃ cor, sef_u' = serfSureCore arv sef_u cor) ∧
      ∃ vir, serfSure arv none sef_u par = some (vir, sef_u') := by
  cases par with
  | atom a => simp [serfSure, u3xCell] at hsure
  | cell vir cor =>
    simp only [serfSure, u3xCell, serfSureFeck, Option.bind_eq_bind, Option.bind_some] at hsure ⊢
    cases hmass : serfSureMass vir with
    | none => simp [hmass] at hsure
    | some riv =>
      have hlast : sef_u' = serfSureCore arv sef_u cor := by
        cases pri <;> simp_all
      exact ⟨⟨cor, hlast⟩, riv, by simp [hlast]⟩

/-- An event that is in the log: playing it leads from one state to the next. -/
structure Accepts (arv : Arvo) (sef_u : Serf) (tac_u : Fact) (sef_u' : Serf) : Prop where
  number : tac_u.eve_d = sef_u.dun_d + 1
  mug : tac_u.mug_l = sef_u'.mug_l
  done : sef_u'.dun_d = sef_u.dun_d + 1
  ready : sef_u'.Ready arv
  play : ∀ eve, serfPlayList arv sef_u (tac_u.job :: eve) = serfPlayList arv sef_u' eve

/-- A poke that succeeds, and whose product is saved, can be played. -/
theorem accepts_of_poke {pri : Option ℕ} {par vir : Noun} {mid_u : Serf} (hready : sef_u.Ready arv)
    (hpoke : serfPoke arv cut { sef_u with sen_d := sef_u.sen_d + 1 } job = some (.ok par, mid_u))
    (hsure : serfSure arv pri mid_u par = some (vir, sef_u')) :
    Accepts arv sef_u ⟨sef_u'.dun_d, sef_u'.mug_l, job⟩ sef_u' := by
  obtain ⟨now, ovo, par', rfl, hpar, hres, rfl⟩ | ⟨⟨dud, hdud⟩, _⟩ := serfPoke_cases hpoke
  · obtain rfl := Except.ok.inj hpar
    obtain ⟨⟨cor, rfl⟩, vir', hplay⟩ := serfSure_cases hsure
    have hdone : sef_u.sen_d + 1 = sef_u.dun_d + 1 := by rw [hready.sen]
    refine ⟨hdone, rfl, hdone, serfSureCore_ready (Nat.succ_ne_zero _) cor, fun eve ↦ ?_⟩
    simp [serfPlayList, serfPoke, u3xCell, hres, hplay]
  · simp at hdud

/-- What `u3_serf_work()` can do: an event goes in the log, or nothing changes. -/
theorem u3SerfWork_cases {lim : Limits} {pro : Work} (hready : sef_u.Ready arv)
    (hwork : u3SerfWork arv lim sef_u job = some (pro, sef_u')) :
    sef_u.dun_d ≠ 0 ∧ ((∃ tac_u, pro.fact job = some tac_u ∧ Accepts arv sef_u tac_u sef_u') ∨
      pro.fact job = none ∧ sef_u' = sef_u) := by
  unfold u3SerfWork at hwork
  split_ifs at hwork with hmug
  have hne : sef_u.dun_d ≠ 0 := by
    intro hzero
    rw [hready.mug, if_pos hzero] at hmug
    exact hmug rfl
  have hback : ({ sef_u with sen_d := sef_u.dun_d } : Serf) = sef_u := by
    obtain ⟨sen_d, dun_d, mug_l, eve_d, roc, now⟩ := sef_u
    exact congrArg (fun sen_d ↦ Serf.mk sen_d dun_d mug_l eve_d roc now) hready.sen.symm
  refine ⟨hne, ?_⟩
  unfold serfWork at hwork
  rw [if_neg (not_not.mpr hready.sen)] at hwork
  obtain ⟨⟨gon, mid_u⟩, hpoke, hwork⟩ := Option.bind_eq_some_iff.mp hwork
  cases gon with
  | ok par =>
    obtain ⟨⟨vir, last_u⟩, hsure, hpro⟩ := Option.bind_eq_some_iff.mp hwork
    simp only [Option.some.injEq, Prod.mk.injEq] at hpro
    obtain ⟨rfl, rfl⟩ := hpro
    exact .inl ⟨_, rfl, accepts_of_poke hready hpoke hsure⟩
  | error dud =>
    obtain ⟨_, _, _, _, hgon, _, _⟩ | ⟨_, rfl⟩ := serfPoke_cases hpoke
    · simp at hgon
    · dsimp only at hwork
      split_ifs at hwork with hevil
      · simp only [Option.some.injEq, Prod.mk.injEq] at hwork
        obtain ⟨rfl, rfl⟩ := hwork
        exact .inr ⟨rfl, hback⟩
      · obtain ⟨crud, hcrud, hwork⟩ := Option.bind_eq_some_iff.mp hwork
        obtain ⟨⟨gon, mid_u⟩, hpoke, hwork⟩ := Option.bind_eq_some_iff.mp hwork
        cases gon with
        | ok par =>
          obtain ⟨⟨vir, last_u⟩, hsure, hpro⟩ := Option.bind_eq_some_iff.mp hwork
          simp only [Option.some.injEq, Prod.mk.injEq] at hpro
          obtain ⟨rfl, rfl⟩ := hpro
          exact .inl ⟨_, rfl, accepts_of_poke hready hpoke hsure⟩
        | error gon =>
          obtain ⟨_, _, _, _, hgon, _, _⟩ | ⟨_, rfl⟩ := serfPoke_cases hpoke
          · simp at hgon
          · simp only [Option.some.injEq, Prod.mk.injEq] at hwork
            obtain ⟨rfl, rfl⟩ := hwork
            exact .inr ⟨rfl, hback⟩

/-- Facts that can be played one after the other, each with the state after it. -/
inductive Chain (arv : Arvo) : Serf → List (Fact × Serf) → Serf → Prop
  | nil (sef_u : Serf) : Chain arv sef_u [] sef_u
  | cons {sef_u nex_u last : Serf} {tac_u : Fact} {hist : List (Fact × Serf)}
      (hne : sef_u.dun_d ≠ 0) (haccepts : Accepts arv sef_u tac_u nex_u)
      (hchain : Chain arv nex_u hist last) : Chain arv sef_u ((tac_u, nex_u) :: hist) last

theorem serfWorks_chain {evs : List (Limits × Noun)} (hready : sef_u.Ready arv)
    (hworks : serfWorks arv sef_u evs = some (hist, last)) : Chain arv sef_u hist last := by
  induction evs generalizing sef_u hist with
  | nil =>
    simp only [serfWorks, Option.some.injEq, Prod.mk.injEq] at hworks
    obtain ⟨rfl, rfl⟩ := hworks
    exact .nil sef_u
  | cons ev evs ih =>
    obtain ⟨lim, job⟩ := ev
    obtain ⟨⟨pro, nex_u⟩, hwork, hfollow⟩ := Option.bind_eq_some_iff.mp hworks
    obtain ⟨⟨hist', last'⟩, hrest, hlog⟩ := Option.bind_eq_some_iff.mp hfollow
    obtain ⟨hne, ⟨tac_u, hfact, haccepts⟩ | ⟨hfact, rfl⟩⟩ := u3SerfWork_cases hready hwork
    · simp only [hfact, Option.some.injEq, Prod.mk.injEq] at hlog
      obtain ⟨rfl, rfl⟩ := hlog
      exact .cons hne haccepts (ih haccepts.ready hrest)
    · simp only [hfact, Option.some.injEq, Prod.mk.injEq] at hlog
      obtain ⟨rfl, rfl⟩ := hlog
      exact ih hready hrest

/-- A chain divides where its list of facts does. -/
theorem Chain.append_inv {rest : List (Fact × Serf)}
    (hchain : Chain arv sef_u (hist ++ rest) last) :
    ∃ mid, Chain arv sef_u hist mid ∧ Chain arv mid rest last := by
  induction hist generalizing sef_u with
  | nil => exact ⟨sef_u, .nil sef_u, hchain⟩
  | cons item hist ih =>
    cases hchain with
    | cons hne haccepts hrest =>
      obtain ⟨mid, hhist, htail⟩ := ih hrest
      exact ⟨mid, .cons hne haccepts hhist, htail⟩

theorem Chain.last_eq (hchain : Chain arv sef_u hist last) :
    last = (hist.getLast?.map Prod.snd).getD sef_u := by
  induction hchain with
  | nil sef_u => rfl
  | cons hne haccepts hrest ih =>
    rename_i hist
    cases hist with
    | nil =>
      cases hrest
      rfl
    | cons item hist =>
      rw [ih, List.getLast?_cons_cons]
      cases hlast : (item :: hist).getLast? with
      | none => simp at hlast
      | some item => rfl

theorem Chain.ready (hchain : Chain arv sef_u hist last) (hready : sef_u.Ready arv) :
    last.Ready arv := by
  induction hchain with
  | nil => exact hready
  | cons hne haccepts hrest ih => exact ih haccepts.ready

theorem Chain.play (hchain : Chain arv sef_u hist last) :
    serfPlayList arv sef_u (hist.map fun item ↦ item.1.job) = some (.done last.mug_l, last) := by
  induction hchain with
  | nil sef_u => rfl
  | cons hne haccepts hrest ih => rw [List.map_cons, haccepts.play, ih]

theorem Chain.facts (hchain : Chain arv sef_u hist last) :
    ∀ item ∈ hist, item.1.eve_d = item.2.dun_d ∧ item.1.mug_l = item.2.mug_l := by
  induction hchain with
  | nil => simp
  | cons hne haccepts hrest ih =>
    intro item hitem
    rcases List.mem_cons.mp hitem with rfl | hitem
    · exact ⟨haccepts.number.trans haccepts.done.symm, haccepts.mug⟩
    · exact ih item hitem

/-- Playing a chain as one batch. -/
theorem Chain.batch {item : Fact × Serf} (hchain : Chain arv sef_u (item :: hist) last)
    (hready : sef_u.Ready arv) :
    u3SerfPlay arv sef_u item.1.eve_d ((item :: hist).map fun item ↦ item.1.job) =
      some (.done last.mug_l, last) := by
  have hplay := hchain.play
  cases hchain with
  | cons hne haccepts hrest =>
    have hnumber := haccepts.number
    rw [← hready.sen] at hnumber
    rw [u3SerfPlay, if_neg (not_not.mpr hnumber), if_neg hne]
    exact hplay

/-- Playing a chain in batches. -/
theorem Chain.plays {fons : List (List (Fact × Serf))} (hchain : Chain arv sef_u fons.flatten last)
    (hready : sef_u.Ready arv) (hne : ∀ fon ∈ fons, fon ≠ []) :
    serfPlays arv sef_u (fons.map fun fon ↦ fon.map Prod.fst) = some (fons.filterMap fun fon ↦
      fon.getLast?.map fun item ↦ (.done item.1.mug_l, item.2)) := by
  induction fons generalizing sef_u with
  | nil => rfl
  | cons fon fons ih =>
    obtain ⟨mid, hfon, hrest⟩ := hchain.append_inv
    have hplays := ih hrest (hfon.ready hready) fun fon hmem ↦ hne fon (by simp [hmem])
    cases fon with
    | nil => exact absurd rfl (hne [] (by simp))
    | cons item fon =>
      obtain ⟨final, hfinal⟩ : ∃ final, (item :: fon).getLast? = some final :=
        ⟨_, List.getLast?_eq_some_getLast (by simp)⟩
      have hmid : mid = final.2 := by
        rw [hfon.last_eq, hfinal]
        rfl
      have hmug := (hfon.facts final (List.mem_of_getLast? hfinal)).2
      have hbatch := hfon.batch hready
      rw [hmid] at hbatch hplays
      rw [← hmug] at hbatch
      rw [List.filterMap_cons_some (by rw [hfinal]; rfl), List.map_cons, serfPlays]
      have hhead : (((item :: fon).map Prod.fst).head?.map fun tac : Fact ↦ tac.eve_d).getD 0 =
          item.1.eve_d := rfl
      simp only [hhead, List.map_map, Function.comp_def, hbatch, Option.bind_eq_bind,
        Option.bind_some, hplays]

/-- The facts of a sequence of new events, played in any batches from the same state, lead to the
same states, with no bail. -/
theorem replay_work {evs : List (Limits × Noun)} {hist : List (Fact × Serf)} {last : Serf}
    (hready : sef_u.Ready arv) (hworks : serfWorks arv sef_u evs = some (hist, last))
    (fons : List (List (Fact × Serf))) (hdivide : fons.flatten = hist)
    (hne : ∀ fon ∈ fons, fon ≠ []) :
    serfPlays arv sef_u (fons.map fun fon ↦ fon.map Prod.fst) = some (fons.filterMap fun fon ↦
        fon.getLast?.map fun item ↦ (.done item.1.mug_l, item.2)) ∧
      last = (hist.getLast?.map Prod.snd).getD sef_u ∧
      ∀ item ∈ hist, item.1.eve_d = item.2.dun_d ∧ item.1.mug_l = item.2.mug_l := by
  have hchain := serfWorks_chain hready hworks
  subst hdivide
  exact ⟨hchain.plays hready hne, hchain.last_eq, hchain.facts⟩

/-- A kernel that keeps its events, and rejects two of them. -/
def tally : Arvo where
  mug := fun noun ↦ UInt32.ofNat noun.size
  poke := fun roc _ ovo ↦
    if ovo = .atom 1 then .error ⟨2, nul⟩
    else if ovo = .atom 2 then .error ⟨c3Evil, nul⟩
    else .ok (.cell nul (.cell ovo roc))
  life := fun eve ↦ .ok eve

/-- An event that is accepted, one that its error event takes the place of, and one that is dropped,
played as one batch. -/
theorem replay_work_tally :
    ∃ hist last, serfWorks tally (serfInit tally 3 (.atom 7) nul)
        [(⟨none, none, none⟩, .cell (.atom 5) (.atom 0)),
        (⟨none, none, none⟩, .cell (.atom 6) (.atom 1)),
          (⟨none, none, none⟩, .cell (.atom 7) (.atom 2))] = some (hist, last) ∧ hist.length = 2 ∧
      serfPlays tally (serfInit tally 3 (.atom 7) nul) ([hist].map fun fon ↦ fon.map Prod.fst) =
        some ([hist].filterMap fun fon ↦
          fon.getLast?.map fun item ↦ (.done item.1.mug_l, item.2)) ∧
      last = (hist.getLast?.map Prod.snd).getD (serfInit tally 3 (.atom 7) nul) ∧
      ∀ item ∈ hist, item.1.eve_d = item.2.dun_d ∧ item.1.mug_l = item.2.mug_l := by
  obtain ⟨hist, last, hworks, hlength⟩ : ∃ hist last,
      serfWorks tally (serfInit tally 3 (.atom 7) nul)
        [(⟨none, none, none⟩, .cell (.atom 5) (.atom 0)),
        (⟨none, none, none⟩, .cell (.atom 6) (.atom 1)),
          (⟨none, none, none⟩, .cell (.atom 7) (.atom 2))] = some (hist, last) ∧ hist.length = 2 :=
    ⟨_, _, rfl, rfl⟩
  have hne : ∀ fon ∈ [hist], fon ≠ [] := by
    intro fon hfon hnil
    rw [List.mem_singleton.mp hfon] at hnil
    simp [hnil] at hlength
  exact ⟨hist, last, hworks, hlength,
    replay_work (serfInit_ready 3 (.atom 7) nul) hworks [hist] (by simp) hne⟩

/-! ### Rejected events -/

/-- The state after an event that was accepted, with what is reported of it: the counters have grown
by one, and the kernel and its mug are those of the last poke, at the date of the job. -/
structure Advanced (arv : Arvo) (sef_u : Serf) (job : Noun) (eve_d : ℕ) (mug_l : UInt32)
    (sef_u' : Serf) :
    Prop where
  dun : sef_u'.dun_d = sef_u.dun_d + 1
  sen : sef_u'.sen_d = sef_u.sen_d + 1
  eve : sef_u'.eve_d = sef_u'.dun_d
  number : eve_d = sef_u'.dun_d
  mug : mug_l = arv.mug sef_u'.roc ∧ sef_u'.mug_l = mug_l
  poke : ∃ ovo vir, job = .cell sef_u'.now ovo ∧ arv.poke sef_u.roc sef_u'.now ovo =
    .ok (.cell vir sef_u'.roc)

theorem sen_reset (hsen : sef_u.sen_d = sef_u.dun_d) (sen_d : ℕ) :
    ({ ({ sef_u with sen_d := sen_d } : Serf) with sen_d := sef_u.dun_d } : Serf) = sef_u := by
  obtain ⟨sen_d', dun_d, mug_l, eve_d, roc, now⟩ := sef_u
  exact congrArg (fun sen_d ↦ Serf.mk sen_d dun_d mug_l eve_d roc now) hsen.symm

/-- A poke that succeeds, and whose product is saved. -/
theorem advanced_of_poke {pri : Option ℕ} {par vir : Noun} {mid_u : Serf}
    (hsen : sef_u.sen_d = sef_u.dun_d)
    (hpoke : serfPoke arv cut { sef_u with sen_d := sef_u.sen_d + 1 } job = some (.ok par, mid_u))
    (hsure : serfSure arv pri mid_u par = some (vir, sef_u')) :
    Advanced arv sef_u job sef_u'.dun_d sef_u'.mug_l sef_u' := by
  obtain ⟨now, ovo, par', rfl, hpar, hres, rfl⟩ | ⟨⟨dud, hdud⟩, _⟩ := serfPoke_cases hpoke
  · obtain rfl := Except.ok.inj hpar
    cases par with
    | atom a => simp [serfSure, u3xCell] at hsure
    | cell vir' cor =>
      obtain ⟨vir'', -, hlast⟩ := Option.bind_eq_some_iff.mp hsure
      obtain ⟨-, rfl⟩ := Prod.mk.inj (Option.some.inj hlast)
      refine ⟨?_, rfl, rfl, rfl, ⟨rfl, rfl⟩, ovo, vir', rfl, hres⟩
      show sef_u.sen_d + 1 = sef_u.dun_d + 1
      rw [hsen]
  · cases hdud

/-- The error event of a rejected event is accepted, or nothing changes. -/
theorem serfWorkCrud_cases {lim : Limits} {dud : Goof} {pro : Work}
    (hsen : sef_u.sen_d = sef_u.dun_d)
    (hcrud : serfWorkCrud arv lim { sef_u with sen_d := sef_u.sen_d + 1 } job dud = some (pro,
    sef_u')) :
    (∃ eve_d mug_l job' vir, pro = .swap eve_d mug_l job' vir ∧
    Advanced arv sef_u job' eve_d mug_l sef_u') ∨
      (∃ lud, pro = .bail lud) ∧ sef_u' = sef_u := by
  obtain ⟨crud, -, hcrud⟩ := Option.bind_eq_some_iff.mp hcrud
  obtain ⟨⟨gon, mid_u⟩, hpoke, hcrud⟩ := Option.bind_eq_some_iff.mp hcrud
  cases gon with
  | ok par =>
    obtain ⟨⟨vir, last_u⟩, hsure, hpro⟩ := Option.bind_eq_some_iff.mp hcrud
    obtain ⟨rfl, rfl⟩ := Prod.mk.inj (Option.some.inj hpro)
    exact Or.inl ⟨_, _, crud, vir, rfl, advanced_of_poke hsen hpoke hsure⟩
  | error gon =>
    obtain ⟨_, _, _, _, hgon, _, _⟩ | ⟨-, rfl⟩ := serfPoke_cases hpoke
    · cases hgon
    · obtain ⟨rfl, rfl⟩ := Prod.mk.inj (Option.some.inj hcrud)
      exact Or.inr ⟨⟨_, rfl⟩, sen_reset hsen _⟩

/-- What `u3_serf_work()` can do, from any state in which the counters agree. -/
theorem u3SerfWork_advances {lim : Limits} {pro : Work} (hsen : sef_u.sen_d = sef_u.dun_d)
    (hwork : u3SerfWork arv lim sef_u job = some (pro, sef_u')) :
    (∃ eve_d mug_l vir, pro = .done eve_d mug_l vir ∧ Advanced arv sef_u job eve_d mug_l sef_u') ∨
      (∃ eve_d mug_l job' vir, pro = .swap eve_d mug_l job' vir ∧
        Advanced arv sef_u job' eve_d mug_l sef_u') ∨
      (∃ lud, pro = .bail lud) ∧ sef_u' = sef_u := by
  unfold u3SerfWork at hwork
  split_ifs at hwork
  unfold serfWork at hwork
  rw [if_neg (not_not.mpr hsen)] at hwork
  obtain ⟨⟨gon, mid_u⟩, hpoke, hwork⟩ := Option.bind_eq_some_iff.mp hwork
  cases gon with
  | ok par =>
    obtain ⟨⟨vir, last_u⟩, hsure, hpro⟩ := Option.bind_eq_some_iff.mp hwork
    obtain ⟨rfl, rfl⟩ := Prod.mk.inj (Option.some.inj hpro)
    exact Or.inl ⟨_, _, vir, rfl, advanced_of_poke hsen hpoke hsure⟩
  | error dud =>
    obtain ⟨_, _, _, _, hgon, _, _⟩ | ⟨-, rfl⟩ := serfPoke_cases hpoke
    · cases hgon
    · dsimp only at hwork
      split_ifs at hwork with hevil
      · obtain ⟨rfl, rfl⟩ := Prod.mk.inj (Option.some.inj hwork)
        exact Or.inr (Or.inr ⟨⟨_, rfl⟩, sen_reset hsen _⟩)
      · exact Or.inr (serfWorkCrud_cases hsen hwork)

/-- A batch that bails has done the events before the one that fails, and is in the state after
them. -/
theorem serfPlayList_bail {lit : List Noun} {eve_d : ℕ} {mug_l : UInt32} {dud : Goof}
    (hsen : sef_u.sen_d = sef_u.dun_d)
    (hplay : serfPlayList arv sef_u lit = some (.bail eve_d mug_l dud, sef_u')) :
    ∃ pre job post, lit = pre ++ job :: post ∧
    serfPlayList arv sef_u pre = some (.done sef_u'.mug_l, sef_u') ∧
      sef_u'.dun_d = sef_u.dun_d + pre.length ∧ sef_u'.sen_d = sef_u'.dun_d ∧
      (∃ now ovo, job = .cell now ovo ∧ arv.poke sef_u'.roc now ovo = .error dud) ∧
      eve_d = sef_u'.dun_d ∧ mug_l = sef_u'.mug_l := by
  induction lit generalizing sef_u with
  | nil => cases hplay
  | cons job lit ih =>
    obtain ⟨⟨gon, mid_u⟩, hpoke, hrest⟩ := Option.bind_eq_some_iff.mp hplay
    cases gon with
    | ok par =>
      obtain ⟨⟨vir, nex_u⟩, hsure, hrest⟩ := Option.bind_eq_some_iff.mp hrest
      have hadvanced := advanced_of_poke hsen hpoke hsure
      have hsen' : nex_u.sen_d = nex_u.dun_d := by
        rw [hadvanced.sen, hadvanced.dun, hsen]
      obtain ⟨pre, last, post, rfl, hpre, hdun, hdone, hfail, heve, hmug⟩ := ih hsen' hrest
      refine ⟨job :: pre, last, post, rfl, ?_, ?_, hdone, hfail, heve, hmug⟩
      · rw [serfPlayList, hpoke]
        show (serfSure arv none mid_u par >>= _) = _
        rw [hsure]
        exact hpre
      · rw [hdun, hadvanced.dun, List.length_cons]
        omega
    | error dud' =>
      obtain ⟨_, _, _, _, hgon, _, _⟩ | ⟨-, rfl⟩ := serfPoke_cases hpoke
      · cases hgon
      · obtain ⟨hbail, hstate⟩ := Prod.mk.inj (Option.some.inj hrest)
        cases hbail
        have hkeep : sef_u' = sef_u := hstate.symm.trans (sen_reset hsen _)
        subst hkeep
        refine ⟨[], job, lit, rfl, rfl, rfl, hsen, ?_, rfl, rfl⟩
        cases job with
        | atom a => cases hpoke
        | cell now ovo =>
          refine ⟨now, ovo, rfl, ?_⟩
          cases hres : arv.poke sef_u'.roc now ovo with
          | ok par => simp [serfPoke, u3xCell, hres] at hpoke
          | error gon =>
            simp only [serfPoke, u3xCell, hres, Option.bind_eq_bind, Option.bind_some,
              Option.some.injEq, Prod.mk.injEq, Except.error.injEq] at hpoke
            rw [hpoke.1]

/-- What is rejected changes nothing, and what is accepted advances the serf by one event: a batch
that bails leaves the state after the last event that succeeded. The boot sequence runs where there
is no kernel, and leaves none when it bails. -/
theorem serf_bail_keeps (arv : Arvo) (sef_u : Serf) (hsen : sef_u.sen_d = sef_u.dun_d) :
    (∀ lim job pro sef_u', u3SerfWork arv lim sef_u job = some (pro, sef_u') →
      match pro with
      | .done eve_d mug_l _ => Advanced arv sef_u job eve_d mug_l sef_u'
      | .swap eve_d mug_l job' _ => Advanced arv sef_u job' eve_d mug_l sef_u'
      | .bail _ => sef_u' = sef_u) ∧
    ∀ eve_d lit eve_d' mug_l dud sef_u',
      u3SerfPlay arv sef_u eve_d lit = some (.bail eve_d' mug_l dud, sef_u') →
      if sef_u.dun_d = 0 then sef_u' = { sef_u with roc := nul }
      else ∃ pre job post, lit = pre ++ job :: post ∧
        u3SerfPlay arv sef_u eve_d pre = some (.done sef_u'.mug_l, sef_u') ∧
        sef_u'.dun_d = sef_u.dun_d + pre.length ∧ sef_u'.sen_d = sef_u'.dun_d ∧
        (∃ now ovo, job = .cell now ovo ∧ arv.poke sef_u'.roc now ovo = .error dud) := by
  constructor
  · intro lim job pro sef_u' hwork
    obtain ⟨eve_d, mug_l, vir, rfl, hadvanced⟩ | ⟨eve_d, mug_l, job', vir, rfl, hadvanced⟩ |
      ⟨⟨lud, rfl⟩, hkeep⟩ := u3SerfWork_advances hsen hwork
    · exact hadvanced
    · exact hadvanced
    · exact hkeep
  · intro eve_d lit eve_d' mug_l dud sef_u' hplay
    unfold u3SerfPlay at hplay
    split_ifs at hplay with hnumber hzero
    · rw [if_pos hzero]
      have hsen' : sef_u.sen_d = 0 := hsen.trans hzero
      unfold serfPlayLife at hplay
      rw [if_neg (not_not.mpr hsen')] at hplay
      dsimp only at hplay
      split at hplay
      · cases hplay
      · obtain ⟨-, rfl⟩ := Prod.mk.inj (Option.some.inj hplay)
        obtain ⟨sen_d, dun_d, mug_l, eve_d, roc, now⟩ := sef_u
        cases hzero
        cases hsen
        rfl
    · rw [if_neg hzero]
      obtain ⟨pre, job, post, rfl, hpre, hdun, hdone, hfail, -⟩ := serfPlayList_bail hsen hplay
      refine ⟨pre, job, post, rfl, ?_, hdun, hdone, hfail⟩
      rw [u3SerfPlay, if_neg hnumber, if_neg hzero]
      exact hpre

/-- A cipher failure, and a batch that fails at its second event. -/
theorem serf_bail_keeps_tally :
    (∃ pro sef_u', u3SerfWork tally ⟨none, none, none⟩ (serfInit tally 3 (.atom 7) nul)
      (.cell (.atom 5) (.atom 2)) = some (pro, sef_u') ∧ sef_u' = serfInit tally 3 (.atom 7) nul) ∧
    ∃ sef_u', u3SerfPlay tally (serfInit tally 3 (.atom 7) nul) 4
      [.cell (.atom 5) (.atom 0), .cell (.atom 6) (.atom 1)] =
        some (.bail 4 sef_u'.mug_l ⟨2, nul⟩, sef_u') ∧
      ∃ pre job post, [.cell (.atom 5) (.atom 0), .cell (.atom 6) (.atom 1)] = pre ++ job :: post ∧
        u3SerfPlay tally (serfInit tally 3 (.atom 7) nul) 4 pre =
          some (.done sef_u'.mug_l, sef_u') := by
  have hkeeps := serf_bail_keeps tally (serfInit tally 3 (.atom 7) nul) rfl
  constructor
  · exact ⟨_, _, rfl, hkeeps.1 ⟨none, none, none⟩ (.cell (.atom 5) (.atom 2))
      (.bail [⟨c3Evil, nul⟩]) _ rfl⟩
  · obtain ⟨sef_u', hplay⟩ : ∃ sef_u', u3SerfPlay tally (serfInit tally 3 (.atom 7) nul) 4
        [.cell (.atom 5) (.atom 0), .cell (.atom 6) (.atom 1)] =
          some (.bail 4 sef_u'.mug_l ⟨2, nul⟩, sef_u') := ⟨_, rfl⟩
    obtain ⟨pre, job, post, hlit, hpre, -⟩ := hkeeps.2 4 _ _ _ _ _ hplay
    exact ⟨sef_u', hplay, pre, job, post, hlit, hpre⟩

end Vere.King
