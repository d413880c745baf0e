import Vere.King.Lord
import Vere.Noun.Nock

/-!
# What the pier makes of the lord's calls back

`pkg/vere/pier.c`: the functions that the lord calls when a plea has been understood. They look at
the state of the pier, at the numbers of the log and at the effects that wait, and assert that the
numbers which the serf has sent fit them. What they print goes through the king's kernel, and the
reports of failed events are taken apart on the way.

The drivers, the kernel of the king and those who ask for a scry are not of `pier.c`: a `Pier` says
which nouns they take. For each call there is a condition on the pier and on what the call is given
under which it returns, and only under it.
-/

set_option autoImplicit false

namespace Vere.King.LordHear

open Vere.Noun

/-- What no lord survives. -/
inductive Fault
  /-- A failed `c3_assert()`. -/
  | assertion
  /-- Something is read that is not there. -/
  | absent
  /-- A noun is freed that was never set. -/
  | unset
  /-- `u3m_bail()` in the king. -/
  | exit
  deriving DecidableEq

/-! ### Nouns -/

/-- `u3r_qual()`. -/
def rQual : Noun → Option (Noun × Noun × Noun × Noun)
  | .cell a (.cell b (.cell c d)) => some (a, b, c, d)
  | _ => none

/-- The items of a list that ends in `~`. -/
def items : Noun → Option (List Noun)
  | .atom a => if a = 0 then some [] else none
  | .cell h t => (items t).map (h :: ·)

/-! ### The state -/

/-- `u3_work`: the last event of which the effects are released, and the effects that wait. -/
structure Work where
  rel_d : ℕ
  ext_u : List Gift

/-- `u3_psat`, with what the pier has in that state: the number up to which it replays, or a
`u3_work`. Once `_pier_exit()` has closed the log of a pier that is done there is no `u3_work` any
more. -/
inductive Psat
  | init
  | boot
  | play (eve_d : ℕ)
  | wyrd
  | work (wok_u : Work)
  | done (wok_u : Option Work)

/-- `u3_disk`: the last event that has been planned, and the last one that is written. -/
structure Log where
  sen_d : ℕ
  dun_d : ℕ
  dun_le : dun_d ≤ sen_d

/-- `u3_pier`. `til_d` is the number of the option `til_c`. `wash` and `spat` are gates of the
kernel, `kick` is `u3_auto_kick()` of the drivers, and `sog_f` streams what is printed. -/
structure Pier where
  sat_e : Psat
  log_u : Log
  til_d : Option ℕ
  wash : Option (Noun → Bool)
  spat : Noun → Bool
  kick : Noun → Bool
  sog_f : ℕ → Noun → Bool

/-- `u3_ovum`, with the call of its driver for an event that has failed. -/
structure Ovum where
  wir : Noun
  cad : Noun
  bail_f : Option (Noun → Bool)

/-- What a call back leaves: a pier that goes on, or one that has shut down and halted the lord. -/
inductive Heed
  | on
  | quit

/-- The states in which the spinner of `%work` may be started and stopped. -/
def Psat.spins : Psat → Bool
  | .wyrd | .work _ | .done _ => true
  | _ => false

/-! ### Printing -/

section Calls

variable (pir_u : Pier)

/-- `u3_pier_tank()`: dump single tank. Without a kernel the head of the tank is looked at. -/
def pierTank (tac : Noun) : Bool :=
  match pir_u.wash, tac with
  | some wash, tac => wash tac
  | none, .atom _ => false
  | none, .cell _ _ => true

/-- `u3_pier_punt_goof()`: dump a `[mote tang]` crash report. The mote is made a string after the
tanks. -/
def puntGoof (dud : Noun) : Except Fault Unit :=
  match dud with
  | .atom _ => .error .exit
  | .cell mot tan =>
    match items tan with
    | none => .error .exit
    | some tan =>
      if tan.reverse.all (pierTank pir_u) then
        match mot with
        | .atom _ => .ok ()
        | .cell _ _ => .error .assertion
      else .error .exit

/-- `u3_pier_punt_ovum()`: print ovum details. -/
def puntOvum (wir tag : Noun) : Except Fault Unit :=
  match tag with
  | .cell _ _ => .error .assertion
  | .atom _ => if pir_u.spat wir then .ok () else .error .exit

/-- `u3_auto_bail_slog()`: print a bail notification. -/
def autoBailSlog (egg_u : Ovum) : Noun → Except Fault Unit
  | .atom a =>
    if a ≠ 0 then .error .exit
    else
      match egg_u.cad with
      | .atom _ => .error .exit
      | .cell tag _ => puntOvum pir_u egg_u.wir tag
  | .cell dud dul => do
    puntGoof pir_u dud
    autoBailSlog egg_u dul

/-- `u3_auto_bail()`: notify driver that an event crashed. -/
def autoBail (egg_u : Ovum) (lud : Noun) : Except Fault Unit :=
  match egg_u.bail_f with
  | some bail_f => if bail_f lud then .ok () else .error .exit
  | none => autoBailSlog pir_u egg_u lud

/-! ### Work -/

/-- `_pier_gift_kick()` with `_pier_gift_next()`, over the effects that wait. -/
def giftKick (rel_d : ℕ) : List Gift → Except Fault Unit
  | [] => .ok ()
  | gif_u :: nex_u =>
    if pir_u.log_u.dun_d < gif_u.eve_d then .ok ()
    else if 1 + rel_d ≠ gif_u.eve_d then .error .assertion
    else if pir_u.kick gif_u.act then giftKick gif_u.eve_d nex_u
    else .error .exit

/-- `_pier_work()`: effects are released, and then barriers are processed and writs are sent, which
are events of their own. -/
def pierWork (wok_u : Work) : Except Fault Unit := giftKick pir_u wok_u.rel_d wok_u.ext_u

/-- `u3_disk_plan()`, `_pier_gift_plan()` and `_pier_work()` in `_pier_on_lord_work_done()`. -/
def workPlan (wok_u : Work) (eve_d : ℕ) (act : Noun) : Except Fault Heed := do
  if 1 + pir_u.log_u.sen_d ≠ eve_d then .error .assertion
  if ¬wok_u.rel_d < eve_d then .error .assertion
  pierWork pir_u { wok_u with ext_u := wok_u.ext_u ++ [⟨eve_d, act⟩] }
  .ok .on

def mWend : ℕ := Nock.s4 'w' 'e' 'n' 'd'

def mZuse : ℕ := Nock.s4 'z' 'u' 's' 'e'

/-- `VERE_ZUSE`. -/
def vereZuse : ℕ := 416

/-- The inner loop of `_pier_wyrd_aver()`: none of the versions is a downgrade. -/
def wyrdKel : Noun → Option Bool
  | .atom a => if a = 0 then some true else none
  | .cell (.atom _) _ => none
  | .cell (.cell tag ver) kel =>
    if tag = .atom mZuse ∧ ver ≠ .atom vereZuse then some false else wyrdKel kel

/-- `_pier_wyrd_aver()`: check for `%wend` effect and version downgrade. None where the effects are
not a list of cells. -/
def wyrdAver : Noun → Option Bool
  | .atom a => if a = 0 then some true else none
  | .cell (.atom _) _ => none
  | .cell (.cell tag kel) act =>
    if tag = .atom mWend then
      match wyrdKel kel with
      | some true => wyrdAver act
      | res => res
    else wyrdAver act

/-- `_pier_on_lord_wyrd_done()`: callback for successful `%wyrd` event. A downgrade shuts the pier
down; the new `u3_work` starts from the last event that is written. -/
def pierOnLordWyrdDone (eve_d : ℕ) (act : Noun) : Except Fault Heed :=
  match wyrdAver act with
  | none => .error .exit
  | some false => .ok .quit
  | some true =>
    if 1 + pir_u.log_u.sen_d ≠ eve_d then .error .assertion
    else if ¬pir_u.log_u.dun_d < eve_d then .error .assertion
    else .ok .on

/-- `_pier_on_lord_work_done()`: event completion from worker. The call is that of the `%wyrd` event
just in the state `u3_psat_wyrd`. -/
def pierOnLordWorkDone (eve_d : ℕ) (act : Noun) : Except Fault Heed :=
  match pir_u.sat_e with
  | .wyrd => pierOnLordWyrdDone pir_u eve_d act
  | .work wok_u => workPlan pir_u wok_u eve_d act
  | .done (some wok_u) => workPlan pir_u wok_u eve_d act
  | .done none => .error .absent
  | _ => .error .assertion

/-- `_pier_on_lord_wyrd_bail()` with `_pier_wyrd_fail()`: callback for failed `%wyrd` event. -/
def pierOnLordWyrdBail (egg_u : Ovum) (lud : Noun) : Except Fault Heed :=
  if lud = nul then .ok .quit
  else
    match lud with
    | .atom _ => .error .exit
    | .cell _ lud => do
      autoBailSlog pir_u egg_u lud
      .ok .quit

/-- `_pier_on_lord_work_bail()`: event failure from worker. -/
def pierOnLordWorkBail (egg_u : Ovum) (lud : Noun) : Except Fault Heed :=
  match pir_u.sat_e with
  | .wyrd => pierOnLordWyrdBail pir_u egg_u lud
  | .work wok_u | .done (some wok_u) => do
    autoBail pir_u egg_u lud
    pierWork pir_u wok_u
    .ok .on
  | .done none => do
    autoBail pir_u egg_u lud
    .ok .on
  | _ => .error .assertion

/-! ### Replay -/

/-- The assertions of `_pier_play_init()`: begin boot/replay up to `eve_d`, for a lord that is at
`god_d`. -/
def pierPlayInit (god_d eve_d : ℕ) : Except Fault Heed :=
  if ¬god_d < eve_d then .error .assertion
  else if ¬eve_d ≤ pir_u.log_u.dun_d then .error .assertion
  else .ok .on

/-- `_pier_on_lord_live()`: worker is ready. -/
def pierOnLordLive (god_d : ℕ) : Except Fault Heed :=
  match pir_u.sat_e with
  | .done none => .error .absent
  | sat_e =>
    if ¬god_d ≤ pir_u.log_u.dun_d then .error .assertion
    else
      match sat_e with
      | .boot =>
        if pir_u.log_u.sen_d ≠ 0 ∧ pir_u.log_u.sen_d = pir_u.log_u.dun_d then
          pierPlayInit pir_u god_d pir_u.log_u.dun_d
        else .ok .on
      | .init =>
        if pir_u.log_u.sen_d ≠ pir_u.log_u.dun_d then .error .assertion
        else if god_d < pir_u.log_u.dun_d then
          pierPlayInit pir_u god_d (pir_u.til_d.getD pir_u.log_u.dun_d)
        else .ok .on
      | _ => .error .assertion

/-- `_pier_on_lord_play_done()` with `_pier_play()`: log replay batch completion from worker, for a
lord that is at `god_d` now. -/
def pierOnLordPlayDone (god_d : ℕ) : Except Fault Heed :=
  match pir_u.sat_e with
  | .play eve_d =>
    if god_d = eve_d then .ok .on
    else if ¬god_d < eve_d then .error .assertion
    else .ok .on
  | _ => .error .assertion

/-- `_pier_on_lord_play_bail()`: log replay batch failure from worker. The facts up to `eve_d` are
disposed of, and the next one is read, whether there is one or not. -/
def pierOnLordPlayBail (fon_u : List Fact) (eve_d : ℕ) (dud : Noun) : Except Fault Heed :=
  match pir_u.sat_e with
  | .play _ =>
    match fon_u.dropWhile fun tac_u ↦ tac_u.eve_d ≤ eve_d with
    | [] => .error .absent
    | tac_u :: _ => do
      puntGoof pir_u dud
      match rQual tac_u.job with
      | none => .error .exit
      | some (_, wir, tag, _) => do
        puntOvum pir_u wir tag
        .ok .quit
  | _ => .error .assertion

/-! ### Other calls -/

/-- `_pier_on_lord_slog()`: debug printf from worker. -/
def pierOnLordSlog (pri_w : ℕ) (tan : Noun) : Except Fault Heed :=
  if pir_u.sog_f pri_w tan && pierTank pir_u tan then .ok .on else .error .exit

/-- The stream of `_lord_plea_flog()`. -/
def pierFlog (dat : Noun) : Except Fault Heed :=
  if pir_u.sog_f 0 dat then .ok .on else .error .exit

/-- `_pier_on_lord_save()`: worker (non-portable) snapshot complete. -/
def pierOnLordSave : Except Fault Heed := .ok .on

/-- `_pier_on_lord_cram()`: worker state-export complete (portable snapshot). -/
def pierOnLordCram : Except Fault Heed :=
  match pir_u.sat_e with
  | .play _ => .ok .quit
  | _ => .ok .on

/-! ### When the calls return -/

/-- A crash report that can be printed: a mote, and a list of tanks. -/
def Pier.Goof (dud : Noun) : Prop :=
  ∃ mot tan tac, dud = .cell (.atom mot) tan ∧ items tan = some tac ∧
    ∀ tac' ∈ tac, pierTank pir_u tac' = true

/-- The details of an ovum can be printed. -/
def Pier.Names (wir tag : Noun) : Prop := (∃ a, tag = .atom a) ∧ pir_u.spat wir = true

/-- A list of crash reports that can be printed, for an event that can be named. -/
def Pier.Slogs (egg_u : Ovum) (lud : Noun) : Prop :=
  (∃ duds, items lud = some duds ∧ ∀ dud ∈ duds, pir_u.Goof dud) ∧
    ∃ tag dat, egg_u.cad = .cell tag dat ∧ pir_u.Names egg_u.wir tag

/-- The effects of events that are on disk, at the head of a queue. -/
def dueGifts (dun_d : ℕ) (ext_u : List Gift) : List Gift :=
  ext_u.takeWhile fun gif_u ↦ gif_u.eve_d ≤ dun_d

/-- The effects that wait and are on disk go on from the last event that is released, and the
drivers take them. -/
def Pier.Due (wok_u : Work) : Prop :=
  (dueGifts pir_u.log_u.dun_d wok_u.ext_u).map Gift.eve_d =
      List.range' (wok_u.rel_d + 1) (dueGifts pir_u.log_u.dun_d wok_u.ext_u).length ∧
    ∀ gif_u ∈ dueGifts pir_u.log_u.dun_d wok_u.ext_u, pir_u.kick gif_u.act = true

/-- The report of a failed event is one that its driver takes, or can be printed. -/
def Pier.Reports (egg_u : Ovum) (lud : Noun) : Prop :=
  match egg_u.bail_f with
  | some bail_f => bail_f lud = true
  | none => pir_u.Slogs egg_u lud

/-- The number of an event that is done is the next one of the log. For the `%wyrd` event the
effects are looked at first. -/
def Pier.Plans (eve_d : ℕ) (act : Noun) : Prop :=
  match pir_u.sat_e with
  | .wyrd =>
    wyrdAver act = some false ∨ wyrdAver act = some true ∧ eve_d = pir_u.log_u.sen_d + 1
  | .work wok_u | .done (some wok_u) =>
    eve_d = pir_u.log_u.sen_d + 1 ∧ wok_u.rel_d ≤ pir_u.log_u.sen_d ∧ pir_u.Due wok_u
  | _ => False

/-- The report of an event that has failed can be taken. -/
def Pier.Fails (egg_u : Ovum) (lud : Noun) : Prop :=
  match pir_u.sat_e with
  | .wyrd => lud = nul ∨ ∃ h t, lud = .cell h t ∧ pir_u.Slogs egg_u t
  | .work wok_u | .done (some wok_u) => pir_u.Reports egg_u lud ∧ pir_u.Due wok_u
  | .done none => pir_u.Reports egg_u lud
  | _ => False

/-- The serf has not been further than the log, and a replay that has to begin has somewhere to go.
-/
def Pier.Starts (god_d : ℕ) : Prop :=
  god_d ≤ pir_u.log_u.dun_d ∧
    match pir_u.sat_e with
    | .boot =>
      pir_u.log_u.sen_d ≠ 0 → pir_u.log_u.sen_d = pir_u.log_u.dun_d → god_d < pir_u.log_u.dun_d
    | .init => pir_u.log_u.sen_d = pir_u.log_u.dun_d ∧
        (god_d < pir_u.log_u.dun_d → ∀ til_d, pir_u.til_d = some til_d → god_d < til_d ∧
        til_d ≤ pir_u.log_u.dun_d)
    | _ => False

/-- A batch that is done does not go past the number up to which is replayed. -/
def Pier.Replays (god_d : ℕ) : Prop := ∃ eve_d, pir_u.sat_e = .play eve_d ∧ god_d ≤ eve_d

/-- A batch that fails does so at one of its events, with a report that can be printed. -/
def Pier.Breaks (fon_u : List Fact) (eve_d : ℕ) (dud : Noun) : Prop :=
  (∃ pay_d, pir_u.sat_e = .play pay_d) ∧ pir_u.Goof dud ∧
    ∃ tac_u nex_u now wir tag dat, (fon_u.dropWhile fun tac_u ↦ tac_u.eve_d ≤ eve_d) =
      tac_u :: nex_u ∧
      rQual tac_u.job = some (now, wir, tag, dat) ∧ pir_u.Names wir tag

end Calls

section Return

variable {pir_u : Pier}

section Results

variable {α : Type} {e : Fault} {cond : Prop}

theorem error_iff {a : α} (hnot : ¬cond) : (Except.error e = .ok a) ↔ cond :=
  iff_of_false (fun hfault ↦ by cases hfault) hnot

theorem error_returns (hnot : ¬cond) : (∃ a : α, Except.error e = .ok a) ↔ cond := by
  refine iff_of_false ?_ hnot
  rintro ⟨a, hfault⟩
  cases hfault

theorem guard_returns {guard : Prop} [Decidable guard] {res : Except Fault α} :
    (∃ a, (if ¬guard then .error e else res) = .ok a) ↔ guard ∧ ∃ a, res = .ok a := by
  by_cases hguard : guard
  · rw [if_neg (not_not.mpr hguard)]
    exact ⟨fun h ↦ ⟨hguard, h⟩, fun h ↦ h.2⟩
  · rw [if_pos hguard]
    exact error_returns fun h ↦ hguard h.1

theorem ok_returns (a : α) : ∃ b, (Except.ok a : Except Fault α) = .ok b := ⟨a, rfl⟩

end Results

theorem ok_bind_iff {α : Type} {res : Except Fault Unit} {next : Except Fault α} {a : α} :
    (do res; next) = .ok a ↔ res = .ok () ∧ next = .ok a := by
  cases res with
  | error e => exact error_iff fun h ↦ by cases h.1
  | ok u => exact ⟨fun h ↦ ⟨rfl, h⟩, fun h ↦ h.2⟩

theorem puntGoof_iff {dud : Noun} : puntGoof pir_u dud = .ok () ↔ pir_u.Goof dud := by
  unfold puntGoof Pier.Goof
  cases dud with
  | atom a => exact error_iff (by rintro ⟨_, _, _, h, -⟩; cases h)
  | cell mot tan =>
    dsimp only
    cases hitems : items tan with
    | none =>
      refine error_iff ?_
      rintro ⟨_, _, _, h, hsome, -⟩
      cases h
      rw [hitems] at hsome
      cases hsome
    | some tac =>
      dsimp only
      rw [List.all_reverse]
      constructor
      · intro hok
        split_ifs at hok with hall
        cases mot with
        | cell h t => cases hok
        | atom mot => exact ⟨mot, tan, tac, rfl, hitems, List.all_eq_true.mp hall⟩
      · rintro ⟨_, _, _, h, hsome, hall⟩
        cases h
        rw [hitems] at hsome
        cases hsome
        rw [if_pos (List.all_eq_true.mpr hall)]

theorem puntOvum_iff {wir tag : Noun} : puntOvum pir_u wir tag = .ok () ↔ pir_u.Names wir tag := by
  unfold puntOvum Pier.Names
  cases tag with
  | cell h t => exact error_iff (by rintro ⟨⟨_, h⟩, -⟩; cases h)
  | atom a =>
    dsimp only
    split_ifs with hspat
    · exact ⟨fun _ ↦ ⟨⟨a, rfl⟩, hspat⟩, fun _ ↦ rfl⟩
    · exact iff_of_false not_false fun h ↦ hspat h.2

theorem autoBailSlog_iff {egg_u : Ovum} {lud : Noun} :
    autoBailSlog pir_u egg_u lud = .ok () ↔ pir_u.Slogs egg_u lud := by
  unfold Pier.Slogs
  induction lud with
  | atom a =>
    rw [autoBailSlog, items]
    by_cases ha : a = 0
    · rw [if_neg (not_not.mpr ha), if_pos ha]
      cases hcad : egg_u.cad with
      | atom b => exact error_iff (by rintro ⟨-, _, _, h, -⟩; cases h)
      | cell tag dat =>
        dsimp only
        rw [puntOvum_iff]
        constructor
        · intro hnames
          exact ⟨⟨[], rfl, by simp⟩, tag, dat, rfl, hnames⟩
        · rintro ⟨-, _, _, h, hnames⟩
          cases h
          exact hnames
    · rw [if_pos ha, if_neg ha]
      exact error_iff (by rintro ⟨⟨_, h, -⟩, -⟩; cases h)
  | cell dud dul _ ih =>
    rw [autoBailSlog, ok_bind_iff, puntGoof_iff, ih, items]
    constructor
    · rintro ⟨hgoof, ⟨duds, hitems, hduds⟩, hegg⟩
      exact ⟨⟨dud :: duds, by rw [hitems]; rfl, by simpa using ⟨hgoof, hduds⟩⟩, hegg⟩
    · rintro ⟨⟨duds, hitems, hduds⟩, hegg⟩
      obtain ⟨rest, hrest, rfl⟩ := Option.map_eq_some_iff.mp hitems
      have hboth := List.forall_mem_cons.mp hduds
      exact ⟨hboth.1, ⟨rest, hrest, hboth.2⟩, hegg⟩

theorem autoBail_iff {egg_u : Ovum} {lud : Noun} :
    autoBail pir_u egg_u lud = .ok () ↔ pir_u.Reports egg_u lud := by
  unfold autoBail Pier.Reports
  cases egg_u.bail_f with
  | none => exact autoBailSlog_iff
  | some bail_f =>
    dsimp only
    split_ifs with hbail
    · exact ⟨fun _ ↦ hbail, fun _ ↦ rfl⟩
    · exact iff_of_false not_false hbail

theorem dueGifts_late {dun_d : ℕ} {gif_u : Gift} (nex_u : List Gift) (hlate : dun_d < gif_u.eve_d) :
    dueGifts dun_d (gif_u :: nex_u) = [] :=
  List.takeWhile_cons_of_neg (by simpa using hlate)

theorem dueGifts_due {dun_d : ℕ} {gif_u : Gift} (nex_u : List Gift) (hdue : gif_u.eve_d ≤ dun_d) :
    dueGifts dun_d (gif_u :: nex_u) = gif_u :: dueGifts dun_d nex_u :=
  List.takeWhile_cons_of_pos (by simpa using hdue)

/-- The effects of an event that is not on disk yet do not come up. -/
theorem dueGifts_append {dun_d : ℕ} {gif_u : Gift} (ext_u : List Gift)
    (hlate : dun_d < gif_u.eve_d) :
    dueGifts dun_d (ext_u ++ [gif_u]) = dueGifts dun_d ext_u := by
  induction ext_u with
  | nil => exact dueGifts_late [] hlate
  | cons hed_u nex_u ih =>
    rw [List.cons_append]
    by_cases hdue : hed_u.eve_d ≤ dun_d
    · rw [dueGifts_due _ hdue, dueGifts_due _ hdue, ih]
    · rw [dueGifts_late _ (not_le.mp hdue), dueGifts_late _ (not_le.mp hdue)]

theorem giftKick_iff {rel_d : ℕ} {ext_u : List Gift} :
    giftKick pir_u rel_d ext_u = .ok () ↔ pir_u.Due ⟨rel_d, ext_u⟩ := by
  unfold Pier.Due
  dsimp only
  induction ext_u generalizing rel_d with
  | nil => exact ⟨fun _ ↦ ⟨rfl, by simp [dueGifts]⟩, fun _ ↦ rfl⟩
  | cons gif_u nex_u ih =>
    rw [giftKick]
    by_cases hlate : pir_u.log_u.dun_d < gif_u.eve_d
    · rw [if_pos hlate, dueGifts_late _ hlate]
      exact ⟨fun _ ↦ ⟨rfl, by simp⟩, fun _ ↦ rfl⟩
    · rw [if_neg hlate, dueGifts_due _ (not_lt.mp hlate), List.map_cons, List.length_cons,
        List.range'_succ, List.cons.injEq, List.forall_mem_cons]
      by_cases hnext : 1 + rel_d = gif_u.eve_d
      · rw [if_neg (not_not.mpr hnext), ← hnext, Nat.add_comm 1 rel_d]
        split_ifs with hkick
        · rw [ih]
          tauto
        · exact iff_of_false not_false fun h ↦ hkick h.2.1
      · rw [if_pos hnext]
        exact error_iff fun h ↦ absurd h.1.1 (by omega)

variable {eve_d : ℕ}

theorem workPlan_iff {wok_u : Work} {act : Noun} :
    (∃ heed, workPlan pir_u wok_u eve_d act = .ok heed) ↔
      eve_d = pir_u.log_u.sen_d + 1 ∧ wok_u.rel_d ≤ pir_u.log_u.sen_d ∧ pir_u.Due wok_u := by
  have hdun := pir_u.log_u.dun_le
  unfold workPlan
  by_cases hnext : 1 + pir_u.log_u.sen_d = eve_d
  · by_cases hrel : wok_u.rel_d < eve_d
    · rw [if_neg (not_not.mpr hnext), if_neg (not_not.mpr hrel)]
      have hlate : pir_u.log_u.dun_d < (⟨eve_d, act⟩ : Gift).eve_d :=
        show pir_u.log_u.dun_d < eve_d by omega
      have hwork : pierWork pir_u { wok_u with ext_u := wok_u.ext_u ++ [⟨eve_d, act⟩] } = .ok () ↔
        pir_u.Due wok_u := by
        rw [pierWork, giftKick_iff, Pier.Due, Pier.Due, dueGifts_append _ hlate]
      constructor
      · rintro ⟨heed, hok⟩
        have hkick := (ok_bind_iff.mp hok).1
        exact ⟨by omega, by omega, hwork.mp hkick⟩
      · rintro ⟨-, -, hready⟩
        exact ⟨.on, ok_bind_iff.mpr ⟨hwork.mpr hready, rfl⟩⟩
    · rw [if_neg (not_not.mpr hnext), if_pos hrel]
      exact error_returns fun h ↦ absurd h.2.1 (by omega)
  · rw [if_pos hnext]
    exact error_returns fun h ↦ absurd h.1 (by omega)

theorem pierOnLordWyrdDone_iff {act : Noun} :
    (∃ heed, pierOnLordWyrdDone pir_u eve_d act = .ok heed) ↔
      wyrdAver act = some false ∨ wyrdAver act = some true ∧ eve_d = pir_u.log_u.sen_d + 1 := by
  have hdun := pir_u.log_u.dun_le
  unfold pierOnLordWyrdDone
  cases wyrdAver act with
  | none => exact error_returns (by simp)
  | some good =>
    cases good with
    | false => exact ⟨fun _ ↦ Or.inl rfl, fun _ ↦ ⟨.quit, rfl⟩⟩
    | true =>
      refine guard_returns.trans ⟨?_, ?_⟩
      · rintro ⟨hnext, -⟩
        exact Or.inr ⟨rfl, by omega⟩
      · rintro (hfalse | ⟨-, hnext⟩)
        · cases hfalse
        · exact ⟨by omega, guard_returns.mpr ⟨by omega, ok_returns _⟩⟩

theorem pierOnLordWorkDone_iff {act : Noun} :
    (∃ heed, pierOnLordWorkDone pir_u eve_d act = .ok heed) ↔ pir_u.Plans eve_d act := by
  unfold pierOnLordWorkDone Pier.Plans
  cases pir_u.sat_e with
  | wyrd => exact pierOnLordWyrdDone_iff
  | work wok_u => exact workPlan_iff
  | done rest =>
    cases rest with
    | some wok_u => exact workPlan_iff
    | none => exact error_returns id
  | init => exact error_returns id
  | boot => exact error_returns id
  | play eve_d => exact error_returns id

theorem pierOnLordWorkBail_iff {egg_u : Ovum} {lud : Noun} :
    (∃ heed, pierOnLordWorkBail pir_u egg_u lud = .ok heed) ↔ pir_u.Fails egg_u lud := by
  have hwork : ∀ wok_u : Work, (∃ heed : Heed, (do
      autoBail pir_u egg_u lud
      pierWork pir_u wok_u
      .ok .on : Except Fault Heed) = .ok heed) ↔ pir_u.Reports egg_u lud ∧ pir_u.Due wok_u := by
    intro wok_u
    constructor
    · rintro ⟨heed, hok⟩
      obtain ⟨hbail, hrest⟩ := ok_bind_iff.mp hok
      exact ⟨autoBail_iff.mp hbail, giftKick_iff.mp (ok_bind_iff.mp hrest).1⟩
    · rintro ⟨hbail, hdue⟩
      exact ⟨.on, ok_bind_iff.mpr ⟨autoBail_iff.mpr hbail,
        ok_bind_iff.mpr ⟨giftKick_iff.mpr hdue, rfl⟩⟩⟩
  unfold pierOnLordWorkBail Pier.Fails
  cases pir_u.sat_e with
  | wyrd =>
    dsimp only
    unfold pierOnLordWyrdBail
    cases lud with
    | atom a =>
      split_ifs with hnul
      · simp [hnul]
      · simp [hnul]
    | cell h t =>
      rw [if_neg (by simp [nul])]
      dsimp only
      constructor
      · rintro ⟨heed, hok⟩
        exact Or.inr ⟨h, t, rfl, autoBailSlog_iff.mp (ok_bind_iff.mp hok).1⟩
      · rintro (hnul | ⟨_, _, hcell, hslogs⟩)
        · cases hnul
        · cases hcell
          exact ⟨.quit, ok_bind_iff.mpr ⟨autoBailSlog_iff.mpr hslogs, rfl⟩⟩
  | work wok_u => exact hwork wok_u
  | done rest =>
    cases rest with
    | some wok_u => exact hwork wok_u
    | none =>
      dsimp only
      constructor
      · rintro ⟨heed, hok⟩
        exact autoBail_iff.mp (ok_bind_iff.mp hok).1
      · intro hbail
        exact ⟨.on, ok_bind_iff.mpr ⟨autoBail_iff.mpr hbail, rfl⟩⟩
  | init => exact error_returns id
  | boot => exact error_returns id
  | play eve_d => exact error_returns id

theorem pierPlayInit_iff {god_d : ℕ} :
    (∃ heed, pierPlayInit pir_u god_d eve_d = .ok heed) ↔ god_d < eve_d ∧
    eve_d ≤ pir_u.log_u.dun_d :=
  guard_returns.trans (and_congr_right fun _ ↦ guard_returns.trans (and_iff_left (ok_returns _)))

theorem pierOnLordLive_iff {god_d : ℕ} :
    (∃ heed, pierOnLordLive pir_u god_d = .ok heed) ↔ pir_u.Starts god_d := by
  unfold pierOnLordLive Pier.Starts
  cases pir_u.sat_e with
  | boot =>
    refine guard_returns.trans (and_congr_right fun _ ↦ ?_)
    dsimp only
    split_ifs with hboot
    · rw [pierPlayInit_iff]
      exact ⟨fun h _ _ ↦ h.1, fun h ↦ ⟨h hboot.1 hboot.2, le_refl _⟩⟩
    · exact ⟨fun _ h h' ↦ absurd ⟨h, h'⟩ hboot, fun _ ↦ ok_returns _⟩
  | init =>
    refine guard_returns.trans (and_congr_right fun _ ↦
      guard_returns.trans (and_congr_right fun _ ↦ ?_))
    split_ifs with hlt
    · rw [pierPlayInit_iff]
      cases pir_u.til_d with
      | none => exact ⟨fun _ _ _ htil ↦ (by cases htil), fun _ ↦ ⟨hlt, le_refl _⟩⟩
      | some til_d =>
        refine ⟨?_, fun h ↦ h hlt til_d rfl⟩
        rintro h - _ ⟨⟩
        exact h
    · exact ⟨fun _ h ↦ absurd h hlt, fun _ ↦ ok_returns _⟩
  | done rest =>
    cases rest with
    | none => exact error_returns fun h ↦ h.2
    | some wok_u => exact guard_returns.trans (and_congr_right fun _ ↦ error_returns id)
  | play eve_d => exact guard_returns.trans (and_congr_right fun _ ↦ error_returns id)
  | wyrd => exact guard_returns.trans (and_congr_right fun _ ↦ error_returns id)
  | work wok_u => exact guard_returns.trans (and_congr_right fun _ ↦ error_returns id)

theorem pierOnLordPlayDone_iff {god_d : ℕ} :
    (∃ heed, pierOnLordPlayDone pir_u god_d = .ok heed) ↔ pir_u.Replays god_d := by
  unfold pierOnLordPlayDone Pier.Replays
  cases pir_u.sat_e with
  | play eve_d =>
    dsimp only
    by_cases heq : god_d = eve_d
    · rw [if_pos heq]
      exact ⟨fun _ ↦ ⟨eve_d, rfl, heq.le⟩, fun _ ↦ ok_returns _⟩
    · rw [if_neg heq]
      refine guard_returns.trans ⟨fun h ↦ ⟨eve_d, rfl, h.1.le⟩, ?_⟩
      rintro ⟨_, ⟨⟩, hle⟩
      exact ⟨lt_of_le_of_ne hle heq, ok_returns _⟩
  | _ => exact error_returns (by rintro ⟨_, h, -⟩; cases h)

theorem pierOnLordPlayBail_iff {fon_u : List Fact} {dud : Noun} :
    (∃ heed, pierOnLordPlayBail pir_u fon_u eve_d dud = .ok heed) ↔
    pir_u.Breaks fon_u eve_d dud := by
  unfold pierOnLordPlayBail Pier.Breaks
  cases pir_u.sat_e with
  | play pay_d =>
    dsimp only
    cases hdrop : fon_u.dropWhile fun tac_u ↦ tac_u.eve_d ≤ eve_d with
    | nil => exact error_returns (by rintro ⟨-, -, _, _, _, _, _, _, h, -⟩; cases h)
    | cons tac_u nex_u =>
      dsimp only
      cases hqual : rQual tac_u.job with
      | none =>
        constructor
        · rintro ⟨heed, hok⟩
          cases (ok_bind_iff.mp hok).2
        · rintro ⟨-, -, _, _, _, _, _, _, h, hjob, -⟩
          cases h
          rw [hqual] at hjob
          cases hjob
      | some job =>
        obtain ⟨now, wir, tag, dat⟩ := job
        dsimp only
        constructor
        · rintro ⟨heed, hok⟩
          obtain ⟨hgoof, hrest⟩ := ok_bind_iff.mp hok
          exact ⟨⟨pay_d, rfl⟩, puntGoof_iff.mp hgoof, tac_u, nex_u, now, wir, tag, dat, rfl, hqual,
            puntOvum_iff.mp (ok_bind_iff.mp hrest).1⟩
        · rintro ⟨-, hgoof, _, _, _, _, _, _, h, hjob, hnames⟩
          cases h
          rw [hqual] at hjob
          cases hjob
          exact ⟨.quit, ok_bind_iff.mpr ⟨puntGoof_iff.mpr hgoof,
            ok_bind_iff.mpr ⟨puntOvum_iff.mpr hnames, rfl⟩⟩⟩
  | _ => exact error_returns (by rintro ⟨⟨_, h⟩, -⟩; cases h)

theorem pierOnLordCram_ok : ∃ heed, pierOnLordCram pir_u = .ok heed := by
  unfold pierOnLordCram
  cases pir_u.sat_e with
  | play eve_d => exact ⟨.quit, rfl⟩
  | _ => exact ⟨.on, rfl⟩

end Return

end Vere.King.LordHear
