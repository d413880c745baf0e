import Vere.Noun.NockRun

/-!
# The hooks of hints

A fore hook leaves a token for the hind hook below the subject. `HiltToken` and `HintToken` are the
tokens that the hind hooks take: nothing, or the time at which a `%bout` hint began, with a clue
that is a cell. Ops between the hooks keep the token, so that the hooks of a hint do nothing to the
product (`goes_hilt`, `goes_hint`).
-/

set_option autoImplicit false

namespace Vere.Noun.Nock

open Vere.Lib

section Hooks

variable {C W : Type} {S : Setting C W} {w : W} {tax : List Noun} {tag fol clu tok : Noun}
  {time time' : ℕ}

/-! ### Tokens -/

/-- The tokens of `_n_hilt_fore()`. -/
def HiltToken (time : ℕ) (tok : Noun) : Prop :=
  tok = .nul ∨ ∃ start ≤ time, tok = .cell (.atom mBout) (.atom start)

/-- The tokens of `_n_hint_fore()` that `_n_hint_hind()` takes. -/
def HintToken (time : ℕ) (tok : Noun) : Prop :=
  tok = .nul ∨ ∃ pri tan, ∃ start ≤ time, tok = .trel (.atom mBout) (.cell pri tan) (.atom start)

theorem HiltToken.mono (hle : time ≤ time') (htok : HiltToken time tok) : HiltToken time' tok := by
  obtain rfl | ⟨start, hstart, rfl⟩ := htok
  · exact Or.inl rfl
  · exact Or.inr ⟨start, hstart.trans hle, rfl⟩

theorem HintToken.mono (hle : time ≤ time') (htok : HintToken time tok) : HintToken time' tok := by
  obtain rfl | ⟨pri, tan, start, hstart, rfl⟩ := htok
  · exact Or.inl rfl
  · exact Or.inr ⟨pri, tan, start, hstart.trans hle, rfl⟩

/-! ### The hooks return -/

theorem slogCap_ok (hgood : S.Good w) (pri : ℕ) (cap tan : Noun) :
    ∃ w', slogCap S.env w pri cap tan = .ok w' ∧ Later S.Good S.clock w w' := by
  obtain ⟨w', hslog, hlater⟩ :=
    S.sound.slog hgood (.cell (.atom pri) (.trel (.atom (s4 'r' 'o' 's' 'e'))
    (.trel (.trel (.atom 58) (.atom 32) .nul) .nul .nul) (.trel cap tan .nul)))
  refine ⟨w', ?_, hlater⟩
  rw [slogCap, hslog]
  rfl

theorem Later.trans {Good : W → Prop} {clock : W → ℕ} {w' w'' : W} (hleft : Later Good clock w w')
    (hright : Later Good clock w' w'') : Later Good clock w w'' :=
  ⟨hright.good, hleft.time.trans hright.time⟩

variable (tax) in
theorem hiltFore_ok (hgood : S.Good w) (hxray : tag ≠ .atom mXray) :
    ∃ tok w', hiltFore S.env w tax (.cell tag fol) = .ok (tok, w') ∧ Later S.Good S.clock w w' ∧
      HiltToken (S.clock w') tok := by
  unfold hiltFore
  dsimp only
  split_ifs with hbout hnara hhela
  · obtain ⟨hbefore, hafter, hgood'⟩ := S.sound.traceTime hgood
    exact ⟨_, _, rfl, ⟨hgood', hbefore.trans hafter⟩, Or.inr ⟨_, hafter, by rw [hbout]⟩⟩
  · obtain ⟨w', hslog, hlater⟩ := S.sound.slogNara hgood 0 tax
    exact ⟨.nul, w', by rw [hslog]; rfl, hlater, Or.inl rfl⟩
  · obtain ⟨w', hslog, hlater⟩ := S.sound.slogHela hgood 0 tax
    exact ⟨.nul, w', by rw [hslog]; rfl, hlater, Or.inl rfl⟩
  · exact ⟨.nul, w, rfl, ⟨hgood, le_rfl⟩, Or.inl rfl⟩

theorem hiltHind_ok (hgood : S.Good w) (htok : HiltToken (S.clock w) tok) :
    ∃ w', hiltHind S.env w tok = .ok w' ∧ Later S.Good S.clock w w' := by
  obtain rfl | ⟨start, hstart, rfl⟩ := htok
  · exact ⟨w, rfl, hgood, le_rfl⟩
  · obtain ⟨hbefore, hafter, hgood'⟩ := S.sound.traceTime hgood
    obtain ⟨w', hslog, hlater⟩ := S.sound.slog hgood'
      (.cell (.atom 0) (S.env.printTime ((S.env.traceTime w).1 - start)))
    refine ⟨w', ?_, Later.trans ⟨hgood', hbefore.trans hafter⟩ hlater⟩
    show (if (S.env.traceTime w).1 < start then _ else _) = _
    rw [if_neg (by omega), hslog]
    rfl

variable (tax) in
theorem hintFore_ok (hgood : S.Good w) (hbouts : tag = .atom mBout → ∃ pri tan, clu = .cell pri tan)
    (hxray : tag = .atom mXray → ∃ a, clu = .atom a) :
    ∃ tok w', hintFore S.env w tax (.cell tag fol) clu = .ok (tok, w') ∧ Later S.Good S.clock w w' ∧
      HintToken (S.clock w') tok := by
  unfold hintFore
  dsimp only
  by_cases hbout : tag = .atom mBout
  · rw [if_pos hbout]
    obtain ⟨pri, tan, rfl⟩ := hbouts hbout
    obtain ⟨hbefore, hafter, hgood'⟩ := S.sound.traceTime hgood
    exact ⟨_, _, rfl, ⟨hgood', hbefore.trans hafter⟩, Or.inr ⟨pri, tan, _, hafter, by rw [hbout]⟩⟩
  rw [if_neg hbout]
  cases clu with
  | atom a => exact ⟨.nul, w, rfl, ⟨hgood, le_rfl⟩, Or.inl rfl⟩
  | cell pri tan =>
    dsimp only
    split_ifs with hnara hhela hxrays
    · obtain ⟨w₁, hcap, hlater₁⟩ := slogCap_ok hgood (priority pri) (.atom 0x666f206563617274) tan
      obtain ⟨w₂, hslog, hlater₂⟩ := S.sound.slogNara hlater₁.good (priority pri) tax
      refine ⟨.nul, w₂, ?_, hlater₁.trans hlater₂, Or.inl rfl⟩
      rw [hcap]
      show (orBail (S.env.slogNara w₁ (priority pri) tax) >>= _) = _
      rw [hslog]
      rfl
    · obtain ⟨w₁, hcap, hlater₁⟩ := slogCap_ok hgood (priority pri) (.atom 0x666f206563617274) tan
      obtain ⟨w₂, hslog, hlater₂⟩ := S.sound.slogHela hlater₁.good (priority pri) tax
      refine ⟨.nul, w₂, ?_, hlater₁.trans hlater₂, Or.inl rfl⟩
      rw [hcap]
      show (orBail (S.env.slogHela w₁ (priority pri) tax) >>= _) = _
      rw [hslog]
      rfl
    · obtain ⟨a, ha⟩ := hxray hxrays
      cases ha
    · exact ⟨.nul, w, rfl, ⟨hgood, le_rfl⟩, Or.inl rfl⟩

theorem hintHind_ok (hgood : S.Good w) (htok : HintToken (S.clock w) tok) :
    ∃ w', hintHind S.env w tok = .ok w' ∧ Later S.Good S.clock w w' := by
  obtain rfl | ⟨pri, tan, start, hstart, rfl⟩ := htok
  · exact ⟨w, rfl, hgood, le_rfl⟩
  · obtain ⟨hbefore, hafter, hgood'⟩ := S.sound.traceTime hgood
    obtain ⟨w', hcap, hlater⟩ := slogCap_ok hgood' (priority pri) tan
      (S.env.printTime ((S.env.traceTime w).1 - start))
    refine ⟨w', ?_, Later.trans ⟨hgood', hbefore.trans hafter⟩ hlater⟩
    show (if (S.env.traceTime w).1 < start then _ else _) = _
    rw [if_neg (by omega)]
    exact hcap

/-! ### Between the hooks -/

/-- The stack below the product of a formula: the subject is removed or left. -/
def kept (los : Bool) (bus : Noun) (st : List Noun) : List Noun := if los then st else bus :: st

@[simp] theorem kept_true (bus : Noun) (st : List Noun) : kept true bus st = st := rfl

@[simp] theorem kept_false (bus : Noun) (st : List Noun) : kept false bus st = bus :: st := rfl

section Between

variable {bus pro : Noun} {fen rest : List Op} {last : Op} {los : Bool} {n : ℕ} {st st₀ : List Noun}
  {fam : List (Frame C)}
  (hfen : ∀ st rest, S.Goes ⟨fen ++ rest, bus :: st, fam, tax⟩ ⟨rest, pro :: kept los bus st,
  fam, tax⟩)
include hfen

/-- A fore hook, the ops of a formula, and the hind hook with the token of the fore hook. -/
theorem goes_between (Token : ℕ → Noun → Prop) {o : Op} {v : View} {hind : Opcode}
    (hmono : ∀ {time time' tok}, time ≤ time' → Token time tok → Token time' tok)
    (hview : o.view = some v) (hindView : (op hind).view = some .bare)
    (hfore : ∀ (s : State C W) dist inx, s.stk = st₀ → s.tax = tax → S.Good s.world → ∃ tok w,
      exec S.env S.mac s (v.instr o.cod dist inx) =
        .next { s with stk := .atom 0 :: bus :: tok :: st, world := w } ∧
      Later S.Good S.clock s.world w ∧ Token (S.clock w) tok)
    (hhind : ∀ (s : State C W) tok, S.Good s.world → Token (S.clock s.world) tok → ∃ w,
      bare S.env S.mac s hind (pro :: kept los bus (tok :: st)) =
        .next { s with stk := pro :: kept los bus st, world := w } ∧
        Later S.Good S.clock s.world w) :
    S.Goes ⟨[o, ⟨.sbin, some (.atom n)⟩] ++ hindOps fen hind ++ [last] ++ rest, st₀, fam, tax⟩
      ⟨rest, pro :: kept los bus st, fam, tax⟩ := by
  intro time s hs
  obtain ⟨code, world, rfl, hcodes, hgood, htime⟩ := hs.eq
  obtain ⟨v', dist, inx, code', hview', hfetch, hnext, -⟩ := S.faithful.fetch hcodes
  cases hview.symm.trans hview'
  obtain ⟨tok, w, hexec, hlater, htok⟩ := hfore ⟨code', st₀, fam, tax, world⟩ dist inx rfl rfl hgood
  -- the token is not later than the clock at which the formula begins
  have hbegin : S.At (S.clock w)
    ⟨⟨.sbin, some (.atom n)⟩ :: (fen ++ (op hind :: ⟨.sbip, some (.atom 1)⟩ ::
      last :: rest)), .atom 0 :: bus :: tok :: st, fam, tax⟩ ⟨code', .atom 0 :: bus :: tok :: st,
      fam, tax, w⟩ := by
    refine ⟨?_, rfl, rfl, rfl, hlater.good, le_rfl⟩
    simpa [hindOps, List.append_assoc] using hnext
  obtain ⟨s₁, hrun₁, hs₁⟩ := (goes_yes.trans (hfen (tok :: st) _)) _ _ hbegin
  obtain ⟨code₁, w₁, rfl, hcodes₁, hgood₁, htime₁⟩ := hs₁.eq
  obtain ⟨v'', dist', inx', code₂, hview'', hfetch', hnext', -⟩ := S.faithful.fetch hcodes₁
  cases hindView.symm.trans hview''
  obtain ⟨w₂, hbare, hlater₂⟩ := hhind ⟨code₂, pro :: kept los bus (tok :: st), fam, tax,
    w₁⟩ tok hgood₁
    (hmono htime₁ htok)
  have hend : S.At time ⟨⟨.sbip, some (.atom 1)⟩ :: last :: rest, pro :: kept los bus st, fam, tax⟩
      ⟨code₂, pro :: kept los bus st, fam, tax, w₂⟩ :=
    ⟨hnext', rfl, rfl, rfl, hlater₂.good,
      htime.trans (hlater.time.trans (htime₁.trans hlater₂.time))⟩
  obtain ⟨s₂, hrun₂, hs₂⟩ := goes_skip time _ hend
  exact ⟨s₂, (hrun₁.trans (hrun₂.head (step_of_fetch hfetch' hbare))).head
    (step_of_fetch hfetch hexec), hs₂⟩

/-- An atomic hint with hooks. -/
theorem goes_hilt (hxray : tag ≠ .atom mXray) :
    S.Goes ⟨[⟨.hilb, some (.cell tag fol)⟩, ⟨.sbin, some (.atom n)⟩] ++
        hindOps fen (if los then .hill else .hilk) ++ [last] ++ rest, bus :: st, fam, tax⟩
      ⟨rest, pro :: kept los bus st, fam, tax⟩ := by
  refine goes_between (v := .lit (.cell tag fol)) hfen HiltToken HiltToken.mono rfl ?_ ?_ ?_
  · cases los <;> rfl
  · intro s dist inx hstk htax hgood
    obtain ⟨tok, w, hfore, hlater, htok⟩ := hiltFore_ok s.tax hgood hxray
    refine ⟨tok, w, ?_, hlater, htok⟩
    show valued S.env s .hilb (.cell tag fol) s.stk = _
    rw [hstk]
    show Outcome.of ((hiltFore S.env s.world s.tax (.cell tag fol)).map _) = _
    rw [hfore]
    rfl
  · intro s tok hgood htok
    obtain ⟨w, hhind, hlater⟩ := hiltHind_ok hgood htok
    refine ⟨w, ?_, hlater⟩
    cases los with
    | true =>
      show Outcome.of ((hiltHind S.env s.world tok).map _) = _
      rw [hhind]
      rfl
    | false =>
      show Outcome.of ((hiltHind S.env s.world tok).map _) = _
      rw [hhind]
      rfl

/-- A hint with a clue and with hooks. -/
theorem goes_hint (hbouts : tag = .atom mBout → ∃ pri tan, clu = .cell pri tan)
    (hxray : tag = .atom mXray → ∃ a, clu = .atom a) :
    S.Goes ⟨[⟨.hinb, some (.cell tag fol)⟩, ⟨.sbin, some (.atom n)⟩] ++
        hindOps fen (if los then .hinl else .hink) ++ [last] ++ rest, clu :: bus :: st, fam, tax⟩
      ⟨rest, pro :: kept los bus st, fam, tax⟩ := by
  refine goes_between (v := .lit (.cell tag fol)) hfen HintToken HintToken.mono rfl ?_ ?_ ?_
  · cases los <;> rfl
  · intro s dist inx hstk htax hgood
    obtain ⟨tok, w, hfore, hlater, htok⟩ := hintFore_ok s.tax hgood hbouts hxray
    refine ⟨tok, w, ?_, hlater, htok⟩
    show valued S.env s .hinb (.cell tag fol) s.stk = _
    rw [hstk]
    show Outcome.of ((hintFore S.env s.world s.tax (.cell tag fol) clu).map _) = _
    rw [hfore]
    rfl
  · intro s tok hgood htok
    obtain ⟨w, hhind, hlater⟩ := hintHind_ok hgood htok
    refine ⟨w, ?_, hlater⟩
    cases los with
    | true =>
      show Outcome.of ((hintHind S.env s.world tok).map _) = _
      rw [hhind]
      rfl
    | false =>
      show Outcome.of ((hintHind S.env s.world tok).map _) = _
      rw [hhind]
      rfl

end Between

end Hooks

end Vere.Noun.Nock
