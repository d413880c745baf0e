import Vere.Lib.Results
import Vere.Noun.Nock

/-!
# Compiled formulas

`Compiled fol los tel ops` says what `_n_comp` emits, one case for each form of code. Properties of
compiled code are proved by induction on it; `compiled_of_comp` is the one place where the compiler
is taken apart.
-/

set_option autoImplicit false

namespace Vere.Noun.Nock

open Lib.Results

/-- The ops that run a formula between the hooks of a hint, with what leaves the token. -/
def hindOps (fen : List Op) (hind : Opcode) : List Op := fen ++ [op hind, ⟨.sbip, some (.atom 1)⟩]

/-- The ops of a formula, by the formula, whether the subject is removed, and whether the formula is
in tail position. -/
inductive Compiled : Noun → Bool → Bool → List Op → Prop
  | cons {h t ar : Noun} {los tel : Bool} {hed tal : List Op}
      (hhed : Compiled (.cell h t) false false hed) (htal : Compiled ar false false tal) :
      Compiled (.cell (.cell h t) ar) los tel
        (hed ++ [op .swap] ++ tal ++ [op (if los then .ault else .auto)])
  | frag {ar : Noun} {los tel : Bool} {ops : List Op} (hfrag : compFrag ar los = .ok ops) :
      Compiled (.cell (.atom 0) ar) los tel ops
  | lit {ar : Noun} {los tel : Bool} : Compiled (.cell (.atom 1) ar) los tel (compLit ar los)
  | nock {b c : Noun} {los tel : Bool} {hed tal : List Op}
      (hhed : Compiled b false false hed) (htal : Compiled c false false tal) :
      Compiled (.cell (.atom 2) (.cell b c)) los tel
        (hed ++ [op .swap] ++ tal ++ [op (if tel then .noct else if los then .nolk else .nock)])
  | deep {b : Noun} {los tel : Bool} {ops : List Op} (hops : Compiled b los false ops) :
      Compiled (.cell (.atom 3) b) los tel (ops ++ [op .deep])
  | bump {b : Noun} {los tel : Bool} {ops : List Op} (hops : Compiled b los false ops) :
      Compiled (.cell (.atom 4) b) los tel (ops ++ [op .bump])
  | fold {b c v w : Noun} {los tel : Bool} (hb : isLit b = some v) (hc : isLit c = some w) :
      Compiled (.cell (.atom 5) (.cell b c)) los tel
        [op (if v = w then if los then .lil0 else .lit0 else if los then .lil1 else .lit1)]
  | same {b c : Noun} {los tel : Bool} {hed tal : List Op}
      (hhed : Compiled b false false hed) (htal : Compiled c false false tal) :
      Compiled (.cell (.atom 5) (.cell b c)) los tel
        (hed ++ [op .swap] ++ tal ++ [op (if los then .salm else .same)])
  | litLeft {b c v : Noun} {los tel : Bool} {tal : List Op} (hb : isLit b = some v)
      (htal : Compiled c los false tal) :
      Compiled (.cell (.atom 5) (.cell b c)) los tel (tal ++ [compSame v])
  | litRight {b c v : Noun} {los tel : Bool} {hed : List Op} (hhed : Compiled b los false hed)
      (hc : isLit c = some v) :
      Compiled (.cell (.atom 5) (.cell b c)) los tel (hed ++ [compSame v])
  | cond {b c d : Noun} {los tel : Bool} {hed yep nop : List Op}
      (hhed : Compiled b false false hed) (hbranch : formulaic c = true ∨ formulaic d = true)
      (hyep : formulaic c = true → Compiled c los tel yep)
      (hnop : formulaic d = true → Compiled d los tel nop)
      (hyep' : formulaic c = false → yep = [op .bail])
      (hnop' : formulaic d = false → nop = [op .bail]) :
      Compiled (.cell (.atom 6) (.cell b (.cell c d))) los tel
        (hed ++ [⟨.sbin, some (.atom (yep.length + 1))⟩] ++
          (yep ++ [⟨.sbip, some (.atom nop.length)⟩]) ++ nop)
  | comp {b c : Noun} {los tel : Bool} {hed tal : List Op}
      (hhed : Compiled b los false hed) (htal : Compiled c true tel tal) :
      Compiled (.cell (.atom 7) (.cell b c)) los tel (hed ++ tal)
  | push {b c : Noun} {los tel : Bool} {hed tal : List Op}
      (hhed : Compiled b false false hed) (htal : Compiled c true tel tal) :
      Compiled (.cell (.atom 8) (.cell b c)) los tel
        (hed ++ [op (if los then .snol else .snoc)] ++ tal)
  | arm {b c : Noun} {los tel : Bool} {hed tal : List Op} (hcap : b = .atom 1 ∨ cap b = .ok 3)
      (htal : Compiled c los false tal) (hhed : compFrag b false = .ok hed) :
      Compiled (.cell (.atom 9) (.cell b c)) los tel
        (tal ++ ([op .copy] ++ [op .swap] ++ hed ++ [op (if tel then .noct else .nolk)]))
  | kick {b c : Noun} {los tel : Bool} {tal : List Op} (hcap : cap b = .ok 2)
      (htal : Compiled c (if tel then true else los) false tal) :
      Compiled (.cell (.atom 9) (.cell b c)) los tel
        (tal ++ [⟨if tel then .ticb else .kicb, some b⟩])
  | hax {axe c d : Noun} {los tel : Bool} {tal nef : List Op}
      (htal : Compiled d false false tal) (hnef : Compiled c false false nef) :
      Compiled (.cell (.atom 10) (.cell (.cell axe c) d)) los tel
        (tal ++ [op .swap] ++ nef ++ [compEdit axe los])
  | hint {hif : ℕ} {d : Noun} {los tel : Bool} {nef : List Op} (hhif : hif ∉ hooked)
      (hnef : Compiled d los tel nef) :
      Compiled (.cell (.atom 11) (.cell (.atom hif) d)) los tel nef
  | hilt {hif : ℕ} {d : Noun} {los tel : Bool} {fen : List Op} (hhif : hif ∈ hooked)
      (hfen : Compiled d los false fen) :
      Compiled (.cell (.atom 11) (.cell (.atom hif) d)) los tel
        ([⟨.hilb, some (.cell (.atom hif) d)⟩, ⟨.sbin, some (.atom (fen.length + 2))⟩] ++
          hindOps fen (if los then .hill else .hilk) ++ [op (if los then .toss else .swap)])
  | toss {zep c d : Noun} {los tel : Bool} {hod nef : List Op}
      (hzep : ∀ tag, zep = .atom tag → tag ∉ hooked ∧ tag ∉ traced ∧ tag ≠ mLive ∧ tag ≠ mSlog ∧
        tag ≠ mFast ∧ tag ≠ mMemo)
      (hhod : Compiled c false false hod) (hnef : Compiled d los tel nef) :
      Compiled (.cell (.atom 11) (.cell (.cell zep c) d)) los tel (hod ++ [op .toss] ++ nef)
  | hook {zep : ℕ} {c d : Noun} {los tel : Bool} {hod fen : List Op} (hzep : zep ∈ hooked)
      (hhod : Compiled c false false hod) (hfen : Compiled d los false fen) :
      Compiled (.cell (.atom 11) (.cell (.cell (.atom zep) c) d)) los tel
        (hod ++ [⟨.hinb, some (.cell (.atom zep) d)⟩, ⟨.sbin, some (.atom (fen.length + 2))⟩] ++
          hindOps fen (if los then .hinl else .hink) ++ [op (if los then .toss else .swap)])
  | trace {zep : ℕ} {c d : Noun} {los tel : Bool} {hod nef : List Op} (hzep : zep ∈ traced)
      (hhod : Compiled c false false hod) (hnef : Compiled d los false nef) :
      Compiled (.cell (.atom 11) (.cell (.cell (.atom zep) c) d)) los tel
        (hod ++ [⟨.bush, some (.atom zep)⟩] ++ nef ++ [op .drop])
  | live {c d : Noun} {los tel : Bool} {hod nef : List Op}
      (hhod : Compiled c false false hod) (hnef : Compiled d los tel nef) :
      Compiled (.cell (.atom 11) (.cell (.cell (.atom mLive) c) d)) los tel
        (hod ++ [op .heck] ++ nef)
  | slog {c d : Noun} {los tel : Bool} {hod nef : List Op}
      (hhod : Compiled c false false hod) (hnef : Compiled d los tel nef) :
      Compiled (.cell (.atom 11) (.cell (.cell (.atom mSlog) c) d)) los tel
        (hod ++ [op .slog] ++ nef)
  | fast {c d : Noun} {los tel : Bool} {hod nef : List Op}
      (hhod : Compiled c false false hod) (hnef : Compiled d false false nef) :
      Compiled (.cell (.atom 11) (.cell (.cell (.atom mFast) c) d)) los tel
        (hod ++ [op .swap] ++ nef ++ [op (if los then .balt else .bast)])
  | memo {c d : Noun} {los tel : Bool} {hod mem : List Op}
      (hhod : Compiled c false false hod) (hmem : Compiled d true false mem) :
      Compiled (.cell (.atom 11) (.cell (.cell (.atom mMemo) c) d)) los tel
        (hod ++ [op .toss] ++
          [⟨if los then .slib else .skib, some (.cell (.atom (mem.length + 1)) d)⟩] ++
            (mem ++ [op .save]))
  | wish {b c : Noun} {los tel : Bool} {hed tal : List Op}
      (hhed : Compiled b false false hed) (htal : Compiled c false false tal) :
      Compiled (.cell (.atom 12) (.cell b c)) los tel
        (hed ++ [op .swap] ++ tal ++ [op (if los then .wils else .wish)])

/-- `u3qc_cap()` gives 2 or 3. -/
theorem cap_eq_or {n : Noun} {side : ℕ} (h : cap n = .ok side) : side = 2 ∨ side = 3 := by
  cases n with
  | cell h t => cases h
  | atom a =>
    rw [cap] at h
    split at h
    · cases h
    · split at h
      · cases h
      · have hside := Except.ok.inj h
        split at hside
        · exact Or.inr hside.symm
        · exact Or.inl hside.symm

section Hints

variable {c d : Noun} {los tel : Bool} {ops : List Op}
  (hnef : ∀ {los tel ops}, comp d los tel = .ok ops → Compiled d los tel ops)
include hnef

theorem compiled_of_bintAtom {hif : ℕ}
    (h : bintAtom d (fun los tel ↦ comp d los tel) los tel hif = .ok ops) :
    Compiled (.cell (.atom 11) (.cell (.atom hif) d)) los tel ops := by
  unfold bintAtom at h
  split at h
  · next hhif =>
    obtain ⟨fen, hfen, h⟩ := bind_eq_ok h
    cases h
    have hhilt : Compiled _ los tel _ := .hilt hhif (hnef hfen)
    simpa [hindOps] using hhilt
  · next hhif => exact Compiled.hint hhif (hnef h)

theorem compiled_of_bintCell {zep : Noun} {hod : Except Crash (List Op)}
    (hhod : ∀ {ops}, hod = .ok ops → Compiled c false false ops)
    (h : bintCell d (fun los tel ↦ comp d los tel) los tel zep hod = .ok ops) :
    Compiled (.cell (.atom 11) (.cell (.cell zep c) d)) los tel ops := by
  unfold bintCell at h
  cases zep with
  | cell zh zt =>
    obtain ⟨clue, hclue, h⟩ := bind_eq_ok h
    obtain ⟨nef, hnef', h⟩ := bind_eq_ok h
    cases h
    exact .toss (fun tag htag ↦ by cases htag) (hhod hclue) (hnef hnef')
  | atom zep =>
    dsimp only at h
    by_cases hhooked : zep ∈ hooked
    · rw [if_pos hhooked] at h
      obtain ⟨fen, hfen, h⟩ := bind_eq_ok h
      obtain ⟨clue, hclue, h⟩ := bind_eq_ok h
      cases h
      have hhook : Compiled _ los tel _ := .hook hhooked (hhod hclue) (hnef hfen)
      simpa [hindOps] using hhook
    rw [if_neg hhooked] at h
    by_cases htraced : zep ∈ traced
    · rw [if_pos htraced] at h
      obtain ⟨clue, hclue, h⟩ := bind_eq_ok h
      obtain ⟨nef, hnef', h⟩ := bind_eq_ok h
      cases h
      exact .trace htraced (hhod hclue) (hnef hnef')
    rw [if_neg htraced] at h
    by_cases hlive : zep = mLive
    · rw [if_pos hlive] at h
      obtain ⟨clue, hclue, h⟩ := bind_eq_ok h
      obtain ⟨nef, hnef', h⟩ := bind_eq_ok h
      cases h
      subst hlive
      exact .live (hhod hclue) (hnef hnef')
    rw [if_neg hlive] at h
    by_cases hslog : zep = mSlog
    · rw [if_pos hslog] at h
      obtain ⟨clue, hclue, h⟩ := bind_eq_ok h
      obtain ⟨nef, hnef', h⟩ := bind_eq_ok h
      cases h
      subst hslog
      exact .slog (hhod hclue) (hnef hnef')
    rw [if_neg hslog] at h
    by_cases hfast : zep = mFast
    · rw [if_pos hfast] at h
      obtain ⟨clue, hclue, h⟩ := bind_eq_ok h
      obtain ⟨nef, hnef', h⟩ := bind_eq_ok h
      cases h
      subst hfast
      exact .fast (hhod hclue) (hnef hnef')
    rw [if_neg hfast] at h
    by_cases hmemo : zep = mMemo
    · rw [if_pos hmemo] at h
      obtain ⟨clue, hclue, h⟩ := bind_eq_ok h
      obtain ⟨mem, hmem, h⟩ := bind_eq_ok h
      cases h
      subst hmemo
      have hmemo : Compiled _ los tel _ := .memo (hhod hclue) (hnef hmem)
      simpa using hmemo
    rw [if_neg hmemo] at h
    obtain ⟨clue, hclue, h⟩ := bind_eq_ok h
    obtain ⟨nef, hnef', h⟩ := bind_eq_ok h
    cases h
    refine .toss (fun tag htag ↦ ?_) (hhod hclue) (hnef hnef')
    cases htag
    exact ⟨hhooked, htraced, hlive, hslog, hfast, hmemo⟩

end Hints

/-- What the compiler returns are the ops of the formula. -/
theorem compiled_of_comp {f : Noun} {los tel : Bool} {ops : List Op}
    (h : comp f los tel = .ok ops) :
    Compiled f los tel ops := by
  fun_induction comp f los tel generalizing ops with
  | case1 | case21 => cases h
  | case2 hh ht ar los tel ihh iha =>
    obtain ⟨hed, hhed, h⟩ := bind_eq_ok h
    obtain ⟨tal, htal, h⟩ := bind_eq_ok h
    cases h
    exact .cons (ihh hhed) (iha htal)
  | case3 los tel ar => exact .frag h
  | case4 los tel ar =>
    cases h
    exact .lit
  | case5 los tel b c ihb ihc =>
    obtain ⟨hed, hhed, h⟩ := bind_eq_ok h
    obtain ⟨tal, htal, h⟩ := bind_eq_ok h
    cases h
    exact .nock (ihb hhed) (ihc htal)
  | case6 los tel b ih =>
    obtain ⟨ar, har, h⟩ := bind_eq_ok h
    cases h
    exact .deep (ih har)
  | case7 los tel b ih =>
    obtain ⟨ar, har, h⟩ := bind_eq_ok h
    cases h
    exact .bump (ih har)
  | case8 los tel hh ht th tt v w hw hv =>
    cases h
    exact .fold hv hw
  | case9 los tel hh ht th tt hw hv ihb ihc =>
    obtain ⟨hed, hhed, h⟩ := bind_eq_ok h
    obtain ⟨tal, htal, h⟩ := bind_eq_ok h
    cases h
    exact .same (ihb hhed) (ihc htal)
  | case10 los tel hh ht th tt v hw hv ih =>
    obtain ⟨tal, htal, h⟩ := bind_eq_ok h
    cases h
    exact .litLeft hv (ih htal)
  | case11 los tel hh ht th tt v hw hv ih =>
    obtain ⟨hed, hhed, h⟩ := bind_eq_ok h
    cases h
    exact .litRight (ih hhed) hw
  | case12 los tel b c d ihb ihd ihc =>
    obtain ⟨hed, hhed, h⟩ := bind_eq_ok h
    cases hc : formulaic c <;> cases hd : formulaic d
    · simp [hc, hd] at h
    · simp only [hc, hd] at h
      obtain ⟨nop, hnop, h⟩ := bind_eq_ok (show (comp d los tel >>= _) = .ok ops from h)
      cases h
      refine .cond (ihb hhed) (Or.inr hd) ?_ (fun _ ↦ ihd hnop) (fun _ ↦ rfl) ?_
      · rw [hc]
        nofun
      · rw [hd]
        nofun
    · simp only [hc, hd] at h
      obtain ⟨yep, hyep, h⟩ := bind_eq_ok (show (comp c los tel >>= _) = .ok ops from h)
      cases h
      rw [List.length_append]
      refine .cond (ihb hhed) (Or.inl hc) (fun _ ↦ ihc hyep) ?_ ?_ fun _ ↦ rfl
      · rw [hd]
        nofun
      · rw [hc]
        nofun
    · simp only [hc, hd] at h
      obtain ⟨yep, hyep, h⟩ := bind_eq_ok (show (comp c los tel >>= _) = .ok ops from h)
      obtain ⟨nop, hnop, h⟩ := bind_eq_ok (show (comp d los tel >>= _) = .ok ops from h)
      cases h
      rw [List.length_append]
      refine .cond (ihb hhed) (Or.inl hc) (fun _ ↦ ihc hyep) (fun _ ↦ ihd hnop) ?_ ?_
      · rw [hc]
        nofun
      · rw [hd]
        nofun
  | case13 los tel b c ihb ihc =>
    obtain ⟨hed, hhed, h⟩ := bind_eq_ok h
    obtain ⟨tal, htal, h⟩ := bind_eq_ok h
    cases h
    exact .comp (ihb hhed) (ihc htal)
  | case14 los tel b c ihb ihc =>
    obtain ⟨hed, hhed, h⟩ := bind_eq_ok h
    obtain ⟨tal, htal, h⟩ := bind_eq_ok h
    cases h
    exact .push (ihb hhed) (ihc htal)
  | case15 =>
    rename_i los tel c jp ihlos ihtel
    obtain ⟨tal, htal, h⟩ := bind_eq_ok (show (comp c los false >>= _) = .ok ops from h)
    obtain ⟨hed, hhed, h⟩ := bind_eq_ok h
    cases h
    exact .arm (Or.inl rfl) (ihlos htal) hhed
  | case16 =>
    rename_i los tel b c jp hone ihlos ihtel
    obtain ⟨side, hside, h⟩ := bind_eq_ok h
    obtain rfl | rfl := cap_eq_or hside
    · obtain ⟨tal, htal, h⟩ :=
        bind_eq_ok (show (comp c (if tel then true else los) false >>= _) = .ok ops from h)
      cases h
      exact .kick hside (ihtel htal)
    · obtain ⟨tal, htal, h⟩ := bind_eq_ok (show (comp c los false >>= _) = .ok ops from h)
      obtain ⟨hed, hhed, h⟩ := bind_eq_ok h
      cases h
      exact .arm (Or.inr hside) (ihlos htal) hhed
  | case17 los tel axe c d ihd ihc =>
    obtain ⟨tal, htal, h⟩ := bind_eq_ok h
    obtain ⟨nef, hnef, h⟩ := bind_eq_ok h
    cases h
    exact .hax (ihd htal) (ihc hnef)
  | case18 los tel hif d ih => exact compiled_of_bintAtom (fun h ↦ ih _ _ h) h
  | case19 los tel zep c d ihd ihc => exact compiled_of_bintCell (fun h ↦ ihd _ _ h) ihc h
  | case20 los tel b c ihb ihc =>
    obtain ⟨hed, hhed, h⟩ := bind_eq_ok h
    obtain ⟨tal, htal, h⟩ := bind_eq_ok h
    cases h
    exact .wish (ihb hhed) (ihc htal)

end Vere.Noun.Nock
