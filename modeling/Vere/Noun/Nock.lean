import Vere.Noun.SerialCue

/-!
# The Nock compiler

`pkg/noun/nock.c`: `_n_comp` compiles a formula to instructions, and `_n_formulaic` checks a formula
without compiling it, for the branches of a conditional. `comp` gives the instructions in the order
in which they are executed; the source prepends each to a list, which `_n_melt` and `_n_prog_asm`
then read from the last one on.
-/

set_option autoImplicit false

namespace Vere.Noun.Nock

open Serial

/-! ### Instructions -/

/-- `OPCODES`. Several opcodes with a byte for their operand overflow to their successor, which has
two. -/
inductive Opcode
  | halt | bail
  | copy | swap | toss
  | auto | ault
  | snoc | snol
  | head | held
  | tail | tall
  | fabk | fask | fibk | fisk
  | fabl | fasl | fibl | fisl
  | lit0 | lit1 | litb | lits | libk | lisk
  | lil0 | lil1 | lilb | lils | libl | lisl
  | nolk | noct | nock
  | deep | bump
  | sam0 | sam1 | samb | sams | sanb | sans | same | salm | samc
  | sbip | sips | swip
  | sbin | sins | swin
  | kicb | kics | ticb | tics
  | wils | wish
  | bush | sush | drop | heck | slog
  | bast | sast
  | balt | salt
  | skib | skis
  | slib | slis | save
  | hilb | hils | hinb | hins
  | hilk | hill | hink | hinl
  | muth | kuth | mutt | kutt | musm | kusm
  | mutb | muts | mitb | mits
  | kutb | kuts | kitb | kits
  deriving DecidableEq, Repr

/-- An instruction: an opcode, alone or in a cell with its argument. -/
structure Op where
  cod : Opcode
  arg : Option Noun
  deriving DecidableEq, Repr

/-- An opcode alone. -/
def op (cod : Opcode) : Op := ⟨cod, none⟩

/-- How a call ends that does not return. -/
inductive Crash
  /-- `u3m_bail()`. -/
  | bail
  /-- A failed `c3_assert()`, or a write past the end of a buffer. -/
  | assert
  deriving DecidableEq, Repr

/-- `c3_s4()`. -/
def s4 (a b c d : Char) : ℕ :=
  a.toNat ||| b.toNat <<< 8 ||| c.toNat <<< 16 ||| d.toNat <<< 24

/-- `c3__bout`. -/
def mBout : ℕ := s4 'b' 'o' 'u' 't'

/-- `c3__xray`. -/
def mXray : ℕ := s4 'x' 'r' 'a' 'y'

/-- `c3__nara`. -/
def mNara : ℕ := s4 'n' 'a' 'r' 'a'

/-- `c3__hela`. -/
def mHela : ℕ := s4 'h' 'e' 'l' 'a'

/-- The hints that `_n_bint()` compiles to calls of hooks before and after the formula. -/
def hooked : List ℕ := [mXray, mNara, mHela, mBout]

/-- The hints whose clue is pushed on the stack trace: `c3__hunk`, `c3__lose`, `c3__mean`,
`c3__spot`. -/
def traced : List ℕ :=
  [s4 'h' 'u' 'n' 'k', s4 'l' 'o' 's' 'e', s4 'm' 'e' 'a' 'n', s4 's' 'p' 'o' 't']

/-- `c3__live`. -/
def mLive : ℕ := s4 'l' 'i' 'v' 'e'

/-- `c3__slog`. -/
def mSlog : ℕ := s4 's' 'l' 'o' 'g'

/-- `c3__fast`. -/
def mFast : ℕ := s4 'f' 'a' 's' 't'

/-- `c3__memo`. -/
def mMemo : ℕ := s4 'm' 'e' 'm' 'o'

/-! ### The compiler -/

/-- The comparison of a noun, as a word, with a small number: cells and large atoms are pointers. -/
def small (most : ℕ) : Noun → Bool
  | .atom a => a ≤ most
  | .cell _ _ => false

/-- The opcode for an argument that fits into a byte, into two, or into neither. -/
def sized (arg : Noun) (byte short index : Opcode) : Opcode :=
  if small 0xff arg then byte else if small 0xffff arg then short else index

/-- `u3qc_cap()`. `u3r_met()` asserts that its argument is an atom. -/
def cap : Noun → Except Crash ℕ
  | .cell _ _ => .error .assert
  | .atom a =>
    match rMet a with
    | none => .error .bail
    | some met =>
      if met < 2 then .error .bail
      else .ok (if a.testBit (met - 2) then 3 else 2)

/-- The formula `[0 arg]` in `_n_comp()`. -/
def compFrag (arg : Noun) (los : Bool) : Except Crash (List Op) :=
  match arg with
  | .cell _ _ => .error .bail
  | .atom 0 => .ok [op .bail]
  | .atom 1 => .ok (if los then [] else [op .copy])
  | .atom 2 => .ok [op (if los then .held else .head)]
  | .atom 3 => .ok [op (if los then .tall else .tail)]
  | arg =>
    .ok [⟨if los then sized arg .fabl .fasl .fibl else sized arg .fabk .fask .fibk, some arg⟩]

/-- The formula `[1 arg]` in `_n_comp()`. -/
def compLit (arg : Noun) (los : Bool) : List Op :=
  match arg with
  | .atom 0 => [op (if los then .lil0 else .lit0)]
  | .atom 1 => [op (if los then .lil1 else .lit1)]
  | arg => [⟨if los then sized arg .lilb .lils .libl else sized arg .litb .lits .libk, some arg⟩]

/-- The comparison with a literal in `_n_comp()`. -/
def compSame (lit : Noun) : Op :=
  match lit with
  | .atom 0 => op .sam0
  | .atom 1 => op .sam1
  | lit => ⟨sized lit .samb .sams .sanb, some lit⟩

/-- The last instruction of the formula `[10 [axe nef] tel]` in `_n_comp()`. -/
def compEdit (axe : Noun) (los : Bool) : Op :=
  match axe with
  | .atom 2 => op (if los then .muth else .kuth)
  | .atom 3 => op (if los then .mutt else .kutt)
  | .atom 6 => op (if los then .musm else .kusm)
  | axe => ⟨if los then sized axe .mutb .muts .mitb else sized axe .kutb .kuts .kitb, some axe⟩

/-- The literal of a formula `[1 lit]`. -/
def isLit : Noun → Option Noun
  | .cell (.atom 1) lit => some lit
  | _ => none

section Hints

variable (nef : Noun) (comp : Bool → Bool → Except Crash (List Op)) (los tel : Bool)

/-- `_n_bint()` for a hint that is an atom, with what compiles the formula `nef`. -/
def bintAtom (hif : ℕ) : Except Crash (List Op) :=
  if hif ∈ hooked then do
    let fen ← comp los false
    let fen := fen ++ [op (if los then .hill else .hilk), ⟨.sbip, some (.atom 1)⟩]
    .ok ([⟨.hilb, some (.cell (.atom hif) nef)⟩, ⟨.sbin, some (.atom fen.length)⟩] ++ fen ++
      [op (if los then .toss else .swap)])
  else comp los tel

/-- `_n_bint()` for a hint `[zep hod]`, with what compiles `hod` and `nef`. -/
def bintCell (zep : Noun) (hod : Except Crash (List Op)) : Except Crash (List Op) :=
  match zep with
  | .cell _ _ => do
    let hod ← hod
    let nef ← comp los tel
    .ok (hod ++ [op .toss] ++ nef)
  | .atom zep =>
    if zep ∈ hooked then do
      let fen ← comp los false
      let fen := fen ++ [op (if los then .hinl else .hink), ⟨.sbip, some (.atom 1)⟩]
      let hod ← hod
      .ok (hod ++ [⟨.hinb, some (.cell (.atom zep) nef)⟩,
        ⟨.sbin, some (.atom fen.length)⟩] ++ fen ++
        [op (if los then .toss else .swap)])
    else if zep ∈ traced then do
      let hod ← hod
      let nef ← comp los false
      .ok (hod ++ [⟨.bush, some (.atom zep)⟩] ++ nef ++ [op .drop])
    else if zep = mLive then do
      let hod ← hod
      let nef ← comp los tel
      .ok (hod ++ [op .heck] ++ nef)
    else if zep = mSlog then do
      let hod ← hod
      let nef ← comp los tel
      .ok (hod ++ [op .slog] ++ nef)
    else if zep = mFast then do
      let hod ← hod
      let nef ← comp false false
      .ok (hod ++ [op .swap] ++ nef ++ [op (if los then .balt else .bast)])
    else if zep = mMemo then do
      let hod ← hod
      let mem ← comp true false
      let mem := mem ++ [op .save]
      .ok (hod ++ [op .toss] ++
        [⟨if los then .slib else .skib, some (.cell (.atom mem.length) nef)⟩] ++ mem)
    else do
      let hod ← hod
      let nef ← comp los tel
      .ok (hod ++ [op .toss] ++ nef)

end Hints

/-- `_n_formulaic()`. -/
def formulaic : Noun → Bool
  | .atom _ => false
  | .cell (.cell h t) ar => formulaic (.cell h t) && formulaic ar
  | .cell (.atom cod) ar =>
    match cod, ar with
    | 0, .atom _ => true
    | 1, _ => true
    | 3, ar => formulaic ar
    | 4, ar => formulaic ar
    | 2, .cell a b => formulaic a && formulaic b
    | 5, .cell a b => formulaic a && formulaic b
    | 7, .cell a b => formulaic a && formulaic b
    | 8, .cell a b => formulaic a && formulaic b
    | 12, .cell a b => formulaic a && formulaic b
    | 6, .cell a (.cell b c) => formulaic a && (formulaic b || formulaic c)
    | 9, .cell (.atom _) b => formulaic b
    | 10, .cell (.cell (.atom _) a) b => formulaic a && formulaic b
    | 11, .cell (.atom _) b => formulaic b
    | 11, .cell (.cell (.atom _) a) b => formulaic b && formulaic a
    | _, _ => false

/-- `_n_comp()`: `los` when the subject is to be removed from the stack, `tel` in tail position. -/
def comp : Noun → Bool → Bool → Except Crash (List Op)
  | .atom _, _, _ => .error .bail
  | .cell (.cell h t) arg, los, _ => do
    let cod ← comp (.cell h t) false false
    let arg ← comp arg false false
    .ok (cod ++ [op .swap] ++ arg ++ [op (if los then .ault else .auto)])
  | .cell (.atom cod) arg, los, tel =>
    match cod, arg with
    | 0, arg => compFrag arg los
    | 1, arg => .ok (compLit arg los)
    | 2, .cell hed tal => do
      let hed ← comp hed false false
      let tal ← comp tal false false
      .ok (hed ++ [op .swap] ++ tal ++ [op (if tel then .noct else if los then .nolk else .nock)])
    | 3, arg => do
      let arg ← comp arg los false
      .ok (arg ++ [op .deep])
    | 4, arg => do
      let arg ← comp arg los false
      .ok (arg ++ [op .bump])
    | 5, .cell (.cell hh ht) (.cell th tt) =>
      match isLit (.cell hh ht), isLit (.cell th tt) with
      | some hed, some tal => .ok [op (if hed = tal then if los then .lil0 else .lit0
          else if los then .lil1 else .lit1)]
      | none, none => do
        let hed ← comp (.cell hh ht) false false
        let tal ← comp (.cell th tt) false false
        .ok (hed ++ [op .swap] ++ tal ++ [op (if los then .salm else .same)])
      | some lit, none => do
        let tal ← comp (.cell th tt) los false
        .ok (tal ++ [compSame lit])
      | none, some lit => do
        let hed ← comp (.cell hh ht) los false
        .ok (hed ++ [compSame lit])
    | 6, .cell hed (.cell mid tal) => do
      let hed ← comp hed false false
      if ¬ formulaic mid ∧ ¬ formulaic tal then .error .bail
      else do
        let yep ← if formulaic mid then comp mid los tel else .ok [op .bail]
        let nop ← if formulaic tal then comp tal los tel else .ok [op .bail]
        let yep := yep ++ [⟨.sbip, some (.atom nop.length)⟩]
        .ok (hed ++ [⟨.sbin, some (.atom yep.length)⟩] ++ yep ++ nop)
    | 7, .cell hed tal => do
      let hed ← comp hed los false
      let tal ← comp tal true tel
      .ok (hed ++ tal)
    | 8, .cell hed tal => do
      let hed ← comp hed false false
      let tal ← comp tal true tel
      .ok (hed ++ [op (if los then .snol else .snoc)] ++ tal)
    | 9, .cell hed tal => do
      let deep ← if hed = .atom 1 then .ok true else do
        let side ← cap hed
        .ok (side = 3)
      if deep then do
        -- the macro `[7 tal 2 [0 1] 0 hed]`
        let tal ← comp tal los false
        let hed ← compFrag hed false
        .ok (tal ++ ([op .copy] ++ [op .swap] ++ hed ++ [op (if tel then .noct else .nolk)]))
      else do
        let tal ← comp tal (if tel then true else los) false
        .ok (tal ++ [⟨if tel then .ticb else .kicb, some hed⟩])
    | 10, .cell (.cell axe nef) tal => do
      let tal ← comp tal false false
      let nef ← comp nef false false
      .ok (tal ++ [op .swap] ++ nef ++ [compEdit axe los])
    | 11, .cell (.atom hif) nef => bintAtom nef (fun los tel ↦ comp nef los tel) los tel hif
    | 11, .cell (.cell zep hod) nef =>
      bintCell nef (fun los tel ↦ comp nef los tel) los tel zep (comp hod false false)
    | 12, .cell hed tal => do
      let hed ← comp hed false false
      let tal ← comp tal false false
      .ok (hed ++ [op .swap] ++ tal ++ [op (if los then .wils else .wish)])
    | _, _ => .error .bail

attribute [grind =] comp

end Vere.Noun.Nock
