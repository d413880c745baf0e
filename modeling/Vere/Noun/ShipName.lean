import Vere.Noun.Phonemes
import Vere.Noun.Scramble

/-!
# Ship names

The parser `_parse_p()` of `pkg/noun/jets/e/slaw.c` and the printer `_print_p()` of `scow.c`. `Name`
is the grammar that the parser accepts: the suffix of a galaxy, or one, two, three, four or eight
words of a prefix and a suffix. The parser gives a value on the names, and on texts that go on after
a name with a zero byte (`parseString_eq_value_iff`).

The printer writes no leading zeros, so that names with a first word that it leaves out are not
printed again (`print_ship`, `print_padded`). `parseP_canonical_iff` says for which texts a value is
printed as the text.
-/

set_option autoImplicit false

namespace Vere.Noun.Ship

open Lib.Bytes (value bytesOf bytesOf_value)
open Blocks (met)

/-! ### The parser -/

/-- `+fein:ob` and `+fynd:ob`: inverse to each other, with stars, galaxies and comets left alone. -/
structure Scrambler where
  fein : ℕ → ℕ
  fynd : ℕ → ℕ
  fynd_fein : ∀ x, fynd (fein x) = x
  fein_fynd : ∀ x, fein (fynd x) = x
  fein_star : ∀ x < 2 ^ 16, fein x = x
  fein_comet : ∀ x, 2 ^ 64 ≤ x → fein x = x

/-- The jets of the two gates. -/
def jets (hash : UInt32 → List UInt8 → UInt32) : Scrambler where
  fein := Ob.scrambled (Ob.feisOb hash)
  fynd := Ob.scrambled (Ob.tailOb hash)
  fynd_fein x := (Ob.scrambled_spec Ob.inverse_feisOb x).1
  fein_fynd x := (Ob.scrambled_spec Ob.inverse_tailOb x).1
  fein_star x hx := (Ob.scrambled_spec Ob.inverse_feisOb x).2.2.2 (Or.inl hx)
  fein_comet x hx := (Ob.scrambled_spec Ob.inverse_feisOb x).2.2.2 (Or.inr hx)

/-- `u3a_string()`, without the zero behind it. -/
def string (a : ℕ) : List UInt8 := bytesOf a

/-- What is read of a string: the characters before the first zero. -/
def cString (str_c : List UInt8) : List UInt8 := str_c.takeWhile (· ≠ 0)

/-- `get_syllable()`. -/
def getSyllable : List UInt8 → Option (Syllable × List UInt8)
  | one :: two :: three :: cur =>
    if IsLower one ∧ IsLower two ∧ IsLower three then some (⟨one, two, three⟩, cur) else none
  | _ => none

/-- `CONSUME()`. -/
def consume (x : UInt8) : List UInt8 → Option (List UInt8)
  | c :: cur => if c = x then some cur else none
  | [] => none

/-- `TRY_GET_SYLLABLE()`, `ENSURE_NOT_END()` and `TRY_GET_SYLLABLE()`. -/
def getPair (cur : List UInt8) : Option ((Syllable × Syllable) × List UInt8) := do
  let (a, cur) ← getSyllable cur
  if cur = [] then none
  else
    let (b, cur) ← getSyllable cur
    return ((a, b), cur)

/-- `combine()`. -/
def combine (p q : Option ℕ) : Option ℕ :=
  match p, q with
  | some p, some q => some (p + 256 * q)
  | _, _ => none

/-- The calls of `combine()` on the parts of a name. -/
def combineAll : List (Syllable × Syllable) → Option ℕ
  | [] => none
  | (a, b) :: pairs =>
    pairs.foldl (fun m (c, d) ↦ combine (poFindSuffix d) (combine (poFindPrefix c) m))
      (combine (poFindSuffix b) (poFindPrefix a))

/-- `~` -/
def sig : UInt8 := 126

/-- `-` -/
def hep : UInt8 := 45

/-- `_parse_p()`, after two syllables. -/
def parseWords (ob : Scrambler) (ab : Syllable × Syllable) (cur : List UInt8) :
    Option (Option ℕ) := do
  if cur = [] then return combineAll [ab]
  else
    let cur ← consume hep cur
    let (cd, cur) ← getPair cur
    if cur = [] then return (combineAll [ab, cd]).map ob.fynd
    else
      let cur ← consume hep cur
      let (ef, cur) ← getPair cur
      if cur = [] then return (combineAll [ab, cd, ef]).map ob.fynd
      else
        let cur ← consume hep cur
        let (gh, cur) ← getPair cur
        if cur = [] then return (combineAll [ab, cd, ef, gh]).map ob.fynd
        else
          let cur ← consume hep cur
          let cur ← consume hep cur
          let (ij, cur) ← getPair cur
          let cur ← consume hep cur
          let (kl, cur) ← getPair cur
          let cur ← consume hep cur
          let (mn, cur) ← getPair cur
          let cur ← consume hep cur
          let (op, cur) ← getPair cur
          if cur ≠ [] then none else return combineAll [ab, cd, ef, gh, ij, kl, mn, op]

/-- `_parse_p()`, on a string: `none` is `u3_none`, and `some none` is `u3_nul`. -/
def parseString (ob : Scrambler) (cur : List UInt8) : Option (Option ℕ) := do
  let cur ← consume sig cur
  let (a, cur) ← getSyllable cur
  if cur = [] then return poFindSuffix a
  else
    let (b, cur) ← getSyllable cur
    parseWords ob (a, b) cur

/-- `_parse_p()`. -/
def parseP (ob : Scrambler) (txt : ℕ) : Option (Option ℕ) := parseString ob (cString (string txt))

/-! ### The printer -/

/-- What a printer gives: it bails, it falls back, or it gives a list of characters. -/
inductive Printed where
  | bail
  | fallback
  | tape (list : List UInt8)
deriving DecidableEq

/-- The loop of `_print_p()`, which has written `imp` words. -/
def printLoop : ℕ → ℕ → ℕ → List UInt8 → Option (List UInt8)
  | 0, _, _, list => some list
  | more + 1, imp, sxz, list => do
    let log := sxz % 2 ^ 16
    let abc ← poToPrefix (log / 2 ^ 8)
    let def_ ← poToSuffix (log % 2 ^ 8)
    let list' := if imp % 4 = 0 then if imp ≠ 0 then hep :: hep :: list else list else hep :: list
    printLoop more (imp + 1) (sxz / 2 ^ 16) (abc.text ++ (def_.text ++ list'))

/-- `_print_p()`. -/
def printP (ob : Scrambler) (p : ℕ) : Printed :=
  let sxz := ob.fein p
  if sxz < 256 then
    match poToSuffix sxz with
    | none => .bail
    | some abc => .tape (sig :: abc.text)
  else
    let dyy := met 4 sxz
    if ¬dyy < 2 ^ 31 then .fallback
    else
      match printLoop dyy 0 sxz [] with
      | none => .bail
      | some list => .tape (sig :: list)

/-! ### Names -/

/-- The syllable of a byte. -/
def named (name : ℕ → Option Syllable) (id : ℕ) : List UInt8 :=
  match name id with
  | none => []
  | some s => s.text

/-- A prefix and a suffix. -/
def wordText (w : ℕ) : List UInt8 := named poToPrefix (w / 256) ++ named poToSuffix (w % 256)

/-- Items with a hyphen between them, and two before the last four. -/
def joined {α : Type} (text : α → List UInt8) : List α → List UInt8
  | [] => []
  | [w] => text w
  | w :: v :: ws => text w ++
    ((if (v :: ws).length % 4 = 0 then [hep, hep] else [hep]) ++ joined text (v :: ws))

def wordsText (ws : List ℕ) : List UInt8 := joined wordText ws

/-- The number of words, the most significant one first. -/
def wordsValue (ws : List ℕ) : ℕ := ws.foldl (fun x w ↦ x * 2 ^ 16 + w) 0

/-- The names that the parser accepts. -/
inductive Name where
  | galaxy (id : ℕ) (hid : id < 256)
  | words (ws : List ℕ) (hmany : ws.length ∈ [1, 2, 3, 4, 8]) (hwords : ∀ w ∈ ws, w < 2 ^ 16)

def Name.text : Name → List UInt8
  | .galaxy id _ => sig :: named poToSuffix id
  | .words ws _ _ => sig :: wordsText ws

/-- Planets and moons are unscrambled. -/
def Name.ship (ob : Scrambler) : Name → ℕ
  | .galaxy id _ => id
  | .words ws _ _ => if ws.length ∈ [2, 3, 4] then ob.fynd (wordsValue ws) else wordsValue ws

/-- A star with the prefix `doz`, or more words of which the first is `dozzod`. -/
def LeadingZeros : List ℕ → Prop
  | [] => False
  | [w] => w < 256
  | w :: _ :: _ => w = 0

def Name.Padded : Name → Prop
  | .galaxy _ _ => False
  | .words ws _ _ => LeadingZeros ws

/-- A name with leading zeros, or a name that is followed by a zero byte. -/
def Loose (txt : ℕ) : Prop :=
  ∃ name : Name, cString (string txt) = name.text ∧ (name.Padded ∨ 0 ∈ string txt)

/-! ### Reading -/

variable {ob : Scrambler} {s cur : List UInt8} {x w : ℕ}

theorem getSyllable_eq_some_iff {a : Syllable} : getSyllable s = some (a, cur) ↔ s = a.text ++ cur ∧
    a.Lower := by
  obtain ⟨one, two, three⟩ := a
  constructor
  · intro hget
    match s, hget with
    | one' :: two' :: three' :: rest, hget =>
      by_cases hlower : IsLower one' ∧ IsLower two' ∧ IsLower three'
      · rw [getSyllable, if_pos hlower] at hget
        cases hget
        exact ⟨rfl, hlower⟩
      · rw [getSyllable, if_neg hlower] at hget
        cases hget
  · rintro ⟨rfl, hlower⟩
    exact if_pos hlower

theorem consume_eq_some_iff {c : UInt8} : consume c s = some cur ↔ s = c :: cur := by
  constructor
  · intro hconsume
    match s, hconsume with
    | c' :: rest, hconsume =>
      by_cases hc : c' = c
      · rw [consume, if_pos hc] at hconsume
        cases hconsume
        rw [hc]
      · rw [consume, if_neg hc] at hconsume
        cases hconsume
  · rintro rfl
    exact if_pos rfl

variable {α : Type} {r : α}

theorem getSyllable_bind {k : Syllable × List UInt8 → Option α} :
    getSyllable s >>= k = some r ↔ ∃ a cur, s = a.text ++ cur ∧ a.Lower ∧ k (a, cur) = some r := by
  constructor
  · intro hbind
    obtain ⟨⟨a, cur⟩, hget, hk⟩ := Option.bind_eq_some_iff.mp hbind
    obtain ⟨hs, hlower⟩ := getSyllable_eq_some_iff.mp hget
    exact ⟨a, cur, hs, hlower, hk⟩
  · rintro ⟨a, cur, hs, hlower, hk⟩
    exact Option.bind_eq_some_iff.mpr ⟨(a, cur), getSyllable_eq_some_iff.mpr ⟨hs, hlower⟩, hk⟩

theorem consume_bind {c : UInt8} {k : List UInt8 → Option α} :
    consume c s >>= k = some r ↔ ∃ cur, s = c :: cur ∧ k cur = some r := by
  simp only [Option.bind_eq_bind, Option.bind_eq_some_iff, consume_eq_some_iff]

def pairText (ab : Syllable × Syllable) : List UInt8 := ab.1.text ++ ab.2.text

def PairLower (ab : Syllable × Syllable) : Prop := ab.1.Lower ∧ ab.2.Lower

/-- A pair does not end after its first syllable. -/
theorem getPair_bind {k : (Syllable × Syllable) × List UInt8 → Option α} :
    getPair s >>= k = some r ↔ ∃ ab cur, s = pairText ab ++ cur ∧ PairLower ab ∧
      k (ab, cur) = some r := by
  have hget : ∀ ab cur, getPair s = some (ab, cur) ↔ s = pairText ab ++ cur ∧ PairLower ab := by
    intro ab cur
    unfold getPair
    rw [getSyllable_bind]
    constructor
    · rintro ⟨a, rest, rfl, halower, hget⟩
      replace hget : (if rest = [] then none else _) = some (ab, cur) := hget
      by_cases hend : rest = []
      · rw [if_pos hend] at hget
        cases hget
      rw [if_neg hend, getSyllable_bind] at hget
      obtain ⟨b, rest', rfl, hblower, hpure⟩ := hget
      cases hpure
      exact ⟨(List.append_assoc _ _ _).symm, halower, hblower⟩
    · rintro ⟨rfl, halower, hblower⟩
      refine ⟨ab.1, ab.2.text ++ cur, List.append_assoc _ _ _, halower, ?_⟩
      show (if ab.2.text ++ cur = [] then none else _) = _
      rw [if_neg (by exact List.cons_ne_nil _ _), getSyllable_bind]
      exact ⟨ab.2, cur, rfl, hblower, rfl⟩
  constructor
  · intro hbind
    obtain ⟨⟨ab, cur⟩, hpair, hk⟩ := Option.bind_eq_some_iff.mp hbind
    obtain ⟨hs, hlower⟩ := (hget _ _).mp hpair
    exact ⟨ab, cur, hs, hlower, hk⟩
  · rintro ⟨ab, cur, hs, hlower, hk⟩
    exact Option.bind_eq_some_iff.mpr ⟨(ab, cur), (hget _ _).mpr ⟨hs, hlower⟩, hk⟩

theorem ends_iff {v : α} {k : Option α} :
    (if s = [] then pure v else k) = some r ↔ s = [] ∧ r = v ∨ s ≠ [] ∧ k = some r := by
  by_cases hend : s = []
  · rw [if_pos hend]
    constructor
    · rintro ⟨⟩
      exact Or.inl ⟨hend, rfl⟩
    · rintro (⟨-, rfl⟩ | ⟨hne, -⟩)
      · rfl
      · exact absurd hend hne
  · rw [if_neg hend]
    simp only [hend, false_and, ne_eq, not_false_eq_true, true_and, false_or]

/-! ### The parts of a name -/

def pairWord (ab : Syllable × Syllable) : Option ℕ :=
  combine (poFindSuffix ab.2) (poFindPrefix ab.1)

theorem Syllable.text_append_inj {a b : Syllable} {rest : List UInt8}
    (heq : a.text ++ s = b.text ++ rest) :
    a = b ∧ s = rest := by
  obtain ⟨one, two, three⟩ := a
  cases b
  cases heq
  exact ⟨rfl, rfl⟩

/-- The two halves of a word. -/
theorem exists_pair (hw : w < 2 ^ 16) : ∃ a b, poToPrefix (w / 256) = some a ∧
    poToSuffix (w % 256) = some b ∧
    poFindPrefix a = some (w / 256) ∧ poFindSuffix b = some (w % 256) ∧ PairLower (a, b) ∧
    wordText w = pairText (a, b) := by
  obtain ⟨a, ha, hfindA, halower⟩ := coded_prefix.find_name (show w / 256 < 256 by omega)
  obtain ⟨b, hb, hfindB, hblower⟩ := coded_suffix.find_name (show w % 256 < 256 by omega)
  refine ⟨a, b, ha, hb, hfindA, hfindB, ⟨halower, hblower⟩, ?_⟩
  rw [wordText, named, named, ha, hb]
  rfl

variable {ab : Syllable × Syllable} {pairs : List (Syllable × Syllable)} {res : Option ℕ}
  {ws : List ℕ} {n y : ℕ}

theorem pairWord_eq_some_iff : pairWord ab = some w ↔ w < 2 ^ 16 ∧ pairText ab = wordText w := by
  obtain ⟨a, b⟩ := ab
  unfold pairWord
  constructor
  · intro hword
    match hb : poFindSuffix b, ha : poFindPrefix a, hword with
    | some q, some p, hword =>
      obtain ⟨hqlt, hq⟩ := coded_suffix.name_find hb
      obtain ⟨hplt, hp⟩ := coded_prefix.name_find ha
      cases hword
      refine ⟨by omega, ?_⟩
      rw [wordText, show (q + 256 * p) / 256 = p by omega, show (q + 256 * p) % 256 =
        q by omega, named, named, hp, hq]
      rfl
  · rintro ⟨hw, htext⟩
    obtain ⟨a', b', -, -, hfindA, hfindB, -, htext'⟩ := exists_pair hw
    obtain ⟨rfl, hrest⟩ := Syllable.text_append_inj (htext.trans htext')
    have hsuffix : b.text ++ [] = b'.text ++ [] := by simpa using hrest
    obtain ⟨rfl, -⟩ := Syllable.text_append_inj hsuffix
    dsimp only
    rw [hfindA, hfindB, combine]
    congr 1
    omega

theorem combine_pair (ab : Syllable × Syllable) (m : Option ℕ) :
    combine (poFindSuffix ab.2) (combine (poFindPrefix ab.1) m) =
      m.bind fun x ↦ (pairWord ab).map fun w ↦ x * 2 ^ 16 + w := by
  unfold pairWord
  cases m with
  | none => cases poFindSuffix ab.2 <;> cases poFindPrefix ab.1 <;> rfl
  | some x =>
    cases poFindSuffix ab.2 with
    | none => cases poFindPrefix ab.1 <;> rfl
    | some q =>
      cases poFindPrefix ab.1 with
      | none => rfl
      | some p =>
        show some (q + 256 * (p + 256 * x)) = some (x * 2 ^ 16 + (q + 256 * p))
        congr 1
        omega

/-- The parts are combined when all of them are syllables of the tables. -/
theorem foldl_combine (m : Option ℕ) :
    pairs.foldl (fun m (c, d) ↦ combine (poFindSuffix d) (combine (poFindPrefix c) m)) m = some x ↔
      ∃ y ws, m = some y ∧ List.Forall₂ (fun ab w ↦ pairWord ab = some w) pairs ws ∧
        x = ws.foldl (fun x w ↦ x * 2 ^ 16 + w) y := by
  induction pairs generalizing m with
  | nil =>
    constructor
    · rintro hm
      exact ⟨x, [], hm, .nil, rfl⟩
    · rintro ⟨y, ws, rfl, hforall, rfl⟩
      cases hforall
      rfl
  | cons ab pairs ih =>
    rw [List.foldl_cons, ih]
    constructor
    · rintro ⟨z, ws, hz, hforall, rfl⟩
      obtain ⟨y, rfl, hmap⟩ := Option.bind_eq_some_iff.mp ((combine_pair ab m).symm.trans hz)
      obtain ⟨w, hw, rfl⟩ := Option.map_eq_some_iff.mp hmap
      exact ⟨y, w :: ws, rfl, .cons hw hforall, rfl⟩
    · rintro ⟨y, ws, rfl, hforall, rfl⟩
      cases hforall with
      | cons hw hforall =>
        refine ⟨_, _, ?_, hforall, rfl⟩
        exact (combine_pair ab (some y)).trans (by rw [hw]; rfl)

theorem combineAll_eq_some_iff :
    combineAll (ab :: pairs) = some x ↔
      ∃ ws, List.Forall₂ (fun ab w ↦ pairWord ab = some w) (ab :: pairs) ws ∧
      x = wordsValue ws := by
  refine (foldl_combine (pairWord ab)).trans ⟨?_, ?_⟩
  · rintro ⟨w, ws, hw, hforall, rfl⟩
    refine ⟨w :: ws, .cons hw hforall, ?_⟩
    rw [wordsValue, List.foldl_cons, Nat.zero_mul, Nat.zero_add]
  · rintro ⟨ws, hforall, rfl⟩
    cases hforall with
    | @cons _ w _ ws hw hforall =>
      refine ⟨w, ws, hw, hforall, ?_⟩
      rw [wordsValue, List.foldl_cons, Nat.zero_mul, Nat.zero_add]

/-! ### Parsing -/

/-- How a name of pairs is combined. -/
def combined (ob : Scrambler) (pairs : List (Syllable × Syllable)) : Option ℕ :=
  if pairs.length ∈ [2, 3, 4] then (combineAll pairs).map ob.fynd else combineAll pairs

/-- The texts that the parser accepts or refuses, without falling back. -/
inductive Parts (ob : Scrambler) : List UInt8 → Option ℕ → Prop
  | galaxy {a : Syllable} (hlower : a.Lower) : Parts ob (sig :: a.text) (poFindSuffix a)
  | words (pairs : List (Syllable × Syllable)) (hmany : pairs.length ∈ [1, 2, 3, 4, 8])
      (hlower : ∀ ab ∈ pairs, PairLower ab) : Parts ob (sig :: joined pairText pairs)
        (combined ob pairs)

theorem Parts.of_pairs (pairs : List (Syllable × Syllable)) (hmany : pairs.length ∈ [1, 2, 3, 4, 8])
    (hlower : ∀ ab ∈ pairs, PairLower ab) (htext : s = joined pairText pairs)
    (hres : res = combined ob pairs) : Parts ob (sig :: s) res := by
  rw [htext, hres]
  exact .words pairs hmany hlower

theorem parts_of_parseWords (hab : PairLower ab) (hparse : parseWords ob ab s = some res) :
    Parts ob (sig :: (pairText ab ++ s)) res := by
  obtain ⟨rfl, rfl⟩ | ⟨-, hparse⟩ := ends_iff.mp hparse
  · exact .of_pairs [ab] (by simp) (by simpa using hab) (by simp [joined]) rfl
  obtain ⟨s, rfl, hparse⟩ := consume_bind.mp hparse
  obtain ⟨cd, s, rfl, hcd, hparse⟩ := getPair_bind.mp hparse
  obtain ⟨rfl, rfl⟩ | ⟨-, hparse⟩ := ends_iff.mp hparse
  · exact .of_pairs [ab, cd] (by simp) (by simpa using ⟨hab, hcd⟩) (by simp [joined]) rfl
  obtain ⟨s, rfl, hparse⟩ := consume_bind.mp hparse
  obtain ⟨ef, s, rfl, hef, hparse⟩ := getPair_bind.mp hparse
  obtain ⟨rfl, rfl⟩ | ⟨-, hparse⟩ := ends_iff.mp hparse
  · exact .of_pairs [ab, cd, ef] (by simp) (by simpa using ⟨hab, hcd, hef⟩) (by simp [joined]) rfl
  obtain ⟨s, rfl, hparse⟩ := consume_bind.mp hparse
  obtain ⟨gh, s, rfl, hgh, hparse⟩ := getPair_bind.mp hparse
  obtain ⟨rfl, rfl⟩ | ⟨-, hparse⟩ := ends_iff.mp hparse
  · exact .of_pairs [ab, cd, ef, gh] (by simp) (by simpa using ⟨hab, hcd, hef, hgh⟩)
      (by simp [joined]) rfl
  obtain ⟨s, rfl, hparse₁⟩ := consume_bind.mp hparse
  obtain ⟨s, rfl, hparse₂⟩ := consume_bind.mp hparse₁
  obtain ⟨ij, s, rfl, hij, hparse₃⟩ := getPair_bind.mp hparse₂
  obtain ⟨s, rfl, hparse₄⟩ := consume_bind.mp hparse₃
  obtain ⟨kl, s, rfl, hkl, hparse₅⟩ := getPair_bind.mp hparse₄
  obtain ⟨s, rfl, hparse₆⟩ := consume_bind.mp hparse₅
  obtain ⟨mn, s, rfl, hmn, hparse₇⟩ := getPair_bind.mp hparse₆
  obtain ⟨s, rfl, hparse₈⟩ := consume_bind.mp hparse₇
  obtain ⟨op, s, rfl, hop, hparse₉⟩ := getPair_bind.mp hparse₈
  by_cases hmore : s = []
  · subst hmore
    cases hparse₉
    exact .of_pairs [ab, cd, ef, gh, ij, kl, mn, op] (by simp)
      (by simpa using ⟨hab, hcd, hef, hgh, hij, hkl, hmn, hop⟩) (by simp [joined]) rfl
  · cases (if_pos hmore).symm.trans hparse₉

theorem parts_of_parse (hparse : parseString ob s = some res) : Parts ob s res := by
  obtain ⟨s, rfl, hparse⟩ := consume_bind.mp hparse
  obtain ⟨a, s, rfl, ha, hparse⟩ := getSyllable_bind.mp hparse
  obtain ⟨rfl, rfl⟩ | ⟨-, hparse⟩ := ends_iff.mp hparse
  · rw [List.append_nil]
    exact .galaxy ha
  obtain ⟨b, s, rfl, hb, hparse⟩ := getSyllable_bind.mp hparse
  rw [← List.append_assoc]
  exact parts_of_parseWords ⟨ha, hb⟩ hparse

theorem parseString_pair (hab : PairLower ab) (hparse : parseWords ob ab s = some res) :
    parseString ob (sig :: (pairText ab ++ s)) = some res := by
  refine consume_bind.mpr ⟨_, rfl, getSyllable_bind.mpr
    ⟨ab.1, ab.2.text ++ s, List.append_assoc _ _ _, hab.1, ?_⟩⟩
  refine ends_iff.mpr (Or.inr ⟨List.cons_ne_nil _ _, ?_⟩)
  exact getSyllable_bind.mpr ⟨ab.2, s, rfl, hab.2, hparse⟩

theorem parse_link {cd : Syllable × Syllable} (hcd : PairLower cd)
    {k : (Syllable × Syllable) × List UInt8 → Option α}
    (hk : k (cd, s) = some r) :
      (consume hep (hep :: (pairText cd ++ s)) >>= fun cur ↦ getPair cur >>= k) = some r :=
  consume_bind.mpr ⟨_, rfl, getPair_bind.mpr ⟨cd, s, rfl, hcd, hk⟩⟩

theorem parse_more {v : α} {k : Option α} (hk : k = some r) :
    (if hep :: s = [] then pure v else k) = some r :=
  (if_neg (List.cons_ne_nil _ _)).trans hk

theorem parse_of_parts (hparts : Parts ob s res) : parseString ob s = some res := by
  cases hparts with
  | @galaxy a hlower =>
    exact consume_bind.mpr ⟨_, rfl, getSyllable_bind.mpr ⟨a, [], by simp, hlower, if_pos rfl⟩⟩
  | words pairs hmany hlower =>
    rw [← List.append_nil (joined pairText pairs)]
    match pairs, hmany, hlower with
    | [ab], _, hlower =>
      simp only [List.forall_mem_cons] at hlower
      exact parseString_pair hlower.1 (if_pos rfl)
    | [ab, cd], _, hlower =>
      simp only [List.forall_mem_cons] at hlower
      obtain ⟨hab, hcd, -⟩ := hlower
      rw [show joined pairText [ab, cd] ++ [] = pairText ab ++ hep :: (pairText cd ++ []) by simp
        [joined]]
      refine parseString_pair hab (parse_more ?_)
      exact parse_link hcd (if_pos rfl)
    | [ab, cd, ef], _, hlower =>
      simp only [List.forall_mem_cons] at hlower
      obtain ⟨hab, hcd, hef, -⟩ := hlower
      rw [show joined pairText [ab, cd, ef] ++ [] =
        pairText ab ++ hep :: (pairText cd ++ hep :: (pairText ef ++ [])) by simp [joined]]
      refine parseString_pair hab (parse_more ?_)
      refine parse_link hcd (parse_more ?_)
      exact parse_link hef (if_pos rfl)
    | [ab, cd, ef, gh], _, hlower =>
      simp only [List.forall_mem_cons] at hlower
      obtain ⟨hab, hcd, hef, hgh, -⟩ := hlower
      rw [show joined pairText [ab, cd, ef, gh] ++ [] =
        pairText ab ++ hep :: (pairText cd ++ hep ::
          (pairText ef ++ hep :: (pairText gh ++ []))) by simp [joined]]
      refine parseString_pair hab (parse_more ?_)
      refine parse_link hcd (parse_more ?_)
      refine parse_link hef (parse_more ?_)
      exact parse_link hgh (if_pos rfl)
    | [ab, cd, ef, gh, ij, kl, mn, op], _, hlower =>
      simp only [List.forall_mem_cons] at hlower
      obtain ⟨hab, hcd, hef, hgh, hij, hkl, hmn, hop, -⟩ := hlower
      rw [show joined pairText [ab, cd, ef, gh, ij, kl, mn, op] ++ [] =
        pairText ab ++ hep :: (pairText cd ++ hep ::
          (pairText ef ++ hep :: (pairText gh ++ hep :: hep ::
          (pairText ij ++ hep :: (pairText kl ++ hep ::
            (pairText mn ++ hep :: (pairText op ++ [])))))))
        by simp [joined]]
      refine parseString_pair hab (parse_more ?_)
      refine parse_link hcd (parse_more ?_)
      refine parse_link hef (parse_more ?_)
      refine parse_link hgh (parse_more ?_)
      refine consume_bind.mpr ⟨_, rfl, ?_⟩
      refine getPair_bind.mpr ⟨ij, _, rfl, hij, ?_⟩
      refine parse_link hkl ?_
      refine parse_link hmn ?_
      refine parse_link hop ?_
      exact if_neg (not_not_intro rfl)

theorem parseString_eq_some_iff : parseString ob s = some res ↔ Parts ob s res :=
  ⟨parts_of_parse, parse_of_parts⟩

/-! ### The grammar -/

theorem joined_congr {β : Type} {f : α → List UInt8} {g : β → List UInt8} {l : List α} {l' : List β}
    (hforall : List.Forall₂ (fun a b ↦ f a = g b) l l') : joined f l = joined g l' := by
  induction hforall with
  | nil => rfl
  | @cons a b l l' hab hforall ih =>
    cases hforall with
    | nil => exact hab
    | @cons a' b' l l' hab' hforall =>
      have hlen : (a' :: l).length = (b' :: l').length := by simp [hforall.length_eq]
      rw [joined, joined, hab, ih, hlen]

theorem exists_pairs (hwords : ∀ w ∈ ws, w < 2 ^ 16) :
    ∃ pairs, List.Forall₂ (fun ab w ↦ pairWord ab = some w) pairs ws ∧
    ∀ ab ∈ pairs, PairLower ab := by
  induction ws with
  | nil => exact ⟨[], .nil, by simp⟩
  | cons w ws ih =>
    obtain ⟨hw, hwords⟩ := List.forall_mem_cons.mp hwords
    obtain ⟨pairs, hforall, hlower⟩ := ih hwords
    obtain ⟨a, b, -, -, -, -, hab, htext⟩ := exists_pair hw
    exact ⟨(a, b) :: pairs, .cons (pairWord_eq_some_iff.mpr ⟨hw, htext.symm⟩) hforall,
      List.forall_mem_cons.mpr ⟨hab, hlower⟩⟩

theorem text_of_pairs (hforall : List.Forall₂ (fun ab w ↦ pairWord ab = some w) pairs ws) :
    joined pairText pairs = wordsText ws ∧ ∀ w ∈ ws, w < 2 ^ 16 := by
  constructor
  · exact joined_congr (hforall.imp fun _ _ hab ↦ (pairWord_eq_some_iff.mp hab).2)
  · intro w hw
    induction hforall with
    | nil => cases hw
    | cons hab _ ih =>
      rcases List.mem_cons.mp hw with rfl | hw
      · exact (pairWord_eq_some_iff.mp hab).1
      · exact ih hw

theorem combined_eq_some_iff (hne : pairs ≠ []) :
    combined ob pairs = some x ↔ ∃ ws, List.Forall₂ (fun ab w ↦ pairWord ab = some w) pairs ws ∧
      x = if ws.length ∈ [2, 3, 4] then ob.fynd (wordsValue ws) else wordsValue ws := by
  obtain ⟨ab, rest, rfl⟩ := List.exists_cons_of_ne_nil hne
  unfold combined
  by_cases hmany : (ab :: rest).length ∈ [2, 3, 4]
  · rw [if_pos hmany, Option.map_eq_some_iff]
    constructor
    · rintro ⟨y, hy, rfl⟩
      obtain ⟨ws, hforall, rfl⟩ := combineAll_eq_some_iff.mp hy
      exact ⟨ws, hforall, (if_pos (hforall.length_eq ▸ hmany)).symm⟩
    · rintro ⟨ws, hforall, rfl⟩
      exact ⟨_, combineAll_eq_some_iff.mpr ⟨ws, hforall, rfl⟩,
        (if_pos (hforall.length_eq ▸ hmany)).symm⟩
  · rw [if_neg hmany, combineAll_eq_some_iff]
    constructor
    · rintro ⟨ws, hforall, rfl⟩
      exact ⟨ws, hforall, (if_neg (hforall.length_eq ▸ hmany)).symm⟩
    · rintro ⟨ws, hforall, rfl⟩
      exact ⟨ws, hforall, if_neg (hforall.length_eq ▸ hmany)⟩

/-- The parser gives a value on the names. -/
theorem parseString_eq_value_iff :
    parseString ob s = some (some x) ↔ ∃ name : Name, s = name.text ∧ x = name.ship ob := by
  rw [parseString_eq_some_iff]
  constructor
  · intro hparts
    generalize hres : some x = res at hparts
    cases hparts with
    | @galaxy a hlower =>
      obtain ⟨hx, ha⟩ := coded_suffix.name_find hres.symm
      refine ⟨.galaxy x hx, ?_, rfl⟩
      rw [Name.text, named, ha]
    | words pairs hmany hlower =>
      have hne : pairs ≠ [] := by
        rintro rfl
        simp at hmany
      obtain ⟨ws, hforall, hx⟩ := (combined_eq_some_iff hne).mp hres.symm
      obtain ⟨htext, hwords⟩ := text_of_pairs hforall
      exact ⟨.words ws (hforall.length_eq ▸ hmany) hwords, congrArg _ htext, hx⟩
  · rintro ⟨name, rfl, rfl⟩
    cases name with
    | galaxy id hid =>
      obtain ⟨a, ha, hfind, hlower⟩ := coded_suffix.find_name hid
      rw [Name.text, named, ha, Name.ship, ← hfind]
      exact .galaxy hlower
    | words ws hmany hwords =>
      obtain ⟨pairs, hforall, hlower⟩ := exists_pairs hwords
      have hlen := hforall.length_eq
      have hne : pairs ≠ [] := by
        rintro rfl
        rw [← hlen] at hmany
        simp at hmany
      refine .of_pairs pairs (hlen ▸ hmany) hlower (text_of_pairs hforall).1.symm ?_
      exact ((combined_eq_some_iff hne).mpr ⟨ws, hforall, rfl⟩).symm

/-! ### Lengths -/

/-- The length of a text of words. -/
def textLength : ℕ → ℕ
  | 0 => 0
  | 1 => 6
  | n + 2 => 6 + ((if (n + 1) % 4 = 0 then 2 else 1) + textLength (n + 1))

theorem textLength_lt {m : ℕ} (hlt : m < n) : textLength m < textLength n := by
  refine strictMono_nat_of_lt_succ (fun k ↦ ?_) hlt
  cases k with
  | zero => decide
  | succ k =>
    rw [textLength]
    omega

theorem length_joined {f : α → List UInt8} {l : List α} (hlen : ∀ a ∈ l, (f a).length = 6) :
    (joined f l).length = textLength l.length := by
  induction l with
  | nil => rfl
  | cons a l ih =>
    obtain ⟨ha, hl⟩ := List.forall_mem_cons.mp hlen
    cases l with
    | nil => exact ha
    | cons b l =>
      rw [joined, List.length_append, List.length_append, ha, ih hl]
      show 6 + ((if (l.length + 1) % 4 = 0 then [hep, hep] else [hep]).length + _) =
        6 + ((if (l.length + 1) % 4 = 0 then 2 else 1) + _)
      by_cases hmod : (l.length + 1) % 4 = 0
      · rw [if_pos hmod, if_pos hmod]
        rfl
      · rw [if_neg hmod, if_neg hmod]
        rfl

theorem length_wordsText (hwords : ∀ w ∈ ws, w < 2 ^ 16) :
    (wordsText ws).length = textLength ws.length := by
  refine length_joined fun w hw ↦ ?_
  obtain ⟨a, b, -, -, -, -, -, htext⟩ := exists_pair (hwords w hw)
  rw [htext]
  rfl

theorem ne_zero_of_lower {a : Syllable} (hlower : a.Lower) : ∀ c ∈ a.text, c ≠ 0 := by
  have hzero : ¬IsLower 0 := by decide
  obtain ⟨one, two, three⟩ := a
  obtain ⟨hone, htwo, hthree⟩ := hlower
  rintro c hc rfl
  simp only [Syllable.text, List.mem_cons, List.not_mem_nil, or_false] at hc
  rcases hc with rfl | rfl | rfl
  · exact hzero hone
  · exact hzero htwo
  · exact hzero hthree

/-- No character of a text is zero. -/
theorem ne_zero_of_mem_wordsText (hwords : ∀ w ∈ ws, w < 2 ^ 16) : ∀ c ∈ wordsText ws, c ≠ 0 := by
  have hword : ∀ w < 2 ^ 16, ∀ c ∈ wordText w, c ≠ 0 := by
    intro w hw c hc
    obtain ⟨a, b, -, -, -, -, ⟨ha, hb⟩, htext⟩ := exists_pair hw
    rw [htext] at hc
    exact (List.mem_append.mp hc).elim (ne_zero_of_lower ha c) (ne_zero_of_lower hb c)
  unfold wordsText
  induction ws with
  | nil => simp [joined]
  | cons w ws ih =>
    obtain ⟨hw, hwords⟩ := List.forall_mem_cons.mp hwords
    cases ws with
    | nil => exact hword w hw
    | cons v ws =>
      intro c hc
      rw [joined, List.mem_append, List.mem_append] at hc
      rcases hc with hc | hc | hc
      · exact hword w hw c hc
      · have hhep : c = hep := by
          by_cases hmod : (v :: ws).length % 4 = 0
          · rw [if_pos hmod] at hc
            simpa using hc
          · rw [if_neg hmod] at hc
            simpa using hc
        rw [hhep]
        decide
      · exact ih hwords c hc

/-! ### Words of a number -/

/-- The `n` words that the printer takes from a number, before those it has. -/
def wordsBefore : ℕ → ℕ → List ℕ → List ℕ
  | 0, _, ws => ws
  | n + 1, y, ws => wordsBefore n (y / 2 ^ 16) (y % 2 ^ 16 :: ws)

theorem wordsValue_concat (ws : List ℕ) (w : ℕ) :
    wordsValue (ws ++ [w]) = wordsValue ws * 2 ^ 16 + w := by
  rw [wordsValue, List.foldl_append]
  rfl

theorem wordsBefore_value (hwords : ∀ w ∈ ws, w < 2 ^ 16) (more : List ℕ) :
    wordsBefore ws.length (wordsValue ws) more = ws ++ more := by
  induction ws using List.reverseRecOn generalizing more with
  | nil => rfl
  | append_singleton ws w ih =>
    obtain ⟨hwords, hw⟩ : (∀ w ∈ ws, w < 2 ^ 16) ∧ w < 2 ^ 16 := by
      refine ⟨fun v hv ↦ hwords v (List.mem_append_left _ hv), hwords w (by simp)⟩
    rw [List.length_append, List.length_singleton, wordsBefore, wordsValue_concat,
      show (wordsValue ws * 2 ^ 16 + w) / 2 ^ 16 = wordsValue ws by omega,
      show (wordsValue ws * 2 ^ 16 + w) % 2 ^ 16 = w by omega, ih hwords, List.append_assoc]
    rfl

theorem exists_words (n y : ℕ) (more : List ℕ) :
    ∃ ws, wordsBefore n y more = ws ++ more ∧ ws.length = n ∧
    (∀ w ∈ ws, w < 2 ^ 16) ∧ wordsValue ws = y % 2 ^ (16 * n) := by
  induction n generalizing y more with
  | zero => exact ⟨[], rfl, rfl, by simp, by rw [Nat.mul_zero, Nat.pow_zero, Nat.mod_one]; rfl⟩
  | succ n ih =>
    obtain ⟨ws, hws, hlen, hwords, hvalue⟩ := ih (y / 2 ^ 16) (y % 2 ^ 16 :: more)
    refine ⟨ws ++ [y % 2 ^ 16], ?_, by simp [hlen], ?_, ?_⟩
    · rw [wordsBefore, hws, List.append_assoc]
      rfl
    · intro w hw
      rcases List.mem_append.mp hw with hw | hw
      · exact hwords w hw
      · rw [List.mem_singleton.mp hw]
        exact Nat.mod_lt _ (by decide)
    · rw [wordsValue_concat, hvalue, Nat.mul_succ, Nat.pow_add, Nat.mul_comm (2 ^ (16 * n)),
        Nat.mod_mul]
      omega

theorem foldl_bounds (y : ℕ) (hwords : ∀ w ∈ ws, w < 2 ^ 16) :
    y * 2 ^ (16 * ws.length) ≤ ws.foldl (fun x w ↦ x * 2 ^ 16 + w) y ∧
      ws.foldl (fun x w ↦ x * 2 ^ 16 + w) y < (y + 1) * 2 ^ (16 * ws.length) := by
  induction ws generalizing y with
  | nil => simp
  | cons w ws ih =>
    obtain ⟨hw, hwords⟩ := List.forall_mem_cons.mp hwords
    obtain ⟨hlow, hhigh⟩ := ih (y * 2 ^ 16 + w) hwords
    have hpow : 2 ^ (16 * (w :: ws).length) = 2 ^ 16 * 2 ^ (16 * ws.length) := by
      rw [List.length_cons, Nat.mul_succ, Nat.pow_add, Nat.mul_comm]
    rw [List.foldl_cons, hpow, ← Nat.mul_assoc, ← Nat.mul_assoc]
    constructor
    · exact le_trans (Nat.mul_le_mul_right _ (by omega)) hlow
    · exact lt_of_lt_of_le hhigh (Nat.mul_le_mul_right _ (by omega))

theorem met_le_iff : met 4 y ≤ n ↔ y < 2 ^ (16 * n) := by
  rw [← Nat.size_le, Blocks.met]
  omega

/-! ### Printing -/

theorem wordsText_cons (w : ℕ) (ws : List ℕ) : wordsText (w :: ws) = wordText w ++
    (if ws.length % 4 = 0 then if ws.length ≠ 0 then hep :: hep :: wordsText ws else wordsText ws
      else hep :: wordsText ws) := by
  cases ws with
  | nil => exact (List.append_nil _).symm
  | cons v ws =>
    rw [wordsText, joined]
    by_cases hmod : (v :: ws).length % 4 = 0
    · rw [if_pos hmod, if_pos hmod, if_pos (by simp)]
      rfl
    · rw [if_neg hmod, if_neg hmod]
      rfl

theorem printLoop_eq (n y : ℕ) (ws : List ℕ) :
    printLoop n ws.length y (wordsText ws) = some (wordsText (wordsBefore n y ws)) := by
  induction n generalizing y ws with
  | zero => rfl
  | succ n ih =>
    obtain ⟨a, b, ha, hb, -, -, -, htext⟩ := exists_pair (Nat.mod_lt y (show 0 < 2 ^ 16 by decide))
    have hlist := wordsText_cons (y % 2 ^ 16) ws
    rw [htext, pairText, List.append_assoc] at hlist
    rw [printLoop]
    show (poToPrefix (y % 2 ^ 16 / 256)).bind (fun abc ↦ (poToSuffix (y % 2 ^ 16 % 256)).bind
      fun def_ ↦
      _) = _
    rw [ha, hb, Option.bind_some, Option.bind_some]
    dsimp only at hlist ⊢
    rw [← hlist]
    exact ih (y / 2 ^ 16) (y % 2 ^ 16 :: ws)

/-- What the printer writes of a scrambled number. -/
def shipText (y : ℕ) : List UInt8 :=
  sig :: if y < 256 then named poToSuffix y else wordsText (wordsBefore (met 4 y) y [])

theorem printP_eq (hdirect : met 4 (ob.fein x) < 2 ^ 31) :
    printP ob x = .tape (shipText (ob.fein x)) := by
  unfold printP shipText
  dsimp only
  by_cases hsmall : ob.fein x < 256
  · obtain ⟨a, ha, -⟩ := coded_suffix.find_name hsmall
    rw [if_pos hsmall, if_pos hsmall, named, ha]
  · have hloop := printLoop_eq (met 4 (ob.fein x)) (ob.fein x) []
    rw [if_neg hsmall, if_neg hsmall, if_neg (not_not_intro hdirect)]
    show (match printLoop (met 4 (ob.fein x)) 0 (ob.fein x) [] with
      | none => Printed.bail
      | some list => Printed.tape (sig :: list)) = _
    rw [show printLoop (met 4 (ob.fein x)) 0 (ob.fein x) [] = _ from hloop]

theorem length_named {id : ℕ} (hid : id < 256) : (named poToSuffix id).length = 3 := by
  obtain ⟨a, ha, -⟩ := coded_suffix.find_name hid
  rw [named, ha]
  rfl

theorem length_shipText (hy : y < 256 ∨ y < 2 ^ (16 * n)) :
    (shipText y).length < 1 + textLength (n + 1) := by
  unfold shipText
  rw [List.length_cons, Nat.add_comm]
  refine Nat.add_lt_add_left ?_ 1
  by_cases hsmall : y < 256
  · have hsix : 6 ≤ textLength (n + 1) := by
      cases n with
      | zero => decide
      | succ n =>
        rw [textLength]
        omega
    rw [if_pos hsmall, length_named hsmall]
    omega
  · obtain ⟨ws, hws, hlen, hwords, -⟩ := exists_words (met 4 y) y []
    rw [if_neg hsmall, hws, List.append_nil, length_wordsText hwords, hlen]
    exact textLength_lt (Nat.lt_succ_of_le (met_le_iff.mpr (hy.resolve_left hsmall)))

theorem ne_zero_of_mem_shipText : ∀ c ∈ shipText y, c ≠ 0 := by
  unfold shipText
  intro c hc
  rcases List.mem_cons.mp hc with rfl | hc
  · decide
  by_cases hsmall : y < 256
  · obtain ⟨a, ha, -, hlower⟩ := coded_suffix.find_name hsmall
    rw [if_pos hsmall, named, ha] at hc
    exact ne_zero_of_lower hlower c hc
  · obtain ⟨ws, hws, -, hwords, -⟩ := exists_words (met 4 y) y []
    rw [if_neg hsmall, hws, List.append_nil] at hc
    exact ne_zero_of_mem_wordsText hwords c hc

/-! ### Ships -/

/-- Below a bound that is not less than 2^64, the scrambled numbers are below it too. -/
theorem fein_lt (ob : Scrambler) {b : ℕ} (hb : 2 ^ 64 ≤ b) (hx : x < b) : ob.fein x < b := by
  by_contra hge
  have hcomet := ob.fein_comet (ob.fein x) (by omega)
  have hsame : ob.fein x = x := by
    have hback := congrArg ob.fynd hcomet
    rwa [ob.fynd_fein, ob.fynd_fein] at hback
  omega

theorem fynd_of_fein (ob : Scrambler) (hx : ob.fein x = x) : ob.fynd x = x := by
  have hback := ob.fynd_fein x
  rwa [hx] at hback

theorem mem_lengths : n ∈ [1, 2, 3, 4, 8] ↔ n = 1 ∨ n ∈ [2, 3, 4] ∨ n = 8 := by
  simp only [List.mem_cons, List.not_mem_nil, or_false, or_assoc]

theorem wordsValue_lt (hwords : ∀ w ∈ ws, w < 2 ^ 16) : wordsValue ws < 2 ^ (16 * ws.length) := by
  have hlt := (foldl_bounds 0 hwords).2
  rwa [Nat.zero_add, Nat.one_mul] at hlt

theorem wordsValue_cons (w : ℕ) (ws : List ℕ) :
    wordsValue (w :: ws) = ws.foldl (fun x w ↦ x * 2 ^ 16 + w) w := by
  rw [wordsValue, List.foldl_cons, Nat.zero_mul, Nat.zero_add]

/-- The words of a name without leading zeros are those of its number. -/
theorem met_wordsValue (hne : ws ≠ []) (hwords : ∀ w ∈ ws, w < 2 ^ 16) (hlead : ¬LeadingZeros ws) :
    met 4 (wordsValue ws) = ws.length ∧ 256 ≤ wordsValue ws := by
  obtain ⟨w, rest, rfl⟩ := List.exists_cons_of_ne_nil hne
  have hmax := met_le_iff.mpr (wordsValue_lt hwords)
  obtain ⟨-, hwords⟩ := List.forall_mem_cons.mp hwords
  have hmin := (foldl_bounds w hwords).1
  rw [← wordsValue_cons] at hmin
  have hpos : 1 ≤ w := by
    cases rest with
    | nil =>
      unfold LeadingZeros at hlead
      omega
    | cons v rest => exact Nat.pos_of_ne_zero hlead
  have hmet : ¬met 4 (wordsValue (w :: rest)) ≤ rest.length := by
    rw [met_le_iff, not_lt]
    exact le_trans (Nat.le_mul_of_pos_left _ hpos) hmin
  rw [List.length_cons] at hmax ⊢
  refine ⟨by omega, ?_⟩
  cases rest with
  | nil =>
    unfold LeadingZeros at hlead
    simpa [wordsValue] using hlead
  | cons v rest =>
    refine le_trans ?_ (le_trans (Nat.le_mul_of_pos_left _ hpos) hmin)
    calc 256 ≤ 2 ^ 16 := by decide
      _ ≤ 2 ^ (16 * (v :: rest).length) :=
        Nat.pow_le_pow_right (by decide) (by rw [List.length_cons]; omega)

/-- A name without leading zeros is printed as it was written. -/
theorem print_ship {name : Name} (hname : ¬name.Padded) :
    printP ob (name.ship ob) = .tape name.text := by
  cases name with
  | galaxy id hid =>
    have hfein : ob.fein (Name.ship ob (.galaxy id hid)) = id := ob.fein_star id (by omega)
    have hmet : met 4 id ≤ 1 := met_le_iff.mpr (by omega)
    rw [printP_eq (by rw [hfein]; exact lt_of_le_of_lt hmet (by decide)), hfein, shipText,
      if_pos hid]
    rfl
  | words ws hmany hwords =>
    have hne : ws ≠ [] := by
      rintro rfl
      simp at hmany
    obtain ⟨hmet, hlarge⟩ := met_wordsValue hne hwords hname
    have hfein : ob.fein (Name.ship ob (.words ws hmany hwords)) = wordsValue ws := by
      unfold Name.ship
      rcases mem_lengths.mp hmany with hlen | hlen | hlen
      · dsimp only
        rw [if_neg (by rw [hlen]; decide)]
        refine ob.fein_star _ (lt_of_lt_of_eq (wordsValue_lt hwords) ?_)
        rw [hlen]
      · dsimp only
        rw [if_pos hlen]
        exact ob.fein_fynd _
      · dsimp only
        rw [if_neg (by rw [hlen]; decide)]
        refine ob.fein_comet _ ?_
        by_contra hlt
        have hle := met_le_iff (n := 4) |>.mpr (lt_of_not_ge hlt)
        omega
    have hdirect : met 4 (wordsValue ws) < 2 ^ 31 := by
      rw [hmet]
      simp only [List.mem_cons, List.not_mem_nil, or_false] at hmany
      omega
    rw [printP_eq (by rwa [hfein]), hfein, shipText, if_neg (by omega), hmet]
    have hwordsBefore := wordsBefore_value hwords []
    rw [List.append_nil] at hwordsBefore
    rw [hwordsBefore]
    rfl

/-- A name with leading zeros is printed as a shorter one. -/
theorem print_padded {name : Name} (hname : name.Padded) :
    ∃ list, printP ob (name.ship ob) = .tape list ∧ list.length < name.text.length := by
  cases name with
  | galaxy id hid => exact hname.elim
  | words ws hmany hwords =>
    obtain ⟨w, rest, rfl⟩ : ∃ w rest, ws = w :: rest := by
      cases ws with
      | nil => simp at hmany
      | cons w rest => exact ⟨w, rest, rfl⟩
    have hlen : (Name.text (.words (w :: rest) hmany hwords)).length = 1 + textLength
        (rest.length + 1) := by
      show (wordsText (w :: rest)).length + 1 = _
      rw [length_wordsText hwords, List.length_cons, Nat.add_comm]
    have hshort : ob.fein (Name.ship ob (.words (w :: rest) hmany hwords)) < 256 ∨
        ob.fein (Name.ship ob (.words (w :: rest) hmany hwords)) < 2 ^ (16 * rest.length) := by
      cases rest with
      | nil =>
        left
        have hlead : w < 256 := hname
        have hship : Name.ship ob (.words [w] hmany hwords) = w := by
          unfold Name.ship
          dsimp only
          rw [if_neg (by simp), wordsValue_cons, List.foldl_nil]
        rw [hship, ob.fein_star _ (by omega)]
        exact hlead
      | cons v rest =>
        right
        have hlead : w = 0 := hname
        subst hlead
        obtain ⟨-, hrest⟩ := List.forall_mem_cons.mp hwords
        have hvalue : wordsValue (0 :: v :: rest) < 2 ^ (16 * (v :: rest).length) := by
          rw [wordsValue_cons]
          exact wordsValue_lt hrest
        unfold Name.ship
        dsimp only
        by_cases hmid : (0 :: v :: rest).length ∈ [2, 3, 4]
        · rw [if_pos hmid, ob.fein_fynd]
          exact hvalue
        · rw [if_neg hmid]
          refine fein_lt ob (Nat.pow_le_pow_right (by decide) ?_) hvalue
          simp only [List.mem_cons, List.not_mem_nil, or_false, List.length_cons] at hmany hmid ⊢
          omega
    have hrest : rest.length ≤ 8 := by
      simp only [List.mem_cons, List.not_mem_nil, or_false, List.length_cons] at hmany
      omega
    have hmet : met 4 (ob.fein (Name.ship ob (.words (w :: rest) hmany hwords))) ≤ 8 := by
      refine met_le_iff.mpr (hshort.elim (fun h ↦ lt_trans h (by decide)) fun h ↦
        lt_of_lt_of_le h ?_)
      exact Nat.pow_le_pow_right (by decide) (by omega)
    refine ⟨_, printP_eq (lt_of_le_of_lt hmet (by decide)), ?_⟩
    rw [hlen]
    exact length_shipText hshort

theorem cString_eq_self {l : List UInt8} (hzero : 0 ∉ l) : cString l = l := by
  refine List.takeWhile_eq_self_iff.mpr fun c hc ↦ decide_eq_true ?_
  rintro rfl
  exact hzero hc

theorem cString_text : cString (string (value (shipText y))) = shipText y := by
  have hlast : (shipText y).getLast? ≠ some 0 := fun h ↦
    ne_zero_of_mem_shipText 0 (List.mem_of_getLast? h) rfl
  rw [string, bytesOf_value hlast]
  exact cString_eq_self fun hmem ↦ ne_zero_of_mem_shipText 0 hmem rfl

/-- A ship of five to seven words is not read again. -/
theorem parse_unread (hwords : ∀ w ∈ ws, w < 2 ^ 16) (hpos : 0 < ws.length)
    (hmany : ws.length ∉ [1, 2, 3, 4, 8]) : parseString ob (sig :: wordsText ws) = none := by
  refine Option.eq_none_iff_forall_not_mem.mpr fun res hres ↦ ?_
  have hparts := parseString_eq_some_iff.mp hres
  have hlen := length_wordsText hwords
  generalize htext : sig :: wordsText ws = text at hparts
  cases hparts with
  | @galaxy a hlower =>
    have hthree : (wordsText ws).length = 3 := by
      rw [(List.cons_eq_cons.mp htext).2]
      rfl
    have hsix := textLength_lt (show 0 < ws.length from hpos)
    have hone : textLength 1 ≤ textLength ws.length := by
      rcases Nat.lt_or_ge 1 ws.length with h | h
      · exact (textLength_lt h).le
      · rw [show ws.length = 1 by omega]
    have hval : textLength 1 = 6 := rfl
    omega
  | words pairs hmany' hlower =>
    have hjoined : (joined pairText pairs).length = textLength pairs.length :=
      length_joined fun _ _ ↦ rfl
    rw [← (List.cons_eq_cons.mp htext).2, hlen] at hjoined
    rcases Nat.lt_trichotomy ws.length pairs.length with h | h | h
    · exact absurd hjoined (textLength_lt h).ne
    · exact hmany (h ▸ hmany')
    · exact absurd hjoined (textLength_lt h).ne'

/-- What the parser makes of a printed ship. -/
theorem parse_print (ob : Scrambler) (hx : x < 2 ^ 128) : ∃ list, printP ob x = .tape list ∧
    (parseP ob (value list) = some (some x) ∨ parseP ob (value list) = none) := by
  have hlt := fein_lt ob (by decide) hx
  have hmet : met 4 (ob.fein x) ≤ 8 := met_le_iff.mpr hlt
  refine ⟨_, printP_eq (lt_of_le_of_lt hmet (by decide)), ?_⟩
  unfold parseP
  rw [cString_text]
  have hback := ob.fynd_fein x
  generalize hy : ob.fein x = y at *
  unfold shipText
  by_cases hsmall : y < 256
  · rw [if_pos hsmall]
    have hsame : ob.fynd y = y := fynd_of_fein ob (ob.fein_star y (by omega))
    rw [hback] at hsame
    exact Or.inl (parseString_eq_value_iff.mpr ⟨.galaxy y hsmall, rfl, hsame⟩)
  rw [if_neg hsmall]
  obtain ⟨ws, hws, hlen, hwords, hvalue⟩ := exists_words (met 4 y) y []
  rw [Nat.mod_eq_of_lt (met_le_iff.mp le_rfl)] at hvalue
  rw [hws, List.append_nil]
  by_cases hmany : ws.length ∈ [1, 2, 3, 4, 8]
  · refine Or.inl (parseString_eq_value_iff.mpr ⟨.words ws hmany hwords, rfl, ?_⟩)
    unfold Name.ship
    dsimp only
    rw [hvalue]
    rcases mem_lengths.mp hmany with hone | hmid | height
    · rw [if_neg (by rw [hone]; decide), ← hback]
      exact fynd_of_fein ob (ob.fein_star y (met_le_iff.mp (hlen.symm.trans hone).le))
    · rw [if_pos hmid, hback]
    · rw [if_neg (by rw [height]; decide), ← hback]
      refine fynd_of_fein ob (ob.fein_comet y (not_lt.mp fun hless ↦ ?_))
      have hfour : met 4 y ≤ 4 := met_le_iff.mpr hless
      omega
  · refine Or.inr (parse_unread hwords (Nat.pos_of_ne_zero fun hzero ↦ hsmall ?_) hmany)
    rw [Blocks.met_eq_zero.mp (hlen.symm.trans hzero)]
    decide

/-- The parser gives a value that is printed as the text, or no value, on all texts but names with
leading zeros, and names that are followed by a zero byte. -/
theorem parseP_canonical_iff (ob : Scrambler) :
    (∀ t, (∀ x, parseP ob t = some (some x) → printP ob x = .tape (string t)) ↔ ¬Loose t) ∧
      ∀ x < 2 ^ 128, ∃ list, printP ob x = .tape list ∧
        (parseP ob (value list) = some (some x) ∨ parseP ob (value list) = none) := by
  refine ⟨fun t ↦ ⟨?_, ?_⟩, fun x hx ↦ parse_print ob hx⟩
  · rintro hprints ⟨name, htext, hloose⟩
    have hprint := hprints _ (parseString_eq_value_iff.mpr ⟨name, htext, rfl⟩)
    by_cases hpadded : name.Padded
    · obtain ⟨list, hlist, hshorter⟩ := @print_padded ob _ hpadded
      cases hlist.symm.trans hprint
      rw [← htext] at hshorter
      exact absurd hshorter (not_lt.mpr (List.takeWhile_sublist _).length_le)
    · have hzero := hloose.resolve_left hpadded
      have hsame : name.text = string t := Printed.tape.inj ((print_ship hpadded).symm.trans hprint)
      rw [← hsame, ← htext] at hzero
      simpa using List.mem_takeWhile_imp (show 0 ∈ (string t).takeWhile (· ≠ 0) from hzero)
  · intro hstrict x hparse
    obtain ⟨name, htext, rfl⟩ := parseString_eq_value_iff.mp hparse
    have hzero : 0 ∉ string t := fun hmem ↦ hstrict ⟨name, htext, Or.inr hmem⟩
    rw [print_ship fun hpadded ↦ hstrict ⟨name, htext, Or.inl hpadded⟩, ← htext,
      cString_eq_self hzero]

/-- `~dozzod`, with a hash that is always zero: the galaxy `~zod`, under the name of a star. -/
theorem parseP_dozzod :
    ¬∀ t x, parseP (jets fun _ _ ↦ 0) t = some (some x) →
      printP (jets fun _ _ ↦ 0) x = .tape (string t) := by
  intro hprints
  have hparse : parseP (jets fun _ _ ↦ 0) (value (sig :: wordsText [0])) = some (some 0) := by
    unfold parseP string
    rw [bytesOf_value (by decide)]
    decide +kernel
  have hprint := hprints _ _ hparse
  rw [string, bytesOf_value (by decide)] at hprint
  revert hprint
  decide +kernel

end Vere.Noun.Ship
