import Vere.Noun.Blocks
import Vere.Noun.Extract

/-!
# Hexadecimal text

`u3qe_en_base16()` and `u3qe_de_base16()` of `pkg/noun/jets/e/base.c`. Both fill the bytes of a slab
from the least significant one on (`Filled`), the first with the digits of an atom and the second
with the number that digits denote.

The digits of a text are read from its end. `packHex` are the bytes of digits in pairs, which the
loops for texts of an even and of an odd length both write (`ofHexEven_gives`, `ofHexOdd_gives`).
`base16_codec` says what the two functions give.
-/

set_option autoImplicit false

namespace Vere.Noun.Base16

open Lib.Bytes
open Imprison
open Nock (lenW)

/-! ### The functions -/

/-- A word with another byte. -/
def setByte (w : UInt32) (k : ℕ) (v : UInt8) : UInt32 :=
  UInt32.ofNat (value ((spell 4 w.toNat).set k v))

/-- `buf_y[i_w] = v`, of the buffer of a slab. -/
def putByte (sab_u : Slab) (i_w : ℕ) (v : UInt8) : Except SlabFault Slab :=
  match sab_u.room[i_w / 4]? with
  | none => .error .overrun
  | some w => sab_u.put (i_w / 4) [setByte w (i_w % 4) v]

/-- `hex_y`: the characters `0` to `9` and `a` to `f`. -/
def hexY (i : ℕ) :
    UInt8 := [48, 49, 50, 51, 52, 53, 54, 55, 56, 57, 97, 98, 99, 100, 101, 102].getD i 0

/-- `u3i_slab_bare()`, with the last word zero. -/
def slabBareZero (walloc : Alloc) (raw : Slab) (met_g len_d : ℕ) : Except SlabFault Slab := do
  let sab_u ← slabBareOn walloc met_g len_d raw
  sab_u.put (sab_u.len_w - 1) [0]

/-- The loop of `u3qe_en_base16()`. -/
def enLoop (dat : ℕ) : ℕ → ℕ → Slab → Except SlabFault Slab
  | 0, _, sab_u => .ok sab_u
  | len_w + 1, buf_y, sab_u => do
    let inp_y := rByte len_w dat
    let sab_u ← putByte sab_u buf_y (hexY (inp_y >>> 4))
    let sab_u ← putByte sab_u (buf_y + 1) (hexY (inp_y &&& 0xf))
    enLoop dat len_w (buf_y + 2) sab_u

/-- `u3qe_en_base16()`. -/
def enBase16 (walloc : Alloc) (raw : Slab) (len dat : ℕ) : Except SlabFault Minted :=
  if ¬len < 2 ^ 31 then .error .bail
  else do
    let sab_u ← slabBareZero walloc raw 4 len
    let sab_u ← enLoop dat len 0 sab_u
    sab_u.moot walloc

/-- `_of_hex_digit()`. -/
def ofHexDigit (inp_y : ℕ) : Option ℕ :=
  if 48 ≤ inp_y ∧ inp_y ≤ 57 then some (inp_y - 48)
  else if 97 ≤ inp_y ∧ inp_y ≤ 102 then some (inp_y - 87)
  else if 65 ≤ inp_y ∧ inp_y ≤ 70 then some (inp_y - 55)
  else none

/-- The loop of `_of_hex_odd()`, and what follows it. -/
def ofHexOddLoop (inp : ℕ) : ℕ → ℕ → ℕ → ℕ → Slab → Except SlabFault (Option Slab)
  | 0, _, hig_y, buf_y, sab_u =>
    match ofHexDigit hig_y with
    | none => .ok none
    | some hit_y => do
      let sab_u ← putByte sab_u buf_y (UInt8.ofNat (hit_y &&& 0xf))
      .ok (some sab_u)
  | len_w + 1, byt_w, hig_y, buf_y, sab_u =>
    match ofHexDigit (rByte (byt_w - 1) inp), ofHexDigit hig_y with
    | some lit_y, some hit_y => do
      let sab_u ← putByte sab_u buf_y (UInt8.ofNat ((hit_y &&& 0xf) ^^^ (lit_y <<< 4)))
      ofHexOddLoop inp len_w (byt_w - 2) (rByte (byt_w - 2) inp) (buf_y + 1) sab_u
    | _, _ => .ok none

/-- `_of_hex_odd()`. -/
def ofHexOdd (inp len_w byt_w : ℕ) (sab_u : Slab) : Except SlabFault (Option Slab) :=
  ofHexOddLoop inp (len_w - 1) (byt_w - 1) (rByte (byt_w - 1) inp) 0 sab_u

/-- The loop of `_of_hex_even()`. -/
def ofHexEvenLoop (inp : ℕ) : ℕ → ℕ → Slab → Except SlabFault (Option Slab)
  | 0, _, sab_u => .ok (some sab_u)
  | len_w + 1, buf_y, sab_u =>
    let inp_s := rShort len_w inp
    match ofHexDigit (inp_s &&& 0xff), ofHexDigit (inp_s >>> 8) with
    | some lit_y, some hit_y => do
      let sab_u ← putByte sab_u buf_y (UInt8.ofNat ((hit_y &&& 0xf) ^^^ (lit_y <<< 4)))
      ofHexEvenLoop inp len_w (buf_y + 1) sab_u
    | _, _ => .ok none

/-- `_of_hex_even()`. -/
def ofHexEven (inp len_w : ℕ) (sab_u : Slab) : Except SlabFault (Option Slab) :=
    ofHexEvenLoop inp len_w 0 sab_u

/-- The parser for the parity of the length in bytes. -/
def ofHex (inp len_w byt_w : ℕ) (sab_u : Slab) : Except SlabFault (Option Slab) :=
  if byt_w &&& 1 ≠ 0 then ofHexOdd inp len_w byt_w sab_u else ofHexEven inp len_w sab_u

/-- `u3qe_de_base16()`: the length in bytes and the number, unless it is `u3_nul`. -/
def deBase16 (walloc : Alloc) (raw : Slab) (inp : ℕ) :
    Except SlabFault (Option (Minted × Minted)) := do
  let len_w ← Blocks.rMet 4 inp
  let sab_u ← slabBareZero walloc raw 3 len_w
  let byt_w ← Blocks.rMet 3 inp
  match ← ofHex inp len_w byt_w sab_u with
  | none => do
    sab_u.free
    .ok none
  | some sab_u => do
    let dat ← sab_u.mint walloc
    let len ← iWord walloc (UInt32.ofNat len_w)
    .ok (some (len, dat))

/-! ### Bytes of a slab -/

/-- The bytes of words. -/
def slabBytes (words : List UInt32) : List UInt8 := words.flatMap fun w ↦ spell 4 w.toNat

theorem length_slabBytes (words : List UInt32) : (slabBytes words).length = 4 * words.length := by
  induction words with
  | nil => rfl
  | cons w words ih =>
    rw [slabBytes, List.flatMap_cons, List.length_append, length_spell]
    show 4 + (slabBytes words).length = _
    rw [ih, List.length_cons]
    omega

theorem value_append (xs ys : List UInt8) :
    value (xs ++ ys) = value xs + 256 ^ xs.length * value ys := by
  induction xs with
  | nil => simp [value]
  | cons x xs ih =>
    rw [List.cons_append, value, value, ih, List.length_cons, Nat.pow_succ]
    ring

theorem value_slabBytes (words : List UInt32) : value (slabBytes words) = valueOf words := by
  induction words with
  | nil => rfl
  | cons w words ih =>
    have hword : value (spell 4 w.toNat) = w.toNat := value_spell_of_lt w.toNat_lt
    rw [slabBytes, List.flatMap_cons, value_append, hword, length_spell]
    show _ + _ * value (slabBytes words) = _
    rw [ih, valueOf, valueOf, List.map_cons, Nat.ofDigits_cons]
    rfl

theorem spell_setByte (w : UInt32) {k : ℕ} (v : UInt8) :
    spell 4 (setByte w k v).toNat = (spell 4 w.toNat).set k v := by
  have hlength : ((spell 4 w.toNat).set k v).length = 4 := by rw [List.length_set, length_spell]
  have hlt : value ((spell 4 w.toNat).set k v) < 2 ^ 32 := by
    have hvalue := value_lt ((spell 4 w.toNat).set k v)
    rwa [hlength] at hvalue
  have hspell := spell_value ((spell 4 w.toNat).set k v)
  rw [hlength] at hspell
  rw [setByte, UInt32.toNat_ofNat_of_lt' hlt, hspell]

theorem slabBytes_set {words : List UInt32} {i : ℕ} {w : UInt32} (hword : words[i / 4]? = some w)
    (v : UInt8) :
    slabBytes (words.set (i / 4) (setByte w (i % 4) v)) = (slabBytes words).set i v := by
  induction words generalizing i with
  | nil => cases hword
  | cons w' words ih =>
    by_cases hi : i < 4
    · have hzero : i / 4 = 0 := Nat.div_eq_of_lt hi
      rw [hzero] at hword ⊢
      obtain rfl := Option.some.inj hword
      rw [List.set_cons_zero, Nat.mod_eq_of_lt hi]
      unfold slabBytes
      rw [List.flatMap_cons, List.flatMap_cons, spell_setByte, List.set_append_left _ _
        (by rw [length_spell]; exact hi)]
    · obtain ⟨j, rfl⟩ := Nat.exists_eq_add_of_le' (Nat.not_lt.mp hi)
      have hdiv : (j + 4) / 4 = j / 4 + 1 := by omega
      rw [hdiv] at hword ⊢
      rw [List.set_cons_succ, Nat.add_mod_right]
      unfold slabBytes
      rw [List.flatMap_cons, List.flatMap_cons,
        List.set_append_right _ _ (by rw [length_spell]; omega), length_spell,
        Nat.add_sub_cancel]
      exact congrArg (spell 4 w'.toNat ++ ·) (ih hword)

/-- A slab whose first bytes have been written. -/
def Filled (s : Slab) (len : ℕ) (large : Bool) (done rest : List UInt8) : Prop :=
  ∃ words, SlabOk s len words large ∧ slabBytes words = done ++ rest

variable {s : Slab} {len : ℕ} {large : Bool} {done rest : List UInt8} {walloc : Alloc} {most : ℕ}

/-- The next byte is written inside the buffer. -/
theorem putByte_gives {r : UInt8} (hfilled : Filled s len large done (r :: rest)) (v : UInt8) :
    Gives walloc most (putByte s done.length v) fun s' ↦
      Filled s' len large (done ++ [v]) rest := by
  obtain ⟨words, hok, hbytes⟩ := hfilled
  have hlength := congrArg List.length hbytes
  rw [length_slabBytes, List.length_append, List.length_cons, hok.words_eq.2] at hlength
  have hlt : done.length / 4 < words.length := by
    rw [hok.words_eq.2]
    omega
  obtain ⟨hroom, htake⟩ := hok.le_room
  have hword : words[done.length / 4]? = some words[done.length / 4] := List.getElem?_eq_getElem hlt
  have hread : s.room[done.length / 4]? = some words[done.length / 4] := by
    rw [← hword, ← htake, List.getElem?_take_of_lt (by omega)]
  unfold putByte
  rw [hread]
  refine (hok.put_gives walloc most (done.length / 4)
    [setByte words[done.length / 4] (done.length % 4) v] ?_).imp fun s' hok' ↦ ?_
  · rw [List.length_singleton]
    omega
  · refine ⟨_, hok', ?_⟩
    have hset := slabBytes_set hword v
    rw [List.set_eq_take_append_cons_drop, if_pos hlt] at hset
    rw [List.length_singleton, List.append_assoc, List.singleton_append, hset, hbytes]
    rw [List.set_append_right _ _ (Nat.le_refl _), Nat.sub_self, List.set_cons_zero,
      List.append_assoc]
    rfl

theorem Filled.length (hfilled : Filled s len large done rest) :
    done.length + rest.length = 4 * len := by
  obtain ⟨words, hok, hbytes⟩ := hfilled
  have hlength := congrArg List.length hbytes
  rw [length_slabBytes, List.length_append, hok.words_eq.2] at hlength
  exact hlength.symm

/-- The buffer has room for the bytes, and zeros in its last word. -/
theorem slabBareZero_gives (hhonest : Honest walloc) (raw : Slab) {met_g len_d : ℕ}
    (hfits : wordsOf met_g len_d ≤ 2 ^ 32 - 6) :
    Gives walloc (wordsOf met_g len_d) (slabBareZero walloc raw met_g len_d) fun s' ↦
      wordsOf met_g len_d < 2 ^ 30 ∧
      ∃ rest, Filled s' (max 1 (wordsOf met_g len_d)) (1 < wordsOf met_g len_d) []
        (rest ++ [0, 0, 0, 0]) := by
  refine (slabBareOn_gives hhonest raw hfits).bind fun s ⟨hloom, hok⟩ ↦ ?_
  rw [hok.len_eq]
  refine (hok.put_gives walloc _ (max 1 (wordsOf met_g len_d) - 1) [0] ?_).imp fun s' hok' ↦
    ⟨lt_of_le_of_lt (le_max_right _ _) hloom, ?_⟩
  · rw [List.length_singleton]
    omega
  · rw [List.length_singleton, List.drop_of_length_le (by rw [hok.words_eq.2]; omega),
    List.append_nil] at hok'
    have hbytes : ∀ words, slabBytes (words ++ [0]) = slabBytes words ++ [0, 0, 0, 0] := fun words ↦
      List.flatMap_append
    exact ⟨_, _, hok', hbytes _⟩

/-! ### Encoding -/

/-- The digits of the low bytes of an atom, the most significant first. -/
def enBytes (dat : ℕ) : ℕ → List UInt8
  | 0 => []
  | len_w + 1 => hexY (rByte len_w dat / 16) :: hexY (rByte len_w dat % 16) :: enBytes dat len_w

@[simp] theorem length_enBytes (dat len_w : ℕ) : (enBytes dat len_w).length = 2 * len_w := by
  induction len_w with
  | zero => rfl
  | succ len_w ih =>
    rw [enBytes, List.length_cons, List.length_cons, ih]
    omega

theorem enLoop_gives (dat : ℕ) {len_w : ℕ} (hfilled : Filled s len large done rest)
    (hroom : 2 * len_w ≤ rest.length) :
    Gives walloc most (enLoop dat len_w done.length s) fun s' ↦
      Filled s' len large (done ++ enBytes dat len_w) (rest.drop (2 * len_w)) := by
  induction len_w generalizing s done rest with
  | zero =>
    show Filled s len large (done ++ []) rest
    rw [List.append_nil]
    exact hfilled
  | succ len_w ih =>
    obtain ⟨hig, low, more, rfl⟩ : ∃ hig low more, rest = hig :: low :: more := by
      rcases rest with - | ⟨hig, - | ⟨low, more⟩⟩
      · cases hroom
      · rw [List.length_singleton] at hroom
        omega
      · exact ⟨hig, low, more, rfl⟩
    have hhigh : rByte len_w dat >>> 4 = rByte len_w dat / 16 := Nat.shiftRight_eq_div_pow _ 4
    have hlow : rByte len_w dat &&& 0xf = rByte len_w dat % 16 := and_mask _ 4
    rw [enLoop, hhigh, hlow]
    refine (putByte_gives hfilled _).bind fun s₁ hfilled₁ ↦ ?_
    have hnext : done.length + 1 = (done ++ [hexY (rByte len_w dat / 16)]).length := by
      rw [List.length_append, List.length_singleton]
    rw [hnext]
    refine (putByte_gives hfilled₁ _).bind fun s₂ hfilled₂ ↦ ?_
    have hrest := ih hfilled₂ (by simp only [List.length_cons] at hroom; omega)
    simp only [List.append_assoc, List.length_append, List.singleton_append] at hrest
    rw [show done.length + 2 = done.length + (1 + 1) from rfl]
    exact hrest

/-! ### Decoding -/

/-- The low bytes of an atom. -/
def text (inp k : ℕ) : List ℕ := (List.range k).map fun i ↦ rByte i inp

/-- The digits that characters are. -/
def digitsOf : List ℕ → Option (List ℕ)
  | [] => some []
  | c :: cs =>
    match ofHexDigit c, digitsOf cs with
    | some d, some ds => some (d :: ds)
    | _, _ => none

/-- Bytes of two digits each, the least significant first. -/
def packHex : List ℕ → List UInt8
  | [] => []
  | [d] => [UInt8.ofNat d]
  | d :: d' :: ds => UInt8.ofNat (d + 16 * d') :: packHex ds

theorem text_succ (inp k : ℕ) :
    (text inp (k + 1)).reverse = rByte k inp :: (text inp k).reverse := by
  rw [text, List.range_succ, List.map_append, List.reverse_append]
  rfl

theorem ofHexDigit_lt {c d : ℕ} (hdigit : ofHexDigit c = some d) : d < 16 := by
  unfold ofHexDigit at hdigit
  split_ifs at hdigit <;> cases hdigit <;> omega

theorem nibbles {hit_y lit_y : ℕ} (hhit : hit_y < 16) (hlit : lit_y < 16) :
    (hit_y &&& 0xf) ^^^ (lit_y <<< 4) = hit_y + 16 * lit_y :=
  (by decide : ∀ h < 16, ∀ l < 16, (h &&& 0xf) ^^^ (l <<< 4) = h + 16 * l) hit_y hhit lit_y hlit

/-- What the loops do, on what they have written before: they fail, or the bytes of the digits are
written. -/
def Decodes (len : ℕ) (large : Bool) (done rest : List UInt8) (digits : Option (List ℕ)) :
    Option Slab →
    Prop
  | none => digits = none
  | some s' => ∃ ds, digits = some ds ∧
    Filled s' len large (done ++ packHex ds) (rest.drop ((ds.length + 1) / 2))

/-- Two digits have been written, and the others follow. -/
theorem Decodes.cons {c c' d d' : ℕ} {cs : List ℕ} {r : UInt8} {res : Option Slab}
    (hd : ofHexDigit c = some d)
    (hd' : ofHexDigit c' = some d')
    (hdecodes : Decodes len large (done ++ [UInt8.ofNat (d + 16 * d')]) rest (digitsOf cs) res) :
    Decodes len large done (r :: rest) (digitsOf (c :: c' :: cs)) res := by
  have hdigits : digitsOf (c :: c' :: cs) = (digitsOf cs).map fun ds ↦ d :: d' :: ds := by
    rw [digitsOf, digitsOf, hd, hd']
    cases digitsOf cs <;> rfl
  rw [hdigits]
  cases res with
  | none =>
    have hnone : digitsOf cs = none := hdecodes
    rw [hnone]
    rfl
  | some s' =>
    obtain ⟨ds, hsome, hfilled⟩ := hdecodes
    refine ⟨d :: d' :: ds, by rw [hsome]; rfl, ?_⟩
    rw [packHex, List.append_cons, List.length_cons, List.length_cons,
      show (ds.length + 1 + 1 + 1) / 2 = (ds.length + 1) / 2 + 1 by omega, List.drop_succ_cons]
    exact hfilled

theorem digitsOf_none {c c' : ℕ} {cs : List ℕ} (hnot : ofHexDigit c' = none ∨ ofHexDigit c = none) :
    digitsOf (c :: c' :: cs) = none := by
  rw [digitsOf, digitsOf]
  rcases hnot with hnot | hnot
  · rw [hnot]
    cases ofHexDigit c <;> rfl
  · rw [hnot]

theorem rShort_bytes (k inp : ℕ) :
    rShort k inp &&& 0xff = rByte (2 * k) inp ∧ rShort k inp >>> 8 = rByte (2 * k + 1) inp := by
  have hpos : 8 * (2 * k + 1) = 16 * k + 8 := by omega
  have heven : 8 * (2 * k) = 16 * k := by omega
  have hmask : rShort k inp &&& 0xff = rShort k inp % 256 := and_mask _ 8
  rw [hmask, rShort_eq, rByte_eq, rByte_eq, hpos, heven]
  simp only [slice, Nat.shiftRight_add, Nat.shiftRight_eq_div_pow _ 8]
  omega

/-- The loop for an even length. -/
theorem ofHexEven_gives (inp : ℕ) {n : ℕ} (hfilled : Filled s len large done rest)
    (hroom : n ≤ rest.length) :
    Gives walloc most (ofHexEvenLoop inp n done.length s)
      (Decodes len large done rest (digitsOf (text inp (2 * n)).reverse)) := by
  induction n generalizing s done rest with
  | zero =>
    refine ⟨[], rfl, ?_⟩
    rw [packHex, List.append_nil]
    exact hfilled
  | succ n ih =>
    cases rest with
    | nil => cases hroom
    | cons r rest =>
      rw [show 2 * (n + 1) = 2 * n + 1 + 1 from rfl, text_succ, text_succ, ofHexEvenLoop,
        (rShort_bytes n inp).1,
        (rShort_bytes n inp).2]
      cases hlit : ofHexDigit (rByte (2 * n) inp) with
      | none =>
        exact digitsOf_none (.inl hlit)
      | some lit_y =>
        cases hhit : ofHexDigit (rByte (2 * n + 1) inp) with
        | none => exact digitsOf_none (.inr hhit)
        | some hit_y =>
          dsimp only
          rw [nibbles (ofHexDigit_lt hhit) (ofHexDigit_lt hlit)]
          refine (putByte_gives hfilled _).bind fun s₁ hfilled₁ ↦ ?_
          have hrest := ih hfilled₁ (Nat.le_of_succ_le_succ hroom)
          rw [List.length_append, List.length_singleton] at hrest
          exact hrest.imp fun res hres ↦ .cons hhit hlit hres

/-- The loop for an odd length. -/
theorem ofHexOdd_gives (inp : ℕ) {n : ℕ} (hfilled : Filled s len large done rest)
    (hroom : n < rest.length) :
    Gives walloc most (ofHexOddLoop inp n (2 * n) (rByte (2 * n) inp) done.length s)
      (Decodes len large done rest (digitsOf (text inp (2 * n + 1)).reverse)) := by
  induction n generalizing s done rest with
  | zero =>
    cases rest with
    | nil => cases hroom
    | cons r rest =>
      rw [text_succ, ofHexOddLoop]
      cases hhit : ofHexDigit (rByte (2 * 0) inp) with
      | none =>
        show digitsOf (rByte (2 * 0) inp :: []) = none
        rw [digitsOf, hhit]
      | some hit_y =>
        have hmask : hit_y &&& 0xf = hit_y := by
          have hand : hit_y &&& 0xf = hit_y % 16 := and_mask hit_y 4
          rw [hand, Nat.mod_eq_of_lt (ofHexDigit_lt hhit)]
        dsimp only
        rw [hmask]
        refine (putByte_gives hfilled _).bind fun s₁ hfilled₁ ↦ ⟨[hit_y], ?_, ?_⟩
        · show digitsOf (rByte (2 * 0) inp :: []) = _
          rw [digitsOf, hhit]
          rfl
        · rw [List.length_singleton]
          exact hfilled₁
  | succ n ih =>
    cases rest with
    | nil => cases hroom
    | cons r rest =>
      rw [show 2 * (n + 1) + 1 = 2 * n + 1 + 1 + 1 from rfl, text_succ, text_succ, ofHexOddLoop,
        show 2 * (n + 1) - 1 = 2 * n + 1 from rfl, show 2 * (n + 1) - 2 = 2 * n from rfl,
        show 2 * (n + 1) = 2 * n + 1 + 1 from rfl]
      cases hlit : ofHexDigit (rByte (2 * n + 1) inp) with
      | none => exact digitsOf_none (.inl hlit)
      | some lit_y =>
        cases hhit : ofHexDigit (rByte (2 * n + 1 + 1) inp) with
        | none => exact digitsOf_none (.inr hhit)
        | some hit_y =>
          dsimp only
          rw [nibbles (ofHexDigit_lt hhit) (ofHexDigit_lt hlit)]
          refine (putByte_gives hfilled _).bind fun s₁ hfilled₁ ↦ ?_
          have hrest := ih hfilled₁ (Nat.lt_of_succ_lt_succ hroom)
          rw [List.length_append, List.length_singleton] at hrest
          exact hrest.imp fun res hres ↦ .cons hhit hlit hres

theorem value_packHex {ds : List ℕ} (hdigits : ∀ d ∈ ds, d < 16) :
    value (packHex ds) = Nat.ofDigits 16 ds := by
  induction ds using packHex.induct with
  | case1 => rfl
  | case2 d =>
    have hlt := hdigits d (List.mem_singleton_self d)
    have hbyte : (UInt8.ofNat d).toNat = d := UInt8.toNat_ofNat_of_lt' (show d < 256 by omega)
    rw [packHex, value, hbyte, Nat.ofDigits_singleton]
    rfl
  | case3 d d' ds ih =>
    have hlt := hdigits d List.mem_cons_self
    have hlt' := hdigits d' (List.mem_cons_of_mem _ List.mem_cons_self)
    have hbyte : (UInt8.ofNat (d + 16 * d')).toNat = d + 16 * d' :=
      UInt8.toNat_ofNat_of_lt' (show d + 16 * d' < 256 by omega)
    rw [packHex, value, hbyte, ih fun e he ↦
      hdigits e (List.mem_cons_of_mem _ (List.mem_cons_of_mem _ he)),
      Nat.ofDigits_cons, Nat.ofDigits_cons]
    ring

theorem digitsOf_lt {cs ds : List ℕ} (hdigits : digitsOf cs = some ds) : ds.length = cs.length ∧
    ∀ d ∈ ds, d < 16 := by
  induction cs generalizing ds with
  | nil =>
    cases hdigits
    exact ⟨rfl, nofun⟩
  | cons c cs ih =>
    rw [digitsOf] at hdigits
    cases hd : ofHexDigit c with
    | none =>
      rw [hd] at hdigits
      cases hdigits
    | some d =>
      cases hds : digitsOf cs with
      | none =>
        rw [hd, hds] at hdigits
        cases hdigits
      | some ds' =>
        rw [hd, hds] at hdigits
        obtain rfl := Option.some.inj hdigits
        obtain ⟨hlength, hlt⟩ := ih hds
        refine ⟨congrArg (· + 1) hlength, fun e he ↦ ?_⟩
        rcases List.mem_cons.mp he with rfl | he
        · exact ofHexDigit_lt hd
        · exact hlt e he

/-! ### The two functions -/

theorem rByte_lt (k inp : ℕ) : rByte k inp < 256 := by
  rw [rByte_eq]
  exact Nat.mod_lt _ (by decide)

theorem text_eq (inp k : ℕ) : text inp k = (spell k inp).map UInt8.toNat := by
  induction k with
  | zero => rfl
  | succ k ih =>
    have hbyte : (UInt8.ofNat (inp / 256 ^ k)).toNat = rByte k inp := by
      rw [UInt8.toNat_ofNat', rByte_eq, slice, Nat.shiftRight_eq_div_pow, two_pow_mul_eight]
    have hsplit : spell (k + 1) inp = spell k inp ++ [UInt8.ofNat (inp / 256 ^ k)] :=
      spell_add k 1 inp
    have htext : text inp (k + 1) = text inp k ++ [rByte k inp] := by
      rw [text, List.range_succ, List.map_append]
      rfl
    rw [htext, ih, hsplit, List.map_append, List.map_singleton, hbyte]

theorem met_three (inp : ℕ) : Blocks.met 3 inp = met inp := rfl

theorem met_four (inp : ℕ) : Blocks.met 4 inp = (met inp + 1) / 2 := by
  show (inp.size + 15) / 16 = ((inp.size + 7) / 8 + 1) / 2
  omega

theorem iWord_gives (walloc : Alloc) (dat_w : UInt32) :
    Gives walloc most (iWord walloc dat_w) fun m ↦ m.Canonical ∧ m.value = dat_w.toNat := by
  have hmint := (@SlabOk.mint_gives _ _ _ _ walloc (.static dat_w) (by decide)).mono
    (Nat.zero_le most)
  have hvalue : valueOf [dat_w] = dat_w.toNat := Nat.ofDigits_singleton ..
  rw [hvalue] at hmint
  exact hmint

theorem drop_zeros {xs : List UInt8} {k : ℕ} (hle : xs.length ≤ k) :
    (xs ++ [0, 0, 0, 0]).drop k = List.replicate (4 - (k - xs.length)) 0 := by
  have hzeros : ([0, 0, 0, 0] : List UInt8) = List.replicate 4 0 := rfl
  rw [List.drop_append, List.drop_of_length_le hle, List.nil_append, hzeros, List.drop_replicate]

/-- Decoding: the length in bytes, rounded up, and the number of the digits. -/
theorem deBase16_gives (hhonest : Honest walloc) (raw : Slab) {inp : ℕ}
    (hloom : lenW inp < 2 ^ 30) :
    Gives walloc (wordsOf 3 ((met inp + 1) / 2)) (deBase16 walloc raw inp) fun res ↦
      match digitsOf (text inp (met inp)).reverse with
      | none => res = none
      | some ds => ∃ len dat, res = some (len, dat) ∧ (len.Canonical ∧
        len.value = (met inp + 1) / 2) ∧
          dat.Canonical ∧ dat.value = Nat.ofDigits 16 ds := by
  have hmet : met inp ≤ 4 * lenW inp := by
    rw [met, lenW]
    omega
  unfold deBase16
  rw [Blocks.rMet_eq (fun hsmall ↦ absurd hsmall (by decide)), Blocks.rMet_eq
    (fun hsmall ↦ absurd hsmall (by decide)),
    met_four, met_three]
  have hwords : wordsOf 3 ((met inp + 1) / 2) ≤ 2 ^ 32 - 6 := by
    unfold wordsOf
    omega
  refine (slabBareZero_gives hhonest raw hwords).bind fun s hs ↦ ?_
  obtain ⟨hless, rest, hfilled⟩ := hs
  have hroom := hfilled.length
  have henough : (met inp + 1) / 2 ≤ (rest ++ [0, 0, 0, 0]).length := by
    unfold wordsOf at hroom
    rw [List.length_nil] at hroom
    omega
  have hloops : Gives walloc (wordsOf 3 ((met inp + 1) / 2))
    (ofHex inp ((met inp + 1) / 2) (met inp) s)
      (Decodes (max 1 (wordsOf 3 ((met inp + 1) / 2))) (1 < wordsOf 3 ((met inp + 1) / 2)) []
        (rest ++ [0, 0, 0, 0])
        (digitsOf (text inp (met inp)).reverse)) := by
    have hparity : met inp &&& 1 = met inp % 2 := and_mask _ 1
    unfold ofHex
    rw [hparity]
    rcases Nat.mod_two_eq_zero_or_one (met inp) with heven | hodd
    · rw [if_neg (not_not.mpr heven)]
      have hgives :=
        @ofHexEven_gives _ _ _ _ _ walloc (wordsOf 3 ((met inp + 1) / 2)) inp _ hfilled henough
      rw [show 2 * ((met inp + 1) / 2) = met inp by omega] at hgives
      exact hgives
    · rw [if_pos (by rw [hodd]; decide)]
      have hgives := @ofHexOdd_gives _ _ _ _ _ walloc (wordsOf 3 ((met inp + 1) / 2)) inp
        ((met inp + 1) / 2 - 1) hfilled (by omega)
      rw [show 2 * ((met inp + 1) / 2 - 1) = met inp - 1 by omega,
        show met inp - 1 + 1 = met inp by omega] at hgives
      exact hgives
  refine hloops.bind fun res hres ↦ ?_
  have hend : ¬(max 1 (wordsOf 3 ((met inp + 1) / 2)) = 1 ∧
      decide (1 < wordsOf 3 ((met inp + 1) / 2)) = true) := by
    rw [decide_eq_true_iff]
    omega
  cases res with
  | none =>
    obtain ⟨words, hok, _⟩ := hfilled
    rw [show digitsOf (text inp (met inp)).reverse = none from hres]
    show Gives walloc _ (do
      s.free
      .ok none) _
    rw [hok.free_eq, if_neg hend]
    rfl
  | some s' =>
    obtain ⟨ds, hdigits, words, hok, hbytes⟩ := hres
    obtain ⟨hlength, hlt⟩ := digitsOf_lt hdigits
    rw [hdigits]
    refine ((hok.mint_gives hend).mono (Nat.zero_le _)).bind fun dat hdat ↦ ?_
    obtain ⟨hcanon, hvalue⟩ := hdat
    refine (iWord_gives walloc _).bind fun len hlen ↦ ?_
    obtain ⟨hcanonLen, hvalueLen⟩ := hlen
    refine ⟨len, dat, rfl, ⟨hcanonLen, ?_⟩, hcanon, ?_⟩
    · rw [hvalueLen]
      exact UInt32.toNat_ofNat_of_lt' (show (met inp + 1) / 2 < 2 ^ 32 by omega)
    · rw [List.length_reverse, text, List.length_map, List.length_range] at hlength
      rw [List.length_nil, List.length_append] at hroom
      rw [hvalue, ← value_slabBytes, hbytes, List.nil_append, drop_zeros (by
          unfold wordsOf at hroom
          simp only [List.length_cons, List.length_nil] at hroom
          omega),
        value_append_zeros, value_packHex hlt]

theorem hexY_ne_zero {i : ℕ} (hlt : i < 16) : hexY i ≠ 0 := (by decide : ∀ i < 16, hexY i ≠ 0) i hlt

theorem enBytes_ne_zero (dat len_w : ℕ) : ∀ c ∈ enBytes dat len_w, c ≠ 0 := by
  induction len_w with
  | zero => exact nofun
  | succ len_w ih =>
    have hlt := rByte_lt len_w dat
    intro c hc
    rcases List.mem_cons.mp hc with rfl | hc
    · exact hexY_ne_zero (by omega)
    · rcases List.mem_cons.mp hc with rfl | hc
      · exact hexY_ne_zero (Nat.mod_lt _ (by decide))
      · exact ih c hc

theorem top_ne_zero {dat len_w k : ℕ} {low : List UInt32} {top : UInt32}
    (hbytes : slabBytes (low ++ [top]) = enBytes dat len_w ++ List.replicate k 0)
      (hlow : 4 * low.length < 2 * len_w) :
    top ≠ 0 := by
  rintro rfl
  have hsplit : slabBytes (low ++ [0]) = slabBytes low ++ [0, 0, 0, 0] := List.flatMap_append
  have hread : (slabBytes (low ++ [0]))[4 * low.length]? = _ := congrArg (·[4 * low.length]?) hbytes
  rw [hsplit, List.getElem?_append_right (by rw [length_slabBytes]), length_slabBytes, Nat.sub_self,
    List.getElem?_append_left (by rw [length_enBytes]; exact hlow)] at hread
  have hmem : (0 : UInt8) ∈ enBytes dat len_w := List.mem_of_getElem? hread.symm
  exact enBytes_ne_zero dat len_w 0 hmem rfl

theorem enBase16_gives (hhonest : Honest walloc) (raw : Slab) {len_w : ℕ} (hlen : len_w < 2 ^ 31)
    (dat : ℕ) :
    Gives walloc (wordsOf 4 len_w) (enBase16 walloc raw len_w dat) fun m ↦
      wordsOf 4 len_w < 2 ^ 30 ∧ m.Canonical ∧ m.value = value (enBytes dat len_w) := by
  have hwords : wordsOf 4 len_w = (len_w + 1) / 2 := by
    unfold wordsOf
    omega
  unfold enBase16
  rw [if_neg (not_not.mpr hlen)]
  refine (slabBareZero_gives hhonest raw (by rw [hwords]; omega)).bind fun s ⟨hless, rest,
    hfilled⟩ ↦ ?_
  have hroom := hfilled.length
  rw [List.length_nil, List.length_append] at hroom
  have henough : 2 * len_w ≤ (rest ++ [0, 0, 0, 0]).length := by
    rw [List.length_append]
    omega
  refine (enLoop_gives dat hfilled henough).bind fun s' hfilled' ↦ ?_
  have hzeros : rest.length ≤ 2 * len_w := by
    simp only [List.length_cons, List.length_nil] at hroom
    omega
  rw [List.nil_append, drop_zeros hzeros] at hfilled'
  obtain ⟨words, hok, hbytes⟩ := hfilled'
  have hvalue : valueOf words = value (enBytes dat len_w) := by
    rw [← value_slabBytes, hbytes, value_append_zeros]
  have hall := List.take_of_length_le (Nat.le_of_eq hok.words_eq.2)
  have hend : ¬(max 1 (wordsOf 4 len_w) = 1 ∧ decide (1 < wordsOf 4 len_w) = true) := by
    rw [decide_eq_true_iff]
    omega
  refine ((hok.finish_gives hend (fun _ len_w ↦ len_w) (Nat.le_refl _)).mono (Nat.zero_le _)).imp
    fun m ⟨hstatic, hheap⟩ ↦ ⟨hless, ?_⟩
  by_cases hlarge : 1 < wordsOf 4 len_w
  · obtain ⟨hmade, hcanon⟩ := hheap (decide_eq_true hlarge)
    rw [hall, hvalue] at hmade
    refine ⟨hcanon fun j hj ↦ ?_, hmade⟩
    obtain ⟨low, top, rfl⟩ := (List.eq_nil_or_concat words).resolve_left fun hnil ↦ by
      have hlength := hok.words_eq.2
      rw [hnil, List.length_nil] at hlength
      omega
    rw [List.concat_eq_append] at hok hbytes hall ⊢
    have hlength := hok.words_eq.2
    rw [List.length_append, List.length_singleton] at hlength
    refine ⟨top, ?_, top_ne_zero hbytes (by omega)⟩
    rw [← hj, hall, List.take_left' (by omega)]
  · obtain ⟨hcanon, hmade⟩ := hstatic (decide_eq_false hlarge)
    exact ⟨hcanon, hmade.trans hvalue⟩

/-! ### Text -/

/-- The hexadecimal digits, in either case. -/
def IsHex (c : UInt8) : Prop :=
  (48 ≤ c.toNat ∧ c.toNat ≤ 57) ∨ (97 ≤ c.toNat ∧ c.toNat ≤ 102) ∨ (65 ≤ c.toNat ∧ c.toNat ≤ 70)

instance (c : UInt8) : Decidable (IsHex c) := inferInstanceAs (Decidable (_ ∨ _))

/-- The value of a hexadecimal digit. -/
def hexValue (c : UInt8) : ℕ :=
  if c.toNat ≤ 57 then c.toNat - 48 else if c.toNat ≤ 70 then
    c.toNat - 65 + 10 else c.toNat - 97 + 10

/-- The number that hexadecimal digits denote. -/
def hexNumber (cs : List UInt8) : ℕ := cs.foldl (fun n c ↦ 16 * n + hexValue c) 0

theorem ofHexDigit_eq (c : UInt8) :
    ofHexDigit c.toNat = if IsHex c then some (hexValue c) else none := by
  unfold ofHexDigit hexValue
  by_cases hnum : 48 ≤ c.toNat ∧ c.toNat ≤ 57
  · have hhex : IsHex c := .inl hnum
    rw [if_pos hnum, if_pos hhex, if_pos hnum.2]
  rw [if_neg hnum]
  by_cases hlower : 97 ≤ c.toNat ∧ c.toNat ≤ 102
  · have hhex : IsHex c := .inr (.inl hlower)
    rw [if_pos hlower, if_pos hhex, if_neg (by omega), if_neg (by omega)]
    congr 1
    omega
  rw [if_neg hlower]
  by_cases hupper : 65 ≤ c.toNat ∧ c.toNat ≤ 70
  · have hhex : IsHex c := .inr (.inr hupper)
    rw [if_pos hupper, if_pos hhex, if_neg (by omega), if_pos hupper.2]
    congr 1
    omega
  · have hnot : ¬IsHex c := fun hhex ↦ hhex.elim hnum fun hhex ↦ hhex.elim hlower hupper
    rw [if_neg hupper, if_neg hnot]

theorem digitsOf_append {cs cs' ds ds' : List ℕ} (hcs : digitsOf cs = some ds)
    (hcs' : digitsOf cs' = some ds') :
    digitsOf (cs ++ cs') = some (ds ++ ds') := by
  induction cs generalizing ds with
  | nil =>
    obtain rfl := Option.some.inj hcs
    exact hcs'
  | cons c cs ih =>
    rw [digitsOf] at hcs
    rw [List.cons_append, digitsOf]
    cases hd : ofHexDigit c with
    | none =>
      rw [hd] at hcs
      cases hcs
    | some d =>
      cases hds : digitsOf cs with
      | none =>
        rw [hd, hds] at hcs
        cases hcs
      | some ds₁ =>
        rw [hd, hds] at hcs
        obtain rfl := Option.some.inj hcs
        rw [ih hds]
        rfl

/-- The digits of a text from its end. -/
theorem digitsOf_reverse {cs : List UInt8} (hhex : ∀ c ∈ cs, IsHex c) :
    ∃ ds, digitsOf (cs.map UInt8.toNat).reverse = some ds ∧ Nat.ofDigits 16 ds = hexNumber cs := by
  induction cs using List.reverseRecOn with
  | nil => exact ⟨[], rfl, rfl⟩
  | append_singleton cs c ih =>
    obtain ⟨ds, hdigits, hnumber⟩ := ih fun c' hc' ↦ hhex c' (List.mem_append_left _ hc')
    have hc : ofHexDigit c.toNat = some (hexValue c) := by
      rw [ofHexDigit_eq, if_pos (hhex c (List.mem_append_right _ (List.mem_singleton_self c)))]
    have hone : digitsOf [c.toNat] = some [hexValue c] := by
      rw [digitsOf, hc]
      rfl
    refine ⟨hexValue c :: ds, ?_, ?_⟩
    · rw [List.map_append, List.reverse_append]
      exact digitsOf_append hone hdigits
    · rw [Nat.ofDigits_cons, hnumber, hexNumber, hexNumber, List.foldl_append]
      exact Nat.add_comm _ _

theorem digitsOf_bad {cs : List UInt8} {c : UInt8} (hmem : c ∈ cs) (hnot : ¬IsHex c) :
    digitsOf (cs.map UInt8.toNat).reverse = none := by
  have hbad : ∀ ns : List ℕ, c.toNat ∈ ns → digitsOf ns = none := by
    intro ns hns
    induction ns with
    | nil => cases hns
    | cons n ns ih =>
      rw [digitsOf]
      rcases List.mem_cons.mp hns with rfl | hns
      · rw [ofHexDigit_eq, if_neg hnot]
      · rw [ih hns]
        cases ofHexDigit n <;> rfl
  exact hbad _ (List.mem_reverse.mpr (List.mem_map_of_mem hmem))

/-- The digits of an atom denote it. -/
theorem hexNumber_enBytes (dat len_w : ℕ) : hexNumber (enBytes dat len_w) = dat % 256 ^ len_w := by
  have hfold : ∀ len_w acc, (enBytes dat len_w).foldl (fun n c ↦ 16 * n + hexValue c) acc =
      acc * 256 ^ len_w + dat % 256 ^ len_w := by
    intro len_w
    induction len_w with
    | zero =>
      intro acc
      rw [enBytes, List.foldl_nil, Nat.pow_zero, Nat.mul_one, Nat.mod_one, Nat.add_zero]
    | succ len_w ih =>
      intro acc
      have hlt := rByte_lt len_w dat
      have hvalue : ∀ i < 16, hexValue (hexY i) = i := by decide
      have hbyte : rByte len_w dat = dat / 256 ^ len_w % 256 := by
        rw [rByte_eq, slice, Nat.shiftRight_eq_div_pow, two_pow_mul_eight]
        rfl
      have hwhole : 16 * (16 * acc + rByte len_w dat / 16) + rByte len_w dat % 16 =
          256 * acc + rByte len_w dat := by
        omega
      rw [enBytes, List.foldl_cons, List.foldl_cons, hvalue _ (by omega),
        hvalue _ (Nat.mod_lt _ (by decide)), ih,
        hwhole, hbyte, Nat.pow_succ, Nat.mod_mul]
      ring
  rw [hexNumber, hfold, Nat.zero_mul, Nat.zero_add]

theorem enBytes_hex (dat len_w : ℕ) : ∀ c ∈ enBytes dat len_w, IsHex c := by
  induction len_w with
  | zero => exact nofun
  | succ len_w ih =>
    have hlt := rByte_lt len_w dat
    have hhex : ∀ i < 16, IsHex (hexY i) := by decide
    intro c hc
    rcases List.mem_cons.mp hc with rfl | hc
    · exact hhex _ (by omega)
    · rcases List.mem_cons.mp hc with rfl | hc
      · exact hhex _ (Nat.mod_lt _ (by decide))
      · exact ih c hc

/-- Decoding gives the number of the text, if every character is a digit. -/
theorem deBase16_text (hhonest : Honest walloc) (raw : Slab) {inp : ℕ} (hloom : lenW inp < 2 ^ 30) :
    Gives walloc (wordsOf 3 (((bytesOf inp).length + 1) / 2)) (deBase16 walloc raw inp) fun res ↦
      (res ≠ none ↔ ∀ c ∈ bytesOf inp, IsHex c) ∧
        ∀ len dat, res = some (len, dat) → (len.Canonical ∧
        len.value = ((bytesOf inp).length + 1) / 2) ∧
          dat.Canonical ∧ dat.value = hexNumber (bytesOf inp) := by
  have hmet : (bytesOf inp).length = met inp := length_spell _ _
  rw [hmet]
  refine (deBase16_gives hhonest raw hloom).imp fun res hres ↦ ?_
  rw [text_eq] at hres
  by_cases hhex : ∀ c ∈ bytesOf inp, IsHex c
  · obtain ⟨ds, hdigits, hnumber⟩ := digitsOf_reverse hhex
    rw [show (spell (met inp) inp).map UInt8.toNat = (bytesOf inp).map UInt8.toNat from rfl,
      hdigits] at hres
    obtain ⟨len, dat, rfl, hlen, hcanon, hdat⟩ := hres
    refine ⟨iff_of_true nofun hhex, fun len' dat' heq ↦ ?_⟩
    cases heq
    rw [← hnumber]
    exact ⟨hlen, hcanon, hdat⟩
  · obtain ⟨c, hc, hnot⟩ : ∃ c ∈ bytesOf inp, ¬IsHex c := by simpa using hhex
    rw [show (spell (met inp) inp).map UInt8.toNat = (bytesOf inp).map UInt8.toNat from rfl,
      digitsOf_bad hc hnot] at hres
    obtain rfl : res = none := hres
    exact ⟨iff_of_false (not_not.mpr rfl) hhex, nofun⟩

/-- Encoding to hexadecimal text, and decoding the text or any other. No byte is written outside of
a buffer, and a call that does not return has bailed because the allocator refuses it memory. -/
theorem base16_codec (hhonest : Honest walloc) :
    (∀ raw raw' len dat, len < 2 ^ 31 →
    Gives walloc (wordsOf 4 len) (enBase16 walloc raw len dat) fun m ↦
      m.Canonical ∧ Gives walloc (wordsOf 3 len) (deBase16 walloc raw' m.value) fun res ↦
        ∃ len' dat', res = some (len', dat') ∧ (len'.Canonical ∧ len'.value = len) ∧
        dat'.Canonical ∧ dat'.value = dat % 256 ^ len) ∧
    ∀ raw (inp : LoomAtom), Gives walloc (wordsOf 3 (((bytesOf inp.val).length + 1) / 2))
        (deBase16 walloc raw inp.val) fun res ↦
      (res ≠ none ↔ ∀ c ∈ bytesOf inp.val, IsHex c) ∧
        ∀ len dat, res = some (len, dat) →
          (len.Canonical ∧ len.value = ((bytesOf inp.val).length + 1) / 2) ∧
          dat.Canonical ∧ dat.value = hexNumber (bytesOf inp.val) := by
  refine ⟨fun raw raw' len dat hlen ↦ ?_, fun raw inp ↦
    deBase16_text hhonest raw (lt_of_le_of_lt inp.fits (by decide))⟩
  refine (enBase16_gives hhonest raw hlen dat).imp fun m ⟨hloom, hcanon, hvalue⟩ ↦ ⟨hcanon, ?_⟩
  have hbytes : bytesOf (value (enBytes dat len)) = enBytes dat len := by
    refine bytesOf_value fun hlast ↦ ?_
    exact enBytes_ne_zero dat len 0 (List.mem_of_getLast? hlast) rfl
  have hfits : lenW m.value < 2 ^ 30 := by
    have hlt := value_lt (enBytes dat len)
    rw [length_enBytes, ← two_pow_mul_eight, ← Nat.size_le, ← hvalue] at hlt
    unfold wordsOf at hloom
    unfold lenW
    omega
  have hdecode := deBase16_text hhonest raw' hfits
  rw [hvalue, hbytes, length_enBytes, show (2 * len + 1) / 2 = len by omega] at hdecode
  rw [hvalue]
  refine hdecode.imp fun res ⟨hiff, hres⟩ ↦ ?_
  obtain ⟨⟨len', dat'⟩, hsome⟩ := Option.ne_none_iff_exists'.mp (hiff.mpr (enBytes_hex dat len))
  obtain ⟨⟨hcanonLen, hlen'⟩, hcanonDat, hdat'⟩ := hres len' dat' hsome
  exact ⟨len', dat', hsome, ⟨hcanonLen, hlen'⟩, hcanonDat, hdat'.trans (hexNumber_enBytes dat len)⟩

/-- Two bytes, with an allocator whose memory is full of sevens. -/
theorem base16_codec_sevens : ∃ m, enBase16 sevens slabRaw 2 0xa1f = .ok m ∧ m.Canonical ∧
    ∃ len' dat', deBase16 sevens slabRaw m.value = .ok (some (len', dat')) ∧
      (len'.Canonical ∧ len'.value = 2) ∧ dat'.Canonical ∧ dat'.value = 0xa1f % 256 ^ 2 := by
  obtain ⟨m, hen, hcanon, hdecode⟩ :=
    ((base16_codec honest_sevens).1 slabRaw slabRaw 2 0xa1f (by decide)).ok
      (not_refuses_sevens (by decide))
  obtain ⟨res, hde, len', dat', rfl, hlen, hdat⟩ := hdecode.ok (not_refuses_sevens (by decide))
  exact ⟨m, hen, hcanon, len', dat', hde, hlen, hdat⟩

end Vere.Noun.Base16
