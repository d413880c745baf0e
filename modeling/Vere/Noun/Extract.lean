import Vere.Lib.Bytes
import Vere.Noun.SlabRun
import Vere.Noun.Words

/-!
# Bits, bytes and words of an atom

The functions of `pkg/noun/retrieve.c` that read an atom at an offset: `u3r_bit()`, `u3r_byte()`,
`u3r_short()`, `u3r_word()` and `u3r_chub()` give one piece of it, and `u3r_bytes()`,
`u3r_bytes_alloc()` and `u3r_words()` write a number of them to memory. The first four are right at
every offset. What the others do is in `rBytes_eq`, `rWords_eq`, `rChub_eq` and `rBytesAlloc_eq`,
and `extractors_agree_iff` says for each of them when it is right.
-/

set_option autoImplicit false

namespace Vere.Noun

open Lib.Bytes
open Nock
open Imprison (wordOf)

/-! ### Memory -/

/-- Writes to memory from an offset on, `none` past its end. -/
def write {α : Type} (mem : List α) (off : ℕ) (src : List α) : Option (List α) :=
  if off + src.length ≤ mem.length then some (mem.take off ++ src ++ mem.drop (off + src.length))
    else none

/-- A right shift of a 32-bit word, which is defined for less than 32 bits. -/
def shr (w n : ℕ) : Option ℕ := if n < 32 then some (w >>> n) else none

/-- `memset()` of words to zero, of a number of bytes. -/
def zeroWords (mem : List UInt32) (off bytes : ℕ) : Option (List UInt32) :=
  write mem off (List.replicate (bytes / 4) 0)

/-- The words of an indirect atom in memory. -/
def bufWords (d : ℕ) : List UInt32 := (List.range (lenW d)).map (wordOf d)

/-- The bytes of an indirect atom in memory. -/
def bufBytes (d : ℕ) : List UInt8 := (List.range (lenW d)).flatMap fun i ↦ spell 4 (bufW d i)

/-! ### The functions -/

/-- `u3r_bit()`. -/
def rBit (a_w b : ℕ) : ℕ :=
  if b < 2 ^ 31 then
    if 31 ≤ a_w then 0 else 1 &&& b >>> a_w
  else
    let vut_y := a_w &&& 31
    let pix_w := a_w >>> 5
    if lenW b ≤ pix_w then 0 else 1 &&& bufW b pix_w >>> vut_y

/-- `u3r_byte()`. -/
def rByte (a_w b : ℕ) : ℕ :=
  if b < 2 ^ 31 then
    if 3 < a_w then 0 else 255 &&& b >>> (a_w <<< 3)
  else
    let vut_y := a_w &&& 3
    let pix_w := a_w >>> 2
    if lenW b ≤ pix_w then 0 else 255 &&& bufW b pix_w >>> (vut_y <<< 3)

/-- `u3r_bytes()`, to the memory `c_y`. -/
def rBytes (a_w b_w : ℕ) (c_y : List UInt8) (d : ℕ) : Option (List UInt8) :=
  if d < 2 ^ 31 then do
    let e_w ← shr d (min a_w 4 <<< 3)
    let m_w := min b_w 4
    let c_y ← write c_y 0 ((spell 4 e_w).take m_w)
    if 4 < b_w then write c_y 4 (List.replicate (b_w - 4) 0) else some c_y
  else
    let n_w := lenW d <<< 2 % 2 ^ 32
    if n_w ≤ a_w then write c_y 0 (List.replicate b_w 0)
    else do
      let z_w := min b_w (n_w - a_w)
      let c_y ← write c_y 0 (((bufBytes d).drop a_w).take z_w)
      if n_w - a_w < b_w then
        write c_y z_w (List.replicate ((b_w + a_w + (2 ^ 32 - n_w)) % 2 ^ 32) 0)
      else some c_y

/-- `u3r_bytes_alloc()`, where `malloc` is the memory that `u3a_malloc()` gives. -/
def rBytesAlloc (malloc : ℕ → List UInt8) (a_w len_w b : ℕ) : Option (List UInt8) :=
  let b_y := malloc len_w
  rBytes a_w ((a_w + len_w) % 2 ^ 32) b_y b

/-- `u3r_short()`. -/
def rShort (a_w b : ℕ) : ℕ :=
  if b < 2 ^ 31 then
    match a_w with
    | 0 => b &&& 0xffff
    | 1 => b >>> 16
    | _ => 0
  else
    let nix_w := a_w >>> 1
    if lenW b ≤ nix_w then 0
    else
      let wor_w := bufW b nix_w
      if a_w &&& 1 ≠ 0 then wor_w >>> 16 else wor_w &&& 0xffff

/-- `u3r_word()`. -/
def rWord (a_w b : ℕ) : ℕ :=
  if b < 2 ^ 31 then
    if 0 < a_w then 0 else b
  else if lenW b ≤ a_w then 0 else bufW b a_w

/-- `u3r_chub()`. -/
def rChub (a_w b : ℕ) : ℕ :=
  let wlo_w := rWord (a_w * 2 % 2 ^ 32) b
  let whi_w := rWord ((1 + a_w * 2) % 2 ^ 32) b
  whi_w <<< 32 ||| wlo_w

/-- `u3r_words()`, to the memory `c_w`. -/
def rWords (a_w b_w : ℕ) (c_w : List UInt32) (d : ℕ) : Option (List UInt32) :=
  if b_w = 0 then some c_w
  else if d < 2 ^ 31 then
    if a_w = 0 then do
      let c_w ← write c_w 0 [UInt32.ofNat d]
      zeroWords c_w 1 ((b_w - 1) <<< 2 % 2 ^ 32)
    else zeroWords c_w 0 (b_w <<< 2 % 2 ^ 32)
  else if lenW d ≤ a_w then zeroWords c_w 0 (b_w <<< 2 % 2 ^ 32)
  else do
    let z_w := min b_w (lenW d - a_w)
    let c_w ← write c_w 0 (((bufWords d).drop a_w).take (z_w <<< 2 % 2 ^ 32 / 4))
    if lenW d - a_w < b_w then
      zeroWords c_w z_w (((b_w + a_w + (2 ^ 32 - lenW d)) % 2 ^ 32) <<< 2 % 2 ^ 32)
    else some c_w

/-! ### One piece -/

section Pieces

variable (a_w b : ℕ)

/-- A direct atom has no bits past its word. -/
theorem slice_direct {b pos wid : ℕ} (hb : b < 2 ^ 31) (hpos : 31 ≤ pos) : slice b pos wid = 0 := by
  have hlt : b < 2 ^ pos := hb.trans_le (Nat.pow_le_pow_right (by decide) hpos)
  rw [slice, Nat.shiftRight_eq_div_pow, Nat.div_eq_of_lt hlt, Nat.zero_mod]

theorem and_mask (w n : ℕ) : w &&& (2 ^ n - 1) = w % 2 ^ n := Nat.and_two_pow_sub_one_eq_mod w n

theorem mask_and (w n : ℕ) : (2 ^ n - 1) &&& w = w % 2 ^ n := by rw [Nat.and_comm, and_mask]

theorem rBit_eq : rBit a_w b = slice b a_w 1 := by
  unfold rBit
  by_cases hb : b < 2 ^ 31
  · rw [if_pos hb]
    by_cases ha : 31 ≤ a_w
    · rw [if_pos ha, slice_direct hb ha]
    · rw [if_neg ha]
      exact mask_and (b >>> a_w) 1
  · rw [if_neg hb]
    have hvut : a_w &&& 31 = a_w % 32 := and_mask a_w 5
    have hpix : a_w >>> 5 = a_w / 32 := Nat.shiftRight_eq_div_pow a_w 5
    simp only [hvut, hpix]
    have hpos : 32 * (a_w / 32) + a_w % 32 = a_w := Nat.div_add_mod a_w 32
    by_cases hlen : lenW b ≤ a_w / 32
    · rw [if_pos hlen, slice_past (by omega)]
    · rw [if_neg hlen]
      have hslice := @slice_bufW b (a_w / 32) (a_w % 32) 1 (by omega)
      rw [hpos] at hslice
      exact (mask_and _ 1).trans hslice

theorem rByte_eq : rByte a_w b = slice b (8 * a_w) 8 := by
  unfold rByte
  have hshift : ∀ k, k <<< 3 = 8 * k := fun k ↦ by rw [Nat.shiftLeft_eq, Nat.mul_comm]
  by_cases hb : b < 2 ^ 31
  · rw [if_pos hb]
    by_cases ha : 3 < a_w
    · rw [if_pos ha, slice_direct hb (by omega)]
    · rw [if_neg ha, hshift]
      exact mask_and _ 8
  · rw [if_neg hb]
    have hvut : a_w &&& 3 = a_w % 4 := and_mask a_w 2
    have hpix : a_w >>> 2 = a_w / 4 := Nat.shiftRight_eq_div_pow a_w 2
    simp only [hvut, hpix, hshift]
    by_cases hlen : lenW b ≤ a_w / 4
    · rw [if_pos hlen, slice_past (by omega)]
    · rw [if_neg hlen]
      have hslice := @slice_bufW b (a_w / 4) (8 * (a_w % 4)) 8 (by omega)
      rw [show 32 * (a_w / 4) + 8 * (a_w % 4) = 8 * a_w by omega] at hslice
      exact (mask_and _ 8).trans hslice

theorem rShort_eq : rShort a_w b = slice b (16 * a_w) 16 := by
  unfold rShort
  by_cases hb : b < 2 ^ 31
  · rw [if_pos hb]
    split
    · exact and_mask b 16
    · have hlt : b >>> 16 < 2 ^ 16 := by
        rw [Nat.shiftRight_eq_div_pow]
        omega
      exact (Nat.mod_eq_of_lt hlt).symm
    · next hzero hone =>
      have hmany : 2 ≤ a_w := by
        by_contra hfew
        rcases (show a_w = 0 ∨ a_w = 1 by omega) with rfl | rfl
        · exact hzero rfl
        · exact hone rfl
      rw [slice_direct hb (by omega)]
  · rw [if_neg hb]
    have hodd : a_w &&& 1 = a_w % 2 := and_mask a_w 1
    have hnix : a_w >>> 1 = a_w / 2 := Nat.shiftRight_eq_div_pow a_w 1
    simp only [hodd, hnix]
    by_cases hlen : lenW b ≤ a_w / 2
    · rw [if_pos hlen, slice_past (by omega)]
    · rw [if_neg hlen]
      by_cases hlow : a_w % 2 = 0
      · rw [if_neg (not_not.mpr hlow)]
        have hslice := @slice_bufW b (a_w / 2) 0 16 (by omega)
        rw [show 32 * (a_w / 2) + 0 = 16 * a_w by omega] at hslice
        exact (and_mask _ 16).trans hslice
      · rw [if_pos hlow]
        have hslice := @slice_bufW b (a_w / 2) 16 16 (by omega)
        rw [show 32 * (a_w / 2) + 16 = 16 * a_w by omega] at hslice
        have hword : bufW b (a_w / 2) < 2 ^ 32 := Nat.mod_lt _ (Nat.two_pow_pos 32)
        have hlt : bufW b (a_w / 2) >>> 16 < 2 ^ 16 := by
          rw [Nat.shiftRight_eq_div_pow]
          omega
        exact (Nat.mod_eq_of_lt hlt).symm.trans hslice

theorem rWord_eq : rWord a_w b = slice b (32 * a_w) 32 := by
  unfold rWord
  by_cases hb : b < 2 ^ 31
  · rw [if_pos hb]
    by_cases ha : 0 < a_w
    · rw [if_pos ha, slice_direct hb (by omega)]
    · rw [if_neg ha, show a_w = 0 by omega]
      exact (Nat.mod_eq_of_lt (by omega : b < 2 ^ 32)).symm
  · rw [if_neg hb]
    by_cases hlen : lenW b ≤ a_w
    · rw [if_pos hlen, slice_past (by omega)]
    · rw [if_neg hlen]
      rfl

theorem slice_append (d pos wid more : ℕ) :
    slice d (pos + wid) more <<< wid ||| slice d pos wid = slice d pos (wid + more) := by
  refine Nat.eq_of_testBit_eq fun i ↦ ?_
  rw [Nat.testBit_or, Nat.testBit_shiftLeft, testBit_slice, testBit_slice, testBit_slice]
  by_cases hi : wid ≤ i
  · have hpos : pos + wid + (i - wid) = pos + i := by omega
    have hless : decide (i - wid < more) = decide (i < wid + more) :=
      decide_eq_decide.mpr (by omega)
    rw [decide_eq_true hi, decide_eq_false (by omega : ¬i < wid), Bool.true_and, Bool.false_and,
      Bool.or_false,
      hpos, hless]
  · rw [decide_eq_false hi, decide_eq_true (by omega : i < wid),
      decide_eq_true (by omega : i < wid + more),
      Bool.false_and, Bool.false_or]

/-- `u3r_chub()` of an offset from `2 ^ 31` on is that of the offset without its top bit. -/
theorem rChub_eq : rChub a_w b = slice b (64 * (a_w % 2 ^ 31)) 64 := by
  unfold rChub
  have hlow : a_w * 2 % 2 ^ 32 = 2 * (a_w % 2 ^ 31) := by omega
  have hhigh : (1 + a_w * 2) % 2 ^ 32 = 2 * (a_w % 2 ^ 31) + 1 := by omega
  simp only [hlow, hhigh, rWord_eq]
  have happend := slice_append b (64 * (a_w % 2 ^ 31)) 32 32
  rw [show 32 * (2 * (a_w % 2 ^ 31) + 1) = 64 * (a_w % 2 ^ 31) + 32 by omega,
    show 32 * (2 * (a_w % 2 ^ 31)) = 64 * (a_w % 2 ^ 31) by omega]
  exact happend

end Pieces

/-! ### A number of pieces -/

section Writes

variable {α : Type} {mem src : List α}

theorem write_zero : write mem 0 src =
    if src.length ≤ mem.length then some (src ++ mem.drop src.length) else none := by
  unfold write
  rw [Nat.zero_add, List.take_zero, List.nil_append]

theorem write_write (more : List α) :
    ((write mem 0 src).bind fun mem ↦ write mem src.length more) = write mem 0 (src ++ more) := by
  simp only [write_zero, List.length_append]
  by_cases hsrc : src.length ≤ mem.length
  · rw [if_pos hsrc, Option.bind_some, write, List.length_append, List.length_drop,
      Nat.add_sub_cancel' hsrc,
      List.take_left, List.drop_length_add_append, List.drop_drop]
  · rw [if_neg hsrc, if_neg (by omega), Option.bind_none]

end Writes

theorem spell_mod (len n : ℕ) : spell len (n % 256 ^ len) = spell len n := by
  have hspell := spell_value (spell len n)
  rwa [length_spell, value_spell] at hspell

theorem drop_spell {a m : ℕ} (hle : a ≤ m) (n : ℕ) :
    (spell m n).drop a = spell (m - a) (n / 256 ^ a) := by
  obtain ⟨more, rfl⟩ := Nat.exists_eq_add_of_le hle
  rw [spell_add, List.drop_left' (length_spell a n), Nat.add_sub_cancel_left]

theorem take_spell {z m : ℕ} (hle : z ≤ m) (n : ℕ) : (spell m n).take z = spell z n := by
  obtain ⟨more, rfl⟩ := Nat.exists_eq_add_of_le hle
  rw [spell_add, List.take_left' (length_spell z n)]

theorem spell_past {n z : ℕ} (hlt : n < 256 ^ z) (more : ℕ) :
    spell (z + more) n = spell z n ++ List.replicate more 0 := by
  rw [spell_add, Nat.div_eq_of_lt hlt, spell_zero]

/-- The bytes of a number, and zeros behind them where more are asked for. -/
theorem write_spell {e n : ℕ} (hless : e < 256 ^ n) {off k b_w : ℕ}
    (hmany : n < b_w → off = n ∧ k = b_w - n) (mem : List UInt8) :
    ((write mem 0 ((spell n e).take (min b_w n))).bind fun mem ↦
      if n < b_w then write mem off (List.replicate k 0) else some mem) =
        write mem 0 (spell b_w e) := by
  rw [take_spell (Nat.min_le_right _ _)]
  by_cases hlt : n < b_w
  · obtain ⟨rfl, rfl⟩ := hmany hlt
    obtain ⟨more, rfl⟩ := Nat.exists_eq_add_of_le hlt.le
    rw [Nat.min_eq_right hlt.le, spell_past hless, Nat.add_sub_cancel_left, ← write_write,
      length_spell]
    simp only [if_pos hlt]
  · rw [Nat.min_eq_left (Nat.not_lt.mp hlt)]
    simp only [if_neg hlt]
    cases write mem 0 (spell b_w e) <;> rfl

theorem two_pow_mul_eight (k : ℕ) : 2 ^ (8 * k) = 256 ^ k := by rw [Nat.pow_mul]

theorem bufBytes_eq (d : ℕ) : bufBytes d = spell (4 * lenW d) d := by
  have hprefix :
      ∀ n, ((List.range n).flatMap fun i ↦ spell 4 (bufW d i)) = spell (4 * n) d := fun n ↦ by
    induction n with
    | zero => rfl
    | succ n ih =>
      have hword : bufW d n = d / 256 ^ (4 * n) % 256 ^ 4 := by
        rw [bufW, Nat.shiftRight_eq_div_pow, ← two_pow_mul_eight, ← Nat.mul_assoc]
        rfl
      rw [List.range_succ, List.flatMap_append, ih, List.flatMap_singleton, hword, spell_mod,
        Nat.mul_succ, spell_add]
  exact hprefix (lenW d)

theorem lt_bytes (d : ℕ) : d < 256 ^ (4 * lenW d) := by
  rw [← two_pow_mul_eight, ← Nat.mul_assoc]
  exact lt_lenW d

/-- The bytes that `u3r_bytes()` writes. -/
def bytesAt (d a_w b_w : ℕ) : List UInt8 := spell b_w (d / 256 ^ a_w)

@[simp] theorem length_bytesAt (d a_w b_w : ℕ) : (bytesAt d a_w b_w).length = b_w :=
  length_spell _ _

/-- `u3r_bytes()` shifts a direct atom by too much from offset 4 on, and writes the bytes otherwise.
-/
theorem rBytes_eq {a_w b_w d : ℕ} (hb : b_w < 2 ^ 32) (hfits : lenW d ≤ maximum)
    (c_y : List UInt8) :
    rBytes a_w b_w c_y d = if d < 2 ^ 31 ∧ 4 ≤ a_w then
      none else write c_y 0 (bytesAt d a_w b_w) := by
  unfold rBytes bytesAt
  by_cases hdirect : d < 2 ^ 31
  · rw [if_pos hdirect]
    by_cases ha : 4 ≤ a_w
    · rw [if_pos ⟨hdirect, ha⟩, Nat.min_eq_right ha]
      rfl
    · have hshift : 2 ^ (2 ^ 3 * a_w) = 256 ^ a_w := two_pow_mul_eight a_w
      have hless : d / 256 ^ a_w < 256 ^ 4 :=
        (Nat.div_le_self _ _).trans_lt (hdirect.trans (by decide))
      rw [if_neg fun hboth ↦ ha hboth.2, Nat.min_eq_left (by omega), Nat.shiftLeft_eq, Nat.mul_comm,
        shr,
        if_pos (by omega), Nat.shiftRight_eq_div_pow, hshift]
      exact write_spell hless (fun _ ↦ ⟨rfl, rfl⟩) c_y
  · have hroom : 4 * lenW d < 2 ^ 32 := by
      unfold maximum at hfits
      omega
    have hlen : lenW d <<< 2 % 2 ^ 32 = 4 * lenW d := by
      rw [Nat.shiftLeft_eq]
      omega
    have hlt := lt_bytes d
    have hnot : ¬(d < 2 ^ 31 ∧ 4 ≤ a_w) := fun hboth ↦ hdirect hboth.1
    rw [if_neg hdirect, if_neg hnot, bufBytes_eq]
    simp only [hlen]
    by_cases hpast : 4 * lenW d ≤ a_w
    · rw [if_pos hpast, Nat.div_eq_of_lt (hlt.trans_le (Nat.pow_le_pow_right (by decide) hpast)),
        spell_zero]
    · have hless : d / 256 ^ a_w < 256 ^ (4 * lenW d - a_w) := by
        refine Nat.div_lt_of_lt_mul ?_
        rwa [← Nat.pow_add, Nat.add_sub_cancel' (by omega)]
      rw [if_neg hpast, drop_spell (by omega)]
      exact write_spell hless (fun hmany ↦ ⟨by omega, by omega⟩) c_y

/-- The words that `u3r_words()` writes. -/
def wordsAt (d a_w b_w : ℕ) : List UInt32 := (List.range b_w).map fun i ↦ wordOf d (a_w + i)

@[simp] theorem length_wordsAt (d a_w b_w : ℕ) : (wordsAt d a_w b_w).length = b_w := by
  rw [wordsAt, List.length_map, List.length_range]

/-- The words of an atom that `u3r_words()` copies from an offset on, at most. -/
def held (d a_w : ℕ) : ℕ := (if d < 2 ^ 31 then 1 else lenW d) - a_w

theorem wordOf_past {d i : ℕ} (hpast : (if d < 2 ^ 31 then 1 else lenW d) ≤ i) :
    wordOf d i = 0 := by
  have hlt : d < 2 ^ (32 * i) := by
    split at hpast
    · next hdirect => exact hdirect.trans_le (Nat.pow_le_pow_right (by decide) (by omega))
    · exact (lt_lenW d).trans_le (Nat.pow_le_pow_right (by decide) (Nat.mul_le_mul_left 32 hpast))
  rw [wordOf, Nat.div_eq_of_lt hlt]
  rfl

theorem wordsAt_past {d a_w n : ℕ} (hheld : held d a_w ≤ n) (more : ℕ) :
    wordsAt d a_w (n + more) = wordsAt d a_w n ++ List.replicate more 0 := by
  unfold wordsAt
  rw [List.range_add, List.map_append, List.map_map]
  refine congrArg _ (List.eq_replicate_iff.mpr ⟨by rw [List.length_map, List.length_range],
    fun w hw ↦ ?_⟩)
  obtain ⟨i, -, rfl⟩ := List.mem_map.mp hw
  refine wordOf_past (i := a_w + (n + i)) ?_
  unfold held at hheld
  omega

theorem take_bufWords {d a_w z : ℕ} (hz : a_w + z ≤ lenW d) :
    ((bufWords d).drop a_w).take z = wordsAt d a_w z := by
  obtain ⟨more, hmore⟩ := Nat.exists_eq_add_of_le hz
  have hlength : (wordsAt d 0 a_w).length = a_w := length_wordsAt d 0 a_w
  rw [bufWords, hmore, List.range_add, List.range_add, List.map_append, List.map_append,
    List.map_map, List.append_assoc,
    List.drop_left' (by rw [List.length_map, List.length_range])]
  exact List.take_left' (length_wordsAt d a_w z)

theorem zeroWords_eq (mem : List UInt32) (off k : ℕ) :
    zeroWords mem off (k <<< 2 % 2 ^ 32) = write mem off (List.replicate (k % 2 ^ 30) 0) := by
  have hcount : k <<< 2 % 2 ^ 32 / 4 = k % 2 ^ 30 := by
    rw [Nat.shiftLeft_eq]
    omega
  rw [zeroWords, hcount]

/-- `u3r_words()` writes the words that it copies, and as many zeros as their number is modulo
`2 ^ 30`.
-/
theorem rWords_eq {a_w b_w d : ℕ} (hb : b_w < 2 ^ 32) (hfits : lenW d ≤ maximum)
    (c_w : List UInt32) :
    rWords a_w b_w c_w d =
      write c_w 0 (wordsAt d a_w (min b_w (held d a_w) + (b_w - held d a_w) % 2 ^ 30)) := by
  unfold maximum at hfits
  unfold rWords
  by_cases hnone : b_w = 0
  · rw [if_pos hnone, hnone, Nat.zero_min, Nat.zero_sub, Nat.zero_mod]
    show some c_w = write c_w 0 []
    rw [write_zero]
    rfl
  rw [if_neg hnone]
  have hzeros : held d a_w = 0 → zeroWords c_w 0 (b_w <<< 2 % 2 ^ 32) =
      write c_w 0 (wordsAt d a_w (min b_w (held d a_w) + (b_w - held d a_w) % 2 ^ 30)) :=
        fun hheld ↦ by
    rw [zeroWords_eq, hheld, Nat.min_zero, Nat.sub_zero, wordsAt_past hheld.le]
    rfl
  by_cases hdirect : d < 2 ^ 31
  · have hheld : held d a_w = 1 - a_w := by rw [held, if_pos hdirect]
    rw [if_pos hdirect]
    by_cases ha : a_w = 0
    · subst ha
      have hone : [UInt32.ofNat d] = wordsAt d 0 1 := by
        show _ = [UInt32.ofNat (d / 2 ^ (32 * (0 + 0)))]
        rw [Nat.add_zero, Nat.mul_zero, Nat.pow_zero, Nat.div_one]
      rw [if_pos rfl, hheld, Nat.min_eq_right (by omega), wordsAt_past hheld.le, hone,
        ← write_write, length_wordsAt]
      simp only [zeroWords_eq]
      rfl
    · rw [if_neg ha]
      exact hzeros (by omega)
  · have hheld : held d a_w = lenW d - a_w := by rw [held, if_neg hdirect]
    rw [if_neg hdirect]
    by_cases hpast : lenW d ≤ a_w
    · rw [if_pos hpast]
      exact hzeros (by omega)
    · have hcopy : (min b_w (lenW d - a_w)) <<< 2 % 2 ^ 32 / 4 = min b_w (lenW d - a_w) := by
        rw [Nat.shiftLeft_eq]
        omega
      have hword : ∀ k, (k % 2 ^ 32) <<< 2 % 2 ^ 32 = k <<< 2 % 2 ^ 32 := fun k ↦ by
        rw [Nat.shiftLeft_eq, Nat.shiftLeft_eq]
        omega
      rw [if_neg hpast]
      simp only [hcopy, hword, zeroWords_eq]
      rw [take_bufWords (by omega), hheld]
      by_cases hmany : lenW d - a_w < b_w
      · have hrest : (b_w + a_w + (2 ^ 32 - lenW d)) % 2 ^ 30 =
          (b_w - (lenW d - a_w)) % 2 ^ 30 := by omega
        rw [Nat.min_eq_right hmany.le, wordsAt_past hheld.le, ← write_write, length_wordsAt,
          ← hrest]
        simp only [if_pos hmany]
        rfl
      · rw [Nat.min_eq_left (Nat.not_lt.mp hmany), Nat.sub_eq_zero_of_le (Nat.not_lt.mp hmany),
          Nat.zero_mod,
          Nat.add_zero]
        simp only [if_neg hmany]
        cases write c_w 0 (wordsAt d a_w b_w) <;> rfl

/-! ### When they are right -/

section Right

variable (d : LoomAtom) (a_w b_w : UInt32)

/-- `u3r_bytes()` writes the bytes of the atom, and nothing behind them. -/
def BytesRight : Prop := ∀ c_y : List UInt8, b_w.toNat ≤ c_y.length →
  rBytes a_w.toNat b_w.toNat c_y d.val =
    some (bytesAt d.val a_w.toNat b_w.toNat ++ c_y.drop b_w.toNat)

/-- `u3r_words()` writes the words of the atom, and nothing behind them. -/
def WordsRight : Prop := ∀ c_w : List UInt32, b_w.toNat ≤ c_w.length →
  rWords a_w.toNat b_w.toNat c_w d.val =
    some (wordsAt d.val a_w.toNat b_w.toNat ++ c_w.drop b_w.toNat)

/-- `u3r_bytes_alloc()` gives as many bytes as it is asked for, whatever was in the memory. -/
def BytesAllocRight : Prop := ∀ malloc : ℕ → List UInt8, (∀ len_w, (malloc len_w).length = len_w) →
  rBytesAlloc malloc a_w.toNat b_w.toNat d.val = some (bytesAt d.val a_w.toNat b_w.toNat)

variable {d a_w b_w}

theorem bytesRight_iff : BytesRight d a_w b_w ↔ ¬(d.val < 2 ^ 31 ∧ 4 ≤ a_w.toNat) := by
  unfold BytesRight
  simp only [rBytes_eq b_w.toNat_lt d.fits, write_zero, length_bytesAt]
  constructor
  · intro hright hshift
    have hnone := hright (List.replicate b_w.toNat 0) (List.length_replicate ..).ge
    rw [if_pos hshift] at hnone
    cases hnone
  · intro hnot c_y hroom
    rw [if_neg hnot, if_pos hroom]

theorem wordsRight_iff : WordsRight d a_w b_w ↔ b_w.toNat - held d.val a_w.toNat < 2 ^ 30 := by
  unfold WordsRight
  simp only [rWords_eq b_w.toNat_lt d.fits, write_zero, length_wordsAt]
  constructor
  · intro hright
    by_contra hmany
    have hout := hright (List.replicate b_w.toNat 1) (List.length_replicate ..).ge
    obtain ⟨n, hn⟩ : ∃ n, n = min b_w.toNat (held d.val a_w.toNat) +
        (b_w.toNat - held d.val a_w.toNat) % 2 ^ 30 := ⟨_, rfl⟩
    have hless : n < b_w.toNat := by omega
    have hheld : held d.val a_w.toNat ≤ n := by omega
    rw [← hn, List.length_replicate, if_pos hless.le] at hout
    have hitem := congrArg (fun l ↦ l[n]?) (Option.some.inj hout)
    beta_reduce at hitem
    rw [List.getElem?_append_right (length_wordsAt ..).le, length_wordsAt, Nat.sub_self,
      List.getElem?_drop, Nat.add_zero,
      List.getElem?_replicate_of_lt hless,
      List.getElem?_append_left ((length_wordsAt ..).symm ▸ hless), wordsAt,
      List.getElem?_map, List.getElem?_range hless, Option.map_some] at hitem
    have hpast : wordOf d.val (a_w.toNat + n) = 0 := wordOf_past (by unfold held at hheld; omega)
    rw [hpast] at hitem
    exact absurd hitem (by decide)
  · intro hfew c_w hroom
    rw [Nat.mod_eq_of_lt hfew,
      show min b_w.toNat (held d.val a_w.toNat) + (b_w.toNat - held d.val a_w.toNat) =
      b_w.toNat by omega, if_pos hroom]

theorem bytesAllocRight_iff : BytesAllocRight d a_w b_w ↔ a_w = 0 := by
  unfold BytesAllocRight rBytesAlloc
  simp only [rBytes_eq (Nat.mod_lt _ (Nat.two_pow_pos 32)) d.fits, write_zero, length_bytesAt]
  have hword := a_w.toNat_lt
  have hlen := b_w.toNat_lt
  constructor
  · intro hright
    by_contra hne
    have hpos : a_w.toNat ≠ 0 := fun hzero ↦ hne (UInt32.toNat_inj.mp hzero)
    obtain ⟨n, hn⟩ : ∃ n, n = (a_w.toNat + b_w.toNat) % 2 ^ 32 := ⟨_, rfl⟩
    obtain ⟨want, hwant⟩ : ∃ want, want = bytesAt d.val a_w.toNat b_w.toNat := ⟨_, rfl⟩
    have hlength : want.length = b_w.toNat := by rw [hwant, length_bytesAt]
    -- memory in which the byte behind those that are written is a wrong one
    have hout := hright (fun len_w ↦ List.replicate len_w (want.getD n 0 + 1)) fun len_w ↦
      List.length_replicate ..
    rw [← hn, ← hwant, List.length_replicate] at hout
    split_ifs at hout with hshift hroom
    have hless : n < b_w.toNat := by omega
    have hitem := congrArg (fun l ↦ l[n]?) (Option.some.inj hout)
    beta_reduce at hitem
    rw [List.getElem?_append_right (length_bytesAt ..).le, length_bytesAt, Nat.sub_self,
      List.getElem?_drop, Nat.add_zero,
      List.getElem?_replicate_of_lt hless] at hitem
    obtain ⟨w, hw⟩ : ∃ w, want[n]? = some w := ⟨_, List.getElem?_eq_getElem (hlength.symm ▸ hless)⟩
    rw [List.getD_eq_getElem?_getD, hw, Option.getD_some] at hitem
    have hbyte := congrArg UInt8.toNat (Option.some.inj hitem)
    have hsmall := w.toNat_lt
    rw [UInt8.toNat_add, UInt8.toNat_one] at hbyte
    omega
  · rintro rfl
    intro malloc hmalloc
    have hzero : (0 : UInt32).toNat = 0 := rfl
    rw [hzero, Nat.zero_add, Nat.mod_eq_of_lt hlen, if_neg fun hshift ↦ absurd hshift.2 (by decide),
      hmalloc,
      if_pos le_rfl, List.drop_of_length_le (hmalloc _).le, List.append_nil]

/-- The functions agree on the bits of an atom, each under its own condition on the offset and the
length. -/
theorem extractors_agree_iff (d : LoomAtom) (a_w b_w : UInt32) :
    rBit a_w.toNat d.val = slice d.val a_w.toNat 1 ∧
    rByte a_w.toNat d.val = slice d.val (8 * a_w.toNat) 8 ∧
    rShort a_w.toNat d.val = slice d.val (16 * a_w.toNat) 16 ∧
    rWord a_w.toNat d.val = slice d.val (32 * a_w.toNat) 32 ∧
    (rChub a_w.toNat d.val = slice d.val (64 * a_w.toNat) 64 ↔
      a_w.toNat < 2 ^ 31 ∨ slice d.val (64 * (a_w.toNat - 2 ^ 31)) 64 = 0) ∧
    (BytesRight d a_w b_w ↔ ¬(d.val < 2 ^ 31 ∧ 4 ≤ a_w.toNat)) ∧
    (WordsRight d a_w b_w ↔ b_w.toNat - held d.val a_w.toNat < 2 ^ 30) ∧
    (BytesAllocRight d a_w b_w ↔ a_w = 0) := by
  refine ⟨rBit_eq _ _, rByte_eq _ _, rShort_eq _ _, rWord_eq _ _, ?_, bytesRight_iff,
    wordsRight_iff, bytesAllocRight_iff⟩
  have hword := a_w.toNat_lt
  have hfits := d.fits
  unfold maximum at hfits
  rw [rChub_eq]
  by_cases hlow : a_w.toNat < 2 ^ 31
  · rw [Nat.mod_eq_of_lt hlow]
    exact iff_of_true rfl (.inl hlow)
  · rw [show a_w.toNat % 2 ^ 31 = a_w.toNat - 2 ^ 31 by omega,
      slice_past (by omega : 32 * lenW d.val ≤ 64 * a_w.toNat)]
    exact (or_iff_right hlow).symm

/-- One byte from offset 1 on is two bytes, which do not fit in the memory for one, and a direct
atom is shifted by its whole word for the byte at offset 4. -/
theorem rBytesAlloc_overruns :
    rBytesAlloc (fun len_w ↦ List.replicate len_w 0) 1 1 0x80000201 = none ∧
    rBytes 4 1 [0] 255 = none := by
  constructor
  · have hlen : lenW 0x80000201 = 1 := by
      have hlow : 31 < (0x80000201).size := Nat.lt_size.mpr (by decide)
      have hhigh : (0x80000201).size ≤ 32 := Nat.size_le.mpr (by decide)
      unfold lenW
      omega
    rw [rBytesAlloc, rBytes, if_neg (by decide), hlen, bufBytes, hlen]
    decide
  · decide

end Right

end Vere.Noun
