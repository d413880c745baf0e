import Vere.Lib.Bits
import Vere.Ur.Bitstream

/-!
# The bit stream reader, byte by byte

`pkg/ur/bitstream.c`: the reader on the bytes of the memory. A reader that is sane stands somewhere
in a stream (`exists_seek`), and one bit further after `ur_bsr_bit_any()`, with zeros past the end.

`bytes_skip_iff` says when `ur_bsr_bytes_any()` and `ur_bsr_skip_any()` are so many calls of
`ur_bsr_bit_any()`: their count of the bits behind the last byte but one is an 8-bit number.
`words_tags_iff` says that the readers of words, tags and lengths are what their bits are, but for a
run of zeros that ends the stream after 256 bits.
-/

set_option autoImplicit false

namespace Vere.Ur.BitReader

open Lib.Bits

/-! ### The state -/

/-- `ur_bsr_t`. The pointer is an address, and zero for none. -/
structure Bsr where
  left : ℕ
  bits : UInt64
  off : ℕ
  bytes : ℕ
  deriving DecidableEq

/-- `ur_bsr_sane()`. -/
def bsrSane (bsr : Bsr) : Prop := bsr.off < 8 ∧ (bsr.left = 0 → bsr.off = 0 ∧ bsr.bytes = 0)

instance (bsr : Bsr) : Decidable (bsrSane bsr) := inferInstanceAs (Decidable (_ ∧ (_ → _)))

section Reader

variable (mem : ℕ → UInt8)

/-! ### Bits -/

/-- `ur_bsr_bit()`, with none at the end of the stream. -/
def bsrBit (bsr : Bsr) : Option (Bool × Bsr) :=
  if bsr.left = 0 then none
  else
    let bit := (mem bsr.bytes).toNat.testBit bsr.off
    if bsr.off = 7 then
      let left := bsr.left - 1
      some (bit, ⟨left, bsr.bits + 1, 0, if left ≠ 0 then bsr.bytes + 1 else 0⟩)
    else some (bit, { bsr with bits := bsr.bits + 1, off := bsr.off + 1 })

/-- `ur_bsr_bit_any()`. -/
def bsrBitAny (bsr : Bsr) : Bool × Bsr :=
  if bsr.left = 0 then (false, { bsr with bits := bsr.bits + 1 })
  else
    let bit := (mem bsr.bytes).toNat.testBit bsr.off
    if bsr.off = 7 then
      let left := bsr.left - 1
      (bit, ⟨left, bsr.bits + 1, 0, if left ≠ 0 then bsr.bytes + 1 else 0⟩)
    else (bit, { bsr with bits := bsr.bits + 1, off := bsr.off + 1 })

/-- So many calls of `ur_bsr_bit_any()`. -/
def bitsAny : ℕ → Bsr → List Bool × Bsr
  | 0, bsr => ([], bsr)
  | n + 1, bsr =>
    let (bit, bsr) := bsrBitAny mem bsr
    let (bits, bsr) := bitsAny n bsr
    (bit :: bits, bsr)

/-! ### Words -/

/-- `ur_bsr8_any()`. -/
def bsr8Any (bsr : Bsr) (len : ℕ) : ℕ × Bsr :=
  let len := min 8 len
  let bits := bsr.bits + UInt64.ofNat len
  if bsr.left = 0 then (0, { bsr with bits := bits })
  else
    let rest := 8 - bsr.off
    let m := (mem bsr.bytes).toNat >>> bsr.off
    if len < rest then (m &&& mask len, { bsr with bits := bits, off := bsr.off + len })
    else if bsr.left = 1 then (m, ⟨0, bits, 0, 0⟩)
    else
      let off := len - rest
      let l := (mem (bsr.bytes + 1)).toNat &&& mask off
      ((m ^^^ (l <<< rest)) % 2 ^ 8, ⟨bsr.left - 1, bits, off, bsr.bytes + 1⟩)

/-- `ur_bsr32_any()` and `ur_bsr64_any()`, by the width. The cases of the switch are the bytes of a
word, with the low bits of the byte behind them when the word is not full. -/
def bsrWordAny (most : ℕ) (bsr : Bsr) (len : ℕ) : ℕ × Bsr :=
  let len := min most len
  let bits := bsr.bits + UInt64.ofNat len
  if bsr.left = 0 then (0, { bsr with bits := bits })
  else
    let rest := 8 - bsr.off
    let m := (mem bsr.bytes).toNat >>> bsr.off
    if len < rest then (m &&& mask len, { bsr with bits := bits, off := bsr.off + len })
    else
      let len := len - rest
      let left := bsr.left - 1
      let b := bsr.bytes + 1
      let lenByt := len / 8
      let (lenByt, off, next) :=
        if lenByt ≥ left then (left, 0, Bsr.mk 0 bits 0 0)
        else (lenByt, len % 8, Bsr.mk (left - lenByt) bits (len % 8) (b + lenByt))
      let l := word mem b lenByt ^^^
        if lenByt = most / 8 then 0 else ((mem (b + lenByt)).toNat &&& mask off) <<< (8 * lenByt)
      ((m ^^^ (l <<< rest)) % 2 ^ most, next)

/-- `ur_bsr32_any()`. -/
def bsr32Any (bsr : Bsr) (len : ℕ) : ℕ × Bsr := bsrWordAny mem 32 bsr len

/-- `ur_bsr64_any()`. -/
def bsr64Any (bsr : Bsr) (len : ℕ) : ℕ × Bsr := bsrWordAny mem 64 bsr len

/-! ### Bytes -/

/-- The loop of `ur_bsr_bytes_any()`: a byte of the output has the high bits of one byte of the
stream below the low bits of the next. -/
def bytesLoop (b off rest : ℕ) : ℕ → (ℕ → UInt8) → ℕ → UInt8
  | 0, out => out
  | i + 1, out => Function.update (bytesLoop b off rest i out) i
      (UInt8.ofNat ((mem (b + i)).toNat >>> off ^^^ (mem (b + i + 1)).toNat <<< rest))

/-- `len - (last << 3)`, in eight bits. -/
def bitsPast (len last : ℕ) : ℕ := (((len : ℤ) - 8 * last) % 256).toNat

/-- `ur_bsr_bytes_any()`. -/
def bsrBytesAny (bsr : Bsr) (len : ℕ) (out : ℕ → UInt8) : (ℕ → UInt8) × Bsr :=
  let bits := bsr.bits + UInt64.ofNat len
  let left := bsr.left
  let b := bsr.bytes
  let off := bsr.off
  if left = 0 then (out, { bsr with bits := bits })
  else
    let lenByt := len / 8
    let lenBit := len % 8
    let need := lenByt + if lenBit ≠ 0 then 1 else 0
    if off = 0 then
      if need > left then (fun i ↦ if i < left then mem (b + i) else out i, ⟨0, bits, 0, 0⟩)
      else
        let out := fun i ↦ if i < lenByt then mem (b + i) else out i
        let out := if lenBit ≠ 0 then
            Function.update out lenByt (UInt8.ofNat ((mem (b + lenByt)).toNat &&& mask lenBit))
          else out
        let left := left - lenByt
        (out, ⟨left, bits, lenBit, if left ≠ 0 then b + lenByt else 0⟩)
    else
      let rest := 8 - off
      let last := left - 1
      let max := min last lenByt
      let out := bytesLoop mem b off rest max out
      let b := b + max
      let m := (mem b).toNat >>> off
      if need ≥ left then
        if bitsPast len last < rest then
          (Function.update out max (UInt8.ofNat (m &&& mask lenBit)), ⟨1, bits, off + lenBit, b⟩)
        else (Function.update out max (UInt8.ofNat m), ⟨0, bits, 0, 0⟩)
      else
        let step := if (off + lenBit) / 8 ≠ 0 then 1 else 0
        let off := (off + lenBit) % 8
        let out :=
          if lenBit = 0 then out
          else if lenBit ≤ rest then Function.update out max (UInt8.ofNat (m &&& mask lenBit))
          else
            let l := (mem (b + 1)).toNat &&& mask off
            Function.update out max (UInt8.ofNat ((m ^^^ (l <<< rest)) &&& mask lenBit))
        (out, ⟨left - (lenByt + step), bits, off, b + step⟩)

/-- `ur_bsr_skip_any()`. -/
def bsrSkipAny (bsr : Bsr) (len : ℕ) : Bsr :=
  let bits := bsr.bits + UInt64.ofNat len
  let left := bsr.left
  let off := bsr.off
  if left = 0 then { bsr with bits := bits }
  else
    let lenByt := len / 8
    let lenBit := len % 8
    let need := lenByt + if lenBit ≠ 0 then 1 else 0
    let rest := 8 - off
    let last := left - 1
    let b := bsr.bytes + (min last lenByt + 1)
    if need ≥ left then
      if bitsPast len last < rest then ⟨1, bits, off + lenBit, b - 1⟩ else ⟨0, bits, 0, 0⟩
    else
      let step := if (off + lenBit) / 8 ≠ 0 then 1 else 0
      ⟨left - (lenByt + step), bits, (off + lenBit) % 8, b - (1 - step)⟩

/-! ### Tags and lengths -/

/-- `_bsr_set_gone()`. The number of bits has eight bits. -/
def setGone (bsr : Bsr) (bits : ℕ) : Bsr := ⟨0, bsr.bits + UInt64.ofNat (bits % 2 ^ 8), 0, 0⟩

/-- `ur_bsr_tag()`. -/
def bsrTag (bsr : Bsr) : Except CueRes CueTag × Bsr :=
  if bsr.left = 0 then (.error .gone, bsr)
  else
    let b := bsr.bytes
    let off := bsr.off
    let next (tag : CueTag) (len : ℕ) : Except CueRes CueTag × Bsr :=
      let bytes := (off + len) / 8
      let left := bsr.left - bytes
      let bits := bsr.bits + UInt64.ofNat len
      (.ok tag, if left = 0 then ⟨0, bits, 0, 0⟩ else ⟨left, bits, (off + len) % 8, b + bytes⟩)
    if (mem b).toNat.testBit off = false then next .atom 1
    else if off = 7 ∧ bsr.left = 1 then (.error .gone, setGone bsr 1)
    else
      let bit := if off = 7 then (mem (b + 1)).toNat.testBit 0 else (mem b).toNat.testBit (off + 1)
      next (if bit = false then .cell else .back) 2

/-- `_bsr_log_meme()`. -/
def logMeme (bsr : Bsr) : Bsr :=
  { bsr with bits := bsr.bits + 256, bytes := bsr.bytes + 32, left := bsr.left - 32 }

/-- How the loop of `ur_bsr_log()` ends. -/
inductive Logged
  | meme
  | gone (skip : ℕ)
  | found (byt skip : ℕ)

/-- The loop of `ur_bsr_log()`, with the number of bytes it can still skip. It reads the byte before
it looks whether there is one. -/
def logLoop (b left : ℕ) : ℕ → ℕ → ℕ → Logged
  | more, byt, skip =>
    if byt ≠ 0 then .found byt skip
    else
      match more with
      | 0 => .meme
      | more + 1 =>
        let byt := (mem (b + (skip + 1))).toNat
        if skip + 1 = left then .gone (skip + 1) else logLoop b left more byt (skip + 1)

/-- `ur_tz8()`, of a byte that is not zero. -/
def tz8 (byt : ℕ) : ℕ := ((List.range 8).takeWhile fun i ↦ !byt.testBit i).length

/-- `ur_bsr_log()`. -/
def bsrLog (bsr : Bsr) : Except CueRes ℕ × Bsr :=
  if bsr.left = 0 then (.error .gone, bsr)
  else
    let off := bsr.off
    let b := bsr.bytes
    match logLoop mem b bsr.left 32 ((mem b).toNat >>> off) 0 with
    | .meme => (.error .meme, logMeme bsr)
    | .gone skip => (.error .gone, setGone bsr (8 * skip - off))
    | .found byt skip =>
      let zeros := tz8 byt + if skip ≠ 0 then 8 * skip - off else 0
      if 255 < zeros then (.error .meme, logMeme bsr)
      else
        let bits := off + 1 + zeros
        let bytes := bits / 8
        let left := bsr.left - bytes
        (.ok zeros,
          ⟨left, bsr.bits + UInt64.ofNat (1 + zeros), bits % 8, if left ≠ 0 then b + bytes else 0⟩)

/-- `ur_bsr_rub_len()`. -/
def bsrRubLen (bsr : Bsr) : Except CueRes ℕ × Bsr :=
  match bsrLog mem bsr with
  | (.error res, bsr) => (.error res, bsr)
  | (.ok len, bsr) =>
    if 64 ≤ len then (.error .meme, bsr)
    else
      match len with
      | 0 => (.ok 0, bsr)
      | 1 => (.ok 1, bsr)
      | len + 1 =>
        let (val, bsr) := bsr64Any mem bsr len
        (.ok (val ^^^ (1 <<< len)), bsr)

end Reader

/-! ### Where a reader stands -/

/-- The reader at a bit of the memory, in a stream that ends at a byte. -/
def seek (e p : ℕ) (bits : UInt64) : Bsr :=
  if p < 8 * e then ⟨e - p / 8, bits, p % 8, p / 8⟩ else ⟨0, bits, 0, 0⟩

/-- The bits of a stream that ends at a byte, with zeros past the end. -/
def bitIn (mem : ℕ → UInt8) (e i : ℕ) : Bool := decide (i < 8 * e) && bitAt mem i

section Seek

variable {mem : ℕ → UInt8} {e p : ℕ} {bits : UInt64} {bsr : Bsr}

theorem seek_of_lt (hlt : p < 8 * e) : seek e p bits = ⟨e - p / 8, bits, p % 8, p / 8⟩ := if_pos hlt

theorem seek_of_ge (hge : 8 * e ≤ p) : seek e p bits = ⟨0, bits, 0, 0⟩ := if_neg (by omega)

theorem sane_seek : bsrSane (seek e p bits) := by
  by_cases hlt : p < 8 * e
  · rw [seek_of_lt hlt]
    refine ⟨Nat.mod_lt _ (by decide), fun hleft ↦ ?_⟩
    change e - p / 8 = 0 at hleft
    omega
  · rw [seek_of_ge (by omega)]
    exact ⟨Nat.zero_lt_succ 7, fun _ ↦ ⟨rfl, rfl⟩⟩

/-- A reader that is sane stands somewhere. -/
theorem exists_seek (hsane : bsrSane bsr) : ∃ e p, bsr = seek e p bsr.bits := by
  obtain ⟨hoff, hend⟩ := hsane
  by_cases hleft : bsr.left = 0
  · obtain ⟨hzero, hnull⟩ := hend hleft
    refine ⟨0, 0, ?_⟩
    rw [seek_of_ge (by omega)]
    cases bsr
    simp_all
  · refine ⟨bsr.bytes + bsr.left, 8 * bsr.bytes + bsr.off, ?_⟩
    rw [seek_of_lt (by omega), show (8 * bsr.bytes + bsr.off) / 8 = bsr.bytes by omega,
      show (8 * bsr.bytes + bsr.off) % 8 = bsr.off by omega, Nat.add_sub_cancel_left]

theorem bitIn_of_lt (hlt : p < 8 * e) : bitIn mem e p = (mem (p / 8)).toNat.testBit (p % 8) := by
  simp [bitIn, hlt, bitAt]

theorem bitIn_of_ge (hge : 8 * e ≤ p) : bitIn mem e p = false := by
  have hnot : ¬p < 8 * e := by omega
  simp [bitIn, hnot]

/-- One bit further. -/
theorem seek_succ (hlt : p < 8 * e) :
    seek e (p + 1) bits =
      if p % 8 = 7 then ⟨e - p / 8 - 1, bits, 0, if e - p / 8 - 1 ≠ 0 then p / 8 + 1 else 0⟩
      else ⟨e - p / 8, bits, p % 8 + 1, p / 8⟩ := by
  split_ifs with hlast hmore
  · rw [seek_of_lt (by omega), show (p + 1) / 8 = p / 8 + 1 by omega, show (p + 1) % 8 = 0 by omega,
      show e - (p / 8 + 1) = e - p / 8 - 1 by omega]
  · rw [seek_of_ge (by omega), show e - p / 8 - 1 = 0 by omega]
  · rw [seek_of_lt (by omega), show (p + 1) / 8 = p / 8 by omega, show (p + 1) % 8 =
      p % 8 + 1 by omega]

theorem bsrBit_seek :
    bsrBit mem (seek e p bits) =
      if p < 8 * e then some (bitIn mem e p, seek e (p + 1) (bits + 1)) else none := by
  split_ifs with hlt
  · rw [seek_succ hlt, bitIn_of_lt hlt, seek_of_lt hlt]
    unfold bsrBit
    dsimp only
    rw [if_neg (by omega)]
    split_ifs <;> rfl
  · rw [seek_of_ge (by omega)]
    rfl

theorem bsrBitAny_seek :
    bsrBitAny mem (seek e p bits) = (bitIn mem e p, seek e (p + 1) (bits + 1)) := by
  by_cases hlt : p < 8 * e
  · rw [seek_succ hlt, bitIn_of_lt hlt, seek_of_lt hlt]
    unfold bsrBitAny
    dsimp only
    rw [if_neg (by omega)]
    split_ifs <;> rfl
  · rw [bitIn_of_ge (by omega), seek_of_ge (by omega), seek_of_ge (by omega)]
    rfl

theorem bitsAny_seek (n : ℕ) :
    bitsAny mem n (seek e p bits) =
      ((List.range n).map fun i ↦ bitIn mem e (p + i), seek e (p + n) (bits + UInt64.ofNat n)) := by
  induction n generalizing p bits with
  | zero =>
    rw [bitsAny, List.range_zero, List.map_nil, Nat.add_zero]
    congr 2
    exact (UInt64.add_zero bits).symm
  | succ n ih =>
    rw [bitsAny, bsrBitAny_seek]
    dsimp only
    rw [ih, List.range_succ_eq_map, List.map_cons, List.map_map]
    dsimp only
    congr 2
    · refine List.map_congr_left fun i _ ↦ ?_
      show bitIn mem e (p + 1 + i) = bitIn mem e (p + (i + 1))
      congr 1
      omega
    · omega
    · rw [UInt64.ofNat_add, UInt64.add_comm (UInt64.ofNat n), ← UInt64.add_assoc]
      rfl

/-- What is read after bits. -/
theorem getD_bitsAny (n i : ℕ) :
    (bitsAny mem n (seek e p bits)).1.getD i false = (decide (i < n) && bitIn mem e (p + i)) := by
  rw [bitsAny_seek]
  by_cases hlt : i < n
  · simp [List.getD, hlt]
  · simp [List.getD, hlt]

end Seek

/-! ### Words are their bits -/

section Words

variable {mem : ℕ → UInt8} {e p : ℕ} {bits : UInt64} {bsr : Bsr}

/-- The rest of the byte where the reader stands. -/
theorem testBit_first (j : ℕ) :
    ((mem (p / 8)).toNat >>> (p % 8)).testBit j =
      (decide (p % 8 + j < 8) && bitAt mem (p + j)) := by
  rw [Nat.testBit_shiftRight, testBit_byte, show 8 * (p / 8) + (p % 8 + j) = p + j by omega]

/-- A number with the bits of the stream. -/
theorem eq_ofBits {val n : ℕ}
    (hval : ∀ j, val.testBit j = (decide (j < n ∧ p + j < 8 * e) && bitAt mem (p + j))) :
    val = ofBits (bitsAny mem n (seek e p bits)).1 := by
  refine Nat.eq_of_testBit_eq fun j ↦ ?_
  rw [hval, testBit_ofBits, getD_bitsAny, bitIn, ← Bool.and_assoc, Bool.decide_and]

theorem seek_within {n : ℕ} (hlt : p < 8 * e) (hn : p % 8 + n < 8) :
    seek e (p + n) bits = ⟨e - p / 8, bits, p % 8 + n, p / 8⟩ := by
  rw [seek_of_lt (by omega), show (p + n) / 8 = p / 8 by omega, show (p + n) % 8 =
    p % 8 + n by omega]

/-- The bits of the byte where the reader stands. -/
theorem testBit_within {n : ℕ} (hlt : p < 8 * e) (hn : p % 8 + n < 8) (j : ℕ) :
    ((mem (p / 8)).toNat >>> (p % 8) &&& mask n).testBit j =
      (decide (j < n ∧ p + j < 8 * e) && bitAt mem (p + j)) := by
  rw [Nat.testBit_and, testBit_first, testBit_mask, Bool.and_right_comm, ← Bool.decide_and]
  congr 2
  rw [eq_iff_iff]
  omega

/-- The rest of a byte and the bits behind it. -/
theorem testBit_split {l n : ℕ}
    (hl : ∀ j, l.testBit j = (decide (j < n) && bitAt mem (8 * (p / 8 + 1) + j))) (j : ℕ) :
    ((mem (p / 8)).toNat >>> (p % 8) ^^^ l <<< (8 - p % 8)).testBit j =
      (decide (j < 8 - p % 8 + n) && bitAt mem (p + j)) := by
  rw [Nat.testBit_xor, testBit_first, Nat.testBit_shiftLeft, hl]
  by_cases hfirst : p % 8 + j < 8
  · have hnot : ¬8 - p % 8 ≤ j := by omega
    have hlt : j < 8 - p % 8 + n := by omega
    simp [hfirst, hnot, hlt]
  · have hge : 8 - p % 8 ≤ j := by omega
    have hiff : j - (8 - p % 8) < n ↔ j < 8 - p % 8 + n := by omega
    have haddr : 8 * (p / 8 + 1) + (j - (8 - p % 8)) = p + j := by omega
    simp [hfirst, hge, hiff, haddr]

/-- The reader at the end of the stream reads zeros. -/
theorem bitsAny_end (n : ℕ) (hge : 8 * e ≤ p) :
    ofBits (bitsAny mem n (seek e p bits)).1 = 0 ∧
      (bitsAny mem n (seek e p bits)).2 = ⟨0, bits + UInt64.ofNat n, 0, 0⟩ := by
  constructor
  · refine (eq_ofBits fun j ↦ ?_).symm
    have hnot : ¬(j < n ∧ p + j < 8 * e) := by omega
    rw [Nat.zero_testBit, decide_eq_false hnot, Bool.false_and]
  · rw [bitsAny_seek]
    exact seek_of_ge (by omega)

theorem bitsAny_state (n : ℕ) :
    (bitsAny mem n (seek e p bits)).2 = seek e (p + n) (bits + UInt64.ofNat n) := by
  rw [bitsAny_seek]

theorem bsr8Any_seek (len : ℕ) :
    bsr8Any mem (seek e p bits) len =
      (ofBits (bitsAny mem (min 8 len) (seek e p bits)).1,
      (bitsAny mem (min 8 len) (seek e p bits)).2) := by
  unfold bsr8Any
  dsimp only
  have hlen : min 8 len ≤ 8 := Nat.min_le_left 8 len
  generalize min 8 len = n at hlen ⊢
  by_cases hlt : p < 8 * e
  · have hwant := fun val ↦ @eq_ofBits mem e p bits val n
    rw [bitsAny_state]
    generalize ofBits (bitsAny mem n (seek e p bits)).1 = want at hwant ⊢
    rw [seek_of_lt hlt]
    dsimp only
    rw [if_neg (by omega)]
    split_ifs with hwithin hone
    · rw [seek_within hlt (by omega), hwant _ (testBit_within hlt (by omega))]
    · rw [seek_of_ge (by omega)]
      congr 1
      refine hwant _ fun j ↦ ?_
      rw [testBit_first]
      congr 2
      rw [eq_iff_iff]
      omega
    · rw [seek_of_lt (by omega)]
      congr 1
      · refine hwant _ fun j ↦ ?_
        rw [Nat.testBit_mod_two_pow, testBit_split (n := n - (8 - p % 8)), ← Bool.and_assoc,
          ← Bool.decide_and]
        · congr 2
          rw [eq_iff_iff]
          omega
        · intro j
          rw [Nat.testBit_and, testBit_byte, testBit_mask, Bool.and_right_comm, ← Bool.decide_and]
          congr 2
          rw [eq_iff_iff]
          omega
      · congr 1
        · omega
        · omega
        · omega
  · obtain ⟨hval, hstate⟩ := @bitsAny_end mem e p bits n (by omega)
    rw [hval, hstate, seek_of_ge (by omega)]
    rfl

/-- The bytes of a word and the low bits of the byte behind them. -/
theorem testBit_bytes {b k off most : ℕ} (hoff : off < 8) (hmost : k = most → off = 0) (j : ℕ) :
    (word mem b k ^^^ if k = most then
      0 else ((mem (b + k)).toNat &&& mask off) <<< (8 * k)).testBit j =
      (decide (j < 8 * k + off) && bitAt mem (8 * b + j)) := by
  rw [Nat.testBit_xor, testBit_word]
  split_ifs with hfull
  · rw [hmost hfull, Nat.add_zero, Nat.zero_testBit, Bool.xor_false]
  · rw [Nat.testBit_shiftLeft, Nat.testBit_and, testBit_byte, testBit_mask]
    by_cases hlow : j < 8 * k
    · have hnot : ¬8 * k ≤ j := by omega
      have hlt : j < 8 * k + off := by omega
      simp [hlow, hnot, hlt]
    · have hge : 8 * k ≤ j := by omega
      have haddr : 8 * (b + k) + (j - 8 * k) = 8 * b + j := by omega
      have hiff : j - 8 * k < 8 ∧ j - 8 * k < off ↔ j < 8 * k + off := by omega
      rw [haddr, Bool.and_right_comm, ← Bool.decide_and]
      simp only [hiff, hlow, hge, decide_true, decide_false, Bool.false_and, Bool.true_and,
        Bool.false_xor]

theorem bsrWordAny_seek {k most : ℕ} (hmost : most = 8 * k) (len : ℕ) :
    bsrWordAny mem most (seek e p bits) len =
      (ofBits (bitsAny mem (min most len) (seek e p bits)).1,
      (bitsAny mem (min most len) (seek e p bits)).2) := by
  unfold bsrWordAny
  dsimp only
  have hlen : min most len ≤ most := Nat.min_le_left most len
  generalize min most len = n at hlen ⊢
  by_cases hlt : p < 8 * e
  · have hwant := fun val ↦ @eq_ofBits mem e p bits val n
    rw [bitsAny_state]
    generalize ofBits (bitsAny mem n (seek e p bits)).1 = want at hwant ⊢
    rw [seek_of_lt hlt]
    dsimp only
    rw [if_neg (by omega)]
    by_cases hwithin : n < 8 - p % 8
    · rw [if_pos hwithin, seek_within hlt (by omega), hwant _ (testBit_within hlt (by omega))]
    rw [if_neg hwithin]
    by_cases hend : (n - (8 - p % 8)) / 8 ≥ e - p / 8 - 1
    · rw [if_pos hend, seek_of_ge (by omega)]
      congr 1
      refine hwant _ fun j ↦ ?_
      rw [Nat.testBit_mod_two_pow, testBit_split (testBit_bytes (by decide) (fun _ ↦ rfl)),
        ← Bool.and_assoc, ← Bool.decide_and]
      congr 2
      rw [eq_iff_iff]
      omega
    · rw [if_neg hend, seek_of_lt (by omega)]
      congr 1
      · refine hwant _ fun j ↦ ?_
        rw [Nat.testBit_mod_two_pow,
          testBit_split (testBit_bytes (Nat.mod_lt _ (by decide)) (by omega)), ← Bool.and_assoc,
          ← Bool.decide_and]
        congr 2
        rw [eq_iff_iff]
        omega
      · dsimp only
        congr 1
        · omega
        · omega
        · omega
  · obtain ⟨hval, hstate⟩ := @bitsAny_end mem e p bits n (by omega)
    rw [hval, hstate, seek_of_ge (by omega)]
    rfl

end Words

/-! ### Tags and lengths, bit by bit -/

section Slow

variable (mem : ℕ → UInt8)

/-- `_bsr_tag_slow()` of `tests.c`. -/
def bsrTagSlow (bsr : Bsr) : Except CueRes CueTag × Bsr :=
  match bsrBit mem bsr with
  | none => (.error .gone, bsr)
  | some (false, bsr) => (.ok .atom, bsr)
  | some (true, bsr) =>
    match bsrBit mem bsr with
    | none => (.error .gone, bsr)
    | some (false, bsr) => (.ok .cell, bsr)
    | some (true, bsr) => (.ok .back, bsr)

/-- The loop of `_bsr_log_slow()` of `tests.c`, with the number of zeros it has seen and of those it
can still see. -/
def logSlow : ℕ → ℕ → Bsr → Except CueRes ℕ × Bsr
  | 0, _, bsr => (.error .meme, bsr)
  | more + 1, i, bsr =>
    match bsrBit mem bsr with
    | none => (.error .gone, bsr)
    | some (true, bsr) => (.ok i, bsr)
    | some (false, bsr) => logSlow more (i + 1) bsr

/-- `_bsr_log_slow()` of `tests.c`. -/
def bsrLogSlow (bsr : Bsr) : Except CueRes ℕ × Bsr := logSlow mem 256 0 bsr

/-- A length, bit by bit: the bits below its highest one. -/
def bsrRubLenSlow (bsr : Bsr) : Except CueRes ℕ × Bsr :=
  match bsrLogSlow mem bsr with
  | (.error res, bsr) => (.error res, bsr)
  | (.ok len, bsr) =>
    if 64 ≤ len then (.error .meme, bsr)
    else if len = 0 then (.ok 0, bsr)
    else (.ok (ofBits ((bitsAny mem (len - 1) bsr).1 ++ [true])), (bitsAny mem (len - 1) bsr).2)

end Slow

section Tags

variable {mem : ℕ → UInt8} {e p : ℕ} {bits : UInt64} {bsr : Bsr}

/-- A few bits further, as `ur_bsr_tag()` and `ur_bsr_log()` have it. -/
theorem seek_add {n : ℕ} (hlt : p + n ≤ 8 * e) :
    seek e (p + n) bits =
      ⟨e - p / 8 - (p % 8 + n) / 8, bits, (p % 8 + n) % 8,
        if e - p / 8 - (p % 8 + n) / 8 ≠ 0 then p / 8 + (p % 8 + n) / 8 else 0⟩ := by
  by_cases hend : p + n = 8 * e
  · rw [seek_of_ge (by omega), show e - p / 8 - (p % 8 + n) / 8 = 0 by omega,
      show (p % 8 + n) % 8 = 0 by omega]
    rfl
  · rw [seek_of_lt (by omega), if_pos (by omega)]
    congr 1
    · omega
    · omega
    · omega

theorem bsrTag_seek : bsrTag mem (seek e p bits) = bsrTagSlow mem (seek e p bits) := by
  unfold bsrTagSlow
  rw [bsrBit_seek]
  by_cases hlt : p < 8 * e
  · have hnext : ∀ n, p + n ≤ 8 * e →
        (if e - p / 8 - (p % 8 + n) / 8 = 0 then Bsr.mk 0 (bits + UInt64.ofNat n) 0 0
          else ⟨e - p / 8 - (p % 8 + n) / 8, bits + UInt64.ofNat n, (p % 8 + n) % 8,
          p / 8 + (p % 8 + n) / 8⟩) =
        seek e (p + n) (bits + UInt64.ofNat n) := by
      intro n hn
      by_cases hleft : e - p / 8 - (p % 8 + n) / 8 = 0
      · rw [if_pos hleft, seek_of_ge (by omega)]
      · rw [if_neg hleft, seek_add hn, if_pos hleft]
    rw [if_pos hlt, bitIn_of_lt hlt, seek_of_lt hlt]
    unfold bsrTag
    dsimp only
    rw [if_neg (by omega)]
    cases (mem (p / 8)).toNat.testBit (p % 8) with
    | false =>
      dsimp only
      rw [if_pos rfl, hnext 1 (by omega)]
      rfl
    | true =>
      dsimp only
      rw [if_neg (by decide), bsrBit_seek]
      by_cases hmore : p + 1 < 8 * e
      · have hbit : (if p % 8 = 7 then (mem (p / 8 + 1)).toNat.testBit 0
            else (mem (p / 8)).toNat.testBit (p % 8 + 1)) = bitIn mem e (p + 1) := by
          rw [bitIn_of_lt hmore]
          split_ifs with hlast
          · rw [show (p + 1) / 8 = p / 8 + 1 by omega, show (p + 1) % 8 = 0 by omega]
          · rw [show (p + 1) / 8 = p / 8 by omega, show (p + 1) % 8 = p % 8 + 1 by omega]
        have hbits : bits + 1 + 1 = bits + UInt64.ofNat 2 := by
          rw [UInt64.add_assoc]
          rfl
        rw [if_neg (by omega), if_pos hmore, hbit, hnext 2 (by omega), hbits]
        cases bitIn mem e (p + 1) <;> rfl
      · rw [if_pos (by omega), if_neg hmore, seek_of_ge (by omega)]
        rfl
  · rw [if_neg hlt, seek_of_ge (by omega)]
    rfl

/-! ### Runs of zeros -/

theorem logSlow_zeros {k more i : ℕ} (hk : k ≤ more) (hend : p + k ≤ 8 * e)
    (hzero : ∀ j < k, bitAt mem (p + j) = false) :
    logSlow mem more i (seek e p bits) =
      logSlow mem (more - k) (i + k) (seek e (p + k) (bits + UInt64.ofNat k)) := by
  induction k generalizing more i p bits with
  | zero =>
    congr 2
    exact (UInt64.add_zero bits).symm
  | succ k ih =>
    obtain ⟨more, rfl⟩ : ∃ n, more = n + 1 := ⟨more - 1, by omega⟩
    have hfirst : bitIn mem e p = false := by
      rw [bitIn, show bitAt mem p = false from hzero 0 (by omega), Bool.and_false]
    rw [logSlow, bsrBit_seek, if_pos (by omega), hfirst]
    dsimp only
    rw [ih (by omega) (by omega) fun j hj ↦ by
      rw [show p + 1 + j = p + (j + 1) by omega]; exact hzero (j + 1) (by omega)]
    rw [UInt64.ofNat_add, UInt64.add_comm (UInt64.ofNat k), ← UInt64.add_assoc,
      show more + 1 - (k + 1) = more - k by omega, show i + (k + 1) = i + 1 + k by omega,
      show p + (k + 1) = p + 1 + k by omega]
    rfl

/-- The run ends with a one. -/
theorem bsrLogSlow_found {zeros : ℕ} (hle : zeros ≤ 255) (hend : p + zeros < 8 * e)
    (hzero : ∀ j < zeros, bitAt mem (p + j) = false) (hone : bitAt mem (p + zeros) = true) :
    bsrLogSlow mem (seek e p bits) =
      (.ok zeros, seek e (p + (1 + zeros)) (bits + UInt64.ofNat (1 + zeros))) := by
  obtain ⟨more, hmore⟩ : ∃ n, 256 - zeros = n + 1 := ⟨255 - zeros, by omega⟩
  have hbit : bitIn mem e (p + zeros) = true := by
    rw [bitIn, hone, decide_eq_true hend]
    rfl
  rw [bsrLogSlow, logSlow_zeros (show zeros ≤ 256 by omega) (by omega) hzero, hmore, logSlow,
    bsrBit_seek, if_pos hend, hbit]
  dsimp only
  rw [UInt64.ofNat_add, UInt64.add_comm (UInt64.ofNat 1), ← UInt64.add_assoc, Nat.add_comm 1,
    ← Nat.add_assoc, Nat.zero_add]
  rfl

/-- The stream ends before the run does. -/
theorem bsrLogSlow_gone {n : ℕ} (hle : n ≤ 255) (hend : p + n = 8 * e)
    (hzero : ∀ j < n, bitAt mem (p + j) = false) :
    bsrLogSlow mem (seek e p bits) = (.error .gone, ⟨0, bits + UInt64.ofNat n, 0, 0⟩) := by
  obtain ⟨more, hmore⟩ : ∃ k, 256 - n = k + 1 := ⟨255 - n, by omega⟩
  rw [bsrLogSlow, logSlow_zeros (show n ≤ 256 by omega) (by omega) hzero, hmore, logSlow,
    bsrBit_seek, if_neg (by omega), seek_of_ge (by omega)]

/-- The run is too long. -/
theorem bsrLogSlow_meme (hend : p + 256 ≤ 8 * e) (hzero : ∀ j < 256, bitAt mem (p + j) = false) :
    bsrLogSlow mem (seek e p bits) = (.error .meme, seek e (p + 256) (bits + 256)) := by
  rw [bsrLogSlow, logSlow_zeros (Nat.le_refl 256) hend hzero]
  rfl

/-- Where the byte that the loop of `ur_bsr_log()` looks at starts. -/
def start (p skip : ℕ) : ℕ := if skip = 0 then p else 8 * (p / 8 + skip)

/-- The loop of `ur_bsr_log()` has seen zeros only. -/
structure Skipped (mem : ℕ → UInt8) (p byt skip : ℕ) : Prop where
  zeros : ∀ i, p ≤ i → i < start p skip → bitAt mem i = false
  byte : ∀ j, byt.testBit j =
    (decide (start p skip + j < 8 * (p / 8 + skip + 1)) && bitAt mem (start p skip + j))

theorem skipped_zero : Skipped mem p ((mem (p / 8)).toNat >>> (p % 8)) 0 where
  zeros i hge hlt := absurd hlt (Nat.not_lt.mpr hge)
  byte j := by
    rw [testBit_first]
    congr 2
    rw [eq_iff_iff]
    show p % 8 + j < 8 ↔ p + j < 8 * (p / 8 + 0 + 1)
    omega

/-- A byte without bits is skipped. -/
theorem Skipped.all {skip : ℕ} (hskipped : Skipped mem p 0 skip) (i : ℕ) (hge : p ≤ i)
    (hlt : i < 8 * (p / 8 + skip + 1)) : bitAt mem i = false := by
  by_cases hbefore : i < start p skip
  · exact hskipped.zeros i hge hbefore
  · have hbit := hskipped.byte (i - start p skip)
    rw [Nat.zero_testBit, show start p skip + (i - start p skip) = i by omega, decide_eq_true hlt,
      Bool.true_and] at hbit
    exact hbit.symm

theorem Skipped.next {skip : ℕ} (hskipped : Skipped mem p 0 skip) :
    Skipped mem p (mem (p / 8 + (skip + 1))).toNat (skip + 1) where
  zeros i hge hlt := hskipped.all i hge hlt
  byte j := by
    rw [testBit_byte]
    congr 2
    rw [eq_iff_iff]
    show j < 8 ↔ 8 * (p / 8 + (skip + 1)) + j < 8 * (p / 8 + (skip + 1) + 1)
    omega

/-- What the loop of `ur_bsr_log()` finds. -/
theorem logLoop_spec {left more byt skip : ℕ} (hmore : more + skip = 32) (hleft : skip < left)
    (hskipped : Skipped mem p byt skip) :
    match logLoop mem (p / 8) left more byt skip with
    | .meme => 32 < left ∧ ∀ i, p ≤ i → i < 8 * (p / 8 + 33) → bitAt mem i = false
    | .gone skip =>
      skip = left ∧ left ≤ 32 ∧ ∀ i, p ≤ i → i < 8 * (p / 8 + left) → bitAt mem i = false
    | .found byt skip => byt ≠ 0 ∧ skip < left ∧ skip ≤ 32 ∧ Skipped mem p byt skip := by
  induction more generalizing byt skip with
  | zero =>
    unfold logLoop
    by_cases hbyt : byt ≠ 0
    · rw [if_pos hbyt]
      exact ⟨hbyt, hleft, by omega, hskipped⟩
    · obtain rfl : byt = 0 := not_not.mp hbyt
      obtain rfl : skip = 32 := by omega
      rw [if_neg hbyt]
      exact ⟨hleft, hskipped.all⟩
  | succ more ih =>
    unfold logLoop
    by_cases hbyt : byt ≠ 0
    · rw [if_pos hbyt]
      exact ⟨hbyt, hleft, by omega, hskipped⟩
    · obtain rfl : byt = 0 := not_not.mp hbyt
      rw [if_neg hbyt]
      dsimp only
      by_cases hend : skip + 1 = left
      · rw [if_pos hend]
        refine ⟨hend, by omega, ?_⟩
        rw [← hend]
        exact hskipped.all
      · rw [if_neg hend]
        exact ih (by omega) (by omega) hskipped.next

theorem tz8_spec : ∀ byt < 256, byt ≠ 0 →
    tz8 byt < 8 ∧ byt.testBit (tz8 byt) = true ∧ ∀ i < tz8 byt, byt.testBit i = false := by
  decide +kernel

/-- Thirty-two bytes of zeros are all that is left of the stream. -/
def Blank (mem : ℕ → UInt8) (bsr : Bsr) : Prop :=
  bsr.left = 32 ∧ bsr.off = 0 ∧ ∀ i < 32, mem (bsr.bytes + i) = 0

/-- The first bit that is set in the byte that the loop found. -/
theorem Skipped.found {byt skip : ℕ} (hskipped : Skipped mem p byt skip) (hbyt : byt ≠ 0) :
    (∀ i, p ≤ i → i < start p skip + tz8 byt → bitAt mem i = false) ∧
      bitAt mem (start p skip + tz8 byt) = true ∧
      start p skip + tz8 byt < 8 * (p / 8 + skip + 1) := by
  have hlt : byt < 256 := by
    refine Nat.lt_pow_two_of_testBit (n := 8) _ fun i hi ↦ ?_
    have hover : ¬start p skip + i < 8 * (p / 8 + skip + 1) := by
      unfold start
      split_ifs with hzero
      · subst hzero
        have := Nat.div_add_mod p 8
        omega
      · omega
    rw [hskipped.byte, decide_eq_false hover, Bool.false_and]
  obtain ⟨-, hone, hzero⟩ := tz8_spec byt hlt hbyt
  rw [hskipped.byte, Bool.and_eq_true, decide_eq_true_eq] at hone
  refine ⟨fun i hge hi ↦ ?_, hone.2, hone.1⟩
  by_cases hbefore : i < start p skip
  · exact hskipped.zeros i hge hbefore
  · have hbit := hzero (i - start p skip) (by omega)
    rw [hskipped.byte, show start p skip + (i - start p skip) = i by omega,
      decide_eq_true (by omega : i < 8 * (p / 8 + skip + 1)), Bool.true_and] at hbit
    exact hbit

theorem logMeme_seek (hend : p + 256 < 8 * e) :
    logMeme (seek e p bits) = seek e (p + 256) (bits + 256) := by
  rw [seek_of_lt (by omega), seek_of_lt hend, logMeme]
  dsimp only
  congr 1
  · omega
  · omega
  · omega

/-- The bytes of a stream are zero, or a bit of it is set. -/
theorem blank_seek_iff (hlt : p < 8 * e) :
    Blank mem (seek e p bits) ↔ p + 256 = 8 * e ∧ ∀ i, p ≤ i → i < 8 * e → bitAt mem i = false := by
  rw [seek_of_lt hlt]
  constructor
  · rintro ⟨hleft, hoff, hbytes⟩
    change e - p / 8 = 32 at hleft
    change p % 8 = 0 at hoff
    refine ⟨by omega, fun i hge hi ↦ ?_⟩
    have hbyte := hbytes (i / 8 - p / 8) (by omega)
    change mem (p / 8 + (i / 8 - p / 8)) = 0 at hbyte
    rw [show p / 8 + (i / 8 - p / 8) = i / 8 by omega] at hbyte
    rw [bitAt, hbyte]
    exact Nat.zero_testBit _
  · rintro ⟨hend, hzero⟩
    refine ⟨by show e - p / 8 = 32; omega, by show p % 8 = 0; omega, fun i hi ↦ ?_⟩
    show mem (p / 8 + i) = 0
    refine UInt8.toNat_inj.mp (Nat.eq_of_testBit_eq fun j ↦ ?_)
    rw [testBit_byte]
    by_cases hj : j < 8
    · rw [hzero _ (by omega) (by omega), Bool.and_false]
      exact (Nat.zero_testBit j).symm
    · rw [decide_eq_false hj, Bool.false_and]
      exact (Nat.zero_testBit j).symm

theorem bsrLog_eq (hlt : p < 8 * e) :
    bsrLog mem (seek e p bits) =
      match logLoop mem (p / 8) (e - p / 8) 32 ((mem (p / 8)).toNat >>> (p % 8)) 0 with
      | .meme => (.error .meme, logMeme (seek e p bits))
      | .gone skip => (.error .gone, setGone (seek e p bits) (8 * skip - p % 8))
      | .found byt skip =>
        let zeros := tz8 byt + if skip ≠ 0 then 8 * skip - p % 8 else 0
        if 255 < zeros then (.error .meme, logMeme (seek e p bits))
        else
          let left := e - p / 8 - (p % 8 + 1 + zeros) / 8
          (.ok zeros, ⟨left, bits + UInt64.ofNat (1 + zeros), (p % 8 + 1 + zeros) % 8,
            if left ≠ 0 then p / 8 + (p % 8 + 1 + zeros) / 8 else 0⟩) := by
  rw [seek_of_lt hlt]
  unfold bsrLog
  rw [if_neg (by show ¬e - p / 8 = 0; omega)]

/-- `ur_bsr_log()` takes 256 zeros at the end of the stream for the end, and not for too many. -/
theorem bsrLog_blank (hblank : Blank mem (seek e p bits)) :
    bsrLog mem (seek e p bits) = (.error .gone, ⟨0, bits, 0, 0⟩) ∧
      (bsrLogSlow mem (seek e p bits)).1 = .error .meme := by
  by_cases hlt : p < 8 * e
  · obtain ⟨hfull, hzero⟩ := (blank_seek_iff hlt).mp hblank
    have hspec := @logLoop_spec mem p (e - p / 8) 32 _ 0 rfl (by omega) skipped_zero
    rw [bsrLog_eq hlt, bsrLogSlow_meme (by omega) fun j hj ↦ hzero _ (by omega) (by omega)]
    generalize logLoop mem (p / 8) (e - p / 8) 32 ((mem (p / 8)).toNat >>> (p % 8)) 0 = res at hspec
    refine ⟨?_, rfl⟩
    cases res with
    | meme => exact absurd hspec.1 (by omega)
    | gone skip =>
      obtain ⟨rfl, -⟩ := hspec
      dsimp only
      rw [setGone, seek_of_lt hlt, show (8 * (e - p / 8) - p % 8) % 2 ^ 8 = 0 by omega]
      congr 2
      exact UInt64.add_zero bits
    | found byt skip =>
      obtain ⟨hbyt, hskip, -, hskipped⟩ := hspec
      obtain ⟨-, hone, hin⟩ := hskipped.found hbyt
      have hge : p ≤ start p skip := by
        unfold start
        split_ifs <;> omega
      rw [hzero _ (by omega) (by omega)] at hone
      cases hone
  · rw [seek_of_ge (by omega)] at hblank
    exact absurd hblank.1 (show ¬0 = 32 by decide)

/-- `ur_bsr_log()` scans the bits otherwise. -/
theorem bsrLog_seek (hblank : ¬Blank mem (seek e p bits)) :
    bsrLog mem (seek e p bits) = bsrLogSlow mem (seek e p bits) := by
  by_cases hlt : p < 8 * e
  · rw [blank_seek_iff hlt] at hblank
    have hspec := @logLoop_spec mem p (e - p / 8) 32 _ 0 rfl (by omega) skipped_zero
    rw [bsrLog_eq hlt]
    generalize logLoop mem (p / 8) (e - p / 8) 32 ((mem (p / 8)).toNat >>> (p % 8)) 0 = res at hspec
    cases res with
    | meme =>
      obtain ⟨hleft, hzero⟩ := hspec
      rw [bsrLogSlow_meme (by omega) fun j hj ↦ hzero _ (by omega) (by omega)]
      dsimp only
      rw [logMeme_seek (by omega)]
    | gone skip =>
      obtain ⟨rfl, hleft, hzero⟩ := hspec
      have hfull : p + 256 ≠ 8 * e :=
        fun hfull ↦ hblank ⟨hfull, fun i hge hi ↦ hzero i hge (by omega)⟩
      have hgone := @bsrLogSlow_gone mem e p bits (8 * e - p) (by omega) (by omega)
        fun j hj ↦ hzero _ (by omega) (by omega)
      rw [hgone]
      dsimp only
      rw [setGone, seek_of_lt hlt, show 8 * (e - p / 8) - p % 8 = 8 * e - p by omega,
        Nat.mod_eq_of_lt (show 8 * e - p < 2 ^ 8 by omega)]
    | found byt skip =>
      obtain ⟨hbyt, hskip, hmost, hskipped⟩ := hspec
      obtain ⟨hzero, hone, hin⟩ := hskipped.found hbyt
      have hzeros : p + (tz8 byt + if skip ≠ 0 then 8 * skip - p % 8 else 0) =
          start p skip + tz8 byt := by
        unfold start
        split_ifs <;> omega
      dsimp only
      generalize tz8 byt + (if skip ≠ 0 then 8 * skip - p % 8 else 0) = zeros at hzeros ⊢
      rw [← hzeros] at hzero hone hin
      by_cases hlong : 255 < zeros
      · rw [if_pos hlong, bsrLogSlow_meme (by omega) fun j hj ↦ hzero _ (by omega) (by omega),
          logMeme_seek (by omega)]
      · rw [if_neg hlong, bsrLogSlow_found (by omega) (by omega)
          (fun j hj ↦ hzero _ (by omega) (by omega)) hone, seek_add (by omega), Nat.add_assoc]
  · rw [seek_of_ge (by omega)]
    rfl

end Tags

/-! ### Readers are their bits -/

section Sane

variable {mem : ℕ → UInt8} {bsr : Bsr}

theorem bitsAny_sane (hsane : bsrSane bsr) (n : ℕ) : bsrSane (bitsAny mem n bsr).2 := by
  obtain ⟨e, p, hseek⟩ := exists_seek hsane
  rw [hseek, bitsAny_state]
  exact sane_seek

theorem bsrBit_sane (hsane : bsrSane bsr) {bit : Bool} {red : Bsr}
    (hbit : bsrBit mem bsr = some (bit, red)) :
    bsrSane red := by
  obtain ⟨e, p, hseek⟩ := exists_seek hsane
  rw [hseek, bsrBit_seek] at hbit
  split_ifs at hbit with hlt
  rw [← (Prod.mk.inj (Option.some.inj hbit)).2]
  exact sane_seek

theorem bsrTagSlow_sane (hsane : bsrSane bsr) : bsrSane (bsrTagSlow mem bsr).2 := by
  unfold bsrTagSlow
  split
  · exact hsane
  · next hbit => exact bsrBit_sane hsane hbit
  · next red hbit =>
    have hred := bsrBit_sane hsane hbit
    split
    · exact hred
    · next hbit => exact bsrBit_sane hred hbit
    · next hbit => exact bsrBit_sane hred hbit

theorem logSlow_sane (hsane : bsrSane bsr) (more i : ℕ) : bsrSane (logSlow mem more i bsr).2 := by
  induction more generalizing i bsr with
  | zero => exact hsane
  | succ more ih =>
    unfold logSlow
    split
    · exact hsane
    · next hbit => exact bsrBit_sane hsane hbit
    · next hbit => exact ih (bsrBit_sane hsane hbit) (i + 1)

theorem bsr8Any_bits (hsane : bsrSane bsr) (len : ℕ) :
    bsr8Any mem bsr len = (ofBits (bitsAny mem (min 8 len) bsr).1,
    (bitsAny mem (min 8 len) bsr).2) := by
  obtain ⟨e, p, hseek⟩ := exists_seek hsane
  rw [hseek]
  exact bsr8Any_seek len

theorem bsrWordAny_bits (hsane : bsrSane bsr) {k most : ℕ} (hmost : most = 8 * k) (len : ℕ) :
    bsrWordAny mem most bsr len =
      (ofBits (bitsAny mem (min most len) bsr).1, (bitsAny mem (min most len) bsr).2) := by
  obtain ⟨e, p, hseek⟩ := exists_seek hsane
  rw [hseek]
  exact bsrWordAny_seek hmost len

theorem length_bitsAny (n : ℕ) : (bitsAny mem n bsr).1.length = n := by
  induction n generalizing bsr with
  | zero => rfl
  | succ n ih =>
    rw [bitsAny]
    exact congrArg (· + 1) ih

/-- The length that the scan of the zeros leads to. -/
theorem bsrRubLen_of_log (hsane : bsrSane bsr) (hlog : bsrLog mem bsr = bsrLogSlow mem bsr) :
    bsrRubLen mem bsr = bsrRubLenSlow mem bsr := by
  unfold bsrRubLen bsrRubLenSlow
  rw [hlog]
  have hred : bsrSane (bsrLogSlow mem bsr).2 := logSlow_sane hsane 256 0
  generalize bsrLogSlow mem bsr = logged at hred ⊢
  obtain ⟨res, red⟩ := logged
  cases res with
  | error res => rfl
  | ok len =>
    dsimp only
    split_ifs with hlong hzero
    · rfl
    · subst hzero
      rfl
    · match len, hzero with
      | 1, _ => rfl
      | len + 2, _ =>
        have hmin : min 64 (len + 1) = len + 1 := by omega
        have hword := @bsrWordAny_bits mem red hred 8 64 rfl (len + 1)
        rw [hmin] at hword
        show (Except.ok ((bsr64Any mem red (len + 1)).1 ^^^ 1 <<< (len + 1)),
          (bsr64Any mem red (len + 1)).2) = _
        rw [bsr64Any, hword]
        have hlt := ofBits_lt (bitsAny mem (len + 1) red).1
        rw [length_bitsAny] at hlt
        rw [xor_two_pow_of_lt hlt, show len + 2 - 1 = len + 1 from rfl, ofBits_append,
          length_bitsAny, Nat.add_comm]
        simp [ofBits]

/-- The readers of words, tags and lengths give what their bits give one after the other, and keep
the reader sane; at the end of the stream there is no tag and no length, and the reader stays where
it is. -/
structure ReadsBits (mem : ℕ → UInt8) (bsr : Bsr) : Prop where
  word8 : ∀ len, bsr8Any mem bsr len =
    (ofBits (bitsAny mem (min 8 len) bsr).1, (bitsAny mem (min 8 len) bsr).2)
  word32 : ∀ len, bsr32Any mem bsr len =
    (ofBits (bitsAny mem (min 32 len) bsr).1, (bitsAny mem (min 32 len) bsr).2)
  word64 : ∀ len, bsr64Any mem bsr len =
    (ofBits (bitsAny mem (min 64 len) bsr).1, (bitsAny mem (min 64 len) bsr).2)
  tag : bsrTag mem bsr = bsrTagSlow mem bsr
  log : bsrLog mem bsr = bsrLogSlow mem bsr
  rubLen : bsrRubLen mem bsr = bsrRubLenSlow mem bsr
  sane : (∀ len, bsrSane (bsr8Any mem bsr len).2 ∧ bsrSane (bsr32Any mem bsr len).2 ∧
    bsrSane (bsr64Any mem bsr len).2) ∧
    bsrSane (bsrTag mem bsr).2 ∧ bsrSane (bsrLog mem bsr).2 ∧ bsrSane (bsrRubLen mem bsr).2
  unmoved : bsr.left = 0 → bsrTag mem bsr = (.error .gone, bsr) ∧
    bsrLog mem bsr = (.error .gone, bsr) ∧
    bsrRubLen mem bsr = (.error .gone, bsr)

theorem bsrRubLenSlow_sane (hsane : bsrSane bsr) : bsrSane (bsrRubLenSlow mem bsr).2 := by
  unfold bsrRubLenSlow
  have hred : bsrSane (bsrLogSlow mem bsr).2 := logSlow_sane hsane 256 0
  generalize bsrLogSlow mem bsr = logged at hred ⊢
  obtain ⟨res, red⟩ := logged
  cases res with
  | error res => exact hred
  | ok len =>
    dsimp only
    split_ifs with hlong hzero
    · exact hred
    · exact hred
    · exact bitsAny_sane hred _

/-- Every sane reader reads what its bits are, unless all that is left are 32 bytes of zeros. -/
theorem words_tags_iff (hsane : bsrSane bsr) : ReadsBits mem bsr ↔ ¬Blank mem bsr := by
  obtain ⟨e, p, hseek⟩ := exists_seek hsane
  constructor
  · intro hreads hblank
    rw [hseek] at hblank
    obtain ⟨hcode, hscan⟩ := bsrLog_blank hblank
    have hlog := hreads.log
    rw [hseek, hcode] at hlog
    rw [← hlog] at hscan
    exact absurd (Except.error.inj hscan) (by decide)
  · intro hblank
    have hword8 := fun len ↦ @bsr8Any_bits mem bsr hsane len
    have hword32 := fun len ↦ @bsrWordAny_bits mem bsr hsane 4 32 rfl len
    have hword64 := fun len ↦ @bsrWordAny_bits mem bsr hsane 8 64 rfl len
    have htag : bsrTag mem bsr = bsrTagSlow mem bsr := by
      rw [hseek]
      exact bsrTag_seek
    have hlog : bsrLog mem bsr = bsrLogSlow mem bsr := by
      rw [hseek] at hblank ⊢
      exact bsrLog_seek hblank
    have hrub := bsrRubLen_of_log hsane hlog
    refine ⟨hword8, hword32, hword64, htag, hlog, hrub, ⟨fun len ↦ ⟨?_, ?_, ?_⟩, ?_, ?_, ?_⟩,
      fun hleft ↦ ?_⟩
    · rw [hword8]
      exact bitsAny_sane hsane _
    · rw [bsr32Any, hword32]
      exact bitsAny_sane hsane _
    · rw [bsr64Any, hword64]
      exact bitsAny_sane hsane _
    · rw [htag]
      exact bsrTagSlow_sane hsane
    · rw [hlog]
      exact logSlow_sane hsane 256 0
    · rw [hrub]
      exact bsrRubLenSlow_sane hsane
    · have hgone : bsrLog mem bsr = (.error .gone, bsr) := by
        rw [bsrLog, if_pos hleft]
      refine ⟨by rw [bsrTag, if_pos hleft], hgone, ?_⟩
      rw [bsrRubLen, hgone]

/-- A reader in the middle of a byte. -/
theorem words_tags_three : ReadsBits (fun _ ↦ 8) ⟨2, 3, 3, 100⟩ :=
  (words_tags_iff (by decide)).mpr fun hblank ↦ absurd hblank.1 (by decide)

/-- 32 bytes of zeros: the scan finds that there are too many, and `ur_bsr_log()` that the stream
has ended, with no bit counted. -/
theorem bsrLog_zeros : bsrSane ⟨32, 0, 0, 1⟩ ∧
    bsrLog (fun _ ↦ 0) ⟨32, 0, 0, 1⟩ = (.error .gone, ⟨0, 0, 0, 0⟩) ∧
    bsrLogSlow (fun _ ↦ 0) ⟨32, 0, 0, 1⟩ = (.error .meme, ⟨0, 256, 0, 0⟩) := by
  refine ⟨by decide, rfl, ?_⟩
  exact @bsrLogSlow_meme (fun _ ↦ 0) 33 8 0 (by decide) fun _ _ ↦ Nat.zero_testBit _

end Sane

/-! ### Many bytes -/

section Bulk

variable {mem : ℕ → UInt8} {e p : ℕ} {bits : UInt64} {bsr : Bsr}

/-- The bits behind the last byte but one are 256 or more, and look like fewer than are left of the
last byte. -/
def Wraps (bsr : Bsr) (len : ℕ) : Prop :=
  bsr.left ≠ 0 ∧ 256 ≤ len - 8 * (bsr.left - 1) ∧ (len - 8 * (bsr.left - 1)) % 256 < 8 - bsr.off

theorem bitsPast_eq {len last : ℕ} (hle : 8 * last ≤ len) :
    bitsPast len last = (len - 8 * last) % 256 := by
  unfold bitsPast
  omega

/-- `ur_bsr_skip_any()` is at the bit after the last one skipped, unless its count wraps. -/
theorem bsrSkipAny_seek (len : ℕ) :
    bsrSkipAny (seek e p bits) len = seek e (p + len) (bits + UInt64.ofNat len) ↔
    ¬Wraps (seek e p bits) len := by
  by_cases hlt : p < 8 * e
  · rw [seek_of_lt hlt]
    unfold bsrSkipAny Wraps
    dsimp only
    rw [if_neg (by omega)]
    by_cases hneed : (len / 8 + if len % 8 ≠ 0 then 1 else 0) ≥ e - p / 8
    · have hlen : 8 * (e - p / 8 - 1) < len := by
        split_ifs at hneed <;> omega
      rw [if_pos hneed, bitsPast_eq (by omega)]
      by_cases hfew : (len - 8 * (e - p / 8 - 1)) % 256 < 8 - p % 8
      · rw [if_pos hfew]
        by_cases hwrap : 256 ≤ len - 8 * (e - p / 8 - 1)
        · rw [seek_of_ge (by omega)]
          refine iff_of_false (fun heq ↦ ?_) (not_not.mpr ⟨by omega, hwrap, hfew⟩)
          exact absurd (congrArg Bsr.left heq) (show ¬1 = 0 by decide)
        · rw [seek_of_lt (by omega)]
          refine iff_of_true ?_ (by omega)
          congr 1
          · omega
          · omega
          · omega
      · rw [if_neg hfew, seek_of_ge (by omega)]
        exact iff_of_true rfl (by omega)
    · rw [if_neg hneed, seek_of_lt (by split_ifs at hneed <;> omega)]
      refine iff_of_true ?_ (by split_ifs at hneed <;> omega)
      congr 1
      · split_ifs <;> omega
      · omega
      · split_ifs at hneed ⊢ <;> omega
  · rw [seek_of_ge (by omega), seek_of_ge (by omega)]
    exact iff_of_true rfl fun hwrap ↦ absurd rfl hwrap.1

theorem bytesLoop_apply (b off rest max : ℕ) (out : ℕ → UInt8) (k : ℕ) :
    bytesLoop mem b off rest max out k =
      if k < max then UInt8.ofNat ((mem (b + k)).toNat >>> off ^^^ (mem (b + k + 1)).toNat <<< rest)
        else out k := by
  induction max with
  | zero => rfl
  | succ max ih =>
    rw [bytesLoop]
    by_cases hk : k = max
    · rw [hk, Function.update_self, if_pos (Nat.lt_succ_self max)]
    · rw [Function.update_of_ne hk, ih]
      congr 1
      rw [eq_iff_iff]
      omega

/-- The bits that an output has to have. -/
def Copied (mem : ℕ → UInt8) (e p len : ℕ) (out : ℕ → UInt8) : Prop :=
  ∀ k j, j < 8 → (out k).toNat.testBit j =
    (decide (8 * k + j < len ∧ p + (8 * k + j) < 8 * e) && bitAt mem (p + (8 * k + j)))

theorem Copied.bitAt {len : ℕ} {out : ℕ → UInt8} (hcopied : Copied mem e p len out) (i : ℕ) :
    bitAt out i = (bitsAny mem len (seek e p bits)).1.getD i false := by
  rw [getD_bitsAny, bitIn, Lib.Bits.bitAt, hcopied (i / 8) (i % 8) (Nat.mod_lt _ (by decide)),
    show 8 * (i / 8) + i % 8 = i by omega, ← Bool.and_assoc, Bool.decide_and]

/-- Bytes that are not written are zero. -/
theorem testBit_zero_byte {P : Prop} [Decidable P] (hnot : ¬P) (bit : Bool) (j : ℕ) :
    (0 : UInt8).toNat.testBit j = (decide P && bit) := by
  rw [decide_eq_false hnot, Bool.false_and]
  exact Nat.zero_testBit j

/-- A byte of the loop, across two bytes of the stream. -/
theorem testBit_across (k j : ℕ) (hj : j < 8) :
    (UInt8.ofNat ((mem (p / 8 + k)).toNat >>> (p % 8) ^^^ (mem (p / 8 + k + 1)).toNat <<<
      (8 - p % 8))).toNat.testBit j =
      Lib.Bits.bitAt mem (p + (8 * k + j)) := by
  have hsplit := @testBit_split mem (p + 8 * k) (mem ((p + 8 * k) / 8 + 1)).toNat 8
    (fun j ↦ testBit_byte mem _ j) j
  rw [show (p + 8 * k) / 8 = p / 8 + k by omega, show (p + 8 * k) % 8 = p % 8 by omega,
    decide_eq_true (by omega), Bool.true_and, Nat.add_assoc p] at hsplit
  rw [testBit_ofNat_byte, decide_eq_true hj, Bool.true_and]
  exact hsplit

/-- The rest of a byte of the stream, in the output. -/
theorem testBit_rest (k j : ℕ) (hj : j < 8) :
    (UInt8.ofNat ((mem (p / 8 + k)).toNat >>> (p % 8))).toNat.testBit j =
      (decide (p % 8 + j < 8) && Lib.Bits.bitAt mem (p + (8 * k + j))) := by
  have hfirst := @testBit_first mem (p + 8 * k) j
  rw [show (p + 8 * k) / 8 = p / 8 + k by omega, show (p + 8 * k) % 8 =
    p % 8 by omega, Nat.add_assoc p] at hfirst
  rw [testBit_ofNat_byte, decide_eq_true hj, Bool.true_and]
  exact hfirst

/-- Some bits of the rest of a byte. -/
theorem testBit_part (k n j : ℕ) (hj : j < 8) :
    (UInt8.ofNat ((mem (p / 8 + k)).toNat >>> (p % 8) &&& mask n)).toNat.testBit j =
      (decide (p % 8 + j < 8 ∧ j < n) && Lib.Bits.bitAt mem (p + (8 * k + j))) := by
  have hrest := @testBit_rest mem p k j hj
  rw [testBit_ofNat_byte, decide_eq_true hj, Bool.true_and] at hrest
  rw [testBit_ofNat_byte, Nat.testBit_and, testBit_mask, decide_eq_true hj, Bool.true_and, hrest,
    Bool.and_right_comm, ← Bool.decide_and]

/-- The rest of a byte and some bits of the next. -/
theorem testBit_both (k n off j : ℕ) (hj : j < 8) (hoff : off < 8) :
    (UInt8.ofNat (((mem (p / 8 + k)).toNat >>> (p % 8) ^^^
      ((mem (p / 8 + k + 1)).toNat &&& mask off) <<< (8 - p % 8)) &&& mask n)).toNat.testBit j =
      (decide (j < 8 - p % 8 + off ∧ j < n) && Lib.Bits.bitAt mem (p + (8 * k + j))) := by
  have hlow : ∀ j, ((mem ((p + 8 * k) / 8 + 1)).toNat &&& mask off).testBit j =
      (decide (j < off) && Lib.Bits.bitAt mem (8 * ((p + 8 * k) / 8 + 1) + j)) := by
    intro j
    rw [Nat.testBit_and, testBit_byte, testBit_mask, Bool.and_right_comm, ← Bool.decide_and]
    congr 2
    rw [eq_iff_iff]
    omega
  have hsplit := testBit_split hlow j
  rw [show (p + 8 * k) / 8 = p / 8 + k by omega, show (p + 8 * k) % 8 =
    p % 8 by omega, Nat.add_assoc p] at hsplit
  rw [testBit_ofNat_byte, Nat.testBit_and, testBit_mask, decide_eq_true hj, Bool.true_and, hsplit,
    Bool.and_right_comm, ← Bool.decide_and]

/-- The last byte of an output is written when it has bits. -/
theorem last_apply {P : Prop} [Decidable P] (out : ℕ → UInt8) (n k : ℕ) (byte : UInt8) :
    (if P then Function.update out n byte else out) k = if k = n ∧ P then byte else out k := by
  by_cases hP : P
  · rw [if_pos hP, Function.update_apply]
    simp only [hP, and_true]
  · rw [if_neg hP, if_neg fun hboth ↦ hP hboth.2]

/-- `ur_bsr_bytes_any()` on a byte boundary. -/
theorem bsrBytesAny_aligned (hlt : p < 8 * e) (hoff : p % 8 = 0) (len : ℕ) :
    (bsrBytesAny mem (seek e p bits) len fun _ ↦ 0).2 = seek e (p + len) (bits + UInt64.ofNat len) ∧
      Copied mem e p len (bsrBytesAny mem (seek e p bits) len fun _ ↦ 0).1 := by
  have hbyte : ∀ k j, j < 8 → (mem (p / 8 + k)).toNat.testBit j =
      Lib.Bits.bitAt mem (p + (8 * k + j)) := by
    intro k j hj
    rw [testBit_byte, decide_eq_true hj, Bool.true_and]
    congr 1
    omega
  rw [seek_of_lt hlt]
  unfold bsrBytesAny
  dsimp only
  rw [if_neg (by omega), if_pos hoff]
  by_cases hneed : (len / 8 + if len % 8 ≠ 0 then 1 else 0) > e - p / 8
  · rw [if_pos hneed]
    refine ⟨(seek_of_ge (by split_ifs at hneed <;> omega)).symm, fun k j hj ↦ ?_⟩
    dsimp only
    by_cases hk : k < e - p / 8
    · have hin : 8 * k + j < len ∧ p + (8 * k + j) < 8 * e := by
        split_ifs at hneed <;> omega
      rw [if_pos hk, hbyte k j hj, decide_eq_true hin, Bool.true_and]
    · rw [if_neg hk]
      exact testBit_zero_byte (by omega) _ j
  · rw [if_neg hneed]
    refine ⟨?_, fun k j hj ↦ ?_⟩
    · by_cases hend : e - p / 8 - len / 8 = 0
      · dsimp only
        rw [seek_of_ge (by split_ifs at hneed <;> omega), hend,
          show len % 8 = 0 by split_ifs at hneed <;> omega]
        rfl
      · dsimp only
        rw [if_pos hend, seek_of_lt (by split_ifs at hneed <;> omega)]
        congr 1
        · omega
        · omega
        · omega
    · dsimp only
      rw [last_apply]
      by_cases hpart : k = len / 8 ∧ len % 8 ≠ 0
      · rw [if_pos hpart, hpart.1, testBit_ofNat_byte, Nat.testBit_and, testBit_mask, hbyte _ j hj,
          decide_eq_true hj, Bool.true_and, Bool.and_comm]
        congr 2
        rw [eq_iff_iff]
        rw [if_pos hpart.2] at hneed
        omega
      rw [if_neg hpart]
      by_cases hfull : k < len / 8
      · have hin : 8 * k + j < len ∧ p + (8 * k + j) < 8 * e := by
          split_ifs at hneed <;> omega
        rw [if_pos hfull, hbyte k j hj, decide_eq_true hin, Bool.true_and]
      · rw [if_neg hfull]
        exact testBit_zero_byte (by omega) _ j

/-- The bytes of the loop are right, and so is what is written when the byte behind them is. -/
theorem copied_of_last {len max : ℕ} {out : ℕ → UInt8} (hlt : p < 8 * e)
    (hleft : max ≤ e - p / 8 - 1) (hlen : max ≤ len / 8)
    (hmax : max = e - p / 8 - 1 ∨ max = len / 8)
    (hloop : ∀ k, k ≠ max → out k = bytesLoop mem (p / 8) (p % 8) (8 - p % 8) max (fun _ ↦ 0) k)
    (hlast : ∀ j < 8, (out max).toNat.testBit j =
      (decide (8 * max + j < len ∧ p + (8 * max + j) < 8 * e) && Lib.Bits.bitAt mem
        (p + (8 * max + j)))) :
    Copied mem e p len out := by
  intro k j hj
  by_cases hk : k = max
  · rw [hk]
    exact hlast j hj
  rw [hloop k hk, bytesLoop_apply]
  by_cases hbefore : k < max
  · have hin : 8 * k + j < len ∧ p + (8 * k + j) < 8 * e := by omega
    rw [if_pos hbefore, testBit_across k j hj, decide_eq_true hin, Bool.true_and]
  · rw [if_neg hbefore]
    exact testBit_zero_byte (by omega) _ j

/-- `ur_bsr_bytes_any()` inside a byte, unless its count wraps. -/
theorem bsrBytesAny_unaligned (hlt : p < 8 * e) (hoff : p % 8 ≠ 0) (len : ℕ)
    (hwrap : ¬Wraps (seek e p bits) len) :
    (bsrBytesAny mem (seek e p bits) len fun _ ↦ 0).2 = seek e (p + len) (bits + UInt64.ofNat len) ∧
      Copied mem e p len (bsrBytesAny mem (seek e p bits) len fun _ ↦ 0).1 := by
  rw [seek_of_lt hlt] at hwrap ⊢
  unfold Wraps at hwrap
  unfold bsrBytesAny
  dsimp only at hwrap ⊢
  rw [if_neg (by omega), if_neg hoff]
  have hcopied := fun out ↦ @copied_of_last mem e p len (min (e - p / 8 - 1) (len / 8)) out hlt
    (Nat.min_le_left _ _) (Nat.min_le_right _ _) (by omega)
  generalize hloop : bytesLoop mem (p / 8) (p % 8) (8 - p % 8) (min (e - p / 8 - 1) (len / 8))
    (fun _ ↦ 0) = out
    at hcopied ⊢
  by_cases hneed : (len / 8 + if len % 8 ≠ 0 then 1 else 0) ≥ e - p / 8
  · have hlen : 8 * (e - p / 8 - 1) < len := by
      split_ifs at hneed <;> omega
    have hmax : min (e - p / 8 - 1) (len / 8) = e - p / 8 - 1 := by omega
    rw [if_pos hneed, bitsPast_eq (by omega)]
    rw [hmax] at hcopied ⊢
    by_cases hfew : (len - 8 * (e - p / 8 - 1)) % 256 < 8 - p % 8
    · rw [if_pos hfew]
      constructor
      · dsimp only
        rw [seek_of_lt (by omega)]
        congr 1
        · omega
        · omega
        · omega
      · refine hcopied _ (fun k hk ↦ Function.update_of_ne hk _ _) fun j hj ↦ ?_
        dsimp only
        rw [Function.update_self, testBit_part _ _ j hj]
        congr 2
        rw [eq_iff_iff]
        omega
    · rw [if_neg hfew]
      refine ⟨(seek_of_ge (by omega)).symm, hcopied _ (fun k hk ↦ Function.update_of_ne hk _ _)
        fun j hj ↦ ?_⟩
      dsimp only
      rw [Function.update_self, testBit_rest _ j hj]
      congr 2
      rw [eq_iff_iff]
      omega
  · have hmax : min (e - p / 8 - 1) (len / 8) = len / 8 := by
      split_ifs at hneed <;> omega
    rw [if_neg hneed]
    rw [hmax] at hcopied hloop ⊢
    constructor
    · dsimp only
      rw [seek_of_lt (by split_ifs at hneed <;> omega)]
      congr 1
      · split_ifs <;> omega
      · omega
      · split_ifs <;> omega
    · dsimp only
      by_cases hbit : len % 8 = 0
      · rw [if_pos hbit]
        refine hcopied _ (fun _ _ ↦ rfl) fun j hj ↦ ?_
        rw [← hloop, bytesLoop_apply, if_neg (Nat.lt_irrefl _)]
        exact testBit_zero_byte (by omega) _ j
      · rw [if_neg hbit]
        rw [if_pos hbit] at hneed
        by_cases hone : len % 8 ≤ 8 - p % 8
        · rw [if_pos hone]
          refine hcopied _ (fun k hk ↦ Function.update_of_ne hk _ _) fun j hj ↦ ?_
          rw [Function.update_self, testBit_part _ _ j hj]
          congr 2
          rw [eq_iff_iff]
          omega
        · rw [if_neg hone]
          refine hcopied _ (fun k hk ↦ Function.update_of_ne hk _ _) fun j hj ↦ ?_
          rw [Function.update_self, testBit_both _ _ _ j hj (Nat.mod_lt _ (by decide))]
          congr 2
          rw [eq_iff_iff]
          omega

/-- `ur_bsr_bytes_any()` writes the bits that so many calls of `ur_bsr_bit_any()` give into bytes
that are zero, and leaves the reader where they do; and so does `ur_bsr_skip_any()`, without
writing. -/
structure ReadsMany (mem : ℕ → UInt8) (bsr : Bsr) (len : ℕ) : Prop where
  bytes : ∀ i, Lib.Bits.bitAt (bsrBytesAny mem bsr len fun _ ↦ 0).1 i =
    (bitsAny mem len bsr).1.getD i false
  bytesState : (bsrBytesAny mem bsr len fun _ ↦ 0).2 = (bitsAny mem len bsr).2
  skipState : bsrSkipAny bsr len = (bitsAny mem len bsr).2

/-- The bulk readers are so many calls of `ur_bsr_bit_any()`, unless the count wraps. -/
theorem bytes_skip_iff (hsane : bsrSane bsr) (len : ℕ) :
    ReadsMany mem bsr len ↔ ¬Wraps bsr len := by
  obtain ⟨e, p, hseek⟩ := exists_seek hsane
  rw [hseek]
  generalize bsr.bits = bits
  constructor
  · intro hreads
    have hskip := hreads.skipState
    rw [bitsAny_state] at hskip
    exact (bsrSkipAny_seek len).mp hskip
  · intro hwrap
    have hskip : bsrSkipAny (seek e p bits) len = (bitsAny mem len (seek e p bits)).2 := by
      rw [bitsAny_state]
      exact (bsrSkipAny_seek len).mpr hwrap
    have hbytes : (bsrBytesAny mem (seek e p bits) len fun _ ↦ 0).2 =
      seek e (p + len) (bits + UInt64.ofNat len) ∧
        Copied mem e p len (bsrBytesAny mem (seek e p bits) len fun _ ↦ 0).1 := by
      by_cases hlt : p < 8 * e
      · by_cases hoff : p % 8 = 0
        · exact bsrBytesAny_aligned hlt hoff len
        · exact bsrBytesAny_unaligned hlt hoff len hwrap
      · rw [seek_of_ge (by omega), seek_of_ge (by omega)]
        exact ⟨rfl, fun k j _ ↦ testBit_zero_byte (by omega) _ j⟩
    refine ⟨hbytes.2.bitAt, ?_, hskip⟩
    rw [bitsAny_state]
    exact hbytes.1

/-- Twelve bits from the middle of a byte. -/
theorem bytes_skip_twelve : ReadsMany (fun _ ↦ 5) ⟨2, 3, 3, 100⟩ 12 :=
  (bytes_skip_iff (by decide) 12).mpr fun hwrap ↦ absurd hwrap.2.1 (by decide)

/-- 256 bits of a stream of one byte, at its second bit: both readers stay where they are. -/
theorem bytes_skip_wrap : bsrSane ⟨1, 0, 1, 100⟩ ∧
    (bsrBytesAny (fun _ ↦ 255) ⟨1, 0, 1, 100⟩ 256 fun _ ↦ 0).2 = ⟨1, 256, 1, 100⟩ ∧
    (bsrBytesAny (fun _ ↦ 255) ⟨1, 0, 1, 100⟩ 256 fun _ ↦ 0).1 0 = 0 ∧
    bsrSkipAny ⟨1, 0, 1, 100⟩ 256 = ⟨1, 256, 1, 100⟩ ∧
    (bitsAny (fun _ ↦ 255) 256 ⟨1, 0, 1, 100⟩).2 = ⟨0, 256, 0, 0⟩ ∧
    (bitsAny (fun _ ↦ 255) 256 ⟨1, 0, 1, 100⟩).1.getD 0 false = true := by
  refine ⟨by decide, by decide +kernel, by decide +kernel, by decide +kernel, ?_, ?_⟩
  · exact @bitsAny_state (fun _ ↦ 255) 101 801 0 256
  · exact (@getD_bitsAny (fun _ ↦ 255) 101 801 0 256 0).trans rfl

end Bulk

end Vere.Ur.BitReader