import Vere.Lib.Bits

/-!
# The bit stream writer, byte by byte

`pkg/ur/bitstream.c`: the writer on the bytes of its buffer. Each writer asks for room first, and
its parts store what they are told without looking; a store at or beyond the size of the buffer is
an `overflow`.

`bsw_run` says that from a buffer with a first byte and a first growth step no sequence of writes
overflows, and that the buffer has the bits that were written and zeros behind them.
-/

set_option autoImplicit false

namespace Vere.Ur.BitWriter

open Lib.Bits

/-! ### The state -/

/-- `ur_bsw_t`, with the bytes of its buffer. -/
@[ext] structure Bsw where
  prev : ℕ
  size : ℕ
  fill : ℕ
  bits : ℕ
  off : ℕ
  bytes : ℕ → UInt8

/-- How a write fails. -/
inductive Stop
  /-- Out of memory. -/
  | abort
  /-- A store at or beyond the size. -/
  | overflow
  deriving DecidableEq

/-- No object in memory is larger: an address has at most 57 bits. -/
def mostBytes : ℕ := 2 ^ 57

/-- `ur_bloq_up3()`, in 64 bits. -/
def bloqUp3 (a : ℕ) : ℕ := (a + 7) % 2 ^ 64 / 8

/-- `ur_bsw_init()`, of a writer that is zero. -/
def bswInit (prev size : ℕ) : Except Stop Bsw :=
  if size ≤ mostBytes then .ok ⟨prev, size, 0, 0, 0, fun _ ↦ 0⟩ else .error .abort

/-- `ur_bsw_grow()`. -/
def bswGrow (bsw : Bsw) (step : ℕ) : Except Stop Bsw :=
  if bsw.size + step ≤ mostBytes then
    .ok { bsw with
      prev := bsw.size
      size := bsw.size + step
      bytes := fun i ↦ if i < bsw.size then bsw.bytes i else 0 }
  else .error .abort

/-! ### Stores -/

/-- `bsw->bytes[i] = byt`. -/
def store (bsw : Bsw) (i : ℕ) (byt : UInt8) : Except Stop Bsw :=
  if i < bsw.size then .ok { bsw with bytes := Function.update bsw.bytes i byt }
    else .error .overflow

/-- `bsw->bytes[i] ^= byt`. -/
def storeXor (bsw : Bsw) (i byt : ℕ) : Except Stop Bsw :=
  store bsw i (UInt8.ofNat ((bsw.bytes i).toNat ^^^ byt))

/-- Stores at one byte after the other. -/
def storeMany (bsw : Bsw) (i : ℕ) (byt : ℕ → UInt8) : ℕ → Except Stop Bsw
  | 0 => .ok bsw
  | n + 1 => do store (← storeMany bsw i byt n) (i + n) (byt n)

/-! ### Writers that do not look -/

/-- `_bsw_bit_unsafe()`. -/
def bswBitUnsafe (bsw : Bsw) (bit : ℕ) : Except Stop Bsw := do
  let next ← storeXor bsw bsw.fill ((bit &&& 1) <<< bsw.off)
  if bsw.off = 7 then .ok { next with fill := bsw.fill + 1, off := 0, bits := bsw.bits + 1 }
  else .ok { next with off := bsw.off + 1, bits := bsw.bits + 1 }

/-- `_bsw8_unsafe()`. -/
def bsw8Unsafe (bsw : Bsw) (len byt : ℕ) : Except Stop Bsw := do
  let rest := 8 - bsw.off
  if len < rest then
    let next ← storeXor bsw bsw.fill ((byt &&& mask len) <<< bsw.off)
    .ok { next with off := bsw.off + len, bits := bsw.bits + len }
  else
    let off := len - rest
    let next ← storeXor bsw bsw.fill ((byt &&& mask rest) <<< bsw.off)
    let next ← store next (bsw.fill + 1) (UInt8.ofNat ((byt >>> rest) &&& mask off))
    .ok { next with fill := bsw.fill + 1, off := off, bits := bsw.bits + len }

/-- What `_bsw32_unsafe()` and `_bsw64_unsafe()` write on a byte boundary: the whole bytes of the
switch, and the bits of one more. -/
def bswWordAligned (bsw : Bsw) (fill len val : ℕ) : Except Stop Bsw := do
  let next ← storeMany bsw fill (fun i ↦ UInt8.ofNat (val >>> (8 * i))) (len / 8)
  let off := len % 8
  let next ←
    if off ≠ 0 then
      store next (fill + len / 8) (UInt8.ofNat ((val >>> (8 * (len / 8))) &&& mask off))
        else .ok next
  .ok { next with fill := fill + len / 8, off := off }

/-- `_bsw32_unsafe()` and `_bsw64_unsafe()`. -/
def bswWordUnsafe (bsw : Bsw) (len val : ℕ) : Except Stop Bsw := do
  let off := bsw.off
  let next := { bsw with bits := bsw.bits + len }
  if off ≠ 0 then
    let rest := 8 - off
    if len < rest then
      let next ← storeXor next bsw.fill ((val &&& mask len) <<< off)
      .ok { next with off := off + len }
    else
      let next ← storeXor next bsw.fill ((val &&& mask rest) <<< off)
      bswWordAligned next (bsw.fill + 1) (len - rest) (val >>> rest)
  else bswWordAligned next bsw.fill len val

/-- `_bsw_bytes_unsafe()`. -/
def bswBytesUnsafe (bsw : Bsw) (len : ℕ) (src : ℕ → UInt8) : Except Stop Bsw := do
  let fill := bsw.fill
  let off := bsw.off
  if off = 0 then
    let lenByt := len / 8
    let lenBit := len % 8
    let next ← storeMany bsw fill src lenByt
    let next ←
      if lenBit ≠ 0 then
        store next (fill + lenByt) (UInt8.ofNat ((src lenByt).toNat &&& mask lenBit)) else .ok next
    .ok { next with fill := fill + lenByt, off := lenBit, bits := bsw.bits + len }
  else
    let rest := 8 - off
    if rest ≥ len then
      let ful := off + len
      let next ← storeXor bsw fill (((src 0).toNat &&& mask len) <<< off)
      .ok { next with
        fill := if ful / 8 ≠ 0 then fill + 1 else fill, off := ful % 8, bits := bsw.bits + len }
    else
      let nel := len - rest
      let lenByt := nel / 8
      let lenBit := nel % 8
      let next ← storeXor bsw fill ((src 0).toNat <<< off)
      let next ← storeMany next (fill + 1)
        (fun i ↦ UInt8.ofNat ((src i).toNat >>> rest ^^^ (src (i + 1)).toNat <<< off)) lenByt
      let tal := (src lenByt).toNat >>> rest ^^^ if off > lenBit then
        0 else (src (lenByt + 1)).toNat <<< off
      let next ← store next (fill + 1 + lenByt) (UInt8.ofNat (tal &&& mask lenBit))
      .ok { next with fill := fill + lenByt + 1, off := lenBit, bits := bsw.bits + len }

/-- `_bsw_bex_unsafe()`. -/
def bswBexUnsafe (bsw : Bsw) (n : ℕ) : Except Stop Bsw := do
  let bits := n + bsw.off
  let fill := bsw.fill + bits / 8
  let off := bits % 8
  let next ← storeXor bsw fill (1 <<< off)
  if off = 7 then .ok { next with fill := fill + 1, off := 0, bits := bsw.bits + (1 + n) }
  else .ok { next with fill := fill, off := off + 1, bits := bsw.bits + (1 + n) }

/-- `_bsw_mat64_unsafe()` and `_bsw_mat_bytes_unsafe()`, by what writes the bits behind the length.
-/
def bswMatUnsafe (bsw : Bsw) (len : ℕ) (body : Bsw → Except Stop Bsw) : Except Stop Bsw :=
  if len = 0 then bswBitUnsafe bsw 1
  else do
    let nel := len.size
    let next ← bswBexUnsafe bsw nel
    let next ← bswWordUnsafe next (nel - 1) len
    body next

def bswMat64Unsafe (bsw : Bsw) (len val : ℕ) : Except Stop Bsw :=
  bswMatUnsafe bsw len fun bsw ↦ bswWordUnsafe bsw len val

def bswMatBytesUnsafe (bsw : Bsw) (len : ℕ) (byt : ℕ → UInt8) : Except Stop Bsw :=
  bswMatUnsafe bsw len fun bsw ↦ bswBytesUnsafe bsw len byt

/-! ### Writers -/

/-- `MAT_LEN()`. -/
def matLen (len : ℕ) : ℕ := if len = 0 then 1 else len + 2 * len.size

/-- Growth before a writer writes, where it asks for it. -/
def bswGrowIf (P : Prop) [Decidable P] (bsw : Bsw) (step : ℕ) : Except Stop Bsw :=
  if P then bswGrow bsw step else .ok bsw

/-- The room that most writers ask for. -/
def bswNeed (bsw : Bsw) (need : ℕ) : Except Stop Bsw :=
  bswGrowIf (bsw.fill + need ≥ bsw.size) bsw (max need bsw.prev)

/-- `ur_bsw_bit()`. -/
def bswBit (bsw : Bsw) (bit : ℕ) : Except Stop Bsw := do
  bswBitUnsafe (← bswGrowIf (bsw.off = 7 ∧ 1 + bsw.fill = bsw.size) bsw bsw.prev) bit

/-- `ur_bsw8()`. -/
def bsw8 (bsw : Bsw) (len byt : ℕ) : Except Stop Bsw := do
  let len := min 8 len
  let step := if (bsw.off + len) / 8 ≠ 0 then 1 else 0
  bsw8Unsafe (← bswGrowIf (bsw.fill + step ≥ bsw.size) bsw bsw.prev) len byt

/-- `ur_bsw32()`. -/
def bsw32 (bsw : Bsw) (len val : ℕ) : Except Stop Bsw := do
  let len := min 32 len
  bswWordUnsafe (← bswNeed bsw (bloqUp3 (bsw.off + len) % 2 ^ 8)) len val

/-- `ur_bsw64()`. -/
def bsw64 (bsw : Bsw) (len val : ℕ) : Except Stop Bsw := do
  let len := min 64 len
  bswWordUnsafe (← bswNeed bsw (bloqUp3 (bsw.off + len) % 2 ^ 8)) len val

/-- `ur_bsw_bytes()`. -/
def bswBytes (bsw : Bsw) (len : ℕ) (byt : ℕ → UInt8) : Except Stop Bsw := do
  bswBytesUnsafe (← bswNeed bsw (bloqUp3 (len + bsw.off))) len byt

/-- `ur_bsw_bex()`. -/
def bswBex (bsw : Bsw) (n : ℕ) : Except Stop Bsw := do
  bswBexUnsafe (← bswNeed bsw (bloqUp3 (1 + n + bsw.off))) n

/-- `ur_bsw_mat64()`. -/
def bswMat64 (bsw : Bsw) (len val : ℕ) : Except Stop Bsw := do
  let len := min 64 len
  bswMat64Unsafe (← bswNeed bsw (bloqUp3 (bsw.off + matLen len) % 2 ^ 8)) len val

/-- `ur_bsw_mat_bytes()`. -/
def bswMatBytes (bsw : Bsw) (len : ℕ) (byt : ℕ → UInt8) : Except Stop Bsw := do
  bswMatBytesUnsafe (← bswNeed bsw (bloqUp3 (bsw.off + matLen len))) len byt

/-- `ur_bsw_back64()`. -/
def bswBack64 (bsw : Bsw) (len val : ℕ) : Except Stop Bsw := do
  let len := min 64 len
  let bsw ← bswNeed bsw (bloqUp3 (2 + bsw.off + matLen len) % 2 ^ 8)
  bswMat64Unsafe (← bsw8Unsafe bsw 2 3) len val

/-- `ur_bsw_atom64()`. -/
def bswAtom64 (bsw : Bsw) (len val : ℕ) : Except Stop Bsw := do
  let len := min 64 len
  let bsw ← bswNeed bsw (bloqUp3 (1 + bsw.off + matLen len) % 2 ^ 8)
  bswMat64Unsafe (← bswBitUnsafe bsw 0) len val

/-- `ur_bsw_atom_bytes()`. -/
def bswAtomBytes (bsw : Bsw) (len : ℕ) (byt : ℕ → UInt8) : Except Stop Bsw := do
  let bsw ← bswNeed bsw (bloqUp3 (1 + bsw.off + matLen len))
  bswMatBytesUnsafe (← bswBitUnsafe bsw 0) len byt

/-- `ur_bsw_cell()`. -/
def bswCell (bsw : Bsw) : Except Stop Bsw := do
  bsw8Unsafe (← bswNeed bsw (bloqUp3 (2 + bsw.off) % 2 ^ 8)) 2 1

/-! ### What the buffer holds -/

/-- The cursor is behind the bits that were written, and zeros are behind it. -/
structure Holds (bsw : Bsw) (out : List Bool) : Prop where
  off : bsw.off < 8
  bits : bsw.bits = 8 * bsw.fill + bsw.off
  length : out.length = bsw.bits
  bytes : ∀ k j, j < 8 → (bsw.bytes k).toNat.testBit j = out.getD (8 * k + j) false

section Holds

variable {bsw next : Bsw} {out more : List Bool}

theorem Holds.zero (hholds : Holds bsw out) {k j : ℕ} (hj : j < 8) (hge : bsw.bits ≤ 8 * k + j) :
    (bsw.bytes k).toNat.testBit j = false := by
  rw [hholds.bytes k j hj, List.getD_eq_default]
  rw [hholds.length]
  exact hge

theorem Holds.append (hholds : Holds bsw out) (hbits : next.bits = bsw.bits + more.length)
    (hoff : next.off < 8) (hfill : next.bits = 8 * next.fill + next.off)
    (hbytes : ∀ k j, j < 8 → (next.bytes k).toNat.testBit j =
      if 8 * k + j < bsw.bits then (bsw.bytes k).toNat.testBit j
        else more.getD (8 * k + j - bsw.bits) false) :
    Holds next (out ++ more) where
  off := hoff
  bits := hfill
  length := by rw [List.length_append, hholds.length, hbits]
  bytes k j hj := by
    rw [hbytes k j hj]
    split_ifs with hlt
    · rw [hholds.bytes k j hj, List.getD_append]
      rw [hholds.length]
      exact hlt
    · rw [List.getD_append_right _ _ _ _ (by rw [hholds.length]; omega), hholds.length]

theorem testBit_masked (val n j : ℕ) (hj : j < 8) :
    (UInt8.ofNat (val &&& mask n)).toNat.testBit j = (decide (j < n) && val.testBit j) := by
  rw [testBit_ofNat_byte, Nat.testBit_and, testBit_mask, decide_eq_true hj, Bool.true_and,
    Bool.and_comm]

theorem store_ok {i : ℕ} (hlt : i < bsw.size) (byt : UInt8) :
    store bsw i byt = .ok { bsw with bytes := Function.update bsw.bytes i byt } := if_pos hlt

theorem storeXor_ok {i : ℕ} (hlt : i < bsw.size) (byt : ℕ) :
    storeXor bsw i byt =
      .ok { bsw with
        bytes := Function.update bsw.bytes i (UInt8.ofNat ((bsw.bytes i).toNat ^^^ byt)) } :=
  store_ok hlt _

variable {n : ℕ}

theorem storeMany_ok {i : ℕ} (hle : i + n ≤ bsw.size) (byt : ℕ → UInt8) :
    storeMany bsw i byt n =
      .ok { bsw with bytes := fun k ↦ if i ≤ k ∧ k < i + n then byt (k - i) else bsw.bytes k } := by
  induction n with
  | zero =>
    have hsame : (fun k ↦ if i ≤ k ∧ k < i + 0 then byt (k - i) else bsw.bytes k) = bsw.bytes := by
      funext k
      rw [if_neg (by omega)]
    rw [hsame]
    rfl
  | succ n ih =>
    have hlast : Function.update (fun k ↦ if i ≤ k ∧ k < i + n then byt (k - i) else bsw.bytes k)
      (i + n) (byt n) =
        fun k ↦ if i ≤ k ∧ k < i + (n + 1) then byt (k - i) else bsw.bytes k := by
      funext k
      by_cases hk : k = i + n
      · rw [hk, Function.update_self, if_pos (by omega), Nat.add_sub_cancel_left]
      · rw [Function.update_of_ne hk]
        congr 1
        rw [eq_iff_iff]
        omega
    rw [storeMany, ih (by omega), ← hlast]
    exact @store_ok
      { bsw with bytes := fun k ↦ if i ≤ k ∧ k < i + n then byt (k - i) else bsw.bytes k }
      (i + n) (show i + n < bsw.size by omega) (byt n)

/-- The byte at the cursor, with bits put in front of it. -/
theorem Holds.xor (hholds : Holds bsw out) (val j : ℕ) (hj : j < 8) :
    (UInt8.ofNat ((bsw.bytes bsw.fill).toNat ^^^ val <<< bsw.off)).toNat.testBit j =
      if j < bsw.off then (bsw.bytes bsw.fill).toNat.testBit j else val.testBit (j - bsw.off) := by
  rw [testBit_ofNat_byte, Nat.testBit_xor, Nat.testBit_shiftLeft, decide_eq_true hj, Bool.true_and]
  split_ifs with hlt
  · rw [decide_eq_false (by omega), Bool.false_and, Bool.xor_false]
  · have hbits := hholds.bits
    rw [hholds.zero hj (by omega), decide_eq_true (by omega), Bool.true_and, Bool.false_xor]

/-- What is known of a writer that has room. -/
theorem Holds.room (hholds : Holds bsw out) (hroom : bsw.bits + n < 8 * bsw.size) :
    bsw.fill < bsw.size ∧ bsw.fill + (bsw.off + n) / 8 < bsw.size := by
  have hbits := hholds.bits
  omega

/-- Bits within the byte at the cursor. -/
theorem Holds.within (hholds : Holds bsw out) {n val : ℕ} (hn : bsw.off + n ≤ 8) (k j : ℕ)
    (hj : j < 8) :
    (Function.update bsw.bytes bsw.fill
      (UInt8.ofNat ((bsw.bytes bsw.fill).toNat ^^^ (val &&& mask n) <<< bsw.off)) k).toNat.testBit
        j =
      if 8 * k + j < bsw.bits then (bsw.bytes k).toNat.testBit j
      else (bitsOf n val).getD (8 * k + j - bsw.bits) false := by
  have hbits := hholds.bits
  by_cases hk : k = bsw.fill
  · rw [hk, Function.update_self, hholds.xor _ j hj]
    by_cases hlt : j < bsw.off
    · rw [if_pos hlt, if_pos (by omega)]
    · rw [if_neg hlt, if_neg (by omega), Nat.testBit_and, testBit_mask, getD_bitsOf,
        show 8 * bsw.fill + j - bsw.bits = j - bsw.off by omega, Bool.and_comm]
  · rw [Function.update_of_ne hk]
    split_ifs with hlt
    · rfl
    · rw [hholds.zero hj (by omega), getD_bitsOf, decide_eq_false (by omega), Bool.false_and]

/-- The byte at the cursor, filled up. -/
def fillUp (bsw : Bsw) (val : ℕ) : Bsw :=
  { bsw with
    fill := bsw.fill + 1
    off := 0
    bits := bsw.bits + (8 - bsw.off)
    bytes := Function.update bsw.bytes bsw.fill
      (UInt8.ofNat ((bsw.bytes bsw.fill).toNat ^^^ (val &&& mask (8 - bsw.off)) <<< bsw.off)) }

theorem Holds.fillUp (hholds : Holds bsw out) (val : ℕ) :
    Holds (fillUp bsw val) (out ++ bitsOf (8 - bsw.off) val) := by
  have hbits := hholds.bits
  have hoff := hholds.off
  refine hholds.append (by rw [length_bitsOf]; rfl) (Nat.zero_lt_succ 7) ?_
    (hholds.within (by omega))
  show bsw.bits + (8 - bsw.off) = 8 * (bsw.fill + 1) + 0
  omega

/-- Bits that are written from a byte boundary on. -/
theorem Holds.aligned (hholds : Holds bsw out) (hoff : bsw.off = 0) {f : ℕ → Bool}
    {bytes : ℕ → UInt8} (hbefore : ∀ k < bsw.fill, bytes k = bsw.bytes k)
    (hbytes : ∀ k j, j < 8 → (bytes (bsw.fill + k)).toNat.testBit j =
      (decide (8 * k + j < n) && f (8 * k + j))) :
    Holds { bsw with fill := bsw.fill + n / 8, off := n % 8, bits := bsw.bits + n, bytes := bytes }
      (out ++ (List.range n).map f) := by
  have hbits := hholds.bits
  refine hholds.append (by simp) (Nat.mod_lt _ (by decide)) ?_ fun k j hj ↦ ?_
  · show bsw.bits + n = 8 * (bsw.fill + n / 8) + n % 8
    omega
  · show (bytes k).toNat.testBit j = _
    by_cases hk : k < bsw.fill
    · rw [if_pos (by omega), hbefore k hk]
    · obtain ⟨i, rfl⟩ : ∃ i, k = bsw.fill + i := ⟨k - bsw.fill, by omega⟩
      rw [if_neg (by omega), hbytes i j hj, show 8 * (bsw.fill + i) + j - bsw.bits =
        8 * i + j by omega]
      by_cases hlt : 8 * i + j < n
      · simp [List.getD, hlt]
      · simp [List.getD, hlt]

/-- The zeros behind a byte boundary, with one more byte of bits. -/
theorem Holds.last (hholds : Holds bsw out) (hoff : bsw.off = 0) {f : ℕ → Bool} (hn : n ≤ 8)
    {byt : UInt8} (hbyt : ∀ j < 8, byt.toNat.testBit j = (decide (j < n) && f j)) (k j : ℕ)
    (hj : j < 8) :
    (Function.update bsw.bytes bsw.fill byt (bsw.fill + k)).toNat.testBit j =
      (decide (8 * k + j < n) && f (8 * k + j)) := by
  have hbits := hholds.bits
  cases k with
  | zero =>
    rw [Nat.add_zero, Function.update_self, hbyt j hj, Nat.mul_zero, Nat.zero_add]
  | succ k =>
    rw [Function.update_of_ne (by omega), hholds.zero hj (by omega), decide_eq_false (by omega),
      Bool.false_and]

/-- Bytes from an address on, and one more behind them under a condition. -/
def stored (bytes : ℕ → UInt8) (fill n : ℕ) (byt : ℕ → UInt8) (P : Prop) [Decidable P]
    (last : UInt8) : ℕ → UInt8 :=
  let many := fun k ↦ if fill ≤ k ∧ k < fill + n then byt (k - fill) else bytes k
  if P then Function.update many (fill + n) last else many

theorem stored_ok {fill : ℕ} {P : Prop} [Decidable P] (hle : fill + n ≤ bsw.size)
    (hlast : P → fill + n < bsw.size) (byt : ℕ → UInt8) (last : UInt8)
    (then_ : Bsw → Except Stop Bsw) :
    (do
      let next ← storeMany bsw fill byt n
      let next ← if P then store next (fill + n) last else .ok next
      then_ next) = then_ { bsw with bytes := stored bsw.bytes fill n byt P last } := by
  rw [storeMany_ok hle]
  show (if P then store _ _ _ >>= then_ else Except.ok _ >>= then_) = _
  unfold stored
  split_ifs with hP
  · rw [store_ok]
    · rfl
    · exact hlast hP
  · rfl

theorem stored_before {bytes byt : ℕ → UInt8} {fill : ℕ} {P : Prop} [Decidable P] {last : UInt8}
    (k : ℕ) (hk : k < fill) : stored bytes fill n byt P last k = bytes k := by
  unfold stored
  split_ifs
  · rw [Function.update_of_ne (by omega), if_neg (by omega)]
  · exact if_neg (by omega)

/-- The bits of bytes that are stored on a byte boundary. -/
theorem Holds.stored (hholds : Holds bsw out) (hoff : bsw.off = 0) (f : ℕ → Bool) (byt : ℕ → UInt8)
    (P : Prop) [Decidable P] (last : UInt8) (hP : ¬P → n % 8 = 0)
    (hbyt : ∀ i < n / 8, ∀ j < 8, (byt i).toNat.testBit j = f (8 * i + j))
    (hlast : ∀ j < 8, last.toNat.testBit j = (decide (j < n % 8) && f (8 * (n / 8) + j))) (k j : ℕ)
    (hj : j < 8) :
    (stored bsw.bytes bsw.fill (n / 8) byt P last (bsw.fill + k)).toNat.testBit j =
      (decide (8 * k + j < n) && f (8 * k + j)) := by
  have hbits := hholds.bits
  have hmany : k ≠ n / 8 ∨ ¬P →
    ((fun k ↦ if bsw.fill ≤ k ∧ k < bsw.fill + n / 8 then byt (k - bsw.fill)
      else bsw.bytes k) (bsw.fill + k)).toNat.testBit j =
        (decide (8 * k + j < n) && f (8 * k + j)) := by
    intro hother
    dsimp only
    by_cases hk : k < n / 8
    · rw [if_pos (by omega), Nat.add_sub_cancel_left, hbyt k hk j hj, decide_eq_true (by omega),
        Bool.true_and]
    · rw [if_neg (by omega), hholds.zero hj (by omega), decide_eq_false, Bool.false_and]
      obtain hne | hnot := hother
      · omega
      · have hzero := hP hnot
        omega
  unfold BitWriter.stored
  by_cases hp : P
  · rw [if_pos hp]
    by_cases hk : k = n / 8
    · rw [hk, Function.update_self, hlast j hj]
      congr 2
      rw [eq_iff_iff]
      omega
    · rw [Function.update_of_ne (by omega)]
      exact hmany (Or.inl hk)
  · rw [if_neg hp]
    exact hmany (Or.inr hp)

/-- The bits of a number in two parts. -/
theorem bitsOf_add (len more val : ℕ) :
    bitsOf (len + more) val = bitsOf len val ++ bitsOf more (val >>> len) := by
  unfold bitsOf
  rw [List.range_add, List.map_append, List.map_map]
  congr 1
  refine List.map_congr_left fun i _ ↦ ?_
  rw [Nat.testBit_shiftRight]
  rfl

/-! ### Writers that do not look, given room -/

/-- A writer that appends bits where there is room for them and for one more. -/
def Writes (op : Bsw → Except Stop Bsw) (more : List Bool) : Prop :=
  ∀ bsw out, Holds bsw out → bsw.bits + more.length < 8 * bsw.size →
    ∃ next, op bsw = .ok next ∧ Holds next (out ++ more) ∧ next.size = bsw.size ∧
    next.prev = bsw.prev

theorem Writes.bind {op op' : Bsw → Except Stop Bsw} {last : List Bool} (hop : Writes op more)
    (hop' : Writes op' last) : Writes (fun bsw ↦ op bsw >>= op') (more ++ last) := by
  intro bsw out hholds hroom
  rw [List.length_append] at hroom
  obtain ⟨next, hok, hnext, hsize, hprev⟩ := hop bsw out hholds (by omega)
  have hbits : next.bits = bsw.bits + more.length := by
    rw [← hnext.length, List.length_append, hholds.length]
  obtain ⟨final, hok', hfinal, hsize', hprev'⟩ := hop' next _ hnext (by rw [hsize]; omega)
  refine ⟨final, ?_, by rwa [List.append_assoc] at hfinal, hsize'.trans hsize, hprev'.trans hprev⟩
  dsimp only
  rw [hok]
  exact hok'

theorem writes_bit (bit : ℕ) : Writes (fun bsw ↦ bswBitUnsafe bsw bit) (bitsOf 1 bit) := by
  intro bsw out hholds hroom
  rw [length_bitsOf] at hroom
  have hbits := hholds.bits
  have hoff := hholds.off
  have hbytes := fun k j ↦ @Holds.within bsw out hholds 1 bit (by omega) k j
  dsimp only
  rw [bswBitUnsafe, storeXor_ok (hholds.room hroom).1]
  by_cases hlast : bsw.off = 7
  · refine ⟨_, if_pos hlast, hholds.append (by rw [length_bitsOf]) ?_ ?_ hbytes, rfl, rfl⟩
    · exact Nat.zero_lt_succ 7
    · show bsw.bits + 1 = 8 * (bsw.fill + 1) + 0
      omega
  · refine ⟨_, if_neg hlast, hholds.append (by rw [length_bitsOf]) ?_ ?_ hbytes, rfl, rfl⟩
    · show bsw.off + 1 < 8
      omega
    · show bsw.bits + 1 = 8 * bsw.fill + (bsw.off + 1)
      omega

theorem writes_8 {len : ℕ} (hlen : len ≤ 8) (byt : ℕ) :
    Writes (fun bsw ↦ bsw8Unsafe bsw len byt) (bitsOf len byt) := by
  intro bsw out hholds hroom
  rw [length_bitsOf] at hroom
  have hbits := hholds.bits
  have hoff := hholds.off
  obtain ⟨hfill, hlast⟩ := hholds.room hroom
  dsimp only
  rw [bsw8Unsafe]
  dsimp only
  by_cases hlt : len < 8 - bsw.off
  · rw [if_pos hlt, storeXor_ok hfill]
    refine ⟨_, rfl, hholds.append (by rw [length_bitsOf]) ?_ ?_ (hholds.within (by omega)),
      rfl, rfl⟩
    · show bsw.off + len < 8
      omega
    · show bsw.bits + len = 8 * bsw.fill + (bsw.off + len)
      omega
  · obtain ⟨more, rfl⟩ : ∃ more, len = 8 - bsw.off + more := ⟨len - (8 - bsw.off), by omega⟩
    have hnext := (hholds.fillUp byt).aligned (n := more) (f := (byt >>> (8 - bsw.off)).testBit) rfl
      (fun k hk ↦ Function.update_of_ne (Nat.ne_of_lt hk) _ _)
      ((hholds.fillUp byt).last rfl (by omega)
        (testBit_masked (byt >>> (8 - bsw.off)) more))
    rw [if_neg hlt, storeXor_ok hfill, bitsOf_add, ← List.append_assoc]
    refine ⟨_, ?_, hnext, rfl, rfl⟩
    show (store _ _ _ >>= _) = _
    rw [store_ok, Nat.add_sub_cancel_left]
    · refine congrArg Except.ok (Bsw.ext rfl rfl ?_ ?_ ?_ rfl)
      · show bsw.fill + 1 = bsw.fill + 1 + more / 8
        omega
      · exact (Nat.add_assoc _ _ _).symm
      · show more = more % 8
        omega
    · show bsw.fill + 1 < bsw.size
      omega

/-- The bytes of a number and the bits of one more. -/
theorem Holds.word (hholds : Holds bsw out) (hoff : bsw.off = 0) (len val k j : ℕ) (hj : j < 8) :
    (BitWriter.stored bsw.bytes bsw.fill (len / 8) (fun i ↦ UInt8.ofNat (val >>> (8 * i)))
      (len % 8 ≠ 0) (UInt8.ofNat ((val >>> (8 * (len / 8))) &&& mask (len % 8)))
        (bsw.fill + k)).toNat.testBit j =
      (decide (8 * k + j < len) && val.testBit (8 * k + j)) := by
  refine hholds.stored hoff val.testBit _ _ _ not_not.mp (fun i _ j hj ↦ ?_) (fun j hj ↦ ?_) k j hj
  · rw [testBit_ofNat_byte, decide_eq_true hj, Bool.true_and, Nat.testBit_shiftRight]
  · rw [testBit_masked _ _ _ hj, Nat.testBit_shiftRight]

theorem bswWordAligned_ok {fill len : ℕ} (hroom : fill + (len + 7) / 8 ≤ bsw.size) (val : ℕ) :
    bswWordAligned bsw fill len val = .ok { bsw with
      fill := fill + len / 8
      off := len % 8
      bytes := BitWriter.stored bsw.bytes fill (len / 8) (fun i ↦ UInt8.ofNat (val >>> (8 * i)))
        (len % 8 ≠ 0) (UInt8.ofNat ((val >>> (8 * (len / 8))) &&& mask (len % 8))) } :=
  stored_ok (by omega) (by omega) _ _ fun next ↦
    .ok { next with fill := fill + len / 8, off := len % 8 }

theorem writes_word (len val : ℕ) :
    Writes (fun bsw ↦ bswWordUnsafe bsw len val) (bitsOf len val) := by
  intro bsw out hholds hroom
  rw [length_bitsOf] at hroom
  have hbits := hholds.bits
  have hoff := hholds.off
  obtain ⟨hfill, hlast⟩ := hholds.room hroom
  dsimp only
  rw [bswWordUnsafe]
  dsimp only
  by_cases hzero : bsw.off = 0
  · have hnext := hholds.aligned hzero (n := len) (f := val.testBit) stored_before
      (hholds.word hzero len val)
    rw [if_neg (not_not.mpr hzero),
      bswWordAligned_ok (by show bsw.fill + (len + 7) / 8 ≤ bsw.size; omega)]
    exact ⟨_, rfl, hnext, rfl, rfl⟩
  rw [if_pos hzero]
  by_cases hlt : len < 8 - bsw.off
  · rw [if_pos hlt, storeXor_ok (by exact hfill)]
    refine ⟨_, rfl, hholds.append (by rw [length_bitsOf]) ?_ ?_ (hholds.within (by omega)),
      rfl, rfl⟩
    · show bsw.off + len < 8
      omega
    · show bsw.bits + len = 8 * bsw.fill + (bsw.off + len)
      omega
  · obtain ⟨more, rfl⟩ : ∃ more, len = 8 - bsw.off + more := ⟨len - (8 - bsw.off), by omega⟩
    have hnext := (hholds.fillUp val).aligned (n := more)
      (f := (val >>> (8 - bsw.off)).testBit) rfl stored_before
      ((hholds.fillUp val).word rfl more (val >>> (8 - bsw.off)))
    rw [if_neg hlt, storeXor_ok (by exact hfill), bitsOf_add, ← List.append_assoc,
      Nat.add_sub_cancel_left]
    refine ⟨_, ?_, hnext, rfl, rfl⟩
    show bswWordAligned _ _ _ _ = _
    rw [bswWordAligned_ok]
    · exact congrArg Except.ok (Bsw.ext rfl rfl rfl (Nat.add_assoc _ _ _).symm rfl rfl)
    · show bsw.fill + 1 + (more + 7) / 8 ≤ bsw.size
      omega

/-- A byte of the output, across two bytes of the source. -/
theorem testBit_across {off : ℕ} (hoff : off < 8) (src : ℕ → UInt8) (i j : ℕ) (hj : j < 8) :
    ((src i).toNat >>> (8 - off) ^^^ (src (i + 1)).toNat <<< off).testBit j =
      bitAt src (8 - off + (8 * i + j)) := by
  rw [Nat.testBit_xor, Nat.testBit_shiftRight, Nat.testBit_shiftLeft, testBit_byte, testBit_byte]
  by_cases hlow : j < off
  · rw [decide_eq_true (by omega : 8 - off + j < 8), decide_eq_false (by omega : ¬j ≥ off),
      Bool.true_and, Bool.false_and, Bool.xor_false]
    congr 1
    omega
  · rw [decide_eq_false (by omega : ¬8 - off + j < 8), decide_eq_true (by omega : j ≥ off),
      decide_eq_true (by omega : j - off < 8), Bool.false_and, Bool.true_and, Bool.true_and,
      Bool.false_xor]
    congr 1
    omega

/-- What does not fit into the byte is cut off. -/
theorem xor_cut (a val : ℕ) {off : ℕ} (hoff : off < 8) :
    UInt8.ofNat (a ^^^ (val &&& mask (8 - off)) <<< off) = UInt8.ofNat (a ^^^ val <<< off) := by
  refine UInt8.toNat_inj.mp (Nat.eq_of_testBit_eq fun j ↦ ?_)
  rw [testBit_ofNat_byte, testBit_ofNat_byte, Nat.testBit_xor, Nat.testBit_xor,
    Nat.testBit_shiftLeft, Nat.testBit_shiftLeft, Nat.testBit_and, testBit_mask]
  by_cases hj : j < 8
  · rw [decide_eq_true (by omega : j - off < 8 - off), Bool.and_true]
  · rw [decide_eq_false hj, Bool.false_and, Bool.false_and]

theorem writes_bytes (len : ℕ) (src : ℕ → UInt8) :
    Writes (fun bsw ↦ bswBytesUnsafe bsw len src) ((List.range len).map (bitAt src)) := by
  intro bsw out hholds hroom
  rw [List.length_map, List.length_range] at hroom
  have hbits := hholds.bits
  have hoff := hholds.off
  obtain ⟨hfill, hlast⟩ := hholds.room hroom
  dsimp only
  rw [bswBytesUnsafe]
  dsimp only
  by_cases hzero : bsw.off = 0
  · have hnext := hholds.aligned hzero (n := len) (f := bitAt src) stored_before
      (hholds.stored hzero (bitAt src) src (len % 8 ≠ 0)
        (UInt8.ofNat ((src (len / 8)).toNat &&& mask (len % 8))) not_not.mp
        (fun i _ j hj ↦ by rw [testBit_byte, decide_eq_true hj, Bool.true_and])
        (fun j hj ↦ by rw [testBit_masked _ _ _ hj, testBit_byte, decide_eq_true hj,
        Bool.true_and]))
    rw [if_pos hzero]
    refine ⟨_, ?_, hnext, rfl, rfl⟩
    exact stored_ok (by omega) (by omega) _ _ fun next ↦
      .ok { next with fill := bsw.fill + len / 8, off := len % 8, bits := bsw.bits + len }
  rw [if_neg hzero]
  by_cases hfew : 8 - bsw.off ≥ len
  · have hsame : (List.range len).map (bitAt src) = bitsOf len (src 0).toNat := by
      refine List.map_congr_left fun i hi ↦ ?_
      rw [testBit_byte, decide_eq_true (by have := List.mem_range.mp hi; omega), Bool.true_and,
        Nat.mul_zero, Nat.zero_add]
    rw [if_pos hfew, storeXor_ok hfill, hsame]
    refine ⟨_, rfl, hholds.append (by rw [length_bitsOf]) (Nat.mod_lt _ (by decide)) ?_
      (hholds.within (by omega)), rfl, rfl⟩
    show bsw.bits + len = 8 * (if (bsw.off + len) / 8 ≠ 0 then
      bsw.fill + 1 else bsw.fill) + (bsw.off + len) % 8
    split_ifs <;> omega
  · obtain ⟨more, rfl⟩ : ∃ more, len = 8 - bsw.off + more := ⟨len - (8 - bsw.off), by omega⟩
    have hsplit : (List.range (8 - bsw.off + more)).map (bitAt src) =
        bitsOf (8 - bsw.off) (src 0).toNat ++ (List.range more).map fun i ↦
          bitAt src (8 - bsw.off + i) := by
      rw [List.range_add, List.map_append, List.map_map]
      congr 1
      refine List.map_congr_left fun i hi ↦ ?_
      rw [testBit_byte, decide_eq_true (by have := List.mem_range.mp hi; omega), Bool.true_and,
        Nat.mul_zero, Nat.zero_add]
    have hstored :=
      (hholds.fillUp (src 0).toNat).stored rfl (n := more) (fun i ↦ bitAt src (8 - bsw.off + i))
        (fun i ↦ UInt8.ofNat ((src i).toNat >>> (8 - bsw.off) ^^^ (src (i + 1)).toNat <<< bsw.off))
          True
        (UInt8.ofNat (((src (more / 8)).toNat >>> (8 - bsw.off) ^^^
          if bsw.off > more % 8 then 0 else (src (more / 8 + 1)).toNat <<< bsw.off) &&& mask
            (more % 8)))
        (fun hnot ↦ absurd trivial hnot)
        (fun i _ j hj ↦ by
          rw [testBit_ofNat_byte, decide_eq_true hj, Bool.true_and]
          exact testBit_across hoff src i j hj)
        (fun j hj ↦ by
          rw [testBit_masked _ _ _ hj, ← testBit_across hoff src (more / 8) j hj]
          by_cases hin : j < more % 8
          · rw [Nat.testBit_xor, Nat.testBit_xor]
            split_ifs with hless
            · rw [Nat.zero_testBit, Nat.testBit_shiftLeft,
                decide_eq_false (by omega : ¬j ≥ bsw.off), Bool.false_and]
            · rfl
          · rw [decide_eq_false hin, Bool.false_and, Bool.false_and])
    have hnext := (hholds.fillUp (src 0).toNat).aligned (n := more)
      (f := fun i ↦ bitAt src (8 - bsw.off + i)) rfl stored_before hstored
    rw [if_neg hfew, storeXor_ok hfill, hsplit, ← List.append_assoc, Nat.add_sub_cancel_left]
    refine ⟨_, ?_, hnext, rfl, rfl⟩
    show (storeMany _ _ _ _ >>= _) = _
    rw [storeMany_ok]
    · show (store _ _ _ >>= _) = _
      rw [store_ok]
      · refine congrArg Except.ok (Bsw.ext rfl rfl ?_ (Nat.add_assoc _ _ _).symm rfl ?_)
        · show bsw.fill + more / 8 + 1 = bsw.fill + 1 + more / 8
          omega
        · unfold fillUp BitWriter.stored
          dsimp only
          rw [if_pos trivial, xor_cut _ _ hoff]
      · show bsw.fill + 1 + more / 8 < bsw.size
        omega
    · show bsw.fill + 1 + more / 8 ≤ bsw.size
      omega

theorem writes_bex (n : ℕ) :
    Writes (fun bsw ↦ bswBexUnsafe bsw n) (List.replicate n false ++ [true]) := by
  intro bsw out hholds hroom
  rw [List.length_append, List.length_replicate] at hroom
  change bsw.bits + (n + 1) < 8 * bsw.size at hroom
  have hbits := hholds.bits
  have hoff := hholds.off
  have hbytes : ∀ k j, j < 8 → (Function.update bsw.bytes (bsw.fill + (n + bsw.off) / 8)
      (UInt8.ofNat ((bsw.bytes (bsw.fill + (n + bsw.off) / 8)).toNat ^^^ 1 <<< ((n + bsw.off) % 8)))
        k).toNat.testBit j =
      if 8 * k + j < bsw.bits then (bsw.bytes k).toNat.testBit j
      else (List.replicate n false ++ [true]).getD (8 * k + j - bsw.bits) false := by
    intro k j hj
    have hmore : ∀ i, (List.replicate n false ++ [true]).getD i false = decide (i = n) := by
      intro i
      obtain hlt | rfl | hgt := Nat.lt_trichotomy i n
      · rw [List.getD_append _ _ _ _ (by rw [List.length_replicate]; exact hlt),
          decide_eq_false (by omega)]
        simp [List.getD, hlt]
      · simp [List.getD]
      · rw [List.getD_eq_default _ _ (by simp; omega), decide_eq_false (by omega)]
    have hone : ∀ i, Nat.testBit 1 i = decide (i = 0) := by
      intro i
      rw [show Nat.testBit 1 i = (mask 1).testBit i from rfl, testBit_mask]
      congr 1
      rw [eq_iff_iff]
      omega
    have hold : (bsw.bytes k).toNat.testBit j = if 8 * k + j < bsw.bits then
        (bsw.bytes k).toNat.testBit j else false := by
      split_ifs with hlt
      · rfl
      · exact hholds.zero hj (by omega)
    rw [hmore]
    by_cases hk : k = bsw.fill + (n + bsw.off) / 8
    · rw [hk] at hold ⊢
      rw [Function.update_self, testBit_ofNat_byte, decide_eq_true hj, Bool.true_and,
        Nat.testBit_xor, Nat.testBit_shiftLeft, hone, hold]
      split_ifs with hlt
      · rw [← Bool.decide_and, decide_eq_false (by omega), Bool.xor_false]
      · rw [Bool.false_xor, ← Bool.decide_and]
        congr 1
        rw [eq_iff_iff]
        omega
    · rw [Function.update_of_ne hk, hold]
      split_ifs with hlt
      · rfl
      · exact (decide_eq_false fun heq ↦ hk (by omega)).symm
  dsimp only
  rw [bswBexUnsafe, @storeXor_ok bsw (bsw.fill + (n + bsw.off) / 8) (by omega)]
  by_cases hlast : (n + bsw.off) % 8 = 7
  · refine ⟨_, if_pos hlast, hholds.append ?_ (Nat.zero_lt_succ 7) ?_ hbytes, rfl, rfl⟩
    · show bsw.bits + (1 + n) = bsw.bits + (List.replicate n false ++ [true]).length
      rw [List.length_append, List.length_replicate, Nat.add_comm 1]
      rfl
    · show bsw.bits + (1 + n) = 8 * (bsw.fill + (n + bsw.off) / 8 + 1) + 0
      omega
  · refine ⟨_, if_neg hlast, hholds.append ?_ ?_ ?_ hbytes, rfl, rfl⟩
    · show bsw.bits + (1 + n) = bsw.bits + (List.replicate n false ++ [true]).length
      rw [List.length_append, List.length_replicate, Nat.add_comm 1]
      rfl
    · show (n + bsw.off) % 8 + 1 < 8
      omega
    · show bsw.bits + (1 + n) = 8 * (bsw.fill + (n + bsw.off) / 8) + ((n + bsw.off) % 8 + 1)
      omega

/-- The bits of a length and of what has it. -/
def matBits (len : ℕ) (body : List Bool) : List Bool :=
  if len = 0 then [true]
  else List.replicate len.size false ++ [true] ++ (bitsOf (len.size - 1) len ++ body)

theorem writes_mat (len : ℕ) {body : Bsw → Except Stop Bsw} {bits : List Bool}
    (hbody : Writes body bits) :
    Writes (fun bsw ↦ bswMatUnsafe bsw len body) (matBits len bits) := by
  unfold bswMatUnsafe matBits
  by_cases hlen : len = 0
  · simp only [if_pos hlen]
    exact writes_bit 1
  · simp only [if_neg hlen]
    exact (writes_bex len.size).bind ((writes_word (len.size - 1) len).bind hbody)

end Holds

/-! ### Runs -/

/-- The bits of an array in memory. -/
structure Src where
  len : ℕ
  byt : ℕ → UInt8
  fits : len ≤ 8 * mostBytes

/-- A call of a writer. -/
inductive Op
  | bit (val : UInt8)
  | bsw8 (len byt : UInt8)
  | bsw32 (len : UInt8) (val : UInt32)
  | bsw64 (len : UInt8) (val : UInt64)
  | bytes (src : Src)
  | bex (n : UInt8)
  | mat64 (len : UInt8) (val : UInt64)
  | matBytes (src : Src)
  | back64 (len : UInt8) (val : UInt64)
  | atom64 (len : UInt8) (val : UInt64)
  | atomBytes (src : Src)
  | cell

def Op.write (op : Op) (bsw : Bsw) : Except Stop Bsw :=
  match op with
  | .bit val => bswBit bsw val.toNat
  | .bsw8 len byt => BitWriter.bsw8 bsw len.toNat byt.toNat
  | .bsw32 len val => BitWriter.bsw32 bsw len.toNat val.toNat
  | .bsw64 len val => BitWriter.bsw64 bsw len.toNat val.toNat
  | .bytes src => bswBytes bsw src.len src.byt
  | .bex n => bswBex bsw n.toNat
  | .mat64 len val => bswMat64 bsw len.toNat val.toNat
  | .matBytes src => bswMatBytes bsw src.len src.byt
  | .back64 len val => bswBack64 bsw len.toNat val.toNat
  | .atom64 len val => bswAtom64 bsw len.toNat val.toNat
  | .atomBytes src => bswAtomBytes bsw src.len src.byt
  | .cell => bswCell bsw

def Src.bits (src : Src) : List Bool := (List.range src.len).map (bitAt src.byt)

/-- What a call appends, bit by bit. -/
def Op.bits : Op → List Bool
  | .bit val => bitsOf 1 val.toNat
  | .bsw8 len byt => bitsOf (min 8 len.toNat) byt.toNat
  | .bsw32 len val => bitsOf (min 32 len.toNat) val.toNat
  | .bsw64 len val => bitsOf (min 64 len.toNat) val.toNat
  | .bytes src => src.bits
  | .bex n => List.replicate n.toNat false ++ [true]
  | .mat64 len val => matBits (min 64 len.toNat) (bitsOf (min 64 len.toNat) val.toNat)
  | .matBytes src => matBits src.len src.bits
  | .back64 len val =>
    [true, true] ++ matBits (min 64 len.toNat) (bitsOf (min 64 len.toNat) val.toNat)
  | .atom64 len val => [false] ++ matBits (min 64 len.toNat) (bitsOf (min 64 len.toNat) val.toNat)
  | .atomBytes src => [false] ++ matBits src.len src.bits
  | .cell => [true, false]

/-- A run of calls. -/
def run : List Op → Bsw → Except Stop Bsw
  | [], bsw => .ok bsw
  | op :: ops, bsw => do run ops (← op.write bsw)

/-- The writer between two calls: there is a byte at the cursor, and the next growth step is
positive. -/
structure Ready (bsw : Bsw) (out : List Bool) : Prop where
  holds : Holds bsw out
  fill : bsw.fill < bsw.size
  prev : 0 < bsw.prev

/-- The buffer cannot grow for so many bits: it would be larger than objects are. -/
def Full (bsw : Bsw) (more : List Bool) : Prop :=
  mostBytes < bsw.size + max bsw.prev (more.length / 8 + 2)

/-- A call appends its bits, or runs out of memory for a buffer that is full. -/
def Appends (bsw : Bsw) (result : Except Stop Bsw) (out more : List Bool) : Prop :=
  (result = .error .abort ∧ Full bsw more) ∨ ∃ next, result = .ok next ∧ Ready next (out ++ more)

section Ready

variable {bsw : Bsw} {out more : List Bool}

theorem Ready.grow (hready : Ready bsw out) {step : ℕ} {next : Bsw}
    (hgrow : bswGrow bsw step = .ok next) :
    Ready next out ∧ next.fill = bsw.fill ∧ next.off = bsw.off ∧ next.bits = bsw.bits ∧
      next.size = bsw.size + step := by
  unfold bswGrow at hgrow
  split_ifs at hgrow
  obtain rfl := Except.ok.inj hgrow
  have hfill := hready.fill
  refine ⟨⟨⟨hready.holds.off, hready.holds.bits, hready.holds.length, fun k j hj ↦ ?_⟩, ?_, ?_⟩,
    rfl, rfl, rfl, rfl⟩
  · show (if k < bsw.size then bsw.bytes k else 0).toNat.testBit j = _
    rw [← hready.holds.bytes k j hj]
    split_ifs with hlt
    · rfl
    · have hbits := hready.holds.bits
      have hoff := hready.holds.off
      rw [hready.holds.zero hj (by omega)]
      exact Nat.zero_testBit j
  · show bsw.fill < bsw.size + step
    omega
  · show 0 < bsw.size
    omega

/-- Given room, a writer that does not look appends. -/
theorem Ready.write (hready : Ready bsw out) {op : Bsw → Except Stop Bsw} (hop : Writes op more)
    (hroom : bsw.bits + more.length < 8 * bsw.size) :
    ∃ next, op bsw = .ok next ∧ Ready next (out ++ more) := by
  obtain ⟨next, hok, hholds, hsize, hprev⟩ := hop bsw out hready.holds hroom
  have hlength := hholds.length
  have hbits := hholds.bits
  rw [List.length_append, hready.holds.length] at hlength
  exact ⟨next, hok, hholds, by omega, by rw [hprev]; exact hready.prev⟩

/-- A writer that grows the buffer first when it has to. -/
theorem Ready.growIf (hready : Ready bsw out) {op : Bsw → Except Stop Bsw} (hop : Writes op more)
    (P : Prop) [Decidable P] {step : ℕ} (hgrown : bsw.bits + more.length < 8 * (bsw.size + step))
    (hroom : ¬P → bsw.bits + more.length < 8 * bsw.size)
    (hstep : step ≤ max bsw.prev (more.length / 8 + 2)) :
    Appends bsw (bswGrowIf P bsw step >>= op) out more := by
  unfold bswGrowIf
  split_ifs with hP
  · cases hgrow : bswGrow bsw step with
    | error e =>
      unfold bswGrow at hgrow
      split_ifs at hgrow with hmost
      obtain rfl := Except.error.inj hgrow
      exact Or.inl ⟨rfl, (Nat.not_le.mp hmost).trans_le (Nat.add_le_add_left hstep _)⟩
    | ok next =>
      obtain ⟨hnext, -, -, hbits, hsize⟩ := hready.grow hgrow
      exact Or.inr (hnext.write hop (by omega))
  · exact Or.inr (hready.write hop (hroom hP))

/-- A writer that asks for as much as it needs. -/
theorem Ready.need (hready : Ready bsw out) {op : Bsw → Except Stop Bsw} (hop : Writes op more)
    {need : ℕ} (hneed : bsw.off + more.length ≤ 8 * need ∧ 8 * need ≤ bsw.off + more.length + 7) :
    Appends bsw (bswNeed bsw need >>= op) out more := by
  have hbits := hready.holds.bits
  have hfill := hready.fill
  have hmax := Nat.le_max_left need bsw.prev
  have hprev := Nat.le_max_right need bsw.prev
  have hpos := hready.prev
  have hoff := hready.holds.off
  exact hready.growIf hop _ (by omega) (by omega) (by omega)

theorem bloqUp3_le {a : ℕ} (hlt : a < 2 ^ 63) : a ≤ 8 * bloqUp3 a ∧ 8 * bloqUp3 a ≤ a + 7 := by
  unfold bloqUp3
  omega

theorem bloqUp3_byte {a : ℕ} (hlt : a < 2 ^ 10) :
    a ≤ 8 * (bloqUp3 a % 2 ^ 8) ∧ 8 * (bloqUp3 a % 2 ^ 8) ≤ a + 7 := by
  unfold bloqUp3
  omega

theorem length_matBits {len : ℕ} {body : List Bool} (hbody : body.length = len) :
    (matBits len body).length = matLen len := by
  unfold matBits matLen
  split_ifs with hzero
  · rfl
  · have hpos : 0 < len.size := Nat.size_pos.mpr (Nat.pos_of_ne_zero hzero)
    simp only [List.length_append, List.length_replicate, List.length_cons, List.length_nil,
      length_bitsOf, hbody]
    omega

theorem matLen_le {len most : ℕ} (hlt : len < 2 ^ most) : matLen len ≤ len + 2 * most + 1 := by
  have hsize : len.size ≤ most := Nat.size_le.mpr hlt
  unfold matLen
  split_ifs <;> omega

/-- The bits of a number with its length in front. -/
theorem writes_mat64 (len val : ℕ) :
    Writes (fun bsw ↦ bswMat64Unsafe bsw len val) (matBits len (bitsOf len val)) :=
  writes_mat len (writes_word len val)

theorem writes_matBytes (src : Src) :
    Writes (fun bsw ↦ bswMatBytesUnsafe bsw src.len src.byt) (matBits src.len src.bits) :=
  writes_mat src.len (writes_bytes src.len src.byt)

theorem Src.length_bits (src : Src) : src.bits.length = src.len := by simp [Src.bits]

theorem Ready.bit (hready : Ready bsw out) (bit : ℕ) :
    Appends bsw (bswBit bsw bit) out (bitsOf 1 bit) := by
  have hbits := hready.holds.bits
  have hoff := hready.holds.off
  have hfill := hready.fill
  have hprev := hready.prev
  refine hready.growIf (writes_bit bit) (bsw.off = 7 ∧ 1 + bsw.fill = bsw.size) ?_ (fun hroom ↦ ?_)
    (le_max_left ..)
  · rw [length_bitsOf]
    omega
  · rw [length_bitsOf]
    omega

theorem Ready.bsw8 (hready : Ready bsw out) (len byt : ℕ) :
    Appends bsw (BitWriter.bsw8 bsw len byt) out (bitsOf (min 8 len) byt) := by
  have hbits := hready.holds.bits
  have hoff := hready.holds.off
  have hfill := hready.fill
  have hprev := hready.prev
  have hlen := Nat.min_le_left 8 len
  refine hready.growIf (writes_8 hlen byt)
    (bsw.fill + (if (bsw.off + min 8 len) / 8 ≠ 0 then 1 else 0) ≥ bsw.size) ?_ (fun hroom ↦ ?_)
      (le_max_left ..)
  · rw [length_bitsOf]
    omega
  · rw [length_bitsOf]
    split_ifs at hroom <;> omega

/-- Every call appends its bits. -/
theorem Ready.op (hready : Ready bsw out) (op : Op) : Appends bsw (op.write bsw) out op.bits := by
  have hoff := hready.holds.off
  have hmost : mostBytes = 2 ^ 57 := rfl
  have hword : ∀ len : ℕ, matLen (min 64 len) ≤ 79 := fun len ↦
    (@matLen_le (min 64 len) 7 (by omega)).trans (by omega)
  cases op with
  | bit val => exact hready.bit val.toNat
  | bsw8 len byt => exact hready.bsw8 len.toNat byt.toNat
  | bsw32 len val =>
    exact hready.need (writes_word _ _) (by rw [length_bitsOf]; exact bloqUp3_byte (by omega))
  | bsw64 len val =>
    exact hready.need (writes_word _ _) (by rw [length_bitsOf]; exact bloqUp3_byte (by omega))
  | bytes src =>
    have hfits := src.fits
    refine hready.need (writes_bytes src.len src.byt) ?_
    rw [List.length_map, List.length_range, Nat.add_comm]
    exact bloqUp3_le (by omega)
  | bex n =>
    have hn := n.toNat_lt
    refine hready.need (writes_bex n.toNat) ?_
    have hneed := @bloqUp3_le (1 + n.toNat + bsw.off) (by omega)
    simp only [List.length_append, List.length_replicate, List.length_cons, List.length_nil]
    omega
  | mat64 len val =>
    refine hready.need (writes_mat64 _ _) ?_
    rw [length_matBits (length_bitsOf _ _)]
    exact bloqUp3_byte (by have := hword len.toNat; omega)
  | matBytes src =>
    have hfits := src.fits
    have hlen := @matLen_le src.len 61 (by omega)
    refine hready.need (writes_matBytes src) ?_
    rw [length_matBits src.length_bits]
    exact bloqUp3_le (by omega)
  | back64 len val =>
    refine hready.need ((writes_8 (show 2 ≤ 8 by decide) 3).bind (writes_mat64 _ _)) ?_
    rw [List.length_append, length_matBits (length_bitsOf _ _), length_bitsOf]
    have hneed :=
      @bloqUp3_byte (2 + bsw.off + matLen (min 64 len.toNat)) (by have := hword len.toNat; omega)
    omega
  | atom64 len val =>
    refine hready.need ((writes_bit 0).bind (writes_mat64 _ _)) ?_
    rw [List.length_append, length_matBits (length_bitsOf _ _), length_bitsOf]
    have hneed :=
      @bloqUp3_byte (1 + bsw.off + matLen (min 64 len.toNat)) (by have := hword len.toNat; omega)
    omega
  | atomBytes src =>
    have hfits := src.fits
    have hlen := @matLen_le src.len 61 (by omega)
    refine hready.need ((writes_bit 0).bind (writes_matBytes src)) ?_
    rw [List.length_append, length_matBits src.length_bits, length_bitsOf]
    have hneed := @bloqUp3_le (1 + bsw.off + matLen src.len) (by omega)
    omega
  | cell =>
    refine hready.need (writes_8 (show 2 ≤ 8 by decide) 1) ?_
    rw [length_bitsOf]
    have hneed := @bloqUp3_byte (2 + bsw.off) (by omega)
    omega

theorem run_appends (ops : List Op) (hready : Ready bsw out) :
    (run ops bsw = .error .abort ∧ ∃ before op after full, ops = before ++ op :: after ∧
    run before bsw = .ok full ∧
      Full full op.bits) ∨ ∃ next, run ops bsw = .ok next ∧
      Ready next (out ++ ops.flatMap Op.bits) := by
  induction ops generalizing bsw out with
  | nil =>
    rw [List.flatMap_nil, List.append_nil]
    exact Or.inr ⟨bsw, rfl, hready⟩
  | cons op ops ih =>
    rw [run, List.flatMap_cons, ← List.append_assoc]
    obtain ⟨habort, hfull⟩ | ⟨next, hok, hnext⟩ := hready.op op
    · rw [habort]
      exact Or.inl ⟨rfl, [], op, ops, bsw, rfl, rfl, hfull⟩
    · rw [hok]
      refine (ih hnext).imp_left fun ⟨habort, before, op', after, full, hops, hrun, hfull⟩ ↦ ?_
      refine ⟨habort, op :: before, op', after, full, by rw [hops]; rfl, ?_, hfull⟩
      rw [run, hok]
      exact hrun

/-- What the buffer of a writer is: the bits that were written, and zeros behind them. -/
structure Wrote (bsw : Bsw) (out : List Bool) : Prop where
  bits : bsw.bits = 8 * bsw.fill + bsw.off ∧ bsw.off < 8
  length : out.length = bsw.bits
  room : bsw.fill < bsw.size
  bytes : ∀ i, bitAt bsw.bytes i = out.getD i false

/-- From a buffer with a first byte and a first growth step, every run of calls has all the room
that it writes in: it ends with the bits that were written, or aborts at a buffer that is full. -/
theorem bsw_run {prev size : ℕ} (hprev : 0 < prev) (hsize : 0 < size) (ops : List Op) :
    match bswInit prev size >>= run ops with
    | .ok bsw => Wrote bsw (ops.flatMap Op.bits)
    | .error e =>
      e = .abort ∧ (mostBytes < size ∨ ∃ before op after full, ops = before ++ op :: after ∧
        bswInit prev size >>= run before = .ok full ∧ Full full op.bits) := by
  unfold bswInit
  split_ifs with hmost
  · have hready : Ready ⟨prev, size, 0, 0, 0, fun _ ↦ 0⟩ [] :=
      ⟨⟨Nat.zero_lt_succ 7, rfl, rfl, fun _ j _ ↦ Nat.zero_testBit j⟩, hsize, hprev⟩
    obtain ⟨habort, hfull⟩ | ⟨bsw, hok, hbsw⟩ := run_appends ops hready
    · show match run ops _ with | .ok bsw => _ | .error e => _
      rw [habort]
      exact ⟨rfl, .inr hfull⟩
    · show match run ops _ with | .ok bsw => _ | .error e => _
      rw [hok]
      refine ⟨⟨hbsw.holds.bits, hbsw.holds.off⟩, hbsw.holds.length, hbsw.fill, fun i ↦ ?_⟩
      rw [bitAt, hbsw.holds.bytes (i / 8) (i % 8) (Nat.mod_lt _ (by decide)), List.nil_append]
      congr 1
      omega
  · exact ⟨rfl, .inl (Nat.not_le.mp hmost)⟩

/-- A cell of two atoms. -/
theorem bsw_run_cell : ∃ bsw, bswInit 1 1 >>= run [.cell, .atom64 1 1, .atom64 0 0] = .ok bsw ∧
    Wrote bsw ([Op.cell, .atom64 1 1, .atom64 0 0].flatMap Op.bits) :=
  ⟨_, rfl, @bsw_run 1 1 (by decide) (by decide) [.cell, .atom64 1 1, .atom64 0 0]⟩

/-- Without a first byte the first bit is stored behind the buffer. -/
theorem bswBit_empty : bswInit 1 0 >>= run [.bit 1] = .error .overflow := rfl

end Ready

end Vere.Ur.BitWriter