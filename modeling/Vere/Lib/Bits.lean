import Mathlib.Data.Nat.Bitwise
import Mathlib.Data.Nat.Size
import Mathlib.Tactic.Ring

/-!
# Bit strings

Natural numbers as bit strings with the least significant bit first, and bit strings packed into
bytes. Everything is read off the bits: `testBit_ofBits`, and `testBit_word` for the bytes of a
memory.
-/

set_option autoImplicit false

namespace Vere.Lib.Bits

/-- The number with the given bits. -/
def ofBits : List Bool → ℕ
  | [] => 0
  | bit :: bits => bit.toNat + 2 * ofBits bits

/-- The low bits of a number. -/
def bitsOf (len n : ℕ) : List Bool := (List.range len).map n.testBit

@[simp] theorem length_bitsOf (len n : ℕ) : (bitsOf len n).length = len := by
  simp [bitsOf]

theorem testBit_ofBits (bits : List Bool) (i : ℕ) :
    (ofBits bits).testBit i = bits.getD i false := by
  induction bits generalizing i with
  | nil => simp [ofBits]
  | cons bit bits ih =>
    cases i with
    | zero => cases bit <;> simp [ofBits]
    | succ i =>
      rw [Nat.testBit_succ, List.getD_cons_succ, ← ih]
      congr 1
      cases bit <;>
        (simp [ofBits]; try omega)

theorem getD_bitsOf (len n i : ℕ) :
    (bitsOf len n).getD i false = (decide (i < len) && n.testBit i) := by
  by_cases hlt : i < len
  · simp [bitsOf, List.getD, hlt]
  · simp [bitsOf, List.getD, hlt]

theorem ofBits_bitsOf (len n : ℕ) : ofBits (bitsOf len n) = n % 2 ^ len := by
  refine Nat.eq_of_testBit_eq fun i ↦ ?_
  rw [testBit_ofBits, getD_bitsOf, Nat.testBit_mod_two_pow]

theorem ofBits_lt (bits : List Bool) : ofBits bits < 2 ^ bits.length := by
  refine Nat.lt_pow_two_of_testBit _ fun i hi ↦ ?_
  rw [testBit_ofBits, List.getD_eq_default _ _ hi]

theorem ofBits_take (bits : List Bool) (len : ℕ) :
    ofBits (bits.take len) = ofBits bits % 2 ^ len := by
  refine Nat.eq_of_testBit_eq fun i ↦ ?_
  rw [testBit_ofBits, Nat.testBit_mod_two_pow, testBit_ofBits]
  by_cases hlt : i < len
  · simp [List.getD, hlt]
  · simp [List.getD, hlt]

theorem ofBits_take_lt {bits : List Bool} {len most : ℕ} (hle : len ≤ most) :
    ofBits (bits.take len) < 2 ^ most := by
  rw [ofBits_take]
  exact (Nat.mod_lt _ (Nat.two_pow_pos len)).trans_le (Nat.pow_le_pow_right (by decide) hle)

theorem ofBits_drop (bits : List Bool) (len : ℕ) :
    ofBits (bits.drop len) = ofBits bits / 2 ^ len := by
  refine Nat.eq_of_testBit_eq fun i ↦ ?_
  rw [testBit_ofBits, Nat.testBit_div_two_pow, testBit_ofBits]
  simp [List.getD, Nat.add_comm]

theorem ofBits_replicate_false (len : ℕ) : ofBits (List.replicate len false) = 0 := by
  refine Nat.eq_of_testBit_eq fun i ↦ ?_
  rw [testBit_ofBits]
  by_cases hlt : i < len
  · simp [List.getD, hlt]
  · simp [List.getD, hlt]

theorem ofBits_append (bits more : List Bool) :
    ofBits (bits ++ more) = ofBits bits + 2 ^ bits.length * ofBits more := by
  induction bits with
  | nil => simp [ofBits]
  | cons bit bits ih =>
    simp only [List.cons_append, ofBits, ih, List.length_cons, Nat.pow_succ]
    ring

/-! ### Bytes -/

/-- The bits of a byte string. -/
def unpack (bytes : List UInt8) : List Bool := bytes.flatMap fun byte ↦ bitsOf 8 byte.toNat

/-- The bits in bytes, with zeros in the rest of the last byte. -/
def pack (bits : List Bool) : List UInt8 :=
  if bits.length = 0 then [] else UInt8.ofNat (ofBits (bits.take 8)) :: pack (bits.drop 8)
termination_by bits.length
decreasing_by
  rw [List.length_drop]
  omega

theorem length_unpack (bytes : List UInt8) : (unpack bytes).length = 8 * bytes.length := by
  induction bytes with
  | nil => rfl
  | cons byte bytes ih =>
    rw [unpack, List.flatMap_cons, List.length_append, length_bitsOf]
    rw [unpack] at ih
    rw [ih, List.length_cons]
    omega

theorem unpack_replicate_zero (k : ℕ) :
    unpack (List.replicate k 0) = List.replicate (8 * k) false := by
  induction k with
  | zero => rfl
  | succ k ih =>
    rw [unpack] at ih
    rw [List.replicate_succ, unpack, List.flatMap_cons, ih, Nat.mul_succ, Nat.add_comm,
      ← List.replicate_append_replicate]
    rfl

theorem length_pack (bits : List Bool) : (pack bits).length = (bits.length + 7) / 8 := by
  fun_induction pack bits with
  | case1 bits hnil => simp [hnil]
  | case2 bits hcons ih =>
    rw [List.length_cons, ih, List.length_drop]
    omega

/-- The bits of a number of at most that many bits, with the zeros above it. -/
theorem bitsOf_ofBits {bits : List Bool} {len : ℕ} (hle : bits.length ≤ len) :
    bitsOf len (ofBits bits) = bits ++ List.replicate (len - bits.length) false := by
  refine List.ext_getElem (by simp; omega) fun i hi hi' ↦ ?_
  simp only [bitsOf, List.getElem_map, List.getElem_range, testBit_ofBits]
  by_cases hlt : i < bits.length
  · rw [List.getElem_append_left hlt, List.getD_eq_getElem _ _ hlt]
  · rw [List.getElem_append_right (by omega), List.getD_eq_default _ _ (by omega),
      List.getElem_replicate]

/-- Unpacking gives the bits back, up to the zeros in the last byte. -/
theorem unpack_pack (bits : List Bool) :
    ∃ pad, unpack (pack bits) = bits ++ List.replicate pad false := by
  fun_induction pack bits with
  | case1 bits hnil =>
    rw [List.length_eq_zero_iff] at hnil
    exact ⟨0, by simp [hnil, unpack]⟩
  | case2 bits hcons ih =>
    obtain ⟨pad, hpad⟩ := ih
    have hlt : ofBits (bits.take 8) < 2 ^ 8 := by
      rw [ofBits_take]
      exact Nat.mod_lt _ (by decide)
    have hbyte : (UInt8.ofNat (ofBits (bits.take 8))).toNat = ofBits (bits.take 8) := by
      simpa using hlt
    refine ⟨8 - (bits.take 8).length + pad, ?_⟩
    rw [unpack, List.flatMap_cons, hbyte, bitsOf_ofBits (by simp)]
    rw [unpack] at hpad
    rw [hpad]
    by_cases hfull : 8 ≤ bits.length
    · have hlength : (bits.take 8).length = 8 := by simp [hfull]
      rw [hlength, Nat.sub_self, List.replicate_zero, List.append_nil, Nat.zero_add,
        ← List.append_assoc, List.take_append_drop]
    · have hdrop : bits.drop 8 = [] := List.drop_eq_nil_of_le (by omega)
      have htake : bits.take 8 = bits := List.take_of_length_le (by omega)
      simp only [hdrop, htake, List.nil_append, List.append_assoc, List.replicate_append_replicate]

/-- The number with ones in its low bits. -/
def mask (n : ℕ) : ℕ := 1 <<< n - 1

theorem testBit_mask (n j : ℕ) : (mask n).testBit j = decide (j < n) := by
  rw [mask, Nat.one_shiftLeft, Nat.testBit_two_pow_sub_one]

/-! ### Bits of a memory -/

/-- The bit at an address that counts bits. -/
def bitAt (mem : ℕ → UInt8) (i : ℕ) : Bool := (mem (i / 8)).toNat.testBit (i % 8)

/-- Bytes from an address on as a number, the low byte first. -/
def word (mem : ℕ → UInt8) (b : ℕ) : ℕ → ℕ
  | 0 => 0
  | k + 1 => word mem b k ^^^ ((mem (b + k)).toNat <<< (8 * k))

theorem testBit_byte (mem : ℕ → UInt8) (b j : ℕ) :
    (mem b).toNat.testBit j = (decide (j < 8) && bitAt mem (8 * b + j)) := by
  by_cases hlt : j < 8
  · rw [bitAt, show (8 * b + j) / 8 = b by omega, show (8 * b + j) % 8 = j by omega]
    simp [hlt]
  · rw [Nat.testBit_lt_two_pow]
    · simp [hlt]
    · calc (mem b).toNat < 2 ^ 8 := (mem b).toNat_lt
        _ ≤ 2 ^ j := Nat.pow_le_pow_right (by decide) (by omega)

theorem testBit_word (mem : ℕ → UInt8) (b k j : ℕ) :
    (word mem b k).testBit j = (decide (j < 8 * k) && bitAt mem (8 * b + j)) := by
  induction k with
  | zero => simp [word]
  | succ k ih =>
    rw [word, Nat.testBit_xor, ih, Nat.testBit_shiftLeft, testBit_byte]
    by_cases hlow : j < 8 * k
    · have hnot : ¬8 * k ≤ j := by omega
      have hlt : j < 8 * (k + 1) := by omega
      simp [hlow, hnot, hlt]
    · have hge : 8 * k ≤ j := by omega
      have haddr : 8 * (b + k) + (j - 8 * k) = 8 * b + j := by omega
      have hiff : j - 8 * k < 8 ↔ j < 8 * (k + 1) := by omega
      simp [hlow, hge, haddr, hiff]

theorem testBit_ofNat_byte (n j : ℕ) :
    (UInt8.ofNat n).toNat.testBit j = (decide (j < 8) && n.testBit j) := by
  rw [UInt8.toNat_ofNat', Nat.testBit_mod_two_pow]

end Vere.Lib.Bits
