import Mathlib.Data.List.Basic
import Mathlib.Data.Nat.Bitwise
import Mathlib.Data.Nat.Size
import Mathlib.Tactic.Ring

/-!
# Byte strings

Numbers as byte strings, the least significant byte first. `value` and `spell` are inverse for
strings of a fixed length. A number by itself has no length: `bytesOf` are its bytes up to the last
that is not zero, and a string is those of its value with the zeros behind them (`exists_zeros`), so
that only strings without such zeros come back (`bytesOf_value`).
-/

set_option autoImplicit false

namespace Vere.Lib.Bytes

/-! ### Strings of a fixed length -/

/-- The number of a byte string. -/
def value : List UInt8 → ℕ
  | [] => 0
  | byte :: bytes => byte.toNat + 256 * value bytes

/-- The low bytes of a number. -/
def spell : ℕ → ℕ → List UInt8
  | 0, _ => []
  | len + 1, n => UInt8.ofNat n :: spell len (n / 256)

@[simp] theorem length_spell (len n : ℕ) : (spell len n).length = len := by
  induction len generalizing n with
  | zero => rfl
  | succ len ih => rw [spell, List.length_cons, ih]

theorem value_lt (bytes : List UInt8) : value bytes < 256 ^ bytes.length := by
  induction bytes with
  | nil => exact Nat.one_pos
  | cons byte bytes ih =>
    have hbyte := byte.toNat_lt
    rw [value, List.length_cons, Nat.pow_succ]
    omega

theorem value_spell (len n : ℕ) : value (spell len n) = n % 256 ^ len := by
  induction len generalizing n with
  | zero => rw [Nat.pow_zero, Nat.mod_one, spell, value]
  | succ len ih =>
    have hbyte : (UInt8.ofNat n).toNat = n % 256 := UInt8.toNat_ofNat'
    rw [spell, value, ih, hbyte, Nat.pow_succ', Nat.mod_mul]

theorem value_spell_of_lt {len n : ℕ} (hlt : n < 256 ^ len) : value (spell len n) = n := by
  rw [value_spell, Nat.mod_eq_of_lt hlt]

theorem spell_value (bytes : List UInt8) : spell bytes.length (value bytes) = bytes := by
  induction bytes with
  | nil => rfl
  | cons byte bytes ih =>
    have hbyte := byte.toNat_lt
    have hhead : UInt8.ofNat (byte.toNat + 256 * value bytes) = byte := by
      apply UInt8.toNat_inj.mp
      rw [UInt8.toNat_ofNat']
      omega
    have htail : (byte.toNat + 256 * value bytes) / 256 = value bytes := by omega
    rw [List.length_cons, value, spell, hhead, htail, ih]

theorem spell_zero (len : ℕ) : spell len 0 = List.replicate len 0 := by
  induction len with
  | zero => rfl
  | succ len ih =>
    rw [spell, Nat.zero_div, ih]
    rfl

theorem spell_add (len more n : ℕ) :
    spell (len + more) n = spell len n ++ spell more (n / 256 ^ len) := by
  induction len generalizing n with
  | zero => rw [Nat.zero_add, Nat.pow_zero, Nat.div_one, spell, List.nil_append]
  | succ len ih =>
    rw [Nat.succ_add, spell, spell, ih, List.cons_append, Nat.div_div_eq_div_mul, Nat.pow_succ,
      Nat.mul_comm 256]

/-! ### Numbers without a length -/

/-- The number of bytes of a number. -/
def met (n : ℕ) : ℕ := (n.size + 7) / 8

/-- The bytes of a number, up to the last that is not zero. -/
def bytesOf (n : ℕ) : List UInt8 := spell (met n) n

theorem met_le_iff {n len : ℕ} : met n ≤ len ↔ n < 256 ^ len := by
  have hpow : 256 ^ len = 2 ^ (8 * len) := by rw [Nat.pow_mul]
  rw [hpow, ← Nat.size_le, met]
  omega

/-- A string is the bytes of its value, and zeros. -/
theorem exists_zeros (bytes : List UInt8) :
    bytes = bytesOf (value bytes) ++ List.replicate (bytes.length - met (value bytes)) 0 := by
  have hle : met (value bytes) ≤ bytes.length := (met_le_iff).mpr (value_lt bytes)
  have hsmall : value bytes / 256 ^ met (value bytes) = 0 :=
    Nat.div_eq_of_lt ((met_le_iff).mp le_rfl)
  have hsplit := spell_add (met (value bytes)) (bytes.length - met (value bytes)) (value bytes)
  rw [Nat.add_sub_cancel' hle, spell_value, hsmall, spell_zero] at hsplit
  exact hsplit

/-- A string whose last byte is not zero comes back. -/
theorem bytesOf_value {bytes : List UInt8} (hlast : bytes.getLast? ≠ some 0) :
    bytesOf (value bytes) = bytes := by
  have hzeros := exists_zeros bytes
  cases hmore : bytes.length - met (value bytes) with
  | zero =>
    rw [hmore, List.replicate_zero, List.append_nil] at hzeros
    exact hzeros.symm
  | succ more =>
    rw [hmore, List.replicate_succ', ← List.append_assoc] at hzeros
    rw [hzeros, List.getLast?_concat] at hlast
    exact absurd rfl hlast

/-- A string whose last byte is zero loses it. -/
theorem length_bytesOf_lt {bytes : List UInt8} (hlast : bytes.getLast? = some 0) :
    (bytesOf (value bytes)).length < bytes.length := by
  obtain ⟨front, rfl⟩ := List.getLast?_eq_some_iff.mp hlast
  have hvalue : value (front ++ [0]) = value front := by
    induction front with
    | nil => rfl
    | cons byte front ih =>
      rw [List.cons_append, value, value, ih]
      rw [List.cons_append, List.getLast?_cons_of_ne_nil (by simp)] at hlast
      exact hlast
  rw [hvalue, bytesOf, length_spell, List.length_append]
  exact Nat.lt_succ_of_le ((met_le_iff).mpr (value_lt front))

theorem value_bytesOf (n : ℕ) : value (bytesOf n) = n := value_spell_of_lt ((met_le_iff).mp le_rfl)

/-- The bytes of a number do not end with a zero. -/
theorem getLast?_bytesOf (n : ℕ) : (bytesOf n).getLast? ≠ some 0 := by
  intro hlast
  have hlt := length_bytesOf_lt hlast
  rw [value_bytesOf] at hlt
  exact Nat.lt_irrefl _ hlt

theorem value_zeros (len : ℕ) : value (List.replicate len 0) = 0 := by
  induction len with
  | zero => rfl
  | succ len ih => simp [List.replicate_succ, value, ih]

theorem value_append_zeros (bytes : List UInt8) (len : ℕ) :
    value (bytes ++ List.replicate len 0) = value bytes := by
  induction bytes with
  | nil => rw [List.nil_append, value_zeros, value]
  | cons byte bytes ih => rw [List.cons_append, value, ih, value]

theorem size_div_two_pow (n k : ℕ) : (n / 2 ^ k).size = n.size - k := by
  refine eq_of_forall_ge_iff fun m ↦ ?_
  rw [Nat.size_le, Nat.div_lt_iff_lt_mul (Nat.two_pow_pos k), ← Nat.pow_add, ← Nat.size_le,
    Nat.sub_le_iff_le_add]

/-- The last byte of a number other than zero has the bits that are left over the other bytes. -/
theorem bytesOf_eq_concat {n : ℕ} (hpos : n ≠ 0) :
    ∃ bytes last, bytesOf n = bytes ++ [UInt8.ofNat last] ∧
    last < 256 ∧ last ≠ 0 ∧ n.size = 8 * bytes.length + last.size := by
  have hsize : 0 < n.size := Nat.size_pos.mpr (Nat.pos_of_ne_zero hpos)
  obtain ⟨len, hlen⟩ : ∃ len, met n = len + 1 := ⟨met n - 1, by rw [met]; omega⟩
  have hpow : 256 ^ len = 2 ^ (8 * len) := by rw [Nat.pow_mul]
  have hlast : (n / 256 ^ len).size = n.size - 8 * len := by rw [hpow, size_div_two_pow]
  have hmet : met n = (n.size + 7) / 8 := rfl
  refine ⟨spell len n, n / 256 ^ len, ?_, ?_, ?_, ?_⟩
  · rw [bytesOf, hlen, spell_add]
    rfl
  · have hlt : n < 256 ^ (len + 1) := (met_le_iff).mp (Nat.le_of_eq hlen)
    rw [Nat.div_lt_iff_lt_mul (Nat.pow_pos (by decide)), Nat.mul_comm, ← Nat.pow_succ]
    exact hlt
  · rw [← Nat.pos_iff_ne_zero, ← Nat.size_pos, hlast]
    omega
  · rw [length_spell, hlast]
    omega

end Vere.Lib.Bytes
