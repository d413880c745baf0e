import Mathlib.Data.List.Basic
import Mathlib.Data.List.TakeWhile
import Vere.Lib.Bits

/-!
# Bit streams

`pkg/ur/bitstream.c`: the reader and the writer that the codecs share, as operations on the bits of
the stream. The reader is the bits that are left and the cursor; the writer is the bits written and
their number. A number is written as a `mat`, its length in unary and binary before its own bits,
and `rub_mat` says that reading it back gives the number and the bits after it.
-/

set_option autoImplicit false

namespace Vere.Ur

open Lib.Bits

/-- `ur_cue_res_e`, other than `ur_cue_good`. -/
inductive CueRes
  | back : CueRes
  | gone : CueRes
  | meme : CueRes
  deriving DecidableEq, Repr

/-- `ur_cue_tag_e`. -/
inductive CueTag
  | atom : CueTag
  | cell : CueTag
  | back : CueTag
  deriving DecidableEq, Repr

/-! ### The reader -/

/-- `ur_bsr_t`: the cursor and the bits left. -/
structure Bsr where
  bits : ℕ
  rest : List Bool

/-- The reader past a number of bits. -/
def Bsr.skip (bsr : Bsr) (len : ℕ) : Bsr := ⟨bsr.bits + len, bsr.rest.drop len⟩

/-- `ur_bsr_init()`, on at most `2 ^ 59` bytes. -/
def bsrInit (bytes : List UInt8) : Bsr := ⟨0, unpack bytes⟩

/-- `ur_bsr64_any()`: the next bits, and zeros past the end of the stream. -/
def bsr64Any (bsr : Bsr) (len : ℕ) : ℕ × Bsr :=
  let len := min 64 len
  (ofBits (bsr.rest.take len), bsr.skip len)

/-- What `ur_bsr_bytes_any()` gives past the end of the stream: the number, the cursor, and how many
of the bits left are skipped. -/
abbrev Past := Bsr → ℕ → ℕ × ℕ × ℕ

/-- `ur_bsr_bytes_any()`. -/
def bsrBytesAny (past : Past) (bsr : Bsr) (len : ℕ) : ℕ × Bsr :=
  if len ≤ bsr.rest.length then (ofBits (bsr.rest.take len), bsr.skip len)
  else
    let (val, bits, len) := past bsr len
    (val, ⟨bits, bsr.rest.drop len⟩)

/-- `ur_bsr_tag()`. -/
def bsrTag (bsr : Bsr) : Except CueRes (CueTag × Bsr) :=
  match bsr.rest with
  | [] => .error .gone
  | false :: _ => .ok (.atom, bsr.skip 1)
  | [true] => .error .gone
  | true :: false :: _ => .ok (.cell, bsr.skip 2)
  | true :: true :: _ => .ok (.back, bsr.skip 2)

/-- `ur_bsr_log()`: the number of zeros before the next one. -/
def bsrLog (bsr : Bsr) : Except CueRes (ℕ × Bsr) :=
  let zeros := (bsr.rest.takeWhile fun bit ↦ !bit).length
  if zeros < bsr.rest.length then
    if 255 < zeros then .error .meme else .ok (zeros, bsr.skip (zeros + 1))
  else if bsr.rest.length ≤ 256 then .error .gone
  else .error .meme

/-- `ur_bsr_rub_len()`. -/
def bsrRubLen (bsr : Bsr) : Except CueRes (ℕ × Bsr) :=
  match bsrLog bsr with
  | .error res => .error res
  | .ok (len, bsr) =>
    if 64 ≤ len then .error .meme
    else
      match len with
      | 0 => .ok (0, bsr)
      | 1 => .ok (1, bsr)
      | len + 1 =>
        let (val, bsr) := bsr64Any bsr len
        .ok (val ^^^ (1 <<< len), bsr)

/-! ### The writer -/

/-- `ur_bsw_t`: the number of bits written and the bits. -/
structure Bsw where
  bits : ℕ
  out : List Bool

/-- Append bits and count them. -/
def Bsw.write (bsw : Bsw) (more : List Bool) : Bsw :=
  ⟨(bsw.bits + more.length) % 2 ^ 64, bsw.out ++ more⟩

/-- `ur_bsw_init()`. -/
def bswInit : Bsw := ⟨0, []⟩

/-- `ur_bsw_done()`: the number of bits and the bytes. -/
def bswDone (bsw : Bsw) : ℕ × List UInt8 := (bsw.bits, pack bsw.out)

/-- `_bsw_bit_unsafe()`. -/
def bswBit (bsw : Bsw) (bit : Bool) : Bsw := bsw.write [bit]

/-- `_bsw8_unsafe()`, `_bsw64_unsafe()` and `_bsw_bytes_unsafe()`: the low bits of a value. -/
def bswBits (bsw : Bsw) (len val : ℕ) : Bsw := bsw.write (bitsOf len val)

/-- `_bsw_bex_unsafe()`. -/
def bswBex (bsw : Bsw) (n : ℕ) : Bsw := bsw.write (List.replicate n false ++ [true])

/-- `_bsw_mat64_unsafe()` and `_bsw_mat_bytes_unsafe()`. -/
def bswMat (bsw : Bsw) (len val : ℕ) : Bsw :=
  if len = 0 then bswBit bsw true
  else
    let nel := len.size
    bswBits (bswBits (bswBex bsw nel) (nel - 1) len) len val

/-- `ur_bsw_back64()`, of a length that is one byte. -/
def bswBack64 (bsw : Bsw) (len val : ℕ) : Bsw :=
  bswMat (bswBits bsw 2 3) (min 64 (len % 2 ^ 8)) val

/-- `ur_bsw_atom64()`, of a length that is one byte. -/
def bswAtom64 (bsw : Bsw) (len val : ℕ) : Bsw :=
  bswMat (bswBit bsw false) (min 64 (len % 2 ^ 8)) val

/-- `ur_bsw_atom_bytes()`. -/
def bswAtomBytes (bsw : Bsw) (len val : ℕ) : Bsw := bswMat (bswBit bsw false) len val

/-- `ur_bsw_cell()`. -/
def bswCell (bsw : Bsw) : Bsw := bswBits bsw 2 1

/-! ### Length-prefixed numbers -/

/-- The bits of a length-prefixed number. -/
def mat (a : ℕ) : List Bool :=
  if a = 0 then [true]
  else List.replicate a.size.size false ++ true ::
    (bitsOf (a.size.size - 1) a.size ++ bitsOf a.size a)

theorem Bsw.write_write (bsw : Bsw) (more last : List Bool) :
    (bsw.write more).write last = bsw.write (more ++ last) := by
  simp [Bsw.write, Nat.add_assoc]

/-- Writing a number with its own length. -/
theorem bswMat_size (bsw : Bsw) (a : ℕ) : bswMat bsw a.size a = bsw.write (mat a) := by
  by_cases hzero : a = 0
  · simp [bswMat, mat, hzero, bswBit]
  · have hsize : a.size ≠ 0 := fun heq ↦ hzero (Nat.size_eq_zero.mp heq)
    simp [bswMat, mat, hzero, hsize, bswBits, bswBex, Bsw.write_write]

theorem length_mat (a : ℕ) : (mat a).length = if a = 0 then 1 else a.size + 2 * a.size.size := by
  by_cases hzero : a = 0
  · simp [mat, hzero]
  · have hpos : 0 < a.size.size := Nat.size_pos.mpr (Nat.size_pos.mpr (Nat.pos_of_ne_zero hzero))
    simp [mat, hzero]
    omega

theorem xor_two_pow_of_lt {val len : ℕ} (hlt : val < 2 ^ len) :
    val ^^^ (1 <<< len) = 2 ^ len + val := by
  rw [Nat.one_shiftLeft]
  refine Nat.eq_of_testBit_eq fun i ↦ ?_
  rw [Nat.testBit_xor, Nat.testBit_two_pow]
  rcases Nat.lt_trichotomy i len with hi | rfl | hi
  · rw [Nat.testBit_two_pow_add_gt hi]
    simp [Nat.ne_of_gt hi]
  · rw [Nat.testBit_two_pow_add_eq, Nat.testBit_lt_two_pow hlt]
    simp
  · have hlow : 2 ^ len + val < 2 ^ i := by
      calc 2 ^ len + val < 2 ^ len * 2 := by omega
        _ = 2 ^ (len + 1) := (Nat.pow_succ 2 len).symm
        _ ≤ 2 ^ i := Nat.pow_le_pow_right (by decide) hi
    rw [Nat.testBit_lt_two_pow hlow, Nat.testBit_lt_two_pow (by omega)]
    simp [Nat.ne_of_lt hi]

theorem drop_zeros (zeros : ℕ) (rest : List Bool) :
    (List.replicate zeros false ++ true :: rest).drop (zeros + 1) = rest := by
  rw [List.drop_append]
  simp

/-- A run of zeros is counted. -/
theorem bsrLog_zeros {zeros : ℕ} (hle : zeros ≤ 255) (bits : ℕ) (rest : List Bool) :
    bsrLog ⟨bits, List.replicate zeros false ++ true :: rest⟩ =
      .ok (zeros, ⟨bits + (zeros + 1), rest⟩) := by
  simp [bsrLog, Bsr.skip, drop_zeros]
  omega

/-- The length in front of a number is read back. -/
theorem bsrRubLen_mat {a : ℕ} (hlen : a.size < 2 ^ 63) (bits : ℕ) (rest : List Bool) :
    bsrRubLen ⟨bits, mat a ++ rest⟩ =
      .ok (a.size, ⟨bits + ((mat a).length - a.size), bitsOf a.size a ++ rest⟩) := by
  by_cases hzero : a = 0
  · simp [hzero, mat, bsrRubLen, bsrLog, Bsr.skip, bitsOf]
  · have hsize : 0 < a.size := Nat.size_pos.mpr (Nat.pos_of_ne_zero hzero)
    obtain ⟨len, hnel⟩ : ∃ len, a.size.size = len + 1 :=
      ⟨a.size.size - 1, (Nat.succ_pred_eq_of_pos (Nat.size_pos.mpr hsize)).symm⟩
    have hlow : 2 ^ len ≤ a.size := Nat.lt_size.mp (by omega)
    have hhigh : a.size < 2 ^ (len + 1) := hnel ▸ Nat.lt_size_self a.size
    have hlt : len < 63 := by
      by_contra hge
      have hpow := Nat.pow_le_pow_right (show 0 < 2 by decide) (show 63 ≤ len by omega)
      omega
    have hmat : mat a ++ rest = List.replicate (len + 1) false ++ true ::
        (bitsOf len a.size ++ (bitsOf a.size a ++ rest)) := by
      simp [mat, hzero, hnel]
    have hlog := bsrLog_zeros (show len + 1 ≤ 255 by omega) bits
      (bitsOf len a.size ++ (bitsOf a.size a ++ rest))
    have hlength : (mat a).length - a.size = 2 * (len + 1) := by
      rw [length_mat, if_neg hzero, hnel]
      omega
    rw [hmat, bsrRubLen, hlog, hlength]
    simp only [if_neg (show ¬ 64 ≤ len + 1 by omega)]
    cases len with
    | zero =>
      have hone : a.size = 1 := by omega
      simp [hone, bitsOf]
    | succ len =>
      have hval : a.size % 2 ^ (len + 1) = a.size - 2 ^ (len + 1) := by
        rw [Nat.pow_succ 2 (len + 1)] at hhigh
        rw [Nat.mod_eq_sub_mod hlow, Nat.mod_eq_of_lt (by omega)]
      have hcut : ofBits ((bitsOf (len + 1) a.size ++ (bitsOf a.size a ++ rest)).take (len + 1)) =
          a.size - 2 ^ (len + 1) := by
        rw [List.take_left' (length_bitsOf _ _), ofBits_bitsOf, hval]
      have hdrop : (bitsOf (len + 1) a.size ++ (bitsOf a.size a ++ rest)).drop (len + 1) =
          bitsOf a.size a ++ rest := List.drop_left' (length_bitsOf _ _)
      have hless : a.size - 2 ^ (len + 1) < 2 ^ (len + 1) := by
        rw [Nat.pow_succ 2 (len + 1)] at hhigh
        omega
      simp only [bsr64Any, Bsr.skip, Nat.min_eq_right (show len + 1 ≤ 64 by omega), hcut, hdrop,
        xor_two_pow_of_lt hless, Nat.add_sub_cancel' hlow]
      congr 3
      omega

/-! ### What the reader reads -/

/-- What `ur_bsr_tag()` reads. -/
theorem bsrTag_spec {bsr red : Bsr} {tag : CueTag} (htag : bsrTag bsr = .ok (tag, red)) :
    match tag with
    | .atom => bsr.rest.getD 0 false = false ∧ red = bsr.skip 1
    | .cell => bsr.rest.getD 0 false = true ∧ bsr.rest.getD 1 false = false ∧ red = bsr.skip 2
    | .back => bsr.rest.getD 0 false = true ∧ bsr.rest.getD 1 false = true ∧ red = bsr.skip 2 := by
  unfold bsrTag at htag
  split at htag
  · simp at htag
  · obtain ⟨rfl, rfl⟩ := Prod.mk.inj (Except.ok.inj htag)
    simp_all
  · simp at htag
  · obtain ⟨rfl, rfl⟩ := Prod.mk.inj (Except.ok.inj htag)
    simp_all
  · obtain ⟨rfl, rfl⟩ := Prod.mk.inj (Except.ok.inj htag)
    simp_all

/-- What `ur_bsr_log()` counts. -/
theorem bsrLog_spec {bsr body : Bsr} {zeros : ℕ} (hlog : bsrLog bsr = .ok (zeros, body)) :
    (∀ i < zeros, bsr.rest.getD i false = false) ∧ bsr.rest.getD zeros false = true ∧
      body = bsr.skip (zeros + 1) := by
  unfold bsrLog at hlog
  dsimp only at hlog
  generalize hrun : bsr.rest.takeWhile (fun bit ↦ !bit) = run at hlog
  split_ifs at hlog with hlt hlong
  obtain ⟨rfl, rfl⟩ := Prod.mk.inj (Except.ok.inj hlog)
  have happend : bsr.rest = run ++ bsr.rest.dropWhile fun bit ↦ !bit := by
    rw [← hrun, List.takeWhile_append_dropWhile]
  have hclear : ∀ bit ∈ run, bit = false := fun bit hbit ↦ by
    rw [← hrun] at hbit
    simpa using List.mem_takeWhile_imp hbit
  refine ⟨fun i hi ↦ ?_, ?_, rfl⟩
  · rw [happend, List.getD_append _ _ _ _ hi, List.getD_eq_getElem _ _ hi]
    exact hclear _ (List.getElem_mem hi)
  · rw [happend, List.length_append] at hlt
    have hpos : 0 < (bsr.rest.dropWhile fun bit ↦ !bit).length := by omega
    have hset := List.dropWhile_get_zero_not (fun bit ↦ !bit) bsr.rest hpos
    rw [happend, List.getD_append_right _ _ _ _ (Nat.le_refl _), Nat.sub_self,
      List.getD_eq_getElem _ _ hpos]
    simpa using hset

/-- What `ur_bsr_rub_len()` reads: a run of zeros, a one, and the length in one bit fewer. -/
theorem bsrRubLen_spec {bsr body : Bsr} {len : ℕ} (hrub : bsrRubLen bsr = .ok (len, body)) :
    ∃ zeros, zeros < 64 ∧ (∀ i < zeros, bsr.rest.getD i false = false) ∧
      bsr.rest.getD zeros false = true ∧
      (zeros = 0 ∧ len = 0 ∧ body = bsr.skip 1 ∨
        0 < zeros ∧ len = 2 ^ (zeros - 1) + ofBits ((bsr.rest.drop (zeros + 1)).take (zeros - 1)) ∧
          body = bsr.skip (2 * zeros)) := by
  unfold bsrRubLen at hrub
  cases hlog : bsrLog bsr with
  | error res => simp [hlog] at hrub
  | ok logged =>
    obtain ⟨zeros, red⟩ := logged
    obtain ⟨hclear, hset, rfl⟩ := bsrLog_spec hlog
    simp only [hlog] at hrub
    split_ifs at hrub with hlong
    refine ⟨zeros, by omega, hclear, hset, ?_⟩
    rcases zeros with _ | _ | zeros
    · obtain ⟨rfl, rfl⟩ := Prod.mk.inj (Except.ok.inj hrub)
      exact .inl ⟨rfl, rfl, rfl⟩
    · obtain ⟨rfl, rfl⟩ := Prod.mk.inj (Except.ok.inj hrub)
      exact .inr ⟨by omega, by simp [ofBits], rfl⟩
    · obtain ⟨rfl, rfl⟩ := Prod.mk.inj (Except.ok.inj hrub)
      refine .inr ⟨by omega, ?_, ?_⟩
      · have hmin : min 64 (zeros + 1) = zeros + 1 := by omega
        rw [bsr64Any, hmin, Nat.add_sub_cancel]
        refine xor_two_pow_of_lt ?_
        calc ofBits (((bsr.skip (zeros + 1 + 1 + 1)).rest).take (zeros + 1))
            < 2 ^ (((bsr.skip (zeros + 1 + 1 + 1)).rest).take (zeros + 1)).length := ofBits_lt _
          _ ≤ 2 ^ (zeros + 1) := Nat.pow_le_pow_right (by decide) (by simp)
      · have hmin : min 64 (zeros + 1) = zeros + 1 := by omega
        rw [bsr64Any, hmin]
        simp only [Bsr.skip, List.drop_drop, Bsr.mk.injEq]
        exact ⟨by ring, by congr 1; ring⟩

end Vere.Ur
