import Vere.Noun.SerialCue
import Vere.Noun.SerialJam

/-!
# Lengths of atoms in words

`_cs_jam_fib_mat()` on words. The prefix `1 << b_w` and the length without its top bit are handed on
as nouns, so that a word with its top bit set is a pointer, and a shift by 32 has no meaning:
`nounAt` reads such a word off the loom and `shlOne` gives any word. `csJamFibMatWord_eq` says that
below `2 ^ 30` bits neither happens and the words compute what `csJamFibMat` does, and
`matWrites_iff` that from there on one of them does.
-/

set_option autoImplicit false

namespace Vere.Noun.Serial

open Lib.Bits Ur

/-! ### Words and nouns -/

/-- `u3a_is_cat()`. -/
def IsCat (som : UInt32) : Prop := som >>> 31 = 0

instance (som : UInt32) : Decidable (IsCat som) := inferInstanceAs (Decidable (_ = _))

/-- The atom that a word refers to. -/
def nounAt (loom : UInt32 → ℕ) (som : UInt32) : ℕ := if IsCat som then som.toNat else loom som

/-- The words that refer to an atom: itself, or `u3a_is_pug()` and the atom on the loom. -/
inductive Refers (loom : UInt32 → ℕ) : UInt32 → ℕ → Prop
  | cat {som : UInt32} (hcat : IsCat som) : Refers loom som som.toNat
  | pug {som : UInt32} (hpug : som >>> 30 = 2)
  (hlarge : 2 ^ 31 ≤ loom som) : Refers loom som (loom som)

/-- `c3_bits_word()`. -/
def bitsWord (w : UInt32) : UInt32 := UInt32.ofNat w.toNat.size

/-- `1 << len`, which C leaves undefined from 32 on. -/
def shlOne (undef len : UInt32) : UInt32 := if len < 32 then 1 <<< len else undef

/-! ### The encoder of atoms -/

/-- The unary length of the length. -/
def matLead (undef b_w : UInt32) : UInt32 := shlOne undef b_w

/-- The length without its top bit. -/
def matRest (undef a_w b_w : UInt32) : UInt32 := a_w &&& (shlOne undef (b_w - 1) - 1)

/-- `_cs_jam_fib_chop()`, of a noun. -/
def csJamFibChopWord (loom : UInt32 → ℕ) (fib_u : JamFib) (met_w a : UInt32) : Option JamFib :=
  csJamFibChop fib_u met_w.toNat (nounAt loom a)

/-- `_cs_jam_fib_mat()`, of a noun. -/
def csJamFibMatWord (loom : UInt32 → ℕ) (undef : UInt32) (fib_u : JamFib) (a : UInt32) :
    Option JamFib :=
  if a = 0 then csJamFibChopWord loom fib_u 1 1
  else do
    let a_w := UInt32.ofNat (← rMet (nounAt loom a))
    let b_w := bitsWord a_w
    let fib_u ← csJamFibChopWord loom fib_u (b_w + 1) (matLead undef b_w)
    let fib_u ← csJamFibChopWord loom fib_u (b_w - 1) (matRest undef a_w b_w)
    csJamFibChopWord loom fib_u a_w a

/-- Neither shift reaches the width of a word and neither word that is made is a pointer. -/
def WordsDirect (undef a_w : UInt32) : Prop :=
  let b_w := bitsWord a_w
  b_w < 32 ∧ b_w - 1 < 32 ∧ IsCat (matLead undef b_w) ∧ IsCat (matRest undef a_w b_w)

/-- The atom is written as its length-prefixed bits, by direct words and shifts that are defined,
and `u3qe_rub()` reads it back at the cursor, whatever is written behind it up to the longest atom
that has a length. -/
structure MatWrites (loom : UInt32 → ℕ) (undef : UInt32) (fib_u : JamFib) (som : UInt32) (a : ℕ) :
    Prop where
  words : a ≠ 0 → WordsDirect undef (UInt32.ofNat a.size)
  writes : ∃ fib_u', csJamFibMatWord loom undef fib_u som = some fib_u' ∧
    fib_u'.buf_w = fib_u.buf_w ++ mat a ∧
    fib_u'.bit_w = fib_u.bit_w + (if a = 0 then 1 else 2 * a.size.size + a.size) ∧
    ∀ more, more = [] ∨ fib_u'.bit_w + more.length ≤ 2 ^ 32 - 32 →
      qeRub fib_u.bit_w (ofBits (fib_u'.buf_w ++ more)) = some ((mat a).length, a)

theorem isCat_iff (som : UInt32) : IsCat som ↔ som.toNat < 2 ^ 31 := by
  rw [IsCat, ← UInt32.toNat_inj, UInt32.toNat_shiftRight]
  show som.toNat >>> 31 = 0 ↔ _
  rw [Nat.shiftRight_eq_div_pow, Nat.div_eq_zero_iff]
  simp

variable {som : UInt32} {a : ℕ} {loom : UInt32 → ℕ}

theorem nounAt_of_lt (loom : UInt32 → ℕ) (hlt : som.toNat < 2 ^ 31) : nounAt loom som = som.toNat :=
  if_pos ((isCat_iff som).mpr hlt)

theorem Refers.nounAt_eq (hrefers : Refers loom som a) : nounAt loom som = a := by
  cases hrefers with
  | cat hcat => exact if_pos hcat
  | pug hpug hlarge =>
    refine if_neg fun hcat ↦ ?_
    have hsom := (isCat_iff som).mp hcat
    have htop := congrArg UInt32.toNat hpug
    rw [UInt32.toNat_shiftRight] at htop
    have htop : som.toNat >>> 30 = 2 := htop
    rw [Nat.shiftRight_eq_div_pow] at htop
    omega

theorem Refers.eq_zero_iff (hrefers : Refers loom som a) : som = 0 ↔ a = 0 := by
  cases hrefers with
  | cat hcat => rw [← UInt32.toNat_inj, UInt32.toNat_zero]
  | pug hpug hlarge =>
    constructor
    · rintro rfl
      exact absurd hpug (by decide)
    · intro hzero
      omega

theorem toNat_bitsWord (w : UInt32) : (bitsWord w).toNat = w.toNat.size := by
  have hle : w.toNat.size ≤ 32 := Nat.size_le.mpr w.toNat_lt
  exact UInt32.toNat_ofNat_of_lt' (show w.toNat.size < 2 ^ 32 by omega)

theorem toNat_shlOne (undef : UInt32) {len : UInt32} (hlen : len.toNat < 32) :
    (shlOne undef len).toNat = 2 ^ len.toNat := by
  rw [shlOne, if_pos (UInt32.lt_iff_toNat_lt.mpr hlen), UInt32.toNat_shiftLeft,
    Nat.mod_eq_of_lt hlen, UInt32.toNat_one, Nat.one_shiftLeft]
  exact Nat.mod_eq_of_lt (Nat.pow_lt_pow_right (by decide) hlen)

theorem toNat_matLead (undef : UInt32) {a_w : UInt32} (hlt : a_w.toNat.size < 32) :
    (matLead undef (bitsWord a_w)).toNat = 2 ^ a_w.toNat.size := by
  rw [matLead, toNat_shlOne undef (by rwa [toNat_bitsWord]), toNat_bitsWord]

/-- A length has a top bit. -/
theorem toNat_bitsWord_pred {a_w : UInt32} (hne : a_w.toNat ≠ 0) :
    (bitsWord a_w - 1).toNat = a_w.toNat.size - 1 := by
  have hpos : 0 < a_w.toNat.size := Nat.size_pos.mpr (Nat.pos_of_ne_zero hne)
  rw [UInt32.toNat_sub_of_le, toNat_bitsWord, UInt32.toNat_one]
  rw [UInt32.le_iff_toNat_le, toNat_bitsWord]
  exact hpos

theorem toNat_matRest (undef : UInt32) {a_w : UInt32} (hne : a_w.toNat ≠ 0) :
    (matRest undef a_w (bitsWord a_w)).toNat = a_w.toNat % 2 ^ (a_w.toNat.size - 1) := by
  have hsize : a_w.toNat.size ≤ 32 := Nat.size_le.mpr a_w.toNat_lt
  have hshift : (shlOne undef (bitsWord a_w - 1)).toNat = 2 ^ (a_w.toNat.size - 1) := by
    rw [toNat_shlOne undef, toNat_bitsWord_pred hne]
    rw [toNat_bitsWord_pred hne]
    omega
  have hone : (1 : UInt32) ≤ shlOne undef (bitsWord a_w - 1) := by
    rw [UInt32.le_iff_toNat_le, hshift]
    exact Nat.two_pow_pos _
  rw [matRest, UInt32.toNat_and, UInt32.toNat_sub_of_le _ _ hone, hshift, UInt32.toNat_one,
    Nat.and_two_pow_sub_one_eq_mod]

/-- The words are direct as long as the length of the length is at most 30. -/
theorem wordsDirect_iff (undef : UInt32) {a_w : UInt32} (hne : a_w.toNat ≠ 0) :
    WordsDirect undef a_w ↔ a_w.toNat < 2 ^ 30 := by
  have hlast := toNat_bitsWord_pred hne
  have hsize : a_w.toNat.size ≤ 32 := Nat.size_le.mpr a_w.toNat_lt
  unfold WordsDirect
  simp only [UInt32.lt_iff_toNat_lt, toNat_bitsWord, hlast, isCat_iff, toNat_matRest undef hne]
  rw [show a_w.toNat < 2 ^ 30 ↔ a_w.toNat.size ≤ 30 from Nat.size_le.symm]
  show a_w.toNat.size < 32 ∧ _ ↔ _
  constructor
  · rintro ⟨hlt, _, hcat, _⟩
    rw [toNat_matLead undef hlt] at hcat
    exact Nat.le_of_lt_succ ((Nat.pow_lt_pow_iff_right (show 1 < 2 by decide)).mp hcat)
  · intro hle
    refine ⟨by omega, show a_w.toNat.size - 1 < 32 by omega, ?_, ?_⟩
    · rw [toNat_matLead undef (by omega)]
      exact Nat.pow_lt_pow_right (show 1 < 2 by decide) (by omega)
    · refine Nat.lt_trans (Nat.mod_lt _ (Nat.two_pow_pos _)) ?_
      exact Nat.pow_lt_pow_right (show 1 < 2 by decide) (by omega)

/-- Whatever the words are, the first of them is written first. -/
theorem csJamFibMatWord_lead (undef : UInt32) {fib_u : JamFib} (hlt : fib_u.bit_w < 2 ^ 32)
    (hrefers : Refers loom som a) (hzero : a ≠ 0) (ha : a.size ≤ 2 ^ 32 - 32) :
    ∃ last, last.length ≤ a.size + 32 ∧ csJamFibMatWord loom undef fib_u som =
      fib_u.write (bitsOf ((UInt32.ofNat a.size).toNat.size + 1)
        (nounAt loom (matLead undef (bitsWord (UInt32.ofNat a.size)))) ++ last) := by
  have hlen : (UInt32.ofNat a.size).toNat = a.size :=
    UInt32.toNat_ofNat_of_lt' (show a.size < 2 ^ 32 by omega)
  have hne : (UInt32.ofNat a.size).toNat ≠ 0 := by
    rw [hlen]
    exact fun heq ↦ hzero (Nat.size_eq_zero.mp heq)
  have hnel : (UInt32.ofNat a.size).toNat.size ≤ 32 := Nat.size_le.mpr (UInt32.toNat_lt _)
  have hnext : (bitsWord (UInt32.ofNat a.size) + 1).toNat =
      (UInt32.ofNat a.size).toNat.size + 1 := by
    rw [UInt32.toNat_add, toNat_bitsWord, UInt32.toNat_one]
    omega
  have hwrite := csJamFibChop_bind hlt (UInt32.toNat_lt (bitsWord (UInt32.ofNat a.size) + 1))
    (nounAt loom (matLead undef (bitsWord (UInt32.ofNat a.size)))) fun fib_u hlt ↦
      csJamFibChop_bind hlt (UInt32.toNat_lt (bitsWord (UInt32.ofNat a.size) - 1))
        (nounAt loom (matRest undef (UInt32.ofNat a.size) (bitsWord (UInt32.ofNat a.size))))
          fun fib_u hlt ↦
          csJamFibChop_eq hlt (UInt32.toNat_lt (UInt32.ofNat a.size)) (nounAt loom som)
  rw [hnext] at hwrite
  refine ⟨bitsOf (bitsWord (UInt32.ofNat a.size) - 1).toNat
      (nounAt loom (matRest undef (UInt32.ofNat a.size) (bitsWord (UInt32.ofNat a.size)))) ++
      bitsOf (UInt32.ofNat a.size).toNat (nounAt loom som), ?_, ?_⟩
  · rw [List.length_append, length_bitsOf, length_bitsOf, toNat_bitsWord_pred hne, hlen]
    rw [hlen] at hnel
    omega
  · have hmet : rMet (nounAt loom som) = some a.size := by
      rw [hrefers.nounAt_eq, rMet_eq, if_pos ha]
    rw [csJamFibMatWord, if_neg fun hsom ↦ hzero (hrefers.eq_zero_iff.mp hsom), hmet]
    show (csJamFibChop _ _ _).bind _ = _
    rw [hnext]
    exact hwrite

/-- Below `2 ^ 30` bits the words compute what the numbers do. -/
theorem csJamFibMatWord_eq (undef : UInt32) (fib_u : JamFib) (hrefers : Refers loom som a)
    (ha : a.size < 2 ^ 30) : csJamFibMatWord loom undef fib_u som = csJamFibMat fib_u a := by
  unfold csJamFibMatWord csJamFibMat
  by_cases hzero : a = 0
  · rw [if_pos hzero, if_pos (hrefers.eq_zero_iff.mpr hzero)]
    rfl
  · rw [if_neg hzero, if_neg fun hsom ↦ hzero (hrefers.eq_zero_iff.mp hsom), hrefers.nounAt_eq,
      rMet_eq, if_pos (show a.size ≤ 2 ^ 32 - 32 by omega)]
    have hlen : (UInt32.ofNat a.size).toNat = a.size :=
      UInt32.toNat_ofNat_of_lt' (show a.size < 2 ^ 32 by omega)
    have hne : (UInt32.ofNat a.size).toNat ≠ 0 := by
      rw [hlen]
      exact fun heq ↦ hzero (Nat.size_eq_zero.mp heq)
    have hnel : a.size.size ≤ 30 := Nat.size_le.mpr ha
    have hnext : (bitsWord (UInt32.ofNat a.size) + 1).toNat = a.size.size + 1 := by
      rw [UInt32.toNat_add, toNat_bitsWord, hlen, UInt32.toNat_one]
      omega
    have hlead : nounAt loom (matLead undef (bitsWord (UInt32.ofNat a.size))) =
        1 <<< a.size.size := by
      have hval :=
        @toNat_matLead undef (UInt32.ofNat a.size) (hlen.symm ▸ Nat.lt_of_le_of_lt hnel (by decide))
      rw [hlen] at hval
      rw [nounAt_of_lt, hval, Nat.one_shiftLeft]
      rw [hval]
      exact Nat.pow_lt_pow_right (by decide) (by omega)
    have hrest : nounAt loom (matRest undef (UInt32.ofNat a.size)
      (bitsWord (UInt32.ofNat a.size))) =
        a.size &&& (1 <<< (a.size.size - 1) - 1) := by
      have hval := toNat_matRest undef hne
      rw [hlen] at hval
      rw [nounAt_of_lt, hval, Nat.one_shiftLeft, Nat.and_two_pow_sub_one_eq_mod]
      rw [hval]
      exact Nat.lt_of_le_of_lt (Nat.mod_le _ _) (by omega)
    show (csJamFibChop _ _ _).bind _ = (csJamFibChop _ _ _).bind _
    rw [hnext, hlead]
    refine congrArg _ (funext fun fib_u ↦ ?_)
    show (csJamFibChop _ _ _).bind _ = (csJamFibChop _ _ _).bind _
    rw [toNat_bitsWord_pred hne, hlen, hrest]
    refine congrArg _ (funext fun fib_u ↦ ?_)
    show csJamFibChop fib_u _ (nounAt loom som) = _
    rw [hlen, hrefers.nounAt_eq]

/-! ### Reading back -/

theorem size_ofBits_le (bits : List Bool) : (ofBits bits).size ≤ bits.length :=
  Nat.size_le.mpr (ofBits_lt bits)

theorem qeRub_of_large {b : ℕ} (hlarge : ¬ b.size ≤ 2 ^ 32 - 32) : qeRub a b = none := by
  rw [qeRub, rMet_eq, if_neg hlarge]
  rfl

/-- The set bit that is a length-prefixed zero. -/
theorem qeRub_zero {buf more : List Bool}
    (hsize : (ofBits (buf ++ (mat 0 ++ more))).size ≤ 2 ^ 32 - 32) :
    qeRub buf.length (ofBits (buf ++ (mat 0 ++ more))) =
      if buf.length < 2 ^ 31 then some (1, 0) else none := by
  have hset : (ofBits (buf ++ (mat 0 ++ more))).testBit buf.length = true := by
    rw [testBit_ofBits]
    simp [List.getD, mat]
  rw [qeRub, rMet_eq, if_pos hsize]
  simp only [Option.bind_eq_bind, Option.bind_some]
  rw [qeRubScan_eq hsize (Nat.le_refl _) (Nat.le_add_right _ _) (fun i hi hi' ↦ by omega) hset]
  split_ifs
  · simp
  · rfl

/-- `u3qe_rub()` undoes what was written, up to the bit from which on `u3qc_cut()` gives nothing. -/
theorem qeRub_mat {buf more : List Bool} (ha : a.size < 2 ^ 30)
    (hsize : (ofBits (buf ++ (mat a ++ more))).size ≤ 2 ^ 32 - 32) :
    qeRub buf.length (ofBits (buf ++ (mat a ++ more))) = some ((mat a).length, a) ↔
      buf.length + 2 * a.size.size < 2 ^ 31 := by
  by_cases hzero : a = 0
  · subst hzero
    rw [qeRub_zero hsize, Nat.size_zero, Nat.size_zero]
    split_ifs with hlow
    · exact iff_of_true rfl (by omega)
    · exact iff_of_false (by simp) (by omega)
  · have hat : At (buf ++ (mat a ++ more)) ⟨buf.length, mat a ++ more⟩ := by
      rw [At, List.drop_left]
    have hwidth : (mat a).length = a.size + 2 * a.size.size := by
      rw [length_mat, if_neg hzero]
    have hspec := qeRub_spec hat hsize (bsrRubLen_mat (by omega) buf.length more)
    have hnel : a.size.size ≤ 30 := Nat.size_le.mpr ha
    simp only [zerosOf, hwidth] at hspec
    rw [hwidth]
    rcases hspec with ⟨hhigh, hnone⟩ | ⟨hlow, wid, hread, hcase⟩
    · rw [hnone]
      simp only [reduceCtorEq, false_iff]
      omega
    · rw [hread]
      rcases hcase with ⟨hbody, hwid⟩ | ⟨hbody, _⟩
      · have hval : cutBody ⟨buf.length + (a.size + 2 * a.size.size - a.size),
          bitsOf a.size a ++ more⟩ a.size =
            ofBits ((bitsOf a.size a ++ more).take a.size) :=
          cutBody_of_whole (whole_of_le hbody (by omega))
        rw [hval, List.take_left' (length_bitsOf _ _), ofBits_bitsOf,
          Nat.mod_eq_of_lt (Nat.lt_size_self a)]
        have heq : wid = a.size + 2 * a.size.size := by omega
        simp only [heq, true_iff]
        omega
      · rw [cutBody_of_ge _ hbody]
        constructor
        · intro heq
          exact absurd (congrArg Prod.snd (Option.some.inj heq)).symm hzero
        · intro hlow
          exact absurd hbody (by show ¬ 2 ^ 31 ≤ _; omega)

/-! ### The limits -/

/-- An atom is written as its length-prefixed bits, read back at the cursor, exactly if it has fewer
than `2 ^ 30` bits and they start before bit `2 ^ 31` of the buffer. -/
theorem matWrites_iff {loom : UInt32 → ℕ} (undef : UInt32) {fib_u : JamFib}
    (hfib : fib_u.buf_w.length = fib_u.bit_w) {som : UInt32} {a : ℕ} (hrefers : Refers loom som a)
    (ha : a.size < 2 ^ 32) :
    MatWrites loom undef fib_u som a ↔ a.size < 2 ^ 30 ∧ fib_u.bit_w + 2 * a.size.size <
      2 ^ 31 := by
  have hlen : (UInt32.ofNat a.size).toNat = a.size := UInt32.toNat_ofNat_of_lt' ha
  have hdirect (hzero : a ≠ 0) : WordsDirect undef (UInt32.ofNat a.size) ↔ a.size < 2 ^ 30 := by
    rw [wordsDirect_iff undef, hlen]
    rw [hlen]
    exact fun heq ↦ hzero (Nat.size_eq_zero.mp heq)
  have hwidth : (mat a).length = if a = 0 then 1 else 2 * a.size.size + a.size := by
    rw [length_mat, Nat.add_comm]
  constructor
  · rintro ⟨hwords, fib_u', -, hbuf, -, hrub⟩
    have hsmall : a.size < 2 ^ 30 := by
      by_cases hzero : a = 0
      · rw [hzero, Nat.size_zero]
        decide
      · exact (hdirect hzero).mp (hwords hzero)
    have hread := hrub [] (.inl rfl)
    rw [hbuf, List.append_assoc, ← hfib] at hread
    refine ⟨hsmall, ?_⟩
    by_cases hsize : (ofBits (fib_u.buf_w ++ (mat a ++ []))).size ≤ 2 ^ 32 - 32
    · rw [← hfib]
      exact (qeRub_mat hsmall hsize).mp hread
    · rw [qeRub_of_large hsize] at hread
      cases hread
  · rintro ⟨hsmall, hlow⟩
    have hnel : a.size.size ≤ 30 := Nat.size_le.mpr hsmall
    have hshort : (mat a).length ≤ 2 ^ 30 + 60 := by
      rw [hwidth]
      split_ifs <;> omega
    refine ⟨fun hzero ↦ (hdirect hzero).mpr hsmall,
      ⟨fib_u.har, fib_u.bit_w + (mat a).length, fib_u.buf_w ++ mat a⟩, ?_, rfl, ?_,
      fun more hmore ↦ ?_⟩
    · rw [csJamFibMatWord_eq undef fib_u hrefers hsmall, csJamFibMat_eq (by omega) hsmall,
        JamFib.write, if_pos (by omega)]
    · rw [← hwidth]
    · rw [List.append_assoc, ← hfib]
      refine (qeRub_mat hsmall ?_).mpr (by rw [hfib]; exact hlow)
      have hle := size_ofBits_le (fib_u.buf_w ++ (mat a ++ more))
      simp only [List.length_append, hfib] at hle
      rcases hmore with rfl | hmore
      · simp only [List.length_nil] at hle
        omega
      · simp only at hmore
        omega

theorem matWrites_forty :
    MatWrites (fun _ ↦ 2 ^ 40) 0 ⟨fun _ ↦ none, 3, [true, false, true]⟩ 0x80000005 (2 ^ 40) ∧
      ¬ IsCat 0x80000005 := by
  have hsize : (2 ^ 40).size = 41 := Nat.size_pow
  have hnel : Nat.size 41 ≤ 6 := Nat.size_le.mpr (by decide)
  refine ⟨(matWrites_iff 0 rfl (.pug (by decide) (by decide)) ?_).mpr ⟨?_, ?_⟩, by decide⟩
  · rw [hsize]
    decide
  · rw [hsize]
    decide
  · rw [hsize]
    show 3 + 2 * Nat.size 41 < 2 ^ 31
    omega

/-- A loom with an atom on it and nothing at its bottom. -/
def loomOf (a : ℕ) : UInt32 → ℕ := fun som ↦ if som = 0x80000000 then 0 else a

/-- From `2 ^ 30` bits on the prefix is `0x80000000`, and the bits of what is at the bottom of the
loom are written. -/
theorem jamFibMat_reads_loom : ∃ (loom : UInt32 → ℕ) (som : UInt32) (a : ℕ),
    Refers loom som a ∧ a.size = 2 ^ 30 ∧ ∀ undef, ¬ WordsDirect undef (UInt32.ofNat a.size) ∧
    ∃ fib_u',
      csJamFibMatWord loom undef ⟨fun _ ↦ none, 0, []⟩ som = some fib_u' ∧
      fib_u'.buf_w ≠ mat a := by
  obtain ⟨len, hlen⟩ : ∃ len, len = 2 ^ 30 - 1 := ⟨_, rfl⟩
  have hsize : (2 ^ len).size = 2 ^ 30 := by
    rw [Nat.size_pow, hlen]
    decide
  have hlarge : 2 ^ 31 ≤ 2 ^ len := Nat.pow_le_pow_right (by decide) (by omega)
  generalize ha : 2 ^ len = a at hsize hlarge
  have hnel : (2 ^ 30).size = 31 := Nat.size_pow
  have hzero : a ≠ 0 := by omega
  have hword : (UInt32.ofNat a.size).toNat = 2 ^ 30 := by
    rw [hsize]
    rfl
  have hne : (UInt32.ofNat a.size).toNat ≠ 0 := by omega
  have hrefers : Refers (loomOf a) 0x80000005 a := .pug (by decide) hlarge
  refine ⟨loomOf a, 0x80000005, a, hrefers, hsize, fun undef ↦ ?_⟩
  have hlead : matLead undef (bitsWord (UInt32.ofNat a.size)) = 0x80000000 := by
    rw [← UInt32.toNat_inj, toNat_matLead undef (by rw [hword, hnel]; decide), hword, hnel]
    rfl
  have hempty : (⟨fun _ ↦ none, 0, []⟩ : JamFib).bit_w < 2 ^ 32 := Nat.two_pow_pos 32
  obtain ⟨last, hlast, hmat⟩ := csJamFibMatWord_lead undef hempty hrefers hzero (by omega)
  rw [hlead, hword, hnel, show nounAt (loomOf a) 0x80000000 = 0 from rfl] at hmat
  have hpointer : ¬ WordsDirect undef (UInt32.ofNat a.size) := by
    rw [wordsDirect_iff undef hne]
    omega
  refine ⟨hpointer, _, hmat.trans (if_pos ?_), fun heq ↦ ?_⟩
  · simp only [List.length_append, length_bitsOf]
    omega
  · have hset : (mat a).getD 31 false = true := by
      rw [mat, if_neg hzero, hsize, hnel,
        List.getD_append_right _ _ _ _ (by rw [List.length_replicate]), List.length_replicate]
      rfl
    have hclear : (bitsOf (31 + 1) 0 ++ last).getD 31 false = false := by
      rw [List.getD_append _ _ _ _ (by rw [length_bitsOf]; decide), getD_bitsOf, Nat.zero_testBit,
        Bool.and_false]
    have heq : bitsOf (31 + 1) 0 ++ last = mat a := heq
    rw [heq, hset] at hclear
    cases hclear

end Vere.Noun.Serial
