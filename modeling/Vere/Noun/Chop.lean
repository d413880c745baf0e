import Vere.Noun.Extract

/-!
# Copying slices of bits

`u3r_chop()`,
`u3r_chop_words()` and `u3r_chop_bits()` of `pkg/noun/retrieve.c` xor a slice of an atom or of an
array of words into another array of words. The bits are moved in up to three pieces: one that ends
with a word of the destination, whole words of it,
and one that begins with a word. Each piece xors its part of the slice, and parts that
meet are one slice (`slice_meet`), so that the whole is what `chopBits_chops`,
`chopWords_chops` and `chop_chops` say.
-/

set_option autoImplicit false

namespace Vere.Noun

open Nock
open Imprison (SlabFault valueOf wordOf)

/-! ### Words in memory -/

/-- A word of memory, which must not be past its end. -/
def loadWord (mem : List UInt32) (i : ℕ) : Except SlabFault ℕ :=
  match mem[i]? with
  | some w => .ok w.toNat
  | none => .error .overrun

/-- `^=` to a word of memory, which must not be past its end. -/
def xorWord (mem : List UInt32) (i w : ℕ) : Except SlabFault (List UInt32) :=
  match mem[i]? with
  | some old => .ok (mem.set i (old ^^^ UInt32.ofNat w))
  | none => .error .overrun

/-- `>>` of a 32-bit word, which is defined for less than 32 bits. -/
def shrWord (w n : ℕ) : Except SlabFault ℕ := if n < 32 then .ok (w >>> n) else .error .overrun

/-- `<<` of a 32-bit word, which is defined for less than 32 bits. -/
def shlWord (w n : ℕ) : Except SlabFault ℕ :=
  if n < 32 then .ok (w <<< n % 2 ^ 32) else .error .overrun

/-- `<<` of a 64-bit word, which is defined for less than 64 bits. -/
def shlChub (w n : ℕ) : Except SlabFault ℕ :=
  if n < 64 then .ok (w <<< n % 2 ^ 64) else .error .overrun

/-! ### The copy -/

section Pieces

variable (bif_g : ℕ) (src_w : List UInt32)

/-- `src_w[0] >> bif_g`, and `src_w[1] << fib_y` above it where more bits are needed. -/
def twoWords (s : ℕ) (more : Prop) [Decidable more] : Except SlabFault ℕ := do
  let fib_y := 32 - bif_g
  let low_w ← shrWord (← loadWord src_w s) bif_g
  if more then
    let hig_w ← shlWord (← loadWord src_w (s + 1)) fib_y
    .ok (low_w ^^^ hig_w)
  else .ok low_w

/-- The bits up to the next word of the destination. -/
def chopAlign (bit_g : ℕ) (dst_w : List UInt32) (d s : ℕ) : Except SlabFault (List UInt32) := do
  let low_w ← twoWords bif_g src_w s (bit_g < bif_g)
  xorWord dst_w d (← shlWord low_w bit_g)

/-- The loops over whole words, the one without a shift if there is none. -/
def chopWhole : ℕ → List UInt32 → ℕ → ℕ → Except SlabFault (List UInt32)
  | 0, dst_w, _, _ => .ok dst_w
  | n + 1, dst_w, d, s => do
    let w ← twoWords bif_g src_w s (bif_g ≠ 0)
    let dst_w ← xorWord dst_w d w
    chopWhole n dst_w (d + 1) (s + 1)

/-- The bits that are left. -/
def chopMore (wid_d bit_g : ℕ) (dst_w : List UInt32) (d s : ℕ) : Except SlabFault (List UInt32) :=
  if wid_d = 0 then .ok dst_w
  else do
    let hig_w ← twoWords bif_g src_w s (32 - bif_g < wid_d)
    let end_w ← shlWord 1 wid_d
    xorWord dst_w d (← shlWord (hig_w &&& (end_w - 1)) bit_g)

/-- The copy to a whole word of the destination and on. -/
def chopAligned (wid_d : ℕ) (dst_w : List UInt32) (d s : ℕ) : Except SlabFault (List UInt32) := do
  let byt_i := wid_d >>> 5
  let dst_w ← chopWhole bif_g src_w byt_i dst_w d s
  chopMore bif_g src_w (wid_d &&& 31) 0 dst_w (d + byt_i) (s + byt_i)

/-- `u3r_chop_bits()`, with the words `dst_w` from `d` on and `src_w` from `s` on. -/
def chopBits (wid_d bit_g : ℕ) (dst_w : List UInt32) (d s : ℕ) : Except SlabFault (List UInt32) :=
  let tib_y := 32 - bit_g
  if tib_y ≤ wid_d then
    if bit_g ≠ 0 then do
      let dst_w ← chopAlign bif_g src_w bit_g dst_w d s
      let bif_g := bif_g + tib_y
      chopAligned (bif_g &&& 31) src_w (wid_d - tib_y) dst_w (d + 1) (if bif_g >>> 5 ≠ 0 then
        s + 1 else s)
    else chopAligned bif_g src_w wid_d dst_w d s
  else chopMore bif_g src_w wid_d bit_g dst_w d s

end Pieces

/-- `u3r_chop_words()`. -/
def chopWords (met_g fum_w wid_w tou_w : ℕ) (dst_w : List UInt32) (len_w : ℕ)
    (src_w : List UInt32) :
    Except SlabFault (List UInt32) :=
  if 5 ≤ met_g then do
    let hut_g := met_g - 5
    let fum_i ← shlChub fum_w hut_g
    let tou_i ← shlChub tou_w hut_g
    let wid_i ← shlChub wid_w hut_g
    let tot_i := (fum_i + wid_i) % 2 ^ 64
    if fum_i >>> hut_g ≠ fum_w ∨ (tot_i + (2 ^ 64 - wid_i)) % 2 ^ 64 ≠ fum_i then .error .bail
    else if len_w ≤ fum_i then .ok dst_w
    else
      let wid_i := if len_w < tot_i then wid_i - (tot_i - len_w) else wid_i
      chopWhole 0 src_w wid_i dst_w tou_i fum_i
  else do
    let wid_d ← shlChub wid_w met_g
    let len_d ← shlChub len_w 5
    let fum_d ← shlChub fum_w met_g
    let tou_d ← shlChub tou_w met_g
    let tot_d := (fum_d + wid_d) % 2 ^ 64
    if fum_d >>> met_g ≠ fum_w ∨ (tot_d + (2 ^ 64 - wid_d)) % 2 ^ 64 ≠ fum_d then .error .bail
    else if len_d < fum_d then .ok dst_w
    else
      let wid_d := if len_d < tot_d then wid_d - (tot_d - len_d) else wid_d
      chopBits (fum_d &&& 31) src_w wid_d (tou_d &&& 31) dst_w (tou_d >>> 5) (fum_d >>> 5)

/-- `u3r_chop()`. -/
def chop (met_g fum_w wid_w tou_w : ℕ) (dst_w : List UInt32) (src : ℕ) :
    Except SlabFault (List UInt32) :=
  let src_w := if src < 2 ^ 31 then [UInt32.ofNat src] else bufWords src
  let len_w := if src < 2 ^ 31 then (if src ≠ 0 then 1 else 0) else lenW src
  chopWords met_g fum_w wid_w tou_w dst_w len_w src_w

/-! ### Values of words -/

theorem valueOf_cons (w : UInt32) (words : List UInt32) :
    valueOf (w :: words) = 2 ^ 32 * valueOf words + w.toNat := by
  unfold valueOf
  rw [List.map_cons, Nat.ofDigits_cons, Nat.add_comm]

theorem testBit_valueOf (words : List UInt32) (i : ℕ) :
    (valueOf words).testBit i = (words.getD (i / 32) 0).toNat.testBit (i % 32) := by
  induction words generalizing i with
  | nil =>
    show (0 : ℕ).testBit i = (0 : UInt32).toNat.testBit (i % 32)
    rw [Nat.zero_testBit]
    exact (Nat.zero_testBit _).symm
  | cons w words ih =>
    rw [valueOf_cons, Nat.testBit_two_pow_mul_add _ w.toNat_lt]
    by_cases hi : i < 32
    · rw [if_pos hi, Nat.div_eq_of_lt hi, Nat.mod_eq_of_lt hi, List.getD_cons_zero]
    · rw [if_neg hi, ih, show i / 32 = (i - 32) / 32 + 1 by omega, List.getD_cons_succ,
        show (i - 32) % 32 = i % 32 by omega]

theorem bufW_valueOf (words : List UInt32) (i : ℕ) :
    bufW (valueOf words) i = (words.getD i 0).toNat := by
  refine Nat.eq_of_testBit_eq fun j ↦ ?_
  rw [testBit_bufW, testBit_valueOf]
  by_cases hj : j < 32
  · rw [decide_eq_true hj, Bool.true_and, show (32 * i + j) / 32 = i by omega,
      show (32 * i + j) % 32 = j by omega]
  · rw [decide_eq_false hj, Bool.false_and]
    refine (Nat.testBit_lt_two_pow ((words.getD i 0).toNat_lt.trans_le ?_)).symm
    exact Nat.pow_le_pow_right (by decide) (Nat.not_lt.mp hj)

variable {words : List UInt32} {w wid : ℕ}

theorem loadWord_eq {i : ℕ} (hi : i < words.length) :
    loadWord words i = .ok (bufW (valueOf words) i) := by
  rw [loadWord, bufW_valueOf, List.getElem?_eq_getElem hi, List.getD_eq_getElem _ _ hi]

/-- Parts of a slice that meet, at positions that meet. -/
theorem slice_meet (d pos wid more q : ℕ) :
    slice d pos wid <<< q ^^^ slice d (pos + wid) more <<< (q + wid) =
      slice d pos (wid + more) <<< q := by
  refine Nat.eq_of_testBit_eq fun i ↦ ?_
  simp only [Nat.testBit_xor, Nat.testBit_shiftLeft, testBit_slice]
  by_cases hlow : i < q
  · simp [Nat.not_le.mpr hlow, show ¬q + wid ≤ i by omega]
  · by_cases hmid : i < q + wid
    · simp [Nat.not_lt.mp hlow, Nat.not_le.mpr hmid, show i - q < wid by omega,
        show i - q < wid + more by omega]
    · have hpos : pos + wid + (i - (q + wid)) = pos + (i - q) := by omega
      have hless :
          decide (i - (q + wid) < more) = decide (i - q < wid + more) :=
            decide_eq_decide.mpr (by omega)
      simp [Nat.not_lt.mp hlow, Nat.not_lt.mp hmid, show ¬i - q < wid by omega, hpos, hless]

/-! ### What a copy does -/

/-- A copy is made, in which bits are xored into the destination and nothing else is changed. -/
def Chops (res : Except SlabFault (List UInt32)) (dst_w : List UInt32) (bits : ℕ) : Prop :=
  ∃ out, res = .ok out ∧ out.length = dst_w.length ∧ valueOf out = valueOf dst_w ^^^ bits

theorem Chops.bind {res : Except SlabFault (List UInt32)}
    {next : List UInt32 → Except SlabFault (List UInt32)} {dst_w : List UInt32} {bits more : ℕ}
    (hres : Chops res dst_w bits) (hnext : ∀ out : List UInt32, out.length = dst_w.length →
    Chops (next out) out more) :
    Chops (res >>= next) dst_w (bits ^^^ more) := by
  obtain ⟨out, rfl, hlength, hvalue⟩ := hres
  obtain ⟨out', hout, hlength', hvalue'⟩ := hnext out hlength
  exact ⟨out', hout, hlength'.trans hlength, by rw [hvalue', hvalue, Nat.xor_assoc]⟩

theorem Chops.refl (dst_w : List UInt32) :
    Chops (.ok dst_w) dst_w 0 := ⟨dst_w, rfl, rfl, (Nat.xor_zero _).symm⟩

theorem xorWord_chops {dst_w : List UInt32} {d : ℕ} (hd : d < dst_w.length) (hw : w < 2 ^ 32) :
    Chops (xorWord dst_w d w) dst_w (w <<< (32 * d)) := by
  refine ⟨dst_w.set d (dst_w.getD d 0 ^^^ UInt32.ofNat w), ?_, List.length_set,
    Nat.eq_of_testBit_eq fun i ↦ ?_⟩
  · rw [xorWord, List.getElem?_eq_getElem hd, List.getD_eq_getElem _ _ hd]
  · rw [Nat.testBit_xor, testBit_valueOf, testBit_valueOf, Nat.testBit_shiftLeft,
      List.getD_eq_getElem?_getD,
      List.getElem?_set]
    by_cases hi : d = i / 32
    · have hge : 32 * d ≤ i := by omega
      have hoff : i - 32 * d = i % 32 := by omega
      rw [if_pos hi, if_pos hd, Option.getD_some, UInt32.toNat_xor, UInt32.toNat_ofNat_of_lt' hw,
        Nat.testBit_xor,
        decide_eq_true hge, Bool.true_and, hoff, ← hi]
    · rw [if_neg hi, ← List.getD_eq_getElem?_getD]
      have hfalse : (decide (i ≥ 32 * d) && w.testBit (i - 32 * d)) = false := by
        by_cases hge : 32 * d ≤ i
        · have hlt : w < 2 ^ (i - 32 * d) :=
            hw.trans_le (Nat.pow_le_pow_right (by decide) (by omega))
          rw [Nat.testBit_lt_two_pow hlt, Bool.and_false]
        · rw [decide_eq_false hge, Bool.false_and]
      rw [hfalse, Bool.xor_false]

section Pieces

variable {bif_g bit_g wid_d d s : ℕ} {src_w dst_w : List UInt32}

/-- The low bits of two words side by side. -/
theorem twoWords_eq (hbif : bif_g < 32) {wid : ℕ} (hpos : 0 < wid) (hwid : wid ≤ 32)
    (hroom : 32 * s + bif_g + wid ≤ 32 * src_w.length) {more : Prop} [Decidable more]
    (hmore : more ↔ 32 < bif_g + wid) :
    ∃ w, twoWords bif_g src_w s more = .ok w ∧ w < 2 ^ 32 ∧
      w % 2 ^ wid = slice (valueOf src_w) (32 * s + bif_g) wid := by
  obtain ⟨V, hV⟩ : ∃ V, V = valueOf src_w := ⟨_, rfl⟩
  have hfirst : s < src_w.length := by omega
  have hlow : bufW V s < 2 ^ 32 := Nat.mod_lt _ (Nat.two_pow_pos 32)
  have hshift : bufW V s >>> bif_g < 2 ^ 32 := by
    rw [Nat.shiftRight_eq_div_pow]
    exact (Nat.div_le_self _ _).trans_lt hlow
  have hdo : twoWords bif_g src_w s more = if more then
      loadWord src_w (s + 1) >>= fun w ↦ shlWord w (32 - bif_g) >>=
        fun hig_w ↦ .ok (bufW V s >>> bif_g ^^^ hig_w)
      else .ok (bufW V s >>> bif_g) := by
    unfold twoWords
    rw [loadWord_eq hfirst, ← hV]
    show (shrWord (bufW V s) bif_g >>= _) = _
    rw [shrWord, if_pos hbif]
    rfl
  rw [hdo, ← hV]
  by_cases htwo : more
  · have hsum := hmore.mp htwo
    have hsecond : s + 1 < src_w.length := by omega
    have hhigh : bufW V (s + 1) <<< (32 - bif_g) % 2 ^ 32 < 2 ^ 32 :=
      Nat.mod_lt _ (Nat.two_pow_pos 32)
    refine ⟨bufW V s >>> bif_g ^^^ bufW V (s + 1) <<< (32 - bif_g) % 2 ^ 32, ?_,
      Nat.xor_lt_two_pow hshift hhigh, ?_⟩
    · rw [if_pos htwo, loadWord_eq hsecond, ← hV]
      show (shlWord (bufW V (s + 1)) (32 - bif_g) >>= fun hig_w ↦
        Except.ok (bufW V s >>> bif_g ^^^ hig_w)) = _
      rw [shlWord, if_pos (show 32 - bif_g < 32 by omega)]
      rfl
    · refine Nat.eq_of_testBit_eq fun i ↦ ?_
      rw [Nat.testBit_mod_two_pow, testBit_slice]
      by_cases hi : i < wid
      · rw [decide_eq_true hi, Bool.true_and, Bool.true_and, Nat.testBit_xor,
          Nat.testBit_mod_two_pow, Nat.testBit_shiftRight, Nat.testBit_shiftLeft, testBit_bufW,
          testBit_bufW, decide_eq_true (show i < 32 by omega), Bool.true_and]
        by_cases hin : bif_g + i < 32
        · rw [decide_eq_true hin, decide_eq_false (show ¬i ≥ 32 - bif_g by omega), Bool.true_and,
            Bool.false_and,
            Bool.xor_false, Nat.add_assoc]
        · rw [decide_eq_false hin, decide_eq_true (show i ≥ 32 - bif_g by omega), Bool.false_and,
            Bool.true_and,
            Bool.false_xor, decide_eq_true (show i - (32 - bif_g) < 32 by omega), Bool.true_and]
          congr 1
          omega
      · rw [decide_eq_false hi, Bool.false_and, Bool.false_and]
  · have hsum : bif_g + wid ≤ 32 := Nat.not_lt.mp fun hlt ↦ htwo (hmore.mpr hlt)
    exact ⟨bufW V s >>> bif_g, if_neg htwo, hshift, slice_bufW hsum⟩

theorem shlWord_eq (hbit : bit_g < 32) :
    shlWord w bit_g = .ok ((w % 2 ^ (32 - bit_g)) <<< bit_g) := by
  rw [shlWord, if_pos hbit]
  congr 1
  refine Nat.eq_of_testBit_eq fun i ↦ ?_
  rw [Nat.testBit_mod_two_pow, Nat.testBit_shiftLeft, Nat.testBit_shiftLeft,
    Nat.testBit_mod_two_pow]
  by_cases hi : bit_g ≤ i
  · rw [decide_eq_true hi, Bool.true_and, Bool.true_and]
    congr 1
    exact decide_eq_decide.mpr (by omega)
  · rw [decide_eq_false hi, Bool.false_and, Bool.false_and, Bool.and_false]

theorem shiftLeft_lt (hw : w < 2 ^ wid) (hbit : wid + bit_g ≤ 32) : w <<< bit_g < 2 ^ 32 := by
  rw [Nat.shiftLeft_eq]
  calc w * 2 ^ bit_g < 2 ^ wid * 2 ^ bit_g := Nat.mul_lt_mul_of_pos_right hw (Nat.two_pow_pos _)
    _ = 2 ^ (wid + bit_g) := (Nat.pow_add ..).symm
    _ ≤ 2 ^ 32 := Nat.pow_le_pow_right (by decide) hbit

theorem slice_lt (v pos wid : ℕ) : slice v pos wid < 2 ^ wid := Nat.mod_lt _ (Nat.two_pow_pos wid)

theorem chopAlign_chops (hbif : bif_g < 32) (hbit : bit_g < 32)
    (hsrc : 32 * s + bif_g + (32 - bit_g) ≤ 32 * src_w.length) (hdst : d < dst_w.length) :
    Chops (chopAlign bif_g src_w bit_g dst_w d s) dst_w
      (slice (valueOf src_w) (32 * s + bif_g) (32 - bit_g) <<< (32 * d + bit_g)) := by
  obtain ⟨low_w, hlow, -, hslice⟩ :=
    @twoWords_eq bif_g s src_w hbif (32 - bit_g) (by omega) (Nat.sub_le _ _) hsrc
    (bit_g < bif_g) inferInstance (by omega)
  unfold chopAlign
  rw [hlow]
  show Chops (shlWord low_w bit_g >>= fun w ↦ xorWord dst_w d w) dst_w _
  rw [shlWord_eq hbit, hslice]
  have hchops :=
    xorWord_chops hdst (shiftLeft_lt (slice_lt (valueOf src_w) (32 * s + bif_g) (32 - bit_g))
    (show 32 - bit_g + bit_g ≤ 32 by omega))
  rw [← Nat.shiftLeft_add, Nat.add_comm bit_g] at hchops
  exact hchops

theorem chopMore_chops (hbif : bif_g < 32) (hwid : wid_d + bit_g ≤ 32) (hbit : bit_g < 32)
    (hfew : wid_d < 32) (hsrc : 32 * s + bif_g + wid_d ≤ 32 * src_w.length)
    (hdst : wid_d = 0 ∨ d < dst_w.length) :
    Chops (chopMore bif_g src_w wid_d bit_g dst_w d s) dst_w
      (slice (valueOf src_w) (32 * s + bif_g) wid_d <<< (32 * d + bit_g)) := by
  unfold chopMore
  by_cases hnone : wid_d = 0
  · rw [if_pos hnone, hnone, slice, Nat.pow_zero, Nat.mod_one, Nat.zero_shiftLeft]
    exact Chops.refl dst_w
  · obtain ⟨hig_w, hhig, -, hslice⟩ := @twoWords_eq bif_g s src_w hbif wid_d (by omega) hfew.le hsrc
      (32 - bif_g < wid_d) inferInstance (by omega)
    have hmask : shlWord 1 wid_d = .ok (2 ^ wid_d) := by
      have hone : 1 < 2 ^ (32 - wid_d) := Nat.one_lt_two_pow (by omega)
      rw [shlWord_eq hfew, Nat.mod_eq_of_lt hone, Nat.one_shiftLeft]
    have hlt := shiftLeft_lt (slice_lt (valueOf src_w) (32 * s + bif_g) wid_d) hwid
    have hkeep : shlWord (hig_w &&& (2 ^ wid_d - 1)) bit_g =
        .ok (slice (valueOf src_w) (32 * s + bif_g) wid_d <<< bit_g) := by
      rw [and_mask, hslice, shlWord, if_pos hbit, Nat.mod_eq_of_lt hlt]
    rw [if_neg hnone, hhig]
    show Chops (shlWord 1 wid_d >>= fun end_w ↦ shlWord (hig_w &&& (end_w - 1)) bit_g >>= fun w ↦
      xorWord dst_w d w) dst_w _
    rw [hmask]
    show Chops (shlWord (hig_w &&& (2 ^ wid_d - 1)) bit_g >>= fun w ↦ xorWord dst_w d w) dst_w _
    rw [hkeep]
    have hchops := xorWord_chops (hdst.resolve_left hnone) hlt
    rw [← Nat.shiftLeft_add, Nat.add_comm bit_g] at hchops
    exact hchops

theorem chopWhole_chops (hbif : bif_g < 32) (n : ℕ)
    (hsrc : n = 0 ∨ 32 * (s + n) + bif_g ≤ 32 * src_w.length)
    (hdst : n = 0 ∨ d + n ≤ dst_w.length) : Chops (chopWhole bif_g src_w n dst_w d s) dst_w
      (slice (valueOf src_w) (32 * s + bif_g) (32 * n) <<< (32 * d)) := by
  induction n generalizing dst_w d s with
  | zero =>
    rw [Nat.mul_zero, slice, Nat.pow_zero, Nat.mod_one, Nat.zero_shiftLeft]
    exact Chops.refl dst_w
  | succ n ih =>
    have hsrc := hsrc.resolve_left n.succ_ne_zero
    have hdst := hdst.resolve_left n.succ_ne_zero
    obtain ⟨w, hw, hlt, hslice⟩ := @twoWords_eq bif_g s src_w hbif 32 (by decide) le_rfl (by omega)
      (bif_g ≠ 0) inferInstance (by omega)
    rw [Nat.mod_eq_of_lt hlt] at hslice
    have hmeet := slice_meet (valueOf src_w) (32 * s + bif_g) 32 (32 * n) (32 * d)
    have hnext : 32 * s + bif_g + 32 = 32 * (s + 1) + bif_g := by omega
    rw [hnext, ← Nat.mul_succ 32 d, Nat.add_comm 32, ← Nat.mul_succ] at hmeet
    rw [chopWhole, hw, ← hmeet]
    show Chops (xorWord dst_w d w >>= fun dst_w ↦ chopWhole bif_g src_w n dst_w (d + 1)
      (s + 1)) dst_w _
    rw [hslice]
    refine (xorWord_chops (by omega) (slice_lt _ _ 32)).bind fun out hout ↦
      ih (.inr (by omega)) (.inr (by omega))

theorem chopAligned_chops (hbif : bif_g < 32) (hsrc : 32 * s + bif_g + wid_d ≤ 32 * src_w.length)
    (hdst : 32 * d + wid_d ≤ 32 * dst_w.length) :
    Chops (chopAligned bif_g src_w wid_d dst_w d s) dst_w
      (slice (valueOf src_w) (32 * s + bif_g) wid_d <<< (32 * d)) := by
  have hwords : wid_d >>> 5 = wid_d / 32 := Nat.shiftRight_eq_div_pow wid_d 5
  have hrest : wid_d &&& 31 = wid_d % 32 := and_mask wid_d 5
  have hsplit := Nat.div_add_mod wid_d 32
  have hless := Nat.mod_lt wid_d (show 32 > 0 by decide)
  unfold chopAligned
  simp only [hwords, hrest]
  generalize wid_d / 32 = n at hsplit ⊢
  generalize wid_d % 32 = rest at hsplit hless ⊢
  have hmeet := slice_meet (valueOf src_w) (32 * s + bif_g) (32 * n) rest (32 * d)
  have hpos : 32 * s + bif_g + 32 * n = 32 * (s + n) + bif_g := by omega
  rw [hsplit, hpos, ← Nat.mul_add] at hmeet
  rw [← hmeet]
  refine (chopWhole_chops hbif n (.inr (by omega)) (.inr (by omega))).bind fun out hout ↦ ?_
  exact chopMore_chops hbif (by omega) (by decide) hless (by omega) (by omega)

theorem chopBits_chops (hbif : bif_g < 32) (hbit : bit_g < 32)
    (hsrc : 32 * s + bif_g + wid_d ≤ 32 * src_w.length)
    (hdst : 32 * d + bit_g + wid_d ≤ 32 * dst_w.length) :
    Chops (chopBits bif_g src_w wid_d bit_g dst_w d s) dst_w
      (slice (valueOf src_w) (32 * s + bif_g) wid_d <<< (32 * d + bit_g)) := by
  unfold chopBits
  dsimp only
  by_cases hmany : 32 - bit_g ≤ wid_d
  · rw [if_pos hmany]
    by_cases haligned : bit_g ≠ 0
    · rw [if_pos haligned]
      obtain ⟨rest, rfl⟩ := Nat.exists_eq_add_of_le hmany
      rw [← slice_meet, Nat.add_sub_cancel_left]
      have hoff : (bif_g + (32 - bit_g)) &&& 31 = (bif_g + (32 - bit_g)) % 32 := and_mask _ 5
      have hstep :
          (bif_g + (32 - bit_g)) >>> 5 = (bif_g + (32 - bit_g)) / 32 :=
            Nat.shiftRight_eq_div_pow _ 5
      refine (chopAlign_chops hbif hbit (by omega) (by omega)).bind fun out hout ↦ ?_
      have hnext :
          (if (bif_g + (32 - bit_g)) / 32 ≠ 0 then s + 1 else s) =
            s + (bif_g + (32 - bit_g)) / 32 := by
        split_ifs <;> omega
      have hpos : 32 * s + bif_g + (32 - bit_g) =
          32 * (s + (bif_g + (32 - bit_g)) / 32) + (bif_g + (32 - bit_g)) % 32 := by omega
      rw [hoff, hstep, hnext, hpos, show 32 * d + bit_g + (32 - bit_g) = 32 * (d + 1) by omega]
      exact chopAligned_chops (Nat.mod_lt _ (by decide)) (by omega) (by omega)
    · obtain rfl := not_not.mp haligned
      rw [if_neg haligned]
      exact chopAligned_chops hbif hsrc hdst
  · rw [if_neg hmany]
    exact chopMore_chops hbif (by omega) hbit (by omega) hsrc (by omega)

end Pieces

/-! ### Positions in bloqs -/

theorem getD_take (words : List UInt32) (n k : ℕ) :
    (words.take n).getD k 0 = if k < n then words.getD k 0 else 0 := by
  rw [List.getD_eq_getElem?_getD, List.getElem?_take, List.getD_eq_getElem?_getD]
  split <;> rfl

theorem slice_take {n pos : ℕ} (hends : pos + wid ≤ 32 * n) :
    slice (valueOf (words.take n)) pos wid = slice (valueOf words) pos wid := by
  refine Nat.eq_of_testBit_eq fun i ↦ ?_
  rw [testBit_slice, testBit_slice, testBit_valueOf, testBit_valueOf, getD_take]
  by_cases hi : i < wid
  · rw [if_pos (by omega)]
  · rw [decide_eq_false hi, Bool.false_and, Bool.false_and]

theorem slice_valueOf_past {pos : ℕ} (hpast : 32 * words.length ≤ pos) :
    slice (valueOf words) pos wid = 0 := by
  refine Nat.eq_of_testBit_eq fun i ↦ ?_
  rw [testBit_slice, testBit_valueOf, List.getD_eq_default _ _ (by omega), Nat.zero_testBit]
  exact (congrArg _ (Nat.zero_testBit _)).trans (Bool.and_false _)

theorem slice_clip {pos : ℕ} (hpos : pos ≤ 32 * words.length)
    (hpast : 32 * words.length < pos + wid) :
    slice (valueOf words) pos wid =
      slice (valueOf words) pos (wid - (pos + wid - 32 * words.length)) := by
  have hmeet :=
    slice_meet (valueOf words) pos (32 * words.length - pos) (pos + wid - 32 * words.length) 0
  rw [Nat.add_sub_cancel' hpos, slice_valueOf_past le_rfl, Nat.zero_shiftLeft, Nat.xor_zero,
    Nat.shiftLeft_zero,
    Nat.shiftLeft_zero,
    show 32 * words.length - pos + (pos + wid - 32 * words.length) = wid by omega] at hmeet
  rw [← hmeet, show wid - (pos + wid - 32 * words.length) = 32 * words.length - pos by omega]

theorem shlChub_eq {n : ℕ} (hw : w < 2 ^ 32) (hn : n < 32) :
    shlChub w n = .ok (w * 2 ^ n) ∧ w * 2 ^ n < 2 ^ 63 := by
  have hlt : w * 2 ^ n < 2 ^ 63 :=
    calc w * 2 ^ n < 2 ^ 32 * 2 ^ n := Nat.mul_lt_mul_of_pos_right hw (Nat.two_pow_pos n)
      _ = 2 ^ (32 + n) := (Nat.pow_add ..).symm
      _ ≤ 2 ^ 63 := Nat.pow_le_pow_right (by decide) (by omega)
  refine ⟨?_, hlt⟩
  rw [shlChub, if_pos (by omega), Nat.shiftLeft_eq, Nat.mod_eq_of_lt (hlt.trans (by decide))]

section Bloqs

variable {met_g fum_w wid_w tou_w len_w : ℕ} {dst_w src_w : List UInt32}

/-- `u3r_chop_words()` xors the slice of the first words of the source into the destination. -/
theorem chopWords_chops (hmet : met_g < 32) (hfum : fum_w < 2 ^ 32) (hwid : wid_w < 2 ^ 32)
    (htou : tou_w < 2 ^ 32) (hlen : len_w < 2 ^ 32) (hsrc : len_w ≤ src_w.length)
    (hdst : (tou_w + wid_w) * 2 ^ met_g ≤ 32 * dst_w.length) :
    Chops (chopWords met_g fum_w wid_w tou_w dst_w len_w src_w) dst_w
      (slice (valueOf (src_w.take len_w)) (fum_w * 2 ^ met_g) (wid_w * 2 ^ met_g) <<<
        (tou_w * 2 ^ met_g)) := by
  have hlength : (src_w.take len_w).length = len_w := by rw [List.length_take, Nat.min_eq_left hsrc]
  rw [Nat.add_mul] at hdst
  unfold chopWords
  by_cases hword : 5 ≤ met_g
  · have hbloq : ∀ k, k * 2 ^ met_g = 32 * (k * 2 ^ (met_g - 5)) := fun k ↦ by
      rw [← Nat.mul_assoc, Nat.mul_comm 32, Nat.mul_assoc, show 32 = 2 ^ 5 from rfl, ← Nat.pow_add,
        Nat.add_sub_cancel' hword]
    obtain ⟨hshift, hfum'⟩ := shlChub_eq hfum (show met_g - 5 < 32 by omega)
    obtain ⟨hshift', htou'⟩ := shlChub_eq htou (show met_g - 5 < 32 by omega)
    obtain ⟨hshift'', hwid'⟩ := shlChub_eq hwid (show met_g - 5 < 32 by omega)
    have hback : (fum_w * 2 ^ (met_g - 5)) >>> (met_g - 5) = fum_w := by
      rw [Nat.shiftRight_eq_div_pow, Nat.mul_div_cancel _ (Nat.two_pow_pos _)]
    rw [if_pos hword]
    dsimp only
    rw [hshift, hshift', hshift'']
    dsimp only [bind, Except.bind]
    rw [hback]
    simp only [hbloq] at hdst ⊢
    generalize fum_w * 2 ^ (met_g - 5) = fum_i at hfum' ⊢
    generalize wid_w * 2 ^ (met_g - 5) = wid_i at hwid' hdst ⊢
    generalize tou_w * 2 ^ (met_g - 5) = tou_i at hdst ⊢
    have htot : (fum_i + wid_i) % 2 ^ 64 = fum_i + wid_i := Nat.mod_eq_of_lt (by omega)
    rw [htot, if_neg (by omega)]
    by_cases hpast : len_w ≤ fum_i
    · rw [if_pos hpast, slice_valueOf_past (by omega), Nat.zero_shiftLeft]
      exact Chops.refl dst_w
    · rw [if_neg hpast]
      have hwhole : ∀ n ≤ wid_i, fum_i + n ≤ len_w →
        Chops (chopWhole 0 src_w n dst_w tou_i fum_i) dst_w
          (slice (valueOf (src_w.take len_w)) (32 * fum_i) (32 * n) <<< (32 * tou_i)) :=
            fun n hn hends ↦ by
        rw [slice_take (by omega)]
        exact chopWhole_chops (by decide) n (.inr (by omega)) (.inr (by omega))
      by_cases hmany : len_w < fum_i + wid_i
      · rw [if_pos hmany, slice_clip (by omega) (by omega), hlength,
          show 32 * wid_i - (32 * fum_i + 32 * wid_i - 32 * len_w) =
            32 * (wid_i - (fum_i + wid_i - len_w)) by omega]
        exact hwhole _ (Nat.sub_le _ _) (by omega)
      · rw [if_neg hmany]
        exact hwhole _ le_rfl (by omega)
  · obtain ⟨hshift, hfum'⟩ := shlChub_eq hfum hmet
    obtain ⟨hshift', htou'⟩ := shlChub_eq htou hmet
    obtain ⟨hshift'', hwid'⟩ := shlChub_eq hwid hmet
    obtain ⟨hshift5, hlen'⟩ := shlChub_eq hlen (show 5 < 32 by decide)
    have hback : (fum_w * 2 ^ met_g) >>> met_g = fum_w := by
      rw [Nat.shiftRight_eq_div_pow, Nat.mul_div_cancel _ (Nat.two_pow_pos _)]
    rw [if_neg hword, hshift, hshift', hshift'', hshift5]
    dsimp only [bind, Except.bind]
    rw [hback]
    generalize fum_w * 2 ^ met_g = fum_d at hfum' ⊢
    generalize wid_w * 2 ^ met_g = wid_d at hwid' hdst ⊢
    generalize tou_w * 2 ^ met_g = tou_d at hdst ⊢
    have htot : (fum_d + wid_d) % 2 ^ 64 = fum_d + wid_d := Nat.mod_eq_of_lt (by omega)
    have hfive : len_w * 2 ^ 5 = 32 * len_w := Nat.mul_comm _ _
    rw [htot, if_neg (by omega), hfive]
    by_cases hpast : 32 * len_w < fum_d
    · rw [if_pos hpast, slice_valueOf_past (by omega), Nat.zero_shiftLeft]
      exact Chops.refl dst_w
    · rw [if_neg hpast]
      have hbits : ∀ n ≤ wid_d, fum_d + n ≤ 32 * len_w →
          Chops (chopBits (fum_d &&& 31) src_w n (tou_d &&& 31) dst_w (tou_d >>> 5)
            (fum_d >>> 5)) dst_w
            (slice (valueOf (src_w.take len_w)) fum_d n <<< tou_d) := fun n hn hends ↦ by
        have hoff : ∀ k, k &&& 31 = k % 32 := fun k ↦ and_mask k 5
        have hindex : ∀ k, k >>> 5 = k / 32 := fun k ↦ Nat.shiftRight_eq_div_pow k 5
        have hchops :=
          @chopBits_chops (fum_d % 32) (tou_d % 32) n (tou_d / 32) (fum_d / 32) src_w dst_w
          (Nat.mod_lt _ (by decide)) (Nat.mod_lt _ (by decide)) (by omega) (by omega)
        rw [Nat.div_add_mod, Nat.div_add_mod] at hchops
        rw [hoff, hoff, hindex, hindex, slice_take hends]
        exact hchops
      by_cases hmany : 32 * len_w < fum_d + wid_d
      · rw [if_pos hmany, slice_clip (by omega) (by omega), hlength]
        exact hbits _ (Nat.sub_le _ _) (by omega)
      · rw [if_neg hmany]
        exact hbits _ le_rfl (by omega)

theorem toNat_wordOf (d k : ℕ) : (wordOf d k).toNat = bufW d k := by
  rw [wordOf, UInt32.toNat_ofNat', bufW, Nat.shiftRight_eq_div_pow]

theorem length_bufWords (d : ℕ) : (bufWords d).length = lenW d := by
  rw [bufWords, List.length_map, List.length_range]

theorem valueOf_bufWords (d : ℕ) : valueOf (bufWords d) = d := by
  refine eq_of_bufW fun k ↦ ?_
  rw [bufW_valueOf]
  by_cases hk : k < lenW d
  · have hitem : (bufWords d)[k]? = some (wordOf d k) := by
      rw [bufWords, List.getElem?_map, List.getElem?_range hk, Option.map_some]
    rw [List.getD_eq_getElem?_getD, hitem, Option.getD_some, toNat_wordOf]
  · rw [List.getD_eq_default _ _ ((length_bufWords d).le.trans (Nat.not_lt.mp hk)),
      bufW_eq_zero (Nat.not_lt.mp hk)]
    rfl

theorem valueOf_ofNat {d : ℕ} (hd : d < 2 ^ 32) : valueOf [UInt32.ofNat d] = d := by
  show valueOf (UInt32.ofNat d :: []) = d
  rw [valueOf_cons, UInt32.toNat_ofNat_of_lt' hd]
  exact Nat.zero_add d

theorem chop_chops (hmet : met_g < 32) (hfum : fum_w < 2 ^ 32) (hwid : wid_w < 2 ^ 32)
    (htou : tou_w < 2 ^ 32) {src : ℕ} (hfits : lenW src ≤ maximum)
    (hdst : (tou_w + wid_w) * 2 ^ met_g ≤ 32 * dst_w.length) :
    Chops (chop met_g fum_w wid_w tou_w dst_w src) dst_w
      (slice src (fum_w * 2 ^ met_g) (wid_w * 2 ^ met_g) <<< (tou_w * 2 ^ met_g)) := by
  unfold maximum at hfits
  unfold chop
  by_cases hdirect : src < 2 ^ 31
  · rw [if_pos hdirect, if_pos hdirect]
    by_cases hsome : src ≠ 0
    · have hchops := @chopWords_chops met_g fum_w wid_w tou_w 1 dst_w
        [UInt32.ofNat src] hmet hfum hwid htou (by decide)
        le_rfl hdst
      rw [List.take_of_length_le (by exact le_rfl),
        valueOf_ofNat (hdirect.trans (by decide))] at hchops
      rw [if_pos hsome]
      exact hchops
    · obtain rfl := not_not.mp hsome
      rw [if_neg hsome]
      exact chopWords_chops hmet hfum hwid htou (by decide) (Nat.zero_le _) hdst
  · have hchops :=
      @chopWords_chops met_g fum_w wid_w tou_w (lenW src) dst_w (bufWords src) hmet hfum hwid htou
      (by omega) (length_bufWords src).ge hdst
    rw [List.take_of_length_le (length_bufWords src).le, valueOf_bufWords] at hchops
    rw [if_neg hdirect, if_neg hdirect]
    exact hchops

end Bloqs

/-- Into a destination with room for it, each copy xors exactly the slice, with zeros past the end
of the source. -/
theorem chop_xors :
    (∀ bif_g < 32, ∀ bit_g < 32, ∀ (wid_d d s : ℕ) (dst_w src_w : List UInt32),
      32 * s + bif_g + wid_d ≤ 32 * src_w.length → 32 * d + bit_g + wid_d ≤ 32 * dst_w.length →
      Chops (chopBits bif_g src_w wid_d bit_g dst_w d s) dst_w
        (slice (valueOf src_w) (32 * s + bif_g) wid_d <<< (32 * d + bit_g))) ∧
    (∀ met_g < 32, ∀ (fum_w wid_w tou_w len_w : UInt32) (dst_w src_w : List UInt32),
    len_w.toNat ≤ src_w.length →
      (tou_w.toNat + wid_w.toNat) * 2 ^ met_g ≤ 32 * dst_w.length →
      Chops (chopWords met_g fum_w.toNat wid_w.toNat tou_w.toNat dst_w len_w.toNat src_w) dst_w
        (slice (valueOf (src_w.take len_w.toNat)) (fum_w.toNat * 2 ^ met_g)
          (wid_w.toNat * 2 ^ met_g) <<<
          (tou_w.toNat * 2 ^ met_g))) ∧
    ∀ met_g < 32, ∀ (fum_w wid_w tou_w : UInt32) (dst_w : List UInt32) (src : LoomAtom),
      (tou_w.toNat + wid_w.toNat) * 2 ^ met_g ≤ 32 * dst_w.length →
      Chops (chop met_g fum_w.toNat wid_w.toNat tou_w.toNat dst_w src.val) dst_w
        (slice src.val (fum_w.toNat * 2 ^ met_g) (wid_w.toNat * 2 ^ met_g) <<<
          (tou_w.toNat * 2 ^ met_g)) := by
  refine ⟨fun bif_g hbif bit_g hbit wid_d d s dst_w src_w ↦ chopBits_chops hbif hbit, ?_, ?_⟩
  · intro met_g hmet fum_w wid_w tou_w len_w dst_w src_w
    exact chopWords_chops hmet fum_w.toNat_lt wid_w.toNat_lt tou_w.toNat_lt len_w.toNat_lt
  · intro met_g hmet fum_w wid_w tou_w dst_w src
    exact chop_chops hmet fum_w.toNat_lt wid_w.toNat_lt tou_w.toNat_lt src.fits

/-- Two bytes of an atom that are copied over a word border. -/
theorem chop_xors_bytes :
    Chops (chop 3 1 2 3 [0xff, 0xff] 0x01020304) [0xff, 0xff] (0x0203 <<< 24) := by
  have hfits : lenW 0x01020304 ≤ maximum := by
    have hsize : (0x01020304).size ≤ 32 := Nat.size_le.mpr (by decide)
    unfold lenW maximum
    omega
  have hchops := chop_xors.2.2 3 (by decide) 1 2 3 [0xff, 0xff] ⟨0x01020304, hfits⟩ (by decide)
  have hslice : slice 0x01020304 (1 * 2 ^ 3) (2 * 2 ^ 3) <<< (3 * 2 ^ 3) =
    0x0203 <<< 24 := by decide
  rw [UInt32.toNat_one, show (2 : UInt32).toNat = 2 from rfl, show (3 : UInt32).toNat = 3 from rfl,
    hslice] at hchops
  exact hchops

end Vere.Noun
