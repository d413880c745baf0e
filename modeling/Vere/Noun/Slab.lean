import Vere.Noun.AllocateRun
import Vere.Noun.SerialCue

/-!
# Sizes of slabs

`u3i_slab_init()` on a road. The words of a slab are checked in 64 bits by `_ci_slab_size()`, and
the headers of the atom and of its box are added to them in 32. `slabInit_iff` says which lengths
give a slab that is long enough on every road: those of at most `2 ^ 32 - 6` words. The words of
longer ones are counted as fewer, or the size of their box is, and then an assertion fails.
-/

set_option autoImplicit false

namespace Vere.Noun.Imprison

open Allocate Serial

/-- Why a slab is not made: `u3m_bail(c3__fail)`, or what becomes of the allocation. -/
inductive Bail
  | fail : Bail
  | fault (f : Fault) : Bail

/-- `u3i_slab` when it has been made: its heap atom, or null when the buffer is the static word, and
its length. -/
structure RoadSlab where
  vat_u : Option ℕ
  len_w : ℕ

/-- `memset()` of words to zero. -/
def memset (r : Road) (buf_w : ℕ) : ℕ → Road
  | 0 => r
  | len + 1 => (memset r buf_w len).put (buf_w + len) 0

/-- `c3_wiseof(u3a_atom)`. -/
def wiseofAtom : ℕ := 2

/-- `_ci_slab_init()`. -/
def ciSlabInit (fuel : ℕ) (r : Road) (len_w : ℕ) : Except Bail (Road × RoadSlab) :=
  match walloc fuel r ((len_w + wiseofAtom) % 2 ^ 32) with
  | .error f => .error (.fault f)
  | .ok (r, nov_w) => .ok ((r.put nov_w 0).put (nov_w + 1) len_w, ⟨some nov_w, len_w⟩)

/-- `u3i_slab_bare()`. -/
def slabBare (fuel : ℕ) (r : Road) (met_g len_d : ℕ) : Except Bail (Road × RoadSlab) :=
  match ciSlabSize met_g len_d with
  | none => .error .fail
  | some wor_w => if wor_w = 0 ∨ wor_w = 1 then .ok (r, ⟨none, 1⟩) else ciSlabInit fuel r wor_w

/-- `u3i_slab_init()`. -/
def slabInit (fuel : ℕ) (r : Road) (met_g len_d : ℕ) : Except Bail (Road × RoadSlab) :=
  match slabBare fuel r met_g len_d with
  | .error e => .error e
  | .ok (r, ⟨none, len_w⟩) => .ok (r, ⟨none, len_w⟩)
  | .ok (r, ⟨some vat_u, len_w⟩) => .ok (memset r (vat_u + wiseofAtom) len_w, ⟨some vat_u, len_w⟩)

/-- The words that a length needs. -/
def wordsOf (met_g len_d : ℕ) : ℕ := (len_d * 2 ^ met_g + 31) / 32

/-- The slab has a number of words: it is that long, and a static slab has one word, while the box
of a heap atom has room for its two words in front, the two of the atom, the buffer and the word at
the end. -/
def RoadSlab.Holds (r : Road) (sab_u : RoadSlab) (words : ℕ) : Prop :=
  words ≤ sab_u.len_w ∧
    match sab_u.vat_u with
    | none => words ≤ 1
    | some vat_u => words + 5 ≤ r.loom (vat_u - 2)

/-- On every road that calls to the allocator lead to, a slab of a length is not made, or has the
words that the length needs. -/
def SlabMade (met_g len_d : ℕ) : Prop :=
  ∀ r live, Run Call.Fits r live → ∃ need, ∀ fuel, need ≤ fuel →
    match slabInit fuel r met_g len_d with
    | .ok (r', sab_u) => sab_u.Holds r' (wordsOf met_g len_d)
    | .error e => e ≠ .fault .assertion ∧ e ≠ .fault .steps

/-! ### Counting the words -/

section Words

variable {met_g len_d wor_w : ℕ}

/-- A length that is accepted is counted right, unless the rounding overflows to zero words. -/
theorem ciSlabSize_words (haccept : ciSlabSize met_g len_d = some wor_w) :
    wor_w < 2 ^ 32 ∧ (wor_w = wordsOf met_g len_d ∨ wor_w = 0 ∧ 2 ^ 32 ≤ wordsOf met_g len_d) := by
  unfold ciSlabSize at haccept
  dsimp only at haccept
  rw [Nat.shiftLeft_eq] at haccept
  split at haccept
  · cases haccept
  rename_i hgood
  obtain ⟨hfits, hback⟩ := not_or.mp hgood
  rw [not_not] at hfits hback
  obtain rfl := Option.some.inj haccept
  -- no bit of the length is shifted out
  have hwhole : len_d * 2 ^ met_g = len_d * 2 ^ met_g % 2 ^ 64 := by
    refine Nat.le_antisymm ?_ (Nat.mod_le _ _)
    conv_lhs => rw [hback, Nat.shiftRight_eq_div_pow]
    exact Nat.div_mul_le_self _ _
  have hsmall : len_d * 2 ^ met_g % 2 ^ 64 < 2 ^ 64 := Nat.mod_lt _ (by decide)
  refine ⟨Nat.mod_lt _ (by decide), ?_⟩
  rw [hfits, wordsOf, Nat.shiftRight_eq_div_pow]
  generalize len_d * 2 ^ met_g % 2 ^ 64 = bit_d at hwhole hsmall
  rw [hwhole]
  omega

/-- A length of not too many words is accepted. -/
theorem ciSlabSize_of_le (hfits : wordsOf met_g len_d ≤ 2 ^ 32 - 6) :
    ciSlabSize met_g len_d = some (wordsOf met_g len_d) := by
  have hbits : len_d * 2 ^ met_g < 2 ^ 37 := by
    unfold wordsOf at hfits
    omega
  have hback : (len_d * 2 ^ met_g) >>> met_g = len_d := by
    rw [Nat.shiftRight_eq_div_pow, Nat.mul_div_cancel _ (Nat.two_pow_pos met_g)]
  unfold ciSlabSize
  dsimp only
  rw [Nat.shiftLeft_eq, Nat.mod_eq_of_lt (hbits.trans (by decide)), hback]
  unfold wordsOf at hfits ⊢
  generalize len_d * 2 ^ met_g = bit_d at hbits hfits
  rw [Nat.shiftRight_eq_div_pow, Nat.mod_eq_of_lt (show bit_d + 0x1f < 2 ^ 64 by omega)]
  show (if (bit_d + 31) / 32 % 2 ^ 32 ≠ (bit_d + 31) / 32 ∨ len_d ≠ len_d then _ else
    some ((bit_d + 31) / 32 % 2 ^ 32)) = _
  rw [Nat.mod_eq_of_lt (show (bit_d + 31) / 32 < 2 ^ 32 by omega),
    if_neg fun hor ↦ hor.elim (· rfl) (· rfl)]

end Words

/-! ### Making the slab -/

variable {r : Road}

theorem memset_below {buf_w w : ℕ} (len : ℕ) (hlt : w < buf_w) :
    (memset r buf_w len).loom w = r.loom w := by
  induction len with
  | zero => rfl
  | succ len ih =>
    rw [memset, Road.loom_put, Function.update_of_ne (by omega)]
    exact ih

/-- Below the atom nothing is written. -/
theorem slab_below {nov_w w : ℕ} (len_w : ℕ) (hlt : w < nov_w) :
    (memset ((r.put nov_w 0).put (nov_w + 1) len_w) (nov_w + wiseofAtom) len_w).loom w =
      r.loom w := by
  rw [memset_below _ (by omega), Road.loom_put, Road.loom_put, Function.update_of_ne (by omega),
    Function.update_of_ne (by omega)]

theorem slabInit_static {fuel : ℕ} {met_g len_d wor_w : ℕ}
    (haccept : ciSlabSize met_g len_d = some wor_w) (hfew : wor_w = 0 ∨ wor_w = 1) :
    slabInit fuel r met_g len_d = .ok (r, ⟨none, 1⟩) := by
  unfold slabInit slabBare
  rw [haccept]
  simp only [if_pos hfew]

theorem slabInit_heap {fuel : ℕ} {met_g len_d wor_w : ℕ}
    (haccept : ciSlabSize met_g len_d = some wor_w) (hmany : ¬ (wor_w = 0 ∨ wor_w = 1)) :
    slabInit fuel r met_g len_d =
      match walloc fuel r ((wor_w + wiseofAtom) % 2 ^ 32) with
      | .error f => .error (.fault f)
      | .ok (r, nov_w) =>
        .ok (memset ((r.put nov_w 0).put (nov_w + 1) wor_w) (nov_w + wiseofAtom) wor_w,
          ⟨some nov_w, wor_w⟩) := by
  unfold slabInit slabBare
  rw [haccept]
  simp only [if_neg hmany, ciSlabInit]
  cases walloc fuel r ((wor_w + wiseofAtom) % 2 ^ 32) with
  | error f => rfl
  | ok res => rfl

/-- A slab whose box has a size that fits in a word is long enough. -/
theorem slabMade_of_le {met_g len_d wor_w : ℕ} (haccept : ciSlabSize met_g len_d = some wor_w)
    (hwords : wor_w = wordsOf met_g len_d) (hle : wor_w ≤ 2 ^ 32 - 6) : SlabMade met_g len_d := by
  intro r live hrun
  by_cases hfew : wor_w = 0 ∨ wor_w = 1
  · refine ⟨0, fun fuel _ ↦ ?_⟩
    rw [slabInit_static haccept hfew, ← hwords]
    show wor_w ≤ 1 ∧ wor_w ≤ 1
    omega
  · have hword : (wor_w + wiseofAtom) % 2 ^ 32 = wor_w + 2 :=
      Nat.mod_eq_of_lt (by unfold wiseofAtom; omega)
    have hlen : wor_w + 2 + 3 < 2 ^ 32 := by omega
    obtain ⟨bs, hrep, hsettled, -⟩ := hrun.settles
    obtain ⟨need, hneed⟩ := hrep.walloc_ends hlen hsettled
    refine ⟨need, fun fuel hfuel ↦ ?_⟩
    have hends := hneed fuel hfuel
    have halloc := hrep.walloc hsettled fuel hlen
    rw [slabInit_heap haccept hfew, hword]
    cases hwalloc : walloc fuel r (wor_w + 2) with
    | error f =>
      rw [hwalloc] at hends halloc
      exact ⟨fun heq ↦ halloc (Bail.fault.inj heq),
        fun heq ↦ hends (congrArg _ (Bail.fault.inj heq))⟩
    | ok res =>
      rw [hwalloc] at halloc
      obtain ⟨bs', hkept⟩ := halloc
      have hmem : (res.2, wor_w + 2) ∈ livesOf bs' := hkept.lives.mem_iff.mpr List.mem_cons_self
      obtain ⟨xs, b, ys, rfl, hstate, hpos⟩ := exists_live hmem
      have hbox := (hkept.rep.ok b (by simp)).2
      rw [hstate] at hbox
      obtain ⟨⟨hsize, -⟩, -, hroom⟩ := hbox
      refine ⟨Nat.le_of_eq hwords.symm, ?_⟩
      show wordsOf met_g len_d + 5 ≤ Road.loom _ (res.2 - 2)
      rw [slab_below _ (by omega), hpos, Nat.add_sub_cancel, hsize, ← hwords]
      exact hroom

/-- On an empty road the search goes through the free lists to the hat. -/
theorem scan_empty (len_w more : ℕ) {left sel : ℕ} (hsel : sel + left = fboxNo - 1) :
    caWillocScan caReclaimHalf len_w 1 (more + left + 1) emptyRoad 0 sel (.fre sel) =
      caWillocScan caReclaimHalf len_w 1 (more + 1) emptyRoad 0 (fboxNo - 1)
        (.fre (fboxNo - 1)) := by
  induction left generalizing sel with
  | zero =>
    obtain rfl : sel = fboxNo - 1 := hsel
    rfl
  | succ left ih =>
    have hnull : emptyRoad.get (.fre sel) = 0 := rfl
    rw [← @ih (sel + 1) (by omega), show more + (left + 1) + 1 = more + left + 1 + 1 from rfl]
    conv_lhs => rw [caWillocScan]
    rw [if_pos hnull, if_pos (by omega)]

/-- Where the sum for the atom wraps, an empty road gives the smallest box. -/
theorem walloc_wraps {len_w : ℕ} (hwraps : 2 ^ 32 - 2 ≤ len_w) (hlt : len_w < 2 ^ 32) (more : ℕ) :
    ∃ r, walloc (more + fboxNo) emptyRoad ((len_w + wiseofAtom) % 2 ^ 32) = .ok (r, 3) ∧
      r.loom 1 = minimum := by
  have hsize : caWillocSize ((len_w + wiseofAtom) % 2 ^ 32) = minimum := by
    unfold caWillocSize wiseofAtom minimum
    omega
  have hslot : caWillocSlot ((len_w + wiseofAtom) % 2 ^ 32) = 2 := by
    unfold caWillocSlot
    rw [hsize]
    rfl
  have hhat : ∃ r, caBoxMakeHat emptyRoad minimum 1 0 1 = .ok (some (r, 1)) ∧
      r.loom 1 = minimum := by
    have hpad : meAlignPad emptyRoad.hat_p 1 0 = 0 := meAlignPad_one (by decide)
    have hsix : (minimum + 0) % 2 ^ 32 = minimum := by decide
    unfold caBoxMakeHat
    rw [if_pos (by decide)]
    dsimp only
    rw [hpad, hsix, if_neg (by decide)]
    exact ⟨_, rfl, rfl⟩
  obtain ⟨r, hmake, hloom⟩ := hhat
  refine ⟨r, ?_, hloom⟩
  unfold walloc caWilloc
  rw [hslot]
  have hscan := scan_empty ((len_w + wiseofAtom) % 2 ^ 32) (more + 2) (show 2 + 24 = fboxNo - 1
    from rfl)
  refine Eq.trans hscan ?_
  have hnull : emptyRoad.get (.fre (fboxNo - 1)) = 0 := rfl
  rw [caWillocScan, if_pos hnull, if_neg (Nat.lt_irrefl _), hsize, hmake]
  rfl

/-- Where the size of the box wraps, it is below the minimum, and an empty road does not make it. -/
theorem walloc_asserts {len_w : ℕ} (hwraps : 2 ^ 32 - 5 ≤ len_w) (hlt : len_w < 2 ^ 32 - 2)
    (more : ℕ) :
    walloc (more + fboxNo) emptyRoad ((len_w + wiseofAtom) % 2 ^ 32) = .error .assertion := by
  obtain ⟨siz_w, hsize, hsmall⟩ : ∃ siz_w, caWillocSize ((len_w + wiseofAtom) % 2 ^ 32) = siz_w ∧
      siz_w < 3 := by
    refine ⟨_, rfl, ?_⟩
    unfold caWillocSize wiseofAtom minimum
    omega
  have hthree : siz_w = 0 ∨ siz_w = 1 ∨ siz_w = 2 := by omega
  have hslot : caWillocSlot ((len_w + wiseofAtom) % 2 ^ 32) = 0 := by
    unfold caWillocSlot
    rw [hsize]
    rcases hthree with rfl | rfl | rfl <;> rfl
  have hmake : caBoxMakeHat emptyRoad siz_w 1 0 1 = .error .assertion := by
    have hpad : meAlignPad emptyRoad.hat_p 1 0 = 0 := meAlignPad_one (by decide)
    unfold caBoxMakeHat
    rw [if_pos (by decide)]
    dsimp only
    rw [hpad, Nat.add_zero, Nat.mod_eq_of_lt (by omega)]
    rcases hthree with rfl | rfl | rfl <;> rfl
  unfold walloc caWilloc
  rw [hslot]
  have hscan := scan_empty ((len_w + wiseofAtom) % 2 ^ 32) more (show 0 + 26 = fboxNo - 1 from rfl)
  refine Eq.trans hscan ?_
  have hnull : emptyRoad.get (.fre (fboxNo - 1)) = 0 := rfl
  rw [caWillocScan, if_pos hnull, if_neg (Nat.lt_irrefl _), hsize, hmake]
  rfl

theorem not_slabMade_of_zero {met_g len_d : ℕ} (haccept : ciSlabSize met_g len_d = some 0)
    (hmany : 1 < wordsOf met_g len_d) : ¬ SlabMade met_g len_d := by
  intro hmade
  obtain ⟨need, hneed⟩ := hmade emptyRoad [] (.empty emptyRoad_empty)
  have hholds := hneed need (Nat.le_refl _)
  rw [slabInit_static haccept (Or.inl rfl)] at hholds
  exact Nat.not_le_of_lt hmany hholds.1

theorem not_slabMade_of_wraps {met_g len_d wor_w : ℕ}
    (haccept : ciSlabSize met_g len_d = some wor_w) (hwraps : 2 ^ 32 - 5 ≤ wor_w)
    (hlt : wor_w < 2 ^ 32) (hwords : wor_w = wordsOf met_g len_d) :
    ¬ SlabMade met_g len_d := by
  intro hmade
  obtain ⟨need, hneed⟩ := hmade emptyRoad [] (.empty emptyRoad_empty)
  have hholds := hneed (need + fboxNo) (Nat.le_add_right _ _)
  rw [slabInit_heap haccept (by omega)] at hholds
  by_cases hasserts : wor_w < 2 ^ 32 - 2
  · rw [walloc_asserts hwraps hasserts need] at hholds
    exact hholds.1 rfl
  obtain ⟨r, hwalloc, hsize⟩ := walloc_wraps (Nat.le_of_not_lt hasserts) hlt need
  rw [hwalloc] at hholds
  have hroom : wordsOf met_g len_d + 5 ≤ Road.loom _ (3 - 2) := hholds.2
  rw [slab_below _ (by decide), hsize] at hroom
  unfold minimum at hroom
  omega

/-- Of the lengths that `_ci_slab_size()` accepts, those of at most `2 ^ 32 - 6` words give a slab
that is long enough. -/
theorem slabInit_iff {met_g len_d wor_w : ℕ} (haccept : ciSlabSize met_g len_d = some wor_w) :
    SlabMade met_g len_d ↔ wordsOf met_g len_d ≤ 2 ^ 32 - 6 := by
  obtain ⟨hlt, hwords | ⟨rfl, hmany⟩⟩ := ciSlabSize_words haccept
  · rw [← hwords]
    constructor
    · intro hmade
      by_contra hlarge
      exact not_slabMade_of_wraps haccept (by omega) hlt hwords hmade
    · exact slabMade_of_le haccept hwords
  · exact iff_of_false (not_slabMade_of_zero haccept (by omega)) (by omega)

theorem slabInit_hundred : SlabMade 3 100 :=
  (@slabInit_iff 3 100 25 rfl).mpr (by decide)

/-- The jam of an atom, up to its body, that declares `2 ^ 37 - 32` bits. -/
def declares : List UInt8 := [0, 0, 0, 0, 0x40, 0xf0, 0xff, 0xff, 0xff, 0x07]

/-- `u3s_cue_bytes()` asks for a slab of `2 ^ 32 - 1` words and gets a box of six; a slab of
`2 ^ 64 - 1` bits is one word. -/
theorem slabInit_short : (∃ red body, Ur.bsrTag (Ur.bsrInit declares) = .ok (.atom, red) ∧
      Ur.bsrRubLen red = .ok (2 ^ 37 - 32, body)) ∧
    ciSlabSize 0 (2 ^ 37 - 32) = some (2 ^ 32 - 1) ∧ ¬ SlabMade 0 (2 ^ 37 - 32) ∧
    ciSlabSize 0 (2 ^ 64 - 1) = some 0 ∧ ¬ SlabMade 0 (2 ^ 64 - 1) := by
  have hwraps : ciSlabSize 0 (2 ^ 37 - 32) = some (2 ^ 32 - 1) := by decide +kernel
  have hzero : ciSlabSize 0 (2 ^ 64 - 1) = some 0 := by decide +kernel
  exact ⟨⟨_, _, rfl, rfl⟩, hwraps, not_slabMade_of_wraps hwraps (by decide) (by decide) (by decide),
    hzero, not_slabMade_of_zero hzero (by decide)⟩

end Vere.Noun.Imprison
