import Vere.Noun.Chop

/-!
# Blocks of an atom

`u3qc_cut()`, `u3qc_end()`, `u3qc_rsh()`, `u3qc_lsh()`, `u3qc_cat()` and `u3qc_can()` of
`pkg/noun/jets/c` on atoms as blocks of `2 ^ a` bits. Each of them measures its atom with
`u3r_met()` (`rMet_blocks`), makes a slab of the blocks that it needs,
copies slices of its arguments into it and mints it
(`Slab.chop_ok`,
`initAndMint_computes`). `blocks_compute` is what they give: the number that the block operation
says, or a
bail where the slab is too large or the allocator refuses the memory.
-/

set_option autoImplicit false

namespace Vere.Noun.Blocks

open Imprison Nock Serial

/-! ### The functions -/

/-- `u3r_met()`. -/
def rMet (a_y b : ℕ) : Except SlabFault ℕ :=
  if b = 0 then .ok 0
  else
    let gal_w := lenW b - 1
    let daz_w := bufW b gal_w
    if a_y < 3 then
      if (0xffffffff - 35) >>> 5 < gal_w then .error .bail
      else
        let col_w := daz_w.size
        let bif_w := col_w + gal_w <<< 5
        .ok ((bif_w + (1 <<< a_y - 1)) >>> a_y)
    else if a_y = 3 then .ok (gal_w <<< 2 + (daz_w.size + 7) >>> 3)
    else if a_y = 4 then .ok (gal_w <<< 1 + (daz_w.size + 15) >>> 4)
    else
      let gow_y := a_y - 5
      .ok ((gal_w + 1 + (1 <<< gow_y - 1)) >>> gow_y)

/-- `u3r_chop()` into a slab. -/
def chopSlab (met_g fum_w wid_w tou_w : ℕ) (sab_u : Slab) (src : ℕ) : Except SlabFault Slab := do
  let words ← sab_u.words
  let words ← chop met_g fum_w wid_w tou_w words src
  sab_u.put 0 words

section Jets

variable (walloc : Alloc) (raw : Slab)

/-- `u3i_slab_mint()`, and the value of the atom. -/
def mintValue (sab_u : Slab) : Except SlabFault ℕ := do
  let m ← sab_u.mint walloc
  .ok m.value

/-- `u3qc_cut()`. -/
def qcCut (a b c d : ℕ) : Except SlabFault ℕ :=
  if ¬a < 2 ^ 31 ∨ 32 ≤ a then .error .bail
  else if ¬b < 2 ^ 31 then .ok 0
  else do
    let c_w := if ¬c < 2 ^ 31 then 0x7fffffff else c
    let len_w ← rMet a d
    if c_w = 0 ∨ len_w ≤ b then .ok 0
    else
      let c_w := if len_w < (b + c_w) % 2 ^ 32 then len_w - b else c_w
      if b = 0 ∧ c_w = len_w then .ok d
      else do
        let sab_u ← slabInitOn walloc a c_w raw
        let sab_u ← chopSlab a b c_w 0 sab_u d
        mintValue walloc sab_u

/-- `u3qc_end()`. -/
def qcEnd (a b c : ℕ) : Except SlabFault ℕ :=
  if ¬a < 2 ^ 31 ∨ 32 ≤ a then .error .bail
  else if ¬b < 2 ^ 31 then .ok c
  else do
    let len_w ← rMet a c
    if b = 0 then .ok 0
    else if len_w ≤ b then .ok c
    else do
      let sab_u ← slabInitOn walloc a b raw
      let sab_u ← chopSlab a 0 b 0 sab_u c
      mintValue walloc sab_u

/-- `u3qc_rsh()`. -/
def qcRsh (a b c : ℕ) : Except SlabFault ℕ :=
  if ¬a < 2 ^ 31 ∨ 32 ≤ a then .error .bail
  else if ¬b < 2 ^ 31 then .ok 0
  else do
    let len_w ← rMet a c
    if len_w ≤ b then .ok 0
    else do
      let sab_u ← slabInitOn walloc a (len_w - b) raw
      let sab_u ← chopSlab a b (len_w - b) 0 sab_u c
      mintValue walloc sab_u

/-- `u3qc_lsh()`. -/
def qcLsh (a b c : ℕ) : Except SlabFault ℕ :=
  if ¬a < 2 ^ 31 ∨ 32 ≤ a then .error .bail
  else if ¬b < 2 ^ 31 then .error .bail
  else do
    let len_w ← rMet a c
    if len_w = 0 then .ok 0
    else if (b + len_w) % 2 ^ 32 < len_w then .error .bail
    else do
      let sab_u ← slabInitOn walloc a ((b + len_w) % 2 ^ 32) raw
      let sab_u ← chopSlab a 0 len_w b sab_u c
      mintValue walloc sab_u

/-- `u3qc_cat()`. -/
def qcCat (a b c : ℕ) : Except SlabFault ℕ :=
  if ¬a < 2 ^ 31 ∨ 32 ≤ a then .error .bail
  else do
    let lew_w ← rMet a b
    let ler_w ← rMet a c
    let all_w := (lew_w + ler_w) % 2 ^ 32
    if all_w = 0 then .ok 0
    else do
      let sab_u ← slabFromOn walloc a all_w b raw
      let sab_u ← chopSlab a 0 ler_w lew_w sab_u c
      mintValue walloc sab_u

/-- The first loop of `u3qc_can()`: the sum of the sizes of a list. -/
def canMeasure : Noun → ℕ → Except SlabFault ℕ
  | .atom 0, tot_w => .ok tot_w
  | .cell (.cell (.atom pi_cab) (.atom _)) cab, tot_w =>
    if ¬pi_cab < 2 ^ 31 then .error .bail
    else if (tot_w + pi_cab) % 2 ^ 32 < tot_w then .error .bail
    else canMeasure cab ((tot_w + pi_cab) % 2 ^ 32)
  | _, _ => .error .bail

/-- The second loop of `u3qc_can()`, over a list that was measured. -/
def canChop (a_g : ℕ) : Noun → Slab → ℕ → Except SlabFault Slab
  | .cell (.cell (.atom pi_cab) (.atom qi_cab)) cab, sab_u, pos_w => do
    let sab_u ← chopSlab a_g 0 pi_cab pos_w sab_u qi_cab
    canChop a_g cab sab_u ((pos_w + pi_cab) % 2 ^ 32)
  | _, sab_u, _ => .ok sab_u

/-- `u3qc_can()`. -/
def qcCan (a : ℕ) (b : Noun) : Except SlabFault ℕ :=
  if ¬a < 2 ^ 31 ∨ 32 ≤ a then .error .bail
  else do
    let tot_w ← canMeasure b 0
    if tot_w = 0 then .ok 0
    else do
      let sab_u ← slabInitOn walloc a tot_w raw
      let sab_u ← canChop a b sab_u 0
      mintValue walloc sab_u

end Jets

/-! ### Measuring -/

/-- The number of blocks of an atom. -/
def met (a b : ℕ) : ℕ := (b.size + (2 ^ a - 1)) / 2 ^ a

theorem size_eq {b : ℕ} (hb : b ≠ 0) : b.size = 32 * (lenW b - 1) + (bufW b (lenW b - 1)).size ∧
    1 ≤ (bufW b (lenW b - 1)).size ∧ (bufW b (lenW b - 1)).size ≤ 32 := by
  obtain ⟨htop, hne⟩ := bufW_top hb
  have hpos : 0 < b.size := Nat.size_pos.mpr (Nat.pos_of_ne_zero hb)
  have hword : 1 ≤ (bufW b (lenW b - 1)).size := Nat.size_pos.mpr (Nat.pos_of_ne_zero hne)
  have hsize := size_shiftRight b (32 * (lenW b - 1))
  rw [← htop] at hsize
  unfold lenW at hsize ⊢ hword
  omega

/-- `u3r_met()` counts the blocks of atoms that are not too large for it. -/
theorem rMet_eq {a b : ℕ} (hsize : a < 3 → b.size ≤ 2 ^ 32 - 32) : rMet a b = .ok (met a b) := by
  unfold rMet met
  by_cases hb : b = 0
  · rw [if_pos hb, hb, Nat.size_zero, Nat.zero_add,
      Nat.div_eq_of_lt (Nat.sub_lt (Nat.two_pow_pos a) Nat.one_pos)]
  · rw [if_neg hb]
    dsimp only
    obtain ⟨hwhole, hlow, hhigh⟩ := size_eq hb
    generalize (bufW b (lenW b - 1)).size = col_w at hwhole hlow hhigh ⊢
    generalize lenW b - 1 = gal_w at hwhole ⊢
    rw [hwhole] at hsize ⊢
    simp only [Nat.shiftLeft_eq, Nat.shiftRight_eq_div_pow, Nat.one_mul]
    by_cases hbits : a < 3
    · rw [if_pos hbits, if_neg (by omega)]
      congr 3
      omega
    rw [if_neg hbits]
    by_cases hbytes : a = 3
    · rw [if_pos hbytes, hbytes]
      congr 1
      omega
    rw [if_neg hbytes]
    by_cases hshorts : a = 4
    · rw [if_pos hshorts, hshorts]
      congr 1
      omega
    · rw [if_neg hshorts]
      congr 1
      have hpow : 2 ^ a = 32 * 2 ^ (a - 5) := by
        rw [show 32 = 2 ^ 5 from rfl, ← Nat.pow_add, Nat.add_sub_cancel' (by omega)]
      have hpos := Nat.two_pow_pos (a - 5)
      rw [hpow, ← Nat.div_div_eq_div_mul]
      congr 1
      omega

theorem rMet_blocks {a b : ℕ} (hsize : b.size < 2 ^ 31) : rMet a b = .ok (met a b) :=
  rMet_eq fun _ ↦ by omega

theorem lt_met (a b : ℕ) : b < 2 ^ (met a b * 2 ^ a) := by
  refine b.lt_size_self.trans_le (Nat.pow_le_pow_right (by decide) ?_)
  have hpos := Nat.two_pow_pos a
  have hround := Nat.div_add_mod (b.size + (2 ^ a - 1)) (2 ^ a)
  have hless := Nat.mod_lt (b.size + (2 ^ a - 1)) hpos
  unfold met
  rw [Nat.mul_comm]
  omega

theorem met_eq_zero {a b : ℕ} : met a b = 0 ↔ b = 0 := by
  constructor
  · intro hzero
    have hlt := lt_met a b
    rw [hzero, Nat.zero_mul] at hlt
    exact Nat.lt_one_iff.mp hlt
  · rintro rfl
    rw [met, Nat.size_zero, Nat.zero_add,
      Nat.div_eq_of_lt (Nat.sub_lt (Nat.two_pow_pos a) Nat.one_pos)]

theorem met_mul_lt {a b : ℕ} (hsize : b.size < 2 ^ 31) (ha : a < 32) :
    met a b * 2 ^ a < 2 ^ 32 ∧ met a b < 2 ^ 31 := by
  have hpow : 2 ^ a ≤ 2 ^ 31 := Nat.pow_le_pow_right (by decide) (by omega)
  have hpos := Nat.two_pow_pos a
  have hround := Nat.div_mul_le_self (b.size + (2 ^ a - 1)) (2 ^ a)
  refine ⟨?_, ?_⟩
  · unfold met
    omega
  · rw [met, Nat.div_lt_iff_lt_mul hpos]
    calc b.size + (2 ^ a - 1) < 2 ^ 31 + 2 ^ a - 1 := by omega
      _ ≤ 2 ^ 31 * 2 ^ a := by
        obtain ⟨k, hk⟩ : ∃ k, 2 ^ a = k + 1 := ⟨2 ^ a - 1, by omega⟩
        rw [hk, Nat.mul_succ]
        omega

theorem fits_of_size {b : ℕ} (hsize : b.size < 2 ^ 31) : lenW b ≤ maximum := by
  unfold lenW maximum
  omega

/-! ### Slabs -/

section Slabs

variable {walloc : Alloc} {raw s : Slab} {a len n v : ℕ} {words : List UInt32} {large : Bool}

/-- A call gives a value, or bails because there are too many blocks for a slab or the allocator
refuses memory. -/
def Computes (walloc : Alloc) (res : Except SlabFault ℕ) (a len v : ℕ) : Prop :=
  res = .ok v ∨ res = .error .bail ∧
    (2 ^ 32 ≤ len ∨ 2 ^ 32 ≤ wordsOf a len ∨ ∃ k ≤ max 3 (wordsOf a len + 2), walloc k = none)

/-- The size of a slab for which the allocator is asked for its words and not for a few. -/
def Unwrapped (a len : ℕ) : Prop := wordsOf a len ≤ 2 ^ 32 - 6 ∨ 2 ^ 32 ≤ wordsOf a len

theorem Computes.mono {res : Except SlabFault ℕ} {len' : ℕ} (hres : Computes walloc res a len v)
    (hle : len ≤ len') :
    Computes walloc res a len' v := by
  have hwords : wordsOf a len ≤ wordsOf a len' := by
    unfold wordsOf
    exact Nat.div_le_div_right (Nat.add_le_add_right (Nat.mul_le_mul_right _ hle) 31)
  refine hres.imp id fun ⟨hbail, hwhy⟩ ↦ ⟨hbail, ?_⟩
  rcases hwhy with hmany | hmany | ⟨k, hk, hnone⟩
  · exact .inl (hmany.trans hle)
  · exact .inr (.inl (hmany.trans hwords))
  · exact .inr (.inr ⟨k, hk.trans (by omega), hnone⟩)

theorem ciSlabSize_eq (ha : a < 32) (hlen : len < 2 ^ 32) :
    ciSlabSize a len = if wordsOf a len < 2 ^ 32 then some (wordsOf a len) else none := by
  have hbits : len * 2 ^ a < 2 ^ 63 :=
    calc len * 2 ^ a < 2 ^ 32 * 2 ^ a := Nat.mul_lt_mul_of_pos_right hlen (Nat.two_pow_pos a)
      _ = 2 ^ (32 + a) := (Nat.pow_add ..).symm
      _ ≤ 2 ^ 63 := Nat.pow_le_pow_right (by decide) (by omega)
  have hback : (len * 2 ^ a) >>> a = len := by
    rw [Nat.shiftRight_eq_div_pow, Nat.mul_div_cancel _ (Nat.two_pow_pos a)]
  unfold ciSlabSize wordsOf
  dsimp only
  rw [Nat.shiftLeft_eq, Nat.mod_eq_of_lt (hbits.trans (by decide)), hback]
  generalize len * 2 ^ a = bits at hbits
  rw [Nat.shiftRight_eq_div_pow, Nat.mod_eq_of_lt (show bits + 0x1f < 2 ^ 64 by omega)]
  show (if (bits + 31) / 32 % 2 ^ 32 ≠ (bits + 31) / 32 ∨ len ≠ len then
    _ else some ((bits + 31) / 32 % 2 ^ 32)) = _
  by_cases hfits : (bits + 31) / 32 < 2 ^ 32
  · rw [if_pos hfits, Nat.mod_eq_of_lt hfits, if_neg fun hor ↦ hor.elim (· rfl) (· rfl)]
  · have hlarge : (bits + 31) / 32 % 2 ^ 32 ≠ (bits + 31) / 32 := by
      have hless := Nat.mod_lt ((bits + 31) / 32) (Nat.two_pow_pos 32)
      omega
    rw [if_neg hfits, if_pos (.inl hlarge)]

theorem slabBareOn_large (ha : a < 32) (hlen : len < 2 ^ 32) (hmany : 2 ^ 32 ≤ wordsOf a len) :
    slabBareOn walloc a len raw = .error .bail := by
  unfold slabBareOn
  rw [ciSlabSize_eq ha hlen, if_neg (Nat.not_lt.mpr hmany)]

/-- What is made of a slab that was filled. -/
theorem made_computes {make : Except SlabFault Slab} {fill : Slab → Except SlabFault Slab}
    {init : Slab → List UInt32 → Prop} (hmake : Gives walloc (wordsOf a len) make fun s ↦ ∃ words,
      init s words ∧ SlabOk s (max 1 (wordsOf a len)) words (1 < wordsOf a len))
    (hfill : ∀ s words large, init s words → SlabOk s (max 1 (wordsOf a len)) words large →
      len * 2 ^ a ≤ 32 * max 1 (wordsOf a len) →
      ∃ s' out, fill s = .ok s' ∧ SlabOk s' (max 1 (wordsOf a len)) out large ∧ valueOf out = v) :
    Computes walloc (make >>= fun sab_u ↦ fill sab_u >>= fun sab_u ↦
      mintValue walloc sab_u) a len v := by
  cases make with
  | error f =>
    obtain ⟨rfl, hrefuses⟩ := hmake
    exact .inr ⟨rfl, .inr (.inr hrefuses)⟩
  | ok s =>
    have hroom : len * 2 ^ a ≤ 32 * max 1 (wordsOf a len) := by
      unfold wordsOf
      omega
    have hend :
        ¬(max 1 (wordsOf a len) = 1 ∧ decide (1 < wordsOf a len) = true) := fun ⟨hone, hmany⟩ ↦ by
      have hmany := of_decide_eq_true hmany
      omega
    obtain ⟨words, hinit, hwords⟩ := hmake
    obtain ⟨s', out, hs', hok, hvalue⟩ := hfill s words _ hinit hwords hroom
    have hgives :=
      (@SlabOk.mint_gives s' _ out _ walloc hok hend).mono (Nat.zero_le (wordsOf a len))
    show Computes walloc (fill s >>= fun sab_u ↦ mintValue walloc sab_u) a len v
    rw [hs']
    show Computes walloc (mintValue walloc s') a len v
    unfold mintValue
    cases hmint : s'.mint walloc with
    | error f =>
      rw [hmint] at hgives
      obtain ⟨rfl, hrefuses⟩ := hgives
      exact .inr ⟨rfl, .inr (.inr hrefuses)⟩
    | ok m =>
      rw [hmint] at hgives
      exact .inl (congrArg Except.ok (hgives.2.trans hvalue))

/-- What is made of a slab of zeros that was filled. -/
theorem init_computes (hhonest : Honest walloc) (ha : a < 32) (hlen : len < 2 ^ 32)
    (hfits : Unwrapped a len) {fill : Slab → Except SlabFault Slab}
    (hfill : ∀ s n large, SlabOk s n (List.replicate n 0) large → len * 2 ^ a ≤ 32 * n →
      ∃ s' out, fill s = .ok s' ∧ SlabOk s' n out large ∧ valueOf out = v) :
    Computes walloc (slabInitOn walloc a len raw >>= fun sab_u ↦ fill sab_u >>= fun sab_u ↦
      mintValue walloc sab_u)
      a len v := by
  rcases hfits with hfew | hmany
  · refine made_computes ((slabInitOn_gives hhonest raw hfew).imp fun s hok ↦ ⟨_, rfl, hok⟩) ?_
    rintro s words large rfl hok hroom
    exact hfill s _ large hok hroom
  · refine .inr ⟨?_, .inr (.inl hmany)⟩
    unfold slabInitOn
    rw [slabBareOn_large ha hlen hmany]
    rfl

/-- A slice in a slab. -/
theorem chopSlab_ok (hok : SlabOk s n words large) (ha : a < 32) {fum_w wid_w tou_w src : ℕ}
    (hfum : fum_w < 2 ^ 32) (hwid : wid_w < 2 ^ 32) (htou : tou_w < 2 ^ 32)
    (hfits : lenW src ≤ maximum) (hroom : (tou_w + wid_w) * 2 ^ a ≤ 32 * n) :
    ∃ s' out, chopSlab a fum_w wid_w tou_w s src = .ok s' ∧ SlabOk s' n out large ∧
      valueOf out =
        valueOf words ^^^ slice src (fum_w * 2 ^ a) (wid_w * 2 ^ a) <<< (tou_w * 2 ^ a) := by
  obtain ⟨hwords, hlength⟩ := hok.words_eq
  obtain ⟨out, hout, hsame, hvalue⟩ :=
    @chop_chops a fum_w wid_w tou_w words ha hfum hwid htou src hfits
    (by rwa [hlength])
  obtain ⟨s', hput, hok'⟩ := @SlabOk.put s n 0 words out large hok (by omega)
  rw [List.take_zero, List.nil_append, Nat.zero_add, List.drop_of_length_le hsame.ge,
    List.append_nil] at hok'
  refine ⟨s', out, ?_, hok', hvalue⟩
  unfold chopSlab
  rw [hwords]
  show (chop a fum_w wid_w tou_w words src >>= fun words ↦ s.put 0 words) = _
  rw [hout]
  exact hput

theorem valueOf_zeros (n : ℕ) : valueOf (List.replicate n 0) = 0 := valueOf_append_zeros [] n

end Slabs

/-! ### What the functions give -/

/-- A list of sized pieces as a noun. -/
def pieces : List (ℕ × ℕ) → Noun
  | [] => .atom 0
  | (pi_cab, qi_cab) :: cab => .cell (.cell (.atom pi_cab) (.atom qi_cab)) (pieces cab)

/-- The number of blocks of sized pieces. -/
def total (ps : List (ℕ × ℕ)) : ℕ := (ps.map Prod.fst).sum

/-- The sized pieces behind each other, the first one lowest. -/
def concat (a : ℕ) : List (ℕ × ℕ) → ℕ
  | [] => 0
  | (p, q) :: ps => q % 2 ^ (p * 2 ^ a) + concat a ps * 2 ^ (p * 2 ^ a)

section Values

variable {walloc : Alloc} {raw : Slab} {a b c d : ℕ}

theorem slice_eq (v pos wid : ℕ) : slice v pos wid = v / 2 ^ pos % 2 ^ wid := by
  rw [slice, Nat.shiftRight_eq_div_pow]

/-- A number that is below a power is itself modulo a larger one. -/
theorem mod_two_pow_of_lt {v n m : ℕ} (hv : v < 2 ^ n) (hle : n ≤ m) : v % 2 ^ m = v :=
  Nat.mod_eq_of_lt (hv.trans_le (Nat.pow_le_pow_right (by decide) hle))

theorem div_two_pow_of_lt {v n m : ℕ} (hv : v < 2 ^ n) (hle : n ≤ m) : v / 2 ^ m = 0 :=
  Nat.div_eq_of_lt (hv.trans_le (Nat.pow_le_pow_right (by decide) hle))

/-- Few blocks of an atom fit in a slab. -/
theorem unwrapped_of_met (ha : a < 32) (hsize : d.size < 2 ^ 31) {len : ℕ} (hle : len ≤ met a d) :
    len < 2 ^ 32 ∧ Unwrapped a len := by
  obtain ⟨hbits, hmet⟩ := met_mul_lt hsize ha
  have hless : len * 2 ^ a ≤ met a d * 2 ^ a := Nat.mul_le_mul_right _ hle
  refine ⟨by omega, .inl ?_⟩
  unfold wordsOf
  omega

/-- A slice of an atom from a position on, that is made in a slab of its own. -/
theorem slice_computes (hhonest : Honest walloc) (ha : a < 32) (hsize : d.size < 2 ^ 31)
    {fum_w wid_w : ℕ} (hends : fum_w + wid_w ≤ met a d) :
    Computes walloc (slabInitOn walloc a wid_w raw >>= fun sab_u ↦
      chopSlab a fum_w wid_w 0 sab_u d >>= fun sab_u ↦
      mintValue walloc sab_u) a (met a d) (slice d (fum_w * 2 ^ a) (wid_w * 2 ^ a)) := by
  obtain ⟨hlen, hfits⟩ := unwrapped_of_met ha hsize (show wid_w ≤ met a d by omega)
  obtain ⟨-, hmet⟩ := met_mul_lt hsize ha
  refine (init_computes hhonest ha hlen hfits fun s n large hok hroom ↦ ?_).mono (by omega)
  obtain ⟨s', out, hs', hok', hvalue⟩ := chopSlab_ok hok ha (show fum_w < 2 ^ 32 by omega) hlen
    (show 0 < 2 ^ 32 by decide) (fits_of_size hsize) (by rwa [Nat.zero_add])
  refine ⟨s', out, hs', hok', ?_⟩
  rw [hvalue, valueOf_zeros, Nat.zero_mul, Nat.shiftLeft_zero, Nat.zero_xor]

theorem qcCut_computes (hhonest : Honest walloc) (ha : a < 32) (hsize : d.size < 2 ^ 31) :
    Computes walloc (qcCut walloc raw a b c d) a (met a d)
      (d / 2 ^ (b * 2 ^ a) % 2 ^ (c * 2 ^ a)) := by
  have hpow := Nat.two_pow_pos a
  have hless := lt_met a d
  obtain ⟨hbits, hmet⟩ := met_mul_lt hsize ha
  have hall : ∀ k, met a d ≤ k → met a d * 2 ^ a ≤ k * 2 ^ a := fun k hk ↦ Nat.mul_le_mul_right _ hk
  unfold qcCut
  rw [if_neg (by omega)]
  by_cases hb : b < 2 ^ 31
  · rw [if_neg (not_not.mpr hb), rMet_blocks hsize]
    show Computes walloc (if _ ∨ met a d ≤ b then _ else _) a _ _
    by_cases hpast : met a d ≤ b
    · rw [if_pos (.inr hpast), div_two_pow_of_lt hless (hall b hpast), Nat.zero_mod]
      exact .inl rfl
    · obtain ⟨c_w, hc⟩ : ∃ c_w, c_w = if ¬c < 2 ^ 31 then 0x7fffffff else c := ⟨_, rfl⟩
      have hcount : c_w < 2 ^ 31 ∧ (c_w = c ∨ met a d ≤ c_w ∧ met a d ≤ c) := by
        rw [hc]
        split_ifs <;> omega
      rw [← hc]
      by_cases hnone : c_w = 0
      · have hzero : c = 0 := by
          rcases hcount.2 with heq | ⟨hle, _⟩ <;> omega
        rw [if_pos (.inl hnone), hzero, Nat.zero_mul, Nat.pow_zero, Nat.mod_one]
        exact .inl rfl
      · rw [if_neg (by omega), Nat.mod_eq_of_lt (by omega)]
        obtain ⟨w, hw⟩ : ∃ w, w = if met a d < b + c_w then met a d - b else c_w := ⟨_, rfl⟩
        have hwidth : b + w ≤ met a d ∧ (w = c ∨ met a d ≤ b + w ∧ met a d ≤ b + c) := by
          rw [hw]
          rcases hcount.2 with heq | ⟨hle, hle'⟩ <;> split_ifs <;> omega
        have hvalue : slice d (b * 2 ^ a) (w * 2 ^ a) = d / 2 ^ (b * 2 ^ a) % 2 ^ (c * 2 ^ a) := by
          rw [slice_eq]
          rcases hwidth.2 with rfl | ⟨hle, hle'⟩
          · rfl
          · have hrest : d / 2 ^ (b * 2 ^ a) < 2 ^ ((met a d - b) * 2 ^ a) := by
              refine Nat.div_lt_of_lt_mul ?_
              rwa [← Nat.pow_add, ← Nat.add_mul, Nat.add_sub_cancel' (by omega)]
            rw [mod_two_pow_of_lt hrest (Nat.mul_le_mul_right _ (by omega)),
              mod_two_pow_of_lt hrest (Nat.mul_le_mul_right _ (by omega))]
        rw [← hw]
        by_cases hwhole : b = 0 ∧ w = met a d
        · rw [if_pos hwhole, ← hvalue, hwhole.1, hwhole.2, slice_eq, Nat.zero_mul, Nat.pow_zero,
            Nat.div_one,
            Nat.mod_eq_of_lt hless]
          exact .inl rfl
        · rw [if_neg hwhole, ← hvalue]
          exact slice_computes hhonest ha hsize hwidth.1
  · rw [if_pos hb, div_two_pow_of_lt hless (hall b (by omega)), Nat.zero_mod]
    exact .inl rfl

theorem qcEnd_computes (hhonest : Honest walloc) (ha : a < 32) (hsize : c.size < 2 ^ 31) :
    Computes walloc (qcEnd walloc raw a b c) a (met a c) (c % 2 ^ (b * 2 ^ a)) := by
  have hless := lt_met a c
  obtain ⟨hbits, hmet⟩ := met_mul_lt hsize ha
  have hall : met a c ≤ b → c % 2 ^ (b * 2 ^ a) = c := fun hle ↦
    mod_two_pow_of_lt hless (Nat.mul_le_mul_right _ hle)
  unfold qcEnd
  rw [if_neg (by omega)]
  by_cases hb : b < 2 ^ 31
  · rw [if_neg (not_not.mpr hb), rMet_blocks hsize]
    show Computes walloc (if b = 0 then _ else if met a c ≤ b then _ else _) a _ _
    by_cases hzero : b = 0
    · rw [if_pos hzero, hzero, Nat.zero_mul, Nat.pow_zero, Nat.mod_one]
      exact .inl rfl
    rw [if_neg hzero]
    by_cases hle : met a c ≤ b
    · rw [if_pos hle, hall hle]
      exact .inl rfl
    · have hvalue : slice c (0 * 2 ^ a) (b * 2 ^ a) = c % 2 ^ (b * 2 ^ a) := by
        rw [slice_eq, Nat.zero_mul, Nat.pow_zero, Nat.div_one]
      rw [if_neg hle, ← hvalue]
      exact slice_computes hhonest ha hsize (by omega)
  · rw [if_pos hb, hall (by omega)]
    exact .inl rfl

theorem qcRsh_computes (hhonest : Honest walloc) (ha : a < 32) (hsize : c.size < 2 ^ 31) :
    Computes walloc (qcRsh walloc raw a b c) a (met a c) (c / 2 ^ (b * 2 ^ a)) := by
  have hless := lt_met a c
  obtain ⟨hbits, hmet⟩ := met_mul_lt hsize ha
  have hnone : met a c ≤ b → c / 2 ^ (b * 2 ^ a) = 0 := fun hle ↦
    div_two_pow_of_lt hless (Nat.mul_le_mul_right _ hle)
  unfold qcRsh
  rw [if_neg (by omega)]
  by_cases hb : b < 2 ^ 31
  · rw [if_neg (not_not.mpr hb), rMet_blocks hsize]
    show Computes walloc (if met a c ≤ b then _ else _) a _ _
    by_cases hle : met a c ≤ b
    · rw [if_pos hle, hnone hle]
      exact .inl rfl
    · have hvalue : slice c (b * 2 ^ a) ((met a c - b) * 2 ^ a) = c / 2 ^ (b * 2 ^ a) := by
        rw [slice_eq]
        refine Nat.mod_eq_of_lt (Nat.div_lt_of_lt_mul ?_)
        rwa [← Nat.pow_add, ← Nat.add_mul, Nat.add_sub_cancel' (by omega)]
      rw [if_neg hle, ← hvalue]
      exact slice_computes hhonest ha hsize (by omega)
  · rw [if_pos hb, hnone (by omega)]
    exact .inl rfl

/-- A whole atom at a position. -/
theorem slice_whole (a c : ℕ) : slice c (0 * 2 ^ a) (met a c * 2 ^ a) = c := by
  rw [slice_eq, Nat.zero_mul, Nat.pow_zero, Nat.div_one, Nat.mod_eq_of_lt (lt_met a c)]

theorem qcLsh_computes (hhonest : Honest walloc) (ha : a < 32) (hb : b < 2 ^ 31)
    (hsize : c.size < 2 ^ 31) (hfits : Unwrapped a (b + met a c)) :
    Computes walloc (qcLsh walloc raw a b c) a (b + met a c) (c * 2 ^ (b * 2 ^ a)) := by
  obtain ⟨hbits, hmet⟩ := met_mul_lt hsize ha
  unfold qcLsh
  rw [if_neg (by omega), if_neg (not_not.mpr hb), rMet_blocks hsize]
  show Computes walloc (if met a c = 0 then _ else if (b + met a c) % 2 ^ 32 < met a c then
    _ else _) a _ _
  by_cases hzero : met a c = 0
  · rw [if_pos hzero, met_eq_zero.mp hzero, Nat.zero_mul]
    exact .inl rfl
  · rw [if_neg hzero, Nat.mod_eq_of_lt (by omega), if_neg (by omega)]
    refine init_computes hhonest ha (by omega) hfits fun s n large hok hroom ↦ ?_
    obtain ⟨s', out, hs', hok', hvalue⟩ := chopSlab_ok hok ha (show 0 < 2 ^ 32 by decide)
      (show met a c < 2 ^ 32 by omega) (show b < 2 ^ 32 by omega) (fits_of_size hsize) hroom
    refine ⟨s', out, hs', hok', ?_⟩
    rw [hvalue, valueOf_zeros, slice_whole, Nat.zero_xor, Nat.shiftLeft_eq]

theorem xor_shiftLeft {x n : ℕ} (hx : x < 2 ^ n) (y : ℕ) : x ^^^ y <<< n = x + y * 2 ^ n := by
  refine Nat.eq_of_testBit_eq fun i ↦ ?_
  rw [Nat.add_comm, Nat.mul_comm, Nat.testBit_two_pow_mul_add y hx, Nat.testBit_xor,
    Nat.testBit_shiftLeft]
  by_cases hi : i < n
  · rw [if_pos hi, decide_eq_false (Nat.not_le.mpr hi), Bool.false_and, Bool.xor_false]
  · have hbit : x.testBit i = false :=
      Nat.testBit_lt_two_pow (hx.trans_le (Nat.pow_le_pow_right (by decide) (Nat.not_lt.mp hi)))
    rw [if_neg hi, hbit, decide_eq_true (Nat.not_lt.mp hi), Bool.true_and, Bool.false_xor]

theorem valueOf_map_wordOf {x n : ℕ} (hfits : lenW x ≤ n) :
    valueOf ((List.range n).map (wordOf x)) = x := by
  refine eq_of_bufW fun k ↦ ?_
  rw [bufW_valueOf]
  by_cases hk : k < n
  · rw [List.getD_eq_getElem?_getD, List.getElem?_map, List.getElem?_range hk, Option.map_some,
      Option.getD_some,
      toNat_wordOf]
  · rw [List.getD_eq_default _ _
        (by rw [List.length_map, List.length_range]; exact Nat.not_lt.mp hk),
      bufW_eq_zero (hfits.trans (Nat.not_lt.mp hk))]
    rfl

theorem qcCat_computes (hhonest : Honest walloc) (ha : a < 32) (hb : b.size < 2 ^ 31)
    (hc : c.size < 2 ^ 31) :
    Computes walloc (qcCat walloc raw a b c) a (met a b + met a c)
      (b + c * 2 ^ (met a b * 2 ^ a)) := by
  obtain ⟨hbitsb, hmetb⟩ := met_mul_lt hb ha
  obtain ⟨hbitsc, hmetc⟩ := met_mul_lt hc ha
  have hfits : wordsOf a (met a b + met a c) ≤ 2 ^ 32 - 6 := by
    unfold wordsOf
    rw [Nat.add_mul]
    omega
  unfold qcCat
  rw [if_neg (by omega), rMet_blocks hb, rMet_blocks hc]
  show Computes walloc (if (met a b + met a c) % 2 ^ 32 = 0 then _ else _) a _ _
  rw [Nat.mod_eq_of_lt (by omega)]
  by_cases hnone : met a b + met a c = 0
  · have hzerob : b = 0 := met_eq_zero.mp (by omega : met a b = 0)
    have hzeroc : c = 0 := met_eq_zero.mp (by omega : met a c = 0)
    rw [if_pos hnone, hzerob, hzeroc, Nat.zero_mul]
    exact .inl rfl
  · rw [if_neg hnone]
    refine made_computes ((slabFromOn_gives hhonest raw hfits b).imp fun s hok ↦ ⟨_, rfl, hok⟩) ?_
    rintro s words large rfl hok hroom
    generalize max 1 (wordsOf a (met a b + met a c)) = n at hok hroom ⊢
    have hlen : lenW b ≤ n := by
      have hsize : b.size ≤ met a b * 2 ^ a := Nat.size_le.mpr (lt_met a b)
      rw [Nat.add_mul] at hroom
      unfold lenW
      omega
    obtain ⟨s', out, hs', hok', hvalue⟩ := chopSlab_ok hok ha (show 0 < 2 ^ 32 by decide)
      (show met a c < 2 ^ 32 by omega) (show met a b < 2 ^ 32 by omega) (fits_of_size hc) hroom
    refine ⟨s', out, hs', hok', ?_⟩
    rw [hvalue, valueOf_map_wordOf hlen, slice_whole, xor_shiftLeft (lt_met a b)]

variable {ps : List (ℕ × ℕ)}

/-- The sum of the sizes, unless there are too many blocks. -/
theorem canMeasure_pieces (hdirect : ∀ p ∈ ps, p.1 < 2 ^ 31) {tot_w : ℕ} (htot : tot_w < 2 ^ 32) :
    canMeasure (pieces ps) tot_w =
      if tot_w + total ps < 2 ^ 32 then .ok (tot_w + total ps) else .error .bail := by
  induction ps generalizing tot_w with
  | nil => exact (if_pos htot).symm
  | cons p ps ih =>
    obtain ⟨pi_cab, qi_cab⟩ := p
    have hpi : pi_cab < 2 ^ 31 := hdirect _ (List.mem_cons_self ..)
    have hsum : total ((pi_cab, qi_cab) :: ps) = pi_cab + total ps := by
      rw [total, List.map_cons, List.sum_cons]
      rfl
    rw [pieces, canMeasure, if_neg (not_not.mpr hpi), hsum, ← Nat.add_assoc]
    by_cases hwraps : 2 ^ 32 ≤ tot_w + pi_cab
    · rw [if_pos (by omega), if_neg (by omega)]
    · rw [Nat.mod_eq_of_lt (by omega), if_neg (by omega)]
      exact ih (fun p hp ↦ hdirect p (List.mem_cons_of_mem _ hp)) (by omega)

theorem canMeasure_indirect (hindirect : ∃ p ∈ ps, 2 ^ 31 ≤ p.1) (tot_w : ℕ) :
    canMeasure (pieces ps) tot_w = .error .bail := by
  induction ps generalizing tot_w with
  | nil =>
    obtain ⟨p, hp, _⟩ := hindirect
    cases hp
  | cons p ps ih =>
    obtain ⟨pi_cab, qi_cab⟩ := p
    obtain ⟨p, hp, hlarge⟩ := hindirect
    rw [pieces, canMeasure]
    by_cases hhead : pi_cab < 2 ^ 31
    · have hmem : p ∈ ps := by
        refine (List.mem_cons.mp hp).resolve_left ?_
        rintro rfl
        exact Nat.not_lt.mpr hlarge hhead
      rw [if_neg (not_not.mpr hhead), ih ⟨p, hmem, hlarge⟩, ite_self]
    · rw [if_pos hhead]

theorem concat_cons (a p q : ℕ) (ps : List (ℕ × ℕ)) :
    concat a ((p, q) :: ps) = slice q (0 * 2 ^ a) (p * 2 ^ a) ^^^ concat a ps <<< (p * 2 ^ a) := by
  rw [xor_shiftLeft (slice_lt _ _ _), slice_eq, Nat.zero_mul, Nat.pow_zero, Nat.div_one]
  rfl

theorem canChop_ok (ha : a < 32) {ps : List (ℕ × ℕ)} (hsizes : ∀ p ∈ ps, lenW p.2 ≤ maximum)
    {s : Slab} {n pos_w : ℕ} {words : List UInt32} {large : Bool} (hok : SlabOk s n words large)
    (hpos : pos_w + total ps < 2 ^ 32) (hroom : (pos_w + total ps) * 2 ^ a ≤ 32 * n) :
    ∃ s' out, canChop a (pieces ps) s pos_w = .ok s' ∧ SlabOk s' n out large ∧
      valueOf out = valueOf words ^^^ concat a ps <<< (pos_w * 2 ^ a) := by
  induction ps generalizing s words pos_w with
  | nil => exact ⟨s, words, rfl, hok, by rw [concat, Nat.zero_shiftLeft, Nat.xor_zero]⟩
  | cons p ps ih =>
    obtain ⟨pi_cab, qi_cab⟩ := p
    have hsum : total ((pi_cab, qi_cab) :: ps) = pi_cab + total ps := by
      rw [total, List.map_cons, List.sum_cons]
      rfl
    rw [hsum, ← Nat.add_assoc] at hpos hroom
    have hfirst :
        (pos_w + pi_cab) * 2 ^ a ≤ 32 * n :=
          (Nat.mul_le_mul_right _ (Nat.le_add_right _ _)).trans hroom
    obtain ⟨s₁, out₁, hs₁, hok₁, hvalue₁⟩ := chopSlab_ok hok ha (show 0 < 2 ^ 32 by decide)
      (show pi_cab < 2 ^ 32 by omega) (show pos_w < 2 ^ 32 by omega)
        (hsizes _ (List.mem_cons_self ..)) hfirst
    obtain ⟨s', out, hs', hok', hvalue⟩ :=
      ih (fun p hp ↦ hsizes p (List.mem_cons_of_mem _ hp)) hok₁ hpos hroom
    refine ⟨s', out, ?_, hok', ?_⟩
    · rw [pieces, canChop, hs₁]
      show canChop a (pieces ps) s₁ ((pos_w + pi_cab) % 2 ^ 32) = _
      rw [Nat.mod_eq_of_lt (by omega), hs']
    · rw [hvalue, hvalue₁, concat_cons, Nat.shiftLeft_xor_distrib, ← Nat.shiftLeft_add,
        Nat.xor_assoc, Nat.add_mul,
        Nat.add_comm (pos_w * 2 ^ a)]

theorem concat_of_empty (hnone : total ps = 0) : concat a ps = 0 := by
  induction ps with
  | nil => rfl
  | cons p ps ih =>
    obtain ⟨pi_cab, qi_cab⟩ := p
    rw [total, List.map_cons, List.sum_cons, Nat.add_eq_zero_iff] at hnone
    obtain rfl : pi_cab = 0 := hnone.1
    rw [concat, ih hnone.2, Nat.zero_mul, Nat.zero_mul, Nat.pow_zero, Nat.mod_one]

theorem qcCan_computes (hhonest : Honest walloc) (ha : a < 32)
    (hps : ∀ p ∈ ps, p.1 < 2 ^ 31 ∧ p.2.size < 2 ^ 31) (hfits : Unwrapped a (total ps)) :
    Computes walloc (qcCan walloc raw a (pieces ps)) a (total ps) (concat a ps) := by
  unfold qcCan
  rw [if_neg (by omega), canMeasure_pieces (fun p hp ↦ (hps p hp).1) (by decide), Nat.zero_add]
  by_cases hmany : total ps < 2 ^ 32
  · rw [if_pos hmany]
    show Computes walloc (if total ps = 0 then _ else _) a _ _
    by_cases hnone : total ps = 0
    · rw [if_pos hnone, concat_of_empty hnone]
      exact .inl rfl
    · rw [if_neg hnone]
      refine init_computes hhonest ha hmany hfits fun s n large hok hroom ↦ ?_
      obtain ⟨s', out, hs', hok', hvalue⟩ :=
        canChop_ok ha (fun p hp ↦ fits_of_size (hps p hp).2) hok
        (show 0 + total ps < 2 ^ 32 by omega) (by rwa [Nat.zero_add])
      refine ⟨s', out, hs', hok', ?_⟩
      rw [hvalue, valueOf_zeros, Nat.zero_mul, Nat.shiftLeft_zero, Nat.zero_xor]
  · rw [if_neg hmany]
    exact .inr ⟨rfl, .inl (Nat.not_lt.mp hmany)⟩

end Values

/-- Each function gives what its block operation says or bails for want of memory. A left shift by
an indirect atom and a piece of an indirect size bail. -/
theorem blocks_compute {walloc : Alloc} (hhonest : Honest walloc) (raw : Slab) {a : ℕ}
    (ha : a < 32) :
    (∀ b c d : ℕ, d.size < 2 ^ 31 →
      Computes walloc (qcCut walloc raw a b c d) a (met a d)
        (d / 2 ^ (b * 2 ^ a) % 2 ^ (c * 2 ^ a))) ∧
    (∀ b c : ℕ, c.size < 2 ^ 31 →
    Computes walloc (qcEnd walloc raw a b c) a (met a c) (c % 2 ^ (b * 2 ^ a))) ∧
    (∀ b c : ℕ, c.size < 2 ^ 31 →
    Computes walloc (qcRsh walloc raw a b c) a (met a c) (c / 2 ^ (b * 2 ^ a))) ∧
    (∀ b c : ℕ, c.size < 2 ^ 31 → if b < 2 ^ 31 then Unwrapped a (b + met a c) →
      Computes walloc (qcLsh walloc raw a b c) a (b + met a c) (c * 2 ^ (b * 2 ^ a))
      else qcLsh walloc raw a b c = .error .bail) ∧
    (∀ b c : ℕ, b.size < 2 ^ 31 → c.size < 2 ^ 31 →
      Computes walloc (qcCat walloc raw a b c) a (met a b + met a c)
        (b + c * 2 ^ (met a b * 2 ^ a))) ∧
    ∀ ps : List (ℕ × ℕ), (∀ p ∈ ps, p.2.size < 2 ^ 31) → if ∀ p ∈ ps,
    p.1 < 2 ^ 31 then Unwrapped a (total ps) →
      Computes walloc (qcCan walloc raw a (pieces ps)) a (total ps) (concat a ps)
      else qcCan walloc raw a (pieces ps) = .error .bail := by
  refine ⟨fun b c d ↦ qcCut_computes hhonest ha, fun b c ↦ qcEnd_computes hhonest ha,
    fun b c ↦ qcRsh_computes hhonest ha, fun b c hsize ↦ ?_, fun b c ↦ qcCat_computes hhonest ha,
    fun ps hsizes ↦ ?_⟩
  · split
    · next hb => exact qcLsh_computes hhonest ha hb hsize
    · next hb =>
      unfold qcLsh
      rw [if_neg (by omega), if_pos hb]
  · split
    · next hdirect => exact qcCan_computes hhonest ha fun p hp ↦ ⟨hdirect p hp, hsizes p hp⟩
    · next hindirect =>
      have hlarge : ∃ p ∈ ps, 2 ^ 31 ≤ p.1 := by
        by_contra hnot
        exact hindirect fun p hp ↦ Nat.not_le.mp fun hle ↦ hnot ⟨p, hp, hle⟩
      unfold qcCan
      rw [if_neg (by omega), canMeasure_indirect hlarge]
      rfl

/-- A byte that is shifted up by one byte. -/
theorem blocks_compute_byte :
    Computes sevens (qcLsh sevens slabRaw 3 1 0xff) 3 (1 + met 3 0xff)
      (0xff * 2 ^ (1 * 2 ^ 3)) := by
  have hsize : (0xff).size < 2 ^ 31 := by
    have hle : (0xff).size ≤ 8 := Nat.size_le.mpr (by decide)
    omega
  have hmet : met 3 0xff = 1 := by
    have hlow : 7 < (0xff).size := Nat.lt_size.mpr (by decide)
    have hhigh : (0xff).size ≤ 8 := Nat.size_le.mpr (by decide)
    unfold met
    omega
  have hlsh := (blocks_compute honest_sevens slabRaw (show 3 < 32 by decide)).2.2.2.1 1 0xff hsize
  rw [if_pos (by decide)] at hlsh
  refine hlsh (.inl ?_)
  rw [hmet]
  decide

/-- Zero shifted by `2 ^ 31` bits is zero, but the call bails. -/
theorem qcLsh_zero :
    qcLsh sevens slabRaw 0 (2 ^ 31) 0 = .error .bail ∧ 0 * 2 ^ (2 ^ 31 * 2 ^ 0) = 0 := by
  refine ⟨?_, Nat.zero_mul _⟩
  unfold qcLsh
  rw [if_neg (by decide), if_pos (by decide)]

end Vere.Noun.Blocks
