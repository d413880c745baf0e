import Vere.Noun.BlocksRip

/-!
# Lists of blocks into atoms

`u3qc_rep()` of `pkg/noun/jets/c/rep.c` puts the elements of a list behind each other, the first one
lowest. `_block_rep()` copies each element to its place in a slab of zeros. `_bit_rep()` computes
the bits that it needs from the length of the list as a word, takes a slab that is not initialized,
and packs the elements through a register (`Packed`, `packBlox_ok`). So it gives the sum of the
elements at their places unless the list is empty or the bits are not counted by a word, and with
`u3qc_rip()` it gives an atom back that is neither zero nor too long (`rip_rep_iff`).
-/

set_option autoImplicit false

namespace Vere.Noun.Blocks

open Imprison Nock Serial

/-! ### The functions -/

/-- `u3qb_lent()` from a length on, as a word. -/
def lent : Noun → ℕ → Except SlabFault ℕ
  | .atom 0, len_w => wordAtom len_w
  | .atom _, _ => .error .bail
  | .cell _ a, len_w => lent a ((len_w + 1) % 2 ^ 32)

/-- What `_bit_rep()` packs with: the register, how many of its bits are used, and the next word of
the slab. -/
structure Packer where
  acc_w : ℕ
  use_w : ℕ
  cur_w : ℕ
  sab_u : Slab
  use_lt : use_w < 32

/-- `FLUSH()`. -/
def Packer.flush (p : Packer) : Except SlabFault Packer := do
  let sab_u ← p.sab_u.put p.cur_w [UInt32.ofNat p.acc_w]
  .ok ⟨0, 0, p.cur_w + 1, sab_u, by decide⟩

/-- `SLICE()`, which shifts in the last case of `TAKEBITS()` alone. -/
def sliceOff (sz off val : ℕ) : Except SlabFault ℕ :=
  if sz = 32 then .ok val
  else if sz = 0 then .ok 0
  else do
    let end_w ← shlWord 1 sz
    shlWord (val &&& (end_w - 1)) off

/-- The loop of `_bit_rep()` over the bits of a block. -/
def pack (p : Packer) (rem_in_blok_w blok_w : ℕ) : Except SlabFault Packer :=
  if rem_in_blok_w = 0 then .ok p
  else
    let rem_in_acc_w := 32 - p.use_w
    if rem_in_blok_w = rem_in_acc_w then do
      let bits_w ← sliceOff rem_in_blok_w p.use_w blok_w
      Packer.flush { p with acc_w := p.acc_w ||| bits_w }
    else if hless : rem_in_blok_w < rem_in_acc_w then do
      let bits_w ← sliceOff rem_in_blok_w p.use_w blok_w
      .ok { p with
        acc_w := p.acc_w ||| bits_w
        use_w := p.use_w + rem_in_blok_w
        use_lt := Nat.add_lt_of_lt_sub' hless }
    else do
      let bits_w ← sliceOff rem_in_acc_w p.use_w blok_w
      let high_w ← shrWord blok_w rem_in_acc_w
      let next ← Packer.flush { p with acc_w := p.acc_w ||| bits_w }
      pack next (rem_in_blok_w - rem_in_acc_w) high_w
termination_by rem_in_blok_w
decreasing_by
  have huse := p.use_lt
  omega

/-- The loop of `_bit_rep()` over the blocks. -/
def packBlox (bits : ℕ) : ℕ → Noun → Packer → Except SlabFault Packer
  | 0, _, p => .ok p
  | n + 1, .cell (.atom blok_n) blox, p => do
    if ¬blok_n < 2 ^ 31 then .error .bail
    else
      let p ← pack p bits blok_n
      packBlox bits n blox p
  | _, _, _ => .error .bail

/-- The words of the slab of `_bit_rep()`. -/
def fillBlox (bits num_blox_w : ℕ) (blox : Noun) (sab_u : Slab) : Except SlabFault Slab := do
  let p ← packBlox bits num_blox_w blox ⟨0, 0, 0, sab_u, by decide⟩
  if p.use_w = 0 then .ok p.sab_u
  else do
    let p ← p.flush
    .ok p.sab_u

/-- The first loop of `_block_rep()`. -/
def repMeasure (a_g : ℕ) : Noun → ℕ → Except SlabFault ℕ
  | .atom 0, tot_w => .ok tot_w
  | .cell (.atom h_cab) cab, tot_w => do
    let len_w ← rMet a_g h_cab
    if (tot_w + len_w) % 2 ^ 32 < tot_w then .error .bail
    else repMeasure a_g cab ((tot_w + 1) % 2 ^ 32)
  | _, _ => .error .bail

/-- The second loop of `_block_rep()`, over a list that was measured. -/
def repChop (a_g : ℕ) : Noun → Slab → ℕ → Except SlabFault Slab
  | .cell (.atom h_cab) cab, sab_u, pos_w => do
    let sab_u ← chopSlab a_g 0 1 pos_w sab_u h_cab
    repChop a_g cab sab_u ((pos_w + 1) % 2 ^ 32)
  | _, sab_u, _ => .ok sab_u

section Rep

variable (R : Resources)

/-- `_bit_rep()`. -/
def bitRep (bits : ℕ) (blox : Noun) : Except SlabFault ℕ :=
  if ¬bits < 2 ^ 31 ∨ bits = 0 ∨ 31 < bits then .error .bail
  else do
    let num_blox_w ← lent blox 0
    let bit_widt_w := num_blox_w * bits % 2 ^ 32
    let wor_widt_w := divCeil bit_widt_w 32
    let sab_u ← slabBareOn (R.walloc 0) 5 wor_widt_w R.raw
    let sab_u ← fillBlox bits num_blox_w blox sab_u
    mintValue (R.walloc 0) sab_u

/-- `_block_rep()`. -/
def blockRep (a : ℕ) (b : Noun) : Except SlabFault ℕ :=
  if ¬a < 2 ^ 31 ∨ 32 ≤ a then .error .bail
  else do
    let tot_w ← repMeasure a b 0
    if tot_w = 0 then .ok 0
    else do
      let sab_u ← slabInitOn (R.walloc 0) a tot_w R.raw
      let sab_u ← repChop a b sab_u 0
      mintValue (R.walloc 0) sab_u

/-- `u3qc_rep()`, with `none` for `u3_none`. -/
def qcRep (a b : ℕ) (c : Noun) : Except SlabFault (Option ℕ) :=
  if b = 1 then do
    let res ← blockRep R a c
    .ok (some res)
  else if a = 0 then do
    let res ← bitRep R b c
    .ok (some res)
  else .ok none

end Rep

/-! ### Elements of whole blocks -/

/-- The elements of a list at their places, each of `w` bits. -/
def packed (w : ℕ) (xs : List ℕ) : ℕ := Nat.ofDigits (2 ^ w) (xs.map (· % 2 ^ w))

@[simp] theorem packed_nil (w : ℕ) : packed w [] = 0 := rfl

@[simp] theorem packed_cons (w x : ℕ) (xs : List ℕ) :
    packed w (x :: xs) = x % 2 ^ w + 2 ^ w * packed w xs := by
  rw [packed, List.map_cons, Nat.ofDigits_cons, packed]

theorem packed_digits {w : ℕ} (hw : 0 < w) (x : ℕ) : packed w (Nat.digits (2 ^ w) x) = x := by
  have hbase : 1 < 2 ^ w := Nat.one_lt_two_pow hw.ne'
  have hsame : (Nat.digits (2 ^ w) x).map (· % 2 ^ w) = Nat.digits (2 ^ w) x :=
    List.map_congr_left (fun d hd ↦ Nat.mod_eq_of_lt (Nat.digits_lt_base hbase hd)) |>.trans
      (List.map_id _)
  rw [packed, hsame, Nat.ofDigits_digits]

section Values

variable {a : ℕ} {xs : List ℕ}

theorem met_le_size (a x : ℕ) : met a x ≤ x.size := by
  obtain ⟨k, hk⟩ : ∃ k, 2 ^ a = k + 1 := ⟨2 ^ a - 1, (Nat.sub_add_cancel (Nat.two_pow_pos a)).symm⟩
  rw [met, hk, Nat.add_sub_cancel]
  refine Nat.lt_succ_iff.mp ((Nat.div_lt_iff_lt_mul (Nat.succ_pos k)).mpr ?_)
  rw [Nat.succ_mul, Nat.mul_succ]
  omega

theorem repMeasure_atoms
    (hsizes : ∀ x ∈ xs, x.size ≤ 2 ^ 31) {tot_w : ℕ} (hfew : tot_w + xs.length < 2 ^ 31) :
    repMeasure a (atoms xs) tot_w = .ok (tot_w + xs.length) := by
  induction xs generalizing tot_w with
  | nil => rfl
  | cons x xs ih =>
    have hsize := hsizes x (List.mem_cons_self ..)
    have hmet := met_le_size a x
    rw [List.length_cons] at hfew ⊢
    rw [atoms, repMeasure, rMet_eq fun _ ↦ by omega]
    show (if (tot_w + met a x) % 2 ^ 32 < tot_w then
      _ else repMeasure a (atoms xs) ((tot_w + 1) % 2 ^ 32)) = _
    rw [Nat.mod_eq_of_lt (show tot_w + met a x < 2 ^ 32 by omega), if_neg (by omega),
      Nat.mod_eq_of_lt (by omega),
      ih (fun x hx ↦ hsizes x (List.mem_cons_of_mem _ hx)) (by omega), Nat.add_right_comm,
      Nat.add_assoc]

/-- The elements of a list are pieces of one block each. -/
theorem repChop_eq (xs : List ℕ) (sab_u : Slab) (pos_w : ℕ) :
    repChop a (atoms xs) sab_u pos_w = canChop a (pieces (xs.map (1, ·))) sab_u pos_w := by
  induction xs generalizing sab_u pos_w with
  | nil => rfl
  | cons x xs ih =>
    rw [atoms, repChop, List.map_cons, pieces, canChop]
    exact bind_congr fun sab_u ↦ ih sab_u _

theorem total_ones (xs : List ℕ) : total (xs.map (1, ·)) = xs.length := by
  induction xs with
  | nil => rfl
  | cons x xs ih =>
    rw [total, List.map_cons, List.map_cons, List.sum_cons, List.length_cons, Nat.add_comm, ← ih]
    rfl

theorem concat_ones (a : ℕ) (xs : List ℕ) : concat a (xs.map (1, ·)) = packed (2 ^ a) xs := by
  induction xs with
  | nil => rfl
  | cons x xs ih => rw [List.map_cons, concat, packed_cons, ih, Nat.one_mul, Nat.mul_comm]

/-- Fewer blocks than cells never wrap the size that is asked for. -/
theorem unwrapped_of_cells (ha : a < 32) {len : ℕ} (hlen : len ≤ cells) : Unwrapped a len := by
  unfold cells at hlen
  unfold Unwrapped wordsOf
  by_cases hfew : a ≤ 7
  · have hwidth : 2 ^ a ≤ 2 ^ 7 := Nat.pow_le_pow_right (by decide) hfew
    have hbits : len * 2 ^ a ≤ 2 ^ 30 / 6 * 2 ^ 7 := Nat.mul_le_mul hlen hwidth
    exact .inl (by omega)
  · obtain ⟨g, rfl⟩ := Nat.exists_eq_add_of_le' (show 8 ≤ a by omega)
    rw [Nat.pow_add, ← Nat.mul_assoc]
    omega

theorem blockRep_computes (R : Resources) (ha : a < 32)
    (hsizes : ∀ x ∈ xs, x.size ≤ 2 ^ 31) (hlen : xs.length ≤ cells) :
    Computes (R.walloc 0) (blockRep R a (atoms xs)) a xs.length (packed (2 ^ a) xs) := by
  have hfew : xs.length ≤ 2 ^ 30 / 6 := hlen
  unfold blockRep
  rw [if_neg (by omega), repMeasure_atoms hsizes (by omega), Nat.zero_add]
  show Computes (R.walloc 0) (if xs.length = 0 then _ else _) a _ _
  by_cases hnone : xs.length = 0
  · rw [if_pos hnone, List.length_eq_zero_iff.mp hnone, packed_nil]
    exact .inl rfl
  · rw [if_neg hnone]
    refine init_computes (R.honest 0) ha (by omega) (unwrapped_of_cells ha hlen)
      fun s n large hok hroom ↦ ?_
    have hpieces : ∀ p ∈ xs.map (1, ·), lenW p.2 ≤ maximum := fun p hp ↦ by
      obtain ⟨x, hx, rfl⟩ := List.mem_map.mp hp
      have hsize := hsizes x hx
      show lenW x ≤ maximum
      unfold lenW maximum
      omega
    obtain ⟨s', out, hs', hok', hvalue⟩ := @canChop_ok a ha _ hpieces s n 0 _ large hok
      (by rw [total_ones]; omega) (by rwa [total_ones, Nat.zero_add])
    refine ⟨s', out, (repChop_eq xs s 0).trans hs', hok', ?_⟩
    rw [hvalue, valueOf_zeros, concat_ones, Nat.zero_mul, Nat.shiftLeft_zero, Nat.zero_xor]

end Values

/-! ### Elements of a few bits -/

section Pack

variable {n len v : ℕ} {large : Bool}

theorem put_room {s s' : Slab} {i_w : ℕ} {ws : List UInt32} (hput : s.put i_w ws = .ok s') :
    s'.room.length = s.room.length := by
  unfold Slab.put at hput
  split at hput
  · next hle =>
    obtain rfl := Except.ok.inj hput
    have hlength : (s.room.take i_w ++ ws ++ s.room.drop (i_w + ws.length)).length =
        s.room.length := by
      rw [List.length_append, List.length_append, List.length_take, List.length_drop]
      omega
    unfold Slab.fill Slab.room
    unfold Slab.room at hlength hle
    cases hbuf : s.buf_w with
    | sat => rfl
    | vat =>
      rw [hbuf] at hlength hle
      cases hvat : s.vat_u with
      | none => rfl
      | some vat_u =>
        rw [hvat] at hlength
        exact hlength
  · cases hput

theorem wordsOf_five (wor_w : ℕ) : wordsOf 5 wor_w = wor_w := by
  unfold wordsOf
  omega

/-- The slab that is taken has just the words that it was asked for. -/
theorem slabBareOn_room {walloc : Alloc} (hhonest : Honest walloc) {raw s : Slab} {wor_w : ℕ}
    (hfits : wor_w ≤ 2 ^ 32 - 6) (hbare : slabBareOn walloc 5 wor_w raw = .ok s) :
    s.room.length = max 1 wor_w := by
  unfold slabBareOn at hbare
  rw [ciSlabSize_eq (by decide) (by omega), wordsOf_five, if_pos (by omega)] at hbare
  dsimp only at hbare
  split at hbare
  · next hfew =>
    obtain rfl := Except.ok.inj hbare
    rw [show max 1 wor_w = 1 by omega]
    rfl
  · next hmany =>
    unfold Slab.ciInit at hbare
    rw [Nat.mod_eq_of_lt (show wor_w + wiseofAtom < 2 ^ 32 by unfold wiseofAtom; omega)] at hbare
    cases hwalloc : walloc (wor_w + wiseofAtom) with
    | none =>
      rw [hwalloc] at hbare
      cases hbare
    | some nov_w =>
      rw [hwalloc] at hbare
      obtain rfl := Except.ok.inj hbare
      have hlength := hhonest.length hwalloc
      show (nov_w.drop wiseofAtom).length = _
      rw [List.length_drop, hlength, Nat.add_sub_cancel]
      omega

/-- The bits that were packed are in the words before the next one and in the register. -/
structure Packed (p : Packer) (n bits v : ℕ) (large : Bool) : Prop where
  ok : ∃ words,
  SlabOk p.sab_u n words large ∧ valueOf (words.take p.cur_w) + p.acc_w * 2 ^ (32 * p.cur_w) = v
  room : p.sab_u.room.length = n
  cur_le : p.cur_w ≤ n
  bits_eq : 32 * p.cur_w + p.use_w = bits
  acc_lt : p.acc_w < 2 ^ p.use_w

/-- What a step that packs bits gives: the bits in front of the others, or a write past the slab for
too many. -/
def Packs (res : Except SlabFault Packer) (n bits v : ℕ) (large : Bool) : Prop :=
  (∃ p, res = .ok p ∧ Packed p n bits v large) ∨ (res = .error .overrun ∧ 32 * n < bits)

variable {p : Packer} {bits : ℕ}

theorem sliceOff_eq {sz off : ℕ} (hsz : sz < 32) (hoff : off < 32) (hfits : sz + off ≤ 32)
    (val : ℕ) :
    sliceOff sz off val = .ok (val % 2 ^ sz * 2 ^ off) := by
  unfold sliceOff
  rw [if_neg (by omega)]
  by_cases hnone : sz = 0
  · rw [if_pos hnone, hnone, Nat.pow_zero, Nat.mod_one, Nat.zero_mul]
  · have hone : 1 <<< sz < 2 ^ 32 := shiftLeft_lt (show 1 < 2 ^ 1 by decide) (by omega)
    have hpart : val % 2 ^ sz * 2 ^ off < 2 ^ 32 := by
      calc val % 2 ^ sz * 2 ^ off < 2 ^ sz * 2 ^ off :=
          Nat.mul_lt_mul_of_pos_right (Nat.mod_lt _ (Nat.two_pow_pos sz)) (Nat.two_pow_pos off)
        _ = 2 ^ (sz + off) := (Nat.pow_add ..).symm
        _ ≤ 2 ^ 32 := Nat.pow_le_pow_right (by decide) hfits
    rw [if_neg hnone, shlWord, if_pos hsz, Nat.mod_eq_of_lt hone, Nat.one_shiftLeft]
    show shlWord (val &&& (2 ^ sz - 1)) off = _
    rw [shlWord, if_pos hoff, and_mask, Nat.shiftLeft_eq, Nat.mod_eq_of_lt hpart]

/-- The register with bits that are put in above those that are used. -/
theorem or_place {acc_w use_w : ℕ} (hless : acc_w < 2 ^ use_w) (x : ℕ) :
    acc_w ||| x * 2 ^ use_w = acc_w + x * 2 ^ use_w := by
  rw [Nat.or_comm, ← Nat.shiftLeft_eq, ← Nat.shiftLeft_add_eq_or_of_lt hless, Nat.add_comm]

/-- A register that is flushed with more bits in it. -/
theorem flush_packs (hok : Packed p n bits v large) {x : ℕ}
    (hword : p.acc_w + x * 2 ^ p.use_w < 2 ^ 32) :
    Packs (Packer.flush { p with acc_w := p.acc_w + x * 2 ^ p.use_w }) n (32 * (p.cur_w + 1))
      (v + x * 2 ^ bits)
      large := by
  obtain ⟨words, hwords, hvalue⟩ := hok.ok
  have hlength := hwords.words_eq.2
  unfold Packer.flush
  dsimp only
  by_cases hfits : p.cur_w < n
  · obtain ⟨s', hput, hok'⟩ := @SlabOk.put p.sab_u n p.cur_w words
      [UInt32.ofNat (p.acc_w + x * 2 ^ p.use_w)] large hwords
      (by rw [List.length_singleton]; omega)
    rw [hput]
    refine .inl ⟨_, rfl, ⟨_, hok', ?_⟩, (put_room hput).trans hok.room, hfits, rfl, Nat.one_pos⟩
    have htake :
        (words.take p.cur_w).length = p.cur_w := by
          rw [List.length_take, Nat.min_eq_left (by omega)]
    rw [List.take_append_of_le_length (by rw [List.length_append, htake, List.length_singleton]),
      List.take_of_length_le (by rw [List.length_append, htake, List.length_singleton]),
      valueOf_concat, htake,
      UInt32.toNat_ofNat_of_lt' hword, Nat.zero_mul, Nat.add_zero, ← hvalue, ← hok.bits_eq,
      ← Nat.pow_mul, Nat.pow_add]
    ring
  · have hover : p.sab_u.put p.cur_w [UInt32.ofNat (p.acc_w + x * 2 ^ p.use_w)] = .error .overrun :=
      if_neg (by rw [hok.room, List.length_singleton]; omega)
    rw [hover]
    exact .inr ⟨rfl, by omega⟩

theorem pack_packs (hok : Packed p n bits v large) {rem_in_blok_w : ℕ} (hrem : rem_in_blok_w < 32)
    (blok_w : ℕ) : Packs (pack p rem_in_blok_w blok_w) n (bits + rem_in_blok_w)
      (v + blok_w % 2 ^ rem_in_blok_w * 2 ^ bits) large := by
  induction rem_in_blok_w using Nat.strong_induction_on generalizing p bits v blok_w with
  | _ rem ih =>
    have huse := p.use_lt
    have hbits := hok.bits_eq
    have hacc := hok.acc_lt
    rw [pack]
    by_cases hdone : rem = 0
    · rw [if_pos hdone, hdone, Nat.pow_zero, Nat.mod_one, Nat.zero_mul]
      exact .inl ⟨p, rfl, hok⟩
    rw [if_neg hdone]
    dsimp only
    have hplaced :
        ∀ sz, sz + p.use_w ≤ 32 → p.acc_w + blok_w % 2 ^ sz * 2 ^ p.use_w < 2 ^ (sz + p.use_w) :=
          fun sz _ ↦ by
      have hless := Nat.mod_lt blok_w (Nat.two_pow_pos sz)
      calc p.acc_w + blok_w % 2 ^ sz * 2 ^ p.use_w < (blok_w % 2 ^ sz + 1) * 2 ^ p.use_w := by
            rw [Nat.succ_mul]
            omega
        _ ≤ 2 ^ sz * 2 ^ p.use_w := Nat.mul_le_mul_right _ hless
        _ = 2 ^ (sz + p.use_w) := (Nat.pow_add ..).symm
    by_cases heq : rem = 32 - p.use_w
    · rw [if_pos heq, sliceOff_eq hrem huse (by omega)]
      show Packs
        (Packer.flush { p with acc_w := p.acc_w ||| blok_w % 2 ^ rem * 2 ^ p.use_w }) _ _ _ _
      have hfull := hplaced rem (by omega)
      rw [show rem + p.use_w = 32 by omega] at hfull
      rw [or_place hacc, show bits + rem = 32 * (p.cur_w + 1) by omega]
      exact flush_packs hok hfull
    rw [if_neg heq]
    by_cases hless : rem < 32 - p.use_w
    · obtain ⟨words, hwords, hvalue⟩ := hok.ok
      rw [dif_pos hless, sliceOff_eq hrem huse (by omega)]
      refine .inl ⟨_, rfl, ⟨words, hwords, ?_⟩, hok.room, hok.cur_le, ?_, ?_⟩
      · show valueOf _ + (p.acc_w ||| _) * _ = _
        rw [or_place hacc, ← hvalue, ← hbits, Nat.pow_add]
        ring
      · show 32 * p.cur_w + (p.use_w + rem) = bits + rem
        omega
      · show (p.acc_w ||| _) < 2 ^ (p.use_w + rem)
        rw [or_place hacc, Nat.add_comm p.use_w]
        exact hplaced rem (by omega)
    · rw [dif_neg hless, sliceOff_eq (by omega) huse (by omega)]
      show Packs (shrWord blok_w (32 - p.use_w) >>= fun high_w ↦
        Packer.flush { p with acc_w := p.acc_w ||| blok_w % 2 ^ (32 - p.use_w) * 2 ^ p.use_w } >>=
          fun next ↦ _) _ _ _ _
      have hfull := hplaced (32 - p.use_w) (by omega)
      rw [Nat.sub_add_cancel huse.le] at hfull
      rw [shrWord, if_pos (by omega), or_place hacc]
      show Packs (Packer.flush _ >>= fun next ↦
        pack next (rem - (32 - p.use_w)) (blok_w >>> (32 - p.use_w))) _ _ _ _
      rcases flush_packs hok hfull with ⟨next, hnext, hok'⟩ | ⟨hover, hmany⟩
      · rw [hnext]
        have hrest :=
          ih (rem - (32 - p.use_w)) (by omega) hok' (by omega) (blok_w >>> (32 - p.use_w))
        have hparts : blok_w % 2 ^ rem = blok_w % 2 ^ (32 - p.use_w) +
            2 ^ (32 - p.use_w) * (blok_w >>> (32 - p.use_w) % 2 ^ (rem - (32 - p.use_w))) := by
          rw [Nat.shiftRight_eq_div_pow, ← Nat.mod_mul, ← Nat.pow_add,
            Nat.add_sub_cancel' (by omega)]
        have hplace : 2 ^ (32 * (p.cur_w + 1)) = 2 ^ (32 - p.use_w) * 2 ^ bits := by
          rw [← Nat.pow_add]
          congr 1
          omega
        rw [show 32 * (p.cur_w + 1) + (rem - (32 - p.use_w)) = bits + rem by omega, hplace] at hrest
        rw [hparts, Nat.add_mul, Nat.mul_comm (2 ^ (32 - p.use_w)), Nat.mul_assoc, ← Nat.add_assoc]
        exact hrest
      · rw [hover]
        exact .inr ⟨rfl, by omega⟩

/-- The blocks are packed behind those before them. -/
theorem packBlox_packs {b : ℕ} (hb : b < 32) {xs : List ℕ} (hdirect : ∀ x ∈ xs, x < 2 ^ 31)
    (hok : Packed p n bits v large) :
    Packs (packBlox b xs.length (atoms xs) p) n (bits + xs.length * b)
      (v + packed b xs * 2 ^ bits) large := by
  induction xs generalizing p bits v with
  | nil => exact .inl ⟨p, rfl, by rwa [packed_nil, List.length_nil, Nat.zero_mul, Nat.zero_mul]⟩
  | cons x xs ih =>
    have hx := hdirect x (List.mem_cons_self ..)
    have hcount : bits + (x :: xs).length * b = bits + b + xs.length * b := by
      rw [List.length_cons, Nat.succ_mul]
      omega
    have hvalue :
        v + packed b (x :: xs) * 2 ^ bits =
          v + x % 2 ^ b * 2 ^ bits + packed b xs * 2 ^ (bits + b) := by
      rw [packed_cons, Nat.pow_add]
      ring
    rw [hcount, hvalue, atoms, List.length_cons, packBlox, if_neg (not_not.mpr hx)]
    rcases pack_packs hok hb x with ⟨p', hp', hok'⟩ | ⟨hover, hmany⟩
    · rw [hp']
      exact ih (fun x hx ↦ hdirect x (List.mem_cons_of_mem _ hx)) hok'
    · rw [hover]
      exact .inr ⟨rfl, by omega⟩

/-- The slab is filled with the blocks, or they are written past it. -/
theorem fillBlox_ok {b : ℕ} (hb : b < 32) {xs : List ℕ}
    (hdirect : ∀ x ∈ xs, x < 2 ^ 31) {s : Slab} {words : List UInt32}
    (hok : SlabOk s n words large) (hroom : s.room.length = n) :
    (∃ s' out, fillBlox b xs.length (atoms xs) s = .ok s' ∧ SlabOk s' n out large ∧
    xs.length * b ≤ 32 * n ∧
      valueOf (out.take ((xs.length * b + 31) / 32)) = packed b xs) ∨
      (fillBlox b xs.length (atoms xs) s = .error .overrun ∧ 32 * n < xs.length * b) := by
  have hstart : Packed ⟨0, 0, 0, s, by decide⟩ n 0 0 large :=
    ⟨⟨words, hok, (Nat.zero_add _).trans (Nat.zero_mul _)⟩, hroom, Nat.zero_le n, rfl, Nat.one_pos⟩
  have hpacks := packBlox_packs hb hdirect hstart
  rw [Nat.zero_add, Nat.zero_add, Nat.pow_zero, Nat.mul_one] at hpacks
  unfold fillBlox
  rcases hpacks with ⟨p, hp, hok'⟩ | ⟨hover, hmany⟩
  · have huse := p.use_lt
    have hbits := hok'.bits_eq
    have hcur := hok'.cur_le
    rw [hp]
    show (∃ s' out,
    (if p.use_w = 0 then .ok p.sab_u else p.flush >>= fun p ↦ .ok p.sab_u) = .ok s' ∧ _) ∨
      (if p.use_w = 0 then .ok p.sab_u else p.flush >>= fun p ↦ .ok p.sab_u) = .error .overrun ∧ _
    by_cases hnone : p.use_w = 0
    · obtain ⟨out, hout, hvalue⟩ := hok'.ok
      have hacc := hok'.acc_lt
      rw [hnone, Nat.pow_zero, Nat.lt_one_iff] at hacc
      rw [hacc, Nat.zero_mul, Nat.add_zero] at hvalue
      rw [if_pos hnone, show (xs.length * b + 31) / 32 = p.cur_w by omega]
      exact .inl ⟨_, out, rfl, hout, by omega, hvalue⟩
    · have hword : p.acc_w + 0 * 2 ^ p.use_w < 2 ^ 32 := by
        rw [Nat.zero_mul, Nat.add_zero]
        exact hok'.acc_lt.trans_le (Nat.pow_le_pow_right (by decide) huse.le)
      have hflush := flush_packs hok' hword
      rw [Nat.zero_mul, Nat.zero_mul, Nat.add_zero, Nat.add_zero] at hflush
      rw [if_neg hnone, show (xs.length * b + 31) / 32 = p.cur_w + 1 by omega]
      rcases hflush with ⟨p', hp', hok''⟩ | ⟨hover, hmany⟩
      · obtain ⟨out, hout, hvalue⟩ := hok''.ok
        have hbits' := hok''.bits_eq
        have hcur' := hok''.cur_le
        have huse' := p'.use_lt
        have hacc := hok''.acc_lt
        rw [show p'.use_w = 0 by omega, Nat.pow_zero, Nat.lt_one_iff] at hacc
        rw [hacc, Nat.zero_mul, Nat.add_zero, show p'.cur_w = p.cur_w + 1 by omega] at hvalue
        refine .inl ⟨p'.sab_u, out, ?_, hout, by omega, hvalue⟩
        rw [hp']
        rfl
      · refine .inr ⟨?_, by omega⟩
        rw [hover]
        rfl
  · rw [hover]
    exact .inr ⟨rfl, hmany⟩

end Pack

/-! ### What the functions give -/

/-- A list of direct atoms that the loom has room for. -/
structure DirectList where
  vals : List ℕ
  direct : ∀ v ∈ vals, v < 2 ^ 31
  fits : vals.length ≤ cells

/-- A call of `u3qc_rep()` gives an atom, or it bails because the allocator refuses memory for the
bits.
-/
def Reps (R : Resources) (res : Except SlabFault (Option ℕ)) (bits v : ℕ) : Prop :=
  res = .ok (some v) ∨ res = .error .bail ∧
    (2 ^ 32 ≤ (bits + 31) / 32 ∨ ∃ k ≤ max 3 ((bits + 31) / 32 + 2), R.walloc 0 k = none)

/-- Widths that are not supported. -/
def Unsupported (a b : ℕ) : Prop := a = 0 ∧ b ≠ 1 ∧ (b = 0 ∨ 31 < b)

/-- An atom is split into its digits, and put together from them again. -/
def Returns (R : Resources) (a b x : ℕ) : Prop :=
  let ds := Nat.digits (2 ^ (b * 2 ^ a)) x
  (qcRip R a b x = .ok (some (atoms ds)) ∧
    Reps R (qcRep R a b (atoms ds)) (ds.length * (b * 2 ^ a)) x) ∨
    (qcRip R a b x = .error .bail ∧ Lacks R ds.length (lenW x))

/-- Whatever there is room for, either both operations bail because of the width, or an atom is
returned and the elements of a list are put at their places. -/
def Inverse (a b : ℕ) (x : LoomAtom) (xs : DirectList) : Prop :=
  ∀ R : Resources,
    (Unsupported a b ∧ qcRip R a b x.val = .error .bail ∧ ∀ c, qcRep R a b c = .error .bail) ∨
      (¬Unsupported a b ∧ Returns R a b x.val ∧
        Reps R (qcRep R a b (atoms xs.vals)) (xs.vals.length * (b * 2 ^ a))
          (packed (b * 2 ^ a) xs.vals))

section Reps

variable {a b : ℕ} {xs : List ℕ} (R : Resources)

theorem lent_atoms {len_w : ℕ} (hfew : len_w + xs.length < 2 ^ 31) :
    lent (atoms xs) len_w = .ok (len_w + xs.length) := by
  induction xs generalizing len_w with
  | nil => exact if_pos hfew
  | cons x xs ih =>
    rw [List.length_cons] at hfew ⊢
    rw [atoms, lent, Nat.mod_eq_of_lt (by omega), ih (by omega), Nat.add_right_comm, Nat.add_assoc]

theorem blockRep_reps (ha : a < 32) (hsizes : ∀ x ∈ xs, x.size ≤ 2 ^ 31)
    (hlen : xs.length ≤ cells) :
    Reps R (qcRep R a 1 (atoms xs)) (xs.length * (1 * 2 ^ a)) (packed (1 * 2 ^ a) xs) := by
  have hfew : xs.length ≤ 2 ^ 30 / 6 := hlen
  rw [Nat.one_mul]
  unfold qcRep
  rw [if_pos rfl]
  rcases blockRep_computes R ha hsizes hlen with hok | ⟨hbail, hwhy⟩
  · rw [hok]
    exact .inl rfl
  · rw [hbail]
    exact .inr ⟨rfl, hwhy.resolve_left (by omega)⟩

theorem bitRep_eq (hbits : 2 ≤ b) (hdirect : b ≤ 31) (hlen : xs.length ≤ cells) :
    bitRep R b (atoms xs) = slabBareOn (R.walloc 0) 5 ((xs.length * b % 2 ^ 32 + 31) / 32) R.raw >>=
      fun sab_u ↦
      fillBlox b xs.length (atoms xs) sab_u >>= fun sab_u ↦ mintValue (R.walloc 0) sab_u := by
  have hfew : xs.length ≤ 2 ^ 30 / 6 := hlen
  have hceil := divCeil_eq (show 0 < 32 by decide) (xs.length * b % 2 ^ 32)
  unfold bitRep
  rw [if_neg (by omega), lent_atoms (by omega), Nat.zero_add]
  dsimp only [bind, Except.bind]
  rw [hceil]

/-- What the slab is that `_bit_rep()` takes. -/
theorem bareSlab_gives {wor_w : ℕ} (hfits : wor_w ≤ 2 ^ 32 - 6) :
    Gives (R.walloc 0) (wordsOf 5 wor_w) (slabBareOn (R.walloc 0) 5 wor_w R.raw) fun s ↦
      ∃ words, s.room.length = max 1 (wordsOf 5 wor_w) ∧
      SlabOk s (max 1 (wordsOf 5 wor_w)) words (1 < wordsOf 5 wor_w) := by
  have hgives := @slabBareOn_gives (R.walloc 0) 5 wor_w (R.honest 0) R.raw (by rwa [wordsOf_five])
  cases hbare : slabBareOn (R.walloc 0) 5 wor_w R.raw with
  | error f =>
    rw [hbare] at hgives
    exact hgives
  | ok s =>
    have hroom := slabBareOn_room (R.honest 0) hfits hbare
    rw [hbare] at hgives
    exact ⟨_, by rwa [wordsOf_five], hgives.2⟩

theorem bitRep_reps (hbits : 2 ≤ b) (hdirect : b ≤ 31)
    (hxs : ∀ x ∈ xs, x < 2 ^ 31) (hlen : xs.length ≤ cells)
    (hsome : xs ≠ []) (hfits : xs.length * b < 2 ^ 32) :
    Reps R (qcRep R 0 b (atoms xs)) (xs.length * (b * 2 ^ 0)) (packed (b * 2 ^ 0) xs) := by
  have hmany : 1 * b ≤ xs.length * b := Nat.mul_le_mul_right _ (List.length_pos_iff.mpr hsome)
  obtain ⟨wor_w, hwor⟩ : ∃ wor_w, wor_w = (xs.length * b + 31) / 32 := ⟨_, rfl⟩
  have hcomputes : Computes (R.walloc 0) (bitRep R b (atoms xs)) 5 wor_w (packed b xs) := by
    rw [bitRep_eq R hbits hdirect hlen, Nat.mod_eq_of_lt hfits, ← hwor]
    have hunwrapped : wordsOf 5 wor_w ≤ 2 ^ 32 - 6 := by
      rw [wordsOf_five]
      omega
    refine made_computes (bareSlab_gives R (by omega)) fun s words large hroom hok _ ↦ ?_
    rcases fillBlox_ok (show b < 32 by omega) hxs hok hroom with ⟨s', out, hs', hok', _,
      hvalue⟩ | ⟨_,
    hover⟩
    · rw [← hwor, List.take_of_length_le (by rw [hok'.words_eq.2, wordsOf_five]; omega)] at hvalue
      exact ⟨s', out, hs', hok', hvalue⟩
    · rw [wordsOf_five] at hover
      omega
  rw [Nat.pow_zero, Nat.mul_one]
  unfold qcRep Reps
  rw [if_neg (by omega), if_pos rfl, ← hwor]
  rcases hcomputes with hok | ⟨hbail, hwhy⟩
  · rw [hok]
    exact .inl rfl
  · rw [hbail]
    rw [wordsOf_five] at hwhy
    exact .inr ⟨rfl, hwhy.resolve_left (by omega)⟩

/-! ### Where they fail -/

/-- Room for all cells, and an allocator that gives all that fits. -/
def plenty : Resources where
  room := cells
  walloc _ := sevens
  raw := slabRaw
  room_le := Nat.le_refl cells
  honest _ := honest_sevens

/-- Without elements the slab has a word that nothing is written to, and that is the atom. -/
theorem qcRep_nul (hbits : 2 ≤ b) (hdirect : b ≤ 31) : qcRep plenty 0 b nul = .ok (some 9) := by
  unfold qcRep
  rw [if_neg (by omega), if_pos rfl]
  have hres : bitRep plenty b (atoms []) = .ok 9 := by
    rw [bitRep_eq plenty hbits hdirect (Nat.zero_le _), List.length_nil, Nat.zero_mul]
    rfl
  exact congrArg (· >>= fun res ↦ Except.ok (some res)) hres

/-- Where the bits are not counted by a word, blocks are written past the slab. -/
theorem qcRep_long (hbits : 2 ≤ b) (hdirect : b ≤ 31)
    (hxs : ∀ x ∈ xs, x < 2 ^ 31) (hlen : xs.length ≤ cells)
    (hmany : 2 ^ 32 ≤ xs.length * b) : qcRep plenty 0 b (atoms xs) = .error .overrun := by
  unfold qcRep
  rw [if_neg (by omega), if_pos rfl, bitRep_eq plenty hbits hdirect hlen]
  obtain ⟨wor_w, hwor⟩ : ∃ wor_w, wor_w = (xs.length * b % 2 ^ 32 + 31) / 32 := ⟨_, rfl⟩
  have hwords := wordsOf_five wor_w
  have hgives := bareSlab_gives plenty (show wor_w ≤ 2 ^ 32 - 6 by omega)
  rw [← hwor]
  cases hbare : slabBareOn (plenty.walloc 0) 5 wor_w plenty.raw with
  | error f =>
    rw [hbare] at hgives
    obtain ⟨-, k, hk, hnone⟩ := hgives
    exact absurd hnone (sevens_gives (by omega))
  | ok s =>
    rw [hbare] at hgives
    obtain ⟨words, hroom, hok⟩ := hgives
    rcases fillBlox_ok (show b < 32 by omega) hxs hok hroom with ⟨s', out, hs', hok', hin,
    hvalue⟩ | ⟨hover, _⟩
    · omega
    · show (fillBlox b xs.length (atoms xs) s >>= _) >>= _ = _
      rw [hover]
      rfl

theorem qcRip_long (hbits : 2 ≤ b) {x : ℕ} (hlong : 2 ^ 32 - 32 < x.size) :
    qcRip R 0 b x = .error .bail := by
  have hbail : bitRip R b x = .error .bail := by
    unfold bitRip
    rw [rMet_long (by decide) hlong]
    exact ite_self _
  unfold qcRip
  rw [if_neg (by omega), if_pos rfl, hbail]
  rfl

end Reps

/-- Blocks of a few bits of the atom zero, of no elements, or of more than a word counts. -/
def Slips (a b : ℕ) (x : LoomAtom) (xs : DirectList) : Prop :=
  a = 0 ∧ 2 ≤ b ∧ b ≤ 31 ∧ (x.val = 0 ∨ xs.vals = [] ∨ 2 ^ 32 ≤ xs.vals.length * b ∨
    2 ^ 32 - 32 < x.val.size ∧ (x.val.size + (b - 1)) / b ≤ cells)

theorem returns_block (R : Resources) {a : ℕ} (ha : a < 32) (x : LoomAtom) :
    Returns R a 1 x.val := by
  have hrips := blockRip_rips R ha x.fits
  have hpos := Nat.two_pow_pos a
  rw [← Nat.one_mul (2 ^ a)] at hrips
  unfold Returns qcRip
  rw [if_pos rfl]
  rcases hrips with ⟨hok, hroom⟩ | ⟨hbail, hlacks⟩
  · rw [hok]
    have hsizes : ∀ d ∈ Nat.digits (2 ^ (1 * 2 ^ a)) x.val, d.size ≤ 2 ^ 31 := fun d hd ↦ by
      have hbase : 1 < 2 ^ (1 * 2 ^ a) := Nat.one_lt_two_pow (by omega)
      have hsize : d.size ≤ 1 * 2 ^ a := Nat.size_le.mpr (Nat.digits_lt_base hbase hd)
      have hwidth : 2 ^ a ≤ 2 ^ 31 := Nat.pow_le_pow_right (by decide) (by omega)
      omega
    have hreps := blockRep_reps R ha hsizes (hroom.trans R.room_le)
    rw [packed_digits (by omega)] at hreps
    exact .inl ⟨rfl, hreps⟩
  · rw [hbail]
    exact .inr ⟨rfl, hlacks⟩

theorem returns_bits (R : Resources) {b x : ℕ} (hbits : 2 ≤ b) (hdirect : b ≤ 31) (hx : x ≠ 0)
    (hsize : ¬(2 ^ 32 - 32 < x.size ∧ (x.size + (b - 1)) / b ≤ cells)) : Returns R 0 b x := by
  have hlength := length_digits (show 0 < b by omega) x
  unfold Returns
  rw [Nat.pow_zero, Nat.mul_one]
  by_cases hlong : 2 ^ 32 - 32 < x.size
  · refine .inr ⟨qcRip_long R hbits hlong, .inl ?_⟩
    rw [hlength]
    exact R.room_le.trans_lt (Nat.not_le.mp fun hle ↦ hsize ⟨hlong, hle⟩)
  · have hrip : qcRip R 0 b x = bitRip R b x >>= fun res ↦ .ok (some res) := by
      unfold qcRip
      rw [if_neg (by omega), if_pos rfl]
    rw [hrip]
    rcases bitRip_rips R hbits hdirect (Nat.not_lt.mp hlong) with ⟨hok, hroom⟩ | ⟨hbail, hlacks⟩
    · rw [hok]
      have hbase : 1 < 2 ^ b := Nat.one_lt_two_pow (by omega)
      have hsmall : ∀ d ∈ Nat.digits (2 ^ b) x, d < 2 ^ 31 := fun d hd ↦
        (Nat.digits_lt_base hbase hd).trans_le (Nat.pow_le_pow_right (by decide) hdirect)
      have hcount : (Nat.digits (2 ^ b) x).length * b < 2 ^ 32 := by
        have hround := Nat.div_mul_le_self (x.size + (b - 1)) b
        rw [hlength]
        omega
      have hreps := bitRep_reps R hbits hdirect hsmall (hroom.trans R.room_le)
        (Nat.digits_ne_nil_iff_ne_zero.mpr hx) hcount
      rw [Nat.pow_zero, Nat.mul_one, packed_digits (by omega)] at hreps
      exact .inl ⟨rfl, hreps⟩
    · rw [hbail]
      exact .inr ⟨rfl, hlacks⟩

theorem bail_of_unsupported (R : Resources) {a b : ℕ} (hun : Unsupported a b) (x : ℕ) :
    qcRip R a b x = .error .bail ∧ ∀ c, qcRep R a b c = .error .bail := by
  obtain ⟨rfl, hone, hwidth⟩ := hun
  have hguard : ¬b < 2 ^ 31 ∨ b = 0 ∨ 31 < b := by omega
  refine ⟨?_, fun c ↦ ?_⟩
  · unfold qcRip bitRip
    rw [if_neg hone, if_pos rfl, if_pos hguard]
    rfl
  · unfold qcRep bitRep
    rw [if_neg hone, if_pos rfl, if_pos hguard]
    rfl

/-- For every supported shape, `u3qc_rip()` and `u3qc_rep()` are inverse, except for atoms and lists
that slip. -/
theorem rip_rep_iff {a b : ℕ} (hshape : b = 1 ∧ a < 32 ∨ a = 0) (x : LoomAtom) (xs : DirectList) :
    Inverse a b x xs ↔ ¬Slips a b x xs := by
  constructor
  · rintro hinverse ⟨rfl, hbits, hdirect, hslip⟩
    have hwidth : ¬Unsupported 0 b := fun ⟨_, _, hun⟩ ↦ by omega
    obtain ⟨_, hreturns, hreps⟩ := (hinverse plenty).resolve_left fun hun ↦ hwidth hun.1
    unfold Returns at hreturns
    rw [Nat.pow_zero, Nat.mul_one] at hreturns hreps
    rcases hslip with hx | hxs | hmany | ⟨hlong, hcount⟩
    · rw [hx, Nat.digits_zero] at hreturns
      rcases hreturns with ⟨_, hres | ⟨hbail, _⟩⟩ | ⟨hbail, hroom | ⟨_, k, hk, hnone⟩⟩
      · cases (qcRep_nul hbits hdirect).symm.trans hres
      · cases (qcRep_nul hbits hdirect).symm.trans hbail
      · exact Nat.not_lt_zero _ hroom
      · exact sevens_gives (hk.trans (by decide)) hnone
    · rw [hxs] at hreps
      rcases hreps with hres | ⟨hbail, _⟩
      · cases (qcRep_nul hbits hdirect).symm.trans hres
      · cases (qcRep_nul hbits hdirect).symm.trans hbail
    · have hover := qcRep_long hbits hdirect xs.direct xs.fits hmany
      rcases hreps with hres | ⟨hbail, _⟩
      · cases hover.symm.trans hres
      · cases hover.symm.trans hbail
    · have hbail := qcRip_long plenty hbits hlong
      have hfits := x.fits
      unfold maximum at hfits
      rcases hreturns with ⟨hres, _⟩ | ⟨_, hroom | ⟨_, k, hk, hnone⟩⟩
      · cases hbail.symm.trans hres
      · rw [length_digits (by omega)] at hroom
        exact Nat.not_lt.mpr hcount hroom
      · exact sevens_gives (by omega) hnone
  · intro hslips R
    by_cases hun : Unsupported a b
    · exact .inl ⟨hun, bail_of_unsupported R hun x.val⟩
    refine .inr ⟨hun, ?_⟩
    by_cases hone : b = 1
    · rw [hone] at hshape ⊢
      have ha : a < 32 := by omega
      refine ⟨returns_block R ha x, blockRep_reps R ha (fun v hv ↦ ?_) xs.fits⟩
      have hsize : v.size ≤ 31 := Nat.size_le.mpr (xs.direct v hv)
      omega
    · obtain rfl : a = 0 := hshape.resolve_left fun h ↦ hone h.1
      have hwidth : 2 ≤ b ∧ b ≤ 31 := by
        unfold Unsupported at hun
        omega
      have hnot : ¬(x.val = 0 ∨ xs.vals = [] ∨ 2 ^ 32 ≤ xs.vals.length * b ∨
          2 ^ 32 - 32 < x.val.size ∧ (x.val.size + (b - 1)) / b ≤ cells) := fun hslip ↦
        hslips ⟨rfl, hwidth.1, hwidth.2, hslip⟩
      rw [not_or, not_or, not_or] at hnot
      exact ⟨returns_bits R hwidth.1 hwidth.2 hnot.1 hnot.2.2.2,
        bitRep_reps R hwidth.1 hwidth.2 xs.direct xs.fits hnot.2.1 (Nat.not_le.mp hnot.2.2.1)⟩

/-- Five as pairs of bits, and the pairs one and two. -/
theorem rip_rep_iff_pairs : Inverse 0 2 ⟨5, by decide⟩ ⟨[1, 2], by decide, by decide⟩ := by
  refine (rip_rep_iff (.inr rfl) _ _).mpr fun ⟨_, _, _, hslip⟩ ↦ ?_
  have hsize : (5).size ≤ 3 := Nat.size_le.mpr (by decide)
  rcases hslip with hx | hxs | hmany | ⟨hlong, _⟩
  · cases hx
  · cases hxs
  · exact absurd hmany (by decide)
  · exact absurd (hlong.trans_le hsize) (by decide)

/-- No blocks of two bits make the word that the slab had before. -/
theorem qcRep_none : qcRep plenty 0 2 nul = .ok (some 9) ∧ packed (2 * 2 ^ 0) [] = 0 := ⟨rfl, rfl⟩

end Vere.Noun.Blocks
