import Mathlib.Data.Nat.Digits.Defs
import Vere.Noun.Blocks

/-!
# Atoms into lists of blocks

`u3qc_rip()` of `pkg/noun/jets/c/rip.c` splits an atom into a list of blocks, the lowest one first.
Each of its three loops makes the highest block first and puts the others in front of it
(`consBlocks`): `_bit_rip()` cuts blocks of up to 31 bits out of two words, `_block_rip()` cuts
blocks of a part of a word out of one, and copies larger ones to slabs. A block is the slice at its
place (`bitBlock_eq`, `smallBlock_ok`, `largeBlock_computes`), so that the list is that of the
digits (`bitRip_rips`, `blockRip_rips`).
-/

set_option autoImplicit false

namespace Vere.Noun.Blocks

open Imprison Nock Serial

/-! ### The functions -/

/-- `u3a_cells`: the cells that a loom of `2 ^ 30` words has room for. -/
def cells : ℕ := 2 ^ 30 / 6

/-- What a call finds: room for a number of cells, the allocator as it is each time that it is
asked, and what is on the stack. -/
structure Resources where
  room : ℕ
  walloc : ℕ → Alloc
  raw : Slab
  room_le : room ≤ cells
  honest : ∀ i, Honest (walloc i)

/-- A list of atoms as a noun. -/
def atoms : List ℕ → Noun
  | [] => .atom 0
  | x :: xs => .cell (.atom x) (atoms xs)

/-- `TAKEBITS()`. -/
def takeBits (n w : ℕ) : Except SlabFault ℕ :=
  if n = 32 then .ok w
  else if n = 0 then .ok 0
  else do
    let end_w ← shlWord 1 n
    .ok (w &&& (end_w - 1))

/-- `DIVCEIL()`. -/
def divCeil (x y : ℕ) : ℕ := if x = 0 then 0 else 1 + (x - 1) / y

/-- A word as an atom, which would be a pointer from `2 ^ 31` on. -/
def wordAtom (w : ℕ) : Except SlabFault ℕ := if w < 2 ^ 31 then .ok w else .error .overrun

/-- The loops that put a block in front of the list, where a cell can only be made while there is
room.
-/
def consBlocks (room : ℕ) (block : ℕ → Except SlabFault ℕ) : ℕ → ℕ → Noun → Except SlabFault Noun
  | 0, _, acc => .ok acc
  | n + 1, i_w, acc => do
    let rip ← block i_w
    if i_w < room then consBlocks room block n (i_w + 1) (.cell (.atom rip) acc) else .error .bail

/-- A block of `_bit_rip()`. -/
def bitBlock (bits num_blocks atom blk : ℕ) : Except SlabFault ℕ := do
  let next_blk := blk + 1
  let blks_rem := num_blocks - next_blk
  let bits_rem := blks_rem * bits % 2 ^ 32
  let ins_idx := bits_rem / 32
  let sig_idx := ins_idx + 1
  let bits_rem_in_ins_word := bits_rem % 32
  let ins_word := rWord ins_idx atom
  let sig_word := rWord sig_idx atom
  let nbits_ins := min bits (32 - bits_rem_in_ins_word)
  let nbits_sig := bits - nbits_ins
  let ins_word_bits ← takeBits nbits_ins (← shrWord ins_word bits_rem_in_ins_word)
  let sig_word_bits ← takeBits nbits_sig sig_word
  let item := ins_word_bits ||| (← shlWord sig_word_bits nbits_ins)
  wordAtom item

/-- A block of `_block_rip()` that is a part of a word. -/
def smallBlock (bloq_g met_w b i_w : ℕ) : Except SlabFault ℕ := do
  let nbits_w ← shlWord 1 bloq_g
  let end_w ← shlWord 1 nbits_w
  let bmask_w := end_w - 1
  let nex_w := i_w + 1
  let pat_w := met_w - nex_w
  let bit_w ← shlWord pat_w bloq_g
  let wor_w := bit_w >>> 5
  let sif_w := bit_w &&& 31
  let src_w := rWord wor_w b
  let rip_w ← shrWord src_w sif_w
  wordAtom (rip_w &&& bmask_w)

/-- The words of a block, from `j_w` on. -/
def fillWords (b wut_w : ℕ) : ℕ → ℕ → Slab → Except SlabFault Slab
  | 0, _, sab_u => .ok sab_u
  | n + 1, j_w, sab_u => do
    let sab_u ← sab_u.put j_w [UInt32.ofNat (rWord ((wut_w + j_w) % 2 ^ 32) b)]
    fillWords b wut_w n (j_w + 1) sab_u

section Rip

variable (R : Resources)

/-- A block of `_block_rip()` of whole words. -/
def largeBlock (bloq_g met_w len_w b i_w : ℕ) : Except SlabFault ℕ := do
  let san_g := bloq_g - 5
  let san_w ← shlWord 1 san_g
  let all_w ← shlWord met_w san_g
  let dif_w := (all_w + (2 ^ 32 - len_w)) % 2 ^ 32
  let tub_w := if dif_w = 0 then san_w else (san_w + (2 ^ 32 - dif_w)) % 2 ^ 32
  let pat_w := met_w - (i_w + 1)
  let wut_w ← shlWord pat_w san_g
  let sap_w := if i_w = 0 then tub_w else san_w
  let sab_u ← slabBareOn (R.walloc i_w) 5 sap_w R.raw
  let sab_u ← fillWords b wut_w sap_w 0 sab_u
  mintValue (R.walloc i_w) sab_u

/-- `_bit_rip()`. -/
def bitRip (bits atom : ℕ) : Except SlabFault Noun :=
  if ¬bits < 2 ^ 31 ∨ bits = 0 ∨ 31 < bits then .error .bail
  else do
    let bit_width ← rMet 0 atom
    let num_blocks := divCeil bit_width bits
    consBlocks R.room (bitBlock bits num_blocks atom) num_blocks 0 nul

/-- `_block_rip()`. -/
def blockRip (bloq b : ℕ) : Except SlabFault Noun :=
  if ¬bloq < 2 ^ 31 ∨ 32 ≤ bloq then .error .bail
  else if bloq < 5 then do
    let met_w ← rMet bloq b
    consBlocks R.room (smallBlock bloq met_w b) met_w 0 nul
  else do
    let met_w ← rMet bloq b
    let len_w ← rMet 5 b
    consBlocks R.room (largeBlock R bloq met_w len_w b) met_w 0 nul

/-- `u3qc_rip()`, with `none` for `u3_none`. -/
def qcRip (a b c : ℕ) : Except SlabFault (Option Noun) :=
  if b = 1 then do
    let acc ← blockRip R a c
    .ok (some acc)
  else if a = 0 then do
    let res ← bitRip R b c
    .ok (some res)
  else .ok none

end Rip

/-! ### Digits -/

variable {w n : ℕ}

theorem slice_slice {x p m r : ℕ} (hinside : r + w ≤ m) :
    slice (slice x p m) r w = slice x (p + r) w := by
  refine Nat.eq_of_testBit_eq fun i ↦ ?_
  rw [testBit_slice, testBit_slice, testBit_slice, Nat.add_assoc]
  by_cases hi : i < w
  · rw [decide_eq_true (show r + i < m by omega), Bool.true_and]
  · rw [decide_eq_false hi, Bool.false_and, Bool.false_and]

/-- A slice ends with its number. -/
theorem slice_of_lt {x pos wid less : ℕ} (hx : x < 2 ^ n) (hends : n ≤ pos + less)
    (hle : less ≤ wid) : slice x pos wid = slice x pos less := by
  refine Nat.eq_of_testBit_eq fun i ↦ ?_
  rw [testBit_slice, testBit_slice]
  by_cases hi : i < less
  · rw [decide_eq_true hi, decide_eq_true (show i < wid by omega)]
  · have hbit : x.testBit (pos + i) = false :=
      Nat.testBit_lt_two_pow (hx.trans_le (Nat.pow_le_pow_right (by decide) (by omega)))
    rw [hbit, Bool.and_false, Bool.and_false]

theorem digits_eq (hw : 0 < w) (x : ℕ) :
    Nat.digits (2 ^ w) x = (List.range ((x.size + (w - 1)) / w)).map fun j ↦ slice x (w * j) w := by
  have hone : 1 < 2 ^ w := Nat.one_lt_two_pow hw.ne'
  induction x using Nat.strong_induction_on with
  | _ x ih =>
    by_cases hx : x = 0
    · rw [hx, Nat.digits_zero, Nat.size_zero, Nat.zero_add,
        Nat.div_eq_of_lt (Nat.sub_lt hw Nat.one_pos)]
      rfl
    · have hpos : 0 < x.size := Nat.size_pos.mpr (Nat.pos_of_ne_zero hx)
      have hsize : (x / 2 ^ w).size = x.size - w := by
        rw [← Nat.shiftRight_eq_div_pow]
        exact size_shiftRight x w
      have hcount : (x.size + (w - 1)) / w = ((x / 2 ^ w).size + (w - 1)) / w + 1 := by
        rw [hsize]
        rcases Nat.le_total x.size w with hfew | hmany
        · rw [Nat.sub_eq_zero_of_le hfew, Nat.zero_add,
            Nat.div_eq_of_lt (Nat.sub_lt hw Nat.one_pos)]
          exact Nat.div_eq_of_lt_le (by omega) (by omega)
        · rw [← Nat.add_div_right _ hw]
          congr 1
          omega
      rw [Nat.digits_def' hone (Nat.pos_of_ne_zero hx), hcount, List.range_succ_eq_map,
        List.map_cons, List.map_map,
        ih _ (Nat.div_lt_self (Nat.pos_of_ne_zero hx) hone)]
      refine congrArg₂ List.cons ?_ (List.map_congr_left fun j _ ↦ ?_)
      · rw [Nat.mul_zero, slice_eq, Nat.pow_zero, Nat.div_one]
      · show slice (x / 2 ^ w) (w * j) w = slice x (w * (j + 1)) w
        rw [slice_eq, slice_eq, Nat.div_div_eq_div_mul, ← Nat.pow_add, Nat.mul_succ, Nat.add_comm w]

/-! ### The blocks -/

theorem map_drop_range (f : ℕ → ℕ) {m : ℕ} (hm : m < n) :
    ((List.range n).drop m).map f = f m :: ((List.range n).drop (m + 1)).map f := by
  rw [List.drop_eq_getElem_cons (by rwa [List.length_range]), List.getElem_range, List.map_cons]

/-- The loop makes the whole list, or it bails for want of cells or in a block. -/
theorem consBlocks_eq {room : ℕ} {block : ℕ → Except SlabFault ℕ} {f : ℕ → ℕ} {why : Prop}
    (hblock : ∀ i < n, (∃ v, block i = .ok v) ∨ block i = .error .bail ∧ why)
    (hvalue : n ≤ room → ∀ i < n, ∀ v, block i = .ok v → v = f (n - (i + 1))) :
    (consBlocks room block n 0 nul = .ok (atoms ((List.range n).map f)) ∧ n ≤ room) ∨
      (consBlocks room block n 0 nul = .error .bail ∧ (room < n ∨ why)) := by
  have hloop :
      ∀ m i acc, i + m = n → i ≤ room → (n ≤ room → acc = atoms (((List.range n).drop m).map f)) →
      (consBlocks room block m i acc = .ok (atoms ((List.range n).map f)) ∧ n ≤ room) ∨
        (consBlocks room block m i acc = .error .bail ∧ (room < n ∨ why)) := by
    intro m
    induction m with
    | zero =>
      rintro i acc rfl hroom hacc
      exact .inl ⟨congrArg Except.ok (hacc hroom), hroom⟩
    | succ m ih =>
      intro i acc hsum hroom hacc
      rw [consBlocks]
      rcases hblock i (by omega) with ⟨v, hv⟩ | ⟨hbail, hwhy⟩
      · rw [hv]
        show (if i < room then consBlocks room block m (i + 1) (.cell (.atom v) acc) else _) = _ ∧
          _ ∨
          (if _ then _ else _) = _ ∧ _
        by_cases hcell : i < room
        · rw [if_pos hcell]
          refine ih (i + 1) _ (by omega) hcell fun hfits ↦ ?_
          have hitem := hvalue hfits i (by omega) v hv
          rw [show n - (i + 1) = m by omega] at hitem
          rw [map_drop_range f (by omega), hacc hfits, hitem]
          rfl
        · rw [if_neg hcell]
          exact .inr ⟨rfl, .inl (by omega)⟩
      · rw [hbail]
        exact .inr ⟨rfl, .inr hwhy⟩
  refine hloop n 0 nul (Nat.zero_add n) (Nat.zero_le _) fun _ ↦ ?_
  rw [List.drop_of_length_le (List.length_range ..).le]
  rfl

theorem takeBits_eq (hn : n < 32) (w : ℕ) : takeBits n w = .ok (w % 2 ^ n) := by
  unfold takeBits
  rw [if_neg (by omega)]
  by_cases hnone : n = 0
  · rw [if_pos hnone, hnone, Nat.pow_zero, Nat.mod_one]
  · have hone : 1 < 2 ^ (32 - n) := Nat.one_lt_two_pow (by omega)
    rw [if_neg hnone, shlWord_eq hn, Nat.mod_eq_of_lt hone, Nat.one_shiftLeft]
    show Except.ok (w &&& (2 ^ n - 1)) = _
    rw [and_mask]

/-- Bits of a word of an atom. -/
theorem rWord_slice {x k r n : ℕ} (hinside : r + n ≤ 32) :
    rWord k x >>> r % 2 ^ n = slice x (32 * k + r) n := by
  rw [rWord_eq]
  exact slice_slice hinside

theorem bitBlock_eq {bits num_blocks blk x : ℕ} (hbits : 0 < bits) (hdirect : bits ≤ 31)
    (hsize : (num_blocks - (blk + 1)) * bits < 2 ^ 32) :
    bitBlock bits num_blocks x blk = .ok (slice x (bits * (num_blocks - (blk + 1))) bits) := by
  unfold bitBlock
  dsimp only
  rw [Nat.mod_eq_of_lt hsize, Nat.mul_comm bits]
  generalize (num_blocks - (blk + 1)) * bits = pos
  have hpos := Nat.div_add_mod pos 32
  have hless := Nat.mod_lt pos (show 32 > 0 by decide)
  generalize pos / 32 = k at hpos ⊢
  generalize pos % 32 = r at hpos hless ⊢
  have hins : min bits (32 - r) < 32 := by omega
  have hlow : rWord k x >>> r % 2 ^ min bits (32 - r) = slice x pos (min bits (32 - r)) := by
    rw [rWord_slice (by omega), hpos]
  have hhigh : rWord (k + 1) x % 2 ^ (bits - min bits (32 - r)) =
      slice x (pos + min bits (32 - r)) (bits - min bits (32 - r)) := by
    have hword := @rWord_slice x (k + 1) 0 (bits - min bits (32 - r)) (by omega)
    rw [Nat.shiftRight_zero] at hword
    rw [hword]
    rcases Nat.le_total bits (32 - r) with hin | hout
    · rw [Nat.min_eq_left hin, Nat.sub_self, slice, slice, Nat.pow_zero, Nat.mod_one, Nat.mod_one]
    · rw [Nat.min_eq_right hout]
      congr 1
      omega
  have hmeet := slice_append x pos (min bits (32 - r)) (bits - min bits (32 - r))
  rw [Nat.add_sub_cancel' (Nat.min_le_left _ _)] at hmeet
  have hpart :
      slice x (pos + min bits (32 - r)) (bits - min bits (32 - r)) <<< min bits (32 - r) < 2 ^ 32 :=
    shiftLeft_lt (slice_lt _ _ _) (by omega)
  rw [shrWord, if_pos hless]
  show (takeBits _ (rWord k x >>> r) >>= fun ins_word_bits ↦
    takeBits _ (rWord (k + 1) x) >>= fun sig_word_bits ↦
    shlWord sig_word_bits _ >>= fun hig ↦ wordAtom (ins_word_bits ||| hig)) = _
  rw [takeBits_eq hins, takeBits_eq (by omega), hlow, hhigh]
  show (shlWord (slice x _ _) _ >>= fun hig ↦ wordAtom (slice x pos _ ||| hig)) = _
  rw [shlWord, if_pos hins, Nat.mod_eq_of_lt hpart]
  show wordAtom (_ ||| _) = _
  rw [Nat.or_comm, hmeet, wordAtom, if_pos]
  exact (slice_lt x pos bits).trans_le (Nat.pow_le_pow_right (by decide) hdirect)

/-- A block inside a word is made, and it is the slice at its place unless that is past `2 ^ 32`
bits.
-/
theorem smallBlock_ok {bloq_g : ℕ} (hbloq : bloq_g < 5) (met_w x i_w : ℕ) :
    ∃ v, smallBlock bloq_g met_w x i_w = .ok v ∧ ((met_w - (i_w + 1)) * 2 ^ bloq_g < 2 ^ 32 →
      v = slice x (2 ^ bloq_g * (met_w - (i_w + 1))) (2 ^ bloq_g)) := by
  have hwidth : 2 ^ bloq_g ≤ 16 ∧ 0 < 2 ^ bloq_g :=
    ⟨Nat.pow_le_pow_right (by decide) (show bloq_g ≤ 4 by omega), Nat.two_pow_pos _⟩
  obtain ⟨bit_w, hbit⟩ : ∃ bit_w, bit_w = (met_w - (i_w + 1)) * 2 ^ bloq_g % 2 ^ 32 := ⟨_, rfl⟩
  have hdvd : 2 ^ bloq_g ∣ 32 := Nat.pow_dvd_pow 2 (show bloq_g ≤ 5 by omega)
  have hplace : bit_w % 32 + 2 ^ bloq_g ≤ 32 := by
    have hbits : 2 ^ bloq_g ∣ bit_w := by
      rw [hbit, Nat.dvd_mod_iff (Nat.pow_dvd_pow 2 (show bloq_g ≤ 32 by omega))]
      exact Nat.dvd_mul_left _ _
    obtain ⟨k, hk⟩ := (Nat.dvd_mod_iff hdvd).mpr hbits
    obtain ⟨m, hm⟩ := hdvd
    have hless := Nat.mod_lt bit_w (show 32 > 0 by decide)
    have hnext : k + 1 ≤ m := Nat.lt_of_mul_lt_mul_left (by omega : 2 ^ bloq_g * k < 2 ^ bloq_g * m)
    calc bit_w % 32 + 2 ^ bloq_g = 2 ^ bloq_g * (k + 1) := by rw [hk, Nat.mul_succ]
      _ ≤ 2 ^ bloq_g * m := Nat.mul_le_mul_left _ hnext
      _ = 32 := hm.symm
  have hone : shlWord 1 bloq_g = .ok (2 ^ bloq_g) := by
    rw [shlWord_eq (by omega), Nat.mod_eq_of_lt (Nat.one_lt_two_pow (by omega)), Nat.one_shiftLeft]
  have hmask : shlWord 1 (2 ^ bloq_g) = .ok (2 ^ 2 ^ bloq_g) := by
    rw [shlWord_eq (by omega), Nat.mod_eq_of_lt (Nat.one_lt_two_pow (by omega)), Nat.one_shiftLeft]
  have hshift : shlWord (met_w - (i_w + 1)) bloq_g = .ok bit_w := by
    rw [shlWord, if_pos (by omega), Nat.shiftLeft_eq, hbit]
  have hword : bit_w >>> 5 = bit_w / 32 := Nat.shiftRight_eq_div_pow bit_w 5
  have hoff : bit_w &&& 31 = bit_w % 32 := and_mask bit_w 5
  have hslice := @rWord_slice x (bit_w / 32) (bit_w % 32) (2 ^ bloq_g) hplace
  rw [Nat.div_add_mod] at hslice
  refine ⟨slice x bit_w (2 ^ bloq_g), ?_, fun hfits ↦ ?_⟩
  · unfold smallBlock
    rw [hone]
    show (shlWord 1 (2 ^ bloq_g) >>= fun end_w ↦ shlWord (met_w - (i_w + 1)) bloq_g >>= fun bit_w ↦
      shrWord (rWord (bit_w >>> 5) x) (bit_w &&& 31) >>= fun rip_w ↦
        wordAtom (rip_w &&& (end_w - 1))) = _
    rw [hmask, hshift]
    show (shrWord (rWord (bit_w >>> 5) x) (bit_w &&& 31) >>= fun rip_w ↦
      wordAtom (rip_w &&& (2 ^ 2 ^ bloq_g - 1))) = _
    rw [hword, hoff, shrWord, if_pos (Nat.mod_lt _ (by decide))]
    show wordAtom (rWord (bit_w / 32) x >>> (bit_w % 32) &&& (2 ^ 2 ^ bloq_g - 1)) = _
    rw [and_mask, hslice, wordAtom, if_pos]
    exact (slice_lt _ _ _).trans_le (Nat.pow_le_pow_right (by decide) (by omega))
  · rw [hbit, Nat.mod_eq_of_lt hfits, Nat.mul_comm]

/-- The words of a block are written. -/
theorem fillWords_ok {s : Slab} {n : ℕ} {words : List UInt32} {large : Bool}
    (hok : SlabOk s n words large) (b wut_w : ℕ) (m : ℕ) {j_w : ℕ} (hroom : j_w + m ≤ n)
    (hdone : words.take j_w = (List.range j_w).map fun i ↦ UInt32.ofNat (rWord
      ((wut_w + i) % 2 ^ 32) b)) :
    ∃ s' out, fillWords b wut_w m j_w s = .ok s' ∧ SlabOk s' n out large ∧
      out.take (j_w + m) =
        (List.range (j_w + m)).map fun i ↦ UInt32.ofNat (rWord ((wut_w + i) % 2 ^ 32) b) := by
  induction m generalizing s words j_w with
  | zero => exact ⟨s, words, rfl, hok, hdone⟩
  | succ m ih =>
    have hlength := hok.words_eq.2
    obtain ⟨s₁, hput,
    hok₁⟩ := @SlabOk.put s n j_w words [UInt32.ofNat (rWord ((wut_w + j_w) % 2 ^ 32) b)] large hok
      (by rw [List.length_singleton]; omega)
    have htake : (words.take j_w).length = j_w := by
      rw [List.length_take, Nat.min_eq_left (by omega)]
    obtain ⟨s', out, hs', hok', hout⟩ := ih hok₁ (show j_w + 1 + m ≤ n by omega) (by
      rw [List.take_append_of_le_length (by rw [List.length_append, htake, List.length_singleton]),
        List.take_of_length_le (by rw [List.length_append, htake, List.length_singleton]), hdone,
        List.range_succ,
        List.map_append]
      rfl)
    rw [show j_w + 1 + m = j_w + (m + 1) by omega] at hout
    refine ⟨s', out, ?_, hok', hout⟩
    rw [fillWords, hput]
    exact hs'

theorem valueOf_map_rWord {x wut_w : ℕ} (hword : wut_w + n ≤ 2 ^ 32) :
    valueOf ((List.range n).map fun i ↦ UInt32.ofNat (rWord ((wut_w + i) % 2 ^ 32) x)) =
      slice x (32 * wut_w) (32 * n) := by
  refine eq_of_bufW fun k ↦ ?_
  have hleft :
      bufW (slice x (32 * wut_w) (32 * n)) k = slice (slice x (32 * wut_w) (32 * n)) (32 * k) 32 :=
        rfl
  rw [bufW_valueOf, hleft]
  by_cases hk : k < n
  · rw [List.getD_eq_getElem?_getD, List.getElem?_map, List.getElem?_range hk, Option.map_some,
      Option.getD_some,
      Nat.mod_eq_of_lt (by omega), rWord_eq, slice_slice (by omega), ← Nat.mul_add,
      UInt32.toNat_ofNat_of_lt' (slice_lt _ _ 32)]
  · rw [List.getD_eq_default _ _ (by rw [List.length_map, List.length_range]; omega)]
    have hlt := slice_lt x (32 * wut_w) (32 * n)
    rw [slice_eq _ (32 * k), div_two_pow_of_lt hlt (Nat.mul_le_mul_left 32 (Nat.not_lt.mp hk)),
      Nat.zero_mod]
    rfl

theorem met_five (x : ℕ) : met 5 x = lenW x := rfl

/-- Blocks of whole words, of which the top one can be shorter. -/
theorem met_words {g x : ℕ} (hx : x ≠ 0) :
    lenW x ≤ met (g + 5) x * 2 ^ g ∧ met (g + 5) x * 2 ^ g < lenW x + 2 ^ g := by
  have hpos := Nat.two_pow_pos g
  have hsize : 0 < x.size := Nat.size_pos.mpr (Nat.pos_of_ne_zero hx)
  have hpow : 2 ^ (g + 5) = 2 ^ g * 32 := Nat.pow_add 2 g 5
  have hround := Nat.div_add_mod (x.size + (2 ^ (g + 5) - 1)) (2 ^ (g + 5))
  have hless := Nat.mod_lt (x.size + (2 ^ (g + 5) - 1)) (Nat.two_pow_pos (g + 5))
  have hmet : met (g + 5) x = (x.size + (2 ^ (g + 5) - 1)) / 2 ^ (g + 5) := rfl
  rw [← hmet] at hround
  generalize met (g + 5) x = n at hround ⊢
  have hmul : 2 ^ (g + 5) * n = 32 * (n * 2 ^ g) := by
    rw [hpow, Nat.mul_comm, ← Nat.mul_assoc, Nat.mul_comm]
  unfold lenW
  generalize n * 2 ^ g = m at hmul ⊢
  omega

/-- A block of whole words is made, or it bails because the allocator refuses memory. -/
theorem largeBlock_computes (R : Resources) {bloq_g x i_w : ℕ} (hbloq : 5 ≤ bloq_g)
    (hbelow : bloq_g < 32) (hfits : lenW x ≤ maximum) (hi : i_w < met bloq_g x) :
    largeBlock R bloq_g (met bloq_g x) (lenW x) x i_w =
        .ok (slice x (2 ^ bloq_g * (met bloq_g x - (i_w + 1))) (2 ^ bloq_g)) ∨
      largeBlock R bloq_g (met bloq_g x) (lenW x) x i_w = .error .bail ∧
        ∃ k ≤ max 3 (lenW x + 2), R.walloc i_w k = none := by
  obtain ⟨g, rfl⟩ := Nat.exists_eq_add_of_le' hbloq
  have hx : x ≠ 0 := by
    rintro rfl
    rw [met_eq_zero.mpr rfl] at hi
    exact Nat.not_lt_zero _ hi
  obtain ⟨hlow, hhigh⟩ := @met_words g x hx
  unfold maximum at hfits
  have hpos := Nat.two_pow_pos g
  have hg : 2 ^ g ≤ 2 ^ 26 := Nat.pow_le_pow_right (by decide) (by omega)
  have hpow : 2 ^ (g + 5) = 32 * 2 ^ g := by rw [Nat.pow_add, Nat.mul_comm]
  have hlen : 0 < lenW x := by
    rw [← met_five]
    exact Nat.pos_of_ne_zero fun hzero ↦ hx (met_eq_zero.mp hzero)
  generalize hn : met (g + 5) x = n at hi hlow hhigh ⊢
  have hplace : (n - (i_w + 1)) * 2 ^ g + (i_w + 1) * 2 ^ g = n * 2 ^ g := by
    rw [← Nat.add_mul, Nat.sub_add_cancel hi]
  rw [Nat.add_mul, Nat.one_mul] at hplace
  obtain ⟨wut_w, hwut⟩ : ∃ wut_w, wut_w = (n - (i_w + 1)) * 2 ^ g := ⟨_, rfl⟩
  obtain ⟨sap_w, hsap⟩ : ∃ sap_w, sap_w = if i_w = 0 then lenW x - wut_w else 2 ^ g := ⟨_, rfl⟩
  obtain ⟨hends, hsome, hvalue⟩ : wut_w + sap_w ≤ lenW x ∧ 1 ≤ sap_w ∧
      slice x (32 * wut_w) (32 * sap_w) =
        slice x (2 ^ (g + 5) * (n - (i_w + 1))) (2 ^ (g + 5)) := by
    rw [show 2 ^ (g + 5) * (n - (i_w + 1)) = 32 * wut_w by rw [hpow, hwut, Nat.mul_assoc,
      Nat.mul_comm (2 ^ g)], hpow]
    rw [← hwut] at hplace
    by_cases hfirst : i_w = 0
    · rw [if_pos hfirst] at hsap
      rw [hfirst, Nat.zero_mul] at hplace
      refine ⟨by omega, by omega, (slice_of_lt (lt_lenW x) ?_ ?_).symm⟩
      · omega
      · omega
    · rw [if_neg hfirst] at hsap
      have hnext : 2 ^ g ≤ i_w * 2 ^ g := Nat.le_mul_of_pos_left _ (Nat.pos_of_ne_zero hfirst)
      exact ⟨by omega, by omega, by rw [hsap]⟩
  have hone : shlWord 1 g = .ok (2 ^ g) := by
    rw [shlWord, if_pos (by omega), Nat.one_shiftLeft, Nat.mod_eq_of_lt (by omega)]
  have hall : shlWord n g = .ok (n * 2 ^ g) := by
    rw [shlWord, if_pos (by omega), Nat.shiftLeft_eq, Nat.mod_eq_of_lt (by omega)]
  have hplaced : shlWord (n - (i_w + 1)) g = .ok wut_w := by
    rw [shlWord, if_pos (by omega), Nat.shiftLeft_eq, ← hwut, Nat.mod_eq_of_lt (by omega)]
  have hdif : (n * 2 ^ g + (2 ^ 32 - lenW x)) % 2 ^ 32 = n * 2 ^ g - lenW x := by omega
  have hsize : (if i_w = 0 then
      if n * 2 ^ g - lenW x = 0 then 2 ^ g else (2 ^ g + (2 ^ 32 - (n * 2 ^ g - lenW x))) % 2 ^ 32
      else 2 ^ g) = sap_w := by
    rw [hsap]
    by_cases hfirst : i_w = 0
    · rw [if_pos hfirst, if_pos hfirst]
      rw [← hwut, hfirst, Nat.zero_mul] at hplace
      split <;> omega
    · rw [if_neg hfirst, if_neg hfirst]
  have hwords : wordsOf 5 sap_w = sap_w := by
    unfold wordsOf
    omega
  have hmade :
      largeBlock R (g + 5) n (lenW x) x i_w = slabBareOn (R.walloc i_w) 5 sap_w R.raw >>=
        fun sab_u ↦
      fillWords x wut_w sap_w 0 sab_u >>= fun sab_u ↦ mintValue (R.walloc i_w) sab_u := by
    unfold largeBlock
    dsimp only
    rw [Nat.add_sub_cancel, hone]
    show (shlWord n g >>= fun all_w ↦ shlWord (n - (i_w + 1)) g >>= fun wut_w ↦ _) = _
    rw [hall, hplaced]
    dsimp only [bind, Except.bind]
    rw [hdif, hsize]
  have hcomputes : Computes (R.walloc i_w) (largeBlock R (g + 5) n (lenW x) x i_w) 5 sap_w
      (slice x (2 ^ (g + 5) * (n - (i_w + 1))) (2 ^ (g + 5))) := by
    rw [hmade]
    have hmake : Gives (R.walloc i_w) (wordsOf 5 sap_w) (slabBareOn (R.walloc i_w) 5 sap_w R.raw)
      fun s ↦ ∃ words, True ∧
        SlabOk s (max 1 (wordsOf 5 sap_w)) words (1 < wordsOf 5 sap_w) :=
      (slabBareOn_gives (R.honest i_w) R.raw (by omega)).imp fun s hs ↦ ⟨_, trivial, hs.2⟩
    refine made_computes hmake fun s words large _ hok _ ↦ ?_
    rw [hwords, Nat.max_eq_right hsome] at hok ⊢
    obtain ⟨s', out, hs', hok', hout⟩ :=
      @fillWords_ok s _ words large hok x wut_w sap_w 0 (by omega)
      (by rw [List.take_zero]; rfl)
    refine ⟨s', out, hs', hok', ?_⟩
    rw [Nat.zero_add, List.take_of_length_le hok'.words_eq.2.le] at hout
    rw [hout, valueOf_map_rWord (by omega), hvalue]
  refine hcomputes.imp id fun hbails ↦ ⟨hbails.1, ?_⟩
  have hwhy := hbails.2
  rw [hwords] at hwhy
  rcases hwhy with hmany | hmany | ⟨k, hk, hnone⟩
  · omega
  · omega
  · exact ⟨k, hk.trans (by omega), hnone⟩

/-! ### The lists -/

section Gives

variable (R : Resources) {a b x : ℕ}

/-- What a call lacks that bails: room for the cells of a list, or memory for atoms of a number of
words. -/
def Lacks (cells_w words_w : ℕ) :
    Prop := R.room < cells_w ∨ ∃ i, ∃ k ≤ max 3 (words_w + 2), R.walloc i k = none

/-- A call of `u3qc_rip()` gives the digits, or it bails for what it lacks. -/
def Rips (res : Except SlabFault Noun) (w x : ℕ) : Prop :=
  (res = .ok (atoms (Nat.digits (2 ^ w) x)) ∧ (Nat.digits (2 ^ w) x).length ≤ R.room) ∨
    (res = .error .bail ∧ Lacks R (Nat.digits (2 ^ w) x).length (lenW x))

theorem length_digits (hw : 0 < w) (x : ℕ) :
    (Nat.digits (2 ^ w) x).length = (x.size + (w - 1)) / w := by
  rw [digits_eq hw, List.length_map, List.length_range]

/-- Blocks that are the slices of an atom are its digits. -/
theorem consBlocks_rips (hw : 0 < w) (hn : n = (x.size + (w - 1)) / w)
    {block : ℕ → Except SlabFault ℕ} (hblock : ∀ i < n, (∃ v, block i = .ok v) ∨
      block i = .error .bail ∧ ∃ k ≤ max 3 (lenW x + 2), R.walloc i k = none)
    (hvalue : n ≤ R.room → ∀ i < n, ∀ v, block i = .ok v → v = slice x (w * (n - (i + 1))) w) :
    Rips R (consBlocks R.room block n 0 nul) w x := by
  have hlength := length_digits hw x
  have hlacks : ∀ i < n, (∃ v, block i = .ok v) ∨
      block i = .error .bail ∧ ∃ i, ∃ k ≤ max 3 (lenW x + 2), R.walloc i k = none := fun i hi ↦
    (hblock i hi).imp id fun ⟨hbail, hwhy⟩ ↦ ⟨hbail, i, hwhy⟩
  unfold Rips Lacks
  rw [hlength, digits_eq hw, ← hn]
  exact consBlocks_eq hlacks hvalue

theorem divCeil_eq {y : ℕ} (hy : 0 < y) (x : ℕ) : divCeil x y = (x + (y - 1)) / y := by
  unfold divCeil
  by_cases hx : x = 0
  · rw [if_pos hx, hx, Nat.zero_add, Nat.div_eq_of_lt (Nat.sub_lt hy Nat.one_pos)]
  · rw [if_neg hx, Nat.add_comm, ← Nat.add_div_right _ hy]
    congr 1
    omega

theorem bitRip_rips (hbits : 2 ≤ b) (hdirect : b ≤ 31) (hsize : x.size ≤ 2 ^ 32 - 32) :
    Rips R (bitRip R b x) b x := by
  unfold bitRip
  rw [if_neg (by omega), rMet_eq fun _ ↦ hsize]
  show Rips R (consBlocks R.room (bitBlock b (divCeil (met 0 x) b) x)
    (divCeil (met 0 x) b) 0 nul) b x
  have hmet : met 0 x = x.size := Nat.div_one _
  have hcount := divCeil_eq (show 0 < b by omega) x.size
  rw [hmet]
  have hblocks : divCeil x.size b * b ≤ x.size + (b - 1) := by
    rw [hcount]
    exact Nat.div_mul_le_self _ _
  have hblock : ∀ i < divCeil x.size b, bitBlock b (divCeil x.size b) x i =
      .ok (slice x (b * (divCeil x.size b - (i + 1))) b) := fun i hi ↦ by
    refine bitBlock_eq (by omega) hdirect ?_
    have hless :
        (divCeil x.size b - (i + 1)) * b ≤ divCeil x.size b * b :=
          Nat.mul_le_mul_right _ (Nat.sub_le _ _)
    omega
  refine consBlocks_rips R (by omega) hcount (fun i hi ↦ .inl ⟨_, hblock i hi⟩) fun _ i hi v hv ↦ ?_
  rw [hblock i hi] at hv
  exact (Except.ok.inj hv).symm

/-- `u3r_met()` bails where there are too many bits. -/
theorem rMet_long (ha : a < 3) (hlong : 2 ^ 32 - 32 < x.size) : rMet a x = .error .bail := by
  have hx : x ≠ 0 := by
    rintro rfl
    rw [Nat.size_zero] at hlong
    omega
  unfold rMet
  rw [if_neg hx]
  dsimp only
  rw [if_pos ha, if_pos]
  show 134217726 < lenW x - 1
  unfold lenW
  omega

theorem blockRip_rips (ha : a < 32) (hfits : lenW x ≤ maximum) :
    Rips R (blockRip R a x) (2 ^ a) x := by
  have hpos := Nat.two_pow_pos a
  have hroom := R.room_le
  unfold cells at hroom
  unfold blockRip
  rw [if_neg (by omega)]
  by_cases hsmall : a < 5
  · have hwidth : 2 ^ a ≤ 16 := Nat.pow_le_pow_right (by decide) (show a ≤ 4 by omega)
    rw [if_pos hsmall]
    by_cases hlong : a < 3 ∧ 2 ^ 32 - 32 < x.size
    · rw [rMet_long hlong.1 hlong.2]
      refine .inr ⟨rfl, .inl ?_⟩
      have hfour : 2 ^ a ≤ 4 := Nat.pow_le_pow_right (by decide) (show a ≤ 2 by omega)
      rw [length_digits hpos]
      refine hroom.trans_lt ((Nat.lt_div_iff_mul_lt hpos).mpr ?_)
      have hmul : 2 ^ 30 / 6 * 2 ^ a ≤ 2 ^ 30 / 6 * 4 := Nat.mul_le_mul_left _ hfour
      omega
    · rw [rMet_eq fun hless ↦ by omega]
      refine consBlocks_rips R hpos rfl (fun i _ ↦ ?_) fun hle i _ v hv ↦ ?_
      · obtain ⟨v, hv, _⟩ := smallBlock_ok hsmall (met a x) x i
        exact .inl ⟨v, hv⟩
      · obtain ⟨v', hv', hvalue⟩ := smallBlock_ok hsmall (met a x) x i
        obtain rfl := Except.ok.inj (hv'.symm.trans hv)
        refine hvalue ?_
        replace hle : met a x ≤ R.room := hle
        have hless :
            (met a x - (i + 1)) * 2 ^ a ≤ met a x * 16 := Nat.mul_le_mul (Nat.sub_le _ _) hwidth
        omega
  · rw [if_neg hsmall, rMet_eq (by omega)]
    show Rips R (rMet 5 x >>= fun len_w ↦
      consBlocks R.room (largeBlock R a (met a x) len_w x) (met a x) 0 nul) _ _
    rw [rMet_eq (by omega), met_five]
    refine consBlocks_rips R hpos rfl (fun i hi ↦ ?_) fun _ i hi v hv ↦ ?_
    · exact (largeBlock_computes R (by omega) ha hfits hi).imp (fun hok ↦ ⟨_, hok⟩) id
    · rcases largeBlock_computes R (by omega) ha hfits hi with hok | ⟨hbail, _⟩
      · exact (Except.ok.inj (hok.symm.trans hv)).symm
      · rw [hbail] at hv
        cases hv

end Gives

end Vere.Noun.Blocks
