import Vere.Noun.NockEvaluates

/-!
# Axes

`u3r_at()` in `pkg/noun/retrieve.c`, and `u3qc_peg()`, `u3qc_cap()` and `u3qc_mas()` in
`pkg/noun/jets/c`. `u3r_at()` follows the bits of an axis below the highest, word by word.
`rAt_eq_slot` says that it gives the noun at the axis, and `axis_algebra` how the axes that the jets
make are composed. The jets count bits in 32 bits and take a count for a direct atom; past that they
bail.
-/

set_option autoImplicit false

namespace Vere.Noun.Nock

open Serial

/-! ### The fragment at an axis -/

/-- The loop of `_frag_word()` and `_frag_deep()`: so many low bits of a word, the highest first. -/
def frag (a_w : ℕ) : ℕ → Noun → Option Noun
  | 0, b => some b
  | _ + 1, .atom _ => none
  | dep_w + 1, .cell h t => frag a_w dep_w (if a_w.testBit dep_w then t else h)

/-- `_frag_word()`. -/
def fragWord (a_w : ℕ) (b : Noun) : Option Noun := frag a_w (a_w.size - 1) b

/-- `_frag_deep()`. -/
def fragDeep (a_w : ℕ) (b : Noun) : Option Noun := frag a_w 32 b

/-- A word of an atom: `buf_w[i]`. -/
def bufW (a i : ℕ) : ℕ := (a >>> (32 * i)) % 2 ^ 32

/-- The words of an atom: `len_w`. -/
def lenW (a : ℕ) : ℕ := (a.size + 31) / 32

/-- The loop of `u3r_at()` over the words below the highest. -/
def fragWords (a : ℕ) : ℕ → Noun → Option Noun
  | 0, b => some b
  | len_w + 1, b => fragDeep (bufW a len_w) b >>= fragWords a len_w

/-- `u3r_at()`. -/
def rAt (a b : Noun) : Option Noun :=
  match a with
  | .cell _ _ => none
  | .atom a =>
    if a = 0 then none
    else if a < 2 ^ 31 then fragWord a b
    else fragWord (bufW a (lenW a - 1)) b >>= fragWords a (lenW a - 1)

/-! ### The jets -/

/-- `u3qc_lsh()`, of bits. -/
def qcLsh (b c : ℕ) : Option ℕ :=
  if ¬b < 2 ^ 31 then none
  else do
    let len_w ← rMet c
    if len_w = 0 then some 0
    else if (b + len_w) % 2 ^ 32 < len_w then none
    else some (c <<< b)

/-- `u3qa_dec()`, of a word that is taken for an atom; `wild` is what it makes of a word that is
none. -/
def qaDec (wild : ℕ → Option ℕ) (a : ℕ) : Option ℕ :=
  if a = 0 then none else if a < 2 ^ 31 then some (a - 1) else wild a

/-- `u3qa_sub()`. -/
def qaSub (a b : ℕ) : Option ℕ := if a < b then none else some (a - b)

/-- `u3qc_peg()`. -/
def qcPeg (wild : ℕ → Option ℕ) (a b : ℕ) : Option ℕ :=
  if b = 1 then some a
  else do
    let c ← rMet b
    let d ← qaDec wild c
    let e ← qcLsh d 1
    let f ← qaSub b e
    let g ← qcLsh d a
    some (f + g)

/-! ### Ways -/

/-- So many low bits of a number, the highest first. -/
def lowPath (a dep : ℕ) : List Bool := (List.range dep).reverse.map a.testBit

theorem lowPath_succ (a dep : ℕ) : lowPath a (dep + 1) = a.testBit dep :: lowPath a dep := by
  rw [lowPath, List.range_succ, List.reverse_append, List.map_append]
  rfl

theorem lowPath_add (a low high : ℕ) :
    lowPath a (low + high) = lowPath (a >>> low) high ++ lowPath a low := by
  induction high with
  | zero => rfl
  | succ high ih =>
    rw [← Nat.add_assoc, lowPath_succ, lowPath_succ, ih, Nat.testBit_shiftRight]
    rfl

variable {a b : ℕ}

theorem lowPath_congr {dep : ℕ} (hsame : ∀ i < dep, a.testBit i = b.testBit i) :
    lowPath a dep = lowPath b dep :=
  List.map_congr_left fun i hi ↦ hsame i (by simpa using hi)

theorem slotAt_append (way more : List Bool) (n : Noun) :
    slotAt (way ++ more) n = (slotAt way n).bind (slotAt more) := by
  induction way generalizing n with
  | nil => rfl
  | cons side way ih =>
    cases n with
    | atom a =>
      cases side
      · rfl
      · rfl
    | cell h t =>
      cases side
      · exact ih h
      · exact ih t

theorem frag_eq (a_w dep_w : ℕ) (b : Noun) : frag a_w dep_w b = slotAt (lowPath a_w dep_w) b := by
  induction dep_w generalizing b with
  | zero => rfl
  | succ dep_w ih =>
    rw [lowPath_succ]
    cases b with
    | atom a => cases a_w.testBit dep_w <;> rfl
    | cell h t =>
      rw [frag, ih]
      cases a_w.testBit dep_w <;> rfl

theorem testBit_bufW (a i j : ℕ) :
    (bufW a i).testBit j = (decide (j < 32) && a.testBit (32 * i + j)) := by
  rw [bufW, Nat.testBit_mod_two_pow, Nat.testBit_shiftRight]

theorem fragWords_eq (a len_w : ℕ) (b : Noun) :
    fragWords a len_w b = slotAt (lowPath a (32 * len_w)) b := by
  induction len_w generalizing b with
  | zero => rfl
  | succ len_w ih =>
    have hword : lowPath (a >>> (32 * len_w)) 32 = lowPath (bufW a len_w) 32 := by
      refine lowPath_congr fun i hi ↦ ?_
      rw [testBit_bufW, decide_eq_true hi, Bool.true_and, Nat.testBit_shiftRight]
    rw [Nat.mul_succ, lowPath_add, slotAt_append, hword, fragWords, fragDeep, frag_eq]
    exact Option.bind_congr fun b _ ↦ ih b

theorem size_shiftRight (a k : ℕ) : (a >>> k).size = a.size - k := by
  refine eq_of_forall_ge_iff fun n ↦ ?_
  rw [Nat.size_le, Nat.shiftRight_eq_div_pow, Nat.div_lt_iff_lt_mul (Nat.two_pow_pos _), ← pow_add,
    ← Nat.size_le]
  omega

theorem log2_eq_size (a : ℕ) : a.log2 = a.size - 1 := by
  by_cases ha : a = 0
  · subst ha
    rfl
  · have hpos : 0 < a.size := Nat.size_pos.mpr (Nat.pos_of_ne_zero ha)
    rw [Nat.log2_eq_iff ha]
    exact ⟨Nat.lt_size.mp (by omega), Nat.size_le.mp (by omega)⟩

theorem path_eq_lowPath (a : ℕ) : path a = lowPath a (a.size - 1) := by
  rw [path, log2_eq_size]
  rfl

/-- The highest word of an atom is not zero. -/
theorem bufW_top (ha : a ≠ 0) :
    bufW a (lenW a - 1) = a >>> (32 * (lenW a - 1)) ∧ bufW a (lenW a - 1) ≠ 0 := by
  have hpos : 0 < a.size := Nat.size_pos.mpr (Nat.pos_of_ne_zero ha)
  have hsize := size_shiftRight a (32 * (lenW a - 1))
  have hsame : bufW a (lenW a - 1) = a >>> (32 * (lenW a - 1)) := by
    refine Nat.mod_eq_of_lt (Nat.size_le.mp ?_)
    unfold lenW at hsize ⊢
    omega
  refine ⟨hsame, fun hzero ↦ ?_⟩
  rw [← hsame, hzero, Nat.size_zero] at hsize
  unfold lenW at hsize
  omega

theorem rAt_eq_slot (a : ℕ) (b : Noun) : rAt (.atom a) b = slot a b := by
  unfold rAt slot
  dsimp only
  split_ifs with hzero hcat
  · rfl
  · rw [fragWord, frag_eq, path_eq_lowPath]
  · have hpos : 0 < a.size := Nat.size_pos.mpr (Nat.pos_of_ne_zero hzero)
    have hsplit : a.size - 1 = 32 * (lenW a - 1) + (a.size - 32 * (lenW a - 1) - 1) := by
      unfold lenW
      omega
    rw [fragWord, frag_eq, (bufW_top hzero).1, size_shiftRight, path_eq_lowPath, hsplit,
      lowPath_add, slotAt_append]
    exact Option.bind_congr fun b _ ↦ fragWords_eq a _ b

/-- The way to an axis enters an atom. -/
def Enters (a : ℕ) (b : Noun) : Prop :=
  ∃ way side more x, path a = way ++ side :: more ∧ slotAt way b = some (.atom x)

theorem slotAt_none_iff (way : List Bool) (b : Noun) :
    slotAt way b = none ↔ ∃ pre side more x, way = pre ++ side :: more ∧
    slotAt pre b = some (.atom x) := by
  constructor
  · induction way generalizing b with
    | nil => nofun
    | cons side way ih =>
      intro hnone
      cases b with
      | atom x => exact ⟨[], side, way, x, rfl, rfl⟩
      | cell h t =>
        cases side with
        | false =>
          obtain ⟨pre, bit, more, x, rfl, hpre⟩ := ih h hnone
          exact ⟨false :: pre, bit, more, x, rfl, hpre⟩
        | true =>
          obtain ⟨pre, bit, more, x, rfl, hpre⟩ := ih t hnone
          exact ⟨true :: pre, bit, more, x, rfl, hpre⟩
  · rintro ⟨pre, side, more, x, rfl, hpre⟩
    rw [slotAt_append, hpre]
    cases side <;> rfl

/-! ### Composed axes -/

/-- The axis of an axis. -/
def peg (a b : ℕ) : ℕ := b - 2 ^ b.log2 + a <<< b.log2

theorem path_peg (ha : a ≠ 0) (hb : b ≠ 0) : peg a b ≠ 0 ∧ path (peg a b) = path a ++ path b := by
  have hlow : 2 ^ b.log2 ≤ b := (Nat.log2_eq_iff hb).mp rfl |>.1
  have hhigh : b < 2 ^ (b.log2 + 1) := (Nat.log2_eq_iff hb).mp rfl |>.2
  rw [pow_succ] at hhigh
  have hpeg : peg a b = 2 ^ b.log2 * a + (b - 2 ^ b.log2) := by
    rw [peg, Nat.shiftLeft_eq, Nat.mul_comm, Nat.add_comm]
  have hbit := fun j ↦ @Nat.testBit_two_pow_mul_add a (b - 2 ^ b.log2) b.log2 (by omega) j
  have hpos : 0 < 2 ^ b.log2 * a := Nat.mul_pos (Nat.two_pow_pos _) (Nat.pos_of_ne_zero ha)
  have hne : peg a b ≠ 0 := by omega
  have hshift : peg a b >>> b.log2 = a := by
    rw [hpeg, Nat.shiftRight_eq_div_pow, Nat.mul_add_div (Nat.two_pow_pos _),
      Nat.div_eq_of_lt (by omega), Nat.add_zero]
  have hsize : (peg a b).size - 1 = b.log2 + (a.size - 1) := by
    have hpos : 0 < a.size := Nat.size_pos.mpr (Nat.pos_of_ne_zero ha)
    have hsame := size_shiftRight (peg a b) b.log2
    rw [hshift] at hsame
    omega
  refine ⟨hne, ?_⟩
  rw [path_eq_lowPath, hsize, lowPath_add, hshift, ← path_eq_lowPath, path_eq_lowPath b,
    ← log2_eq_size]
  congr 1
  refine lowPath_congr fun i hi ↦ ?_
  rw [hpeg, hbit, if_pos hi]
  have hsplit : b = 2 ^ b.log2 * 1 + (b - 2 ^ b.log2) := by omega
  conv_rhs => rw [hsplit]
  rw [Nat.testBit_two_pow_mul_add _ (by omega), if_pos hi]

theorem slot_peg (ha : a ≠ 0) (hb : b ≠ 0) (n : Noun) :
    slot (peg a b) n = (slot a n).bind (slot b) := by
  obtain ⟨hne, hpath⟩ := path_peg ha hb
  unfold slot
  rw [if_neg hne, if_neg ha, hpath, slotAt_append]
  exact Option.bind_congr fun m _ ↦ (if_neg hb).symm

/-- The axes whose bits `u3qc_peg()` can count and shift. -/
def Pegs (a b : ℕ) :
    Prop := b = 1 ∨ b.size < 2 ^ 31 ∧ a.size ≤ 2 ^ 32 - 32 ∧ a.size + b.size ≤ 2 ^ 32

theorem rMet_of_le (hsize : b.size ≤ 2 ^ 32 - 32) : rMet b = some b.size := by
  rw [rMet_eq, if_pos hsize]

theorem qcLsh_eq {c : ℕ} (hb : b < 2 ^ 31) (hc : c.size ≤ 2 ^ 32 - 32)
    (hsum : b + c.size < 2 ^ 32) :
    qcLsh b c = some (c <<< b) := by
  rw [qcLsh, if_neg (not_not.mpr hb), rMet_of_le hc]
  show (if c.size = 0 then _ else _) = _
  split_ifs with hzero hover
  · rw [Nat.size_eq_zero.mp hzero, Nat.zero_shiftLeft]
  · omega
  · rfl

theorem qcPeg_eq {wild : ℕ → Option ℕ} (hb : b ≠ 0) (hpegs : Pegs a b) :
    qcPeg wild a b = some (peg a b) := by
  unfold qcPeg
  split_ifs with hone
  · subst hone
    rw [peg, log2_eq_size, Nat.size_one, Nat.shiftLeft_zero, Nat.pow_zero, Nat.sub_self,
      Nat.zero_add]
  · obtain hsame | ⟨hlow, hhigh, hsum⟩ := hpegs
    · exact absurd hsame hone
    · have hpos : 0 < b.size := Nat.size_pos.mpr (Nat.pos_of_ne_zero hb)
      have hlog := log2_eq_size b
      have hle : 2 ^ b.log2 ≤ b := (Nat.log2_eq_iff hb).mp rfl |>.1
      have hdec : qaDec wild b.size = some b.log2 := by
        rw [qaDec, if_neg (by omega), if_pos hlow, hlog]
      have hbex : qcLsh b.log2 1 = some (2 ^ b.log2) := by
        rw [qcLsh_eq (by omega) (by decide) (by rw [Nat.size_one]; omega), Nat.one_shiftLeft]
      have hshift : qcLsh b.log2 a = some (a <<< b.log2) := qcLsh_eq (by omega) hhigh (by omega)
      rw [rMet_of_le (by omega)]
      show (qaDec wild b.size >>= _) = _
      rw [hdec]
      show (qcLsh b.log2 1 >>= _) = _
      rw [hbex]
      show (qaSub b (2 ^ b.log2) >>= _) = _
      rw [qaSub, if_neg (by omega)]
      show (qcLsh b.log2 a >>= _) = _
      rw [hshift]
      rfl

/-- `u3qc_cap()` and `u3qc_mas()` take an axis apart. -/
theorem cap_mas {a : ℕ} (ha : 2 ≤ a) (hsize : a.size ≤ 2 ^ 31) :
    ∃ c m, cap (.atom a) = .ok c ∧ mas (.atom a) = .ok m ∧ (c = 2 ∨ c = 3) ∧ m ≠ 0 ∧
    m.size + 1 = a.size ∧
      path a = path c ++ path m := by
  obtain ⟨k, hk⟩ : ∃ k, a.size = k + 2 := ⟨a.size - 2, by
    have hlt : 1 < a.size := Nat.lt_size.mpr ha
    omega⟩
  have hbelow := size_below a k
  refine ⟨_, _, cap_eq hk hsize, mas_eq hk hsize, ?_, ?_, by omega, ?_⟩
  · cases a.testBit k
    · exact Or.inl rfl
    · exact Or.inr rfl
  · intro hzero
    rw [hzero] at hbelow
    cases hbelow
  · rw [path_eq hk]
    cases a.testBit k <;> rfl

theorem path_inj (ha : a ≠ 0) (hb : b ≠ 0) (hpath : path a = path b) : a = b := by
  have hlog : a.log2 = b.log2 := by
    have hlength := congrArg List.length hpath
    simpa [path] using hlength
  refine Nat.eq_of_testBit_eq fun i ↦ ?_
  obtain hlt | rfl | hgt := Nat.lt_trichotomy i a.log2
  · rw [path, path, ← hlog] at hpath
    exact List.map_inj_left.mp hpath i (by simpa using hlt)
  · rw [Nat.testBit_log2 ha, hlog, Nat.testBit_log2 hb]
  · rw [Nat.testBit_lt_two_pow, Nat.testBit_lt_two_pow]
    · exact (Nat.log2_lt hb).mp (by omega)
    · exact (Nat.log2_lt ha).mp hgt

/-- Fetching by axes: `u3r_at()` follows the rules and has nothing exactly where the way enters an
atom; the axis that `u3qc_peg()` composes fetches from what the first one fetches; and `u3qc_cap()`
and `u3qc_mas()` are the first step and the rest. -/
theorem axis_algebra (n : Noun) :
    (∀ a, a ≠ 0 → rAt (.atom a) n = slot a n ∧ (rAt (.atom a) n = none ↔ Enters a n)) ∧
    (∀ wild a b, a ≠ 0 → b ≠ 0 → Pegs a b →
      ∃ c, qcPeg wild a b = some c ∧
      rAt (.atom c) n = (rAt (.atom a) n).bind fun m ↦ rAt (.atom b) m) ∧
    ∀ wild a, 2 ≤ a → a.size ≤ 2 ^ 31 →
      ∃ c m, cap (.atom a) = .ok c ∧ mas (.atom a) = .ok m ∧ (c = 2 ∨ c = 3) ∧
      qcPeg wild c m = some a ∧
        rAt (.atom a) n = (rAt (.atom c) n).bind fun o ↦ rAt (.atom m) o := by
  have hfetch : ∀ a b, a ≠ 0 → b ≠ 0 →
      rAt (.atom (peg a b)) n = (rAt (.atom a) n).bind fun m ↦ rAt (.atom b) m := by
    intro a b ha hb
    rw [rAt_eq_slot, slot_peg ha hb, rAt_eq_slot]
    exact Option.bind_congr fun m _ ↦ (rAt_eq_slot b m).symm
  refine ⟨fun a ha ↦ ⟨rAt_eq_slot a n, ?_⟩, fun wild a b ha hb hpegs ↦ ?_, fun wild a ha hsize ↦ ?_⟩
  · rw [rAt_eq_slot, slot, if_neg ha]
    exact slotAt_none_iff (path a) n
  · exact ⟨peg a b, qcPeg_eq hb hpegs, hfetch a b ha hb⟩
  · obtain ⟨c, m, hcap, hmas, hc, hm, hsame, hpath⟩ := cap_mas ha hsize
    have hne : c ≠ 0 := by omega
    have hpegs : Pegs c m := by
      have hcsize : c.size = 2 := by
        obtain rfl | rfl := hc
        · rfl
        · rfl
      exact Or.inr ⟨by omega, by omega, by omega⟩
    have hpeg : peg c m = a := by
      obtain ⟨hpne, hppath⟩ := path_peg hne hm
      exact path_inj hpne (by omega) (hppath.trans hpath.symm)
    refine ⟨c, m, hcap, hmas, hc, ?_, ?_⟩
    · rw [qcPeg_eq hm hpegs, hpeg]
    · rw [← hfetch c m hne hm, hpeg]

theorem mas_long (hsize : 2 ^ 31 < a.size) : mas (.atom a) = .error .bail := by
  rw [mas, rMet_eq]
  split_ifs with hmet
  · have hbex : qcBex (a.size - 1) = none := if_pos (by omega)
    show (if a.size < 2 then _ else _) = _
    rw [if_neg (by omega), hbex]
  · rfl

/-- `u3qc_mas()` bails on the axis of the head of the head and so on, 2 ^ 31 times: `u3qc_bex()`
takes direct atoms only. -/
theorem mas_two_pow : mas (.atom (2 ^ (2 ^ 31))) = .error .bail :=
  mas_long (by
    rw [Nat.size_pow]
    exact Nat.lt_succ_self _)

end Vere.Noun.Nock
