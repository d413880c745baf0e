import Mathlib.Algebra.Group.Nat.Defs
import Mathlib.Data.List.Induction
import Vere.Noun.Basic

/-!
# Dotted decimals

The parser `u3s_sift_ud_bytes()` and the printer `_print_ud()`. `Literal` is the grammar of a number
that is not zero: one to three digits of which the first is not `0`, and blocks of a dot and three
digits. The parser accepts the literals and `0`, with their decimal values, and the printer is its
inverse on both sides (`sift_print_ud`).
-/

set_option autoImplicit false

namespace Vere.Noun.Serial

/-! ### The parser -/

/-- `DIGIT()`. -/
def Digit (c : UInt8) : Prop := 0x30 ≤ c ∧ c ≤ 0x39

instance (c : UInt8) : Decidable (Digit c) := inferInstanceAs (Decidable (_ ∧ _))

/-- `NEXT()`, over the leading digits. -/
def siftLead : ℕ → UInt16 → List UInt8 → Option (UInt16 × List UInt8)
  | 0, val, byt => some (val, byt)
  | num + 1, val, c :: byt =>
    if Digit c then siftLead num (val * 10 + (c - 0x30).toUInt16) byt else none
  | _ + 1, _, [] => none

/-- The loops over the blocks, each of which `BLOCK()` checks. Their bytes are a multiple of four.
-/
def siftBlocks {α : Type} (next : α → UInt8 → UInt8 → UInt8 → α) : α → List UInt8 → Option α
  | val, [] => some val
  | val, dot :: a :: b :: c :: byt =>
    if dot = 0x2e ∧ Digit a ∧ Digit b ∧ Digit c then siftBlocks next (next val a b c) byt else none
  | _, _ => none

/-- A block, in 64 bits. -/
def chubBlock (val : UInt64) (a b c : UInt8) : UInt64 :=
  let val := val * 10 + (a - 0x30).toUInt64
  let val := val * 10 + (b - 0x30).toUInt64
  val * 10 + (c - 0x30).toUInt64

/-- A block, in a number without bounds. -/
def mpBlock (val : ℕ) (a b c : UInt8) : ℕ :=
  let block : UInt16 := (a - 0x30).toUInt16
  let block := block * 10 + (b - 0x30).toUInt16
  let block := block * 10 + (c - 0x30).toUInt16
  val * 1000 + block.toNat

/-- The blocks behind the leading digits. 19 digits fit in 64 bits, and 18 when three of them lead.
-/
def siftTail (num : ℕ) (val : UInt16) (byt : List UInt8) : Option ℕ :=
  if num = 1 ∧ byt.length ≤ 24 ∨ byt.length ≤ 20 then
    (siftBlocks chubBlock val.toUInt64 byt).map UInt64.toNat
  else siftBlocks mpBlock val.toNat byt

/-- `u3s_sift_ud_bytes()`. -/
def siftUdBytes (byt : List UInt8) : Option ℕ :=
  match byt with
  | [] => none
  | c :: _ =>
    if c = 0x30 then if byt.length = 1 then some 0 else none
    else
      let num := byt.length % 4
      if num = 0 then none
      else
        match siftLead num 0 byt with
        | none => none
        | some (val, byt) => siftTail num val byt

/-! ### The printer -/

/-- A list of characters, as a noun. -/
def tape : List UInt8 → Noun
  | [] => nul
  | c :: cs => .cell (.atom c.toNat) (tape cs)

/-- The loop of `_print_ud()`. -/
def printUdLoop (between : ℕ) (list : Noun) (ud : ℕ) : Noun :=
  let list' := if between = 3 then .cell (.atom 0x2e) list else list
  let between' := if between = 3 then 0 else between
  let list' := .cell (.atom (ud % 10 + 0x30)) list'
  if ud / 10 = 0 then list' else printUdLoop (between' + 1) list' (ud / 10)
termination_by ud
decreasing_by omega

/-- `_print_ud()`. -/
def printUd (ud : ℕ) : Noun := printUdLoop 0 nul ud

/-! ### The grammar -/

/-- The value of decimal digits. -/
def decimal (digits : List UInt8) : ℕ := digits.foldl (fun val c ↦ 10 * val + (c.toNat - 0x30)) 0

/-- A dot and three digits. -/
structure Block where
  a : UInt8
  b : UInt8
  c : UInt8
  digits : Digit a ∧ Digit b ∧ Digit c

/-- The characters of a block. -/
def Block.text (block : Block) : List UInt8 := [0x2e, block.a, block.b, block.c]

/-- The literal of a number that is not zero. -/
structure Literal where
  lead : List UInt8
  blocks : List Block
  digits : ∀ c ∈ lead, Digit c
  length : 1 ≤ lead.length ∧ lead.length ≤ 3
  nonzero : lead.head? ≠ some 0x30

/-- The characters of a literal. -/
def Literal.text (l : Literal) : List UInt8 := l.lead ++ l.blocks.flatMap Block.text

/-- The value of a literal: that of its digits. -/
def Literal.value (l : Literal) :
    ℕ := decimal (l.lead ++ l.blocks.flatMap fun block ↦ [block.a, block.b, block.c])

/-- The canonical literals, with their values. -/
def Canonical (text : List UInt8) (ud : ℕ) : Prop :=
  text = [0x30] ∧ ud = 0 ∨ ∃ l : Literal, text = l.text ∧ ud = l.value

/-! ### Digits -/

variable {c : UInt8} {digits : List UInt8} {l : Literal}

theorem Digit.toNat_sub (hdigit : Digit c) : (c - 0x30).toNat = c.toNat - 0x30 :=
  UInt8.toNat_sub_of_le c 0x30 hdigit.1

theorem Digit.bounds (hdigit : Digit c) : 0x30 ≤ c.toNat ∧ c.toNat ≤ 0x39 :=
  ⟨UInt8.le_iff_toNat_le.mp hdigit.1, UInt8.le_iff_toNat_le.mp hdigit.2⟩

theorem digit_ofNat {d : ℕ} (hlt : d < 10) :
    Digit (UInt8.ofNat (d + 0x30)) ∧ (UInt8.ofNat (d + 0x30)).toNat = d + 0x30 := by
  have hnat : (UInt8.ofNat (d + 0x30)).toNat = d + 0x30 := by
    rw [UInt8.toNat_ofNat']
    omega
  refine ⟨⟨UInt8.le_iff_toNat_le.mpr ?_, UInt8.le_iff_toNat_le.mpr ?_⟩, hnat⟩
  · rw [hnat]
    exact Nat.le_add_left _ _
  · rw [hnat]
    show d + 0x30 ≤ 0x39
    omega

theorem decimal_concat (digits : List UInt8) (c : UInt8) :
    decimal (digits ++ [c]) = 10 * decimal digits + (c.toNat - 0x30) := by
  rw [decimal, List.foldl_append]
  rfl

theorem decimal_lt (hdigits : ∀ c ∈ digits, Digit c) : decimal digits < 10 ^ digits.length := by
  induction digits using List.reverseRecOn with
  | nil => exact Nat.one_pos
  | append_singleton digits c ih =>
    have hlast := (hdigits c (List.mem_append_right _ (List.mem_singleton_self c))).bounds
    have hrest := ih fun c hc ↦ hdigits c (List.mem_append_left _ hc)
    rw [decimal_concat, List.length_append, List.length_singleton, Nat.pow_succ]
    omega

/-! ### Blocks -/

/-- The value of a block. -/
def Block.value (block : Block) : ℕ := decimal [block.a, block.b, block.c]

theorem Block.value_eq (block : Block) :
    block.value =
      ((block.a.toNat - 0x30) * 10 + (block.b.toNat - 0x30)) * 10 + (block.c.toNat - 0x30) := by
  simp only [Block.value, decimal, List.foldl_cons, List.foldl_nil]
  omega

theorem Block.value_lt (block : Block) : block.value < 1000 := by
  have ha := block.digits.1.bounds
  have hb := block.digits.2.1.bounds
  have hc := block.digits.2.2.bounds
  rw [Block.value_eq]
  omega

/-- Blocks behind digits. -/
def addBlocks (val : ℕ) (blocks : List Block) : ℕ :=
  blocks.foldl (fun val block ↦ val * 1000 + block.value) val

theorem addBlocks_concat (val : ℕ) (blocks : List Block) (block : Block) :
    addBlocks val (blocks ++ [block]) = addBlocks val blocks * 1000 + block.value := by
  rw [addBlocks, List.foldl_append]
  rfl

theorem addBlocks_lt (val : ℕ) (blocks : List Block) :
    addBlocks val blocks < (val + 1) * 1000 ^ blocks.length := by
  induction blocks using List.reverseRecOn with
  | nil =>
    rw [List.length_nil, Nat.pow_zero, Nat.mul_one, addBlocks, List.foldl_nil]
    exact Nat.lt_succ_self val
  | append_singleton blocks block ih =>
    have hblock := block.value_lt
    rw [addBlocks_concat, List.length_append, List.length_singleton, Nat.pow_succ, ← Nat.mul_assoc]
    omega

theorem Literal.value_eq (l : Literal) : l.value = addBlocks (decimal l.lead) l.blocks := by
  obtain ⟨lead, blocks, -, -, -⟩ := l
  simp only [Literal.value]
  induction blocks using List.reverseRecOn with
  | nil => rw [List.flatMap_nil, List.append_nil, addBlocks, List.foldl_nil]
  | append_singleton blocks block ih =>
    rw [addBlocks_concat, ← ih, List.flatMap_append, ← List.append_assoc, List.flatMap_singleton,
      Block.value_eq]
    rw [show [block.a, block.b, block.c] = [block.a] ++ [block.b] ++ [block.c] from rfl,
      ← List.append_assoc, ← List.append_assoc, decimal_concat, decimal_concat, decimal_concat]
    omega

/-- What the loops over blocks give. -/
theorem siftBlocks_eq_some_iff {α : Type} (next : α → UInt8 → UInt8 → UInt8 → α) {val val' : α}
    {byt : List UInt8} :
    siftBlocks next val byt = some val' ↔ ∃ blocks : List Block, byt = blocks.flatMap Block.text ∧
      val' = blocks.foldl (fun val block ↦ next val block.a block.b block.c) val := by
  constructor
  · intro hsift
    fun_induction siftBlocks next val byt with
    | case1 val => exact ⟨[], rfl, (Option.some.inj hsift).symm⟩
    | case2 val dot a b c byt hblock ih =>
      obtain ⟨blocks, rfl, hval⟩ := ih hsift
      obtain ⟨rfl, hdigits⟩ := hblock
      exact ⟨⟨a, b, c, hdigits⟩ :: blocks, rfl, hval⟩
    | case3 => cases hsift
    | case4 => cases hsift
  · rintro ⟨blocks, rfl, rfl⟩
    induction blocks generalizing val with
    | nil => rfl
    | cons block blocks ih =>
      rw [List.flatMap_cons, Block.text, List.cons_append, List.cons_append, List.cons_append,
        List.cons_append, List.nil_append, siftBlocks, if_pos ⟨rfl, block.digits⟩, ih,
        List.foldl_cons]

theorem mpBlock_eq (val : ℕ) (block : Block) :
    mpBlock val block.a block.b block.c = val * 1000 + block.value := by
  obtain ⟨ha, hb, hc⟩ := block.digits
  have hamost := ha.bounds
  have hbmost := hb.bounds
  have hcmost := hc.bounds
  have hten : (10 : UInt16).toNat = 10 := rfl
  rw [Block.value_eq]
  unfold mpBlock
  simp only [UInt16.toNat_add, UInt16.toNat_mul, UInt8.toNat_toUInt16, ha.toNat_sub, hb.toNat_sub,
    hc.toNat_sub, hten]
  omega

theorem chubBlock_eq (val : ℕ) (block : Block) :
    chubBlock (UInt64.ofNat val) block.a block.b block.c =
      UInt64.ofNat (val * 1000 + block.value) := by
  obtain ⟨ha, hb, hc⟩ := block.digits
  have hten : (10 : UInt64).toNat = 10 := rfl
  rw [Block.value_eq, ← UInt64.toNat_inj]
  unfold chubBlock
  simp only [UInt64.toNat_add, UInt64.toNat_mul, UInt8.toNat_toUInt64, ha.toNat_sub, hb.toNat_sub,
    hc.toNat_sub, hten, UInt64.toNat_ofNat']
  omega

theorem foldl_mpBlock (val : ℕ) (blocks : List Block) :
    blocks.foldl (fun val block ↦ mpBlock val block.a block.b block.c) val =
      addBlocks val blocks := by
  simp only [mpBlock_eq, addBlocks]

theorem foldl_chubBlock (val : ℕ) (blocks : List Block) :
    blocks.foldl (fun val block ↦ chubBlock val block.a block.b block.c) (UInt64.ofNat val) =
      UInt64.ofNat (addBlocks val blocks) := by
  induction blocks using List.reverseRecOn with
  | nil => rfl
  | append_singleton blocks block ih =>
    rw [List.foldl_append, ih, addBlocks_concat, List.foldl_cons, List.foldl_nil, chubBlock_eq]

/-- What the leading digits give. -/
theorem siftLead_eq_some_iff {num : ℕ} {val val' : UInt16} {byt rest : List UInt8} :
    siftLead num val byt = some (val', rest) ↔ ∃ lead :
    List UInt8, lead.length = num ∧ (∀ c ∈ lead, Digit c) ∧
      byt = lead ++ rest ∧ val' = lead.foldl (fun val c ↦ val * 10 + (c - 0x30).toUInt16) val := by
  constructor
  · intro hsift
    fun_induction siftLead num val byt with
    | case1 val byt =>
      obtain ⟨rfl, rfl⟩ := Prod.mk.inj (Option.some.inj hsift)
      exact ⟨[], rfl, nofun, rfl, rfl⟩
    | case2 val num c byt hdigit ih =>
      obtain ⟨lead, rfl, hdigits, rfl, hval⟩ := ih hsift
      refine ⟨c :: lead, rfl, fun d hd ↦ ?_, rfl, hval⟩
      rcases List.mem_cons.mp hd with rfl | hd
      · exact hdigit
      · exact hdigits d hd
    | case3 => cases hsift
    | case4 => cases hsift
  · rintro ⟨lead, rfl, hdigits, rfl, rfl⟩
    induction lead generalizing val with
    | nil => rfl
    | cons c lead ih =>
      rw [List.cons_append, List.length_cons, siftLead, if_pos (hdigits c List.mem_cons_self),
        ih fun d hd ↦ hdigits d (List.mem_cons_of_mem _ hd), List.foldl_cons]

variable {lead : List UInt8} {ud : ℕ}

/-- The leading digits fit in 16 bits. -/
theorem foldl_lead (hdigits : ∀ c ∈ lead, Digit c) :
    lead.foldl (fun val c ↦ val * 10 + (c - 0x30).toUInt16) 0 = UInt16.ofNat (decimal lead) := by
  induction lead using List.reverseRecOn with
  | nil => rfl
  | append_singleton lead c ih =>
    have hlast := hdigits c (List.mem_append_right _ (List.mem_singleton_self c))
    have hten : (10 : UInt16).toNat = 10 := rfl
    rw [List.foldl_append, ih fun d hd ↦ hdigits d (List.mem_append_left _ hd), decimal_concat,
      List.foldl_cons, List.foldl_nil, ← UInt16.toNat_inj]
    simp only [UInt16.toNat_add, UInt16.toNat_mul, UInt8.toNat_toUInt16, hlast.toNat_sub, hten,
      UInt16.toNat_ofNat']
    omega

/-! ### What is accepted -/

theorem length_text (blocks : List Block) :
    (blocks.flatMap Block.text).length = 4 * blocks.length := by
  induction blocks with
  | nil => rfl
  | cons block blocks ih =>
    rw [List.flatMap_cons, List.length_append, ih, List.length_cons, Block.text]
    show 4 + 4 * blocks.length = 4 * (blocks.length + 1)
    omega

/-- Where 64 bits are used the value fits in them. -/
theorem addBlocks_fits {blocks : List Block} (hdigits : ∀ c ∈ lead, Digit c)
    (hlength : lead.length ≤ 3)
    (hfew : lead.length = 1 ∧ (blocks.flatMap Block.text).length ≤ 24 ∨
    (blocks.flatMap Block.text).length ≤ 20) :
    addBlocks (decimal lead) blocks < 2 ^ 64 := by
  have hvalue := addBlocks_lt (decimal lead) blocks
  have hlead := decimal_lt hdigits
  rw [length_text] at hfew
  rcases hfew with ⟨hone, hmost⟩ | hmost
  · have hpow : 1000 ^ blocks.length ≤ 1000 ^ 6 := Nat.pow_le_pow_right (by decide) (by omega)
    rw [hone] at hlead
    have hle := Nat.mul_le_mul (show decimal lead + 1 ≤ 10 from hlead) hpow
    omega
  · have hpow : 1000 ^ blocks.length ≤ 1000 ^ 5 := Nat.pow_le_pow_right (by decide) (by omega)
    have hthree : 10 ^ lead.length ≤ 10 ^ 3 := Nat.pow_le_pow_right (by decide) hlength
    have hle := Nat.mul_le_mul (show decimal lead + 1 ≤ 10 ^ 3 from Nat.le_trans hlead hthree) hpow
    omega

/-- Both ways give the value of the blocks behind the leading digits. -/
theorem siftTail_eq_some_iff {rest : List UInt8} (hdigits : ∀ c ∈ lead, Digit c)
    (hlength : lead.length ≤ 3) :
    siftTail lead.length (UInt16.ofNat (decimal lead)) rest = some ud ↔
      ∃ blocks :
      List Block, rest = blocks.flatMap Block.text ∧ ud = addBlocks (decimal lead) blocks := by
  have hthree : 10 ^ lead.length ≤ 10 ^ 3 := Nat.pow_le_pow_right (by decide) hlength
  have hlead : decimal lead < 10 ^ 3 := Nat.lt_of_lt_of_le (decimal_lt hdigits) hthree
  have hnat : (UInt16.ofNat (decimal lead)).toNat = decimal lead := by
    rw [UInt16.toNat_ofNat']
    omega
  have hchub : (UInt16.ofNat (decimal lead)).toUInt64 = UInt64.ofNat (decimal lead) := by
    rw [← UInt64.toNat_inj, UInt16.toNat_toUInt64, hnat, UInt64.toNat_ofNat']
    omega
  unfold siftTail
  split
  · rename_i hfew
    rw [hchub, Option.map_eq_some_iff]
    simp only [siftBlocks_eq_some_iff, foldl_chubBlock]
    constructor
    · rintro ⟨val, ⟨blocks, rfl, rfl⟩, rfl⟩
      refine ⟨blocks, rfl, ?_⟩
      rw [UInt64.toNat_ofNat', Nat.mod_eq_of_lt (addBlocks_fits hdigits hlength hfew)]
    · rintro ⟨blocks, rfl, rfl⟩
      refine ⟨_, ⟨blocks, rfl, rfl⟩, ?_⟩
      rw [UInt64.toNat_ofNat', Nat.mod_eq_of_lt (addBlocks_fits hdigits hlength hfew)]
  · rw [hnat, siftBlocks_eq_some_iff]
    simp only [foldl_mpBlock]

/-- The parser accepts the canonical literals, with their values. -/
theorem siftUdBytes_eq_some_iff {byt : List UInt8} :
    siftUdBytes byt = some ud ↔ Canonical byt ud := by
  constructor
  · intro hsift
    unfold siftUdBytes at hsift
    split at hsift
    · cases hsift
    rename_i c byt'
    by_cases hzero : c = 0x30
    · rw [if_pos hzero] at hsift
      split at hsift
      · rename_i hone
        obtain rfl : byt' = [] := List.length_eq_zero_iff.mp (Nat.succ.inj hone)
        exact Or.inl ⟨congrArg (fun d ↦ [d]) hzero, (Option.some.inj hsift).symm⟩
      · cases hsift
    rw [if_neg hzero] at hsift
    dsimp only at hsift
    split at hsift
    · cases hsift
    rename_i hnum
    split at hsift
    · cases hsift
    rename_i val rest hlead
    obtain ⟨lead, hlength, hdigits, hbyt, rfl⟩ := siftLead_eq_some_iff.mp hlead
    have hmost : lead.length ≤ 3 := by omega
    rw [foldl_lead hdigits, ← hlength, siftTail_eq_some_iff hdigits hmost] at hsift
    obtain ⟨blocks, rfl, rfl⟩ := hsift
    have hhead : lead.head? ≠ some 0x30 := by
      cases lead with
      | nil => simp
      | cons d lead =>
        obtain ⟨rfl, -⟩ := List.cons.inj hbyt
        exact fun hsome ↦ hzero (Option.some.inj hsome)
    let l : Literal := ⟨lead, blocks, hdigits, ⟨by omega, hmost⟩, hhead⟩
    exact Or.inr ⟨l, hbyt, l.value_eq.symm⟩
  · rintro (⟨rfl, rfl⟩ | ⟨l, rfl, rfl⟩)
    · rfl
    obtain ⟨hleast, hmost⟩ := l.length
    have hlength : l.text.length = l.lead.length + 4 * l.blocks.length := by
      rw [Literal.text, List.length_append, length_text]
    have hnum : l.text.length % 4 = l.lead.length := by omega
    have hlead : siftLead l.lead.length 0 l.text =
      some (UInt16.ofNat (decimal l.lead), l.blocks.flatMap Block.text) :=
      siftLead_eq_some_iff.mpr ⟨l.lead, rfl, l.digits, rfl, (foldl_lead l.digits).symm⟩
    have hhead : l.text.head? ≠ some 0x30 := by
      rw [Literal.text, List.head?_append,
        List.head?_eq_some_head (List.ne_nil_of_length_pos hleast), Option.some_or,
        ← List.head?_eq_some_head]
      exact l.nonzero
    unfold siftUdBytes
    split
    · rename_i hnil
      rw [hnil] at hlength
      exact absurd hlength.symm (by rw [List.length_nil]; omega)
    · rename_i c byt hcons
      have hzero : c ≠ 0x30 := fun heq ↦ hhead (by rw [hcons, heq, List.head?_cons])
      rw [if_neg hzero]
      dsimp only
      rw [hnum, if_neg (by omega), hlead]
      exact (siftTail_eq_some_iff l.digits hmost).mpr ⟨l.blocks, rfl, l.value_eq⟩

/-! ### What is printed -/

theorem tape_cons (c : UInt8) (text : List UInt8) :
    tape (c :: text) = .cell (.atom c.toNat) (tape text) := rfl

/-- One digit, behind which a dot stands after three others. -/
theorem printUdLoop_digit {between : ℕ} (text : List UInt8) (hdigit : Digit c)
    (hbetween : between < 3) :
    printUdLoop between (tape text) (10 * ud + (c.toNat - 0x30)) =
      if ud = 0 then tape (c :: text) else printUdLoop (between + 1) (tape (c :: text)) ud := by
  obtain ⟨hleast, hmost⟩ := hdigit.bounds
  have hmod : (10 * ud + (c.toNat - 0x30)) % 10 + 0x30 = c.toNat := by omega
  have hdiv : (10 * ud + (c.toNat - 0x30)) / 10 = ud := by omega
  rw [printUdLoop, hmod, hdiv, if_neg (Nat.ne_of_lt hbetween), if_neg (Nat.ne_of_lt hbetween),
    tape_cons]

theorem printUdLoop_dot (text : List UInt8) (ud : ℕ) :
    printUdLoop 3 (tape text) ud = printUdLoop 0 (tape (0x2e :: text)) ud := by
  have hnot : ¬ 0 = 3 := by decide
  conv_lhs => rw [printUdLoop, if_pos rfl, if_pos rfl]
  conv_rhs => rw [printUdLoop, if_neg hnot, if_neg hnot, tape_cons]
  rfl

/-- A block behind a number that is not zero. -/
theorem printUdLoop_block (text : List UInt8) (block : Block) (hne : ud ≠ 0) :
    printUdLoop 0 (tape text) (ud * 1000 + block.value) =
      printUdLoop 0 (tape (block.text ++ text)) ud := by
  obtain ⟨ha, hb, hc⟩ := block.digits
  have hvalue : ud * 1000 + block.value =
    10 * (10 * (10 * ud + (block.a.toNat - 0x30)) + (block.b.toNat - 0x30)) +
      (block.c.toNat - 0x30) := by
    rw [block.value_eq]
    omega
  rw [hvalue, printUdLoop_digit text hc (by decide), if_neg (by omega),
    printUdLoop_digit _ hb (by decide), if_neg (by omega), printUdLoop_digit _ ha (by decide),
    if_neg hne]
  exact printUdLoop_dot _ ud

theorem printUdLoop_blocks (text : List UInt8) (blocks : List Block) (hne : ud ≠ 0) :
    printUdLoop 0 (tape text) (addBlocks ud blocks) =
      printUdLoop 0 (tape (blocks.flatMap Block.text ++ text)) ud := by
  induction blocks using List.reverseRecOn generalizing text with
  | nil => rfl
  | append_singleton blocks block ih =>
    have hpos : addBlocks ud blocks ≠ 0 := by
      clear ih
      induction blocks using List.reverseRecOn with
      | nil => exact hne
      | append_singleton blocks block ih =>
        rw [addBlocks_concat]
        omega
    rw [addBlocks_concat, printUdLoop_block text block hpos, ih, List.flatMap_append,
      List.flatMap_singleton, List.append_assoc]

/-- Up to three leading digits, of which the first is not zero. -/
theorem printUdLoop_lead {between : ℕ} {lead : List UInt8} (text : List UInt8)
    (hdigits : ∀ c ∈ lead, Digit c) (hne : lead ≠ []) (hbetween : between + lead.length ≤ 3)
    (hhead : lead.head? ≠ some 0x30) :
    decimal lead ≠ 0 ∧ printUdLoop between (tape text) (decimal lead) = tape (lead ++ text) := by
  induction lead using List.reverseRecOn generalizing between text with
  | nil => exact absurd rfl hne
  | append_singleton lead c ih =>
    have hlast := hdigits c (List.mem_append_right _ (List.mem_singleton_self c))
    rw [List.length_append, List.length_singleton] at hbetween
    rw [decimal_concat, printUdLoop_digit text hlast (by omega)]
    by_cases hnil : lead = []
    · subst hnil
      have hc : c.toNat ≠ 0x30 := fun heq ↦ hhead (congrArg some (UInt8.toNat_inj.mp heq))
      have hbounds := hlast.bounds
      have hzero : decimal [] = 0 := rfl
      rw [hzero, if_pos rfl]
      exact ⟨by omega, rfl⟩
    · rw [List.head?_append, List.head?_eq_some_head hnil, Option.some_or,
        ← List.head?_eq_some_head hnil] at hhead
      obtain ⟨hpos, hprint⟩ := @ih (between + 1) (c :: text)
        (fun d hd ↦ hdigits d (List.mem_append_left _ hd)) hnil (by omega) hhead
      refine ⟨by omega, ?_⟩
      rw [if_neg hpos, hprint, List.append_assoc]
      rfl

theorem Literal.print (l : Literal) : printUd l.value = tape l.text := by
  have hne : l.lead ≠ [] := List.ne_nil_of_length_pos l.length.1
  obtain ⟨hpos, hprint⟩ :=
    @printUdLoop_lead 0 l.lead (l.blocks.flatMap Block.text ++ []) l.digits hne
    (by rw [Nat.zero_add]; exact l.length.2) l.nonzero
  rw [printUd, l.value_eq, Literal.text, ← List.append_nil (l.blocks.flatMap Block.text), ← hprint]
  exact printUdLoop_blocks [] l.blocks hpos

theorem exists_lead {num : ℕ} (hne : ud ≠ 0) (hlt : ud < 10 ^ num) : ∃ lead :
    List UInt8, (∀ c ∈ lead, Digit c) ∧
    (1 ≤ lead.length ∧ lead.length ≤ num) ∧ lead.head? ≠ some 0x30 ∧ decimal lead = ud := by
  induction num generalizing ud with
  | zero => exact absurd (Nat.lt_one_iff.mp hlt) hne
  | succ num ih =>
    obtain ⟨hdigit, hnat⟩ := digit_ofNat (Nat.mod_lt ud (show 0 < 10 by decide))
    have hlast : (UInt8.ofNat (ud % 10 + 0x30)).toNat - 0x30 = ud % 10 := by omega
    by_cases hsmall : ud < 10
    · refine ⟨[UInt8.ofNat (ud % 10 + 0x30)], fun c hc ↦ List.mem_singleton.mp hc ▸ hdigit,
        ⟨Nat.le_refl 1, by
        rw [List.length_singleton]; omega⟩, fun hsome ↦ ?_, ?_⟩
      · have hzero := congrArg UInt8.toNat (Option.some.inj hsome)
        rw [hnat, Nat.mod_eq_of_lt hsmall] at hzero
        exact hne (Nat.add_right_cancel (hzero.trans (Nat.zero_add 0x30).symm))
      · rw [← List.nil_append [UInt8.ofNat (ud % 10 + 0x30)], decimal_concat, hlast,
          Nat.mod_eq_of_lt hsmall]
        exact Nat.zero_add ud
    · rw [Nat.pow_succ] at hlt
      obtain ⟨lead, hdigits, ⟨hleast, hmost⟩, hhead, hlead⟩ := @ih (ud / 10) (by omega) (by omega)
      have hnil : lead ≠ [] := List.ne_nil_of_length_pos hleast
      refine ⟨lead ++ [UInt8.ofNat (ud % 10 + 0x30)], fun c hc ↦ ?_, ?_, ?_, ?_⟩
      · rcases List.mem_append.mp hc with hc | hc
        · exact hdigits c hc
        · exact List.mem_singleton.mp hc ▸ hdigit
      · rw [List.length_append, List.length_singleton]
        omega
      · rw [List.head?_append, List.head?_eq_some_head hnil, Option.some_or,
          ← List.head?_eq_some_head hnil]
        exact hhead
      · rw [decimal_concat, hlead, hlast]
        exact Nat.div_add_mod ud 10

theorem exists_block (hlt : ud < 1000) : ∃ block : Block, block.value = ud := by
  obtain ⟨ha, hanat⟩ := digit_ofNat (show ud / 100 < 10 by omega)
  obtain ⟨hb, hbnat⟩ := digit_ofNat (Nat.mod_lt (ud / 10) (show 0 < 10 by decide))
  obtain ⟨hc, hcnat⟩ := digit_ofNat (Nat.mod_lt ud (show 0 < 10 by decide))
  refine ⟨⟨_, _, _, ha, hb, hc⟩, ?_⟩
  rw [Block.value_eq]
  simp only [hanat, hbnat, hcnat]
  omega

/-- Every number but zero has a literal. -/
theorem exists_literal (hne : ud ≠ 0) : ∃ l : Literal, l.value = ud := by
  induction ud using Nat.strongRecOn with
  | _ ud ih =>
    by_cases hsmall : ud < 10 ^ 3
    · obtain ⟨lead, hdigits, hlength, hhead, rfl⟩ := exists_lead hne hsmall
      exact ⟨⟨lead, [], hdigits, hlength, hhead⟩, Literal.value_eq _⟩
    · obtain ⟨l, hl⟩ := ih (ud / 1000) (by omega) (by omega)
      obtain ⟨block, hblock⟩ := exists_block (Nat.mod_lt ud (show 0 < 1000 by decide))
      refine ⟨{ l with blocks := l.blocks ++ [block] }, ?_⟩
      rw [Literal.value_eq, addBlocks_concat, ← l.value_eq, hl, hblock]
      exact Nat.div_add_mod' ud 1000

/-- The parser and the printer are inverse to each other. -/
theorem sift_print_ud : (∀ byt ud, siftUdBytes byt = some ud ↔ Canonical byt ud) ∧
    (∀ ud, ∃ byt, printUd ud = tape byt ∧ siftUdBytes byt = some ud) ∧
    ∀ byt ud, siftUdBytes byt = some ud → printUd ud = tape byt := by
  have hprint : ∀ byt ud, Canonical byt ud → printUd ud = tape byt := by
    rintro byt ud (⟨rfl, rfl⟩ | ⟨l, rfl, rfl⟩)
    · rw [printUd, printUdLoop]
      rfl
    · exact l.print
  refine ⟨fun byt ud ↦ siftUdBytes_eq_some_iff, fun ud ↦ ?_, fun byt ud hsift ↦
    hprint byt ud (siftUdBytes_eq_some_iff.mp hsift)⟩
  obtain ⟨byt, hcanonical⟩ : ∃ byt, Canonical byt ud := by
    by_cases hzero : ud = 0
    · exact ⟨_, Or.inl ⟨rfl, hzero⟩⟩
    · obtain ⟨l, rfl⟩ := exists_literal hzero
      exact ⟨_, Or.inr ⟨l, rfl, rfl⟩⟩
  exact ⟨byt, hprint byt ud hcanonical, siftUdBytes_eq_some_iff.mpr hcanonical⟩

theorem sift_print_ud_1234 : printUd 1234 = tape [0x31, 0x2e, 0x32, 0x33, 0x34] :=
  sift_print_ud.2.2 _ _ (by decide)

end Vere.Noun.Serial
