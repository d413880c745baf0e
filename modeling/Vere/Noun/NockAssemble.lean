import Vere.Noun.NockLayout

/-!
# Faithful assembly

What `_n_melt` measures is what `_n_prog_asm` writes, op by op, and every op is read back from its
bytes (`written_of_melt`). Hence the bytes of a program are the ops of the compiler, and its skips
end where the compiler counted to (`assemble_faithful`).
-/

set_option autoImplicit false

namespace Vere.Noun.Nock

open Lib.Results

/-! ### Measured programs -/

/-- What was written is what was measured. -/
structure Agree (m : Melt) (pog : Prog) : Prop where
  byc : pog.ops.length = m.byc
  siz : m.siz.sum + 1 = m.byc
  lit : pog.lit.length = m.lit
  mem : pog.mem.length = m.mem
  cal : pog.cal.length = m.cal
  reg : pog.reg = m.reg

/-- A program that was written on in front of another one. -/
structure Extends (fin pog : Prog) : Prop where
  ops : ∃ before, fin.ops = before ++ pog.ops
  lit : pog.lit <+: fin.lit
  mem : pog.mem <+: fin.mem
  cal : pog.cal <+: fin.cal
  reg : pog.reg ≤ fin.reg

theorem Extends.refl (pog : Prog) : Extends pog pog :=
  ⟨⟨[], rfl⟩, List.prefix_refl _, List.prefix_refl _, List.prefix_refl _, le_rfl⟩

theorem Extends.trans {fin mid pog : Prog} (hfin : Extends fin mid) (hmid : Extends mid pog) :
    Extends fin pog := by
  obtain ⟨before, hbefore⟩ := hfin.ops
  obtain ⟨between, hbetween⟩ := hmid.ops
  refine ⟨⟨before ++ between, ?_⟩, hmid.lit.trans hfin.lit, hmid.mem.trans hfin.mem,
    hmid.cal.trans hfin.cal, hmid.reg.trans hfin.reg⟩
  rw [hbefore, hbetween, List.append_assoc]

theorem getElem?_of_concat {α : Type} {table fin : List α} {x : α} (h : table ++ [x] <+: fin) :
    fin[table.length]? = some x := by
  obtain ⟨rest, rfl⟩ := h
  simp

/-- The index that an op gets. -/
def Melt.inx (m : Melt) : View → ℕ
  | .memo _ _ => m.mem
  | .site _ => m.cal
  | .rite => m.reg
  | _ => 0

theorem indexed_eq {a : ℕ} {siz : ℕ} (h : indexed a = .ok siz) (cod : Opcode) :
    a < 2 ^ 16 ∧ siz = (asmInx a cod).length := by
  unfold indexed at h
  unfold asmInx
  split_ifs at h with hbyte hshort
  · cases h
    exact ⟨by omega, by simp [hbyte]⟩
  · cases h
    exact ⟨by omega, by simp [hbyte]⟩

theorem map_eq_ok {α β : Type} {x : Except Crash α} {g : α → β} {r : β} (h : x.map g = .ok r) :
    ∃ v, x = .ok v ∧ g v = r := by
  cases x with
  | error e => cases h
  | ok v => exact ⟨v, rfl, Except.ok.inj h⟩

theorem asmInx_length_pos (inx : ℕ) (cod : Opcode) : 0 < (asmInx inx cod).length := by
  unfold asmInx
  split <;> simp

theorem asmInx_length_le (inx : ℕ) (cod : Opcode) : (asmInx inx cod).length ≤ 3 := by
  unfold asmInx
  split <;> simp

theorem asmSip_length_pos (sip : ℕ) (cod : Opcode) : 0 < (asmSip sip cod).length := by
  unfold asmSip
  split_ifs <;> simp

theorem sipSize_eq (tot : ℕ) (cod : Opcode) : sipSize tot = (asmSip tot cod).length := by
  unfold sipSize asmSip
  split_ifs <;> rfl

section Step

variable {o : Op} {v : View} {m m' : Melt} {pog : Prog}

/-- An op is written as `pog'`, and is read back from there. -/
structure Written (o : Op) (v : View) (m m' : Melt) (pog pog' : Prog) : Prop where
  write : ∃ new, m'.sip = new ++ m.sip ∧
    ∀ sip, asmOp ⟨pog, new.reverse ++ sip⟩ o = .ok ⟨pog', sip⟩
  agree : Agree m' pog'
  longer : Extends pog' pog
  read : ∀ fin, Extends fin pog' → fin.fetch (fin.ops.length - pog'.ops.length) =
    some (v.instr o.cod m.tot (m.inx v), fin.ops.length - pog.ops.length)
  less : pog.ops.length < pog'.ops.length

/-- The bytes of an op are read where they stand in a longer program. -/
theorem read_of_bytes {pog' : Prog} {bytes : List ℕ} {instr : Instr}
    (hops : pog'.ops = bytes ++ pog.ops)
    (hfetch : ∀ fin before, Extends fin pog' → fin.ops = before ++ (bytes ++ pog.ops) →
      fin.fetch before.length = some (instr, before.length + bytes.length))
    (fin : Prog) (hfin : Extends fin pog') :
    fin.fetch (fin.ops.length - pog'.ops.length) =
      some (instr, fin.ops.length - pog.ops.length) := by
  obtain ⟨before, hbefore⟩ := hfin.ops
  rw [hops] at hbefore
  have hstart : fin.ops.length - pog'.ops.length = before.length := by
    rw [hbefore, hops]
    simp
  have hend : fin.ops.length - pog.ops.length = before.length + bytes.length := by
    rw [hbefore]
    simp
    omega
  rw [hstart, hend]
  exact hfetch fin before hfin hbefore

theorem val_operand {cod cod' : Opcode} (hcod : operand cod = some (.val, cod')) :
    cod' = cod ∧ (arg cod = 1 ∨ arg cod = 2) := by
  cases cod <;> cases hcod <;> first | exact ⟨rfl, Or.inl rfl⟩ | exact ⟨rfl, Or.inr rfl⟩

theorem tot_le (hagree : Agree m pog) (n : ℕ) : m.tot n < m.byc := by
  have htake : (m.siz.take n).sum + (m.siz.drop n).sum = m.siz.sum := by
    rw [← List.sum_append, List.take_append_drop]
  have hsiz := hagree.siz
  unfold Melt.tot
  omega

/-- What is measured is written, and read back. -/
theorem written_of_melt (hview : o.view = some v) (hagree : Agree m pog)
    (hmelt : meltOp m o = .ok m') (hbyc : m.byc < 2 ^ 32) : ∃ pog', Written o v m m' pog pog' := by
  rw [meltOp_eq hview] at hmelt
  have hcases := view_cases hview
  have hasm := asmOp_eq hview pog
  obtain ⟨hlength, hsiz, hlit, hmem, hcal, hreg⟩ := hagree
  cases v with
  | bare =>
    cases hmelt
    obtain ⟨-, hcod⟩ : o.arg = none ∧ operand o.cod = none := by simpa using hcases
    refine ⟨{ pog with ops := [o.cod.ctorIdx] ++ pog.ops }, ⟨[], rfl, hasm 0⟩, ?_, ?_, ?_, ?_⟩
    · constructor <;> simp [Melt.push, *]
      omega
    · exact ⟨⟨_, rfl⟩, List.prefix_refl _, List.prefix_refl _, List.prefix_refl _, le_rfl⟩
    · exact read_of_bytes rfl fun fin before hfin hops ↦ fetch_bare hops hcod
    · simp
  | val x =>
    cases hmelt
    obtain ⟨-, ⟨cod', hcod⟩, hx⟩ : o.arg = some (.atom x) ∧
      (∃ cod, operand o.cod = some (.val, cod)) ∧
        x < 0x100 ^ arg o.cod := by simpa using hcases
    obtain ⟨rfl, harg⟩ := val_operand hcod
    have hbyte : operand (Opcode.ofNat o.cod.ctorIdx) = some (.val, o.cod) := by
      rwa [Opcode.ofNat_ctorIdx]
    obtain harg | harg := harg
    · rw [harg] at hx ⊢
      simp only [harg, if_true] at hasm
      refine ⟨_, ⟨[], rfl, hasm 0⟩, ?_, ?_, ?_, ?_⟩
      · constructor <;> simp [Melt.push, *]
        all_goals omega
      · exact ⟨⟨_, rfl⟩, List.prefix_refl _, List.prefix_refl _, List.prefix_refl _, le_rfl⟩
      · refine read_of_bytes rfl fun fin before hfin hops ↦ ?_
        have hfetch := fetch_operand (x := x) hops hbyte
          (by rw [Opcode.ofNat_ctorIdx, harg]; simp [number]; omega) rfl
        rw [Opcode.ofNat_ctorIdx, harg] at hfetch
        exact hfetch
      · simp only [List.length_append, List.length_cons, List.length_nil]
        omega
    · rw [harg] at hx ⊢
      simp only [harg, if_neg (show ¬(2 = 1) by decide)] at hasm
      refine ⟨_, ⟨[], rfl, hasm 0⟩, ?_, ?_, ?_, ?_⟩
      · constructor <;> simp [Melt.push, *]
        all_goals omega
      · exact ⟨⟨_, rfl⟩, List.prefix_refl _, List.prefix_refl _, List.prefix_refl _, le_rfl⟩
      · refine read_of_bytes rfl fun fin before hfin hops ↦ ?_
        have hfetch := fetch_operand (x := x) hops hbyte
          (by rw [Opcode.ofNat_ctorIdx, harg]; simp [number, resh]; omega) rfl
        rw [Opcode.ofNat_ctorIdx, harg] at hfetch
        exact hfetch
      · simp only [List.length_append, List.length_cons, List.length_nil]
        omega
  | lit x =>
    obtain ⟨siz, hindexed, rfl⟩ := map_eq_ok hmelt
    obtain ⟨hinx, hsize⟩ := indexed_eq hindexed o.cod
    obtain ⟨-, hcod⟩ : o.arg = some x ∧ operand o.cod = some (.lit, o.cod) := by simpa using hcases
    rw [← hlit] at hinx hsize
    refine ⟨_, ⟨[], rfl, hasm 0⟩, ?_, ?_, ?_, ?_⟩
    · constructor <;> simp [Melt.push, *]
      all_goals omega
    · exact ⟨⟨_, rfl⟩, List.prefix_append _ _, List.prefix_refl _, List.prefix_refl _, le_rfl⟩
    · refine read_of_bytes rfl fun fin before hfin hops ↦ fetch_asmInx hops hcod (by decide) hinx ?_
      show (fin.lit[pog.lit.length]?).map (Instr.lit o.cod) = _
      rw [getElem?_of_concat hfin.lit]
      rfl
    · have hpos := asmInx_length_pos pog.lit.length o.cod
      simp
      omega
  | skip n =>
    have htot : m.tot n < m.byc := tot_le ⟨hlength, hsiz, hlit, hmem, hcal, hreg⟩ n
    cases hmelt
    obtain ⟨-, hcod⟩ : o.arg = some (.atom n) ∧ operand o.cod = some (.skip, o.cod) := by
      simpa using hcases
    refine ⟨_, ⟨[m.tot n], rfl, hasm (m.tot n)⟩, ?_, ?_, ?_, ?_⟩
    · constructor <;> simp [Melt.push, sipSize_eq _ o.cod, *]
      all_goals omega
    · exact ⟨⟨_, rfl⟩, List.prefix_refl _, List.prefix_refl _, List.prefix_refl _, le_rfl⟩
    · exact read_of_bytes rfl fun fin before hfin hops ↦ fetch_asmSip hops hcod (by omega)
    · have hpos := asmSip_length_pos (m.tot n) o.cod
      simp
      omega
  | memo n key =>
    obtain ⟨siz, hindexed, rfl⟩ := map_eq_ok hmelt
    obtain ⟨hinx, hsize⟩ := indexed_eq hindexed o.cod
    obtain ⟨-, hcod⟩ : o.arg = some (.cell (.atom n) key) ∧
        operand o.cod = some (.memo, o.cod) := by
      simpa using hcases
    rw [← hmem] at hinx hsize
    refine ⟨_, ⟨[m.tot n], rfl, hasm (m.tot n)⟩, ?_, ?_, ?_, ?_⟩
    · constructor <;> simp [Melt.push, *]
      all_goals omega
    · exact ⟨⟨_, rfl⟩, List.prefix_refl _, List.prefix_append _ _, List.prefix_refl _, le_rfl⟩
    · refine read_of_bytes rfl fun fin before hfin hops ↦ fetch_asmInx hops hcod (by decide) hinx ?_
      show (fin.mem[pog.mem.length]?).map (Instr.memo o.cod pog.mem.length) = _
      rw [getElem?_of_concat hfin.mem, hmem]
      rfl
    · have hpos := asmInx_length_pos pog.mem.length o.cod
      simp
      omega
  | site axe =>
    obtain ⟨siz, hindexed, rfl⟩ := map_eq_ok hmelt
    obtain ⟨hinx, hsize⟩ := indexed_eq hindexed o.cod
    obtain ⟨-, hcod⟩ : o.arg = some axe ∧ operand o.cod = some (.site, o.cod) := by
      simpa using hcases
    rw [← hcal] at hinx hsize
    refine ⟨_, ⟨[], rfl, hasm 0⟩, ?_, ?_, ?_, ?_⟩
    · constructor <;> simp [Melt.push, *]
      all_goals omega
    · exact ⟨⟨_, rfl⟩, List.prefix_refl _, List.prefix_refl _, List.prefix_append _ _, le_rfl⟩
    · refine read_of_bytes rfl fun fin before hfin hops ↦ fetch_asmInx hops hcod (by decide) hinx ?_
      show (fin.cal[pog.cal.length]?).map (Instr.site o.cod pog.cal.length) = _
      rw [getElem?_of_concat hfin.cal, hcal]
      rfl
    · have hpos := asmInx_length_pos pog.cal.length o.cod
      simp
      omega
  | rite =>
    obtain ⟨siz, hindexed, rfl⟩ := map_eq_ok hmelt
    obtain ⟨hinx, hsize⟩ := indexed_eq hindexed o.cod
    obtain ⟨-, hcod⟩ : o.arg = none ∧ operand o.cod = some (.rite, o.cod) := by simpa using hcases
    rw [← hreg] at hinx hsize
    refine ⟨_, ⟨[], rfl, hasm 0⟩, ?_, ?_, ?_, ?_⟩
    · constructor <;> simp [Melt.push, *]
      all_goals omega
    · exact ⟨⟨_, rfl⟩, List.prefix_refl _, List.prefix_refl _, List.prefix_refl _, Nat.le_succ _⟩
    · refine read_of_bytes rfl fun fin before hfin hops ↦ fetch_asmInx hops hcod (by decide) hinx ?_
      have hless : pog.reg < fin.reg := hfin.reg
      show (if pog.reg < fin.reg then some (Instr.rite o.cod pog.reg) else none) = _
      rw [if_pos hless, hreg]
      rfl
    · have hpos := asmInx_length_pos pog.reg o.cod
      simp
      omega

end Step

/-! ### Whole lists -/

/-- The number of ops with a kind of operand. -/
def kindCount (kind : Operand) (ops : List Op) : ℕ :=
  ops.countP fun o ↦ (operand o.cod).map Prod.fst = some kind

/-- What `_n_melt()` adds to the size of the program, with the final `HALT`. -/
def bytes (ops : List Op) : ℕ :=
  match melt ops.reverse with
  | .ok m => m.byc
  | .error _ => 0

theorem melt_cons (o : Op) (rest : List Op) :
    melt (o :: rest).reverse = melt rest.reverse >>= fun m ↦ meltOp m o := by
  rw [melt, melt, List.reverse_cons, List.foldlM_append]
  congr 1
  funext m
  exact bind_pure _

theorem indexed_ok {a : ℕ} (ha : a < 2 ^ 16) : ∃ siz, indexed a = .ok siz := by
  unfold indexed
  split_ifs with hbyte hshort
  · exact ⟨2, rfl⟩
  · exact ⟨3, rfl⟩
  · omega

/-- The counts of `_n_melt()`, and the bound of the size. -/
structure Measured (ops : List Op) (m : Melt) : Prop where
  lit : m.lit = kindCount .lit ops
  mem : m.mem = kindCount .memo ops
  cal : m.cal = kindCount .site ops
  reg : m.reg = kindCount .rite ops
  byc : m.byc ≤ 5 * ops.length + 1

theorem kindCount_cons (kind : Operand) (o : Op) (ops : List Op) :
    kindCount kind (o :: ops) = kindCount kind ops +
      if (operand o.cod).map Prod.fst = some kind then 1 else 0 := by
  unfold kindCount
  rw [List.countP_cons]
  congr 1
  split_ifs <;> simp_all

variable {ops : List Op}

/-- An op adds to the count of its kind. -/
theorem measured_cons {o : Op} {v : View} {m m' : Melt} (hview : o.view = some v)
    (hmeasured : Measured ops m) (hmelt : meltOp m o = .ok m') : Measured (o :: ops) m' := by
  rw [meltOp_eq hview] at hmelt
  obtain ⟨hmlit, hmmem, hmcal, hmreg, hmbyc⟩ := hmeasured
  obtain ⟨rfl, har, hcod⟩ | ⟨rfl, har, hcod⟩ | ⟨x, rfl, har, ⟨cod', hcod⟩, -⟩ |
    ⟨x, rfl, har, hcod⟩ |
    ⟨n, rfl, har, hcod⟩ | ⟨n, key, rfl, har, hcod⟩ | ⟨axe, rfl, har, hcod⟩ := view_cases hview
  · cases hmelt
    constructor <;> simp [Melt.push, kindCount_cons, *]
    omega
  · obtain ⟨siz, hsiz, rfl⟩ := map_eq_ok hmelt
    have hle : siz ≤ 3 := (indexed_eq hsiz o.cod).2.trans_le (asmInx_length_le _ _)
    constructor <;> simp [Melt.push, kindCount_cons, *]
    omega
  · have harg := (val_operand hcod).2
    cases hmelt
    constructor <;> simp [Melt.push, kindCount_cons, *]
    omega
  · obtain ⟨siz, hsiz, rfl⟩ := map_eq_ok hmelt
    have hle : siz ≤ 3 := (indexed_eq hsiz o.cod).2.trans_le (asmInx_length_le _ _)
    constructor <;> simp [Melt.push, kindCount_cons, *]
    omega
  · have hsize : sipSize (m.tot n) ≤ 5 := by
      unfold sipSize
      split_ifs <;> decide
    cases hmelt
    constructor <;> simp [Melt.push, kindCount_cons, *]
    omega
  · obtain ⟨siz, hsiz, rfl⟩ := map_eq_ok hmelt
    have hle : siz ≤ 3 := (indexed_eq hsiz o.cod).2.trans_le (asmInx_length_le _ _)
    constructor <;> simp [Melt.push, kindCount_cons, *]
    omega
  · obtain ⟨siz, hsiz, rfl⟩ := map_eq_ok hmelt
    have hle : siz ≤ 3 := (indexed_eq hsiz o.cod).2.trans_le (asmInx_length_le _ _)
    constructor <;> simp [Melt.push, kindCount_cons, *]
    omega

theorem measured_of_melt {m : Melt} (hlinked : Linked ops) (hmelt : melt ops.reverse = .ok m) :
    Measured ops m := by
  induction ops generalizing m with
  | nil =>
    cases hmelt
    exact ⟨rfl, rfl, rfl, rfl, le_rfl⟩
  | cons o ops ih =>
    obtain ⟨⟨v, hview, -⟩, hlinked⟩ := hlinked
    rw [melt_cons] at hmelt
    obtain ⟨m₁, hm₁, hmelt⟩ := bind_eq_ok hmelt
    exact measured_cons hview (ih hlinked hm₁) hmelt

/-- At most 2^16 ops with each kind of index. -/
structure Few (ops : List Op) : Prop where
  lit : kindCount .lit ops ≤ 2 ^ 16
  mem : kindCount .memo ops ≤ 2 ^ 16
  cal : kindCount .site ops ≤ 2 ^ 16
  reg : kindCount .rite ops ≤ 2 ^ 16

theorem kindCount_le_cons (kind : Operand) (o : Op) (ops : List Op) :
    kindCount kind ops ≤ kindCount kind (o :: ops) := by
  rw [kindCount_cons]
  exact Nat.le_add_right _ _

theorem Few.of_cons {o : Op} (hfew : Few (o :: ops)) : Few ops :=
  ⟨(kindCount_le_cons _ o ops).trans hfew.lit, (kindCount_le_cons _ o ops).trans hfew.mem,
    (kindCount_le_cons _ o ops).trans hfew.cal, (kindCount_le_cons _ o ops).trans hfew.reg⟩

/-- An op is measured as long as there is an index for it. -/
theorem meltOp_ok {o : Op} {v : View} {m : Melt} (hview : o.view = some v)
    (hmeasured : Measured ops m) (hfew : Few (o :: ops)) : ∃ m', meltOp m o = .ok m' := by
  rw [meltOp_eq hview]
  obtain ⟨hmlit, hmmem, hmcal, hmreg, -⟩ := hmeasured
  obtain ⟨hlit, hmem, hcal, hreg⟩ := hfew
  rw [kindCount_cons] at hlit hmem hcal hreg
  obtain ⟨rfl, har, hcod⟩ | ⟨rfl, har, hcod⟩ | ⟨x, rfl, har, ⟨cod', hcod⟩, -⟩ |
    ⟨x, rfl, har, hcod⟩ |
    ⟨n, rfl, har, hcod⟩ | ⟨n, key, rfl, har, hcod⟩ | ⟨axe, rfl, har, hcod⟩ := view_cases hview
  all_goals simp only [hcod, Option.map_none, Option.map_some, reduceCtorEq, if_false, if_true,
    Option.some.injEq, Nat.add_zero] at hlit hmem hcal hreg
  · exact ⟨_, rfl⟩
  · obtain ⟨siz, hsiz⟩ := indexed_ok (a := m.reg) (by omega)
    exact ⟨_, by rw [hsiz]; rfl⟩
  · exact ⟨_, rfl⟩
  · obtain ⟨siz, hsiz⟩ := indexed_ok (a := m.lit) (by omega)
    exact ⟨_, by rw [hsiz]; rfl⟩
  · exact ⟨_, rfl⟩
  · obtain ⟨siz, hsiz⟩ := indexed_ok (a := m.mem) (by omega)
    exact ⟨_, by rw [hsiz]; rfl⟩
  · obtain ⟨siz, hsiz⟩ := indexed_ok (a := m.cal) (by omega)
    exact ⟨_, by rw [hsiz]; rfl⟩

/-- With few enough indices everything is measured. -/
theorem melt_ok (hlinked : Linked ops) (hfew : Few ops) : ∃ m, melt ops.reverse = .ok m := by
  induction ops with
  | nil => exact ⟨_, rfl⟩
  | cons o ops ih =>
    obtain ⟨⟨v, hview, -⟩, hlinked⟩ := hlinked
    obtain ⟨m, hm⟩ := ih hlinked hfew.of_cons
    obtain ⟨m', hm'⟩ := meltOp_ok hview (measured_of_melt hlinked hm) hfew
    refine ⟨m', ?_⟩
    rw [melt_cons, hm]
    exact hm'

/-- Every op that is measured has a size. -/
theorem meltOp_push {o : Op} {v : View} {m m' : Melt} (hview : o.view = some v)
    (hmelt : meltOp m o = .ok m') : ∃ siz, m'.siz = siz :: m.siz ∧ m'.byc = m.byc + siz := by
  rw [meltOp_eq hview] at hmelt
  cases v with
  | bare | val | skip =>
    cases hmelt
    exact ⟨_, rfl, rfl⟩
  | lit | memo | site | rite =>
    obtain ⟨siz, -, rfl⟩ := map_eq_ok hmelt
    exact ⟨_, rfl, rfl⟩

theorem bytes_eq {m : Melt} (hmelt : melt ops.reverse = .ok m) : bytes ops = m.byc := by
  unfold bytes
  rw [hmelt]

/-- The ops that are skipped, and those behind them. -/
theorem tot_add_bytes {m : Melt} (hlinked : Linked ops) (hmelt : melt ops.reverse = .ok m) {n : ℕ}
    (hn : n ≤ ops.length) : m.tot n + bytes (ops.drop n) = bytes ops := by
  induction ops generalizing m n with
  | nil =>
    cases hmelt
    simp [Melt.tot]
  | cons o rest ih =>
    obtain ⟨⟨v, hview, -⟩, hlinked⟩ := hlinked
    rw [bytes_eq hmelt]
    rw [melt_cons] at hmelt
    obtain ⟨m₁, hrest, hmelt'⟩ := bind_eq_ok hmelt
    obtain ⟨siz, hsiz, hbyc⟩ := meltOp_push hview hmelt'
    cases n with
    | zero =>
      rw [← melt_cons] at hmelt
      simp [Melt.tot, bytes_eq hmelt]
    | succ n =>
      have hlength : n ≤ rest.length := by simpa using hn
      have htot := ih hlinked hrest hlength
      rw [bytes_eq hrest] at htot
      simp only [Melt.tot, hsiz, List.take_succ_cons, List.sum_cons, List.drop_succ_cons] at htot ⊢
      omega

/-- Every op that is written has a byte. -/
theorem asmOp_grows {st st' : Asm} {o : Op} (h : asmOp st o = .ok st') :
    st.pog.ops.length < st'.pog.ops.length := by
  have hinx := asmInx_length_pos
  have hsip := asmSip_length_pos
  unfold asmOp at h
  repeat' split at h
  all_goals
    cases h
  all_goals
    simp only [Asm.write, List.length_append, List.length_cons, List.length_nil]
    first
    | exact Nat.lt_add_of_pos_left (hinx _ _)
    | exact Nat.lt_add_of_pos_left (hsip _ _)
    | omega

/-- `_n_prog_asm()` ends when the ops do. -/
theorem progAsm_of_foldlM {st st' : Asm} (hrun : ops.foldlM asmOp st = .ok st')
    (hsip : st'.sip = []) :
    progAsm ops (st'.pog.ops.length - st.pog.ops.length) st = .ok st'.pog ∧
      st.pog.ops.length ≤ st'.pog.ops.length := by
  induction ops generalizing st with
  | nil =>
    cases hrun
    simp [progAsm, hsip]
  | cons o ops ih =>
    obtain ⟨st₁, hst₁, hrun⟩ := bind_eq_ok hrun
    obtain ⟨hasm, hle⟩ := ih hrun
    have hgrows := asmOp_grows hst₁
    refine ⟨?_, by omega⟩
    obtain ⟨left, hleft⟩ : ∃ left, st'.pog.ops.length - st.pog.ops.length = left + 1 :=
      ⟨st'.pog.ops.length - st.pog.ops.length - 1, by omega⟩
    rw [hleft, progAsm, hst₁]
    show progAsm ops (left + 1 - (st₁.pog.ops.length - st.pog.ops.length)) st₁ = _
    rw [← hasm]
    congr 1
    omega

/-- What is read at the op of an index. -/
def ReadAt (fin : Prog) (ops : List Op) (i : ℕ) (o : Op) : Prop :=
  ∃ v m, o.view = some v ∧ melt (ops.drop (i + 1)).reverse = .ok m ∧
    fin.fetch (fin.ops.length - bytes (ops.drop i)) =
      some (v.instr o.cod m.tot (m.inx v), fin.ops.length - bytes (ops.drop (i + 1)))

theorem assembled_of_melt {m : Melt} (hlinked : Linked ops) (hmelt : melt ops.reverse = .ok m)
    (hbyc : m.byc < 2 ^ 32) :
    ∃ pog, (∀ sip, ops.reverse.foldlM asmOp
        ⟨⟨[Opcode.halt.ctorIdx], [], [], [], 0⟩, m.sip.reverse ++ sip⟩ = .ok ⟨pog, sip⟩) ∧
      Agree m pog ∧ (∃ before, pog.ops = before ++ [Opcode.halt.ctorIdx]) ∧
      ∀ fin, Extends fin pog → ∀ i o, ops[i]? = some o → ReadAt fin ops i o := by
  induction ops generalizing m with
  | nil =>
    cases hmelt
    refine ⟨_, fun sip ↦ rfl, ⟨rfl, rfl, rfl, rfl, rfl, rfl⟩, ⟨[], rfl⟩, fun fin hfin i o ho ↦ ?_⟩
    simp at ho
  | cons o rest ih =>
    obtain ⟨⟨v, hview, -⟩, hlinked⟩ := hlinked
    have hwhole := bytes_eq hmelt
    rw [melt_cons] at hmelt
    obtain ⟨m₁, hrest, hmelt'⟩ := bind_eq_ok hmelt
    obtain ⟨siz, hsiz, hbyc'⟩ := meltOp_push hview hmelt'
    obtain ⟨pog, hrun, hagree, ⟨before, hhalt⟩, hread⟩ := ih hlinked hrest (by omega)
    obtain ⟨pog', ⟨new, hnew, hwrite⟩, hagree', hover, hreadOne, -⟩ :=
      written_of_melt hview hagree hmelt' (by omega)
    refine ⟨pog', fun sip ↦ ?_, hagree', ?_, fun fin hfin i o' ho' ↦ ?_⟩
    · rw [List.reverse_cons, List.foldlM_append, hnew, List.reverse_append, List.append_assoc, hrun]
      show (asmOp ⟨pog, new.reverse ++ sip⟩ o >>= pure) = _
      rw [hwrite]
      rfl
    · obtain ⟨between, hbetween⟩ := hover.ops
      exact ⟨between ++ before, by rw [hbetween, hhalt, List.append_assoc]⟩
    · cases i with
      | zero =>
        cases ho'
        refine ⟨v, m₁, hview, hrest, ?_⟩
        have hfetch := hreadOne fin hfin
        rw [hagree'.byc, hagree.byc, ← hwhole, ← bytes_eq hrest] at hfetch
        exact hfetch
      | succ i => exact hread fin (hfin.trans hover) i o' ho'

/-! ### Faithful assembly -/

/-- The op with an opcode and an operand. -/
def View.op (cod : Opcode) : View → Op
  | .bare | .rite => ⟨cod, none⟩
  | .val x => ⟨cod, some (.atom x)⟩
  | .lit x => ⟨cod, some x⟩
  | .skip n => ⟨cod, some (.atom n)⟩
  | .memo n key => ⟨cod, some (.cell (.atom n) key)⟩
  | .site axe => ⟨cod, some axe⟩

theorem view_op {o : Op} {v : View} (hview : o.view = some v) : v.op o.cod = o := by
  obtain ⟨cod, ar⟩ := o
  obtain ⟨rfl, har, -⟩ | ⟨rfl, har, -⟩ | ⟨x, rfl, har, -⟩ | ⟨x, rfl, har, -⟩ | ⟨n, rfl, har, -⟩ |
    ⟨n, key, rfl, har, -⟩ | ⟨axe, rfl, har, -⟩ := view_cases hview
  all_goals
    cases har
    rfl

/-- The index of an op with an index: the number of those behind it. -/
def View.inx (rest : List Op) : View → ℕ
  | .memo _ _ => kindCount .memo rest
  | .site _ => kindCount .site rest
  | .rite => kindCount .rite rest
  | _ => 0

theorem inx_eq {m : Melt} (hmeasured : Measured ops m) (v : View) : m.inx v = v.inx ops := by
  cases v with
  | memo => exact hmeasured.mem
  | site => exact hmeasured.cal
  | rite => exact hmeasured.reg
  | _ => rfl

theorem linked_drop (hlinked : Linked ops) (n : ℕ) : Linked (ops.drop n) := by
  induction ops generalizing n with
  | nil => simpa using hlinked
  | cons o rest ih =>
    cases n with
    | zero => exact hlinked
    | succ n => exact ih hlinked.2 n

theorem linked_get (hlinked : Linked ops) {i : ℕ} {o : Op} (ho : ops[i]? = some o) :
    ∃ v, o.view = some v ∧ i + 1 + v.sip ≤ ops.length := by
  have hlength := (List.getElem?_eq_some_iff.mp ho).1
  have hdrop := linked_drop hlinked i
  rw [List.drop_eq_getElem_cons hlength] at hdrop
  obtain ⟨⟨v, hview, hsip⟩, -⟩ := hdrop
  rw [(List.getElem?_eq_some_iff.mp ho).2] at hview
  rw [List.length_drop] at hsip
  exact ⟨v, hview, by omega⟩

/-- Where the ops of a list stand in the bytes of a program: `off i` is the address of the op of
index `i`, and a skip ends at the op that the compiler counted to. -/
structure Layout (pog : Prog) (ops : List Op) (off : ℕ → ℕ) : Prop where
  first : off 0 = 0
  last : off ops.length + 1 = pog.ops.length
  halt : pog.fetch (off ops.length) = some (.bare .halt, pog.ops.length)
  read : ∀ i o, ops[i]? = some o → ∃ v, o.view = some v ∧ v.op o.cod = o ∧
    i + 1 + v.sip ≤ ops.length ∧
    ∃ dist : ℕ → ℕ, off (i + 1) + dist v.sip = off (i + 1 + v.sip) ∧
      pog.fetch (off i) = some (v.instr o.cod dist (v.inx (ops.drop (i + 1))), off (i + 1))

/-- What is measured is laid out. -/
theorem layout_of_melt {m : Melt} (hlinked : Linked ops) (hmelt : melt ops.reverse = .ok m)
    (hcells : ops.length ≤ cells) :
    ∃ pog off, progFromOps ops.reverse = .ok pog ∧ Agree m pog ∧ Layout pog ops off := by
  have hbyc : m.byc < 2 ^ 32 := by
    have hsize := (measured_of_melt hlinked hmelt).byc
    unfold cells at hcells
    omega
  obtain ⟨pog, hrun, hagree, ⟨before, hhalt⟩, hread⟩ := assembled_of_melt hlinked hmelt hbyc
  have hlength : bytes ops = pog.ops.length := (bytes_eq hmelt).trans hagree.byc.symm
  have hdrop : ∀ n, n ≤ ops.length → bytes (ops.drop n) ≤ pog.ops.length := by
    intro n hn
    have htot := tot_add_bytes hlinked hmelt hn
    omega
  have hend : pog.ops.length - bytes (ops.drop ops.length) = before.length := by
    rw [List.drop_length, hhalt]
    simp [bytes, melt, pure, Except.pure]
  refine ⟨pog, fun i ↦ pog.ops.length - bytes (ops.drop i), ?_, hagree, ?_, ?_, ?_, fun i o ho ↦ ?_⟩
  · have hasm := (progAsm_of_foldlM (hrun []) rfl).1
    rw [List.append_nil] at hasm
    rw [progFromOps, hmelt]
    show progAsm ops.reverse (m.byc - 1) _ = _
    rw [← hagree.byc]
    exact hasm
  · simp [hlength]
  · rw [hend, hhalt]
    simp
  · have hfetch : pog.fetch before.length = some (.bare .halt, before.length + 1) :=
      fetch_bare hhalt rfl
    rw [hend, hfetch, hhalt]
    simp
  · obtain ⟨v, mᵢ, hview, hmᵢ, hfetch⟩ := hread pog (.refl pog) i o ho
    obtain ⟨v', hview', hsip⟩ := linked_get hlinked ho
    cases hview.symm.trans hview'
    have hlinkedᵢ := linked_drop hlinked (i + 1)
    refine ⟨v, hview, view_op hview, hsip, mᵢ.tot, ?_, ?_⟩
    · have htot := tot_add_bytes hlinkedᵢ hmᵢ (n := v.sip) (by rw [List.length_drop]; omega)
      rw [List.drop_drop] at htot
      have hle := hdrop (i + 1) (by omega)
      omega
    · rw [← inx_eq (measured_of_melt hlinkedᵢ hmᵢ) v]
      exact hfetch

/-- The ops of the compiler are written as they were measured, and read back from the bytes: the
instruction at `off i` is the op of index `i`, up to the width of its operand, and where it skips it
ends at the op that the compiler counted to. -/
theorem assemble_faithful {f : Noun} {los tel : Bool} {ops : List Op}
    (hcomp : comp f los tel = .ok ops) (hcells : ops.length ≤ cells)
    (hlit : kindCount .lit ops < 2 ^ 16) (hmem : kindCount .memo ops < 2 ^ 16)
    (hcal : kindCount .site ops < 2 ^ 16) (hreg : kindCount .rite ops < 2 ^ 16) :
    ∃ (m : Melt) (pog : Prog) (off : ℕ → ℕ),
      melt ops.reverse = .ok m ∧ progFromOps ops.reverse = .ok pog ∧
      (pog.ops.length = m.byc ∧ pog.lit.length = m.lit ∧ pog.mem.length = m.mem ∧
        pog.cal.length = m.cal ∧ pog.reg = m.reg) ∧
      off 0 = 0 ∧ off ops.length + 1 = pog.ops.length ∧
      pog.fetch (off ops.length) = some (.bare .halt, pog.ops.length) ∧
      ∀ i o, ops[i]? = some o → ∃ v, o.view = some v ∧ v.op o.cod = o ∧ i + 1 + v.sip ≤ ops.length ∧
        ∃ dist : ℕ → ℕ, off (i + 1) + dist v.sip = off (i + 1 + v.sip) ∧
          pog.fetch (off i) = some (v.instr o.cod dist (v.inx (ops.drop (i + 1))),
          off (i + 1)) := by
  have hlinked := compiled_linked (compiled_of_comp hcomp)
  obtain ⟨m, hmelt⟩ := melt_ok hlinked ⟨hlit.le, hmem.le, hcal.le, hreg.le⟩
  obtain ⟨pog, off, hpog, hagree, hlayout⟩ := layout_of_melt hlinked hmelt hcells
  exact ⟨m, pog, off, hmelt, hpog, ⟨hagree.byc, hagree.lit, hagree.mem, hagree.cal, hagree.reg⟩,
    hlayout.first, hlayout.last, hlayout.halt, hlayout.read⟩

/-- The formula `[6 [1 0] [1 5] [1 700]]`. -/
theorem assemble_faithful_six :
    ∃ (m : Melt) (pog : Prog) (off : ℕ → ℕ),
      melt [⟨.lils, some (.atom 700)⟩, ⟨.sbip, some (.atom 1)⟩, ⟨.lilb, some (.atom 5)⟩,
        ⟨.sbin, some (.atom 2)⟩, op .lit0] = .ok m ∧
      progFromOps [⟨.lils, some (.atom 700)⟩, ⟨.sbip, some (.atom 1)⟩, ⟨.lilb, some (.atom 5)⟩,
        ⟨.sbin, some (.atom 2)⟩, op .lit0] = .ok pog ∧
      (pog.ops.length = m.byc ∧ pog.lit.length = m.lit ∧ pog.mem.length = m.mem ∧
        pog.cal.length = m.cal ∧ pog.reg = m.reg) ∧ off 0 = 0 := by
  have hcomp : comp
    (.cell (.atom 6) (.cell (.cell (.atom 1) (.atom 0)) (.cell (.cell (.atom 1) (.atom 5))
      (.cell (.atom 1) (.atom 700))))) true true = .ok [op .lit0, ⟨.sbin, some (.atom 2)⟩,
        ⟨.lilb, some (.atom 5)⟩, ⟨.sbip, some (.atom 1)⟩, ⟨.lils, some (.atom 700)⟩] := by decide
  obtain ⟨m, pog, off, hmelt, hpog, hcounts, hoff, -⟩ :=
    assemble_faithful hcomp (by decide) (by decide) (by decide) (by decide) (by decide)
  exact ⟨m, pog, off, hmelt, hpog, hcounts, hoff⟩

/-- The bytes of `[6 [1 0] [1 5] [1 700]]`. -/
example : progFromOps [⟨.lils, some (.atom 700)⟩, ⟨.sbip, some (.atom 1)⟩, ⟨.lilb, some (.atom 5)⟩,
    ⟨.sbin, some (.atom 2)⟩, op .lit0] = .ok ⟨[21, 50, 4, 29, 5, 47, 3, 30, 188, 2, 0], [], [], [],
    0⟩ := by
  decide

end Vere.Noun.Nock
