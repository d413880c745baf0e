import Vere.Noun.NockAsm
import Vere.Noun.NockCompiled

/-!
# The layout of programs

Every op of the compiler has one of seven kinds of operand, and its skips stay within the list
(`compiled_linked`). The bytes of one op are read back wherever they stand in a program.
-/

set_option autoImplicit false

namespace Vere.Noun.Nock

/-! ### Ops by their operands -/

/-- The operand of an op: none, a number, a literal, a number of ops to skip, a number of ops to
skip with the key of a memo, an axis to call, or none with a registration site. -/
inductive View
  | bare
  | val (x : ℕ)
  | lit (x : Noun)
  | skip (n : ℕ)
  | memo (n : ℕ) (key : Noun)
  | site (axe : Noun)
  | rite
  deriving DecidableEq, Repr

/-- The operand of an op, for the ops that have the operand of their opcode. -/
def Op.view (o : Op) : Option View :=
  match o.arg, operand o.cod with
  | none, none => some .bare
  | none, some (.rite, cod) => if cod = o.cod then some .rite else none
  | some (.atom x), some (.val, _) => if x < 0x100 ^ Nock.arg o.cod then some (.val x) else none
  | some ar, some (.lit, cod) => if cod = o.cod then some (.lit ar) else none
  | some (.atom n), some (.skip, cod) => if cod = o.cod then some (.skip n) else none
  | some (.cell (.atom n) key), some (.memo, cod) =>
    if cod = o.cod then some (.memo n key) else none
  | some axe, some (.site, cod) => if cod = o.cod then some (.site axe) else none
  | _, _ => none

/-- The number of ops that are skipped. -/
def View.sip : View → ℕ
  | .skip n => n
  | .memo n _ => n
  | _ => 0

/-- The instruction of an op, with the bytes of the ops that it skips and its index. -/
def View.instr (cod : Opcode) (dist : ℕ → ℕ) (inx : ℕ) : View → Instr
  | .bare => .bare cod
  | .val x => .val cod x
  | .lit x => .lit cod x
  | .skip n => .skip cod (dist n)
  | .memo n key => .memo cod inx ⟨dist n, key⟩
  | .site axe => .site cod inx axe
  | .rite => .rite cod inx

/-- Every op has an operand of its opcode, and its skip ends within the list. -/
def Linked : List Op → Prop
  | [] => True
  | o :: rest => (∃ v, o.view = some v ∧ v.sip ≤ rest.length) ∧ Linked rest

theorem linked_append {ops rest : List Op} (hops : Linked ops) (hrest : Linked rest) :
    Linked (ops ++ rest) := by
  induction ops with
  | nil => exact hrest
  | cons o ops ih =>
    obtain ⟨⟨v, hview, hsip⟩, hops⟩ := hops
    have hlength : (ops ++ rest).length = ops.length + rest.length := List.length_append
    exact ⟨⟨v, hview, by show v.sip ≤ (ops ++ rest).length; omega⟩, ih hops⟩

variable {o : Op} {v : View}

theorem linked_one (hview : o.view = some v) (hsip : v.sip = 0) : Linked [o] :=
  ⟨⟨v, hview, by rw [hsip]; exact Nat.zero_le _⟩, trivial⟩

theorem linked_op {cod : Opcode} (hcod : (op cod).view = some .bare) : Linked [op cod] :=
  linked_one hcod rfl

/-! ### The ops of the compiler -/

theorem small_atom {most : ℕ} {n : Noun} (h : small most n = true) :
    ∃ x, n = .atom x ∧ x ≤ most := by
  cases n with
  | atom x => exact ⟨x, rfl, by simpa [small] using h⟩
  | cell h t => cases h

/-- An argument that is put behind the opcode for its size. -/
theorem linked_sized {ar : Noun} {byte short index : Opcode}
    (hbyte : operand byte = some (.val, byte) ∧ arg byte = 1)
    (hshort : operand short = some (.val, short) ∧ arg short = 2)
    (hindex : operand index = some (.lit, index)) :
    Linked [⟨sized ar byte short index, some ar⟩] := by
  unfold sized
  split
  · next h =>
    obtain ⟨x, rfl, hx⟩ := small_atom h
    refine linked_one (v := .val x) ?_ rfl
    simp [Op.view, hbyte]
    omega
  · split
    · next h =>
      obtain ⟨x, rfl, hx⟩ := small_atom h
      refine linked_one (v := .val x) ?_ rfl
      simp [Op.view, hshort]
      omega
    · refine linked_one (v := .lit ar) ?_ rfl
      cases ar <;> simp [Op.view, hindex]

theorem compFrag_linked {ar : Noun} {los : Bool} {ops : List Op} (h : compFrag ar los = .ok ops) :
    Linked ops := by
  unfold compFrag at h
  split at h
  all_goals cases h
  · exact linked_op (by decide)
  · cases los
    · exact linked_op (by decide)
    · trivial
  · cases los <;> exact linked_op (by decide)
  · cases los <;> exact linked_op (by decide)
  · cases los <;> exact linked_sized (by decide) (by decide) (by decide)


theorem compLit_linked (ar : Noun) (los : Bool) : Linked (compLit ar los) := by
  unfold compLit
  split
  · cases los <;> exact linked_op (by decide)
  · cases los <;> exact linked_op (by decide)
  · cases los <;> exact linked_sized (by decide) (by decide) (by decide)

theorem compSame_linked (v : Noun) : Linked [compSame v] := by
  unfold compSame
  split
  · exact linked_op (by decide)
  · exact linked_op (by decide)
  · exact linked_sized (by decide) (by decide) (by decide)

theorem compEdit_linked (axe : Noun) (los : Bool) : Linked [compEdit axe los] := by
  unfold compEdit
  split
  · cases los <;> exact linked_op (by decide)
  · cases los <;> exact linked_op (by decide)
  · cases los <;> exact linked_op (by decide)
  · cases los <;> exact linked_sized (by decide) (by decide) (by decide)

theorem linked_cons {rest : List Op} (hview : o.view = some v) (hsip : v.sip ≤ rest.length)
    (hrest : Linked rest) : Linked (o :: rest) :=
  ⟨⟨v, hview, hsip⟩, hrest⟩

/-- A skip over the ops that follow it, with others behind these. -/
theorem linked_skip {cod : Opcode} {n : ℕ} {rest : List Op} (hcod : cod = .sbip ∨ cod = .sbin)
    (hlength : n ≤ rest.length) (hrest : Linked rest) : Linked (⟨cod, some (.atom n)⟩ :: rest) := by
  refine linked_cons (v := .skip n) ?_ hlength hrest
  obtain rfl | rfl := hcod <;> rfl

/-- Two formulas on one subject, and what is done with their products. -/
theorem linked_pair {hed tal last : List Op} (hhed : Linked hed) (htal : Linked tal)
    (hlast : Linked last) : Linked (hed ++ [op .swap] ++ tal ++ last) :=
  linked_append (linked_append (linked_append hhed (linked_op (by decide))) htal) hlast

theorem linked_hindOps {fen : List Op} {hind clean : Opcode} (hfen : Linked fen)
    (hhind : (op hind).view = some .bare) (hclean : (op clean).view = some .bare) :
    Linked (hindOps fen hind ++ [op clean]) := by
  have hskip : Linked [⟨.sbip, some (.atom 1)⟩, op clean] :=
    linked_skip (Or.inl rfl) (by simp) (linked_op hclean)
  have hrest : Linked ([op hind] ++ [⟨.sbip, some (.atom 1)⟩, op clean]) :=
    linked_append (linked_op hhind) hskip
  simpa [hindOps] using linked_append hfen hrest

theorem compiled_linked {f : Noun} {los tel : Bool} {ops : List Op} (h : Compiled f los tel ops) :
    Linked ops := by
  induction h with
  | frag hfrag => exact compFrag_linked hfrag
  | lit => exact compLit_linked _ _
  | @cons h t ar los tel hed tal hhed htal ihhed ihtal =>
    have hlast : (op (if los then .ault else .auto)).view = some .bare := by cases los <;> decide
    exact linked_pair ihhed ihtal (linked_op hlast)
  | @nock b c los tel hed tal hhed htal ihhed ihtal =>
    have hlast : (op (if tel then .noct else if los then .nolk else .nock)).view = some .bare := by
      cases los <;> cases tel <;> decide
    exact linked_pair ihhed ihtal (linked_op hlast)
  | deep hops ih | bump hops ih => exact linked_append ih (linked_op (by decide))
  | @fold b c v w los tel hb hc =>
    split
    · cases los <;> exact linked_op (by decide)
    · cases los <;> exact linked_op (by decide)
  | @same b c los tel hed tal hhed htal ihhed ihtal =>
    have hlast : (op (if los then .salm else .same)).view = some .bare := by cases los <;> decide
    exact linked_pair ihhed ihtal (linked_op hlast)
  | litLeft hb htal ih => exact linked_append ih (compSame_linked _)
  | litRight hhed hc ih => exact linked_append ih (compSame_linked _)
  | @cond b c d los tel hed yep nop hhed hbranch hyep hnop hyep' hnop' ihhed ihyep ihnop =>
    have hyepLinked : Linked yep := by
      cases hc : formulaic c with
      | true => exact ihyep hc
      | false =>
        rw [hyep' hc]
        exact linked_op (by decide)
    have hnopLinked : Linked nop := by
      cases hd : formulaic d with
      | true => exact ihnop hd
      | false =>
        rw [hnop' hd]
        exact linked_op (by decide)
    have hskip : Linked (⟨.sbip, some (.atom nop.length)⟩ :: nop) :=
      linked_skip (Or.inl rfl) le_rfl hnopLinked
    have hbranches := linked_append hyepLinked hskip
    have htest := linked_skip (n := yep.length + 1) (Or.inr rfl) (by simp) hbranches
    simpa using linked_append ihhed htest
  | comp hhed htal ihhed ihtal => exact linked_append ihhed ihtal
  | @push b c los tel hed tal hhed htal ihhed ihtal =>
    have hmid : (op (if los then .snol else .snoc)).view = some .bare := by cases los <;> decide
    exact linked_append (linked_append ihhed (linked_op hmid)) ihtal
  | @arm b c los tel hed tal hcap htal hhed ihtal =>
    have hlast : (op (if tel then .noct else .nolk)).view = some .bare := by cases tel <;> decide
    refine linked_append ihtal (linked_append (linked_append (linked_append ?_ ?_) ?_)
      (linked_op hlast))
    · exact linked_op (by decide)
    · exact linked_op (by decide)
    · exact compFrag_linked hhed
  | @kick b c los tel tal hcap htal ihtal =>
    refine linked_append ihtal (linked_one (v := .site b) ?_ rfl)
    cases tel <;> cases b <;> rfl
  | @hax axe c d los tel tal nef htal hnef ihtal ihnef =>
    exact linked_pair ihtal ihnef (compEdit_linked axe los)
  | hint hhif hnef ih => exact ih
  | @hilt hif d los tel fen hhif hfen ih =>
    have hrest : Linked (hindOps fen (if los then
      .hill else .hilk) ++ [op (if los then .toss else .swap)]) :=
      linked_hindOps ih (by cases los <;> decide) (by cases los <;> decide)
    have hskip := linked_skip (n := fen.length + 2) (Or.inr rfl) (by simp [hindOps]) hrest
    have hhilb : Linked ([⟨.hilb, some (.cell (.atom hif) d)⟩] ++ _) :=
      linked_append (linked_one (v := .lit (.cell (.atom hif) d)) rfl rfl) hskip
    simpa using hhilb
  | @toss zep c d los tel hod nef hzep hhod hnef ihhod ihnef =>
    exact linked_append (linked_append ihhod (linked_op (by decide))) ihnef
  | @hook zep c d los tel hod fen hzep hhod hfen ihhod ihfen =>
    have hrest : Linked (hindOps fen (if los then
      .hinl else .hink) ++ [op (if los then .toss else .swap)]) :=
      linked_hindOps ihfen (by cases los <;> decide) (by cases los <;> decide)
    have hskip := linked_skip (n := fen.length + 2) (Or.inr rfl) (by simp [hindOps]) hrest
    have hhinb : Linked ([⟨.hinb, some (.cell (.atom zep) d)⟩] ++ _) :=
      linked_append (linked_one (v := .lit (.cell (.atom zep) d)) rfl rfl) hskip
    simpa using linked_append ihhod hhinb
  | @trace zep c d los tel hod nef hzep hhod hnef ihhod ihnef =>
    refine linked_append (linked_append (linked_append ihhod ?_) ihnef) (linked_op (by decide))
    exact linked_one (v := .lit (.atom zep)) rfl rfl
  | live hhod hnef ihhod ihnef | slog hhod hnef ihhod ihnef =>
    exact linked_append (linked_append ihhod (linked_op (by decide))) ihnef
  | @fast c d los tel hod nef hhod hnef ihhod ihnef =>
    refine linked_pair ihhod ihnef ?_
    cases los <;> exact linked_one (v := .rite) rfl rfl
  | @memo c d los tel hod mem hhod hmem ihhod ihmem =>
    have hsave : Linked (mem ++ [op .save]) := linked_append ihmem (linked_op (by decide))
    have hskip : Linked (⟨if los then .slib else .skib, some (.cell (.atom (mem.length + 1)) d)⟩ ::
        (mem ++ [op .save])) := by
      refine linked_cons (v := .memo (mem.length + 1) d) ?_ (by simp [View.sip]) hsave
      cases los <;> rfl
    simpa using linked_append (linked_append ihhod (linked_op (by decide))) hskip
  | @wish b c los tel hed tal hhed htal ihhed ihtal =>
    have hlast : (op (if los then .wils else .wish)).view = some .bare := by cases los <;> decide
    exact linked_pair ihhed ihtal (linked_op hlast)

/-! ### Reading the bytes of one op -/

section Fetch

variable {fin : Prog} {before after : List ℕ} {byte : ℕ} {cod narrow : Opcode} {kind : Operand}
  {instr : Instr}

theorem getElem?_after (hops : fin.ops = before ++ byte :: after) (k : ℕ) :
    fin.ops[before.length + 1 + k]? = after[k]? := by
  rw [hops, List.getElem?_append_right (by omega)]
  have hindex : before.length + 1 + k - before.length = k + 1 := by omega
  rw [hindex, List.getElem?_cons_succ]

theorem fetch_bare (hops : fin.ops = before ++ cod.ctorIdx :: after) (hcod : operand cod = none) :
    fin.fetch before.length = some (.bare cod, before.length + 1) := by
  unfold Prog.fetch
  have hbyte : fin.ops[before.length]? = some cod.ctorIdx := by rw [hops]; simp
  simp only [hbyte, Option.bind_eq_bind, Option.bind_some, Opcode.ofNat_ctorIdx, hcod]

theorem number_after {x width : ℕ} (hops : fin.ops = before ++ byte :: after)
    (hnumber : number after 0 width = some x) :
    number fin.ops (before.length + 1) width = some x := by
  have hafter := getElem?_after hops
  rw [← hnumber]
  unfold number resh rewo
  split
  · exact hafter 0
  · rw [show before.length + 1 = before.length + 1 + 0 from rfl, hafter 0, Nat.add_assoc, hafter]
  · simp only [Nat.add_assoc] at hafter ⊢
    simp only [hafter]
    rw [show before.length + 1 = before.length + (1 + 0) from rfl, hafter]
  · rfl

/-- An opcode with its operand behind it. -/
theorem fetch_operand {x : ℕ} (hops : fin.ops = before ++ byte :: after)
    (hcod : operand (Opcode.ofNat byte) = some (kind, narrow))
    (hnumber : number after 0 (arg (Opcode.ofNat byte)) = some x)
    (hresolve : fin.resolve narrow x kind = some instr) :
    fin.fetch before.length = some (instr, before.length + 1 + arg (Opcode.ofNat byte)) := by
  have hbyte : fin.ops[before.length]? = some byte := by rw [hops]; simp
  unfold Prog.fetch
  simp only [hbyte, Option.bind_eq_bind, Option.bind_some, hcod, number_after hops hnumber,
    hresolve]

/-- The opcode behind one for a byte is the one for two bytes. -/
theorem operand_succ (hcod : operand cod = some (kind, cod)) (hkind : kind ≠ .val) :
    arg cod = 1 ∧ operand (Opcode.ofNat (cod.ctorIdx + 1)) = some (kind, cod) ∧
      arg (Opcode.ofNat (cod.ctorIdx + 1)) = 2 := by
  cases cod <;> cases hcod <;> first | exact absurd rfl hkind | exact ⟨rfl, rfl, rfl⟩

theorem operand_wide (hcod : operand cod = some (.skip, cod)) :
    operand (Opcode.ofNat (cod.ctorIdx + 2)) = some (.skip, cod) ∧
      arg (Opcode.ofNat (cod.ctorIdx + 2)) = 4 := by
  cases cod <;> cases hcod <;> exact ⟨rfl, rfl⟩

theorem fetch_asmInx {inx : ℕ} {rest : List ℕ} (hops : fin.ops = before ++ (asmInx inx cod ++ rest))
    (hcod : operand cod = some (kind, cod)) (hkind : kind ≠ .val) (hinx : inx < 2 ^ 16)
    (hresolve : fin.resolve cod inx kind = some instr) :
    fin.fetch before.length = some (instr, before.length + (asmInx inx cod).length) := by
  obtain ⟨harg, hsucc, hargSucc⟩ := operand_succ hcod hkind
  unfold asmInx at hops ⊢
  split at hops
  · next hsmall =>
    have hfetch := fetch_operand hops (by rw [Opcode.ofNat_ctorIdx]; exact hcod)
      (x := inx) (by rw [Opcode.ofNat_ctorIdx, harg]; simp [number]; omega) hresolve
    rw [Opcode.ofNat_ctorIdx, harg] at hfetch
    rw [hfetch, if_pos hsmall]
    rfl
  · next hlarge =>
    have hfetch := fetch_operand hops hsucc
      (x := inx) (by rw [hargSucc]; simp [number, resh]; omega) hresolve
    rw [hargSucc] at hfetch
    rw [hfetch, if_neg hlarge]
    rfl

theorem fetch_asmSip {sip : ℕ} {rest : List ℕ} (hops : fin.ops = before ++ (asmSip sip cod ++ rest))
    (hcod : operand cod = some (.skip, cod)) (hsip : sip < 2 ^ 32) :
    fin.fetch before.length = some (.skip cod sip, before.length + (asmSip sip cod).length) := by
  obtain ⟨harg, hsucc, hargSucc⟩ := operand_succ hcod (by decide)
  obtain ⟨hwide, hargWide⟩ := operand_wide hcod
  unfold asmSip at hops ⊢
  split at hops
  · next hsmall =>
    have hfetch := fetch_operand hops (by rw [Opcode.ofNat_ctorIdx]; exact hcod)
      (x := sip) (by rw [Opcode.ofNat_ctorIdx, harg]; simp [number]; omega) rfl
    rw [Opcode.ofNat_ctorIdx, harg] at hfetch
    rw [hfetch, if_pos hsmall]
    rfl
  split at hops
  · next hlarge hshort =>
    have hfetch := fetch_operand hops hsucc
      (x := sip) (by rw [hargSucc]; simp [number, resh]; omega) rfl
    rw [hargSucc] at hfetch
    rw [hfetch, if_neg hlarge, if_pos hshort]
    rfl
  · next hlarge hlong =>
    have hfetch := fetch_operand hops hwide
      (x := sip) (by rw [hargWide]; simp [number, rewo]; omega) rfl
    rw [hargWide] at hfetch
    rw [hfetch, if_neg hlarge, if_neg hlong]
    rfl

end Fetch

/-! ### Measuring and writing one op -/

/-- The ops with operands, by their operands. -/
theorem view_cases (hview : o.view = some v) :
    (v = .bare ∧ o.arg = none ∧ operand o.cod = none) ∨
    (v = .rite ∧ o.arg = none ∧ operand o.cod = some (.rite, o.cod)) ∨
    (∃ x, v = .val x ∧ o.arg = some (.atom x) ∧ (∃ cod, operand o.cod = some (.val, cod)) ∧
      x < 0x100 ^ arg o.cod) ∨
    (∃ x, v = .lit x ∧ o.arg = some x ∧ operand o.cod = some (.lit, o.cod)) ∨
    (∃ n, v = .skip n ∧ o.arg = some (.atom n) ∧ operand o.cod = some (.skip, o.cod)) ∨
    (∃ n key, v = .memo n key ∧ o.arg = some (.cell (.atom n) key) ∧
      operand o.cod = some (.memo, o.cod)) ∨
    ∃ axe, v = .site axe ∧ o.arg = some axe ∧ operand o.cod = some (.site, o.cod) := by
  unfold Op.view at hview
  split at hview
  all_goals simp_all

/-- The size of a skip. -/
def sipSize (tot : ℕ) : ℕ := if tot ≤ 0xff then 2 else if tot ≤ 0xffff then 3 else 5

/-- `_n_melt()` by the operand of the opcode. -/
theorem meltOp_operand (m : Melt) (cod : Opcode) (ar : Noun) :
    match operand cod with
    | none => meltOp m ⟨cod, none⟩ = .ok (m.push 1)
    | some (.val, _) => meltOp m ⟨cod, some ar⟩ = .ok (m.push (1 + arg cod))
    | some (.lit, narrow) => narrow = cod → meltOp m ⟨cod, some ar⟩ =
        (indexed m.lit).map fun siz ↦ { m.push siz with lit := m.lit + 1 }
    | some (.skip, narrow) => narrow = cod → meltOp m ⟨cod, some ar⟩ =
        .ok { m.push (sipSize (m.tot (word ar))) with sip := m.tot (word ar) :: m.sip }
    | some (.memo, narrow) => narrow = cod → ∀ sip key, meltOp m ⟨cod, some (.cell sip key)⟩ =
        (indexed m.mem).map fun siz ↦ { m.push siz with
          sip := m.tot (word sip) :: m.sip, mem := m.mem + 1 }
    | some (.site, narrow) => narrow = cod → meltOp m ⟨cod, some ar⟩ =
        (indexed m.cal).map fun siz ↦ { m.push siz with cal := m.cal + 1 }
    | some (.rite, narrow) => narrow = cod → meltOp m ⟨cod, none⟩ =
        (indexed m.reg).map fun siz ↦ { m.push siz with reg := m.reg + 1 } := by
  cases cod <;> first | rfl | exact fun _ ↦ rfl | exact fun _ _ _ ↦ rfl | nofun

/-- `_n_melt()` by the operand of the op. -/
theorem meltOp_eq (hview : o.view = some v) (m : Melt) :
    meltOp m o = match v with
      | .bare => .ok (m.push 1)
      | .val _ => .ok (m.push (1 + arg o.cod))
      | .lit _ => (indexed m.lit).map fun siz ↦ { m.push siz with lit := m.lit + 1 }
      | .skip n => .ok { m.push (sipSize (m.tot n)) with sip := m.tot n :: m.sip }
      | .memo n _ => (indexed m.mem).map fun siz ↦
          { m.push siz with sip := m.tot n :: m.sip, mem := m.mem + 1 }
      | .site _ => (indexed m.cal).map fun siz ↦ { m.push siz with cal := m.cal + 1 }
      | .rite => (indexed m.reg).map fun siz ↦ { m.push siz with reg := m.reg + 1 } := by
  obtain ⟨cod, ar⟩ := o
  obtain ⟨rfl, har, hcod⟩ | ⟨rfl, har, hcod⟩ | ⟨x, rfl, har, ⟨cod', hcod⟩, -⟩ |
    ⟨x, rfl, har, hcod⟩ | ⟨n, rfl, har, hcod⟩ | ⟨n, key, rfl, har, hcod⟩ |
    ⟨axe, rfl, har, hcod⟩ := view_cases hview
  all_goals
    dsimp only at har hcod
    subst har
  · have hmelt := meltOp_operand m cod (.atom 0)
    rwa [hcod] at hmelt
  · have hmelt := meltOp_operand m cod (.atom 0)
    rw [hcod] at hmelt
    exact hmelt rfl
  · have hmelt := meltOp_operand m cod (.atom x)
    rwa [hcod] at hmelt
  · have hmelt := meltOp_operand m cod x
    rw [hcod] at hmelt
    exact hmelt rfl
  · have hmelt := meltOp_operand m cod (.atom n)
    rw [hcod] at hmelt
    exact hmelt rfl
  · have hmelt := meltOp_operand m cod (.atom 0)
    rw [hcod] at hmelt
    exact hmelt rfl (.atom n) key
  · have hmelt := meltOp_operand m cod axe
    rw [hcod] at hmelt
    exact hmelt rfl

/-- What `_n_prog_asm()` writes, by the operand of the opcode. -/
theorem asmOp_operand (pog : Prog) (tot : ℕ) (sip : List ℕ) (cod : Opcode) (ar : Noun) :
    match operand cod with
    | none => asmOp ⟨pog, sip⟩ ⟨cod, none⟩ = .ok ⟨{ pog with ops := cod.ctorIdx :: pog.ops }, sip⟩
    | some (.val, _) => asmOp ⟨pog, sip⟩ ⟨cod, some ar⟩ = .ok ⟨{ pog with
        ops := (if arg cod = 1 then [cod.ctorIdx, word ar % 0x100]
          else [cod.ctorIdx, word ar % 0x100, word ar / 0x100 % 0x100]) ++ pog.ops }, sip⟩
    | some (.lit, narrow) => narrow = cod → asmOp ⟨pog, sip⟩ ⟨cod, some ar⟩ = .ok ⟨{ pog with
        ops := asmInx pog.lit.length cod ++ pog.ops, lit := pog.lit ++ [ar] }, sip⟩
    | some (.skip, narrow) => narrow = cod → asmOp ⟨pog, tot :: sip⟩ ⟨cod, some ar⟩ =
        .ok ⟨{ pog with ops := asmSip tot cod ++ pog.ops }, sip⟩
    | some (.memo, narrow) => narrow = cod → ∀ n key,
        asmOp ⟨pog, tot :: sip⟩ ⟨cod, some (.cell n key)⟩ = .ok ⟨{ pog with
          ops := asmInx pog.mem.length cod ++ pog.ops, mem := pog.mem ++ [⟨tot, key⟩] }, sip⟩
    | some (.site, narrow) => narrow = cod → asmOp ⟨pog, sip⟩ ⟨cod, some ar⟩ = .ok ⟨{ pog with
        ops := asmInx pog.cal.length cod ++ pog.ops, cal := pog.cal ++ [ar] }, sip⟩
    | some (.rite, narrow) => narrow = cod → asmOp ⟨pog, sip⟩ ⟨cod, none⟩ = .ok ⟨{ pog with
        ops := asmInx pog.reg cod ++ pog.ops, reg := pog.reg + 1 }, sip⟩ := by
  cases cod <;> first | rfl | exact fun _ ↦ rfl | exact fun _ _ _ ↦ rfl | nofun

/-- What `_n_prog_asm()` writes, by the operand of the op. -/
theorem asmOp_eq (hview : o.view = some v) (pog : Prog) (tot : ℕ) (sip : List ℕ) :
    match v with
      | .bare => asmOp ⟨pog, sip⟩ o = .ok ⟨{ pog with ops := o.cod.ctorIdx :: pog.ops }, sip⟩
      | .val x => asmOp ⟨pog, sip⟩ o = .ok ⟨{ pog with
          ops := (if arg o.cod = 1 then [o.cod.ctorIdx, x % 0x100]
            else [o.cod.ctorIdx, x % 0x100, x / 0x100 % 0x100]) ++ pog.ops }, sip⟩
      | .lit x => asmOp ⟨pog, sip⟩ o = .ok ⟨{ pog with
          ops := asmInx pog.lit.length o.cod ++ pog.ops, lit := pog.lit ++ [x] }, sip⟩
      | .skip _ =>
        asmOp ⟨pog, tot :: sip⟩ o = .ok ⟨{ pog with ops := asmSip tot o.cod ++ pog.ops }, sip⟩
      | .memo _ key => asmOp ⟨pog, tot :: sip⟩ o = .ok ⟨{ pog with
          ops := asmInx pog.mem.length o.cod ++ pog.ops, mem := pog.mem ++ [⟨tot, key⟩] }, sip⟩
      | .site axe => asmOp ⟨pog, sip⟩ o = .ok ⟨{ pog with
          ops := asmInx pog.cal.length o.cod ++ pog.ops, cal := pog.cal ++ [axe] }, sip⟩
      | .rite => asmOp ⟨pog, sip⟩ o = .ok ⟨{ pog with
          ops := asmInx pog.reg o.cod ++ pog.ops, reg := pog.reg + 1 }, sip⟩ := by
  obtain ⟨cod, ar⟩ := o
  obtain ⟨rfl, har, hcod⟩ | ⟨rfl, har, hcod⟩ | ⟨x, rfl, har, ⟨cod', hcod⟩, -⟩ |
    ⟨x, rfl, har, hcod⟩ | ⟨n, rfl, har, hcod⟩ | ⟨n, key, rfl, har, hcod⟩ |
    ⟨axe, rfl, har, hcod⟩ := view_cases hview
  all_goals
    dsimp only at har hcod
    subst har
  · have hasm := asmOp_operand pog tot sip cod (.atom 0)
    rwa [hcod] at hasm
  · have hasm := asmOp_operand pog tot sip cod (.atom 0)
    rw [hcod] at hasm
    exact hasm rfl
  · have hasm := asmOp_operand pog tot sip cod (.atom x)
    rwa [hcod] at hasm
  · have hasm := asmOp_operand pog tot sip cod x
    rw [hcod] at hasm
    exact hasm rfl
  · have hasm := asmOp_operand pog tot sip cod (.atom n)
    rw [hcod] at hasm
    exact hasm rfl
  · have hasm := asmOp_operand pog tot sip cod (.atom 0)
    rw [hcod] at hasm
    exact hasm rfl (.atom n) key
  · have hasm := asmOp_operand pog tot sip cod axe
    rw [hcod] at hasm
    exact hasm rfl

end Vere.Noun.Nock
