import Vere.Noun.Nock

/-!
# The assembler

`pkg/noun/nock.c`: `_n_melt` measures the ops of the compiler and `_n_prog_asm` writes them as
bytes, both from the last op on. A skip, which the compiler counts in ops, becomes a number of
bytes, and its own width depends on that number; the other operands are indices into the tables of a
program. `fetch` reads an instruction the way `_n_burn` does. The list of ops is in the order of
`_n_comp`, the last one first.
-/

set_option autoImplicit false

namespace Vere.Noun.Nock

/-! ### Measuring -/

/-- `_n_arg()`. -/
def arg : Opcode → ℕ
  | .fabk | .fabl | .fibl | .fibk | .lilb | .litb | .libl | .libk | .samb | .sanb | .sbip | .sbin
  | .slib | .skib | .kicb | .ticb | .bush | .bast | .balt | .mutb | .kutb | .mitb | .kitb
  | .hilb | .hinb => 1
  | .fask | .fasl | .fisl | .fisk | .lils | .lits | .lisl | .lisk | .sams | .sans | .sips | .sins
  | .slis | .skis | .kics | .tics | .sush | .sast | .salt | .muts | .kuts | .mits | .kits
  | .hils | .hins => 2
  | .swip | .swin => 4
  | _ => 0

/-- What `_n_melt()` has measured, from the op that it measured last on: the sizes of the ops, the
size of the program, the numbers of the indices in use, and the skips in bytes. -/
structure Melt where
  siz : List ℕ
  byc : ℕ
  cal : ℕ
  reg : ℕ
  lit : ℕ
  mem : ℕ
  sip : List ℕ
  deriving DecidableEq, Repr

/-- The size of an op with an index; the source asserts that an index fits into two bytes. -/
def indexed (a : ℕ) : Except Crash ℕ :=
  if a ≤ 0xff then .ok 2 else if a ≤ 0xffff then .ok 3 else .error .assert

/-- An atom that is used as a word. -/
def word : Noun → ℕ
  | .atom a => a
  | .cell _ _ => 0

/-- The size of the ops that are skipped. -/
def Melt.tot (m : Melt) (sip : ℕ) : ℕ := (m.siz.take sip).sum

/-- An op of a size. -/
def Melt.push (m : Melt) (siz : ℕ) : Melt := { m with siz := siz :: m.siz, byc := m.byc + siz }

/-- The loop of `_n_melt()`. -/
def meltOp (m : Melt) (o : Op) : Except Crash Melt :=
  match o.arg with
  | none =>
    match o.cod with
    | .bast | .balt => do
      let siz ← indexed m.reg
      .ok { m.push siz with reg := m.reg + 1 }
    | _ => .ok (m.push 1)
  | some ar =>
    match o.cod with
    | .sbip | .sbin =>
      let tot := m.tot (word ar)
      .ok { m.push (if tot ≤ 0xff then 2 else if tot ≤ 0xffff then
        3 else 5) with sip := tot :: m.sip }
    | .skib | .slib =>
      match ar with
      | .atom _ => .error .bail
      | .cell sip _ => do
        let siz ← indexed m.mem
        .ok { m.push siz with sip := m.tot (word sip) :: m.sip, mem := m.mem + 1 }
    | .sips | .sins | .swip | .swin | .sast | .salt | .kics | .tics | .fisk | .fisl | .sush | .sans
    | .lisl | .lisk | .skis | .slis | .hils | .hins => .error .assert
    | .kicb | .ticb => do
      let siz ← indexed m.cal
      .ok { m.push siz with cal := m.cal + 1 }
    | .bush | .fibk | .fibl | .sanb | .libl | .libk | .kitb | .mitb | .hilb | .hinb => do
      let siz ← indexed m.lit
      .ok { m.push siz with lit := m.lit + 1 }
    | cod => .ok (m.push (1 + arg cod))

/-- `_n_melt()`, with a byte for the final `HALT`. -/
def melt (ops : List Op) : Except Crash Melt := ops.foldlM meltOp ⟨[], 1, 0, 0, 0, 0, []⟩

/-! ### Writing -/

/-- `u3n_memo`. -/
structure Memo where
  sip : ℕ
  key : Noun
  deriving DecidableEq, Repr

/-- `u3n_prog`: the bytes, and the tables of literals, memos, call sites by their axes and
registration sites. -/
structure Prog where
  ops : List ℕ
  lit : List Noun
  mem : List Memo
  cal : List Noun
  reg : ℕ
  deriving DecidableEq, Repr

/-- What `_n_prog_asm()` has written, with the skips that are left. -/
structure Asm where
  pog : Prog
  sip : List ℕ
  deriving DecidableEq, Repr

/-- Bytes in front of those that are written. -/
def Asm.write (st : Asm) (bytes : List ℕ) : Asm :=
  { st with pog := { st.pog with ops := bytes ++ st.pog.ops } }

/-- `_n_prog_asm_inx()`. -/
def asmInx (inx : ℕ) (cod : Opcode) : List ℕ :=
  if inx ≤ 0xff then [cod.ctorIdx, inx % 0x100]
  else [cod.ctorIdx + 1, inx % 0x100, inx / 0x100 % 0x100]

/-- The bytes of a skip. -/
def asmSip (sip : ℕ) (cod : Opcode) : List ℕ :=
  if sip ≤ 0xff then [cod.ctorIdx, sip % 0x100]
  else if sip ≤ 0xffff then [cod.ctorIdx + 1, sip % 0x100, sip / 0x100 % 0x100]
  else [cod.ctorIdx + 2, sip % 0x100, sip / 0x100 % 0x100, sip / 0x10000 % 0x100,
    sip / 0x1000000 % 0x100]

/-- The loop of `_n_prog_asm()`. -/
def asmOp (st : Asm) (o : Op) : Except Crash Asm :=
  match o.arg with
  | none =>
    match o.cod with
    | .bast | .balt =>
      let st := st.write (asmInx st.pog.reg o.cod)
      .ok { st with pog := { st.pog with reg := st.pog.reg + 1 } }
    | cod => .ok (st.write [cod.ctorIdx])
  | some ar =>
    match o.cod with
    | .skib | .slib =>
      match st.sip, ar with
      | tot :: sip, .cell _ key =>
        let st := st.write (asmInx st.pog.mem.length o.cod)
        .ok ⟨{ st.pog with mem := st.pog.mem ++ [⟨tot, key⟩] }, sip⟩
      | _, _ => .error .bail
    | .sbip | .sbin =>
      match st.sip with
      | tot :: sip => .ok ⟨(st.write (asmSip tot o.cod)).pog, sip⟩
      | [] => .error .bail
    | .fabk | .fabl | .litb | .lilb | .mutb | .kutb | .samb =>
      .ok (st.write [o.cod.ctorIdx, word ar % 0x100])
    | .fask | .fasl | .lils | .lits | .muts | .kuts | .sams | .sips | .sins =>
      .ok (st.write [o.cod.ctorIdx, word ar % 0x100, word ar / 0x100 % 0x100])
    | .swip | .swin =>
      .ok (st.write [o.cod.ctorIdx, word ar % 0x100, word ar / 0x100 % 0x100,
        word ar / 0x10000 % 0x100, word ar / 0x1000000 % 0x100])
    | .fibk | .fibl | .libk | .libl | .bush | .sanb | .kitb | .mitb | .hilb | .hinb =>
      let st := st.write (asmInx st.pog.lit.length o.cod)
      .ok { st with pog := { st.pog with lit := st.pog.lit ++ [ar] } }
    | .ticb | .kicb =>
      let st := st.write (asmInx st.pog.cal.length o.cod)
      .ok { st with pog := { st.pog with cal := st.pog.cal ++ [ar] } }
    | _ => .error .assert

/-- `_n_prog_asm()`, with the number of bytes that are left to write. -/
def progAsm : List Op → ℕ → Asm → Except Crash Prog
  | ops, 0, st => if ops = [] ∧ st.sip = [] then .ok st.pog else .error .assert
  | [], _ + 1, _ => .error .bail
  | o :: ops, left + 1, st => do
    let st' ← asmOp st o
    progAsm ops (left + 1 - (st'.pog.ops.length - st.pog.ops.length)) st'

/-- `_n_prog_from_ops()`. -/
def progFromOps (ops : List Op) : Except Crash Prog := do
  let m ← melt ops
  progAsm ops (m.byc - 1) ⟨⟨[Opcode.halt.ctorIdx], [], [], [], 0⟩, m.sip.reverse⟩

/-- `u3a_cells`: the number of cells that the loom can hold. -/
def cells : ℕ := 2 ^ 30 / 6

/-- `_n_bite()`. The list of ops is in the loom, and the compiler bails when that is full. -/
def bite (fol : Noun) : Except Crash Prog := do
  let ops ← comp fol true true
  if cells < ops.length then .error .bail else progFromOps ops.reverse

/-! ### Reading -/

/-- `_n_resh()`. -/
def resh (buf : List ℕ) (ip : ℕ) : Option ℕ := do
  let les ← buf[ip]?
  let mos ← buf[ip + 1]?
  some (les + mos * 0x100)

/-- `_n_rewo()`. -/
def rewo (buf : List ℕ) (ip : ℕ) : Option ℕ := do
  let one ← buf[ip]?
  let two ← buf[ip + 1]?
  let tre ← buf[ip + 2]?
  let qua ← buf[ip + 3]?
  some (one + two * 0x100 + tre * 0x10000 + qua * 0x1000000)

/-- An instruction with its operand. The opcodes for wide indices and skips are those for narrow
ones. -/
inductive Instr
  | bare (cod : Opcode)
  | val (cod : Opcode) (x : ℕ)
  | lit (cod : Opcode) (x : Noun)
  | skip (cod : Opcode) (sip : ℕ)
  | memo (cod : Opcode) (inx : ℕ) (mem : Memo)
  | site (cod : Opcode) (inx : ℕ) (axe : Noun)
  | rite (cod : Opcode) (inx : ℕ)
  deriving DecidableEq, Repr

/-- What an operand is. -/
inductive Operand
  | val | lit | skip | memo | site | rite
  deriving DecidableEq, Repr

/-- The operand that `_n_burn()` reads for an opcode, and the opcode that it then goes on with. -/
def operand : Opcode → Option (Operand × Opcode)
  | .fabk => some (.val, .fabk) | .fask => some (.val, .fask)
  | .fabl => some (.val, .fabl) | .fasl => some (.val, .fasl)
  | .litb => some (.val, .litb) | .lits => some (.val, .lits)
  | .lilb => some (.val, .lilb) | .lils => some (.val, .lils)
  | .samb => some (.val, .samb) | .sams => some (.val, .sams)
  | .mutb => some (.val, .mutb) | .muts => some (.val, .muts)
  | .kutb => some (.val, .kutb) | .kuts => some (.val, .kuts)
  | .fibk | .fisk => some (.lit, .fibk)
  | .fibl | .fisl => some (.lit, .fibl)
  | .libk | .lisk => some (.lit, .libk)
  | .libl | .lisl => some (.lit, .libl)
  | .sanb | .sans => some (.lit, .sanb)
  | .bush | .sush => some (.lit, .bush)
  | .hilb | .hils => some (.lit, .hilb)
  | .hinb | .hins => some (.lit, .hinb)
  | .mitb | .mits => some (.lit, .mitb)
  | .kitb | .kits => some (.lit, .kitb)
  | .sbip | .sips | .swip => some (.skip, .sbip)
  | .sbin | .sins | .swin => some (.skip, .sbin)
  | .kicb | .kics => some (.site, .kicb)
  | .ticb | .tics => some (.site, .ticb)
  | .bast | .sast => some (.rite, .bast)
  | .balt | .salt => some (.rite, .balt)
  | .skib | .skis => some (.memo, .skib)
  | .slib | .slis => some (.memo, .slib)
  | _ => none

/-- The number that follows an opcode: a byte, `_n_resh()` or `_n_rewo()`. -/
def number (buf : List ℕ) (ip : ℕ) : ℕ → Option ℕ
  | 1 => buf[ip]?
  | 2 => resh buf ip
  | 4 => rewo buf ip
  | _ => none

/-- An operand, looked up in the tables of the program. -/
def Prog.resolve (pog : Prog) (cod : Opcode) (x : ℕ) : Operand → Option Instr
  | .val => some (.val cod x)
  | .lit => (pog.lit[x]?).map (.lit cod)
  | .skip => some (.skip cod x)
  | .memo => (pog.mem[x]?).map (.memo cod x)
  | .site => (pog.cal[x]?).map (.site cod x)
  | .rite => if x < pog.reg then some (.rite cod x) else none

/-- The instruction at an address, and the address after it. Outside of the program there is none.
-/
def Prog.fetch (pog : Prog) (ip : ℕ) : Option (Instr × ℕ) := do
  let byte ← pog.ops[ip]?
  let cod := Opcode.ofNat byte
  match operand cod with
  | none => some (.bare cod, ip + 1)
  | some (kind, narrow) =>
    let x ← number pog.ops (ip + 1) (arg cod)
    let instr ← pog.resolve narrow x kind
    some (instr, ip + 1 + arg cod)

end Vere.Noun.Nock
