import Vere.Noun.Murmur

/-!
# The packets of Ames, and their relay

`pkg/vere/io/ames.c`. A datagram is a header of four bytes and a body: `siftHead` and `siftBody`
read them, `etchHead` and `etchPack` write them. A packet for another ship is forwarded on the lanes
that are known for it, or kept until a scry answers with them (`hear`, `tryForward`, `laneScryCb`,
`forward`). Packets that are kept are a doubly linked list. On its way out a packet is an atom
(`serializePacket`, `efSend`).

The murmur hash is not part of the program; `hash` stands for it. What is printed, and the counters
that nothing reads but prints, are left out.
-/

set_option autoImplicit false

namespace Vere.King.Ames

open Lib.Bytes
open Noun.Murmur (mugBytes)

/-! ### Packets -/

/-- How a call ends that does not return. -/
inductive Crash
  /-- `u3m_bail()`. -/
  | bail
  /-- A failed `c3_assert()`. -/
  | assert
  /-- A packet is used that was freed. -/
  | wild
  deriving DecidableEq, Repr

/-- `u3_lane`. -/
structure Lane where
  pip_w : UInt32
  por_s : UInt16
  deriving DecidableEq, Repr

/-- `u3_head`. -/
structure Head where
  sim_o : Bool
  ver_y : Fin 8
  sac_y : Fin 4
  rac_y : Fin 4
  mug_l : Fin (2 ^ 20)
  rel_o : Bool
  deriving DecidableEq, Repr

/-- `u3_body`, with the two words of a ship as one number. -/
structure Body where
  sen_d : ℕ
  rec_d : ℕ
  sic_y : Fin 16
  ric_y : Fin 16
  con_y : List UInt8
  rog_d : ℕ
  mug_l : ℕ
  deriving DecidableEq, Repr

/-- A loobean of one bit. -/
def loob (bit : ℕ) : Bool := bit % 2 = 0

/-- The bit of a loobean. -/
def bitOf (loobean : Bool) : ℕ := if loobean then 0 else 1

/-- `_ames_sift_head()`. -/
def siftHead (buf_y : List UInt8) : Head :=
  let hed_w := value (buf_y.take 4)
  { sim_o := loob (hed_w >>> 3)
    ver_y := Fin.ofNat 8 (hed_w >>> 4)
    sac_y := Fin.ofNat 4 (hed_w >>> 7)
    rac_y := Fin.ofNat 4 (hed_w >>> 9)
    mug_l := Fin.ofNat (2 ^ 20) (hed_w >>> 11)
    rel_o := loob (hed_w >>> 31) }

/-- The bytes of a ship by its class. -/
def shipLen (cla_y : Fin 4) : ℕ := 2 <<< cla_y.val

/-- The bytes of the origin. -/
def Head.rogLen (hed_u : Head) : ℕ := if hed_u.rel_o then 6 else 0

/-- `_ames_sift_body()`. Sizes are of two bytes. -/
def siftBody (hash : ℕ → List UInt8 → ℕ) (hed_u : Head) (bod_y : List UInt8) : Option Body :=
  let sen_y := shipLen hed_u.sac_y
  let rec_y := shipLen hed_u.rac_y
  if 1 + sen_y + rec_y + hed_u.rogLen ≥ bod_y.length then none
  else
    let gob_s := (bod_y.length - hed_u.rogLen) % 2 ^ 16
    let con_s := (gob_s + 2 ^ 16 - (1 + sen_y + rec_y)) % 2 ^ 16
    let gob_y := bod_y.drop hed_u.rogLen
    let tic_y := value (gob_y.take 1)
    some
      { sen_d := value ((gob_y.drop 1).take sen_y)
        rec_d := value ((gob_y.drop (1 + sen_y)).take rec_y)
        sic_y := Fin.ofNat 16 tic_y
        ric_y := Fin.ofNat 16 (tic_y >>> 4)
        con_y := (gob_y.drop (1 + sen_y + rec_y)).take con_s
        rog_d := value (bod_y.take hed_u.rogLen)
        mug_l := mugBytes hash (gob_y.take gob_s) % 2 ^ 20 }

/-- `_ames_etch_head()`. -/
def etchHead (hed_u : Head) : Except Crash (List UInt8) :=
  let hed_w := (bitOf hed_u.sim_o <<< 3) ^^^ (hed_u.ver_y.val <<< 4) ^^^ (hed_u.sac_y.val <<< 7) ^^^
    (hed_u.rac_y.val <<< 9) ^^^ (hed_u.mug_l.val <<< 11) ^^^ (bitOf hed_u.rel_o <<< 31)
  -- only version 0 is recognized
  if hed_u.ver_y = 0 then .ok (spell 4 hed_w) else .error .assert

/-- `_ames_etch_pack()`. -/
def etchPack (hed_u : Head) (bod_u : Body) : Except Crash (List UInt8) := do
  let hed_y ← etchHead hed_u
  .ok (hed_y ++ spell hed_u.rogLen bod_u.rog_d ++ spell 1
    (bod_u.sic_y.val ^^^ (bod_u.ric_y.val <<< 4)) ++
    spell (shipLen hed_u.sac_y) bod_u.sen_d ++ spell (shipLen hed_u.rac_y) bod_u.rec_d ++
      bod_u.con_y)

/-- A galaxy, by its number: `256 > who_d[0]` and `0 == who_d[1]`. -/
def galaxy (who_d : ℕ) : Bool := who_d < 256

/-- `u3_ames_lane_to_chub()`. -/
def Lane.toChub (lan : Lane) : ℕ := (lan.por_s.toNat <<< 32) ^^^ lan.pip_w.toNat

/-- `u3_panc`: a packet that came in. -/
structure Panc where
  ore_u : Lane
  hed_u : Head
  bod_u : Body
  deriving DecidableEq, Repr

/-- The origin of a packet is updated if it was not yet, and its sender is not a galaxy. -/
def Panc.stamp (pac_u : Panc) (dop_o : Bool) : Panc :=
  if dop_o ∧ ¬ pac_u.hed_u.rel_o ∧ ¬ galaxy pac_u.bod_u.sen_d then
    { pac_u with
      hed_u := { pac_u.hed_u with rel_o := true }
      bod_u := { pac_u.bod_u with rog_d := pac_u.ore_u.toChub } }
  else pac_u

/-- `_ames_serialize_packet()`: the atom of the bytes, `u3i_bytes()`. -/
def serializePacket (pac_u : Panc) (dop_o : Bool) : Except Crash ℕ := do
  let pac_u := pac_u.stamp dop_o
  let pac_y ← etchPack pac_u.hed_u pac_u.bod_u
  .ok (value pac_y)

/-! ### The node -/

/-- A kept packet with its links. -/
structure Node where
  pac_u : Panc
  pre_u : ℕ
  nex_u : ℕ
  deriving DecidableEq, Repr

/-- `u3_ames`, with `u3_Host.ops_u.net`, the ship of the pier, and the packets that are kept by
their addresses. -/
structure Sam where
  net : Bool
  who_d : ℕ
  liv_o : Bool
  ver_y : ℕ
  fit_o : Bool
  see_o : Bool
  /-- The lanes of a ship, and when they were learnt. -/
  lax_p : ℕ → Option (Noun × ℕ)
  pac_u : ℕ
  mem : ℕ → Option Node
  foq_d : ℕ
  saw_d : ℕ

/-- Where a packet is sent: to a galaxy, whose address is looked up, or to an address. -/
inductive Dest
  | czar (imp_y : ℕ)
  | lane (lan_u : Lane)
  deriving DecidableEq, Repr

/-- `u3_pact`: a packet that goes out. -/
structure Pact where
  dest : Dest
  hun_y : List UInt8
  deriving DecidableEq, Repr

/-- `u3_ames_decode_lane()`. -/
def decodeLane : Noun → Lane
  | .atom lan_d => if lan_d < 2 ^ 48 then ⟨UInt32.ofNat lan_d,
    UInt16.ofNat (lan_d >>> 32)⟩ else ⟨0, 0⟩
  | .cell _ _ => ⟨0, 0⟩

/-- `_ames_ef_send()`: `u3r_met(3)` and `u3r_bytes()` give the bytes of the atom. The lane of a
galaxy ends where `_ames_czar()` takes over. -/
def efSend (sam_u : Sam) (lan : Noun) (pac : ℕ) : Except Crash (List Pact) :=
  if ¬ sam_u.liv_o then .ok []
  else
    match lan with
    | .atom _ => .error .bail
    | .cell tag val =>
      if tag = .atom 0 then
        match val with
        | .cell _ _ => .error .assert
        | .atom val => if val < 256 then .ok [⟨.czar val, bytesOf pac⟩] else .error .assert
      else if tag = .atom 1 then
        let lan_u := decodeLane val
        -- incoming localhost is outgoing localhost
        let lan_u := if lan_u.pip_w = 0 then { lan_u with pip_w := 0x7f000001 } else lan_u
        if ¬ sam_u.net ∧ lan_u.pip_w ≠ 0x7f000001 then .ok []
        else if lan_u.por_s = 0 then .ok []
        else .ok [⟨.lane lan_u, bytesOf pac⟩]
      else .error .assert

/-- A lane of the list that a packet is forwarded on. -/
def forwardLane (sam_u : Sam) (lan : Noun) (pac : ℕ) : Except Crash (List Pact) :=
  match lan with
  | .atom _ => .ok []
  | .cell tag dat =>
    if tag = .atom 0 then
      match dat with
      | .cell _ _ => .error .assert
      | .atom dat => if dat % 2 ^ 128 = sam_u.who_d then .ok [] else efSend sam_u lan pac
    else efSend sam_u lan pac

/-- The lanes of a list, one after the other. -/
def forwardLanes (sam_u : Sam) (pac : ℕ) : Noun → Except Crash (List Pact)
  | .atom a => if a = 0 then .ok [] else .error .bail
  | .cell lan t => do
    let out ← forwardLane sam_u lan pac
    let more ← forwardLanes sam_u pac t
    .ok (out ++ more)

/-- A change of the memory. -/
def Sam.set (sam_u : Sam) (ptr : ℕ) (node : Option Node) : Sam :=
  { sam_u with mem := fun p ↦ if p = ptr then node else sam_u.mem p }

/-- A link of a kept packet is changed. -/
def Sam.relink (sam_u : Sam) (ptr : ℕ) (link : Node → Node) : Except Crash Sam :=
  match sam_u.mem ptr with
  | none => .error .wild
  | some node => .ok (sam_u.set ptr (some (link node)))

/-- The next packet links back to the one before. -/
def Sam.linkBack (sam_u : Sam) (node : Node) : Except Crash Sam :=
  if node.nex_u = 0 then .ok sam_u
  else sam_u.relink node.nex_u fun nex ↦ { nex with pre_u := node.pre_u }

/-- The packet before, or the list, links to the next one. -/
def Sam.linkForth (sam_u : Sam) (ptr : ℕ) (node : Node) : Except Crash Sam :=
  if node.pre_u = 0 then
    if ptr = sam_u.pac_u then .ok { sam_u with pac_u := node.nex_u } else .error .assert
  else sam_u.relink node.pre_u fun pre ↦ { pre with nex_u := node.nex_u }

/-- `_ames_panc_free()`. -/
def pancFree (sam_u : Sam) (ptr : ℕ) : Except Crash Sam :=
  match sam_u.mem ptr with
  | none => .error .wild
  | some node => do
    let sam_u ← sam_u.linkBack node
    let sam_u ← sam_u.linkForth ptr node
    .ok (sam_u.set ptr none)

/-- The first packet links back to a new one. -/
def Sam.linkHead (sam_u : Sam) (ptr : ℕ) : Except Crash Sam :=
  if sam_u.pac_u = 0 then .ok sam_u
  else sam_u.relink sam_u.pac_u fun hed ↦ { hed with pre_u := ptr }

/-- A packet is kept at a new address, in front of the others. -/
def pancPush (sam_u : Sam) (ptr : ℕ) (pac_u : Panc) : Except Crash Sam := do
  let node : Node := ⟨pac_u, 0, sam_u.pac_u⟩
  let sam_u ← sam_u.linkHead ptr
  .ok { sam_u.set ptr (some node) with pac_u := ptr }

/-- What a step leaves: the node, the packets that go out, and the packets that are injected as
events. -/
structure Result where
  sam_u : Sam
  out : List Pact
  put : List (Lane × ℕ)

/-- `_ames_forward()`. -/
def forward (sam_u : Sam) (ptr : ℕ) (las : Noun) : Except Crash Result :=
  match sam_u.mem ptr with
  | none => .error .wild
  | some node => do
    let pac ← serializePacket node.pac_u true
    let out ← forwardLanes sam_u pac las
    let sam_u ← pancFree sam_u ptr
    .ok ⟨sam_u, out, []⟩

/-- `_ames_lane_into_cache()`. -/
def Sam.intoCache (sam_u : Sam) (now who : ℕ) (las : Noun) : Sam :=
  { sam_u with lax_p := fun w ↦ if w = who then some (las, now) else sam_u.lax_p w }

/-- `_ames_lane_from_cache()`: lanes of less than two minutes ago, in milliseconds. -/
def Sam.fromCache (sam_u : Sam) (now who : ℕ) : Option Noun :=
  match sam_u.lax_p who with
  | some (las, den) => if now - den < 120000 then some las else none
  | none => none

/-- The lanes of a scry that did not fail: `u3r_at(7)`. -/
def scryLanes : Noun → Option Noun
  | .cell _ (.cell _ las) => some las
  | _ => none

/-- A scry that failed: after five in a row there are no more, and the packet is injected. -/
def scryFailed (sam_u : Sam) (ptr : ℕ) (pac_u : Panc) : Except Crash Result := do
  let saw_d := (sam_u.saw_d + 1) % 2 ^ 64
  let sam_u := { sam_u with saw_d := saw_d, see_o := if 5 < saw_d then false else sam_u.see_o }
  let pac ← serializePacket pac_u false
  let sam_u ← pancFree sam_u ptr
  .ok ⟨sam_u, [], [(pac_u.ore_u, pac)]⟩

/-- A scry with lanes: they go into the cache, and the packet out on them. -/
def scryAnswered (sam_u : Sam) (now ptr : ℕ) (pac_u : Panc) (las : Noun) : Except Crash Result :=
  let sam_u := { sam_u with saw_d := 0 }.intoCache now pac_u.bod_u.rec_d las
  if las = .nul then do
    let sam_u ← pancFree sam_u ptr
    .ok ⟨sam_u, [], []⟩
  else forward sam_u ptr las

/-- `_ames_lane_scry_cb()`. -/
def laneScryCb (sam_u : Sam) (now ptr : ℕ) (nun : Noun) : Except Crash Result :=
  match sam_u.mem ptr with
  | none => .error .wild
  | some node =>
    let sam_u := { sam_u with foq_d := (sam_u.foq_d + 2 ^ 64 - 1) % 2 ^ 64 }
    match scryLanes nun with
    | none => scryFailed sam_u ptr node.pac_u
    | some las => scryAnswered sam_u now ptr node.pac_u las

/-- `_ames_try_forward()`, with the address of a new packet. -/
def tryForward (sam_u : Sam) (now ptr : ℕ) (lan_u : Lane) (hed_u : Head) (bod_u : Body) :
    Except Crash Result :=
  let pac_u : Panc := ⟨lan_u, hed_u, bod_u⟩
  if galaxy bod_u.rec_d then do
    let lac : Noun := .cell (.atom 0) (.atom bod_u.rec_d)
    let sam_u ← pancPush sam_u ptr pac_u
    forward sam_u ptr lac
  else
    match sam_u.fromCache now bod_u.rec_d with
    | none =>
      if 1000 < sam_u.foq_d then .ok ⟨sam_u, [], []⟩
      else do
        let sam_u ← pancPush sam_u ptr pac_u
        .ok ⟨{ sam_u with foq_d := (sam_u.foq_d + 1) % 2 ^ 64 }, [], []⟩
    | some las =>
      if las = .nul then .ok ⟨sam_u, [], []⟩
      else do
        let sam_u ← pancPush sam_u ptr pac_u
        forward sam_u ptr las

/-- The checks of `_ames_hear()`: the length, the header, the version, the body and its mug. -/
def accept (hash : ℕ → List UInt8 → ℕ) (sam_u : Sam) (hun_y : List UInt8) : Option (Head × Body) :=
  let hed_u := siftHead hun_y
  if hun_y.length < 4 ∨ ¬ hed_u.sim_o then none
  else if sam_u.fit_o ∧ sam_u.ver_y ≠ hed_u.ver_y.val then none
  else
    match siftBody hash hed_u (hun_y.drop 4) with
    | none => none
    | some bod_u => if bod_u.mug_l ≠ hed_u.mug_l.val then none else some (hed_u, bod_u)

/-- `_ames_hear()`. -/
def hear (hash : ℕ → List UInt8 → ℕ) (sam_u : Sam) (now ptr : ℕ) (lan_u : Lane)
    (hun_y : List UInt8) :
    Except Crash Result :=
  match accept hash sam_u hun_y with
  | none => .ok ⟨sam_u, [], []⟩
  | some (hed_u, bod_u) =>
    if sam_u.see_o ∧ bod_u.rec_d ≠ sam_u.who_d then tryForward sam_u now ptr lan_u hed_u bod_u
    else .ok ⟨sam_u, [], [(lan_u, value hun_y)]⟩

end Vere.King.Ames
