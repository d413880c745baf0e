import Vere.Noun.Unify

/-!
# Copying out of an inner road

`u3a_take()` and `u3a_wash()` of `pkg/noun/allocate.c`. When an inner road has ended, its heap is on
the stack of its parent, and its nouns are junior to the parent. A noun is copied to the heap of the
parent with an explicit stack. The mug of a noun that has been copied is replaced by a reference to
its copy.

The allocator is given by what it does with the boxes in use (`Allocator`).
-/

set_option autoImplicit false

namespace Vere.Noun.Take

open Shared (Ref Arm)

/-! ### The loom -/

/-- What a box holds: `u3a_atom` or `u3a_cell`, without the mug. -/
inductive Body
  | atom (buf_w : List ℕ)
  | cell (hed tel : Ref)

/-- A box that holds a noun, with its use count. -/
structure Box where
  use_w : ℕ
  mug_w : ℕ
  body : Body

/-- The boxes that hold nouns, by the offsets of the nouns. -/
abbrev Heap := ℕ → Option Box

/-- The references in a box. -/
def Body.refs : Body → List Ref
  | .atom _ => []
  | .cell hed tel => [hed, tel]

/-- The reference to a box: `u3a_to_pug()` or `u3a_to_pom()`. -/
def Body.toRef : Body → ℕ → Ref
  | .atom _, off => .pug off
  | .cell .., off => .pom off

/-- A word as a reference. -/
def refOf (w : ℕ) : Ref :=
  if w < 2 ^ 31 then .cat w
  else if w < 2 ^ 31 + 2 ^ 30 then .pug (w - 2 ^ 31)
  else .pom (w - (2 ^ 31 + 2 ^ 30))

/-- The bounds of a road. -/
structure Road where
  cap_p : ℕ
  hat_p : ℕ
  mat_p : ℕ
  rut_p : ℕ

/-- `u3a_is_north()`. -/
def Road.isNorth (rod_u : Road) : Bool := rod_u.hat_p < rod_u.cap_p

/-- `u3a_north_is_senior()` and `u3a_south_is_senior()`. -/
def Road.isSenior (rod_u : Road) (north : Bool) (off : ℕ) : Bool :=
  if north then off < rod_u.rut_p ∨ rod_u.mat_p ≤ off else off < rod_u.mat_p ∨ rod_u.rut_p ≤ off

/-- `u3a_north_is_junior()` and `u3a_south_is_junior()`. -/
def Road.isJunior (rod_u : Road) (north : Bool) (off : ℕ) : Bool :=
  if north then rod_u.cap_p ≤ off ∧ off < rod_u.mat_p else off < rod_u.cap_p ∧ rod_u.mat_p ≤ off

/-- `u3a_north_is_normal()` and `u3a_south_is_normal()`. -/
def Road.isNormal (rod_u : Road) (north : Bool) (off : ℕ) : Bool :=
  !rod_u.isSenior north off && !rod_u.isJunior north off

/-- The heap of a road. -/
def Road.Heaped (rod_u : Road) (north : Bool) (off : ℕ) : Prop :=
  if north then rod_u.rut_p ≤ off ∧ off < rod_u.hat_p else rod_u.hat_p ≤ off ∧ off < rod_u.rut_p

/-- The bounds are in order. -/
def Road.Bounded (rod_u : Road) (north : Bool) : Prop :=
  if north then rod_u.rut_p ≤ rod_u.hat_p ∧ rod_u.hat_p < rod_u.cap_p ∧ rod_u.cap_p ≤ rod_u.mat_p ∧
    0 < rod_u.rut_p ∧ rod_u.mat_p ≤ 2 ^ 30
  else rod_u.mat_p ≤ rod_u.cap_p ∧ rod_u.cap_p ≤ rod_u.hat_p ∧ rod_u.hat_p ≤ rod_u.rut_p ∧
    0 < rod_u.mat_p ∧ rod_u.rut_p ≤ 2 ^ 30

/-- `u3a_walloc()`. It returns the state of the free lists, the hat, and the new box, by the length.
-/
structure Allocator where
  Pool : Type
  walloc : Pool → Road → ℕ → Option (Pool × ℕ × ℕ)
  /-- The free lists of a road do not have the boxes in use. -/
  Holds : Pool → Road → Bool → (ℕ → Prop) → Prop
  /-- A new box is in the heap and was not in use. Boxes in use stay in the heap. -/
  walloc_holds : ∀ {pool pool' : Pool} {rod_u : Road} {north : Bool} {live : ℕ → Prop}
    {len_w hat_p off : ℕ},
    rod_u.Bounded north → Holds pool rod_u north live → len_w + 3 < 2 ^ 32 →
    walloc pool rod_u len_w = some (pool', hat_p, off) →
    { rod_u with hat_p := hat_p }.Bounded north ∧
      (∀ b, live b → { rod_u with hat_p := hat_p }.Heaped north b) ∧
      { rod_u with hat_p := hat_p }.Heaped north off ∧ ¬live off ∧
      Holds pool' { rod_u with hat_p := hat_p } north fun b ↦ live b ∨ b = off
  /-- The stack does not matter, nor boxes that are not in use. -/
  holds_mono : ∀ {pool : Pool} {rod_u : Road} {north : Bool} {live live' : ℕ → Prop} {cap_p : ℕ},
    Holds pool rod_u north live → { rod_u with cap_p := cap_p }.Bounded north →
    (∀ b, live' b → live b) →
    Holds pool { rod_u with cap_p := cap_p } north live'

/-- Why a call does not return: two bails of `u3m_bail()`, `c3__foul`, a failed `c3_assert()`, a box
that is not there or of another kind, or not enough steps. -/
inductive Stop
  | meme
  | fail
  | foul
  | assertion
  | fault
  | steps
  deriving DecidableEq

/-- `_ca_take`: the taken head, if there is one, and the old cell. -/
structure Frame where
  hed : Option Ref
  old : ℕ

/-- The loom, with the current road and the frames on its stack. -/
structure Loom (A : Allocator) where
  rod_u : Road
  pool : A.Pool
  heap : Heap
  pil_u : List Frame

variable {A : Allocator}

/-- A program that works on the loom. -/
abbrev M (A : Allocator) (α : Type) := EStateM Stop (Loom A) α

/-- Reads a box. -/
def load (off : ℕ) : M A Box := fun s ↦
  match s.heap off with
  | some box => .ok box s
  | none => .error .fault s

/-- Writes a box. -/
def store (off : ℕ) (box : Box) : M A Unit := fun s ↦
  .ok () { s with heap := Function.update s.heap off (some box) }

/-- `u3a_walloc()`. -/
def walloc (len_w : ℕ) : M A ℕ := fun s ↦
  match A.walloc s.pool s.rod_u len_w with
  | some (pool, hat_p, off) =>
    .ok off { s with pool := pool, rod_u := { s.rod_u with hat_p := hat_p } }
  | none => .error .meme s

/-- `_me_gain_use()`. -/
def gainUse (off : ℕ) : M A Unit := do
  let box ← load off
  if box.use_w = 0x7fffffff then throw .fail
  else if box.use_w = 0 then throw .foul
  else store off { box with use_w := box.use_w + 1 }

/-! ### Taking -/

/-- `u3a_push()`: a frame has two words. -/
def push (north : Bool) (fam_u : Frame) : M A Unit := fun s ↦
  let rod_u := { s.rod_u with cap_p := if north then s.rod_u.cap_p - 2 else s.rod_u.cap_p + 2 }
  if (if north then rod_u.hat_p < rod_u.cap_p else rod_u.cap_p < rod_u.hat_p) then
    .ok () { s with rod_u := rod_u, pil_u := fam_u :: s.pil_u }
  else .error .meme s

/-- `u3a_drop()`. -/
def drop (north : Bool) : M A Unit := fun s ↦
  .ok () { s with
    rod_u := { s.rod_u with cap_p := if north then s.rod_u.cap_p + 2 else s.rod_u.cap_p - 2 }
    pil_u := s.pil_u.tail }

/-- `_ca_take_atom()`. -/
def takeAtom (old : ℕ) : M A Ref := do
  let old_u ← load old
  match old_u.body with
  | .atom buf_w => do
    let new ← walloc (buf_w.length + 2)
    store new ⟨1, old_u.mug_w, .atom buf_w⟩
    store old { old_u with mug_w := (Ref.pug new).word }
    pure (.pug new)
  | .cell .. => throw .fault

/-- `_ca_take_cell()`. -/
def takeCell (old : ℕ) (hed tel : Ref) : M A Ref := do
  let old_u ← load old
  let new ← walloc 3
  store new ⟨1, old_u.mug_w, .cell hed tel⟩
  store old { old_u with mug_w := (Ref.pom new).word }
  pure (.pom new)

/-- `_ca_take_next_north()` and `_ca_take_next_south()`. -/
def takeNext (north : Bool) : ℕ → Ref → M A Ref
  | 0, _ => throw .steps
  | fuel + 1, veb =>
    match veb.off with
    | none => pure veb
    | some off => do
      let rod_u := (← get).rod_u
      if rod_u.isSenior north off then pure veb
      else if !rod_u.isJunior north off then do
        gainUse off
        pure veb
      else do
        let veb_u ← load off
        if 2 ^ 31 ≤ veb_u.mug_w then
          let nov := refOf veb_u.mug_w
          match nov.off with
          | none => throw .assertion
          | some new =>
            if rod_u.isNormal north new then do
              gainUse new
              pure nov
            else throw .assertion
        else
          match veb, veb_u.body with
          | .pom _, .cell hed _ => do
            push north ⟨none, off⟩
            takeNext north fuel hed
          | .pug _, _ => takeAtom off
          | _, _ => throw .fault

/-- The loop of `_ca_take_north()` and `_ca_take_south()`. -/
def takeLoop (north : Bool) : ℕ → Ref → M A Ref
  | 0, _ => throw .steps
  | fuel + 1, pro => do
    let s ← get
    match s.pil_u with
    | [] => pure pro
    | ⟨none, old⟩ :: pil_u => do
      let old_u ← load old
      match old_u.body with
      | .cell _ tel => do
        set { s with pil_u := ⟨some pro, old⟩ :: pil_u }
        let pro ← takeNext north fuel tel
        takeLoop north fuel pro
      | .atom _ => throw .fault
    | ⟨some hed, old⟩ :: _ => do
      let pro ← takeCell old hed pro
      drop north
      takeLoop north fuel pro

attribute [grind =] takeNext takeLoop

/-- `u3a_take()`. -/
def take (fuel : ℕ) (veb : Ref) : M A Ref := do
  let north := (← get).rod_u.isNorth
  let pro ← takeNext north fuel veb
  takeLoop north fuel pro

/-- `_me_wash_north()` and `_me_wash_south()`, and what calls them. -/
def washJunior (north : Bool) : ℕ → Ref → M A Unit
  | 0, _ => throw .steps
  | fuel + 1, som =>
    match som.off with
    | none => pure ()
    | some off => do
      if (← get).rod_u.isJunior north off then do
        let dog_u ← load off
        if dog_u.mug_w = 0 then pure ()
        else do
          store off { dog_u with mug_w := 0 }
          match som, dog_u.body with
          | .pom _, .cell hed tel => do
            washJunior north fuel hed
            washJunior north fuel tel
          | .pug _, _ => pure ()
          | _, _ => throw .fault
      else pure ()

/-- `u3a_wash()`. -/
def wash (fuel : ℕ) (som : Ref) : M A Unit := do
  washJunior (← get).rod_u.isNorth fuel som

end Vere.Noun.Take
