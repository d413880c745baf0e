import Vere.Lib.Runs
import Vere.Noun.SerialCue
import Vere.Ur.HashconsDict

/-!
# Uniqueness of references

The decoder of `pkg/ur/serial.c` over an arena, and the arenas that any sequence of operations
reaches. `_cue_next()` strips the zero bytes of an atom of more than 62 declared bits, and stores
what is left as an indirect atom without asking whether it is a direct one. Where no input declares
more than 62 bits for a smaller number (`Plain`), one noun has one reference in every arena
(`refs_unique`).
-/

set_option autoImplicit false

namespace Vere.Ur

open Lib Noun.Serial

/-! ### The decoder over an arena -/

/-- `_cue_frame_t`, of references. -/
structure NrefFrame where
  ref : Option Nref
  bits : ℕ

section Decoder

variable (mugBytes : ℕ → ℕ) (mugBoth : ℕ → ℕ → ℕ) (past : Past)

/-- The body of an atom in `_cue_next()`. -/
def Arena.cueAtom (fuel : ℕ) (r : Arena) (bsr : Bsr) (len : ℕ) : Option (Nref × Arena × Bsr) :=
  if len ≤ 62 then
    let (a, bsr) := bsr64Any bsr len
    some (.direct a, r, bsr)
  else do
    let (a, bsr) := bsrBytesAny past bsr len
    let (ref, r) ← r.coinBytesUnsafe mugBytes fuel a
    some (ref, r, bsr)

/-- `_cue_next()`, with the arena also where it fails. -/
def Arena.cueNext (fuel : ℕ) (r : Arena) (s : List NrefFrame) (bsr : Bsr)
    (dict : ℕ → Option Nref) :
    Option (Arena × Except CueRes (Nref × List NrefFrame × Bsr × (ℕ → Option Nref))) :=
  match _htag : bsrTag bsr with
  | .error res => some (r, .error res)
  | .ok (.cell, red) => Arena.cueNext fuel r (⟨none, bsr.bits⟩ :: s) red dict
  | .ok (.back, red) =>
    match bsrRubLen red with
    | .error res => some (r, .error res)
    | .ok (len, red) =>
      if 62 < len then some (r, .error .meme)
      else
        let (bak, red) := bsr64Any red len
        match dict bak with
        | none => some (r, .error .back)
        | some val => some (r, .ok (val, s, red, dict))
  | .ok (.atom, red) =>
    match bsrRubLen red with
    | .error res => some (r, .error res)
    | .ok (len, red) =>
      match r.cueAtom mugBytes past fuel red len with
      | none => none
      | some (ref, r, red) => some (r, .ok (ref, s, red, Function.update dict bsr.bits (some ref)))
termination_by bsr.rest.length
decreasing_by exact bsrTag_length_lt _htag

variable {mugBytes past}

theorem Arena.cueAtom_length_le {fuel len : ℕ} {r r' : Arena} {bsr red : Bsr} {ref : Nref}
    (hatom : r.cueAtom mugBytes past fuel bsr len = some (ref, r', red)) :
    red.rest.length ≤ bsr.rest.length := by
  unfold Arena.cueAtom at hatom
  split_ifs at hatom
  · obtain ⟨-, -, rfl⟩ := Prod.mk.inj (Option.some.inj hatom) |>.imp_right Prod.mk.inj
    exact bsr.length_skip_le _
  · obtain ⟨⟨ref', r''⟩, -, hsome⟩ := Option.bind_eq_some_iff.mp hatom
    obtain ⟨-, -, rfl⟩ := Prod.mk.inj (Option.some.inj hsome) |>.imp_right Prod.mk.inj
    exact bsrBytesAny_length_le past bsr len

theorem Arena.cueNext_length_lt {fuel : ℕ} {r r' : Arena} {s s' : List NrefFrame} {bsr red : Bsr}
    {dict dict' : ℕ → Option Nref} {ref : Nref}
    (hnext : r.cueNext mugBytes past fuel s bsr dict = some (r', .ok (ref, s', red, dict'))) :
    red.rest.length < bsr.rest.length := by
  fun_induction Arena.cueNext mugBytes past fuel r s bsr dict with
  | case2 s bsr red₁ htag ih => exact (ih hnext).trans (bsrTag_length_lt htag)
  | case6 s bsr red₁ htag len red₂ hrub hle bak red₃ hany val hdict =>
    obtain ⟨-, -, -, rfl, -⟩ := by simpa using hnext
    have hlt := bsrTag_length_lt htag
    have hrest := bsrRubLen_length_le hrub
    have hskip : red₃ = red₂.skip (min 64 len) := (congrArg Prod.snd hany).symm
    have hbody := red₂.length_skip_le (min 64 len)
    rw [hskip]
    omega
  | case9 s bsr red₁ htag len red₂ hrub ref' r'' red₃ hatom =>
    obtain ⟨-, -, -, rfl, -⟩ := by simpa using hnext
    have hlt := bsrTag_length_lt htag
    have hrest := bsrRubLen_length_le hrub
    have hbody := Arena.cueAtom_length_le hatom
    omega
  | _ => simp at hnext

variable (mugBytes past)

/-- The loop of `_cue()` over the stack. -/
def Arena.cueWalk (fuel : ℕ) (r : Arena) (ref : Nref) (s : List NrefFrame) (bsr : Bsr)
    (dict : ℕ → Option Nref) : Option (Arena × Except CueRes Nref) :=
  match s with
  | [] => some (r, .ok ref)
  | ⟨none, bits⟩ :: s =>
    match _hnext : r.cueNext mugBytes past fuel (⟨some ref, bits⟩ :: s) bsr dict with
    | none => none
    | some (r, .error res) => some (r, .error res)
    | some (r, .ok (ref, s, bsr, dict)) => Arena.cueWalk fuel r ref s bsr dict
  | ⟨some hed, bits⟩ :: s =>
    match r.cons mugBytes mugBoth fuel hed ref with
    | none => none
    | some (ref, r) => Arena.cueWalk fuel r ref s bsr (Function.update dict bits (some ref))
termination_by (bsr.rest.length, s.length)
decreasing_by
  · exact Prod.Lex.left _ _ (Arena.cueNext_length_lt _hnext)
  · exact Prod.Lex.right _ (by simp)

/-- `ur_cue()`. -/
def Arena.cue (fuel : ℕ) (r : Arena) (byt : List UInt8) : Option (Arena × Except CueRes Nref) :=
  if 0x7ffffffffffffff < byt.length then some (r, .error .meme)
  else
    match r.cueNext mugBytes past fuel [] (bsrInit byt) fun _ ↦ none with
    | none => none
    | some (r, .error res) => some (r, .error res)
    | some (r, .ok (ref, s, bsr, dict)) => r.cueWalk mugBytes mugBoth past fuel ref s bsr dict

end Decoder

/-! ### What the decoder reads -/

/-- The states in which decoding a byte string reads a tag. -/
inductive Reads (past : Past) (byt : List UInt8) : List Frame → Bsr → (ℕ → Option Noun) → Prop
  | start : Reads past byt [] (bsrInit byt) fun _ ↦ none
  | cell {s : List Frame} {bsr red : Bsr} {dict : ℕ → Option Noun}
      (hreads : Reads past byt s bsr dict) (htag : bsrTag bsr = .ok (.cell, red)) :
      Reads past byt (⟨none, bsr.bits⟩ :: s) red dict
  | next {s s₁ s' : List Frame} {bsr red : Bsr} {dict dict₁ dict' : ℕ → Option Noun} {n : Noun}
      (hreads : Reads past byt s bsr dict)
      (hnext : cueNext (urReader past) s bsr dict = .ok (n, s₁, red, dict₁))
      (hunwind : unwind n s₁ dict₁ = .inr (s', dict')) : Reads past byt s' red dict'

/-- No atom that is read is declared with more than 62 bits unless its number needs more. -/
def Plain (past : Past) (byt : List UInt8) : Prop :=
  ∀ s bsr dict red len body, Reads past byt s bsr dict → bsrTag bsr = .ok (.atom, red) →
    bsrRubLen red = .ok (len, body) → 62 < len → 2 ^ 62 ≤ (bsrBytesAny past body len).1

/-- A frame of references holds a frame of nouns. -/
structure FrameHolds (r : Root) (f : NrefFrame) (g : Frame) : Prop where
  ref : Option.Rel r.Holds f.ref g.ref
  bits : f.bits = g.bits

/-- A stack and a dictionary of references hold those of nouns. -/
structure StackHolds (r : Root) (s : List NrefFrame) (dict : ℕ → Option Nref) (ns : List Frame)
    (ndict : ℕ → Option Noun) : Prop where
  frames : List.Forall₂ (FrameHolds r) s ns
  dict : ∀ bits, Option.Rel r.Holds (dict bits) (ndict bits)

section Simulation

variable {mugBytes : ℕ → ℕ} {mugBoth : ℕ → ℕ → ℕ} {past : Past} {fuel len : ℕ} {r r' : Arena}
  {s : List NrefFrame} {ns : List Frame} {bsr red : Bsr} {dict : ℕ → Option Nref}
  {ndict : ℕ → Option Noun} {ref : Nref} {n : Noun} {byt : List UInt8}

theorem rel_mono {r r' : Root} (hext : r.Extends r') {x : Option Nref} {y : Option Noun}
    (hrel : Option.Rel r.Holds x y) : Option.Rel r'.Holds x y := by
  cases hrel with
  | some hholds => exact .some (hholds.mono hext)
  | none => exact .none

theorem StackHolds.mono {r r' : Root} (hext : r.Extends r')
    (hholds : StackHolds r s dict ns ndict) :
    StackHolds r' s dict ns ndict :=
  ⟨hholds.frames.imp fun _ _ hframe ↦ ⟨rel_mono hext hframe.ref, hframe.bits⟩,
    fun bits ↦ rel_mono hext (hholds.dict bits)⟩

theorem StackHolds.update {r : Root} (hholds : StackHolds r s dict ns ndict) (href : r.Holds ref n)
    (bits : ℕ) : StackHolds r s (Function.update dict bits (some ref)) ns
      (Function.update ndict bits (some n)) := by
  refine ⟨hholds.frames, fun bits' ↦ ?_⟩
  by_cases heq : bits' = bits
  · subst heq
    rw [Function.update_self, Function.update_self]
    exact .some href
  · rw [Function.update_of_ne heq, Function.update_of_ne heq]
    exact hholds.dict bits'

/-- The arena after an operation: it is as it should be, and holds what it held. -/
structure Grown (mugBytes : ℕ → ℕ) (mugBoth : ℕ → ℕ → ℕ) (r r' : Arena) : Prop where
  arena : ArenaOk mugBytes mugBoth r'
  root : r'.root.Ok
  extends_ : r.root.Extends r'.root

theorem Grown.trans {r'' : Arena} (hfst : Grown mugBytes mugBoth r r')
    (hsnd : Grown mugBytes mugBoth r' r'') : Grown mugBytes mugBoth r r'' :=
  ⟨hsnd.arena, hsnd.root, hfst.extends_.trans hsnd.extends_⟩

theorem grown_coinBytesUnsafe (hok : Grown mugBytes mugBoth r r) {a : ℕ} (hlarge : 2 ^ 62 ≤ a)
    (hcoin : r.coinBytesUnsafe mugBytes fuel a = some (ref, r')) :
    Grown mugBytes mugBoth r r' ∧ r'.root.Holds ref (.atom a) := by
  obtain ⟨heq, harena⟩ := hok.arena.coinBytesUnsafe hcoin
  have hcoined := coined_bytesUnsafe hok.root hlarge
  rw [heq] at hcoined
  exact ⟨⟨harena, hcoined.ok, hcoined.extends_⟩, hcoined.holds⟩

theorem grown_cons (hok : Grown mugBytes mugBoth r r) {hed tal : Nref} {h t : Noun}
    (hhed : r.root.Holds hed h) (htal : r.root.Holds tal t)
    (hcons : r.cons mugBytes mugBoth fuel hed tal = some (ref, r')) :
    Grown mugBytes mugBoth r r' ∧ r'.root.Holds ref (.cell h t) := by
  obtain ⟨heq, harena⟩ := hok.arena.cons hhed.below_length htal.below_length hcons
  have hcoined := coined_cons hok.root hhed htal
  rw [heq] at hcoined
  exact ⟨⟨harena, hcoined.ok, hcoined.extends_⟩, hcoined.holds⟩

theorem urReader_atom (past : Past) (bsr : Bsr) (len : ℕ) : (urReader past).atom bsr len =
    .ok (if len ≤ 62 then bsr64Any bsr len else bsrBytesAny past bsr len) := by
  unfold Reader.atom urReader mapReader
  split_ifs with hle hrefuse
  · rfl
  · simp at hrefuse
  · rfl

theorem grown_cueAtom (hok : Grown mugBytes mugBoth r r)
    (hlarge : 62 < len → 2 ^ 62 ≤ (bsrBytesAny past bsr len).1)
    (hatom : r.cueAtom mugBytes past fuel bsr len = some (ref, r', red)) :
    Grown mugBytes mugBoth r r' ∧
      ∃ a, (urReader past).atom bsr len = .ok (a, red) ∧ r'.root.Holds ref (.atom a) := by
  rw [urReader_atom]
  unfold Arena.cueAtom at hatom
  split_ifs at hatom with hle
  · rw [if_pos hle]
    obtain ⟨rfl, rfl, rfl⟩ := Prod.mk.inj (Option.some.inj hatom) |>.imp_right Prod.mk.inj
    exact ⟨hok, _, rfl, .direct (Bits.ofBits_take_lt (Nat.min_le_right 64 len |>.trans hle))⟩
  · rw [if_neg hle]
    replace hlarge := hlarge (by omega)
    generalize bsrBytesAny past bsr len = got at hlarge hatom ⊢
    obtain ⟨⟨ref', r''⟩, hcoin, hsome⟩ := Option.bind_eq_some_iff.mp hatom
    obtain ⟨rfl, rfl, rfl⟩ := Prod.mk.inj (Option.some.inj hsome) |>.imp_right Prod.mk.inj
    obtain ⟨hgrown, hholds⟩ := grown_coinBytesUnsafe hok hlarge hcoin
    exact ⟨hgrown, _, rfl, hholds⟩

/-- The decoder over the arena reads what the decoder of nouns reads. -/
theorem grown_cueNext (hplain : Plain past byt) (hok : Grown mugBytes mugBoth r r)
    (hstack : StackHolds r.root s dict ns ndict) (hreads : Reads past byt ns bsr ndict)
    {res : Except CueRes (Nref × List NrefFrame × Bsr × (ℕ → Option Nref))}
    (hnext : r.cueNext mugBytes past fuel s bsr dict = some (r', res)) :
    Grown mugBytes mugBoth r r' ∧ ∀ ref s' red dict', res = .ok (ref, s', red, dict') →
      ∃ n ns' ndict', cueNext (urReader past) ns bsr ndict = .ok (n, ns', red, ndict') ∧
        r'.root.Holds ref n ∧ StackHolds r'.root s' dict' ns' ndict' := by
  fun_induction Arena.cueNext mugBytes past fuel r s bsr dict generalizing ns with
  | case1 s bsr res' htag =>
    obtain ⟨rfl, rfl⟩ := Prod.mk.inj (Option.some.inj hnext)
    exact ⟨hok, fun _ _ _ _ hres ↦ by simp at hres⟩
  | case2 s bsr red₁ htag ih =>
    have hstack' : StackHolds r.root (⟨none, bsr.bits⟩ :: s) dict (⟨none, bsr.bits⟩ :: ns) ndict :=
      ⟨.cons ⟨.none, rfl⟩ hstack.frames, hstack.dict⟩
    obtain ⟨hgrown, hread⟩ := ih hstack' (.cell hreads htag) hnext
    refine ⟨hgrown, fun ref s' red dict' hres ↦ ?_⟩
    rw [cueNext_of_cell _ ns ndict htag]
    exact hread ref s' red dict' hres
  | case6 s bsr red₁ htag len red₂ hrub hle bak red₃ hany val hdict =>
    obtain ⟨rfl, rfl⟩ := Prod.mk.inj (Option.some.inj hnext)
    refine ⟨hok, fun ref s' red dict' hres ↦ ?_⟩
    obtain ⟨rfl, rfl, rfl, rfl⟩ := by simpa using hres
    have hrel := hstack.dict bak
    rw [hdict] at hrel
    generalize hndict : ndict bak = y at hrel
    cases hrel with
    | some hholds =>
      refine ⟨_, ns, ndict, ?_, hholds, hstack⟩
      rw [cueNext_of_back _ ns ndict htag, hrub]
      simp only [hle, if_false, hany, mapReader_get, hndict]
  | case9 s bsr red₁ htag len red₂ hrub ref' r'' red₃ hatom =>
    obtain ⟨rfl, rfl⟩ := Prod.mk.inj (Option.some.inj hnext)
    obtain ⟨hgrown, a, hread, hholds⟩ :=
      grown_cueAtom hok (hplain ns bsr ndict red₁ len red₂ hreads htag hrub) hatom
    refine ⟨hgrown, fun ref s' red dict' hres ↦ ?_⟩
    obtain ⟨rfl, rfl, rfl, rfl⟩ := by simpa using hres
    refine ⟨.atom a, ns, _, ?_, hholds, (hstack.mono hgrown.extends_).update hholds bsr.bits⟩
    rw [cueNext_of_atom _ ns ndict htag, hrub]
    simp only [hread, mapReader_put]
  | case8 => simp at hnext
  | _ =>
    obtain ⟨rfl, rfl⟩ := Prod.mk.inj (Option.some.inj hnext)
    exact ⟨hok, fun _ _ _ _ hres ↦ by simp at hres⟩

theorem StackHolds.head {r : Root} {bits : ℕ}
    (hstack : StackHolds r (⟨none, bits⟩ :: s) dict ns ndict) :
    ∃ ns', ns = ⟨none, bits⟩ :: ns' ∧ StackHolds r s dict ns' ndict := by
  obtain ⟨hframes, hdict⟩ := hstack
  cases hframes with
  | @cons _ g _ ns' hframe hframes =>
    obtain ⟨x, bits'⟩ := g
    obtain ⟨hrel, rfl⟩ := hframe
    cases hrel
    exact ⟨ns', rfl, hframes, hdict⟩

theorem StackHolds.tail {r : Root} {bits : ℕ} {hed : Nref}
    (hstack : StackHolds r (⟨some hed, bits⟩ :: s) dict ns ndict) :
    ∃ h ns', ns = ⟨some h, bits⟩ :: ns' ∧ r.Holds hed h ∧ StackHolds r s dict ns' ndict := by
  obtain ⟨hframes, hdict⟩ := hstack
  cases hframes with
  | @cons _ g _ ns' hframe hframes =>
    obtain ⟨x, bits'⟩ := g
    obtain ⟨hrel, rfl⟩ := hframe
    cases hrel with
    | some hholds => exact ⟨_, ns', rfl, hholds, hframes, hdict⟩

theorem grown_cueWalk (hplain : Plain past byt) (hok : Grown mugBytes mugBoth r r)
    (href : r.root.Holds ref n) (hstack : StackHolds r.root s dict ns ndict)
    (hreads : ∀ ns' ndict', unwind n ns ndict = .inr (ns', ndict') → Reads past byt ns' bsr ndict')
    {res : Except CueRes Nref}
    (hwalk : r.cueWalk mugBytes mugBoth past fuel ref s bsr dict = some (r', res)) :
    Grown mugBytes mugBoth r r' := by
  fun_induction Arena.cueWalk mugBytes mugBoth past fuel r ref s bsr dict
    generalizing ns ndict n with
  | case1 r ref bsr dict =>
    obtain ⟨rfl, rfl⟩ := Prod.mk.inj (Option.some.inj hwalk)
    exact hok
  | case2 => simp at hwalk
  | case3 r ref bsr dict bits s r₁ res' hnext =>
    obtain ⟨rfl, rfl⟩ := Prod.mk.inj (Option.some.inj hwalk)
    obtain ⟨ns, rfl, hrest⟩ := hstack.head
    have hvisit := hreads _ _ rfl
    exact (grown_cueNext hplain hok ⟨.cons ⟨.some href, rfl⟩ hrest.frames, hrest.dict⟩ hvisit
      hnext).1
  | case4 r ref bsr dict bits s r₁ ref₁ s₁ bsr₁ dict₁ hnext ih =>
    obtain ⟨ns, rfl, hrest⟩ := hstack.head
    have hvisit := hreads _ _ rfl
    obtain ⟨hgrown, hread⟩ := grown_cueNext hplain hok
      ⟨.cons ⟨.some href, rfl⟩ hrest.frames, hrest.dict⟩ hvisit hnext
    obtain ⟨n₁, ns₁, ndict₁, hnoun, href₁, hstack₁⟩ := hread ref₁ s₁ bsr₁ dict₁ rfl
    refine hgrown.trans (ih ⟨hgrown.arena, hgrown.root, .refl _⟩ href₁ hstack₁ ?_ hwalk)
    exact fun ns' ndict' hunwind ↦ .next hvisit hnoun hunwind
  | case5 => simp at hwalk
  | case6 r ref bsr dict hed bits s ref₁ r₁ hcons ih =>
    obtain ⟨h, ns, rfl, hhed, hrest⟩ := hstack.tail
    obtain ⟨hgrown, hcell⟩ := grown_cons hok hhed href hcons
    exact hgrown.trans (ih ⟨hgrown.arena, hgrown.root, .refl _⟩ hcell
      ((hrest.mono hgrown.extends_).update hcell bits) hreads hwalk)

theorem grown_cue (hplain : Plain past byt) (hok : Grown mugBytes mugBoth r r)
    {res : Except CueRes Nref} (hcue : r.cue mugBytes mugBoth past fuel byt = some (r', res)) :
    Grown mugBytes mugBoth r r' := by
  have hstack : StackHolds r.root [] (fun _ ↦ none) [] fun _ ↦ none := ⟨.nil, fun _ ↦ .none⟩
  unfold Arena.cue at hcue
  split_ifs at hcue
  · obtain ⟨rfl, rfl⟩ := Prod.mk.inj (Option.some.inj hcue)
    exact hok
  split at hcue
  · simp at hcue
  · rename_i r₁ res' hnext
    obtain ⟨rfl, rfl⟩ := Prod.mk.inj (Option.some.inj hcue)
    exact (grown_cueNext hplain hok hstack .start hnext).1
  · rename_i r₁ ref s bsr dict hnext
    obtain ⟨hgrown, hread⟩ := grown_cueNext hplain hok hstack .start hnext
    obtain ⟨n, ns, ndict, hnoun, href, hstack'⟩ := hread ref s bsr dict rfl
    refine hgrown.trans (grown_cueWalk hplain ⟨hgrown.arena, hgrown.root, .refl _⟩ href hstack' ?_
      hcue)
    exact fun ns' ndict' hunwind ↦ .next .start hnoun hunwind

end Simulation

/-! ### Runs -/

/-- The operations on an arena. -/
inductive ArenaOp
  | coinBytes (front : UInt8) (byt : List UInt8)
  | coin64 (n : UInt64)
  | cons (hed tal : Nref)
  | cue (byt : List UInt8)

/-- The references that an arena gives. -/
def Root.Valid (r : Root) (ref : Nref) : Prop := r.Below r.cells.length ref

instance (r : Root) : ∀ ref, Decidable (r.Valid ref)
  | .direct a => inferInstanceAs (Decidable (a < 2 ^ 62))
  | .iatom idx => inferInstanceAs (Decidable (idx < r.atoms.length))
  | .icell idx => inferInstanceAs (Decidable (idx < r.cells.length))

section Runs

variable (mugBytes : ℕ → ℕ) (mugBoth : ℕ → ℕ → ℕ) (past : Past) (wide : ℕ → Nref)

/-- An operation, with the fuel for the growing of the dictionaries. Cells are made of references
that the arena has given. -/
def arenaStep (r : Arena) (op : ℕ × ArenaOp) : Option Arena :=
  match op with
  | (fuel, .coinBytes front byt) => (r.coinBytes mugBytes wide front fuel byt).map Prod.snd
  | (fuel, .coin64 n) => (r.coin64 mugBytes fuel n.toNat).map Prod.snd
  | (fuel, .cons hed tal) =>
    if r.root.Valid hed ∧ r.root.Valid tal then
      (r.cons mugBytes mugBoth fuel hed tal).map Prod.snd
    else none
  | (fuel, .cue byt) => (r.cue mugBytes mugBoth past fuel byt).map Prod.fst

/-- The inputs of the decoder are plain, and no byte string without a value is coined, unless the
count of its bits overflows to zero. -/
def ArenaOp.Plain : ArenaOp → Prop
  | .coinBytes front byt => Bytes.value byt ≠ 0 ∨ 0x80 ≤ front
  | .cue byt => Ur.Plain past byt
  | _ => True

variable {mugBytes mugBoth past wide}

/-- What is not direct by its count of bits has more than 62. -/
theorem le_of_met0 {front : UInt8} {a : ℕ} (hplain : a ≠ 0 ∨ 0x80 ≤ front)
    (hsize : ¬ met0BytesUnsafe front (Bytes.bytesOf a) ≤ 62) : 2 ^ 62 ≤ a := by
  by_cases hne : a = 0
  · subst hne
    exact absurd ((met0_nil front).mpr (hplain.resolve_left fun hzero ↦ hzero rfl)) hsize
  · rw [UInt64.le_iff_toNat_le, met0_bytesOf front hne] at hsize
    have hbound : (62 : UInt64).toNat = 62 := rfl
    have hmany : 62 < a.size := by
      have hmod := Nat.mod_le a.size (2 ^ 64)
      omega
    exact Nat.lt_size.mp hmany

theorem grown_arenaStep {r r' : Arena} {op : ℕ × ArenaOp} (hok : Grown mugBytes mugBoth r r)
    (hplain : op.2.Plain past)
    (hstep : arenaStep mugBytes mugBoth past wide r op = some r') :
    Grown mugBytes mugBoth r r' := by
  obtain ⟨fuel, op⟩ := op
  cases op with
  | coinBytes front byt =>
    obtain ⟨⟨ref, r₁⟩, hcoin, rfl⟩ := Option.map_eq_some_iff.mp hstep
    unfold Arena.coinBytes at hcoin
    dsimp only at hcoin
    rw [stripZeros_eq, Bytes.value_bytesOf] at hcoin
    by_cases hsize : met0BytesUnsafe front (Bytes.bytesOf (Bytes.value byt)) ≤ 62
    · rw [if_pos hsize] at hcoin
      obtain ⟨-, rfl⟩ := Prod.mk.inj (Option.some.inj hcoin)
      exact hok
    · rw [if_neg hsize] at hcoin
      exact (grown_coinBytesUnsafe hok (le_of_met0 hplain hsize) hcoin).1
  | coin64 n =>
    obtain ⟨⟨ref, r₁⟩, hcoin, rfl⟩ := Option.map_eq_some_iff.mp hstep
    unfold Arena.coin64 at hcoin
    split_ifs at hcoin with hlt
    · obtain ⟨-, rfl⟩ := Prod.mk.inj (Option.some.inj hcoin)
      exact hok
    · exact (grown_coinBytesUnsafe hok (by omega) hcoin).1
  | cons hed tal =>
    replace hstep : (if r.root.Valid hed ∧ r.root.Valid tal then
      (r.cons mugBytes mugBoth fuel hed tal).map Prod.snd else none) = some r' := hstep
    split_ifs at hstep with hvalid
    obtain ⟨⟨ref, r₁⟩, hcons, rfl⟩ := Option.map_eq_some_iff.mp hstep
    obtain ⟨h, hhed⟩ := hok.root.exists_holds hvalid.1
    obtain ⟨t, htal⟩ := hok.root.exists_holds hvalid.2
    exact (grown_cons hok hhed htal hcons).1
  | cue byt =>
    obtain ⟨⟨r₁, res⟩, hcue, rfl⟩ := Option.map_eq_some_iff.mp hstep
    exact grown_cue hplain hok hcue

/-- In every run whose inputs are plain, references are equal when the nouns are, and what is stored
as an indirect atom is not a direct one. -/
theorem refs_unique {r : Arena}
    (hreach : Runs.Reach (arenaStep mugBytes mugBoth past wide) (fun _ op ↦ op.2.Plain past)
      arenaInit r) :
    (∀ ref ref', r.root.Valid ref → r.root.Valid ref' →
      (r.root.noun ref = r.root.noun ref' ↔ ref = ref')) ∧ ∀ a ∈ r.root.atoms, 2 ^ 62 ≤ a := by
  have hgrown : Grown mugBytes mugBoth r r := by
    refine hreach.invariant (P := fun r ↦ Grown mugBytes mugBoth r r) ?_ ?_
    · exact ⟨arenaOk_init, ok_rootInit, .refl _⟩
    · intro r op r' hok hplain hstep
      have hgrown := grown_arenaStep hok hplain hstep
      exact ⟨hgrown.arena, hgrown.root, .refl _⟩
  refine ⟨fun ref ref' hvalid hvalid' ↦ ?_, hgrown.root.atoms_large⟩
  obtain ⟨n, hn⟩ := hgrown.root.exists_holds hvalid
  obtain ⟨n', hn'⟩ := hgrown.root.exists_holds hvalid'
  rw [hgrown.root.noun_eq hn, hgrown.root.noun_eq hn']
  constructor
  · rintro rfl
    exact hgrown.root.ref_unique hn hn'
  · rintro rfl
    exact hn.unique hn'

theorem Arena.cueNext_of_cell (fuel : ℕ) (r : Arena) (s : List NrefFrame) {bsr red : Bsr}
    (dict : ℕ → Option Nref) (htag : bsrTag bsr = .ok (.cell, red)) :
    r.cueNext mugBytes past fuel s bsr dict =
      r.cueNext mugBytes past fuel (⟨none, bsr.bits⟩ :: s) red dict := by
  rw [Arena.cueNext]
  split <;> simp_all

theorem Arena.cueNext_of_atom {fuel len : ℕ} {r r' : Arena} (s : List NrefFrame)
    {bsr red body red' : Bsr} {ref : Nref} (dict : ℕ → Option Nref)
    (htag : bsrTag bsr = .ok (.atom, red)) (hrub : bsrRubLen red = .ok (len, body))
    (hatom : r.cueAtom mugBytes past fuel body len = some (ref, r', red')) :
    r.cueNext mugBytes past fuel s bsr dict =
      some (r', .ok (ref, s, red', Function.update dict bsr.bits (some ref))) := by
  rw [Arena.cueNext]
  split <;> simp_all

theorem Arena.cueWalk_of_head {fuel bits : ℕ} {r r' : Arena} {ref ref' : Nref}
    {s s' : List NrefFrame} {bsr bsr' : Bsr} {dict dict' : ℕ → Option Nref}
    (hnext : r.cueNext mugBytes past fuel (⟨some ref, bits⟩ :: s) bsr dict =
      some (r', .ok (ref', s', bsr', dict'))) :
    r.cueWalk mugBytes mugBoth past fuel ref (⟨none, bits⟩ :: s) bsr dict =
      r'.cueWalk mugBytes mugBoth past fuel ref' s' bsr' dict' := by
  rw [Arena.cueWalk]
  split <;> simp_all

theorem Arena.cueWalk_of_tail {fuel bits : ℕ} {r r' : Arena} {hed ref ref' : Nref}
    {s : List NrefFrame} {bsr : Bsr} {dict : ℕ → Option Nref}
    (hcons : r.cons mugBytes mugBoth fuel hed ref = some (ref', r')) :
    r.cueWalk mugBytes mugBoth past fuel ref (⟨some hed, bits⟩ :: s) bsr dict =
      r'.cueWalk mugBytes mugBoth past fuel ref' s bsr
        (Function.update dict bits (some ref')) := by
  rw [Arena.cueWalk, hcons]

theorem tag_zero : bsrTag (bsrInit [2]) = .ok (.atom, (bsrInit [2]).skip 1) := rfl

theorem rub_zero : bsrRubLen ((bsrInit [2]).skip 1) = .ok (0, (bsrInit [2]).skip 2) := rfl

/-- The jam of zero is plain: it is read in one state. -/
theorem plain_zero : Plain past [2] := by
  have hone : ∀ s bsr dict, Reads past [2] s bsr dict → s = [] ∧ bsr = bsrInit [2] := by
    intro s bsr dict hreads
    induction hreads with
    | start => exact ⟨rfl, rfl⟩
    | cell _ hcell ih =>
      obtain ⟨-, rfl⟩ := ih
      simp [tag_zero] at hcell
    | @next s s₁ s' bsr red dict dict₁ dict' n _ hnext hunwind ih =>
      obtain ⟨rfl, rfl⟩ := ih
      rw [cueNext_of_atom _ _ _ tag_zero, rub_zero] at hnext
      simp only [urReader_atom, mapReader_put, Except.ok.injEq, Prod.mk.injEq] at hnext
      obtain ⟨rfl, rfl, -⟩ := hnext
      simp [unwind] at hunwind
  intro s bsr dict red len body hreads htag hrub hlen
  obtain ⟨-, rfl⟩ := hone s bsr dict hreads
  obtain ⟨-, rfl⟩ := by simpa [tag_zero] using htag
  obtain ⟨rfl, -⟩ := by simpa [rub_zero] using hrub
  omega

theorem cue_zero (r : Arena) :
    r.cue mugBytes mugBoth past 1 [2] = some (r, .ok (.direct 0)) := by
  unfold Arena.cue
  rw [if_neg (by decide), Arena.cueNext_of_atom [] _ tag_zero rub_zero rfl]
  dsimp only
  rw [Arena.cueWalk]
  rfl

/-- Decoding zero, storing a large atom and consing it. -/
theorem refs_unique_run : ∃ r, Runs.Reach
      (arenaStep (· % 2 ^ 31) (fun h t ↦ (h + t) % 2 ^ 31) (fun _ _ ↦ (0, 0, 0)) .direct)
      (fun _ op ↦ op.2.Plain fun _ _ ↦ (0, 0, 0)) arenaInit r ∧
    r.root = ⟨[2 ^ 63], [(.iatom 0, .direct 5)]⟩ ∧
    ∀ ref ref', r.root.Valid ref → r.root.Valid ref' →
      (r.root.noun ref = r.root.noun ref' ↔ ref = ref') := by
  generalize hstep : arenaStep (· % 2 ^ 31) (fun h t ↦ (h + t) % 2 ^ 31) (fun _ _ ↦ (0, 0, 0))
    .direct = step
  have hzero : step arenaInit (1, .cue [2]) = some arenaInit := by
    rw [← hstep]
    exact congrArg (Option.map Prod.fst) (cue_zero _)
  have hcoin : step arenaInit (1, .coin64 0x8000000000000000) =
      some (arenaInit.appendAtom (2 ^ 63) 0) := by
    rw [← hstep, arenaStep, show UInt64.toNat 0x8000000000000000 = 2 ^ 63 from rfl, Arena.coin64,
      if_neg (by decide)]
    rfl
  have hcons : step (arenaInit.appendAtom (2 ^ 63) 0) (1, .cons (.iatom 0) (.direct 5)) =
      some ((arenaInit.appendAtom (2 ^ 63) 0).appendCell (.iatom 0) (.direct 5) 5) := by
    rw [← hstep, arenaStep, if_pos (by decide)]
    rfl
  have hreach : Runs.Reach step (fun _ op ↦ op.2.Plain fun _ _ ↦ (0, 0, 0)) arenaInit _ :=
    .step (1, .cons (.iatom 0) (.direct 5))
      (.step (1, .coin64 0x8000000000000000) (.step (1, .cue [2]) .refl plain_zero hzero) trivial
        hcoin) trivial hcons
  rw [← hstep] at hreach ⊢
  exact ⟨_, hreach, rfl, (refs_unique hreach).1⟩

/-- A cell of five, declared with 64 bits, and five. -/
def overlong : List UInt8 := [1, 4, 10, 0, 0, 0, 0, 0, 0, 0, 0x70, 1]

/-- The reader of `overlong` at a bit. -/
def overlongAt (bits : ℕ) : Bsr := ⟨bits, (Bits.unpack overlong).drop bits⟩

variable (mugBytes mugBoth past) in
theorem cue_overlong :
    ∃ r, arenaInit.cue mugBytes mugBoth past 1 overlong = some (r, .ok (.icell 0)) ∧
    r.root = ⟨[5], [(.iatom 0, .direct 5)]⟩ := by
  have hcell : bsrTag (bsrInit overlong) = .ok (.cell, overlongAt 2) := by rfl
  have hlong : bsrTag (overlongAt 2) = .ok (.atom, overlongAt 3) := by rfl
  have hlongLen : bsrRubLen (overlongAt 3) = .ok (64, overlongAt 17) := by rfl
  have hshort : bsrTag (overlongAt 81) = .ok (.atom, overlongAt 82) := by rfl
  have hshortLen : bsrRubLen (overlongAt 82) = .ok (3, overlongAt 86) := by rfl
  have hlongAtom : arenaInit.cueAtom mugBytes past 1 (overlongAt 17) 64 =
      some (.iatom 0, arenaInit.appendAtom 5 (mugBytes 5), overlongAt 81) := by rfl
  have hshortAtom : (arenaInit.appendAtom 5 (mugBytes 5)).cueAtom mugBytes past 1
    (overlongAt 86) 3 =
      some (.direct 5, arenaInit.appendAtom 5 (mugBytes 5), overlongAt 89) := by rfl
  have hcons : (arenaInit.appendAtom 5 (mugBytes 5)).cons mugBytes mugBoth 1 (.iatom 0)
    (.direct 5) =
      some (.icell 0, (arenaInit.appendAtom 5 (mugBytes 5)).appendCell (.iatom 0) (.direct 5)
        (mugBoth (mugBytes 5) (mugBytes 5))) := by rfl
  unfold Arena.cue
  rw [if_neg (by decide), Arena.cueNext_of_cell 1 _ _ _ hcell,
    Arena.cueNext_of_atom _ _ hlong hlongLen hlongAtom]
  refine ⟨(arenaInit.appendAtom 5 (mugBytes 5)).appendCell (.iatom 0) (.direct 5)
    (mugBoth (mugBytes 5) (mugBytes 5)), ?_, rfl⟩
  dsimp only
  rw [Arena.cueWalk_of_head (Arena.cueNext_of_atom _ _ hshort hshortLen hshortAtom),
    Arena.cueWalk_of_tail hcons, Arena.cueWalk]

end Runs

/-- Both references of the cell hold five. -/
theorem cue_splits_five : arenaInit.root.atoms = [] ∧
    ∀ (mugBytes : ℕ → ℕ) (mugBoth : ℕ → ℕ → ℕ) (past : Past) (wide : ℕ → Nref),
      ∃ r, Runs.Reach (arenaStep mugBytes mugBoth past wide) (fun _ _ ↦ True) arenaInit r ∧
        r.root.Valid (.iatom 0) ∧ r.root.Valid (.direct 5) ∧
        r.root.noun (.iatom 0) = r.root.noun (.direct 5) ∧ 5 ∈ r.root.atoms := by
  refine ⟨rfl, fun mugBytes mugBoth past wide ↦ ?_⟩
  obtain ⟨r, hcue, hroot⟩ := cue_overlong mugBytes mugBoth past
  refine ⟨r, .step (1, .cue overlong) .refl trivial ?_, ?_⟩
  · show (arenaInit.cue mugBytes mugBoth past 1 overlong).map Prod.fst = some r
    rw [hcue]
    rfl
  · rw [hroot]
    exact ⟨by decide, by decide, rfl, by decide⟩

end Vere.Ur
