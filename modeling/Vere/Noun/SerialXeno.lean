import Vere.Noun.Murmur
import Vere.Ur.SerialTest

/-!
# The frames of the off-loom decoder

`_cs_cue_xeno()` of `pkg/noun/serial.c`, with the frames on the road stack and the pointer `fam_u`
to one of them, which is not set before the first noun has been read. `Holds` says that the stack
has the frames of a list, and `xenoNext_spec` and `xenoLoop_spec` that the loops do on the stack
what the machine of `ur_cue()` does on the list.

`cueXeno_iff` says when the decoder ends as it should (`Clean`): a stream that is too long gives
`c3n`, and where the first noun cannot be read behind cells that are open already, the frames are
looked for at a pointer that is not set.
-/

set_option autoImplicit false

namespace Vere.Noun.CueXeno

open Lib.Bytes Lib.Fuel Ur.BitReader
open Relation (ReflTransGen TransGen)

/-! ### The road stack -/

/-- The dictionary, which is off the loom. -/
abbrev Dict := CueDict Noun

/-- `u3a_pile`: the frames by their position, `none` where nothing has been written, and how many
there are. -/
structure Pile where
  slot : ℕ → Option (CueFrame Noun)
  fill : ℕ

/-- `u3a_push()`, with the frame that is then written. -/
def Pile.push (pil_u : Pile) (fam : CueFrame Noun) : Pile :=
  ⟨Function.update pil_u.slot pil_u.fill (some fam), pil_u.fill + 1⟩

/-- `u3a_pop()`. -/
def Pile.pop (pil_u : Pile) : Pile := { pil_u with fill := pil_u.fill - 1 }

/-- `u3a_peek()`: the frame with so many up to it. -/
def Pile.peek (pil_u : Pile) : ℕ := pil_u.fill

/-- A frame, if the pointer has been set and there is one that has been written. -/
def Pile.read (pil_u : Pile) (fam_u : Option ℕ) : Option (CueFrame Noun) :=
  match fam_u with
  | some (pos + 1) => if pos < pil_u.fill then pil_u.slot pos else none
  | _ => none

/-- Writing a frame. -/
def Pile.write (pil_u : Pile) (fam_u : Option ℕ) (fam : CueFrame Noun) : Pile :=
  match fam_u with
  | some (pos + 1) => { pil_u with slot := Function.update pil_u.slot pos (some fam) }
  | _ => pil_u

/-! ### The decoder -/

/-- `(len_d + 0x7) >> 3`. -/
def bytD (len_d : ℕ) : ℕ := (len_d + 7) % 2 ^ 64 / 8

/-- The body of an atom in `_cs_cue_xeno_next()`, where `slab` says whether `u3i_slab_init()` gets
so many bytes of the loom at that point of the stream, and bails otherwise. -/
def xenoReader (mug : UInt64 → ℕ) (slab : Bsr → ℕ → Bool) : Reader Noun where
  atom mem red_u len_d :=
    if 31 ≥ len_d then
      let (val, red_u) := bsr32Any mem red_u len_d
      .ok (.atom val, red_u)
    else
      let byt_d := bytD len_d
      if 0xffffffff < byt_d then .error (.fail .meme)
      else if slab red_u byt_d then
        let (buf_y, red_u) := bsrBytesAny mem red_u len_d fun _ ↦ 0
        .ok (.atom (value ((List.range byt_d).map buf_y)), red_u)
      else .error .oom
  cons := .cell
  mug := mug

/-- What `_cs_cue_xeno_next()` gives. -/
abbrev Read := Except Stop (Noun × Bsr × Dict)

/-- The state of the loop of `_cs_cue_xeno()`. -/
structure Xeno where
  pil_u : Pile
  fam_u : Option ℕ
  res_e : Read

/-- How `_cs_cue_xeno()` ends: with a noun or `u3_none` and the nouns it has released, with a bail
or a crash, or with the read of a frame that was not written. -/
inductive Outcome
  | gives (som : Option Noun) (freed : List Noun)
  | stop
  | wild

section Decoder

variable (mug : UInt64 → ℕ) (slab : Bsr → ℕ → Bool) (mem : ℕ → UInt8)

/-- `_cs_cue_xeno_next()`. -/
def xenoNext : ℕ → Pile → Bsr → Dict → Option (Pile × Read)
  | 0, _, _, _ => none
  | fuel + 1, pil_u, red_u, dic_u =>
    match bsrTag mem red_u with
    | (.error res_e, _) => some (pil_u, .error (.fail res_e))
    | (.ok .cell, red) => xenoNext fuel (pil_u.push ⟨none, red_u.bits⟩) red dic_u
    | (.ok .back, red) => some (pil_u, cueBack mem red dic_u)
    | (.ok .atom, red) => some (pil_u, cueAtom (xenoReader mug slab) mem red_u.bits red dic_u)

/-- The body of the loop of `_cs_cue_xeno()`, or `none` where there is no frame to read. -/
def xenoTurn (fuel : ℕ) (pil_u : Pile) (fam_u : Option ℕ) (ref : Noun) (red_u : Bsr)
    (dic_u : Dict) :
    Option (Option Xeno) :=
  match pil_u.read fam_u with
  | none => some none
  | some fam =>
    match fam.ref with
    | none =>
      match xenoNext mug slab mem fuel (pil_u.write fam_u ⟨some ref, fam.bits⟩) red_u dic_u with
      | none => none
      | some (pil_u, res_e) => some (some ⟨pil_u, some pil_u.peek, res_e⟩)
    | some hed =>
      let ref := .cell hed ref
      match dictPut (xenoReader mug slab) dic_u fam.bits ref with
      | .error stop => some (some ⟨pil_u, fam_u, .error stop⟩)
      | .ok dic_u => some (some ⟨pil_u.pop, some pil_u.pop.peek, .ok (ref, red_u, dic_u)⟩)

/-- The loop of `_cs_cue_xeno()`. -/
def xenoLoop : ℕ → Xeno → Option (Option Xeno)
  | 0, _ => none
  | fuel + 1, x =>
    if x.pil_u.fill = 0 then some (some x)
    else
      match x.res_e with
      | .error _ => some (some x)
      | .ok (ref, red_u, dic_u) =>
        match xenoTurn mug slab mem fuel x.pil_u x.fam_u ref red_u dic_u with
        | none => none
        | some none => some none
        | some (some x) => xenoLoop fuel x

end Decoder

/-- The loop that disposes of the frames. -/
def unwind (slot : ℕ → Option (CueFrame Noun)) : ℕ → Option ℕ → List Noun → Outcome
  | 0, _, freed => .gives none freed
  | fill + 1, fam_u, freed =>
    match (Pile.mk slot (fill + 1)).read fam_u with
    | none => .wild
    | some fam => unwind slot fill (some fill) (freed ++ fam.ref.toList)

/-- The end of `_cs_cue_xeno()`. -/
def xenoDone (x : Xeno) : Outcome :=
  match x.res_e with
  | .ok (ref, _, _) => .gives (some ref) []
  | .error (.fail _) => unwind x.pil_u.slot x.pil_u.fill x.fam_u []
  | .error _ => .stop

section Decoder

variable (mug : UInt64 → ℕ) (slab : Bsr → ℕ → Bool) (mem : ℕ → UInt8)

/-- `fam_u` after the first noun: it is set where there are frames and the noun was read. -/
def famU (pil_u : Pile) : Read → Option ℕ
  | .ok _ => if pil_u.fill = 0 then none else some pil_u.peek
  | .error _ => none

/-- `u3s_cue_xeno_with()`, of the `len_d` bytes at `byt_y`. A stream that is too long gives `c3n`.
-/
def u3sCueXenoWith (len_d byt_y fuel : ℕ) : Option Outcome :=
  if 8 * len_d % 2 ^ 64 < len_d then some (.gives (some (.atom 1)) [])
  else if 0x7ffffffffffffff < len_d then some (.gives (some (.atom 1)) [])
  else
    match xenoNext mug slab mem fuel ⟨fun _ ↦ none, 0⟩ ⟨len_d, 0, 0, byt_y⟩ [] with
    | none => none
    | some (pil_u, res_e) =>
      match xenoLoop mug slab mem fuel ⟨pil_u, famU pil_u res_e, res_e⟩ with
      | none => none
      | some none => some .wild
      | some (some x) => some (xenoDone x)

end Decoder

/-! ### How reading a stream ends -/

section Reading

variable {α : Type} (rdr : Reader α) (mem : ℕ → UInt8)

/-- The machine does not go on. -/
inductive Stops : Cue α → Stop → Prop
  | next {s : List (CueFrame α)} {bsr : Bsr} {dict : CueDict α} {stop : Stop}
      (hturn : nextTurn rdr mem s bsr dict = .error stop) : Stops ⟨.next, s, bsr, dict⟩ stop
  | walk {ref : α} {f : CueFrame α} {s : List (CueFrame α)} {bsr : Bsr} {dict : CueDict α}
    {stop : Stop}
      (hturn : walkTurn rdr ref f s bsr dict = .error stop) : Stops ⟨.walk ref, f :: s, bsr,
      dict⟩ stop

/-- The machine before the `len` bytes at `byt`. -/
def start (len byt : ℕ) : Cue α := ⟨.next, [], ⟨len, 0, 0, byt⟩, []⟩

/-- The states in reading the stream. -/
def Reached (len byt : ℕ) (c : Cue α) : Prop := ReflTransGen (Turn rdr mem) (start len byt) c

/-- The stream cannot be read on, with these frames on the stack. -/
def Fails (len byt : ℕ) (s : List (CueFrame α)) : Prop :=
  2 ^ 59 ≤ len ∧ s = [] ∨ len < 2 ^ 59 ∧ ∃ bsr dict res,
    Reached rdr mem len byt ⟨.next, s, bsr, dict⟩ ∧ nextTurn rdr mem s bsr dict = .error (.fail res)

/-- The stream is the encoding of a noun. -/
def Gives (len byt : ℕ) (n : α) : Prop := len < 2 ^ 59 ∧ ∃ dict last, Spells rdr mem
    [] ⟨len, 0, 0, byt⟩ n dict last

/-- The nouns that are kept in frames. -/
def heads (s : List (CueFrame α)) : List α := s.flatMap fun f ↦ f.ref.toList

end Reading

section Claims

variable (mug : UInt64 → ℕ) (slab : Bsr → ℕ → Bool) (mem : ℕ → UInt8) (len byt : ℕ)

/-- The decoder gives the noun of the stream, or `u3_none` and releases the heads that are on the
stack when the stream cannot be read on. -/
def Clean (out : Outcome) : Prop :=
  (∃ n, Gives (xenoReader mug slab) mem len byt n ∧ out = .gives (some n) []) ∨
    ∃ s, Fails (xenoReader mug slab) mem len byt s ∧ out = .gives none (heads s)

/-- An open cell, or an atom whose length can be read and is not too long. -/
def Readable (bsr : Bsr) : Prop :=
  (∃ red, bsrTag mem bsr = (.ok .cell, red)) ∨
    ∃ red len_d body, bsrTag mem bsr = (.ok .atom, red) ∧ bsrRubLen mem red = (.ok len_d, body) ∧
      bytD len_d ≤ 0xffffffff

/-- What is behind the cells that the stream begins with can be read. -/
def FirstReadable : Prop :=
  ∀ bsr, TransGen (fun bsr red ↦ bsrTag mem bsr = (.ok .cell, red)) ⟨len, 0, 0, byt⟩ bsr →
    Readable mem bsr

/-- No atom that is read is refused its slab, and nothing is put in the dictionary at a cursor that
is no direct reference, or that is the eleventh of its mug. -/
def Served : Prop :=
  ∀ c stop, Reached (xenoReader mug slab) mem len byt c → Stops (xenoReader mug slab) mem c stop →
    ∃ res, stop = .fail res

end Claims

/-! ### Turns are determined -/

variable {bsr : Bsr} {stop : Stop} {s : List (CueFrame Noun)} {slot : ℕ → Option (CueFrame Noun)}
  {pil_u : Pile} {fam_u : Option ℕ} {x : Xeno}

section Turns

variable {α : Type} {rdr : Reader α} {mem : ℕ → UInt8}

variable {c : Cue α} {dict : CueDict α}

theorem turn_unique {c₁ c₂ : Cue α} (hfst : Turn rdr mem c c₁) (hsnd : Turn rdr mem c c₂) :
    c₁ = c₂ := by
  cases hfst with
  | next hturn =>
    cases hsnd with
    | next hturn' => exact Except.ok.inj (hturn.symm.trans hturn')
  | walk hturn =>
    cases hsnd with
    | walk hturn' => exact Except.ok.inj (hturn.symm.trans hturn')

theorem Stops.not_turn {c' : Cue α} (hstops : Stops rdr mem c stop) : ¬Turn rdr mem c c' := by
  intro hturn
  cases hstops with
  | next hstop =>
    cases hturn with
    | next hturn' => exact nomatch hstop.symm.trans hturn'
  | walk hstop =>
    cases hturn with
    | walk hturn' => exact nomatch hstop.symm.trans hturn'

theorem not_turn_done {n : α} : ¬Turn rdr mem ⟨.walk n, [], bsr, dict⟩ c := nofun

theorem not_stops_done {n : α} : ¬Stops rdr mem ⟨.walk n, [], bsr, dict⟩ stop := nofun

theorem Stops.unique {stop₁ stop₂ : Stop} (hfst : Stops rdr mem c stop₁)
    (hsnd : Stops rdr mem c stop₂) : stop₁ = stop₂ := by
  cases hfst with
  | next hturn =>
    cases hsnd with
    | next hturn' => exact Except.error.inj (hturn.symm.trans hturn')
  | walk hturn =>
    cases hsnd with
    | walk hturn' => exact Except.error.inj (hturn.symm.trans hturn')

/-- Reading ends in one state. -/
theorem Reached.unique {len byt : ℕ} {c₁ c₂ : Cue α} (hfst : Reached rdr mem len byt c₁)
    (hsnd : Reached rdr mem len byt c₂) (hend₁ : ∀ c, ¬Turn rdr mem c₁ c)
    (hend₂ : ∀ c, ¬Turn rdr mem c₂ c) :
    c₁ = c₂ := by
  have hunique : Relator.RightUnique (Turn rdr mem) := fun _ _ _ hfst hsnd ↦ turn_unique hfst hsnd
  rcases ReflTransGen.total_of_right_unique hunique hfst hsnd with hrun | hrun
  · rcases hrun.cases_head with heq | ⟨c, hturn, -⟩
    · exact heq
    · exact absurd hturn (hend₁ c)
  · rcases hrun.cases_head with heq | ⟨c, hturn, -⟩
    · exact heq.symm
    · exact absurd hturn (hend₂ c)

/-- The noun that is read is that of the stream. -/
theorem spells_of_reached {len byt : ℕ} {n : α}
    (hreached : Reached rdr mem len byt ⟨.walk n, [], bsr, dict⟩) :
    ∃ dict' last, Spells rdr mem [] ⟨len, 0, 0, byt⟩ n dict' last := by
  obtain ⟨turns, hrun⟩ := cueOn_of_turns hreached
  obtain ⟨last, ref, dict', less, -, hspells, hlast⟩ := spells_of_cueOn _ (hrun 1)
  cases less with
  | zero => cases hlast
  | succ less =>
    obtain rfl : ref = n := Except.ok.inj (Option.some.inj hlast)
    exact ⟨dict', last, hspells⟩

end Turns

/-! ### The frames are those of the list -/

/-- The frames at the positions of a list, whose first is the top one. -/
def Holds (slot : ℕ → Option (CueFrame Noun)) : List (CueFrame Noun) → Prop
  | [] => True
  | f :: s => slot s.length = some f ∧ Holds slot s

/-- The stack has the frames of a list. -/
def Pile.Is (pil_u : Pile) (s : List (CueFrame Noun)) : Prop :=
  pil_u.fill = s.length ∧ Holds pil_u.slot s

theorem Holds.update (hholds : Holds slot s) {pos : ℕ} (hpos : s.length ≤ pos)
    (f : Option (CueFrame Noun)) : Holds (Function.update slot pos f) s := by
  induction s with
  | nil => trivial
  | cons g s ih =>
    obtain ⟨htop, hrest⟩ := hholds
    rw [List.length_cons] at hpos
    refine ⟨?_, ih hrest (by omega)⟩
    rw [Function.update_of_ne (by omega), htop]

theorem Pile.Is.push {pil_u : Pile} {s : List (CueFrame Noun)} (his : pil_u.Is s)
    (fam : CueFrame Noun) :
    (pil_u.push fam).Is (fam :: s) := by
  obtain ⟨hfill, hholds⟩ := his
  refine ⟨congrArg (· + 1) hfill, ?_, hholds.update (Nat.le_of_eq hfill.symm) _⟩
  show Function.update pil_u.slot pil_u.fill (some fam) s.length = _
  rw [hfill, Function.update_self]

theorem Pile.Is.pop {f : CueFrame Noun} (his : pil_u.Is (f :: s)) : pil_u.pop.Is s :=
  ⟨congrArg (· - 1) his.1, his.2.2⟩

theorem Pile.Is.read {f : CueFrame Noun} (his : pil_u.Is (f :: s)) :
    pil_u.read (some (f :: s).length) = some f := by
  obtain ⟨hfill, htop, -⟩ := his
  show (if s.length < pil_u.fill then pil_u.slot s.length else none) = some f
  rw [if_pos (hfill ▸ Nat.lt_succ_self s.length), htop]

theorem Pile.Is.write {pil_u : Pile} {f : CueFrame Noun} {s : List (CueFrame Noun)}
    (his : pil_u.Is (f :: s)) (g : CueFrame Noun) :
    (pil_u.write (some (f :: s).length) g).Is (g :: s) := by
  obtain ⟨hfill, -, hholds⟩ := his
  refine ⟨hfill, ?_, hholds.update (Nat.le_refl s.length) _⟩
  show Function.update pil_u.slot s.length (some g) s.length = _
  rw [Function.update_self]

/-- From the top frame on every frame is read once, and its head released. -/
theorem unwind_eq (hholds : Holds slot s) (hfam : s ≠ [] → fam_u = some s.length)
    (freed : List Noun) : unwind slot s.length fam_u freed = .gives none (freed ++ heads s) := by
  induction s generalizing fam_u freed with
  | nil =>
    rw [heads, List.flatMap_nil, List.append_nil]
    rfl
  | cons f s ih =>
    have hread : (Pile.mk slot (s.length + 1)).read fam_u = some f := by
      rw [hfam (List.cons_ne_nil f s)]
      have his : (Pile.mk slot (s.length + 1)).Is (f :: s) := ⟨rfl, hholds⟩
      exact his.read
    rw [List.length_cons, unwind, hread]
    dsimp only
    rw [ih hholds.2 (fun _ ↦ rfl), heads, heads, List.flatMap_cons, List.append_assoc]

/-- Frames through a pointer that is not set. -/
theorem unwind_wild (hs : s ≠ []) (freed : List Noun) :
    unwind slot s.length none freed = .wild := by
  cases s with
  | nil => exact absurd rfl hs
  | cons f s => rfl

/-! ### The loops -/

section Loops

variable {mug : UInt64 → ℕ} {slab : Bsr → ℕ → Bool} {mem : ℕ → UInt8} {e p : ℕ}

/-- A body is read from behind its tag on. -/
theorem from_xeno (q : ℕ) (bits : UInt64) (len_d : ℕ) (ref : Noun) (last : Bsr)
    (hread : (xenoReader mug slab).atom mem (seek e q bits) len_d = .ok (ref, last)) :
    From e q last := by
  unfold xenoReader at hread
  dsimp only at hread
  split_ifs at hread with hsmall hlong hslab
  · rw [← (Prod.mk.inj (Except.ok.inj hread)).2, bsr32Any, bsrWordAny_seek (k := 4) rfl,
      bitsAny_state]
    exact ⟨_, _, rfl, Nat.le_add_right q _⟩
  · rw [← (Prod.mk.inj (Except.ok.inj hread)).2]
    exact from_bytes len_d

variable (mug slab mem) in
/-- What the loop of `_cs_cue_xeno_next()` does: it pushes the frames of the cells, and ends with
the first token that is not a cell. -/
theorem xenoNext_spec (dict : Dict) (work : ℕ) (his : pil_u.Is s) (hfrom : From e p bsr)
    (hwork : 8 * e - p ≤ work) :
    ∃ pil_u' s' bsr' q res, pil_u'.Is s' ∧
      Returns (fun fuel ↦ xenoNext mug slab mem fuel pil_u bsr dict) (pil_u', res) ∧
      ReflTransGen (Turn (xenoReader mug slab) mem) ⟨.next, s, bsr, dict⟩ ⟨.next, s', bsr', dict⟩ ∧
      nextTurn (xenoReader mug slab) mem s' bsr' dict = res.map (Cue.read s') ∧
      (s' = s ∧ bsr' = bsr ∨
        s' ≠ [] ∧ TransGen (fun bsr red ↦ bsrTag mem bsr = (.ok .cell, red)) bsr bsr') ∧
      From e q bsr' ∧ p ≤ q ∧ 3 * (8 * e - q) + owed s' ≤ 3 * (8 * e - p) + owed s := by
  induction work using Nat.strong_induction_on generalizing pil_u s bsr p with
  | _ work ih =>
    have hlast (res : Read)
      (hnext : ∀ fuel, xenoNext mug slab mem (fuel + 1) pil_u bsr dict = some (pil_u, res))
        (hturn : nextTurn (xenoReader mug slab) mem s bsr dict = res.map (Cue.read s)) :
        ∃ pil_u' s' bsr' q res, pil_u'.Is s' ∧
          Returns (fun fuel ↦ xenoNext mug slab mem fuel pil_u bsr dict) (pil_u', res) ∧
          ReflTransGen (Turn (xenoReader mug slab) mem) ⟨.next, s, bsr, dict⟩ ⟨.next, s',
          bsr', dict⟩ ∧
          nextTurn (xenoReader mug slab) mem s' bsr' dict = res.map (Cue.read s') ∧
          (s' = s ∧ bsr' = bsr ∨
            s' ≠ [] ∧ TransGen (fun bsr red ↦ bsrTag mem bsr = (.ok .cell, red)) bsr bsr') ∧
          From e q bsr' ∧ p ≤ q ∧ 3 * (8 * e - q) + owed s' ≤ 3 * (8 * e - p) + owed s :=
      ⟨pil_u, s, bsr, p, res, his, Returns.succ hnext, .refl, hturn, .inl ⟨rfl, rfl⟩, hfrom,
        Nat.le_refl p, Nat.le_refl _⟩
    rcases htag : bsrTag mem bsr with ⟨tag, red⟩
    rcases tag with res | tag
    · refine hlast (.error (.fail res)) (fun fuel ↦ ?_) ?_
      · rw [xenoNext, htag]
      · rw [nextTurn, htag]
        rfl
    cases tag with
    | back =>
      refine hlast (cueBack mem red dict) (fun fuel ↦ ?_) ?_
      · rw [xenoNext, htag]
      · rw [nextTurn, htag]
    | atom =>
      refine hlast (cueAtom (xenoReader mug slab) mem bsr.bits red dict) (fun fuel ↦ ?_) ?_
      · rw [xenoNext, htag]
      · rw [nextTurn, htag]
    | cell =>
      obtain ⟨q, bits, rfl, hle⟩ := hfrom
      obtain ⟨hlt, hred⟩ := from_tag htag
      obtain ⟨pil_u', s', bsr', q', res, his', hreturns, hturns, hturn, hcells, hfrom', hle',
        howed⟩ :=
        ih (work - 1) (by omega) (his.push ⟨none, (seek e q bits).bits⟩) hred (by omega)
      rw [owed_head] at howed
      refine ⟨pil_u', s', bsr', q', res, his', Returns.of_succ (fun fuel ↦ ?_) hreturns,
        .head (.next (nextTurn_cell htag)) hturns, hturn, .inr ?_, hfrom', by omega, ?_⟩
      · rw [xenoNext, htag]
      · rcases hcells with ⟨rfl, rfl⟩ | ⟨hne, hcells⟩
        · exact ⟨List.cons_ne_nil _ _, .single htag⟩
        · exact ⟨hne, .head htag hcells⟩
      · change _ ≤ 3 * (8 * e - (q + 1)) + (2 + owed s) at howed
        omega

/-- The loop is at its end: with the noun that has been read, or with what stops the machine, and
then at the top frame if a token could not be read. -/
structure Ended (mug : UInt64 → ℕ) (slab : Bsr → ℕ → Bool) (mem : ℕ → UInt8) (x : Xeno)
    (c : Cue Noun) : Prop where
  ok : ∀ n bsr dict, x.res_e = .ok (n, bsr, dict) → c = ⟨.walk n, [], bsr, dict⟩
  error : ∀ stop, x.res_e = .error stop → Stops (xenoReader mug slab) mem c stop
  frames : ∀ res, x.res_e = .error (.fail res) →
    x.pil_u.Is c.s ∧ (c.s ≠ [] → x.fam_u = some c.s.length)

theorem xenoLoop_end (hend : x.pil_u.fill = 0 ∨ ∃ stop, x.res_e = .error stop) :
    Returns (fun fuel ↦ xenoLoop mug slab mem fuel x) (some x) := by
  refine Returns.succ fun fuel ↦ ?_
  rw [xenoLoop]
  rcases hend with hfill | ⟨stop, hres⟩
  · rw [if_pos hfill]
  · rw [hres]
    split_ifs <;> rfl

theorem xenoLoop_turn {ref : Noun} {dict : Dict} {out : Option Xeno} (hfill : pil_u.fill ≠ 0)
    (hturn : Returns (fun fuel ↦ xenoTurn mug slab mem fuel pil_u fam_u ref bsr dict) (some x))
    (hloop : Returns (fun fuel ↦ xenoLoop mug slab mem fuel x) out) :
    Returns (fun fuel ↦ xenoLoop mug slab mem fuel ⟨pil_u, fam_u, .ok (ref, bsr, dict)⟩) out := by
  let next (fuel : ℕ) (x : Option Xeno) : Option (Option Xeno) :=
    match x with
    | none => some none
    | some x => xenoLoop mug slab mem fuel x
  have hbind : Returns (fun fuel ↦ (xenoTurn mug slab mem fuel pil_u fam_u ref bsr dict).bind
    (next fuel)) out :=
    hturn.bind hloop
  refine Returns.of_succ (fun fuel ↦ ?_) hbind
  rw [xenoLoop, if_neg hfill]
  dsimp only
  rcases xenoTurn mug slab mem fuel pil_u fam_u ref bsr dict with _ | _ | x <;> rfl

variable (mug slab mem) in
/-- What the loop of `_cs_cue_xeno()` does. -/
theorem xenoLoop_spec (work : ℕ) (ref : Noun) (dict : Dict) (his : pil_u.Is s)
    (hfam : s ≠ [] → fam_u = some s.length) (hfrom : From e p bsr)
    (hwork : 3 * (8 * e - p) + owed s ≤ work) :
    ∃ x c, Returns (fun fuel ↦ xenoLoop mug slab mem fuel ⟨pil_u, fam_u, .ok (ref, bsr, dict)⟩)
      (some x) ∧
      ReflTransGen (Turn (xenoReader mug slab) mem) ⟨.walk ref, s, bsr, dict⟩ c ∧
      Ended mug slab mem x c := by
  induction work using Nat.strong_induction_on generalizing pil_u fam_u s ref bsr dict p with
  | _ work ih =>
    cases s with
    | nil =>
      refine ⟨_, _, xenoLoop_end (.inl his.1), .refl, ⟨?_, nofun, nofun⟩⟩
      intro n bsr' dict' hres
      obtain ⟨rfl, hrest⟩ := Prod.mk.inj (Except.ok.inj hres)
      obtain ⟨rfl, rfl⟩ := Prod.mk.inj hrest
      rfl
    | cons f s =>
      obtain rfl := hfam (List.cons_ne_nil f s)
      obtain ⟨hed, bits⟩ := f
      rw [owed_head] at hwork
      have hfill : pil_u.fill ≠ 0 := by
        rw [his.1]
        exact Nat.succ_ne_zero s.length
      cases hed with
      | none =>
        change 3 * (8 * e - p) + (2 + owed s) ≤ work at hwork
        obtain ⟨pil_u', s', bsr', q, res, his', ⟨need, hneed⟩, hturns, hturn, -, hfrom', hle,
          howed⟩ :=
          xenoNext_spec mug slab mem dict _ (his.write ⟨some ref, bits⟩) hfrom (Nat.le_refl _)
        rw [owed_head] at howed
        change _ ≤ 3 * (8 * e - p) + (1 + owed s) at howed
        have hnext : Returns (fun fuel ↦ xenoTurn mug slab mem fuel pil_u
          (some (s.length + 1)) ref bsr dict)
            (some ⟨pil_u', some pil_u'.peek, res⟩) := by
          refine ⟨need, fun fuel hfuel ↦ ?_⟩
          have hread : pil_u.read (some (s.length + 1)) = some ⟨none, bits⟩ := his.read
          have hwrite : xenoNext mug slab mem fuel
            (pil_u.write (some (s.length + 1)) ⟨some ref, bits⟩) bsr dict =
              some (pil_u', res) := hneed fuel hfuel
          simp only [xenoTurn, hread, hwrite]
        have hrun : ReflTransGen (Turn (xenoReader mug slab) mem) ⟨.walk ref, ⟨none, bits⟩ :: s,
          bsr, dict⟩
            ⟨.next, s', bsr', dict⟩ := .head (.walk rfl) hturns
        cases res with
        | error stop =>
          refine ⟨_, _, xenoLoop_turn hfill hnext (xenoLoop_end (.inr ⟨stop, rfl⟩)), hrun,
            ⟨nofun, ?_, ?_⟩⟩
          · intro stop' hstop
            obtain rfl := Except.error.inj hstop
            exact .next hturn
          · exact fun _ _ ↦ ⟨his', fun _ ↦ congrArg some his'.1⟩
        | ok read =>
          obtain ⟨ref', bsr'', dict'⟩ := read
          obtain ⟨q', bits', rfl, hle'⟩ := hfrom'
          obtain ⟨hlt, hread, -⟩ := from_nextTurn from_xeno hturn
          have hless : 3 * (8 * e - (q' + 1)) + owed s' ≤ work - 1 := by omega
          obtain ⟨x, c, hloop, hturns', hended⟩ :=
            ih (work - 1) (by omega) ref' dict' his' (fun _ ↦ congrArg some his'.1) hread hless
          exact ⟨x, c, xenoLoop_turn hfill hnext hloop,
            hrun.trans (.head (.next hturn) hturns'), hended⟩
      | some hed =>
        change 3 * (8 * e - p) + (1 + owed s) ≤ work at hwork
        have hread : pil_u.read (some (s.length + 1)) = some ⟨some hed, bits⟩ := his.read
        cases hput : dictPut (xenoReader mug slab) dict bits (hed.cell ref) with
        | ok dict' =>
          have hnext : Returns (fun fuel ↦ xenoTurn mug slab mem fuel pil_u
            (some (s.length + 1)) ref bsr dict)
              (some ⟨pil_u.pop, some pil_u.pop.peek, .ok (hed.cell ref, bsr, dict')⟩) := by
            refine ⟨0, fun fuel _ ↦ ?_⟩
            simp only [xenoTurn, hread, hput]
          obtain ⟨x, c, hloop, hturns, hended⟩ :=
            ih (work - 1) (by omega) (hed.cell ref) dict' his.pop
              (fun _ ↦ congrArg some his.pop.1) hfrom (by omega)
          exact ⟨x, c, xenoLoop_turn hfill hnext hloop,
            .head (.walk (walkTurn_tail hput)) hturns, hended⟩
        | error stop =>
          have hnext : Returns (fun fuel ↦ xenoTurn mug slab mem fuel pil_u
            (some (s.length + 1)) ref bsr dict)
              (some ⟨pil_u, some (s.length + 1), .error stop⟩) := by
            refine ⟨0, fun fuel _ ↦ ?_⟩
            simp only [xenoTurn, hread, hput]
          refine ⟨_, _, xenoLoop_turn hfill hnext (xenoLoop_end (.inr ⟨_, rfl⟩)), .refl,
            ⟨nofun, ?_, ?_⟩⟩
          · intro stop' hstop
            obtain rfl := Except.error.inj hstop
            refine .walk ?_
            show (dictPut (xenoReader mug slab) dict bits (hed.cell ref)).bind _ = _
            rw [hput]
            rfl
          · intro res hres
            obtain rfl := Except.error.inj hres
            exact absurd hput (dictPut_ne_fail _)

end Loops

/-! ### The first noun -/

section First

variable {mug : UInt64 → ℕ} {slab : Bsr → ℕ → Bool} {mem : ℕ → UInt8} {len byt : ℕ}

/-- The step of the stream behind the tag of a cell. -/
abbrev Cell (mem : ℕ → UInt8) (bsr red : Bsr) : Prop := bsrTag mem bsr = (.ok .cell, red)

theorem cells_unique {bsr₁ bsr₂ : Bsr} (hfst : ReflTransGen (Cell mem) bsr bsr₁)
    (hsnd : ReflTransGen (Cell mem) bsr bsr₂) (hend₁ : ∀ red, ¬Cell mem bsr₁ red)
    (hend₂ : ∀ red, ¬Cell mem bsr₂ red) : bsr₁ = bsr₂ := by
  have hunique : Relator.RightUnique (Cell mem) :=
    fun _ _ _ hfst hsnd ↦ (Prod.mk.inj (hfst.symm.trans hsnd)).2
  rcases ReflTransGen.total_of_right_unique hunique hfst hsnd with hrun | hrun
  · rcases hrun.cases_head with heq | ⟨red, htag, -⟩
    · exact heq
    · exact absurd htag (hend₁ red)
  · rcases hrun.cases_head with heq | ⟨red, htag, -⟩
    · exact heq.symm
    · exact absurd htag (hend₂ red)

theorem not_transGen_of_end (hend : ∀ red, ¬Cell mem bsr red) (other : Bsr) :
    ¬TransGen (Cell mem) bsr other := by
  intro hcells
  obtain ⟨red, htag, -⟩ := TransGen.head'_iff.mp hcells
  exact hend red htag

variable (mug slab mem len byt) in
/-- The first turns of the machine, up to the first token that is not a cell. -/
theorem first_spec : ∃ pil_u s bsr res, pil_u.Is s ∧
    Returns (fun fuel ↦ xenoNext mug slab mem fuel ⟨fun _ ↦ none, 0⟩ ⟨len, 0, 0, byt⟩ [])
      (pil_u, res) ∧
    Reached (xenoReader mug slab) mem len byt ⟨.next, s, bsr, []⟩ ∧
    nextTurn (xenoReader mug slab) mem s bsr [] = res.map (Cue.read s) ∧
    (s = [] ∧ bsr = ⟨len, 0, 0, byt⟩ ∨ s ≠ [] ∧ TransGen (Cell mem) ⟨len, 0, 0, byt⟩ bsr) ∧
    ∀ ref last dict, res = .ok (ref, last, dict) → ∃ e p, From e p last := by
  by_cases hlen : len = 0
  · subst hlen
    exact ⟨⟨fun _ ↦ none, 0⟩, [], ⟨0, 0, 0, byt⟩, .error (.fail .gone), ⟨rfl, trivial⟩,
      Returns.succ fun fuel ↦ rfl, .refl, rfl, .inl ⟨rfl, rfl⟩, nofun⟩
  · obtain ⟨e, p, hfrom⟩ := @from_init len byt hlen
    have hempty : (⟨fun _ ↦ none, 0⟩ : Pile).Is [] := ⟨rfl, trivial⟩
    obtain ⟨pil_u, s, bsr, q, res, his, hreturns, hturns, hturn, hcells, ⟨q', bits, rfl, hle⟩,
      -, -⟩ :=
      xenoNext_spec mug slab mem [] _ hempty hfrom (Nat.le_refl _)
    refine ⟨pil_u, s, _, res, his, hreturns, hturns, hturn, hcells, fun ref last dict hres ↦ ?_⟩
    subst hres
    exact ⟨e, _, (from_nextTurn from_xeno hturn).2.1⟩

theorem with_returns (hlt : len < 2 ^ 59) {res : Read}
    (hnext : Returns (fun fuel ↦ xenoNext mug slab mem fuel ⟨fun _ ↦ none, 0⟩ ⟨len, 0, 0, byt⟩ [])
      (pil_u, res))
    (hloop : Returns (fun fuel ↦ xenoLoop mug slab mem fuel ⟨pil_u, famU pil_u res, res⟩)
      (some x)) :
    Returns (u3sCueXenoWith mug slab mem len byt) (xenoDone x) := by
  obtain ⟨need, hneed⟩ := hnext
  obtain ⟨need', hneed'⟩ := hloop
  refine ⟨max need need', fun fuel hfuel ↦ ?_⟩
  rw [u3sCueXenoWith, if_neg (by omega), if_neg (by omega)]
  simp only [hneed fuel (by omega), hneed' fuel (by omega)]

/-- The body of an atom that fits is read, or is refused its slab. -/
theorem xenoReader_atom {bsr : Bsr} {len_d : ℕ} (hlen : bytD len_d ≤ 0xffffffff) :
    (∃ read, (xenoReader mug slab).atom mem bsr len_d = .ok read) ∨
      (xenoReader mug slab).atom mem bsr len_d = .error .oom := by
  unfold xenoReader
  dsimp only
  split_ifs with hsmall hlong hslab
  · exact .inl ⟨_, rfl⟩
  · omega
  · exact .inl ⟨_, rfl⟩
  · exact .inr rfl

/-- A token that is readable is read, or is refused its slab or its key. -/
theorem not_fail_of_readable (hreadable : Readable mem bsr) (s : List (CueFrame Noun)) (dict : Dict)
    (res : Ur.CueRes) : nextTurn (xenoReader mug slab) mem s bsr dict ≠ .error (.fail res) := by
  rcases hreadable with ⟨red, htag⟩ | ⟨red, len_d, body, htag, hrub, hlen⟩
  · rw [nextTurn_cell htag]
    rintro ⟨⟩
  · have hatom : nextTurn (xenoReader mug slab) mem s bsr dict =
        (((xenoReader mug slab).atom mem body len_d).bind fun read ↦
          (dictPut (xenoReader mug slab) dict bsr.bits read.1).bind fun dict ↦ .ok (read.1, read.2,
            dict)).map (Cue.read s) := by
      rw [nextTurn, htag]
      dsimp only
      rw [cueAtom, hrub]
      rfl
    rw [hatom]
    rcases @xenoReader_atom mug slab mem body len_d hlen with ⟨read, hread⟩ | hread
    · rw [hread]
      show ((dictPut (xenoReader mug slab) dict bsr.bits read.1).bind _).map _ ≠ _
      rw [dictPut]
      split_ifs <;> rintro ⟨⟩
    · rw [hread]
      rintro ⟨⟩

variable (mug slab) in
/-- A token that is not readable is not read when there are no keys. -/
theorem fail_of_not_readable (hnot : ¬Readable mem bsr) (s : List (CueFrame Noun)) :
    ∃ res, nextTurn (xenoReader mug slab) mem s bsr [] = .error (.fail res) := by
  rcases htag : bsrTag mem bsr with ⟨res | tag, red⟩
  · exact ⟨res, by rw [nextTurn, htag]⟩
  rcases hrub : bsrRubLen mem red with ⟨res | len_d, body⟩
  · cases tag with
    | cell => exact absurd (.inl ⟨red, htag⟩) hnot
    | back =>
      refine ⟨res, ?_⟩
      rw [nextTurn, htag]
      dsimp only
      rw [cueBack, hrub]
      rfl
    | atom =>
      refine ⟨res, ?_⟩
      rw [nextTurn, htag]
      dsimp only
      rw [cueAtom, hrub]
      rfl
  · cases tag with
    | cell => exact absurd (.inl ⟨red, htag⟩) hnot
    | back =>
      by_cases hlen : 62 < len_d
      · refine ⟨.meme, ?_⟩
        rw [nextTurn, htag]
        dsimp only
        rw [cueBack, hrub]
        dsimp only
        rw [if_pos hlen]
        rfl
      · refine ⟨.back, ?_⟩
        rw [nextTurn, htag]
        dsimp only
        rw [cueBack, hrub]
        dsimp only
        rw [if_neg hlen]
        rfl
    | atom =>
      have hlong : 0xffffffff < bytD len_d := by
        by_contra hshort
        exact hnot (.inr ⟨red, len_d, body, htag, hrub, Nat.le_of_not_lt hshort⟩)
      have hlarge : ¬31 ≥ len_d := by
        intro hsmall
        rw [bytD] at hlong
        omega
      have hbody : (xenoReader mug slab).atom mem body len_d = .error (.fail .meme) := by
        unfold xenoReader
        dsimp only
        rw [if_neg hlarge, if_pos hlong]
      refine ⟨.meme, ?_⟩
      rw [nextTurn, htag]
      dsimp only
      rw [cueAtom, hrub]
      dsimp only
      rw [hbody]
      rfl

/-- The cells of the stream end at one reader. -/
theorem firstReadable_iff (hcells : TransGen (Cell mem) ⟨len, 0, 0, byt⟩ bsr)
    (hend : ∀ red, ¬Cell mem bsr red) : FirstReadable mem len byt ↔ Readable mem bsr := by
  refine ⟨fun hfirst ↦ hfirst bsr hcells, fun hreadable other hother ↦ ?_⟩
  by_cases htag : ∃ red, Cell mem other red
  · exact .inl htag
  · have heq : other = bsr :=
      cells_unique hother.to_reflTransGen hcells.to_reflTransGen (not_exists.mp htag) hend
    rw [heq]
    exact hreadable

/-- What is read, or stops the machine, is no cell. -/
theorem not_cell_of_next {s : List (CueFrame Noun)} {bsr : Bsr} {dict : Dict} {res : Read}
    (hturn : nextTurn (xenoReader mug slab) mem s bsr dict = res.map (Cue.read s)) (red : Bsr) :
    ¬Cell mem bsr red := by
  intro htag
  rw [nextTurn_cell htag] at hturn
  cases res with
  | error stop => cases hturn
  | ok read =>
    have hmode := congrArg Cue.mode (Except.ok.inj hturn)
    cases hmode

/-- The machine stops in one way. -/
theorem served_iff {c : Cue Noun} (hreached : Reached (xenoReader mug slab) mem len byt c)
    (hstops : Stops (xenoReader mug slab) mem c stop) :
    Served mug slab mem len byt ↔ ∃ res, stop = .fail res := by
  refine ⟨fun hserved ↦ hserved c stop hreached hstops, fun hfail c' stop' hreached' hstops' ↦ ?_⟩
  obtain rfl : c' = c :=
    hreached'.unique hreached (fun _ ↦ hstops'.not_turn) (fun _ ↦ hstops.not_turn)
  obtain rfl : stop' = stop := hstops'.unique hstops
  exact hfail

/-- Where the machine ends with a noun nothing is refused. -/
theorem served_of_done {n : Noun} {dict : Dict}
    (hreached : Reached (xenoReader mug slab) mem len byt ⟨.walk n, [], bsr, dict⟩) :
    Served mug slab mem len byt := by
  intro c stop hreached' hstops
  obtain rfl := hreached'.unique hreached (fun _ ↦ hstops.not_turn) (fun _ ↦ not_turn_done)
  exact absurd hstops not_stops_done

/-- A token that cannot be read is behind the stack of the machine. -/
theorem fails_of_stops (hlt : len < 2 ^ 59) {c : Cue Noun} {res : Ur.CueRes}
    (hreached : Reached (xenoReader mug slab) mem len byt c)
    (hstops : Stops (xenoReader mug slab) mem c (.fail res)) :
    Fails (xenoReader mug slab) mem len byt c.s := by
  cases hstops with
  | next hturn => exact .inr ⟨hlt, _, _, res, hreached, hturn⟩
  | @walk ref f s bsr dict _ hturn =>
    obtain ⟨_ | hed, bits⟩ := f
    · cases hturn
    · change (dictPut (xenoReader mug slab) dict bits (hed.cell ref)).bind _ = _ at hturn
      rw [dictPut] at hturn
      split_ifs at hturn <;> cases hturn

/-- Where the first noun is read, what is behind the cells is readable. -/
theorem firstReadable_of_read {read : Noun × Bsr × Dict}
    (hturn : nextTurn (xenoReader mug slab) mem s bsr [] = .ok (Cue.read s read))
    (hcells : s = [] ∧ bsr = ⟨len, 0, 0, byt⟩ ∨ s ≠ [] ∧ TransGen (Cell mem) ⟨len, 0, 0, byt⟩ bsr) :
    FirstReadable mem len byt := by
  have hend : ∀ red, ¬Cell mem bsr red := @not_cell_of_next mug slab mem _ _ _ (.ok read) hturn
  rcases hcells with ⟨-, rfl⟩ | ⟨-, hcells⟩
  · exact fun other hother ↦ absurd hother (not_transGen_of_end hend other)
  · rw [firstReadable_iff hcells hend]
    by_contra hnot
    obtain ⟨res, hfail⟩ := fail_of_not_readable mug slab hnot s
    exact nomatch hturn.symm.trans hfail

/-- The end of the decoder when the first noun cannot be read. -/
theorem clean_first_iff (hlt : len < 2 ^ 59) (his : pil_u.Is s)
    (hreached : Reached (xenoReader mug slab) mem len byt ⟨.next, s, bsr, []⟩)
    (hturn : nextTurn (xenoReader mug slab) mem s bsr [] = .error stop)
    (hcells : s = [] ∧ bsr = ⟨len, 0, 0, byt⟩ ∨ s ≠ [] ∧ TransGen (Cell mem) ⟨len, 0, 0, byt⟩ bsr) :
    Clean mug slab mem len byt (xenoDone ⟨pil_u, none, .error stop⟩) ↔
      FirstReadable mem len byt ∧ Served mug slab mem len byt := by
  have hend : ∀ red, ¬Cell mem bsr red := @not_cell_of_next mug slab mem _ _ _ (.error stop) hturn
  rw [served_iff hreached (.next hturn)]
  cases stop with
  | oom => exact iff_of_false (by simp [Clean, xenoDone]) fun ⟨_, _, hfail⟩ ↦ nomatch hfail
  | stray => exact iff_of_false (by simp [Clean, xenoDone]) fun ⟨_, _, hfail⟩ ↦ nomatch hfail
  | fail res =>
    show Clean mug slab mem len byt (unwind pil_u.slot pil_u.fill none []) ↔ _
    rw [his.1]
    rcases hcells with ⟨rfl, rfl⟩ | ⟨hne, hcells⟩
    · refine iff_of_true (.inr ⟨[], .inr ⟨hlt, _, _, res, hreached, hturn⟩, rfl⟩) ⟨?_, res, rfl⟩
      exact fun other hother ↦ absurd hother (not_transGen_of_end hend other)
    · rw [unwind_wild hne, firstReadable_iff hcells hend]
      refine iff_of_false (by simp [Clean]) fun ⟨hreadable, _⟩ ↦ ?_
      exact not_fail_of_readable hreadable s _ res hturn

/-- The end of the decoder when the first noun has been read. -/
theorem clean_ended_iff (hlt : len < 2 ^ 59) {c : Cue Noun}
    (hreached : Reached (xenoReader mug slab) mem len byt c) (hended : Ended mug slab mem x c) :
    Clean mug slab mem len byt (xenoDone x) ↔ Served mug slab mem len byt := by
  obtain ⟨pil_u, fam_u, res⟩ := x
  cases res with
  | ok read =>
    obtain ⟨n, bsr, dict⟩ := read
    obtain rfl := hended.ok n bsr dict rfl
    exact iff_of_true (.inl ⟨n, ⟨hlt, spells_of_reached hreached⟩, rfl⟩) (served_of_done hreached)
  | error stop =>
    have hstops := hended.error stop rfl
    rw [served_iff hreached hstops]
    cases stop with
    | oom => exact iff_of_false (by simp [Clean, xenoDone]) nofun
    | stray => exact iff_of_false (by simp [Clean, xenoDone]) nofun
    | fail res =>
      obtain ⟨his, hfam⟩ := hended.frames res rfl
      have hdone : xenoDone ⟨pil_u, fam_u, .error (.fail res)⟩ = .gives none (heads c.s) := by
        show unwind pil_u.slot pil_u.fill fam_u [] = _
        rw [his.1, unwind_eq his.2 hfam, List.nil_append]
      rw [hdone]
      exact iff_of_true (.inr ⟨c.s, fails_of_stops hlt hreached hstops, rfl⟩) ⟨res, rfl⟩

/-- The decoder always ends, and it ends as it should exactly if the stream is not too long, what is
behind the cells that it begins with can be read, and no slab and no key is refused. -/
theorem cueXeno_iff (mug : UInt64 → ℕ) (slab : Bsr → ℕ → Bool) (mem : ℕ → UInt8) (len byt : ℕ) :
    ∃ out, Returns (u3sCueXenoWith mug slab mem len byt) out ∧
      (Clean mug slab mem len byt out ↔ len < 2 ^ 59 ∧ FirstReadable mem len byt ∧
      Served mug slab mem len byt) := by
  by_cases hlt : len < 2 ^ 59
  · rw [and_iff_right hlt]
    obtain ⟨pil_u, s, bsr, res, his, hnext, hreached, hturn, hcells, hfrom⟩ :=
      first_spec mug slab mem len byt
    cases res with
    | error stop =>
      exact ⟨_, with_returns hlt hnext (xenoLoop_end (.inr ⟨stop, rfl⟩)),
        clean_first_iff hlt his hreached hturn hcells⟩
    | ok read =>
      obtain ⟨ref, last, dict⟩ := read
      obtain ⟨e, p, hlast⟩ := hfrom ref last dict rfl
      have hfam : s ≠ [] → famU pil_u (.ok (ref, last, dict)) = some s.length := by
        intro hne
        rw [famU, if_neg, Pile.peek, his.1]
        rwa [his.1, List.length_eq_zero_iff]
      obtain ⟨x, c, hloop, hturns, hended⟩ :=
        xenoLoop_spec mug slab mem _ ref dict his hfam hlast (Nat.le_refl _)
      refine ⟨_, with_returns hlt hnext hloop, ?_⟩
      rw [clean_ended_iff hlt (.trans hreached (.head (.next hturn) hturns)) hended]
      exact (and_iff_right (firstReadable_of_read hturn hcells)).symm
  · refine ⟨.gives (some (.atom 1)) [], ⟨0, fun fuel _ ↦ ?_⟩,
      iff_of_false ?_ fun hboth ↦ hlt hboth.1⟩
    · rw [u3sCueXenoWith]
      split_ifs with hinit hlong
      · rfl
      · rfl
      · omega
    · rintro (⟨n, hgives, -⟩ | ⟨s, -, hout⟩)
      · exact hlt hgives.1
      · cases hout

/-- `ur_nref_mug()` of a cursor. -/
def cursorMug (key : UInt64) : ℕ := Murmur.mug Murmur.murmur3 (.atom key.toNat)

/-- A cell whose head has no length behind it leaves a frame and no pointer to it, and a stream that
is too long gives `c3n`. -/
theorem cueXeno_one_byte :
    (Returns (u3sCueXenoWith cursorMug (fun _ _ ↦ true) (fun _ ↦ 1) 1 0) .wild ∧
      ¬Clean cursorMug (fun _ _ ↦ true) (fun _ ↦ 1) 1 0 .wild) ∧
    Returns (u3sCueXenoWith cursorMug (fun _ _ ↦ true) (fun _ ↦ 1) (2 ^ 59) 0)
      (.gives (some (.atom 1)) []) ∧
      ¬Clean cursorMug (fun _ _ ↦ true) (fun _ ↦ 1) (2 ^ 59) 0 (.gives (some (.atom 1)) []) := by
  have hcell : bsrTag (fun _ ↦ 1) ⟨1, 0, 0, 0⟩ = (.ok .cell, ⟨1, 2, 2, 0⟩) := by decide +kernel
  have hatom : bsrTag (fun _ ↦ 1) ⟨1, 2, 2, 0⟩ = (.ok .atom, ⟨1, 3, 3, 0⟩) := by decide +kernel
  have hrub : (bsrRubLen (fun _ ↦ 1) ⟨1, 3, 3, 0⟩).1 = .error .gone := by decide +kernel
  refine ⟨⟨⟨2, fun fuel hfuel ↦ ?_⟩, ?_⟩, ⟨0, fun fuel _ ↦ ?_⟩, ?_⟩
  · obtain ⟨fuel, rfl⟩ : ∃ less, fuel = less + 2 := ⟨fuel - 2, by omega⟩
    have hread : cueAtom (xenoReader cursorMug fun _ _ ↦ true) (fun _ ↦ 1) 2 ⟨1, 3, 3, 0⟩ [] =
        .error (.fail .gone) := by
      unfold cueAtom
      split
      · next res _ hres =>
        rw [hres] at hrub
        rw [Except.error.inj hrub]
      · next len_d _ hres =>
        rw [hres] at hrub
        cases hrub
    rw [u3sCueXenoWith, if_neg (by decide), if_neg (by decide), xenoNext, hcell]
    dsimp only
    rw [xenoNext, hatom]
    dsimp only
    rw [hread]
    rfl
  · rintro (⟨n, -, hout⟩ | ⟨s, -, hout⟩) <;> cases hout
  · rw [u3sCueXenoWith, if_neg (by decide), if_pos (by decide)]
  · rintro (⟨n, hgives, -⟩ | ⟨s, -, hout⟩)
    · exact Nat.lt_irrefl _ hgives.1
    · cases hout

end First

end Vere.Noun.CueXeno
