import Mathlib.Data.Set.Insert
import Mathlib.Logic.Relation
import Vere.Lib.Bytes
import Vere.Lib.Fuel
import Vere.Noun.Basic
import Vere.Ur.BitReader
import Vere.Ur.HashconsDict

/-!
# The decoders on bytes

The loops of `_cue()` in `pkg/ur/serial.c`, on the bytes of the memory, which `_cs_cue_xeno()` has
too: one machine (`cueOn`), for a way to read the bodies of atoms. Its dictionary has no place for a
cursor whose mug ten others have. `Spells` is the grammar of the stream, and where the machine comes
to a good end, there is a noun (`spells_of_cueOn`).
-/

set_option autoImplicit false

namespace Vere.Ur.BitReader

open Lib.Bytes Lib.Fuel
open Relation (ReflTransGen)

/-! ### The machine -/

/-- How a decoder ends without a noun: `ur_cue_res_e`, `_oom()`, or the mug of a key that is no
direct reference, which is read from behind a null root. -/
inductive Stop
  | fail (res : CueRes)
  | oom
  | stray
  deriving DecidableEq

/-- `_cue_frame_t` and `_cue_test_frame_t`: what is kept of the head, and the cursor of the cell. -/
structure CueFrame (α : Type) where
  ref : Option α
  bits : UInt64

/-- What sets the decoders apart: how the body of an atom is read, and what a cell is. `mug` is what
`ur_nref_mug()` gives for a cursor. -/
structure Reader (α : Type) where
  atom : (ℕ → UInt8) → Bsr → ℕ → Except Stop (α × Bsr)
  cons : α → α → α
  mug : UInt64 → ℕ

/-- What is in a dictionary, by the cursors. -/
abbrev CueDict (α : Type) := List (UInt64 × α)

/-- In the loop of `_cue_next()`, or in the loop of `_cue()` with what has been read. -/
inductive Mode (α : Type)
  | next
  | walk (ref : α)

/-- The state between two turns of the loops. -/
structure Cue (α : Type) where
  mode : Mode α
  s : List (CueFrame α)
  bsr : Bsr
  dict : CueDict α

/-- `ur_nref_tag()` of a direct reference. -/
def Direct (key : UInt64) : Prop := key >>> 62 = 0

instance (key : UInt64) : Decidable (Direct key) := inferInstanceAs (Decidable (_ = _))

section Machine

variable {α : Type} (rdr : Reader α) (mem : ℕ → UInt8)

/-- `ur_dict32_put()` and `ur_dict64_put()`, which begin with `ur_nref_mug()` of the key. A
dictionary that has no place for the key grows until `calloc` gives up. -/
def dictPut (dict : CueDict α) (key : UInt64) (val : α) : Except Stop (CueDict α) :=
  if ¬Direct key then .error .stray
  else if crowded rdr.mug (dict.map Prod.fst) key then .error .oom
  else .ok ((key, val) :: dict.filter fun entry ↦ entry.1 ≠ key)

/-- The back-reference in `_cue_next()`. -/
def cueBack (bsr : Bsr) (dict : CueDict α) : Except Stop (α × Bsr × (CueDict α)) :=
  match bsrRubLen mem bsr with
  | (.error res, _) => .error (.fail res)
  | (.ok len, bsr) =>
    if 62 < len then .error (.fail .meme)
    else
      let (bak, bsr) := bsr64Any mem bsr len
      match dict.lookup (UInt64.ofNat bak) with
      | none => .error (.fail .back)
      | some val => .ok (val, bsr, dict)

/-- The atom in `_cue_next()`. -/
def cueAtom (bits : UInt64) (bsr : Bsr) (dict : CueDict α) :
    Except Stop (α × Bsr × (CueDict α)) :=
  match bsrRubLen mem bsr with
  | (.error res, _) => .error (.fail res)
  | (.ok len, bsr) => do
    let (ref, bsr) ← rdr.atom mem bsr len
    let dict ← dictPut rdr dict bits ref
    pure (ref, bsr, dict)

/-- `_cue_next()` has returned. -/
def Cue.read (s : List (CueFrame α)) : α × Bsr × (CueDict α) → Cue α
  | (ref, bsr, dict) => ⟨.walk ref, s, bsr, dict⟩

/-- A turn of the loop of `_cue_next()`. -/
def nextTurn (s : List (CueFrame α)) (bsr : Bsr) (dict : CueDict α) : Except Stop (Cue α) :=
  match bsrTag mem bsr with
  | (.error res, _) => .error (.fail res)
  | (.ok .cell, red) => .ok ⟨.next, ⟨none, bsr.bits⟩ :: s, red, dict⟩
  | (.ok .back, red) => (cueBack mem red dict).map (Cue.read s)
  | (.ok .atom, red) => (cueAtom rdr mem bsr.bits red dict).map (Cue.read s)

/-- A turn of the loop of `_cue()`. -/
def walkTurn (ref : α) (f : CueFrame α) (s : List (CueFrame α)) (bsr : Bsr) (dict : CueDict α) :
    Except Stop (Cue α) :=
  match f.ref with
  | none => .ok ⟨.next, ⟨some ref, f.bits⟩ :: s, bsr, dict⟩
  | some hed => do
    let ref := rdr.cons hed ref
    let dict ← dictPut rdr dict f.bits ref
    pure ⟨.walk ref, s, bsr, dict⟩

/-- The loops, until the stack is empty. -/
def cueOn : ℕ → Cue α → Option (Except Stop α)
  | 0, _ => none
  | fuel + 1, ⟨.next, s, bsr, dict⟩ =>
    match nextTurn rdr mem s bsr dict with
    | .error stop => some (.error stop)
    | .ok c => cueOn fuel c
  | _ + 1, ⟨.walk ref, [], _, _⟩ => some (.ok ref)
  | fuel + 1, ⟨.walk ref, f :: s, bsr, dict⟩ =>
    match walkTurn rdr ref f s bsr dict with
    | .error stop => some (.error stop)
    | .ok c => cueOn fuel c

/-- A turn of one of the loops. -/
inductive Turn : Cue α → Cue α → Prop
  | next {s : List (CueFrame α)} {bsr : Bsr} {dict : CueDict α} {c : Cue α}
      (hturn : nextTurn rdr mem s bsr dict = .ok c) : Turn ⟨.next, s, bsr, dict⟩ c
  | walk {ref : α} {f : CueFrame α} {s : List (CueFrame α)} {bsr : Bsr} {dict : CueDict α}
    {c : Cue α}
      (hturn : walkTurn rdr ref f s bsr dict = .ok c) : Turn ⟨.walk ref, f :: s, bsr, dict⟩ c

end Machine

/-! ### The grammar -/

/-- The stream from a reader on is one noun, with what the decoder makes of it and its dictionary
before and after it. -/
inductive Spells {α : Type} (rdr : Reader α) (mem : ℕ → UInt8) :
    CueDict α → Bsr → α → CueDict α → Bsr → Prop
  | atom {dict dict' : CueDict α} {bsr red body last : Bsr} {len : ℕ} {ref : α}
      (htag : bsrTag mem bsr = (.ok .atom, red)) (hrub : bsrRubLen mem red = (.ok len, body))
      (hatom : rdr.atom mem body len = .ok (ref, last))
      (hput : dictPut rdr dict bsr.bits ref = .ok dict') :
      Spells rdr mem dict bsr ref dict' last
  | back {dict : CueDict α} {bsr red body : Bsr} {len : ℕ} {ref : α}
      (htag : bsrTag mem bsr = (.ok .back, red)) (hrub : bsrRubLen mem red = (.ok len, body))
      (hlen : len ≤ 62) (hdict : dict.lookup (UInt64.ofNat (bsr64Any mem body len).1) = some ref) :
      Spells rdr mem dict bsr ref dict (bsr64Any mem body len).2
  | cell {dict dict₁ dict₂ dict' : CueDict α} {bsr red bsr₁ last : Bsr} {hed tel : α}
      (htag : bsrTag mem bsr = (.ok .cell, red)) (hhed : Spells rdr mem dict red hed dict₁ bsr₁)
      (htel : Spells rdr mem dict₁ bsr₁ tel dict₂ last)
      (hput : dictPut rdr dict₂ bsr.bits (rdr.cons hed tel) = .ok dict') :
      Spells rdr mem dict bsr (rdr.cons hed tel) dict' last

variable {bsr red : Bsr} {len : ℕ}

section Grammar

variable {α : Type} {rdr : Reader α} {mem : ℕ → UInt8}

variable {dict dict' : CueDict α} {c : Cue α} {fuel : ℕ} {s : List (CueFrame α)} {ref : α}

theorem dictPut_ne_fail {key : UInt64} {val : α} (res : CueRes) :
    dictPut rdr dict key val ≠ .error (.fail res) := by
  unfold dictPut
  split_ifs <;> rintro ⟨⟩

/-! ### The machine reads nouns -/

theorem cueOn_next (hturn : nextTurn rdr mem s bsr dict = .ok c) :
    cueOn rdr mem (fuel + 1) ⟨.next, s, bsr, dict⟩ = cueOn rdr mem fuel c := by
  rw [cueOn, hturn]

theorem cueOn_walk {f : CueFrame α} (hturn : walkTurn rdr ref f s bsr dict = .ok c) :
    cueOn rdr mem (fuel + 1) ⟨.walk ref, f :: s, bsr, dict⟩ = cueOn rdr mem fuel c := by
  rw [cueOn, hturn]

theorem nextTurn_cell (htag : bsrTag mem bsr = (.ok .cell, red)) :
    nextTurn rdr mem s bsr dict = .ok ⟨.next, ⟨none, bsr.bits⟩ :: s, red, dict⟩ := by
  rw [nextTurn, htag]

theorem walkTurn_tail {bits : UInt64} {hed : α}
    (hput : dictPut rdr dict bits (rdr.cons hed ref) = .ok dict') :
    walkTurn rdr ref ⟨some hed, bits⟩ s bsr dict =
      .ok ⟨.walk (rdr.cons hed ref), s, bsr, dict'⟩ := by
  show (dictPut rdr dict bits (rdr.cons hed ref)).bind _ = _
  rw [hput]
  rfl

theorem Turn.cueOn_eq {c' : Cue α} (hturn : Turn rdr mem c c') (fuel : ℕ) :
    cueOn rdr mem (fuel + 1) c = cueOn rdr mem fuel c' := by
  cases hturn with
  | next hturn => exact cueOn_next hturn
  | walk hturn => exact cueOn_walk hturn

theorem cueOn_of_turns {c' : Cue α} (hturns : ReflTransGen (Turn rdr mem) c c') :
    ∃ turns, ∀ fuel, cueOn rdr mem (fuel + turns) c = cueOn rdr mem fuel c' := by
  induction hturns using ReflTransGen.head_induction_on with
  | refl => exact ⟨0, fun _ ↦ rfl⟩
  | head hturn _ ih =>
    obtain ⟨turns, hrun⟩ := ih
    exact ⟨turns + 1, fun fuel ↦ (hturn.cueOn_eq (fuel + turns)).trans (hrun fuel)⟩

theorem cueBack_ok {last : Bsr} (hback : cueBack mem bsr dict = .ok (ref, last, dict')) :
    ∃ len body, bsrRubLen mem bsr = (.ok len, body) ∧ len ≤ 62 ∧
      dict.lookup (UInt64.ofNat (bsr64Any mem body len).1) = some ref ∧
      last = (bsr64Any mem body len).2 ∧ dict' = dict := by
  unfold cueBack at hback
  split at hback
  · cases hback
  · next len body hrub =>
    dsimp only at hback
    split_ifs at hback with hlen
    · split at hback
      · cases hback
      · next val hdict =>
        obtain ⟨rfl, hrest⟩ := Prod.mk.inj (Except.ok.inj hback)
        obtain ⟨rfl, rfl⟩ := Prod.mk.inj hrest
        exact ⟨len, body, hrub, Nat.le_of_not_lt hlen, hdict, rfl, rfl⟩

theorem cueAtom_ok {bits : UInt64} {last : Bsr}
    (hatom : cueAtom rdr mem bits bsr dict = .ok (ref, last, dict')) :
    ∃ len body, bsrRubLen mem bsr = (.ok len, body) ∧ rdr.atom mem body len = .ok (ref, last) ∧
      dictPut rdr dict bits ref = .ok dict' := by
  unfold cueAtom at hatom
  split at hatom
  · cases hatom
  · next len body hrub =>
    change (rdr.atom mem body len).bind _ = _ at hatom
    cases hread : rdr.atom mem body len with
    | error stop => rw [hread] at hatom; cases hatom
    | ok read =>
      obtain ⟨ref', last'⟩ := read
      rw [hread] at hatom
      change (dictPut rdr dict bits ref').bind _ = _ at hatom
      cases hput : dictPut rdr dict bits ref' with
      | error stop => rw [hput] at hatom; cases hatom
      | ok dict₁ =>
        rw [hput] at hatom
        obtain ⟨rfl, hrest⟩ := Prod.mk.inj (Except.ok.inj hatom)
        obtain ⟨rfl, rfl⟩ := Prod.mk.inj hrest
        exact ⟨len, body, hrub, hread, hput⟩

theorem map_read_ok {res : Except Stop (α × Bsr × (CueDict α))}
    (hmap : res.map (Cue.read s) = .ok c) :
    ∃ ref last dict, res = .ok (ref, last, dict) ∧ c = ⟨.walk ref, s, last, dict⟩ := by
  cases res with
  | error stop => cases hmap
  | ok read => exact ⟨read.1, read.2.1, read.2.2, rfl, (Except.ok.inj hmap).symm⟩

/-- What a turn of the loop of `_cue_next()` can do. -/
theorem nextTurn_cases (hturn : nextTurn rdr mem s bsr dict = .ok c) :
    (∃ red, bsrTag mem bsr = (.ok .cell, red) ∧ c = ⟨.next, ⟨none, bsr.bits⟩ :: s, red, dict⟩) ∨
    (∃ red len body ref, bsrTag mem bsr = (.ok .back, red) ∧ bsrRubLen mem red = (.ok len, body) ∧
    len ≤ 62 ∧
      dict.lookup (UInt64.ofNat (bsr64Any mem body len).1) = some ref ∧
        c = ⟨.walk ref, s, (bsr64Any mem body len).2, dict⟩) ∨
    (∃ red len body ref last dict', bsrTag mem bsr = (.ok .atom, red) ∧
    bsrRubLen mem red = (.ok len, body) ∧
      rdr.atom mem body len = .ok (ref, last) ∧ dictPut rdr dict bsr.bits ref = .ok dict' ∧
        c = ⟨.walk ref, s, last, dict'⟩) := by
  unfold nextTurn at hturn
  split at hturn
  · cases hturn
  · next red htag => exact .inl ⟨red, htag, (Except.ok.inj hturn).symm⟩
  · next red htag =>
    obtain ⟨ref, last, dict', hback, rfl⟩ := map_read_ok hturn
    obtain ⟨len, body, hrub, hlen, hdict, rfl, rfl⟩ := cueBack_ok hback
    exact .inr (.inl ⟨red, len, body, ref, htag, hrub, hlen, hdict, rfl⟩)
  · next red htag =>
    obtain ⟨ref, last, dict', hatom, rfl⟩ := map_read_ok hturn
    obtain ⟨len, body, hrub, hread, hput⟩ := cueAtom_ok hatom
    exact .inr (.inr ⟨red, len, body, ref, last, dict', htag, hrub, hread, hput, rfl⟩)

theorem walkTurn_tail_cases {bits : UInt64} {hed : α}
    (hturn : walkTurn rdr ref ⟨some hed, bits⟩ s bsr dict = .ok c) :
    ∃ dict', dictPut rdr dict bits (rdr.cons hed ref) = .ok dict' ∧
      c = ⟨.walk (rdr.cons hed ref), s, bsr, dict'⟩ := by
  change (dictPut rdr dict bits (rdr.cons hed ref)).bind _ = _ at hturn
  cases hput : dictPut rdr dict bits (rdr.cons hed ref) with
  | error stop =>
    rw [hput] at hturn
    cases hturn
  | ok dict' =>
    rw [hput] at hturn
    exact ⟨dict', rfl, (Except.ok.inj hturn).symm⟩

theorem cueOn_next_ok {out : α} (hrun : cueOn rdr mem fuel ⟨.next, s, bsr, dict⟩ = some (.ok out)) :
    ∃ less c, fuel = less + 1 ∧ nextTurn rdr mem s bsr dict = .ok c ∧
    cueOn rdr mem less c = some (.ok out) := by
  cases fuel with
  | zero => cases hrun
  | succ less =>
    rw [cueOn] at hrun
    split at hrun
    · cases hrun
    · next c hturn => exact ⟨less, c, rfl, hturn, hrun⟩

theorem cueOn_walk_ok {f : CueFrame α} {out : α}
    (hrun : cueOn rdr mem fuel ⟨.walk ref, f :: s, bsr, dict⟩ = some (.ok out)) :
    ∃ less c, fuel = less + 1 ∧ walkTurn rdr ref f s bsr dict = .ok c ∧
    cueOn rdr mem less c = some (.ok out) := by
  cases fuel with
  | zero => cases hrun
  | succ less =>
    rw [cueOn] at hrun
    split at hrun
    · cases hrun
    · next c hturn => exact ⟨less, c, rfl, hturn, hrun⟩

/-- Where the machine comes to a good end, there is a noun. -/
theorem spells_of_cueOn (fuel : ℕ) {s : List (CueFrame α)} {bsr : Bsr} {dict : CueDict α} {out : α}
    (hrun : cueOn rdr mem fuel ⟨.next, s, bsr, dict⟩ = some (.ok out)) :
    ∃ last ref dict' less, less < fuel ∧ Spells rdr mem dict bsr ref dict' last ∧
      cueOn rdr mem less ⟨.walk ref, s, last, dict'⟩ = some (.ok out) := by
  obtain ⟨less, c, rfl, hturn, hnext⟩ := cueOn_next_ok hrun
  rcases nextTurn_cases hturn with ⟨red, htag, rfl⟩ |
    ⟨red, len, body, ref, htag, hrub, hlen, hdict, rfl⟩ |
    ⟨red, len, body, ref, last, dict', htag, hrub, hatom, hput, rfl⟩
  · obtain ⟨bsr₁, hed, dict₁, less₁, hlt₁, hhed, hrun₁⟩ := spells_of_cueOn less hnext
    obtain ⟨less₂, _, rfl, hturn₁, hrun₂⟩ := cueOn_walk_ok hrun₁
    obtain rfl := Except.ok.inj hturn₁
    obtain ⟨last, tel, dict₂, less₃, hlt₃, htel, hrun₃⟩ := spells_of_cueOn less₂ hrun₂
    obtain ⟨less₄, _, rfl, hturn₃, hrun₄⟩ := cueOn_walk_ok hrun₃
    obtain ⟨dict', hput, rfl⟩ := walkTurn_tail_cases hturn₃
    exact ⟨last, _, dict', less₄, by omega, .cell htag hhed htel hput, hrun₄⟩
  · exact ⟨_, ref, dict, less, Nat.lt_succ_self less, .back htag hrub hlen hdict, hnext⟩
  · exact ⟨last, ref, dict', less, Nat.lt_succ_self less, .atom htag hrub hatom hput, hnext⟩

end Grammar

/-! ### Readers go on -/

section Sane

variable {mem : ℕ → UInt8} {e p : ℕ} {bits : UInt64}

/-- The reader stands in the stream that ends at a byte, at a bit or behind it. -/
def From (e p : ℕ) (bsr : Bsr) : Prop := ∃ q bits, bsr = seek e q bits ∧ p ≤ q

theorem From.mono {q : ℕ} (hfrom : From e q bsr) (hle : p ≤ q) : From e p bsr := by
  obtain ⟨q', bits, rfl, hle'⟩ := hfrom
  exact ⟨q', bits, rfl, Nat.le_trans hle hle'⟩

theorem from_bit {bit : Bool} (hbit : bsrBit mem (seek e p bits) = some (bit, red)) :
    p < 8 * e ∧ From e (p + 1) red := by
  rw [bsrBit_seek] at hbit
  split_ifs at hbit with hlt
  exact ⟨hlt, p + 1, bits + 1, (Prod.mk.inj (Option.some.inj hbit)).2.symm, Nat.le_refl _⟩

/-- A tag takes a bit. -/
theorem from_tag {tag : CueTag} (htag : bsrTag mem (seek e p bits) = (.ok tag, red)) :
    p < 8 * e ∧ From e (p + 1) red := by
  rw [bsrTag_seek] at htag
  unfold bsrTagSlow at htag
  split at htag
  · cases htag
  · next red' hbit =>
    obtain rfl := (Prod.mk.inj htag).2
    exact from_bit hbit
  · next red' hbit =>
    obtain ⟨hlt, q, bits', rfl, hle⟩ := from_bit hbit
    refine ⟨hlt, ?_⟩
    split at htag
    · cases htag
    · next red'' hbit' =>
      obtain rfl := (Prod.mk.inj htag).2
      exact (from_bit hbit').2.mono (by omega)
    · next red'' hbit' =>
      obtain rfl := (Prod.mk.inj htag).2
      exact (from_bit hbit').2.mono (by omega)

theorem from_logSlow {more i zeros : ℕ}
    (hlog : logSlow mem more i (seek e p bits) = (.ok zeros, red)) : From e p red := by
  induction more generalizing i p bits with
  | zero => cases hlog
  | succ more ih =>
    rw [logSlow] at hlog
    split at hlog
    · cases hlog
    · next red' hbit =>
      obtain rfl := (Prod.mk.inj hlog).2
      exact (from_bit hbit).2.mono (Nat.le_succ p)
    · next red' hbit =>
      obtain ⟨-, q, bits', rfl, hle⟩ := from_bit hbit
      exact (ih hlog).mono (by omega)

theorem from_word (len : ℕ) : From e p (bsr64Any mem (seek e p bits) len).2 := by
  rw [bsr64Any, bsrWordAny_seek (k := 8) rfl, bitsAny_state]
  exact ⟨_, _, rfl, Nat.le_add_right p _⟩

theorem from_rub {body : Bsr} (hrub : bsrRubLen mem (seek e p bits) = (.ok len, body)) :
    From e p body := by
  unfold bsrRubLen at hrub
  have hblank : ¬Blank mem (seek e p bits) := by
    intro hblank
    rw [(bsrLog_blank hblank).1] at hrub
    cases hrub
  rw [bsrLog_seek hblank] at hrub
  split at hrub
  · cases hrub
  · next zeros red hlog =>
    have hfrom := from_logSlow hlog
    split_ifs at hrub with hlong
    · cases hrub
    split at hrub
    · exact (Prod.mk.inj hrub).2 ▸ hfrom
    · exact (Prod.mk.inj hrub).2 ▸ hfrom
    · obtain ⟨q, bits', rfl, hle⟩ := hfrom
      exact (Prod.mk.inj hrub).2 ▸ (from_word _).mono hle

theorem From.rub {body : Bsr} (hfrom : From e p bsr) (hrub : bsrRubLen mem bsr = (.ok len, body)) :
    From e p body := by
  obtain ⟨q, bits, rfl, hle⟩ := hfrom
  exact (from_rub hrub).mono hle

/-- Where the count wraps, `ur_bsr_skip_any()` stays in the last byte. -/
theorem bsrSkipAny_wraps (hwraps : Wraps (seek e p bits) len) :
    p < 8 * e ∧ p % 8 + len % 8 < 8 ∧ bsrSkipAny (seek e p bits) len =
      ⟨1, bits + UInt64.ofNat len, p % 8 + len % 8, e - 1⟩ := by
  have hlt : p < 8 * e := by
    by_contra hge
    rw [seek_of_ge (by omega)] at hwraps
    exact hwraps.1 rfl
  rw [seek_of_lt hlt] at hwraps ⊢
  obtain ⟨-, hlong, hfew⟩ := hwraps
  dsimp only at hlong hfew
  refine ⟨hlt, by omega, ?_⟩
  have hneed : (len / 8 + if len % 8 ≠ 0 then 1 else 0) ≥ e - p / 8 := by
    split_ifs <;> omega
  unfold bsrSkipAny
  dsimp only
  rw [if_neg (by omega), if_pos hneed, bitsPast_eq (by omega), if_pos hfew,
    show p / 8 + (min (e - p / 8 - 1) (len / 8) + 1) - 1 = e - 1 by omega]

theorem from_skip (len : ℕ) : From e p (bsrSkipAny (seek e p bits) len) := by
  by_cases hwraps : Wraps (seek e p bits) len
  · obtain ⟨hlt, hoff, hskip⟩ := bsrSkipAny_wraps hwraps
    refine ⟨8 * (e - 1) + (p % 8 + len % 8), bits + UInt64.ofNat len, ?_, by omega⟩
    rw [hskip, seek_of_lt (by omega), show e - (8 * (e - 1) + (p % 8 + len % 8)) / 8 = 1 by omega,
      show (8 * (e - 1) + (p % 8 + len % 8)) % 8 = p % 8 + len % 8 by omega,
      show (8 * (e - 1) + (p % 8 + len % 8)) / 8 = e - 1 by omega]
  · exact ⟨p + len, _, (bsrSkipAny_seek len).mpr hwraps, Nat.le_add_right p len⟩

/-- The body starts on a byte boundary and the count of its bits wraps. -/
def Slips (bsr : Bsr) (len : ℕ) : Prop := bsr.off = 0 ∧ Wraps bsr len

/-- Inside a byte `ur_bsr_bytes_any()` counts as `ur_bsr_skip_any()` does. -/
theorem bytes_eq_skip (hslips : ¬Slips (seek e p bits) len) :
    (bsrBytesAny mem (seek e p bits) len fun _ ↦ 0).2 = bsrSkipAny (seek e p bits) len := by
  by_cases hwraps : Wraps (seek e p bits) len
  · obtain ⟨hlt, hoff, hskip⟩ := bsrSkipAny_wraps hwraps
    have hinside : p % 8 ≠ 0 := by
      intro hzero
      rw [Slips, seek_of_lt hlt] at hslips
      rw [seek_of_lt hlt] at hwraps
      exact hslips ⟨hzero, hwraps⟩
    rw [hskip]
    rw [seek_of_lt hlt] at hwraps ⊢
    obtain ⟨-, hlong, hfew⟩ := hwraps
    dsimp only at hlong hfew
    have hneed : (len / 8 + if len % 8 ≠ 0 then 1 else 0) ≥ e - p / 8 := by
      split_ifs <;> omega
    unfold bsrBytesAny
    dsimp only
    rw [if_neg (by omega), if_neg hinside, if_pos hneed, bitsPast_eq (by omega), if_pos hfew,
      show p / 8 + min (e - p / 8 - 1) (len / 8) = e - 1 by omega]
  · rw [(bsrSkipAny_seek len).mpr hwraps]
    by_cases hlt : p < 8 * e
    · by_cases hoff : p % 8 = 0
      · exact (bsrBytesAny_aligned hlt hoff len).1
      · exact (bsrBytesAny_unaligned hlt hoff len hwraps).1
    · rw [seek_of_ge (by omega), seek_of_ge (by omega)]
      rfl

theorem from_bytes (len : ℕ) : From e p (bsrBytesAny mem (seek e p bits) len fun _ ↦ 0).2 := by
  by_cases hslips : Slips (seek e p bits) len
  · obtain ⟨hoff, hwraps⟩ := hslips
    obtain ⟨hlt, -, -⟩ := bsrSkipAny_wraps hwraps
    rw [seek_of_lt hlt] at hoff
    rw [(bsrBytesAny_aligned hlt hoff len).1]
    exact ⟨_, _, rfl, Nat.le_add_right p len⟩
  · rw [bytes_eq_skip hslips]
    exact from_skip len

end Sane

/-! ### The loops end -/

section Ends

variable {α : Type} {rdr : Reader α} {mem : ℕ → UInt8} {e p : ℕ}

/-- The turns that the cells on the stack still need. -/
def owed (s : List (CueFrame α)) : ℕ := (s.map fun f ↦ if f.ref.isNone then 2 else 1).sum

theorem owed_head (ref : Option α) (bits : UInt64) (s : List (CueFrame α)) :
    owed (⟨ref, bits⟩ :: s) = (if ref.isNone then 2 else 1) + owed s := by
  rw [owed, List.map_cons, List.sum_cons]
  rfl

/-- A turn of the loop of `_cue_next()` takes a bit at least. -/
theorem from_nextTurn
    (hatom : ∀ q bits len ref last, rdr.atom mem (seek e q bits) len = .ok (ref, last) →
    From e q last) {q : ℕ} {bits : UInt64} {s : List (CueFrame α)} {dict : CueDict α} {c : Cue α}
    (hturn : nextTurn rdr mem s (seek e q bits) dict = .ok c) :
    q < 8 * e ∧ From e (q + 1) c.bsr ∧ owed c.s ≤ owed s + 2 := by
  rcases nextTurn_cases hturn with ⟨red, htag, rfl⟩ | ⟨red, len, body, ref, htag, hrub, -, -, rfl⟩ |
    ⟨red, len, body, ref, last, dict', htag, hrub, hread, -, rfl⟩
  · obtain ⟨hlt, hfrom⟩ := from_tag htag
    refine ⟨hlt, hfrom, ?_⟩
    rw [owed_head]
    exact Nat.le_of_eq (Nat.add_comm 2 _)
  · obtain ⟨hlt, hfrom⟩ := from_tag htag
    obtain ⟨q', bits', rfl, hle⟩ := hfrom.rub hrub
    exact ⟨hlt, (from_word len).mono hle, Nat.le_add_right _ 2⟩
  · obtain ⟨hlt, hfrom⟩ := from_tag htag
    obtain ⟨q', bits', rfl, hle⟩ := hfrom.rub hrub
    exact ⟨hlt, (hatom _ _ _ _ _ hread).mono hle, Nat.le_add_right _ 2⟩

/-- The reader at the start of a stream that is not empty. -/
theorem sane_init {byt : ℕ} (hlen : len ≠ 0) : bsrSane ⟨len, 0, 0, byt⟩ :=
  ⟨Nat.zero_lt_succ 7, fun hleft ↦ absurd hleft hlen⟩

theorem from_init {len byt : ℕ} (hlen : len ≠ 0) : ∃ e p, From e p ⟨len, 0, 0, byt⟩ := by
  obtain ⟨e, p, hseek⟩ := exists_seek (sane_init hlen)
  exact ⟨e, p, p, _, hseek, Nat.le_refl p⟩

end Ends

end Vere.Ur.BitReader
