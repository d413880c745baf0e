import Mathlib.Logic.Function.Basic
import Vere.Noun.Murmur
import Vere.Ur.Bitstream
import Vere.Ur.HashconsDict

/-!
# Jam and cue

`pkg/ur/serial.c`. Jam writes a noun as a bit string, and a noun that it has written before as a
reference to the cursor where it did. Cue reads the bit string back with a stack of the cells whose
head or tail is still to come. References are hash-consed in `ur`, so that two of them are equal
when the nouns are, and nouns stand for them here.

A put into a dictionary of `ur` does not end when ten other keys have the mug of a new one (`keep`):
`urJam` and `urCue` have such dictionaries, and `jam` and `cue` ones that take every key. `cue_jam`
is the round trip.
-/

set_option autoImplicit false

namespace Vere.Ur

open Lib.Bits

/-! ### Jam -/

section Walk

variable {σ : Type*} (atom : ℕ → σ → σ) (cell : Noun → σ → σ × Bool)

/-- `ur_walk_fore_with()`: visit an atom or a cell before its head and tail, which a cell that is
answered with false skips. -/
def walkForeWith (top : List Noun) (v : σ) : σ :=
  match top with
  | [] => v
  | .atom a :: top => walkForeWith top (atom a v)
  | .cell h t :: top =>
    match cell (.cell h t) v with
    | (v, true) => walkForeWith (h :: t :: top) v
    | (v, false) => walkForeWith top v
termination_by (top.map Noun.size).sum
decreasing_by
  all_goals simp only [List.map_cons, List.sum_cons, Noun.size]; omega

/-- The traversal of one noun. -/
def visit : Noun → σ → σ
  | .atom a, v => atom a v
  | .cell h t, v =>
    match cell (.cell h t) v with
    | (v, true) => visit t (visit h v)
    | (v, false) => v

/-- The stack holds the nouns that are still to be traversed. -/
theorem walkForeWith_eq_foldl (top : List Noun) (v : σ) :
    walkForeWith atom cell top v = top.foldl (fun v n ↦ visit atom cell n v) v := by
  fun_induction walkForeWith atom cell top v with
  | case1 v => rfl
  | case2 v a top ih => exact ih
  | case3 v h t top v' hcell ih => simpa [visit, hcell] using ih
  | case4 v h t top v' hcell ih => simpa [visit, hcell] using ih

end Walk

/-- `ur_jam_t`: the cursors of the nouns written, and the writer. -/
structure Jam where
  dict : Noun → Option ℕ
  bsw : Bsw

/-- `_bsw_atom()`: an atom of at most 62 bits is direct. -/
def bswAtom (bsw : Bsw) (a len : ℕ) : Bsw :=
  if a < 2 ^ 62 then bswAtom64 bsw len a else bswAtomBytes bsw len a

/-- `_jam_atom()`. -/
def jamAtom (a : ℕ) (j : Jam) : Jam :=
  let len := a.size
  match j.dict (.atom a) with
  | none => ⟨Function.update j.dict (.atom a) (some j.bsw.bits), bswAtom j.bsw a len⟩
  | some bak =>
    let len_bak := bak.size
    if len ≤ len_bak then { j with bsw := bswAtom j.bsw a len }
    else { j with bsw := bswBack64 j.bsw len_bak bak }

/-- `_jam_cell()`. -/
def jamCell (ref : Noun) (j : Jam) : Jam × Bool :=
  match j.dict ref with
  | none => (⟨Function.update j.dict ref (some j.bsw.bits), bswCell j.bsw⟩, true)
  | some bak => ({ j with bsw := bswBack64 j.bsw bak.size bak }, false)

/-- The writer at the end of `_jam()`. -/
def jamBsw (ref : Noun) : Bsw :=
  (walkForeWith jamAtom jamCell [ref] ⟨fun _ ↦ none, bswInit⟩).bsw

/-- What `ur_jam()` writes, the number of bits and the bytes, when its dictionary takes every key.
-/
def jam (ref : Noun) : ℕ × List UInt8 := bswDone (jamBsw ref)

/-- `_jam_atom()` with the keys of its dictionary, unless a put has not ended. -/
def jamAtomPut (mug : Noun → ℕ) (a : ℕ) (v : Option (List Noun × Jam)) :
    Option (List Noun × Jam) := do
  let (keys, j) ← v
  let keys ← keep mug keys (.atom a)
  pure (keys, jamAtom a j)

/-- `_jam_cell()` with the keys of its dictionary, unless a put has not ended. -/
def jamCellPut (mug : Noun → ℕ) (ref : Noun) (v : Option (List Noun × Jam)) :
    Option (List Noun × Jam) × Bool :=
  match v with
  | none => (none, false)
  | some (keys, j) =>
    match keep mug keys ref with
    | none => (none, false)
    | some keys => (some (keys, (jamCell ref j).1), (jamCell ref j).2)

/-- `ur_jam()`, if it ends: the number of bits and the bytes. -/
def urJam (mug : Noun → ℕ) (ref : Noun) : Option (ℕ × List UInt8) := do
  let (_, j) ← walkForeWith (jamAtomPut mug) (jamCellPut mug) [ref]
    (some ([], ⟨fun _ ↦ none, bswInit⟩))
  pure (bswDone j.bsw)

/-! ### Cue -/

/-- `_cue_frame_t`: a cell whose head, and then whose tail, is being read. -/
structure Frame where
  ref : Option Noun
  bits : ℕ

/-- How a decoder reads atoms: those of at most `direct` bits in a word, and others through a
buffer, which it may refuse; and the dictionary where it keeps what it has read. -/
structure Reader (δ ε : Type) where
  direct : ℕ
  refuse : ℕ → Bool
  past : Past
  fail : CueRes → ε
  get : δ → ℕ → Option Noun
  put : δ → ℕ → Noun → Except ε δ

/-- A dictionary that takes every key. -/
def mapReader (direct : ℕ) (refuse : ℕ → Bool) (past : Past) : Reader (ℕ → Option Noun) CueRes :=
  ⟨direct, refuse, past, id, id, fun dict bits ref ↦ .ok (Function.update dict bits (some ref))⟩

@[simp] theorem mapReader_get (direct : ℕ) (refuse : ℕ → Bool) (past : Past)
    (dict : ℕ → Option Noun) :
    (mapReader direct refuse past).get dict = dict := rfl

@[simp] theorem mapReader_put (direct : ℕ) (refuse : ℕ → Bool) (past : Past)
    (dict : ℕ → Option Noun) (bits : ℕ) (ref : Noun) :
    (mapReader direct refuse past).put dict bits ref = .ok (Function.update dict bits (some ref)) :=
  rfl

section Reading

variable {δ ε : Type}

/-- Read the body of an atom. -/
def Reader.atom (rdr : Reader δ ε) (bsr : Bsr) (len : ℕ) : Except CueRes (ℕ × Bsr) :=
  if len ≤ rdr.direct then .ok (bsr64Any bsr len)
  else if rdr.refuse len then .error .meme
  else .ok (bsrBytesAny rdr.past bsr len)

theorem bsrTag_length_lt {bsr red : Bsr} {tag : CueTag} (htag : bsrTag bsr = .ok (tag, red)) :
    red.rest.length < bsr.rest.length := by
  obtain ⟨bits, rest⟩ := bsr
  have hskip : ∃ len, 0 < len ∧ 0 < rest.length ∧ red = Bsr.skip ⟨bits, rest⟩ len := by
    unfold bsrTag at htag
    split at htag <;> simp_all
    · exact ⟨1, by decide, htag.2.symm⟩
    · exact ⟨2, by decide, htag.2.symm⟩
    · exact ⟨2, by decide, htag.2.symm⟩
  obtain ⟨len, hlen, hpos, rfl⟩ := hskip
  simp only [Bsr.skip, List.length_drop]
  omega

/-- The loop of `_cue_next()`, `_cs_cue_xeno_next()` and `_cs_cue_bytes_next()`: the next atom or
back-reference, below the cells that it is in the head of. -/
def cueNext (rdr : Reader δ ε) (s : List Frame) (bsr : Bsr) (dict : δ) :
    Except ε (Noun × List Frame × Bsr × δ) :=
  match _htag : bsrTag bsr with
  | .error res => .error (rdr.fail res)
  | .ok (.cell, red) => cueNext rdr (⟨none, bsr.bits⟩ :: s) red dict
  | .ok (.back, red) =>
    match bsrRubLen red with
    | .error res => .error (rdr.fail res)
    | .ok (len, red) =>
      if 62 < len then .error (rdr.fail .meme)
      else
        let (bak, red) := bsr64Any red len
        match rdr.get dict bak with
        | none => .error (rdr.fail .back)
        | some val => .ok (val, s, red, dict)
  | .ok (.atom, red) =>
    match bsrRubLen red with
    | .error res => .error (rdr.fail res)
    | .ok (len, red) =>
      match rdr.atom red len with
      | .error res => .error (rdr.fail res)
      | .ok (a, red) =>
        match rdr.put dict bsr.bits (.atom a) with
        | .error stop => .error stop
        | .ok dict => .ok (.atom a, s, red, dict)
termination_by bsr.rest.length
decreasing_by exact bsrTag_length_lt _htag

theorem Bsr.length_skip_le (bsr : Bsr) (len : ℕ) :
    (bsr.skip len).rest.length ≤ bsr.rest.length := by
  simp [Bsr.skip]

theorem bsrLog_length_le {bsr red : Bsr} {len : ℕ} (hlog : bsrLog bsr = .ok (len, red)) :
    red.rest.length ≤ bsr.rest.length := by
  unfold bsrLog at hlog
  dsimp only at hlog
  split_ifs at hlog
  obtain ⟨_, rfl⟩ := Prod.mk.inj (Except.ok.inj hlog)
  exact bsr.length_skip_le _

theorem bsrRubLen_length_le {bsr red : Bsr} {len : ℕ} (hrub : bsrRubLen bsr = .ok (len, red)) :
    red.rest.length ≤ bsr.rest.length := by
  unfold bsrRubLen at hrub
  split at hrub
  · simp at hrub
  · rename_i _ _ hlog
    have hle := bsrLog_length_le hlog
    split_ifs at hrub
    split at hrub
    · obtain ⟨_, rfl⟩ := Prod.mk.inj (Except.ok.inj hrub)
      exact hle
    · obtain ⟨_, rfl⟩ := Prod.mk.inj (Except.ok.inj hrub)
      exact hle
    · obtain ⟨_, rfl⟩ := Prod.mk.inj (Except.ok.inj hrub)
      exact (Bsr.length_skip_le _ _).trans hle

theorem bsrBytesAny_length_le (past : Past) (bsr : Bsr) (len : ℕ) :
    (bsrBytesAny past bsr len).2.rest.length ≤ bsr.rest.length := by
  unfold bsrBytesAny
  split_ifs
  · exact bsr.length_skip_le _
  · simp

theorem Reader.atom_length_le {rdr : Reader δ ε} {bsr red : Bsr} {len a : ℕ}
    (hatom : rdr.atom bsr len = .ok (a, red)) : red.rest.length ≤ bsr.rest.length := by
  unfold Reader.atom at hatom
  split_ifs at hatom
  · rw [← (Prod.mk.inj (Except.ok.inj hatom)).2]
    exact bsr.length_skip_le _
  · have hred : red = (bsrBytesAny rdr.past bsr len).2 :=
      (congrArg Prod.snd (Except.ok.inj hatom)).symm
    rw [hred]
    exact bsrBytesAny_length_le rdr.past bsr len

/-- Reading consumes bits. -/
theorem cueNext_length_lt {rdr : Reader δ ε} {s s' : List Frame} {bsr red : Bsr} {dict dict' : δ}
    {ref : Noun} (hnext : cueNext rdr s bsr dict = .ok (ref, s', red, dict')) :
    red.rest.length < bsr.rest.length := by
  fun_induction cueNext rdr s bsr dict with
  | case2 s bsr red₁ htag ih => exact (ih hnext).trans (bsrTag_length_lt htag)
  | case6 s bsr red₁ htag len red₂ hrub hle bak red₃ hany val hdict =>
    obtain ⟨_, _, rfl, _⟩ := by simpa using hnext
    have hlt := bsrTag_length_lt htag
    have hrest := bsrRubLen_length_le hrub
    have hskip : red₃ = red₂.skip (min 64 len) := (congrArg Prod.snd hany).symm
    have hbody := red₂.length_skip_le (min 64 len)
    rw [hskip]
    omega
  | case10 s bsr red₁ htag len red₂ hrub a red₃ hatom dict₁ hput =>
    obtain ⟨_, _, rfl, _⟩ := by simpa using hnext
    have hlt := bsrTag_length_lt htag
    have hrest := bsrRubLen_length_le hrub
    have hbody := Reader.atom_length_le hatom
    omega
  | _ => simp at hnext

/-- The loop of `_cue()`, `_cs_cue_xeno()` and `u3s_cue_bytes()` over the stack; with the reader at
its end. -/
def cueWalk (rdr : Reader δ ε) (ref : Noun) (s : List Frame) (bsr : Bsr) (dict : δ) :
    Except ε (Noun × Bsr) :=
  match s with
  | [] => .ok (ref, bsr)
  | ⟨none, bits⟩ :: s =>
    match _hnext : cueNext rdr (⟨some ref, bits⟩ :: s) bsr dict with
    | .error res => .error res
    | .ok (ref, s, bsr, dict) => cueWalk rdr ref s bsr dict
  | ⟨some hed, bits⟩ :: s =>
    let ref := .cell hed ref
    match rdr.put dict bits ref with
    | .error stop => .error stop
    | .ok dict => cueWalk rdr ref s bsr dict
termination_by (bsr.rest.length, s.length)
decreasing_by
  · exact Prod.Lex.left _ _ (cueNext_length_lt _hnext)
  · exact Prod.Lex.right _ (by simp)

/-- The reading of the next noun, and of everything after it. -/
def cueOn (rdr : Reader δ ε) (s : List Frame) (bsr : Bsr) (dict : δ) : Except ε (Noun × Bsr) :=
  match cueNext rdr s bsr dict with
  | .error stop => .error stop
  | .ok (ref, s, bsr, dict) => cueWalk rdr ref s bsr dict

/-- `_cue()`: the noun, and the reader at its end. The cursor must fit in a direct atom. -/
def cueRead (rdr : Reader δ ε) (dict : δ) (byt : List UInt8) : Except ε (Noun × Bsr) :=
  if 0x7ffffffffffffff < byt.length then .error (rdr.fail .meme)
  else cueOn rdr [] (bsrInit byt) dict

end Reading

/-- How `ur_cue()` reads atoms. -/
abbrev urReader (past : Past) : Reader (ℕ → Option Noun) CueRes := mapReader 62 (fun _ ↦ false) past

/-- `ur_cue()`, when its dictionaries take every key. -/
def cue (past : Past) (byt : List UInt8) : Except CueRes Noun :=
  (cueRead (urReader past) (fun _ ↦ none) byt).map Prod.fst

/-- The dictionary of `ur_cue()` with its keys, and the large atoms and the cells of the root. -/
structure CueTables where
  keys : List ℕ
  dict : ℕ → Option Noun
  atoms : List Noun
  cells : List Noun

/-- `ur_coin_bytes_unsafe()` or `ur_cons()`, if it ends. -/
def CueTables.coin (mug : Noun → ℕ) (tab : CueTables) : Noun → Option CueTables
  | .atom a => if a < 2 ^ 62 then some tab else do
      let atoms ← keep mug tab.atoms (.atom a)
      pure { tab with atoms }
  | .cell h t => do
      let cells ← keep mug tab.cells (.cell h t)
      pure { tab with cells }

/-- What is read is a noun of the root, and `ur_dict64_put()` has it under its cursor, if these end.
-/
def CueTables.put (mug : Noun → ℕ) (tab : CueTables) (bits : ℕ) (ref : Noun) :
    Option CueTables := do
  let tab ← tab.coin mug ref
  let keys ← keep (fun bak ↦ mug (.atom bak)) tab.keys bits
  pure { tab with keys, dict := Function.update tab.dict bits (some ref) }

/-- How `ur_cue()` reads, with failures that are `none` if it does not end. -/
def tableReader (mug : Noun → ℕ) (past : Past) : Reader CueTables (Option CueRes) where
  direct := 62
  refuse _ := false
  past := past
  fail := some
  get := CueTables.dict
  put tab bits ref :=
    match tab.put mug bits ref with
    | none => .error none
    | some tab => .ok tab

/-- `ur_cue()` in a root that has atoms and cells: the noun, and the reader at its end. -/
def urCue (mug : Noun → ℕ) (past : Past) (atoms cells : List Noun) (byt : List UInt8) :
    Except (Option CueRes) (Noun × Bsr) :=
  cueRead (tableReader mug past) ⟨[], fun _ ↦ none, atoms, cells⟩ byt

/-! ### What the writer writes -/

theorem bswAtom_size (bsw : Bsw) (a : ℕ) :
    bswAtom bsw a a.size = bsw.write (false :: mat a) := by
  have hbytes : bswAtomBytes bsw a.size a = bsw.write (false :: mat a) := by
    rw [bswAtomBytes, bswMat_size, bswBit, Bsw.write_write]
    rfl
  by_cases hlt : a < 2 ^ 62
  · have hsize : a.size ≤ 62 := Nat.size_le.mpr hlt
    have hlen : min 64 (a.size % 2 ^ 8) = a.size := by omega
    rw [bswAtom, if_pos hlt, bswAtom64, hlen]
    exact hbytes
  · rw [bswAtom, if_neg hlt]
    exact hbytes

theorem bswBack64_size (bsw : Bsw) {bak : ℕ} (hlt : bak < 2 ^ 64) :
    bswBack64 bsw bak.size bak = bsw.write (true :: true :: mat bak) := by
  have hsize : bak.size ≤ 64 := Nat.size_le.mpr hlt
  have hlen : min 64 (bak.size % 2 ^ 8) = bak.size := by omega
  rw [bswBack64, hlen, bswMat_size, bswBits, Bsw.write_write]
  rfl

theorem bswCell_eq (bsw : Bsw) : bswCell bsw = bsw.write [true, false] := rfl

/-- Writing only appends. -/
def Appends (bsw bsw' : Bsw) : Prop := ∃ more, bsw' = bsw.write more

theorem Appends.trans {bsw bsw' bsw'' : Bsw} (hfst : Appends bsw bsw') (hsnd : Appends bsw' bsw'') :
    Appends bsw bsw'' := by
  obtain ⟨more, rfl⟩ := hfst
  obtain ⟨last, rfl⟩ := hsnd
  exact ⟨more ++ last, Bsw.write_write bsw more last⟩

theorem Appends.length_le {bsw bsw' : Bsw} (happ : Appends bsw bsw') :
    bsw.out.length ≤ bsw'.out.length := by
  obtain ⟨more, rfl⟩ := happ
  simp [Bsw.write]

theorem appends_bswMat (bsw : Bsw) (len val : ℕ) : Appends bsw (bswMat bsw len val) := by
  unfold bswMat
  split_ifs
  · exact ⟨_, rfl⟩
  · simp only [bswBits, bswBex, Bsw.write_write]
    exact ⟨_, rfl⟩

theorem appends_bswBack64 (bsw : Bsw) (len val : ℕ) : Appends bsw (bswBack64 bsw len val) :=
  Appends.trans ⟨_, rfl⟩ (appends_bswMat _ _ _)

theorem appends_jamAtom (a : ℕ) (j : Jam) : Appends j.bsw (jamAtom a j).bsw := by
  have hatom : Appends j.bsw (bswAtom j.bsw a a.size) := ⟨_, bswAtom_size j.bsw a⟩
  unfold jamAtom
  dsimp only
  split
  · exact hatom
  · split_ifs
    · exact hatom
    · exact appends_bswBack64 _ _ _

theorem appends_jamCell (ref : Noun) (j : Jam) : Appends j.bsw (jamCell ref j).1.bsw := by
  unfold jamCell
  split
  · exact ⟨_, bswCell_eq j.bsw⟩
  · exact appends_bswBack64 _ _ _

theorem appends_visit (n : Noun) (j : Jam) : Appends j.bsw (visit jamAtom jamCell n j).bsw := by
  induction n generalizing j with
  | atom a => exact appends_jamAtom a j
  | cell h t ih_h ih_t =>
    have hcell := appends_jamCell (.cell h t) j
    unfold visit
    split
    · rename_i j' heq
      rw [heq] at hcell
      exact hcell.trans ((ih_h j').trans (ih_t _))
    · rename_i j' heq
      rw [heq] at hcell
      exact hcell

/-! ### What the reader reads back -/

section ReadBack

variable {δ ε : Type} (rdr : Reader δ ε) (s : List Frame)

theorem cueNext_of_error {bsr : Bsr} {res : CueRes} (dict : δ) (htag : bsrTag bsr = .error res) :
    cueNext rdr s bsr dict = .error (rdr.fail res) := by
  rw [cueNext]
  split <;> simp_all

theorem cueNext_of_cell {bsr red : Bsr} (dict : δ) (htag : bsrTag bsr = .ok (.cell, red)) :
    cueNext rdr s bsr dict = cueNext rdr (⟨none, bsr.bits⟩ :: s) red dict := by
  rw [cueNext]
  split <;> simp_all

theorem cueNext_of_back {bsr red : Bsr} (dict : δ) (htag : bsrTag bsr = .ok (.back, red)) :
    cueNext rdr s bsr dict =
      match bsrRubLen red with
      | .error res => .error (rdr.fail res)
      | .ok (len, red) =>
        if 62 < len then .error (rdr.fail .meme)
        else
          match rdr.get dict (bsr64Any red len).1 with
          | none => .error (rdr.fail .back)
          | some val => .ok (val, s, (bsr64Any red len).2, dict) := by
  rw [cueNext]
  split <;> simp_all

theorem cueNext_of_atom {bsr red : Bsr} (dict : δ) (htag : bsrTag bsr = .ok (.atom, red)) :
    cueNext rdr s bsr dict =
      match bsrRubLen red with
      | .error res => .error (rdr.fail res)
      | .ok (len, red) =>
        match rdr.atom red len with
        | .error res => .error (rdr.fail res)
        | .ok (a, red) =>
          match rdr.put dict bsr.bits (.atom a) with
          | .error stop => .error stop
          | .ok dict => .ok (.atom a, s, red, dict) := by
  rw [cueNext]
  split <;> simp_all

/-- The body of a number is read back from a word. -/
theorem bsr64Any_bitsOf {a : ℕ} (hle : a.size ≤ 64) (bits : ℕ) (more : List Bool) :
    bsr64Any ⟨bits, bitsOf a.size a ++ more⟩ a.size = (a, ⟨bits + a.size, more⟩) := by
  have htake : (bitsOf a.size a ++ more).take a.size = bitsOf a.size a :=
    List.take_left' (length_bitsOf _ _)
  have hdrop : (bitsOf a.size a ++ more).drop a.size = more := List.drop_left' (length_bitsOf _ _)
  simp only [bsr64Any, Bsr.skip, Nat.min_eq_right hle, htake, hdrop, ofBits_bitsOf,
    Nat.mod_eq_of_lt (Nat.lt_size_self a)]

/-- The body of a number is read back. -/
theorem Reader.atom_bitsOf {a : ℕ} (hrefuse : rdr.refuse a.size = false)
    (hdirect : rdr.direct ≤ 64) (bits : ℕ) (more : List Bool) :
    rdr.atom ⟨bits, bitsOf a.size a ++ more⟩ a.size = .ok (a, ⟨bits + a.size, more⟩) := by
  rw [Reader.atom]
  by_cases hle : a.size ≤ rdr.direct
  · rw [if_pos hle, bsr64Any_bitsOf (hle.trans hdirect)]
  · have htake : (bitsOf a.size a ++ more).take a.size = bitsOf a.size a :=
      List.take_left' (length_bitsOf _ _)
    have hdrop : (bitsOf a.size a ++ more).drop a.size = more :=
      List.drop_left' (length_bitsOf _ _)
    have hin : a.size ≤ (bitsOf a.size a ++ more).length := by simp
    simp only [if_neg hle, hrefuse, bsrBytesAny, if_pos hin, Bsr.skip, htake, hdrop, ofBits_bitsOf,
      Nat.mod_eq_of_lt (Nat.lt_size_self a)]
    rfl

theorem size_le_length_mat (a : ℕ) : a.size ≤ (mat a).length := by
  rw [length_mat]
  split_ifs with hzero
  · simp [hzero]
  · omega

/-- The decoder on an atom. -/
theorem cueOn_atom {a : ℕ} (hlen : a.size < 2 ^ 63) (hrefuse : rdr.refuse a.size = false)
    (hdirect : rdr.direct ≤ 64) {bits : ℕ} (more : List Bool) {dict dict' : δ}
    (hput : rdr.put dict bits (.atom a) = .ok dict') :
    cueOn rdr s ⟨bits, (false :: mat a) ++ more⟩ dict =
      cueWalk rdr (.atom a) s ⟨bits + (false :: mat a).length, more⟩ dict' := by
  have htag : bsrTag ⟨bits, (false :: mat a) ++ more⟩ = .ok (.atom, ⟨bits + 1, mat a ++ more⟩) :=
    rfl
  have hcursor : bits + 1 + ((mat a).length - a.size) + a.size =
      bits + (false :: mat a).length := by
    have hle := size_le_length_mat a
    simp only [List.length_cons]
    omega
  rw [cueOn, cueNext_of_atom rdr s dict htag, bsrRubLen_mat hlen]
  simp only [rdr.atom_bitsOf hrefuse hdirect, hput, hcursor]

/-- The decoder on a back-reference. -/
theorem cueOn_back {bak : ℕ} (hlt : bak < 2 ^ 62) {dict : δ} {n : Noun}
    (hdict : rdr.get dict bak = some n) (bits : ℕ) (more : List Bool) :
    cueOn rdr s ⟨bits, (true :: true :: mat bak) ++ more⟩ dict =
      cueWalk rdr n s ⟨bits + (true :: true :: mat bak).length, more⟩ dict := by
  have hsize : bak.size ≤ 62 := Nat.size_le.mpr hlt
  have htag : bsrTag ⟨bits, (true :: true :: mat bak) ++ more⟩ =
      .ok (.back, ⟨bits + 2, mat bak ++ more⟩) := rfl
  have hcursor : bits + 2 + ((mat bak).length - bak.size) + bak.size =
      bits + (true :: true :: mat bak).length := by
    have hle := size_le_length_mat bak
    simp only [List.length_cons]
    omega
  rw [cueOn, cueNext_of_back rdr s dict htag, bsrRubLen_mat (by omega)]
  simp only [bsr64Any_bitsOf (show bak.size ≤ 64 by omega), hdict,
    if_neg (show ¬ 62 < bak.size by omega), hcursor]

/-- The decoder on a cell goes on to the head. -/
theorem cueOn_cell (bits : ℕ) (more : List Bool) (dict : δ) :
    cueOn rdr s ⟨bits, true :: false :: more⟩ dict =
      cueOn rdr (⟨none, bits⟩ :: s) ⟨bits + 2, more⟩ dict := by
  have htag : bsrTag ⟨bits, true :: false :: more⟩ = .ok (.cell, ⟨bits + 2, more⟩) := rfl
  rw [cueOn, cueNext_of_cell rdr s dict htag, cueOn]

/-- After the head of a cell the decoder goes on to the tail. -/
theorem cueWalk_head (ref : Noun) (bits : ℕ) (bsr : Bsr) (dict : δ) :
    cueWalk rdr ref (⟨none, bits⟩ :: s) bsr dict =
      cueOn rdr (⟨some ref, bits⟩ :: s) bsr dict := by
  rw [cueWalk, cueOn]
  split <;> simp_all

/-- After the tail of a cell the decoder makes the cell. -/
theorem cueWalk_tail {hed ref : Noun} {bits : ℕ} (bsr : Bsr) {dict dict' : δ}
    (hput : rdr.put dict bits (.cell hed ref) = .ok dict') :
    cueWalk rdr ref (⟨some hed, bits⟩ :: s) bsr dict = cueWalk rdr (.cell hed ref) s bsr dict' := by
  rw [cueWalk]
  simp only [hput]

end ReadBack

/-! ### The round trip -/

/-- A noun and the nouns in it. -/
def nounParts : Noun → Finset Noun
  | .atom a => {.atom a}
  | .cell h t => insert (.cell h t) (nounParts h ∪ nounParts t)

theorem mem_nounParts (n : Noun) : n ∈ nounParts n := by
  cases n <;> simp [nounParts]

/-- The cursors at which nouns are written that are no back-references. -/
def jamMarks : Noun → Jam → List ℕ
  | .atom a, j =>
    match j.dict (.atom a) with
    | none => [j.bsw.bits]
    | some bak => if a.size ≤ bak.size then [j.bsw.bits] else []
  | .cell h t, j =>
    match jamCell (.cell h t) j with
    | (v, true) => j.bsw.bits :: (jamMarks h v ++ jamMarks t (visit jamAtom jamCell h v))
    | (_, false) => []

/-- A reader with an invariant, under which it puts the nouns of a set under the cursors of a set.
-/
def Reader.Serves {δ ε : Type} (rdr : Reader δ ε) (Inv : δ → Prop) (K : Set ℕ)
    (V : Set Noun) : Prop :=
  ∀ dict bits ref, Inv dict → bits ∈ K → ref ∈ V → ∃ dict', rdr.put dict bits ref = .ok dict' ∧
    Inv dict' ∧
    rdr.get dict' = Function.update (rdr.get dict) bits (some ref)

/-- The cursor of the encoder is the number of bits written, and the cursors in its dictionary are
before it. -/
structure Jam.Ok (j : Jam) : Prop where
  bits : j.bsw.bits = j.bsw.out.length
  lt : ∀ ref bak, j.dict ref = some bak → bak < j.bsw.out.length

/-- The decoder has the nouns of at most a given size that the encoder has. Larger nouns may be the
cells that are being written. -/
def Tracks (dict : Noun → Option ℕ) (cud : ℕ → Option Noun) (siz : ℕ) : Prop :=
  ∀ ref bak, dict ref = some bak → ref.size ≤ siz → cud bak = some ref

/-- What writing a noun does to the encoder, and what reading it back does to a decoder. -/
structure Trip {δ ε : Type} (rdr : Reader δ ε) (Inv : δ → Prop) (K : Set ℕ) (V : Set Noun)
    (n : Noun) (j j' : Jam) (enc : List Bool) : Prop where
  bsw : j'.bsw = j.bsw.write enc
  ok : j'.Ok
  keeps : ∀ ref bak, j.dict ref = some bak → j'.dict ref = some bak
  adds : ∀ ref bak, j'.dict ref = some bak → j.dict ref = some bak ∨
    j.bsw.out.length ≤ bak ∧ ref.size ≤ n.size
  reads : (∀ bits ∈ jamMarks n j, bits ∈ K) → (∀ ref ∈ nounParts n, ref ∈ V) →
    ∀ siz, n.size ≤ siz → ∀ s more cud, Inv cud → Tracks j.dict (rdr.get cud) siz → ∃ cud',
      cueOn rdr s ⟨j.bsw.out.length, enc ++ more⟩ cud =
          cueWalk rdr n s ⟨j'.bsw.out.length, more⟩ cud' ∧ Inv cud' ∧
        (∀ bits < j.bsw.out.length, rdr.get cud' bits = rdr.get cud bits) ∧
          Tracks j'.dict (rdr.get cud') siz

theorem Jam.Ok.write {j : Jam} (hok : j.Ok) {enc : List Bool}
    (hlt : (j.bsw.write enc).out.length < 2 ^ 64) :
    (j.bsw.write enc).bits = (j.bsw.write enc).out.length := by
  have hlength : (j.bsw.write enc).out.length = j.bsw.out.length + enc.length := by
    simp [Bsw.write]
  rw [hlength] at hlt ⊢
  rw [Bsw.write, hok.bits]
  exact Nat.mod_eq_of_lt hlt

/-- A noun none of whose atoms a reader refuses. -/
def Reader.Takes {δ ε : Type} (rdr : Reader δ ε) : Noun → Prop
  | .atom a => rdr.refuse a.size = false
  | .cell h t => rdr.Takes h ∧ rdr.Takes t

section Trip

variable {δ ε : Type} {rdr : Reader δ ε} {Inv : δ → Prop} {K : Set ℕ} {V : Set Noun}
  (hdirect : rdr.direct ≤ 64)
  (hserves : rdr.Serves Inv K V)

include hdirect hserves in
/-- An atom that is written as such. -/
theorem trip_atom {j : Jam} (hok : j.Ok) {a : ℕ} (hrefuse : rdr.refuse a.size = false)
    {dict : Noun → Option ℕ} (hlt : (bswAtom j.bsw a a.size).out.length ≤ 2 ^ 62)
    (hmarks : jamMarks (.atom a) j = [j.bsw.bits])
    (hdict : dict = j.dict ∨ j.dict (.atom a) = none ∧
      dict = Function.update j.dict (.atom a) (some j.bsw.bits)) :
    Trip rdr Inv K V (.atom a) j ⟨dict, bswAtom j.bsw a a.size⟩ (false :: mat a) := by
  rw [bswAtom_size] at hlt ⊢
  have hlength : (j.bsw.write (false :: mat a)).out.length =
      j.bsw.out.length + (false :: mat a).length := by simp [Bsw.write]
  have hsize := size_le_length_mat a
  -- an entry of the new dictionary is an old one or that of the atom
  have hcases : ∀ ref bak, dict ref = some bak →
      j.dict ref = some bak ∨ ref = .atom a ∧ bak = j.bsw.out.length := by
    intro ref bak href
    rcases hdict with rfl | ⟨_, rfl⟩
    · exact Or.inl href
    · by_cases heq : ref = .atom a
      · rw [heq, Function.update_self, Option.some.injEq] at href
        exact Or.inr ⟨heq, href.symm.trans hok.bits⟩
      · rw [Function.update_of_ne heq] at href
        exact Or.inl href
  simp only [List.length_cons] at hlength
  refine ⟨rfl, ⟨hok.write (by omega), ?_⟩, ?_, ?_, ?_⟩
  · intro ref bak href
    show bak < (j.bsw.write (false :: mat a)).out.length
    rcases hcases ref bak href with hold | ⟨_, rfl⟩
    · have hbefore := hok.lt ref bak hold
      omega
    · omega
  · intro ref bak href
    rcases hdict with rfl | ⟨hnone, rfl⟩
    · exact href
    · have hne : ref ≠ .atom a := by
        rintro rfl
        rw [hnone] at href
        exact absurd href (by simp)
      simp only [Function.update_of_ne hne]
      exact href
  · intro ref bak href
    rcases hcases ref bak href with hold | ⟨rfl, rfl⟩
    · exact Or.inl hold
    · exact Or.inr ⟨Nat.le_refl _, Nat.le_refl _⟩
  · intro hin hval siz _ s more cud hinv htracks
    rw [hmarks, List.forall_mem_singleton, hok.bits] at hin
    obtain ⟨cud', hput, hinv', hget⟩ := hserves cud _ _ hinv hin (hval _ (mem_nounParts _))
    refine ⟨cud', ?_, hinv', fun bits hbits ↦ ?_, fun ref bak href hle ↦ ?_⟩
    · rw [cueOn_atom rdr s (by omega) hrefuse hdirect more hput]
      simp only [hlength, List.length_cons]
    · rw [hget, Function.update_of_ne (Nat.ne_of_lt hbits)]
    · rw [hget]
      rcases hcases ref bak href with hold | ⟨rfl, rfl⟩
      · rw [Function.update_of_ne (Nat.ne_of_lt (hok.lt ref bak hold))]
        exact htracks ref bak hold hle
      · rw [Function.update_self]

/-- A noun that is written as a back-reference. -/
theorem trip_back {j : Jam} (hok : j.Ok) {ref : Noun} {bak : ℕ} (hdict : j.dict ref = some bak)
    (hlt : (bswBack64 j.bsw bak.size bak).out.length ≤ 2 ^ 62) :
    Trip rdr Inv K V ref j { j with bsw := bswBack64 j.bsw bak.size bak }
      (true :: true :: mat bak) := by
  have hbak := hok.lt ref bak hdict
  have hle := (appends_bswBack64 j.bsw bak.size bak).length_le
  have hword : bak < 2 ^ 64 := by omega
  rw [bswBack64_size j.bsw hword] at hlt hle ⊢
  have hlength : (j.bsw.write (true :: true :: mat bak)).out.length =
      j.bsw.out.length + (true :: true :: mat bak).length := by simp [Bsw.write]
  refine ⟨rfl, ⟨hok.write (by omega), fun ref' bak' href ↦ ?_⟩, fun _ _ href ↦ href,
    fun _ _ href ↦ Or.inl href,
    fun _ _ siz hsiz s more cud hinv htracks ↦ ⟨cud, ?_, hinv, fun _ _ ↦ rfl, htracks⟩⟩
  · exact Nat.lt_of_lt_of_le (hok.lt ref' bak' href) hle
  · rw [cueOn_back rdr s (by omega) (htracks ref bak hdict hsiz)]
    simp only [hlength]

include hserves in
/-- A cell that is written as such. -/
theorem trip_cell {h t : Noun} {j : Jam} (hok : j.Ok) (hdict : j.dict (.cell h t) = none)
    (ih_h : ∀ {j : Jam}, j.Ok → (visit jamAtom jamCell h j).bsw.out.length ≤ 2 ^ 62 →
      ∃ enc, Trip rdr Inv K V h j (visit jamAtom jamCell h j) enc)
    (ih_t : ∀ {j : Jam}, j.Ok → (visit jamAtom jamCell t j).bsw.out.length ≤ 2 ^ 62 →
      ∃ enc, Trip rdr Inv K V t j (visit jamAtom jamCell t j) enc)
    (hlt : (visit jamAtom jamCell (.cell h t) j).bsw.out.length ≤ 2 ^ 62) :
    ∃ enc, Trip rdr Inv K V (.cell h t) j (visit jamAtom jamCell (.cell h t) j) enc := by
  obtain ⟨j₁, hj₁⟩ : ∃ j₁ : Jam,
      j₁ = ⟨Function.update j.dict (.cell h t) (some j.bsw.bits), bswCell j.bsw⟩ := ⟨_, rfl⟩
  have hvisit : visit jamAtom jamCell (.cell h t) j =
      visit jamAtom jamCell t (visit jamAtom jamCell h j₁) := by
    simp [visit, jamCell, hdict, hj₁]
  have hmarks : jamMarks (.cell h t) j =
      j.bsw.bits :: (jamMarks h j₁ ++ jamMarks t (visit jamAtom jamCell h j₁)) := by
    simp [jamMarks, jamCell, hdict, hj₁]
  rw [hvisit] at hlt ⊢
  have hbsw₁ : j₁.bsw = j.bsw.write [true, false] := by rw [hj₁, bswCell_eq]
  have hlength₁ : j₁.bsw.out.length = j.bsw.out.length + 2 := by
    simp [hbsw₁, Bsw.write]
  have hle₁ := (appends_visit h j₁).length_le
  have hle₂ := (appends_visit t (visit jamAtom jamCell h j₁)).length_le
  have hsize : (Noun.cell h t).size = h.size + t.size + 1 := rfl
  have hcases₁ : ∀ ref bak, j₁.dict ref = some bak →
      j.dict ref = some bak ∨ ref = .cell h t ∧ bak = j.bsw.out.length := by
    intro ref bak href
    rw [hj₁] at href
    by_cases heq : ref = .cell h t
    · simp only [heq, Function.update_self, Option.some.injEq] at href
      exact Or.inr ⟨heq, href.symm.trans hok.bits⟩
    · simp only [Function.update_of_ne heq] at href
      exact Or.inl href
  have hself : j₁.dict (.cell h t) = some j.bsw.out.length := by
    simp [hj₁, hok.bits]
  have hok₁ : j₁.Ok := by
    refine ⟨?_, fun ref bak href ↦ ?_⟩
    · rw [hbsw₁]
      refine hok.write ?_
      rw [← hbsw₁]
      omega
    · rcases hcases₁ ref bak href with hold | ⟨_, rfl⟩
      · have hbefore := hok.lt ref bak hold
        omega
      · omega
  obtain ⟨enc_h, trip_h⟩ := ih_h hok₁ (by omega)
  obtain ⟨enc_t, trip_t⟩ := ih_t trip_h.ok hlt
  generalize visit jamAtom jamCell h j₁ = j₂ at *
  generalize visit jamAtom jamCell t j₂ = j₃ at *
  refine ⟨[true, false] ++ (enc_h ++ enc_t), ?_, trip_t.ok, ?_, ?_, ?_⟩
  · rw [trip_t.bsw, trip_h.bsw, hbsw₁, Bsw.write_write, Bsw.write_write]
  · intro ref bak href
    have hne : ref ≠ .cell h t := by
      rintro rfl
      rw [hdict] at href
      exact absurd href (by simp)
    refine trip_t.keeps ref bak (trip_h.keeps ref bak ?_)
    simpa [hj₁, Function.update_of_ne hne] using href
  · intro ref bak href
    rcases trip_t.adds ref bak href with href | ⟨hge, hle⟩
    · rcases trip_h.adds ref bak href with href | ⟨hge, hle⟩
      · rcases hcases₁ ref bak href with hold | ⟨rfl, rfl⟩
        · exact Or.inl hold
        · exact Or.inr ⟨Nat.le_refl _, Nat.le_refl _⟩
      · exact Or.inr ⟨by omega, by omega⟩
    · exact Or.inr ⟨by omega, by omega⟩
  · intro hin hval siz hsiz s more cud hinv htracks
    rw [hmarks, List.forall_mem_cons, List.forall_mem_append] at hin
    simp only [nounParts, Finset.mem_insert, Finset.mem_union, or_imp, forall_and,
      forall_eq] at hval
    obtain ⟨hin, hin_h, hin_t⟩ := hin
    obtain ⟨hval, hval_h, hval_t⟩ := hval
    -- below the cell, only nouns smaller than it are referred to
    have htracks₁ : Tracks j₁.dict (rdr.get cud) (h.size + t.size) := by
      intro ref bak href hle
      rcases hcases₁ ref bak href with hold | ⟨rfl, _⟩
      · exact htracks ref bak hold (by omega)
      · omega
    obtain ⟨cud₂, hread₂, hinv₂, hsame₂, htracks₂⟩ :=
      trip_h.reads hin_h hval_h (h.size + t.size) (by omega)
      (⟨none, j.bsw.out.length⟩ :: s) (enc_t ++ more) cud hinv htracks₁
    obtain ⟨cud₃, hread₃, hinv₃, hsame₃, htracks₃⟩ :=
      trip_t.reads hin_t hval_t (h.size + t.size) (by omega)
      (⟨some h, j.bsw.out.length⟩ :: s) more cud₂ hinv₂ htracks₂
    rw [hok.bits] at hin
    obtain ⟨cud₄, hput, hinv₄, hget⟩ := hserves cud₃ _ _ hinv₃ hin hval
    refine ⟨cud₄, ?_, hinv₄, fun bits hbits ↦ ?_, fun ref bak href hle ↦ ?_⟩
    · have hbits : ([true, false] ++ (enc_h ++ enc_t)) ++ more =
          true :: false :: (enc_h ++ (enc_t ++ more)) := by simp
      rw [hbits, cueOn_cell, ← hlength₁, hread₂, cueWalk_head, hread₃,
        cueWalk_tail rdr s _ hput]
    · rw [hget, Function.update_of_ne (Nat.ne_of_lt hbits), hsame₃ bits (by omega),
        hsame₂ bits (by omega)]
    · rw [hget]
      by_cases heq : ref = .cell h t
      · have hbak := trip_t.keeps _ _ (trip_h.keeps _ _ hself)
        rw [← heq, href, Option.some.injEq] at hbak
        rw [hbak, heq, Function.update_self]
      · have hnew : j.bsw.out.length + 2 ≤ bak → ref.size ≤ h.size + t.size →
            Function.update (rdr.get cud₃) j.bsw.out.length (some (.cell h t)) bak = some ref := by
          intro hge hsmall
          rw [Function.update_of_ne (by omega)]
          exact htracks₃ ref bak href hsmall
        rcases trip_t.adds ref bak href with href | ⟨hge, hsmall⟩
        · rcases trip_h.adds ref bak href with href | ⟨hge, hsmall⟩
          · rcases hcases₁ ref bak href with hold | ⟨hcell, _⟩
            · have hbefore := hok.lt ref bak hold
              rw [Function.update_of_ne (by omega), hsame₃ bak (by omega), hsame₂ bak (by omega)]
              exact htracks ref bak hold hle
            · exact absurd hcell heq
          · exact hnew (by omega) (by omega)
        · exact hnew (by omega) (by omega)

include hdirect hserves in
/-- What writing a noun does, and what reading it back does. -/
theorem exists_trip {n : Noun} (htakes : rdr.Takes n) {j : Jam} (hok : j.Ok)
    (hlt : (visit jamAtom jamCell n j).bsw.out.length ≤ 2 ^ 62) :
    ∃ enc, Trip rdr Inv K V n j (visit jamAtom jamCell n j) enc := by
  induction n generalizing j with
  | atom a =>
    simp only [visit, jamAtom] at hlt ⊢
    cases hdict : j.dict (.atom a) with
    | none =>
      simp only [hdict] at hlt ⊢
      exact ⟨_, trip_atom hdirect hserves hok htakes hlt (by simp [jamMarks, hdict])
        (Or.inr ⟨hdict, rfl⟩)⟩
    | some bak =>
      simp only [hdict] at hlt ⊢
      split_ifs at hlt ⊢ with hle
      · exact ⟨_, trip_atom hdirect hserves hok htakes hlt (by simp [jamMarks, hdict, hle])
          (Or.inl rfl)⟩
      · exact ⟨_, trip_back hok hdict hlt⟩
  | cell h t ih_h ih_t =>
    cases hdict : j.dict (.cell h t) with
    | some bak =>
      have hvisit : visit jamAtom jamCell (.cell h t) j =
          { j with bsw := bswBack64 j.bsw bak.size bak } := by
        simp [visit, jamCell, hdict]
      rw [hvisit] at hlt ⊢
      exact ⟨_, trip_back hok hdict hlt⟩
    | none =>
      exact trip_cell hserves hok hdict (fun hj hle ↦ ih_h htakes.1 hj hle)
        (fun hj hle ↦ ih_t htakes.2 hj hle) hlt

end Trip

theorem jamBsw_eq (ref : Noun) :
    jamBsw ref = (visit jamAtom jamCell ref ⟨fun _ ↦ none, bswInit⟩).bsw := by
  rw [jamBsw, walkForeWith_eq_foldl]
  rfl

theorem length_jam (ref : Noun) : (jam ref).2.length = ((jamBsw ref).out.length + 7) / 8 :=
  length_pack _

/-- A reader that takes and puts the parts of a noun reads back what the encoder wrote, up to its
last bit. -/
theorem cueRead_jam {δ ε : Type} {rdr : Reader δ ε} {Inv : δ → Prop} {K : Set ℕ} {V : Set Noun}
    (hdirect : rdr.direct ≤ 64) (hserves : rdr.Serves Inv K V) {ref : Noun} (htakes : rdr.Takes ref)
    (hmarks : ∀ bits ∈ jamMarks ref ⟨fun _ ↦ none, bswInit⟩, bits ∈ K)
    (hparts : ∀ part ∈ nounParts ref, part ∈ V) {dict : δ} (hinv : Inv dict)
    (hlen : (jam ref).2.length ≤ 0x7ffffffffffffff) :
    (jam ref).1 = (jamBsw ref).out.length ∧ ∃ bsr, cueRead rdr dict (jam ref).2 = .ok (ref, bsr) ∧
      bsr.bits = (jam ref).1 := by
  have hbits : (jamBsw ref).out.length ≤ 2 ^ 62 := by
    rw [length_jam] at hlen
    omega
  have hok : Jam.Ok ⟨fun _ ↦ none, bswInit⟩ := ⟨rfl, fun _ _ href ↦ by simp at href⟩
  obtain ⟨enc, htrip⟩ := exists_trip hdirect hserves htakes hok (jamBsw_eq ref ▸ hbits)
  have hout : (jamBsw ref).out = enc := by
    rw [jamBsw_eq, htrip.bsw]
    rfl
  have hcount : (jam ref).1 = (jamBsw ref).out.length := by
    rw [jam, bswDone, jamBsw_eq]
    exact htrip.ok.bits
  obtain ⟨pad, hpad⟩ := unpack_pack (jamBsw ref).out
  obtain ⟨cud, hread, _⟩ :=
    htrip.reads hmarks hparts ref.size (Nat.le_refl _) [] (List.replicate pad false)
    dict hinv (fun _ _ href _ ↦ by simp at href)
  refine ⟨hcount, ⟨(jamBsw ref).out.length, List.replicate pad false⟩, ?_, hcount.symm⟩
  rw [cueRead, if_neg (by omega), bsrInit, jam, bswDone, hpad, hout]
  refine hread.trans ?_
  rw [cueWalk, ← hout, jamBsw_eq]

section Tables

variable {mug : Noun → ℕ} {parts : Finset Noun} {marks : Finset ℕ}

/-- The tables hold parts of a noun, and cursors of a set. -/
def CueTables.Ok (parts : Finset Noun) (marks : Finset ℕ) (tab : CueTables) : Prop :=
  Held marks tab.keys ∧ Held parts tab.atoms ∧ Held parts tab.cells

/-- The tables take every part and every cursor when no mug has more of them than a bucket. -/
theorem tableReader_serves (past : Past) (hparts : Spread mug parts)
    (hmarks : Spread (fun bak ↦ mug (.atom bak)) marks) :
    (tableReader mug past).Serves (CueTables.Ok parts marks) {bits | bits ∈ marks} {ref |
      ref ∈ parts} := by
  rintro tab bits ref ⟨hkeys, hatoms, hcells⟩ hbits href
  have hcoin : ∃ tab', tab.coin mug ref = some tab' ∧ tab'.Ok parts marks ∧
      tab'.dict = tab.dict := by
    cases ref with
    | atom a =>
      rw [CueTables.coin]
      split_ifs
      · exact ⟨tab, rfl, ⟨hkeys, hatoms, hcells⟩, rfl⟩
      · obtain ⟨atoms, hkeep, hheld⟩ := hparts.keep hatoms href
        exact ⟨{ tab with atoms }, by rw [hkeep]; rfl, ⟨hkeys, hheld, hcells⟩, rfl⟩
    | cell h t =>
      obtain ⟨cells, hkeep, hheld⟩ := hparts.keep hcells href
      exact ⟨{ tab with cells }, by rw [CueTables.coin, hkeep]; rfl, ⟨hkeys, hatoms, hheld⟩, rfl⟩
  obtain ⟨tab', hcoin, ⟨hkeys', hatoms', hcells'⟩, hdict⟩ := hcoin
  obtain ⟨keys, hkeep, hheld⟩ := hmarks.keep hkeys' hbits
  have hput : tab.put mug bits ref =
      some { tab' with keys, dict := Function.update tab'.dict bits (some ref) } := by
    rw [CueTables.put, hcoin]
    show (keep _ tab'.keys bits).bind _ = _
    rw [hkeep]
    rfl
  refine ⟨{ tab' with keys, dict := Function.update tab'.dict bits (some ref) },
    by simp only [tableReader, hput], ⟨hheld, hatoms', hcells'⟩, ?_⟩
  simp only [tableReader, hdict]

theorem tableReader_takes (past : Past) (ref : Noun) : (tableReader mug past).Takes ref := by
  induction ref with
  | atom a => rfl
  | cell h t ihh iht => exact ⟨ihh, iht⟩

theorem visit_jamPut (hspread : Spread mug parts) {n : Noun}
    (hsub : ∀ part ∈ nounParts n, part ∈ parts) {keys : List Noun} (hheld : Held parts keys)
    (j : Jam) :
    ∃ keys', visit (jamAtomPut mug) (jamCellPut mug) n (some (keys, j)) =
      some (keys', visit jamAtom jamCell n j) ∧
      Held parts keys' := by
  obtain ⟨keys₁, hkeep, hheld₁⟩ := hspread.keep hheld (hsub n (mem_nounParts n))
  induction n generalizing keys keys₁ j with
  | atom a =>
    refine ⟨keys₁, ?_, hheld₁⟩
    simp [visit, jamAtomPut, hkeep]
  | cell h t ih_h ih_t =>
    simp only [nounParts, Finset.mem_insert, Finset.mem_union, or_imp, forall_and] at hsub
    obtain ⟨-, hsub_h, hsub_t⟩ := hsub
    simp only [visit, jamCellPut, hkeep]
    obtain ⟨j₁, go⟩ := jamCell (.cell h t) j
    cases go with
    | false => exact ⟨keys₁, rfl, hheld₁⟩
    | true =>
      obtain ⟨_, hkeep₂, hheld₂⟩ := hspread.keep hheld₁ (hsub_h h (mem_nounParts h))
      obtain ⟨keys₃, hvisit, hheld₃⟩ := ih_h hsub_h hheld₁ j₁ _ hkeep₂ hheld₂
      obtain ⟨_, hkeep₄, hheld₄⟩ := hspread.keep hheld₃ (hsub_t t (mem_nounParts t))
      obtain ⟨keys₅, hvisit', hheld₅⟩ :=
        ih_t hsub_t hheld₃ (visit jamAtom jamCell h j₁) _ hkeep₄ hheld₄
      exact ⟨keys₅, by simp only [hvisit, hvisit'], hheld₅⟩

/-- The encoder ends on a noun of whose parts no mug has more than a bucket. -/
theorem urJam_eq {ref : Noun} (hspread : Spread mug (nounParts ref)) :
    urJam mug ref = some (jam ref) := by
  have hnone : Held (nounParts ref) [] := ⟨List.nodup_nil, by simp⟩
  obtain ⟨keys, hvisit, -⟩ := visit_jamPut hspread (fun _ hpart ↦ hpart) hnone ⟨fun _ ↦ none,
    bswInit⟩
  rw [urJam, walkForeWith_eq_foldl, List.foldl_cons, List.foldl_nil, hvisit, jam, jamBsw_eq]
  rfl

end Tables

/-- The round trip. For every noun of whose parts no eleven have one mug, nor eleven of their
cursors, and whose encoding fits in the bytes that the decoder takes, the encoder ends, and the
decoder returns the noun in a root of its own or in that of the noun; and the length that is
reported is that at which the cursor of the decoder is left. -/
theorem cue_jam (mug : Noun → ℕ) (past : Past) (ref : Noun) (hparts : Spread mug (nounParts ref))
    (hmarks : Spread (fun bak ↦ mug (.atom bak)) (jamMarks ref ⟨fun _ ↦ none, bswInit⟩).toFinset)
    (hlen : (jam ref).2.length ≤ 0x7ffffffffffffff) {atoms cells : List Noun}
    (hatoms : Held (nounParts ref) atoms) (hcells : Held (nounParts ref) cells) :
    urJam mug ref = some (jam ref) ∧ (jam ref).1 = (jamBsw ref).out.length ∧
      ∃ bsr, urCue mug past atoms cells (jam ref).2 = .ok (ref, bsr) ∧ bsr.bits = (jam ref).1 := by
  have hok : CueTables.Ok (nounParts ref) (jamMarks ref ⟨fun _ ↦ none, bswInit⟩).toFinset
      ⟨[], fun _ ↦ none, atoms, cells⟩ := ⟨⟨List.nodup_nil, by simp⟩, hatoms, hcells⟩
  exact ⟨urJam_eq hparts, cueRead_jam (by simp [tableReader])
    (tableReader_serves past hparts hmarks)
    (tableReader_takes past ref) (fun _ hbits ↦ List.mem_toFinset.mpr hbits)
      (fun _ hpart ↦ hpart) hok hlen⟩

/-- Few keys are spread over the mugs. -/
theorem spread_of_card_le {κ : Type} {mug : κ → ℕ} {keys : Finset κ} (hfew : keys.card ≤ pailMax) :
    Spread mug keys :=
  fun _ ↦ (Finset.card_filter_le _ _).trans hfew

/-- A cell that is written once and then referred to. -/
theorem cue_jam_shared :
    ∃ bsr, urCue (Noun.Murmur.mug Noun.Murmur.murmur3) (fun _ _ ↦ (0, 0, 0)) []
      [] (jam (.cell (.cell (.atom 1) (.atom 2)) (.cell (.atom 1) (.atom 2)))).2 =
      .ok (.cell (.cell (.atom 1) (.atom 2)) (.cell (.atom 1) (.atom 2)), bsr) := by
  have hheld : Held (nounParts (.cell (.cell (.atom 1) (.atom 2)) (.cell (.atom 1) (.atom 2))))
    [] :=
    ⟨List.nodup_nil, by simp⟩
  obtain ⟨-, -, bsr, hcue, -⟩ := cue_jam (Noun.Murmur.mug Noun.Murmur.murmur3) (fun _ _ ↦ (0, 0, 0))
    (.cell (.cell (.atom 1) (.atom 2)) (.cell (.atom 1) (.atom 2))) (spread_of_card_le (by decide))
    (spread_of_card_le (by decide)) (by rw [length_jam, jamBsw_eq]; decide) hheld hheld
  exact ⟨bsr, hcue⟩

/-- A list of eleven atoms that all have the mug 1. -/
def elevenAlike : Noun :=
  [6896702265, 11710301246, 14136497154, 20513061442, 25757389380, 29589014506, 33508247071,
    37769716023, 42069802643, 46819361141, 51321165962].foldr (fun a n ↦ .cell (.atom a) n)
      (.atom 0)

/-- The encoder does not end on it. -/
theorem jam_eleven_alike : urJam (Noun.Murmur.mug Noun.Murmur.murmur3) elevenAlike = none := by
  rw [urJam, walkForeWith_eq_foldl]
  decide +kernel

end Vere.Ur
