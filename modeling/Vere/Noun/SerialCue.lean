import Vere.Ur.Serial

/-!
# The cue decoders

`pkg/noun/serial.c` has three more decoders beside `ur_cue`: `u3s_cue_xeno` and `u3s_cue_bytes` read
a bit stream with the loop of `ur_cue`, and `u3s_cue` reads an atom with the arithmetic of
`u3qe_rub` and `u3qc_cut`. `Visit` and `Finish` are the states in which a tag is read and the noun
that reading to the end gives; `finish_of_cueOn` and `Visit.reaches` relate them to the decoders.
`cue_decoders_agree` says when the four give the same noun: `u3qc_cut` cuts atoms off at bit
`2 ^ 31`, and that shows when such an atom is read last.
-/

set_option autoImplicit false

namespace Vere.Noun.Serial

open Lib.Bits Ur

/-! ### Bit streams -/

/-- `_ci_slab_size()`: the words of a slab, or a bail when they overflow. -/
def ciSlabSize (met_g len_d : ℕ) : Option ℕ :=
  let bit_d := (len_d <<< met_g) % 2 ^ 64
  let wor_d := ((bit_d + 0x1f) % 2 ^ 64) >>> 5
  let wor_w := wor_d % 2 ^ 32
  if wor_w ≠ wor_d ∨ len_d ≠ bit_d >>> met_g then none else some wor_w

/-- How `_cs_cue_xeno_next()` reads atoms. -/
def xenoReader (past : Past) : Reader (ℕ → Option Noun) CueRes :=
  mapReader 31 (fun len_d ↦
    let byt_d := ((len_d + 0x7) % 2 ^ 64) >>> 3
    decide (0xffffffff < byt_d) || (ciSlabSize 3 byt_d).isNone) past

/-- How `_cs_cue_bytes_next()` reads atoms. -/
def bytesReader (past : Past) : Reader (ℕ → Option Noun) CueRes :=
  mapReader 31 (fun len_d ↦ (ciSlabSize 0 len_d).isNone) past

/-- `c3n`. -/
def c3n : ℕ := 1

/-- `u3s_cue_xeno()`. An input that is too long is answered with `c3n`, and other failures with
`u3_none`. -/
def cueXeno (past : Past) (byt : List UInt8) : Option Noun :=
  if 0x7ffffffffffffff < byt.length then some (.atom c3n)
  else
    match cueOn (xenoReader past) [] (bsrInit byt) fun _ ↦ none with
    | .ok (ref, _) => some ref
    | .error _ => none

/-- `u3s_cue_bytes()`. -/
def cueBytes (past : Past) (byt : List UInt8) : Option Noun :=
  if 0x7ffffffffffffff < byt.length then none
  else
    match cueOn (bytesReader past) [] (bsrInit byt) fun _ ↦ none with
    | .ok (ref, _) => some ref
    | .error _ => none

/-! ### Atoms -/

/-- `u3r_met()` in bits. -/
def rMet (b : ℕ) : Option ℕ :=
  let gal_w := (b.size - 1) / 32
  if (0xffffffff - 35) >>> 5 < gal_w then none else some b.size

/-- `u3qc_cut()` in bits: `c` bits of `d` from bit `b` on. -/
def qcCut (b c d : ℕ) : Option ℕ :=
  if ¬ b < 2 ^ 31 then some 0
  else do
    let c := if ¬ c < 2 ^ 31 then 0x7fffffff else c
    let len_w ← rMet d
    if c = 0 ∨ len_w ≤ b then some 0
    else
      let c := if len_w < b + c then len_w - b else c
      if b = 0 ∧ c = len_w then some d else some ((d >>> b) % 2 ^ c)

/-- `u3qc_bex()`. -/
def qcBex (a : ℕ) : Option ℕ := if ¬ a < 2 ^ 31 then none else some (2 ^ a)

/-- The first loop of `u3qe_rub()`: the next set bit of `b` from bit `x` on. -/
def qeRubScan (b m x : ℕ) : Option ℕ := do
  if (← qcCut x 1 b) = 0 then
    if m < x then none else qeRubScan b m (x + 1)
  else some x
termination_by m + 1 - x

/-- `u3qe_rub()`: the width and the value of the length-prefixed number at bit `a` of `b`. -/
def qeRub (a b : ℕ) : Option (ℕ × ℕ) := do
  let bit ← rMet b
  let m := a + bit
  let x ← qeRubScan b m a
  if x = a then some (1, 0)
  else
    let c := x - a
    let d := x + 1
    let x := c - 1
    let y ← qcBex x
    let z ← qcCut d x b
    let e := y + z
    let w := c + c
    let z := d + x
    let p := w + e
    let q ← qcCut z e b
    some (p, q)

/-- `_cs_cue`: a cell whose head, and then whose tail, is being read. -/
structure CueFrame where
  hed : Option Noun
  wid : ℕ
  cur : ℕ

/-- `u3r_met()` bails on an atom of more than `2 ^ 27 - 1` words. -/
theorem rMet_eq (b : ℕ) : rMet b = if b.size ≤ 2 ^ 32 - 32 then some b.size else none := by
  unfold rMet
  dsimp only
  have hbound : (0xffffffff - 35) >>> 5 = 2 ^ 27 - 2 := by decide
  rw [hbound]
  split_ifs with hlarge hsmall hsmall
  · omega
  · rfl
  · rfl
  · omega

/-- `u3qc_cut()` gives nothing from bit `2 ^ 31` on, and at most `2 ^ 31 - 1` bits. -/
theorem qcCut_eq (b c d : ℕ) :
    qcCut b c d = if b < 2 ^ 31 then
        if d.size ≤ 2 ^ 32 - 32 then some ((d >>> b) % 2 ^ min c (2 ^ 31 - 1)) else none
      else some 0 := by
  unfold qcCut
  rw [rMet_eq]
  by_cases hb : b < 2 ^ 31
  · rw [if_neg (not_not.mpr hb), if_pos hb]
    by_cases hsize : d.size ≤ 2 ^ 32 - 32
    · rw [if_pos hsize, if_pos hsize]
      have hcount : (if ¬ c < 2 ^ 31 then 0x7fffffff else c) = min c (2 ^ 31 - 1) := by
        split_ifs <;> omega
      simp only [hcount, Option.bind_eq_bind, Option.bind_some]
      generalize min c (2 ^ 31 - 1) = c
      have hlt : d < 2 ^ d.size := Nat.lt_size_self d
      have hshift : d.size ≤ b → d >>> b = 0 := fun hle ↦ by
        rw [Nat.shiftRight_eq_div_pow]
        exact Nat.div_eq_of_lt (hlt.trans_le (Nat.pow_le_pow_right (by decide) hle))
      by_cases hnone : c = 0 ∨ d.size ≤ b
      · rw [if_pos hnone]
        rcases hnone with hzero | hle
        · simp [hzero, Nat.mod_one]
        · simp [hshift hle]
      · rw [if_neg hnone]
        rw [not_or] at hnone
        have hrest : d >>> b < 2 ^ (d.size - b) := by
          rw [Nat.shiftRight_eq_div_pow]
          refine Nat.div_lt_of_lt_mul ?_
          rw [← Nat.pow_add]
          exact hlt.trans_le (Nat.pow_le_pow_right (by decide) (by omega))
        have hmod : (d >>> b) % 2 ^ (if d.size < b + c then d.size - b else c) =
            (d >>> b) % 2 ^ c := by
          split_ifs with hlong
          · rw [Nat.mod_eq_of_lt hrest, Nat.mod_eq_of_lt]
            exact hrest.trans_le (Nat.pow_le_pow_right (by decide) (by omega))
          · rfl
        generalize (if d.size < b + c then d.size - b else c) = c' at hmod ⊢
        by_cases hwhole : b = 0 ∧ c' = d.size
        · rw [if_pos hwhole, ← hmod, hwhole.2, hwhole.1, Nat.shiftRight_zero,
            Nat.mod_eq_of_lt hlt]
        · rw [if_neg hwhole, hmod]
    · rw [if_neg hsize, if_neg hsize]
      rfl
  · rw [if_pos hb, if_neg hb]

variable {a cur start fuel : ℕ} {dict dict₁ dict' : ℕ → Option Noun} {ref n : Noun}
  {s s' : List Frame} {byt : List UInt8}

theorem qcCut_pos_lt {tag : ℕ} (htag : qcCut cur 1 a = some (tag + 1)) : cur < a.size := by
  rw [qcCut_eq] at htag
  split_ifs at htag with hcur hsize
  · by_contra hge
    have hzero : a >>> cur = 0 := by
      rw [Nat.shiftRight_eq_div_pow]
      exact Nat.div_eq_of_lt
        ((Nat.lt_size_self a).trans_le (Nat.pow_le_pow_right (by decide) (by omega)))
    simp [hzero] at htag
  · simp at htag

/-- `_cs_cue_next()`: the next atom or back-reference with its width, below the cells that it is in
the head of. -/
def csCueNext (a : ℕ) (pil_u : List CueFrame) (har : ℕ → Option Noun) (cur : ℕ) :
    Option (Noun × ℕ × List CueFrame × (ℕ → Option Noun)) :=
  match _htag : qcCut cur 1 a with
  | none => none
  | some 0 => do
    let bur ← qeRub (cur + 1) a
    let pro := .atom bur.2
    some (pro, bur.1 + 1, pil_u, Function.update har cur (some pro))
  | some (_ + 1) =>
    match qcCut (cur + 1) 1 a with
    | none => none
    | some 1 => do
      let bur ← qeRub (cur + 2) a
      let pro ← har bur.2
      some (pro, 2 + bur.1, pil_u, har)
    | some _ => csCueNext a (⟨none, 0, cur⟩ :: pil_u) har (cur + 2)
termination_by a.size - cur
decreasing_by
  have hlt := qcCut_pos_lt _htag
  omega

/-- The loop of `u3s_cue()` over the stack. -/
def cueLoop (a : ℕ) : ℕ → Noun → ℕ → List CueFrame → (ℕ → Option Noun) → Option Noun
  | _, pro, _, [], _ => some pro
  | 0, _, _, _ :: _, _ => none
  | fuel + 1, pro, wid, ⟨none, _, cur⟩ :: pil_u, har => do
    let (pro, wid, pil_u, har) ←
      csCueNext a (⟨some pro, wid, cur⟩ :: pil_u) har (2 + (wid + cur))
    cueLoop a fuel pro wid pil_u har
  | fuel + 1, pro, wid, ⟨some hed, wid_h, cur⟩ :: pil_u, har =>
    let pro := .cell hed pro
    cueLoop a fuel pro (2 + (wid + wid_h)) pil_u (Function.update har cur (some pro))

/-- The reading of the next noun, and of everything after it. -/
def csCueOn (fuel a : ℕ) (pil_u : List CueFrame) (har : ℕ → Option Noun) (cur : ℕ) :
    Option Noun := do
  let (pro, wid, pil_u, har) ← csCueNext a pil_u har cur
  cueLoop a fuel pro wid pil_u har

/-- `u3s_cue()`. -/
def u3sCue (fuel a : ℕ) : Option Noun := csCueOn fuel a [] (fun _ ↦ none) 0

/-! ### What decoding reads -/

/-- After a noun is read: the cells that it completes are made, up to one that it is the head of,
unless that completes the whole noun. -/
def unwind : Noun → List Frame → (ℕ → Option Noun) → Noun ⊕ (List Frame × (ℕ → Option Noun))
  | ref, [], _ => .inl ref
  | ref, ⟨none, bits⟩ :: s, dict => .inr (⟨some ref, bits⟩ :: s, dict)
  | ref, ⟨some hed, bits⟩ :: s, dict =>
    unwind (.cell hed ref) s (Function.update dict bits (some (.cell hed ref)))

/-- The reading of an atom, or of a back-reference: the noun, and the reader and the dictionary
after it. -/
inductive Leaf (bsr : Bsr) (dict : ℕ → Option Noun) :
    Noun → Bsr → (ℕ → Option Noun) → Prop
  | atom {red body : Bsr} {len : ℕ} (htag : bsrTag bsr = .ok (.atom, red))
      (hrub : bsrRubLen red = .ok (len, body)) :
    Leaf bsr dict (.atom (ofBits (body.rest.take len))) (body.skip len)
      (Function.update dict bsr.bits (some (.atom (ofBits (body.rest.take len)))))
  | back {red body : Bsr} {len : ℕ} {ref : Noun} (htag : bsrTag bsr = .ok (.back, red))
      (hrub : bsrRubLen red = .ok (len, body)) (hlen : len ≤ 62)
      (hdict : dict (ofBits (body.rest.take len)) = some ref) :
    Leaf bsr dict ref (body.skip len) dict

/-- The states in which decoding a byte string reads a tag. -/
inductive Visit (byt : List UInt8) : List Frame → Bsr → (ℕ → Option Noun) → Prop
  | start : Visit byt [] (bsrInit byt) fun _ ↦ none
  | cell {s : List Frame} {bsr red : Bsr} {dict : ℕ → Option Noun} (hvisit : Visit byt s bsr dict)
      (htag : bsrTag bsr = .ok (.cell, red)) : Visit byt (⟨none, bsr.bits⟩ :: s) red dict
  | next {s s' : List Frame} {bsr red : Bsr} {dict dict₁ dict' : ℕ → Option Noun} {ref : Noun}
      (hvisit : Visit byt s bsr dict) (hleaf : Leaf bsr dict ref red dict₁)
      (hnext : unwind ref s dict₁ = .inr (s', dict')) : Visit byt s' red dict'

/-- The noun that reading to the end gives. -/
inductive Finish : List Frame → Bsr → (ℕ → Option Noun) → Noun → Prop
  | cell {s : List Frame} {bsr red : Bsr} {dict : ℕ → Option Noun} {n : Noun}
      (htag : bsrTag bsr = .ok (.cell, red)) (hrest : Finish (⟨none, bsr.bits⟩ :: s) red dict n) :
    Finish s bsr dict n
  | last {s : List Frame} {bsr red : Bsr} {dict dict₁ : ℕ → Option Noun} {ref n : Noun}
      (hleaf : Leaf bsr dict ref red dict₁) (hlast : unwind ref s dict₁ = .inl n) :
    Finish s bsr dict n
  | next {s s' : List Frame} {bsr red : Bsr} {dict dict₁ dict' : ℕ → Option Noun} {ref n : Noun}
      (hleaf : Leaf bsr dict ref red dict₁) (hnext : unwind ref s dict₁ = .inr (s', dict'))
      (hrest : Finish s' red dict' n) : Finish s bsr dict n

/-- No declared atom body extends past the end of the input. -/
def BodiesInside (byt : List UInt8) : Prop :=
  ∀ s bsr dict red len body, Visit byt s bsr dict → bsrTag bsr = .ok (.atom, red) →
    bsrRubLen red = .ok (len, body) → len ≤ body.rest.length

/-- An atom of which `u3qc_cut()` gives every bit: its body starts before bit `2 ^ 31` and has no
set bit from its own bit `2 ^ 31 - 1` on. -/
def Whole (body : Bsr) (len : ℕ) : Prop :=
  body.bits < 2 ^ 31 ∧ ofBits (body.rest.take len) < 2 ^ (2 ^ 31 - 1)

/-- The atom that is read last is zero or whole. An input of more than `2 ^ 32 - 32` bits, or an
atom whose length is only announced from bit `2 ^ 31` on, makes `u3s_cue` bail. -/
def LastWhole (byt : List UInt8) : Prop :=
  ∀ s bsr dict red len body, Visit byt s bsr dict → (∀ frame ∈ s, frame.ref ≠ none) →
    bsrTag bsr = .ok (.atom, red) → bsrRubLen red = .ok (len, body) →
      ofBits (body.rest.take len) = 0 ∨
        Whole body len ∨
        2 ^ 31 ≤ red.bits + (body.bits - red.bits) / 2 ∨
        2 ^ 32 - 32 < (ofBits (unpack byt)).size

/-! ### The decoders of bit streams -/

variable {direct : ℕ} {refuse : ℕ → Bool} {past : Past}

theorem cueWalk_eq_unwind (ref : Noun) (s : List Frame) (bsr : Bsr) (dict : ℕ → Option Noun) :
    cueWalk (mapReader direct refuse past) ref s bsr dict =
      match unwind ref s dict with
      | .inl n => .ok (n, bsr)
      | .inr (s, dict) => cueOn (mapReader direct refuse past) s bsr dict := by
  induction s generalizing ref dict with
  | nil => rw [cueWalk, unwind]
  | cons frame s ih =>
    obtain ⟨_ | hed, bits⟩ := frame
    · rw [cueWalk_head, unwind]
    · rw [cueWalk_tail _ _ _ rfl, ih, unwind]

/-- A decoder reads an atom whose body is inside the input, unless it refuses it. -/
theorem Reader.atom_inside {rdr : Reader (ℕ → Option Noun) CueRes} (hdirect : rdr.direct ≤ 64)
    {bsr : Bsr} {len : ℕ} (hinside : len ≤ bsr.rest.length) {res : ℕ × Bsr}
    (hatom : rdr.atom bsr len = .ok res) :
    res = (ofBits (bsr.rest.take len), bsr.skip len) := by
  unfold Reader.atom at hatom
  split_ifs at hatom with hdir
  · rw [← Except.ok.inj hatom, bsr64Any, Nat.min_eq_right (hdir.trans hdirect)]
  · rw [← Except.ok.inj hatom, bsrBytesAny, if_pos hinside]

theorem Leaf.tag_ne_cell {bsr red body : Bsr} (hleaf : Leaf bsr dict ref red dict₁) :
    bsrTag bsr ≠ .ok (.cell, body) := by
  cases hleaf with
  | atom htag _ => simp [htag]
  | back htag _ _ _ => simp [htag]

theorem Leaf.unique {bsr red red' : Bsr} {dict₁' : ℕ → Option Noun} {ref' : Noun}
    (hleaf : Leaf bsr dict ref red dict₁) (hleaf' : Leaf bsr dict ref' red' dict₁') :
    ref = ref' ∧ red = red' ∧ dict₁ = dict₁' := by
  cases hleaf with
  | atom htag hrub =>
    cases hleaf' with
    | atom htag' hrub' =>
      obtain ⟨_, rfl⟩ := Prod.mk.inj (Except.ok.inj (htag.symm.trans htag'))
      obtain ⟨rfl, rfl⟩ := Prod.mk.inj (Except.ok.inj (hrub.symm.trans hrub'))
      exact ⟨rfl, rfl, rfl⟩
    | back htag' _ _ _ => simp [htag] at htag'
  | back htag hrub _ hdict =>
    cases hleaf' with
    | atom htag' _ => simp [htag] at htag'
    | back htag' hrub' _ hdict' =>
      obtain ⟨_, rfl⟩ := Prod.mk.inj (Except.ok.inj (htag.symm.trans htag'))
      obtain ⟨rfl, rfl⟩ := Prod.mk.inj (Except.ok.inj (hrub.symm.trans hrub'))
      exact ⟨Option.some.inj (hdict.symm.trans hdict'), rfl, rfl⟩

/-- Reading to the end gives one noun. -/
theorem Finish.unique {s : List Frame} {bsr : Bsr} {dict : ℕ → Option Noun} {n m : Noun}
    (hn : Finish s bsr dict n) (hm : Finish s bsr dict m) : n = m := by
  induction hn with
  | cell htag _ ih =>
    cases hm with
    | cell htag' hrest' =>
      obtain ⟨_, rfl⟩ := Prod.mk.inj (Except.ok.inj (htag.symm.trans htag'))
      exact ih hrest'
    | last hleaf _ => exact absurd htag hleaf.tag_ne_cell
    | next hleaf _ _ => exact absurd htag hleaf.tag_ne_cell
  | last hleaf hlast =>
    cases hm with
    | cell htag _ => exact absurd htag hleaf.tag_ne_cell
    | last hleaf' hlast' =>
      obtain ⟨rfl, rfl, rfl⟩ := hleaf.unique hleaf'
      exact Sum.inl.inj (hlast.symm.trans hlast')
    | next hleaf' hnext' _ =>
      obtain ⟨rfl, rfl, rfl⟩ := hleaf.unique hleaf'
      simp [hlast] at hnext'
  | next hleaf hnext _ ih =>
    cases hm with
    | cell htag _ => exact absurd htag hleaf.tag_ne_cell
    | last hleaf' hlast' =>
      obtain ⟨rfl, rfl, rfl⟩ := hleaf.unique hleaf'
      simp [hnext] at hlast'
    | next hleaf' hnext' hrest' =>
      obtain ⟨rfl, rfl, rfl⟩ := hleaf.unique hleaf'
      obtain ⟨rfl, rfl⟩ := Prod.mk.inj (Sum.inr.inj (hnext.symm.trans hnext'))
      exact ih hrest'

/-- A bit stream decoder that returns has read to the end. -/
theorem finish_of_cueOn (hdirect : direct ≤ 64) {byt : List UInt8}
    (hinside : BodiesInside byt) {s : List Frame} {bsr bsr' : Bsr} {dict : ℕ → Option Noun}
    (hvisit : Visit byt s bsr dict) {n : Noun}
    (hcue : cueOn (mapReader direct refuse past) s bsr dict = .ok (n, bsr')) :
    Finish s bsr dict n := by
  -- what follows an atom or a back-reference
  have hgo : ∀ {ref red dict₁}, Leaf bsr dict ref red dict₁ → red.rest.length < bsr.rest.length →
      cueWalk (mapReader direct refuse past) ref s red dict₁ = .ok (n, bsr') →
      Finish s bsr dict n := by
    intro ref red dict₁ hleaf hless hwalk
    rw [cueWalk_eq_unwind] at hwalk
    cases hunwind : unwind ref s dict₁ with
    | inl m =>
      simp only [hunwind] at hwalk
      obtain ⟨rfl, _⟩ := Prod.mk.inj (Except.ok.inj hwalk)
      exact .last hleaf hunwind
    | inr next =>
      simp only [hunwind] at hwalk
      exact .next hleaf hunwind (finish_of_cueOn hdirect hinside (hvisit.next hleaf hunwind) hwalk)
  cases htag : bsrTag bsr with
  | error res =>
    rw [cueOn, cueNext_of_error _ s dict htag] at hcue
    simp at hcue
  | ok tagged =>
    obtain ⟨tag, red⟩ := tagged
    have hless := bsrTag_length_lt htag
    cases tag with
    | cell =>
      rw [cueOn, cueNext_of_cell _ s dict htag] at hcue
      exact .cell htag (finish_of_cueOn hdirect hinside (hvisit.cell htag) hcue)
    | back =>
      rw [cueOn, cueNext_of_back _ s dict htag] at hcue
      cases hrub : bsrRubLen red with
      | error res => simp [hrub] at hcue
      | ok rubbed =>
        obtain ⟨len, body⟩ := rubbed
        have hle := bsrRubLen_length_le hrub
        have hskip := body.length_skip_le len
        simp only [hrub] at hcue
        split_ifs at hcue with hlong
        have hany : bsr64Any body len = (ofBits (body.rest.take len), body.skip len) := by
          rw [bsr64Any, Nat.min_eq_right (by omega)]
        rw [hany] at hcue
        simp only [mapReader_get] at hcue
        cases hdict : dict (ofBits (body.rest.take len)) with
        | none => simp [hdict] at hcue
        | some ref =>
          simp only [hdict] at hcue
          exact hgo (.back htag hrub (by omega) hdict) (by omega) hcue
    | atom =>
      rw [cueOn, cueNext_of_atom _ s dict htag] at hcue
      cases hrub : bsrRubLen red with
      | error res => simp [hrub] at hcue
      | ok rubbed =>
        obtain ⟨len, body⟩ := rubbed
        have hle := bsrRubLen_length_le hrub
        have hskip := body.length_skip_le len
        simp only [hrub] at hcue
        cases hatom : (mapReader direct refuse past).atom body len with
        | error res => simp [hatom] at hcue
        | ok res =>
          obtain rfl := Reader.atom_inside hdirect
            (hinside s bsr dict red len body hvisit htag hrub) hatom
          simp only [hatom, mapReader_put] at hcue
          exact hgo (.atom htag hrub) (by omega) hcue
termination_by bsr.rest.length
decreasing_by
  · exact hless
  · exact hless

/-! ### The decoder of atoms -/

theorem qcCut_bit {i : ℕ} (hsize : a.size ≤ 2 ^ 32 - 32) (hi : i < 2 ^ 31) :
    qcCut i 1 a = some (a.testBit i).toNat := by
  rw [qcCut_eq, if_pos hi, if_pos hsize, Nat.toNat_testBit, Nat.shiftRight_eq_div_pow]
  congr 1

theorem qcCut_of_ge {i c : ℕ} (hi : 2 ^ 31 ≤ i) : qcCut i c a = some 0 := by
  rw [qcCut_eq, if_neg (by omega)]

/-- The scan of `u3qe_rub()` finds nothing from bit `2 ^ 31` on. -/
theorem qeRubScan_of_ge {b m x : ℕ} (hx : 2 ^ 31 ≤ x) : qeRubScan b m x = none := by
  rw [qeRubScan, qcCut_of_ge hx]
  by_cases hend : m < x
  · simp [hend]
  · simpa [hend] using qeRubScan_of_ge (show 2 ^ 31 ≤ x + 1 by omega)
termination_by m + 1 - x

/-- The scan of `u3qe_rub()` ends at the next set bit, if that is before bit `2 ^ 31`. -/
theorem qeRubScan_eq {b m x y : ℕ} (hsize : b.size ≤ 2 ^ 32 - 32) (hx : x ≤ y) (hy : y ≤ m)
    (hclear : ∀ i, x ≤ i → i < y → b.testBit i = false) (hset : b.testBit y = true) :
    qeRubScan b m x = if y < 2 ^ 31 then some y else none := by
  by_cases hlow : x < 2 ^ 31
  · rw [qeRubScan, qcCut_bit hsize hlow]
    by_cases heq : x = y
    · subst heq
      rw [if_pos hlow]
      simp [hset]
    · have hnext := qeRubScan_eq hsize (show x + 1 ≤ y by omega) hy
        (fun i hi hi' ↦ hclear i (by omega) hi') hset
      simpa [hclear x (Nat.le_refl x) (by omega), show ¬ m < x by omega] using hnext
  · rw [qeRubScan_of_ge (by omega), if_neg (by omega)]
termination_by m + 1 - x

/-- A reader that is at its cursor in the bits of the input. -/
def At (bits : List Bool) (bsr : Bsr) : Prop := bsr.rest = bits.drop bsr.bits

theorem At.skip {bits : List Bool} {bsr : Bsr} (hat : At bits bsr) (len : ℕ) :
    At bits (bsr.skip len) := by
  rw [At, Bsr.skip, hat, List.drop_drop]

theorem At.getD {bits : List Bool} {bsr : Bsr} (hat : At bits bsr) (i : ℕ) :
    bsr.rest.getD i false = (ofBits bits).testBit (bsr.bits + i) := by
  rw [hat, testBit_ofBits]
  simp [List.getD]

theorem At.take {bits : List Bool} {bsr : Bsr} (hat : At bits bsr) (len : ℕ) :
    ofBits (bsr.rest.take len) = (ofBits bits >>> bsr.bits) % 2 ^ len := by
  rw [hat, ofBits_take, ofBits_drop, Nat.shiftRight_eq_div_pow]

/-- What `u3qc_cut()` gives for the body of an atom. -/
def cutBody (body : Bsr) (len : ℕ) : ℕ :=
  if body.bits < 2 ^ 31 then ofBits (body.rest.take len) % 2 ^ (2 ^ 31 - 1) else 0

theorem qcCut_body {bits : List Bool} {body : Bsr} (hat : At bits body) (len : ℕ)
    (hsize : (ofBits bits).size ≤ 2 ^ 32 - 32) :
    qcCut body.bits len (ofBits bits) = some (cutBody body len) := by
  rw [qcCut_eq, cutBody]
  split_ifs with hlow
  · rw [hat.take]
    refine congrArg some (Nat.eq_of_testBit_eq fun i ↦ ?_)
    simp only [Nat.testBit_mod_two_pow, Nat.lt_min, Bool.decide_and]
    rw [← Bool.and_assoc, Bool.and_comm (decide (i < len))]
  · rfl

theorem whole_of_le {body : Bsr} {len : ℕ} (hlow : body.bits < 2 ^ 31) (hlen : len ≤ 2 ^ 31 - 1) :
    Whole body len :=
  ⟨hlow, ofBits_take_lt hlen⟩

theorem cutBody_of_whole {body : Bsr} {len : ℕ} (hwhole : Whole body len) :
    cutBody body len = ofBits (body.rest.take len) := by
  rw [cutBody, if_pos hwhole.1, Nat.mod_eq_of_lt hwhole.2]

theorem cutBody_of_ge {body : Bsr} (len : ℕ) (hhigh : 2 ^ 31 ≤ body.bits) :
    cutBody body len = 0 := by
  rw [cutBody, if_neg (by omega)]

/-- The number of zeros before a number whose length was read. -/
def zerosOf (red body : Bsr) : ℕ := (body.bits - red.bits) / 2

/-- `u3qe_rub()` where `ur_bsr_rub_len()` reads a length: it bails when the zeros reach bit
`2 ^ 31`, and the width is right unless the body starts there. -/
theorem qeRub_spec {bits : List Bool} {red body : Bsr} {len : ℕ} (hat : At bits red)
    (hsize : (ofBits bits).size ≤ 2 ^ 32 - 32) (hrub : bsrRubLen red = .ok (len, body)) :
    2 ^ 31 ≤ red.bits + zerosOf red body ∧ qeRub red.bits (ofBits bits) = none ∨
      red.bits + zerosOf red body < 2 ^ 31 ∧ ∃ wid,
        qeRub red.bits (ofBits bits) = some (wid, cutBody body len) ∧
          (body.bits < 2 ^ 31 ∧ red.bits + wid = body.bits + len ∨
            2 ^ 31 ≤ body.bits ∧ 2 ^ 31 ≤ red.bits + wid) := by
  obtain ⟨zeros, hzeros, hclear, hset, hcase⟩ := bsrRubLen_spec hrub
  have hscan : qeRubScan (ofBits bits) (red.bits + (ofBits bits).size) red.bits =
      if red.bits + zeros < 2 ^ 31 then some (red.bits + zeros) else none := by
    refine qeRubScan_eq hsize (Nat.le_add_right _ _) ?_ (fun i hi hi' ↦ ?_) ?_
    · have hlt := Nat.lt_size.mpr (Nat.ge_two_pow_of_testBit ((hat.getD zeros).symm.trans hset))
      omega
    · have hbit := hclear (i - red.bits) (by omega)
      rwa [hat.getD, Nat.add_sub_cancel' hi] at hbit
    · rw [← hat.getD, hset]
  have hbody : zerosOf red body = zeros := by
    rcases hcase with ⟨rfl, _, rfl⟩ | ⟨_, _, rfl⟩ <;> simp [zerosOf, Bsr.skip]
  rw [hbody, qeRub, rMet_eq, if_pos hsize]
  simp only [Option.bind_eq_bind, Option.bind_some, hscan]
  by_cases hlow : red.bits + zeros < 2 ^ 31
  · refine .inr ⟨hlow, ?_⟩
    rw [if_pos hlow]
    rcases hcase with ⟨rfl, rfl, rfl⟩ | ⟨hpos, hlen, rfl⟩
    · have hcut : cutBody (red.skip 1) 0 = 0 := by
        unfold cutBody
        rw [List.take_zero, ofBits, Nat.zero_mod, ite_self]
      rw [hcut]
      refine ⟨1, by simp, ?_⟩
      rcases Nat.lt_or_ge (red.bits + 1) (2 ^ 31) with hlt | hge
      · exact .inl ⟨hlt, rfl⟩
      · exact .inr ⟨hge, hge⟩
    · have hne : red.bits + zeros ≠ red.bits := by omega
      have hcount : red.bits + zeros - red.bits = zeros := by omega
      have hbex : qcBex (zeros - 1) = some (2 ^ (zeros - 1)) := by
        rw [qcBex, if_neg (not_not.mpr (show zeros - 1 < 2 ^ 31 by omega))]
      have hstart : red.bits + zeros + 1 + (zeros - 1) = (red.skip (2 * zeros)).bits := by
        simp only [Bsr.skip]
        omega
      have hprefix : qcCut (red.bits + zeros + 1) (zeros - 1) (ofBits bits) =
          some (cutBody (red.skip (zeros + 1)) (zeros - 1)) :=
        qcCut_body (hat.skip (zeros + 1)) (zeros - 1) hsize
      simp only [Option.bind_some, if_neg hne, hcount, hbex, hprefix, hstart,
        qcCut_body (hat.skip (2 * zeros)) _ hsize]
      have hbits : (red.skip (2 * zeros)).bits = red.bits + 2 * zeros := rfl
      rcases Nat.lt_or_ge (red.bits + 2 * zeros) (2 ^ 31) with hlt | hge
      · have hval : cutBody (red.skip (zeros + 1)) (zeros - 1) =
            ofBits ((red.rest.drop (zeros + 1)).take (zeros - 1)) :=
          cutBody_of_whole (whole_of_le (by simp only [Bsr.skip]; omega) (by omega))
        rw [hval, ← hlen]
        exact ⟨zeros + zeros + len, rfl, .inl ⟨by omega, by omega⟩⟩
      · have hnone (len : ℕ) : cutBody (red.skip (2 * zeros)) len = 0 :=
          cutBody_of_ge len (hbits.symm ▸ hge)
        have hpow := Nat.two_pow_pos (zeros - 1)
        rw [hnone, hnone]
        exact ⟨_, rfl, .inr ⟨by omega, by omega⟩⟩
  · refine .inl ⟨by omega, ?_⟩
    rw [if_neg hlow]
    rfl

theorem csCueNext_of_atom (pil_u : List CueFrame) (har : ℕ → Option Noun)
    (htag : qcCut cur 1 a = some 0) :
    csCueNext a pil_u har cur = (qeRub (cur + 1) a).bind fun bur ↦
      some (.atom bur.2, bur.1 + 1, pil_u, Function.update har cur (some (.atom bur.2))) := by
  rw [csCueNext]
  split <;> simp_all

theorem csCueNext_of_back (pil_u : List CueFrame) (har : ℕ → Option Noun)
    (htag : qcCut cur 1 a = some 1) (hback : qcCut (cur + 1) 1 a = some 1) :
    csCueNext a pil_u har cur = (qeRub (cur + 2) a).bind fun bur ↦
      (har bur.2).bind fun pro ↦ some (pro, 2 + bur.1, pil_u, har) := by
  rw [csCueNext]
  split <;> simp_all

theorem csCueNext_of_cell (pil_u : List CueFrame) (har : ℕ → Option Noun)
    (htag : qcCut cur 1 a = some 1) (hcell : qcCut (cur + 1) 1 a = some 0) :
    csCueNext a pil_u har cur = csCueNext a (⟨none, 0, cur⟩ :: pil_u) har (cur + 2) := by
  rw [csCueNext]
  split <;> simp_all

/-- `u3s_cue()` reads nothing from bit `2 ^ 31` on. -/
theorem csCueNext_of_ge (pil_u : List CueFrame) (har : ℕ → Option Noun) (hcur : 2 ^ 31 ≤ cur) :
    csCueNext a pil_u har cur = none := by
  have hrub : qeRub (cur + 1) a = none := by
    cases hmet : rMet a with
    | none => simp [qeRub, hmet]
    | some bit => simp [qeRub, hmet, qeRubScan_of_ge (show 2 ^ 31 ≤ cur + 1 by omega)]
  rw [csCueNext_of_atom pil_u har (qcCut_of_ge hcur), hrub]
  rfl

/-- `u3s_cue()` bails on an atom that is too large. -/
theorem csCueNext_of_large (pil_u : List CueFrame) (har : ℕ → Option Noun) (cur : ℕ)
    (hsize : 2 ^ 32 - 32 < a.size) : csCueNext a pil_u har cur = none := by
  by_cases hcur : cur < 2 ^ 31
  · have htag : qcCut cur 1 a = none := by
      rw [qcCut_eq, if_pos hcur, if_neg (by omega)]
    rw [csCueNext]
    split <;> simp_all
  · exact csCueNext_of_ge pil_u har (by omega)

theorem bsrRubLen_skip {red body : Bsr} {len : ℕ} (hrub : bsrRubLen red = .ok (len, body)) :
    body = red.skip (body.bits - red.bits) ∧ red.bits + zerosOf red body < body.bits := by
  obtain ⟨zeros, _, _, _, ⟨rfl, _, rfl⟩ | ⟨hpos, _, rfl⟩⟩ := bsrRubLen_spec hrub
  · exact ⟨by simp [Bsr.skip], by simp [zerosOf, Bsr.skip]⟩
  · refine ⟨by simp [Bsr.skip], ?_⟩
    simp only [zerosOf, Bsr.skip]
    omega

/-! ### The two stacks -/

/-- The stack of `u3s_cue()` beside that of the decoders of bit streams: `start` is where the noun
that is being read starts. -/
def Aligned : List CueFrame → List Frame → ℕ → Prop
  | [], [], start => start = 0
  | ⟨none, _, cur⟩ :: pil_u, ⟨none, bits⟩ :: s, start =>
    cur = bits ∧ start = cur + 2 ∧ Aligned pil_u s cur
  | ⟨some hed, wid, cur⟩ :: pil_u, ⟨some ref, bits⟩ :: s, start =>
    hed = ref ∧ cur = bits ∧ start = cur + 2 + wid ∧ Aligned pil_u s cur
  | _, _, _ => False

theorem Aligned.of_nil {pil_u : List CueFrame} (haligned : Aligned pil_u [] start) :
    pil_u = [] ∧ start = 0 := by
  rcases pil_u with _ | ⟨⟨_ | hed, wid, cur⟩, pil_u⟩ <;> simp_all [Aligned]

theorem Aligned.of_head {pil_u : List CueFrame} {bits : ℕ}
    (haligned : Aligned pil_u (⟨none, bits⟩ :: s) start) :
    ∃ wid pil_u', pil_u = ⟨none, wid, bits⟩ :: pil_u' ∧ start = bits + 2 ∧
      Aligned pil_u' s bits := by
  rcases pil_u with _ | ⟨⟨_ | hed, wid, cur⟩, pil_u⟩
  · exact haligned.elim
  · obtain ⟨rfl, rfl, hrest⟩ := haligned
    exact ⟨wid, pil_u, rfl, rfl, hrest⟩
  · exact haligned.elim

theorem Aligned.of_tail {pil_u : List CueFrame} {bits : ℕ} {hed : Noun}
    (haligned : Aligned pil_u (⟨some hed, bits⟩ :: s) start) :
    ∃ wid pil_u', pil_u = ⟨some hed, wid, bits⟩ :: pil_u' ∧ start = bits + 2 + wid ∧
      Aligned pil_u' s bits := by
  rcases pil_u with _ | ⟨⟨_ | hed, wid, cur⟩, pil_u⟩
  · exact haligned.elim
  · exact haligned.elim
  · obtain ⟨rfl, rfl, rfl, hrest⟩ := haligned
    exact ⟨wid, pil_u, rfl, rfl, hrest⟩

theorem Aligned.pos {pil_u : List CueFrame} (haligned : Aligned pil_u s start) (hne : s ≠ []) :
    0 < start := by
  rcases s with _ | ⟨⟨_ | hed, bits⟩, s⟩
  · exact absurd rfl hne
  · obtain ⟨wid, pil_u', _, rfl, _⟩ := haligned.of_head
    omega
  · obtain ⟨wid, pil_u', _, rfl, _⟩ := haligned.of_tail
    omega

/-- Whether a noun completes the whole noun depends on the stack only. -/
theorem unwind_isLeft (ref ref' : Noun) (s : List Frame) (dict dict' : ℕ → Option Noun) :
    (unwind ref s dict).isLeft = (unwind ref' s dict').isLeft := by
  induction s generalizing ref ref' dict dict' with
  | nil => rfl
  | cons frame s ih =>
    obtain ⟨_ | hed, bits⟩ := frame
    · rfl
    · exact ih _ _ _ _

theorem unwind_next_of_next (ref' : Noun) (dict₁ : ℕ → Option Noun)
    (hnext : unwind ref s dict = .inr (s', dict')) :
    ∃ s'' dict'', unwind ref' s dict₁ = .inr (s'', dict'') := by
  have hleft := unwind_isLeft ref ref' s dict dict₁
  cases hunwind : unwind ref' s dict₁ with
  | inl n => simp [hnext, hunwind] at hleft
  | inr next => exact ⟨next.1, next.2, rfl⟩

/-- A noun completes the whole noun when no head is left to be read. -/
theorem unwind_isLeft_iff (ref : Noun) (s : List Frame) (dict : ℕ → Option Noun) :
    (unwind ref s dict).isLeft = true ↔ ∀ frame ∈ s, frame.ref ≠ none := by
  induction s generalizing ref dict with
  | nil => simp [unwind]
  | cons frame s ih =>
    obtain ⟨_ | hed, bits⟩ := frame
    · simp [unwind]
    · simp [unwind, ih]

/-- Different last nouns complete different nouns. -/
theorem unwind_injective {ref' : Noun} (hn : unwind ref s dict = .inl n)
    (hn' : unwind ref' s dict' = .inl n) : ref = ref' := by
  induction s generalizing ref ref' dict dict' with
  | nil => exact (Sum.inl.inj hn).trans (Sum.inl.inj hn').symm
  | cons frame s ih =>
    obtain ⟨_ | hed, bits⟩ := frame
    · simp [unwind] at hn
    · exact (Noun.cell.inj (ih hn hn')).2

/-- While the whole noun is not complete, no cursor is `0`. -/
theorem unwind_dict_zero {pil_u : List CueFrame} (haligned : Aligned pil_u s start)
    (hunwind : unwind ref s dict = .inr (s', dict')) (hdict : dict 0 = none) : dict' 0 = none := by
  induction s generalizing ref pil_u start dict with
  | nil => simp [unwind] at hunwind
  | cons frame s ih =>
    obtain ⟨_ | hed, bits⟩ := frame
    · obtain ⟨_, rfl⟩ := Prod.mk.inj (Sum.inr.inj hunwind)
      exact hdict
    · obtain ⟨wid, pil_u', _, _, hrest⟩ := haligned.of_tail
      have hne : s ≠ [] := by
        rintro rfl
        simp [unwind] at hunwind
      refine ih hrest hunwind ?_
      rw [Function.update_of_ne (Nat.ne_of_lt (hrest.pos hne)), hdict]

/-- The loop of `u3s_cue()` makes the cells that a noun completes, and then either returns or goes
on to read a tail. -/
theorem cueLoop_eq_unwind (a : ℕ) (pro : Noun) (wid : ℕ) {pil_u : List CueFrame}
    (har : ℕ → Option Noun) (haligned : Aligned pil_u s start) :
    ∃ steps, match unwind pro s har with
      | .inl n => ∀ fuel, cueLoop a (fuel + steps) pro wid pil_u har = some n
      | .inr (s', har') => ∃ pil_u', Aligned pil_u' s' (start + wid) ∧
          ∀ fuel, cueLoop a (fuel + steps) pro wid pil_u har =
            csCueOn fuel a pil_u' har' (start + wid) := by
  induction s generalizing pro wid pil_u start har with
  | nil =>
    obtain ⟨rfl, rfl⟩ := haligned.of_nil
    refine ⟨0, fun fuel ↦ ?_⟩
    cases fuel <;> rw [cueLoop]
  | cons frame s ih =>
    obtain ⟨_ | hed, bits⟩ := frame
    · obtain ⟨wid_h, pil_u', rfl, rfl, hrest⟩ := haligned.of_head
      refine ⟨1, ⟨some pro, wid, bits⟩ :: pil_u', ⟨rfl, rfl, rfl, hrest⟩, fun fuel ↦ ?_⟩
      rw [cueLoop, csCueOn, show 2 + (wid + bits) = bits + 2 + wid by ring]
    · obtain ⟨wid_h, pil_u', rfl, rfl, hrest⟩ := haligned.of_tail
      obtain ⟨steps, hsteps⟩ := ih (.cell hed pro) (2 + (wid + wid_h))
        (Function.update har bits (some (.cell hed pro))) hrest
      refine ⟨steps + 1, ?_⟩
      rw [show bits + (2 + (wid + wid_h)) = bits + 2 + wid_h + wid by ring] at hsteps
      exact hsteps

/-! ### One noun of the atom -/

section Atom

variable {bits : List Bool} (hsize : (ofBits bits).size ≤ 2 ^ 32 - 32) {bsr red body : Bsr}
  (hat : At bits bsr) {len : ℕ} (pil_u : List CueFrame) (har : ℕ → Option Noun)

include hsize hat

theorem qcCut_at {i : ℕ} (hlow : bsr.bits + i < 2 ^ 31) :
    qcCut (bsr.bits + i) 1 (ofBits bits) = some (bsr.rest.getD i false).toNat := by
  rw [qcCut_bit hsize hlow, hat.getD]

/-- A cell is read as in the bit stream. -/
theorem csCueNext_cell (htag : bsrTag bsr = .ok (.cell, red)) :
    csCueNext (ofBits bits) pil_u har bsr.bits =
      csCueNext (ofBits bits) (⟨none, 0, bsr.bits⟩ :: pil_u) har red.bits := by
  obtain ⟨hset, hclear, rfl⟩ := bsrTag_spec htag
  show _ = csCueNext _ _ _ (bsr.bits + 2)
  by_cases hlow : bsr.bits < 2 ^ 31
  · have hfirst : qcCut bsr.bits 1 (ofBits bits) = some 1 := by
      rw [← Nat.add_zero bsr.bits, qcCut_at hsize hat hlow, hset]
      rfl
    refine csCueNext_of_cell pil_u har hfirst ?_
    by_cases hnext : bsr.bits + 1 < 2 ^ 31
    · rw [qcCut_at hsize hat hnext, hclear]
      rfl
    · exact qcCut_of_ge (by omega)
  · rw [csCueNext_of_ge pil_u har (by omega), csCueNext_of_ge _ har (by omega)]

/-- An atom is read as in the bit stream, unless it reaches bit `2 ^ 31`. -/
theorem csCueNext_atom (htag : bsrTag bsr = .ok (.atom, red))
    (hrub : bsrRubLen red = .ok (len, body)) :
    2 ^ 31 ≤ red.bits + zerosOf red body ∧ csCueNext (ofBits bits) pil_u har bsr.bits = none ∨
      red.bits + zerosOf red body < 2 ^ 31 ∧ ∃ wid,
        csCueNext (ofBits bits) pil_u har bsr.bits =
          some (.atom (cutBody body len), wid, pil_u,
            Function.update har bsr.bits (some (.atom (cutBody body len)))) ∧
          (body.bits < 2 ^ 31 ∧ bsr.bits + wid = body.bits + len ∨
            2 ^ 31 ≤ body.bits ∧ 2 ^ 31 ≤ bsr.bits + wid) := by
  obtain ⟨hclear, rfl⟩ := bsrTag_spec htag
  by_cases hlow : bsr.bits < 2 ^ 31
  · have hfirst : qcCut bsr.bits 1 (ofBits bits) = some 0 := by
      rw [← Nat.add_zero bsr.bits, qcCut_at hsize hat hlow, hclear]
      rfl
    rw [csCueNext_of_atom pil_u har hfirst]
    rcases qeRub_spec (hat.skip 1) hsize hrub with ⟨hhigh, hnone⟩ | ⟨hbelow, wid, hsome, hwid⟩
    · left
      rw [Bsr.skip] at hnone
      exact ⟨hhigh, by rw [hnone]; rfl⟩
    · right
      simp only [Bsr.skip] at hsome hwid
      refine ⟨hbelow, wid + 1, by rw [hsome]; rfl, ?_⟩
      omega
  · left
    rw [csCueNext_of_ge pil_u har (by omega)]
    exact ⟨by simp only [Bsr.skip]; omega, rfl⟩

/-- A back-reference is read as in the bit stream, unless it reaches bit `2 ^ 31`: then the cursor
that it is taken for is `0`. -/
theorem csCueNext_back (htag : bsrTag bsr = .ok (.back, red))
    (hrub : bsrRubLen red = .ok (len, body)) (hlen : len ≤ 62)
    (hdict : har (ofBits (body.rest.take len)) = some ref) (hzero : har 0 = none) :
    2 ^ 31 ≤ body.bits ∧ csCueNext (ofBits bits) pil_u har bsr.bits = none ∨
      ∃ wid, csCueNext (ofBits bits) pil_u har bsr.bits = some (ref, wid, pil_u, har) ∧
        bsr.bits + wid = body.bits + len := by
  obtain ⟨hset, hback, rfl⟩ := bsrTag_spec htag
  have hbody := (bsrRubLen_skip hrub).2
  rw [show (bsr.skip 2).bits = bsr.bits + 2 from rfl] at hbody
  by_cases hlow : bsr.bits + 1 < 2 ^ 31
  · have hfirst : qcCut bsr.bits 1 (ofBits bits) = some 1 := by
      rw [← Nat.add_zero bsr.bits, qcCut_at hsize hat (by omega), hset]
      rfl
    have hsecond : qcCut (bsr.bits + 1) 1 (ofBits bits) = some 1 := by
      rw [qcCut_at hsize hat hlow, hback]
      rfl
    rw [csCueNext_of_back pil_u har hfirst hsecond]
    rcases qeRub_spec (hat.skip 2) hsize hrub with ⟨hhigh, hnone⟩ | ⟨_, wid, hsome, hwid⟩
    · left
      rw [show (bsr.skip 2).bits = bsr.bits + 2 from rfl] at hhigh hnone
      exact ⟨by omega, by rw [hnone]; rfl⟩
    · rw [show (bsr.skip 2).bits = bsr.bits + 2 from rfl] at hsome hwid
      rw [hsome, Option.bind_some]
      rcases hwid with ⟨hbelow, hwid⟩ | ⟨habove, _⟩
      · right
        rw [cutBody_of_whole (whole_of_le hbelow (by omega)), hdict]
        exact ⟨2 + wid, rfl, by omega⟩
      · left
        rw [cutBody_of_ge len habove, hzero]
        exact ⟨habove, rfl⟩
  · left
    refine ⟨by omega, ?_⟩
    by_cases hedge : bsr.bits < 2 ^ 31
    · have hfirst : qcCut bsr.bits 1 (ofBits bits) = some 1 := by
        rw [← Nat.add_zero bsr.bits, qcCut_at hsize hat hedge, hset]
        rfl
      rw [csCueNext_of_cell pil_u har hfirst (qcCut_of_ge (by omega))]
      exact csCueNext_of_ge _ har (by omega)
    · exact csCueNext_of_ge pil_u har (by omega)

end Atom

/-! ### The whole atom -/

theorem cueLoop_mono {pro : Noun} {wid : ℕ} {pil_u : List CueFrame} {har : ℕ → Option Noun}
    (hloop : cueLoop a fuel pro wid pil_u har = some n) (more : ℕ) :
    cueLoop a (fuel + more) pro wid pil_u har = some n := by
  induction fuel generalizing pro wid pil_u har with
  | zero =>
    cases pil_u with
    | nil => rwa [cueLoop] at hloop ⊢
    | cons frame pil_u => simp [cueLoop] at hloop
  | succ fuel ih =>
    rw [Nat.succ_add]
    rcases pil_u with _ | ⟨⟨_ | hed, wid_h, cur⟩, pil_u⟩
    · rwa [cueLoop] at hloop ⊢
    · rw [cueLoop] at hloop ⊢
      cases hnext : csCueNext a (⟨some pro, wid, cur⟩ :: pil_u) har (2 + (wid + cur)) with
      | none => simp [hnext] at hloop
      | some next =>
        simp only [hnext, Option.bind_eq_bind, Option.bind_some] at hloop ⊢
        exact ih hloop
    · rw [cueLoop] at hloop ⊢
      exact ih hloop

theorem u3sCue_mono (hcue : u3sCue fuel a = some n) (more : ℕ) :
    u3sCue (fuel + more) a = some n := by
  unfold u3sCue csCueOn at hcue ⊢
  cases hnext : csCueNext a [] (fun _ ↦ none) 0 with
  | none => simp [hnext] at hcue
  | some next =>
    simp only [hnext, Option.bind_eq_bind, Option.bind_some] at hcue ⊢
    exact cueLoop_mono hcue more

/-- A run that bails with more fuel bails. -/
theorem u3sCue_eq_none (steps : ℕ) (hnone : ∀ fuel, u3sCue (fuel + steps) a = none) (fuel : ℕ) :
    u3sCue fuel a = none := by
  cases hcue : u3sCue fuel a with
  | none => rfl
  | some n => simpa [hnone] using u3sCue_mono hcue steps

/-- `u3s_cue()` gets to a state of the decoders of bit streams. -/
def Reaches (a : ℕ) (s : List Frame) (bsr : Bsr) (dict : ℕ → Option Noun) : Prop :=
  dict 0 = none ∧ ∃ pil_u steps, Aligned pil_u s bsr.bits ∧
    ∀ fuel, u3sCue (fuel + steps) a = csCueOn fuel a pil_u dict bsr.bits

/-- After a noun that does not complete the whole noun the run goes on to a tail. -/
theorem csCueOn_next {pil_u : List CueFrame} {wid : ℕ} {har har₁ har' : ℕ → Option Noun}
    {pro : Noun} (haligned : Aligned pil_u s start)
    (hread : csCueNext a pil_u har start = some (pro, wid, pil_u, har₁))
    (hnext : unwind pro s har₁ = .inr (s', har')) :
    ∃ pil_u' steps, Aligned pil_u' s' (start + wid) ∧
      ∀ fuel, csCueOn (fuel + steps) a pil_u har start =
        csCueOn fuel a pil_u' har' (start + wid) := by
  obtain ⟨steps, hsteps⟩ := cueLoop_eq_unwind a pro wid har₁ haligned
  simp only [hnext] at hsteps
  obtain ⟨pil_u', haligned', hrun⟩ := hsteps
  refine ⟨pil_u', steps, haligned', fun fuel ↦ ?_⟩
  rw [csCueOn, hread]
  exact hrun fuel

/-- After a noun that completes the whole noun the run returns. -/
theorem csCueOn_last {pil_u : List CueFrame} {wid : ℕ} {har har₁ : ℕ → Option Noun} {pro : Noun}
    (haligned : Aligned pil_u s start)
    (hread : csCueNext a pil_u har start = some (pro, wid, pil_u, har₁))
    (hlast : unwind pro s har₁ = .inl n) :
    ∃ steps, ∀ fuel, csCueOn (fuel + steps) a pil_u har start = some n := by
  obtain ⟨steps, hsteps⟩ := cueLoop_eq_unwind a pro wid har₁ haligned
  simp only [hlast] at hsteps
  refine ⟨steps, fun fuel ↦ ?_⟩
  rw [csCueOn, hread]
  exact hsteps fuel

/-- From bit `2 ^ 31` on there is nothing to go on to. -/
theorem csCueOn_of_none {pil_u : List CueFrame} {har : ℕ → Option Noun}
    (hread : csCueNext a pil_u har start = none) : csCueOn fuel a pil_u har start = none := by
  rw [csCueOn, hread]
  rfl

theorem Leaf.skip {bsr red : Bsr} {dict dict₁ : ℕ → Option Noun} {ref : Noun}
    (hleaf : Leaf bsr dict ref red dict₁) : ∃ len, red = bsr.skip len := by
  have hrubbed : ∀ {red body : Bsr} {tag : CueTag} {len : ℕ}, bsrTag bsr = .ok (tag, red) →
      bsrRubLen red = .ok (len, body) → ∃ more, body.skip len = bsr.skip more := by
    intro red body tag len htag hrub
    obtain ⟨more, rfl⟩ : ∃ more, red = bsr.skip more := by
      have hspec := bsrTag_spec htag
      cases tag with
      | atom => exact ⟨1, hspec.2⟩
      | cell => exact ⟨2, hspec.2.2⟩
      | back => exact ⟨2, hspec.2.2⟩
    rw [(bsrRubLen_skip hrub).1]
    exact ⟨more + (body.bits - (bsr.skip more).bits + len), by simp [Bsr.skip, Nat.add_assoc]⟩
  cases hleaf with
  | atom htag hrub => exact hrubbed htag hrub
  | back htag hrub _ _ => exact hrubbed htag hrub

theorem Leaf.reaches {bits : List Bool} (hsize : (ofBits bits).size ≤ 2 ^ 32 - 32) {bsr red : Bsr}
    (hat : At bits bsr) (hreach : Reaches (ofBits bits) s bsr dict)
    (hleaf : Leaf bsr dict ref red dict₁) (hnext : unwind ref s dict₁ = .inr (s', dict')) :
    Reaches (ofBits bits) s' red dict' ∨
      2 ^ 31 ≤ red.bits ∧ ∀ fuel, u3sCue fuel (ofBits bits) = none := by
  obtain ⟨hzero, pil_u, steps, haligned, hrun⟩ := hreach
  have hpos : 0 < bsr.bits := haligned.pos fun hnil ↦ by simp [hnil, unwind] at hnext
  -- the run bails where the next noun cannot be read
  have hstop : csCueNext (ofBits bits) pil_u dict bsr.bits = none →
      ∀ fuel, u3sCue fuel (ofBits bits) = none := fun hread ↦
    u3sCue_eq_none steps fun fuel ↦ (hrun fuel).trans (csCueOn_of_none hread)
  -- and goes on in step where it is read as in the bit stream
  have hgo : ∀ {wid}, csCueNext (ofBits bits) pil_u dict bsr.bits = some (ref, wid, pil_u, dict₁) →
      bsr.bits + wid = red.bits → dict₁ 0 = none → Reaches (ofBits bits) s' red dict' := by
    intro wid hread hwid hzero₁
    obtain ⟨pil_u', steps', haligned', hrun'⟩ := csCueOn_next haligned hread hnext
    rw [hwid] at haligned' hrun'
    refine ⟨unwind_dict_zero haligned hnext hzero₁, pil_u', steps' + steps, haligned',
      fun fuel ↦ ?_⟩
    rw [← Nat.add_assoc, hrun, hrun']
  cases hleaf with
  | @back red body len ref htag hrub hlen hdict =>
    rcases csCueNext_back hsize hat pil_u dict htag hrub hlen hdict hzero with
      ⟨hhigh, hnone⟩ | ⟨wid, hread, hwid⟩
    · right
      simp only [Bsr.skip]
      exact ⟨by omega, hstop hnone⟩
    · exact .inl (hgo hread hwid hzero)
  | @atom red body len htag hrub =>
    have hbody := (bsrRubLen_skip hrub).2
    rcases csCueNext_atom hsize hat pil_u dict htag hrub with
      ⟨hhigh, hnone⟩ | ⟨_, wid, hread, hwid⟩
    · right
      simp only [Bsr.skip]
      exact ⟨by omega, hstop hnone⟩
    · by_cases hwhole : Whole body len
      · have hlow := hwhole.1
        rw [cutBody_of_whole hwhole] at hread
        refine .inl (hgo hread ?_ ?_)
        · simp only [Bsr.skip]
          omega
        · rw [Function.update_of_ne (Nat.ne_of_lt hpos), hzero]
      · -- the atom that is misread ends past bit `2 ^ 31`, so that no tail can be read
        have hlong : 2 ^ 31 ≤ body.bits ∨ 2 ^ 31 ≤ len := by
          by_contra hshort
          exact hwhole (whole_of_le (by omega) (by omega))
        right
        refine ⟨by simp only [Bsr.skip]; omega, ?_⟩
        obtain ⟨s'', dict'', hmisread⟩ := unwind_next_of_next (.atom (cutBody body len))
          (Function.update dict bsr.bits (some (.atom (cutBody body len)))) hnext
        obtain ⟨pil_u', steps', _, hrun'⟩ := csCueOn_next haligned hread hmisread
        refine u3sCue_eq_none (steps' + steps) fun fuel ↦ ?_
        rw [← Nat.add_assoc, hrun, hrun']
        exact csCueOn_of_none (csCueNext_of_ge _ _ (by omega))

/-- `u3s_cue()` gets to every state of the decoders of bit streams that is before bit `2 ^ 31`, and
bails before it gets to others. -/
theorem Visit.reaches {byt : List UInt8} (hsize : (ofBits (unpack byt)).size ≤ 2 ^ 32 - 32)
    {s : List Frame} {bsr : Bsr} {dict : ℕ → Option Noun} (hvisit : Visit byt s bsr dict) :
    At (unpack byt) bsr ∧ (Reaches (ofBits (unpack byt)) s bsr dict ∨
      2 ^ 31 ≤ bsr.bits ∧ ∀ fuel, u3sCue fuel (ofBits (unpack byt)) = none) := by
  induction hvisit with
  | start => exact ⟨rfl, .inl ⟨rfl, [], 0, rfl, fun fuel ↦ rfl⟩⟩
  | @cell s bsr red dict _ htag ih =>
    obtain ⟨hat, hreach⟩ := ih
    obtain ⟨_, _, rfl⟩ := bsrTag_spec htag
    refine ⟨hat.skip 2, ?_⟩
    rcases hreach with ⟨hzero, pil_u, steps, haligned, hrun⟩ | ⟨hhigh, hnone⟩
    · refine .inl ⟨hzero, ⟨none, 0, bsr.bits⟩ :: pil_u, steps, ⟨rfl, rfl, haligned⟩, fun fuel ↦ ?_⟩
      rw [hrun, csCueOn, csCueNext_cell hsize hat pil_u dict htag, csCueOn]
    · exact .inr ⟨by simp only [Bsr.skip]; omega, hnone⟩
  | @next s s' bsr red dict dict₁ dict' ref _ hleaf hnext ih =>
    obtain ⟨hat, hreach⟩ := ih
    obtain ⟨len, rfl⟩ := hleaf.skip
    refine ⟨hat.skip len, ?_⟩
    rcases hreach with hreach | ⟨hhigh, hnone⟩
    · exact hleaf.reaches hsize hat hreach hnext
    · exact .inr ⟨hhigh.trans (Nat.le_add_right _ len), hnone⟩

/-! ### Agreement -/

/-- A noun that one of the decoders returns for a byte string. -/
def Cues (past : Past) (byt : List UInt8) (n : Noun) : Prop :=
  (∃ fuel, u3sCue fuel (ofBits (unpack byt)) = some n) ∨ cueBytes past byt = some n ∨
    cueXeno past byt = some n ∨ cue past byt = .ok n

/-- The atom or back-reference that is read last. -/
theorem Finish.last_visit {bsr : Bsr} (hvisit : Visit byt s bsr dict)
    (hfinish : Finish s bsr dict n) :
    ∃ s bsr dict ref red dict₁, Visit byt s bsr dict ∧ Leaf bsr dict ref red dict₁ ∧
      unwind ref s dict₁ = .inl n := by
  induction hfinish with
  | cell htag _ ih => exact ih (hvisit.cell htag)
  | last hleaf hlast => exact ⟨_, _, _, _, _, _, hvisit, hleaf, hlast⟩
  | next hleaf hnext _ ih => exact ih (hvisit.next hleaf hnext)

/-- The decoders of bit streams that return have read to the end. -/
theorem finish_of_stream (hinside : BodiesInside byt) (hlong : byt.length ≤ 0x7ffffffffffffff)
    (hcue : cueBytes past byt = some n ∨ cueXeno past byt = some n ∨ cue past byt = .ok n) :
    Finish [] (bsrInit byt) (fun _ ↦ none) n := by
  have hread : ∃ direct refuse bsr', direct ≤ 64 ∧
      cueOn (mapReader direct refuse past) [] (bsrInit byt) (fun _ ↦ none) = .ok (n, bsr') := by
    unfold cueBytes cueXeno cue cueRead at hcue
    simp only [if_neg (show ¬ 0x7ffffffffffffff < byt.length by omega)] at hcue
    rcases hcue with hbytes | hxeno | hur
    · split at hbytes
      next ref bsr' hok => exact ⟨_, _, bsr', (by decide : 31 ≤ 64), Option.some.inj hbytes ▸ hok⟩
      next => simp at hbytes
    · split at hxeno
      next ref bsr' hok => exact ⟨_, _, bsr', (by decide : 31 ≤ 64), Option.some.inj hxeno ▸ hok⟩
      next => simp at hxeno
    · cases hok : cueOn (urReader past) [] (bsrInit byt) (fun _ ↦ none) with
      | error res => simp [hok, Except.map] at hur
      | ok res =>
        simp only [hok, Except.map, Except.ok.injEq] at hur
        exact ⟨_, _, res.2, (by decide : 62 ≤ 64), by rw [hok, ← hur]⟩
  obtain ⟨direct, refuse, bsr', hdirect, hok⟩ := hread
  exact finish_of_cueOn hdirect hinside .start hok

/-- Two runs of `u3s_cue()` return the same noun. -/
theorem u3sCue_unique {fuel' : ℕ} {n' : Noun} (hn : u3sCue fuel a = some n)
    (hn' : u3sCue fuel' a = some n') : n = n' := by
  have hmore := u3sCue_mono hn fuel'
  rw [Nat.add_comm, u3sCue_mono hn' fuel] at hmore
  exact (Option.some.inj hmore).symm

/-- When the last atom is whole, `u3s_cue()` returns what reading to the end gives. -/
theorem u3sCue_of_finish (hwhole : LastWhole byt) {n' : Noun}
    (hfinish : Finish [] (bsrInit byt) (fun _ ↦ none) n)
    (hcue : u3sCue fuel (ofBits (unpack byt)) = some n') : n' = n := by
  have hsize : (ofBits (unpack byt)).size ≤ 2 ^ 32 - 32 := by
    by_contra hlarge
    rw [u3sCue, csCueOn_of_none (csCueNext_of_large _ _ _ (by omega))] at hcue
    simp at hcue
  obtain ⟨s, bsr, dict, ref, red, dict₁, hvisit, hleaf, hlast⟩ := hfinish.last_visit .start
  obtain ⟨hat, ⟨hzero, pil_u, steps, haligned, hrun⟩ | ⟨_, hnone⟩⟩ := hvisit.reaches hsize
  · -- the last noun is not read at all, or read as in the bit stream
    have hread : csCueNext (ofBits (unpack byt)) pil_u dict bsr.bits = none ∨
        ∃ wid, csCueNext (ofBits (unpack byt)) pil_u dict bsr.bits =
          some (ref, wid, pil_u, dict₁) := by
      cases hleaf with
      | back htag hrub hlen hdict =>
        rcases csCueNext_back hsize hat pil_u dict htag hrub hlen hdict hzero with
          ⟨_, hnone⟩ | ⟨wid, hread, _⟩
        · exact .inl hnone
        · exact .inr ⟨wid, hread⟩
      | @atom red body len htag hrub =>
        rcases csCueNext_atom hsize hat pil_u dict htag hrub with
          ⟨_, hnone⟩ | ⟨hbelow, wid, hread, _⟩
        · exact .inl hnone
        · have hdone : ∀ frame ∈ s, frame.ref ≠ none :=
            (unwind_isLeft_iff _ s _).mp (congrArg Sum.isLeft hlast)
          have hcut : cutBody body len = ofBits (body.rest.take len) := by
            rcases hwhole s bsr dict red len body hvisit hdone htag hrub with
              hval | hwhole | hhigh | hlarge
            · rw [cutBody, hval, Nat.zero_mod, ite_self]
            · exact cutBody_of_whole hwhole
            · exact absurd hhigh (by rw [zerosOf] at hbelow; omega)
            · omega
          rw [hcut] at hread
          exact .inr ⟨wid, hread⟩
    rcases hread with hnone | ⟨wid, hread⟩
    · rw [u3sCue_eq_none steps fun fuel ↦ (hrun fuel).trans (csCueOn_of_none hnone)] at hcue
      simp at hcue
    · obtain ⟨steps', hend⟩ := csCueOn_last haligned hread hlast
      exact u3sCue_unique hcue ((hrun (0 + steps')).trans (hend 0))
  · rw [hnone] at hcue
    simp at hcue

/-- `ur_cue()` reads an atom or a back-reference of an input whose atoms are inside it. -/
theorem cueOn_of_leaf (past : Past) (hinside : BodiesInside byt) {bsr red : Bsr}
    (hvisit : Visit byt s bsr dict) (hleaf : Leaf bsr dict ref red dict₁) :
    cueOn (urReader past) s bsr dict = cueWalk (urReader past) ref s red dict₁ := by
  cases hleaf with
  | @atom red body len htag hrub =>
    have hatom : (urReader past).atom body len =
        .ok (ofBits (body.rest.take len), body.skip len) := by
      unfold Reader.atom
      split_ifs with hdirect hrefuse
      · rw [bsr64Any, Nat.min_eq_right (hdirect.trans (by decide : 62 ≤ 64))]
      · exact absurd hrefuse (by simp [mapReader])
      · rw [bsrBytesAny, if_pos (hinside s bsr dict red len body hvisit htag hrub)]
    rw [cueOn, cueNext_of_atom _ s dict htag, hrub]
    simp only [hatom, mapReader_put]
  | @back red body len ref htag hrub hlen hdict =>
    have hany : bsr64Any body len = (ofBits (body.rest.take len), body.skip len) := by
      rw [bsr64Any, Nat.min_eq_right (by omega)]
    rw [cueOn, cueNext_of_back _ s dict htag, hrub]
    simp only [if_neg (show ¬ 62 < len by omega), hany, mapReader_get, hdict]

/-- `ur_cue()` gets to every state. -/
theorem Visit.cueOn_eq (past : Past) (hinside : BodiesInside byt) {bsr : Bsr}
    (hvisit : Visit byt s bsr dict) :
    cueOn (urReader past) [] (bsrInit byt) (fun _ ↦ none) = cueOn (urReader past) s bsr dict := by
  induction hvisit with
  | start => rfl
  | cell _ htag ih => rw [ih, cueOn, cueNext_of_cell _ _ _ htag, cueOn]
  | next hvisit hleaf hnext ih =>
    rw [ih, cueOn_of_leaf past hinside hvisit hleaf, cueWalk_eq_unwind, hnext]

/-- When the last atom is not whole, `ur_cue()` and `u3s_cue()` return different nouns. -/
theorem cues_of_not_lastWhole (past : Past) (hinside : BodiesInside byt)
    (hlong : byt.length ≤ 0x7ffffffffffffff) (hwhole : ¬ LastWhole byt) :
    ∃ n m, Cues past byt n ∧ Cues past byt m ∧ n ≠ m := by
  simp only [LastWhole, not_forall, not_or, not_le, not_lt] at hwhole
  obtain ⟨s, bsr, dict, red, len, body, hvisit, hdone, htag, hrub, hval, hcut, hbelow, hsize⟩ :=
    hwhole
  have hdiffer : cutBody body len ≠ ofBits (body.rest.take len) := by
    intro heq
    by_cases hlow : body.bits < 2 ^ 31
    · refine hcut ⟨hlow, ?_⟩
      rw [← heq, cutBody, if_pos hlow]
      exact Nat.mod_lt _ (Nat.two_pow_pos _)
    · exact hval (heq.symm.trans (cutBody_of_ge len (by omega)))
  have hcomplete : ∀ ref dict₁, ∃ n, unwind ref s dict₁ = .inl n := fun ref dict₁ ↦
    Sum.isLeft_iff.mp ((unwind_isLeft_iff ref s dict₁).mpr hdone)
  -- the bit stream
  obtain ⟨n, hn⟩ := hcomplete (.atom (ofBits (body.rest.take len)))
    (Function.update dict bsr.bits (some (.atom (ofBits (body.rest.take len)))))
  have hur : cue past byt = .ok n := by
    rw [cue, cueRead, if_neg (by omega), hvisit.cueOn_eq past hinside,
      cueOn_of_leaf past hinside hvisit (.atom htag hrub), cueWalk_eq_unwind, hn]
    rfl
  -- the atom
  obtain ⟨m, hm⟩ := hcomplete (.atom (cutBody body len))
    (Function.update dict bsr.bits (some (.atom (cutBody body len))))
  obtain ⟨hat, ⟨_, pil_u, steps, haligned, hrun⟩ | ⟨hhigh, _⟩⟩ := hvisit.reaches hsize
  · rcases csCueNext_atom hsize hat pil_u dict htag hrub with ⟨hhigh, _⟩ | ⟨_, wid, hread, _⟩
    · rw [zerosOf] at hhigh
      omega
    · obtain ⟨steps', hend⟩ := csCueOn_last haligned hread hm
      refine ⟨n, m, .inr (.inr (.inr hur)), .inl ⟨0 + steps' + steps, ?_⟩, ?_⟩
      · rw [hrun, hend]
      · rintro rfl
        exact hdiffer (Noun.atom.inj (unwind_injective hm hn))
  · obtain ⟨_, rfl⟩ := bsrTag_spec htag
    simp only [Bsr.skip] at hbelow
    omega

/-- The decoders that return a noun for an input whose atoms are inside it return the same noun
exactly when the atom that is read last is whole. -/
theorem cue_decoders_agree (past : Past) (byt : List UInt8) (hinside : BodiesInside byt)
    (hlong : byt.length ≤ 0x7ffffffffffffff) :
    (∀ n m, Cues past byt n → Cues past byt m → n = m) ↔ LastWhole byt := by
  constructor
  · intro hagree
    by_contra hwhole
    obtain ⟨n, m, hn, hm, hne⟩ := cues_of_not_lastWhole past hinside hlong hwhole
    exact hne (hagree n m hn hm)
  · intro hwhole n m hn hm
    rcases hn with ⟨fuel, hn⟩ | hn
    · rcases hm with ⟨fuel', hm⟩ | hm
      · exact u3sCue_unique hn hm
      · exact u3sCue_of_finish hwhole (finish_of_stream hinside hlong hm) hn
    · have hfinish := finish_of_stream hinside hlong hn
      rcases hm with ⟨fuel, hm⟩ | hm
      · exact (u3sCue_of_finish hwhole hfinish hm).symm
      · exact hfinish.unique (finish_of_stream hinside hlong hm)

/-- A cell of zero and a back-reference to it, which is longer than zero itself. -/
theorem cue_decoders_agree_back : BodiesInside [57, 9] ∧ ∀ past n m,
    Cues past [57, 9] n → Cues past [57, 9] m → n = m := by
  have hbits : unpack [57, 9] = [true, false, false, true, true, true, false, false,
    true, false, false, true, false, false, false, false] := by decide
  -- the cell, its head, and its tail
  have hvisits : ∀ s bsr dict, Visit [57, 9] s bsr dict →
      s = [] ∧ bsr = ⟨0, unpack [57, 9]⟩ ∨
        s = [⟨none, 0⟩] ∧ bsr = ⟨2, (unpack [57, 9]).drop 2⟩ ∨
        ∃ hed, s = [⟨some hed, 0⟩] ∧ bsr = ⟨4, (unpack [57, 9]).drop 4⟩ := by
    intro s bsr dict hvisit
    rw [hbits]
    induction hvisit with
    | start => exact .inl ⟨rfl, congrArg (Bsr.mk 0) hbits⟩
    | cell _ htag ih =>
      rcases ih with ⟨rfl, rfl⟩ | ⟨rfl, rfl⟩ | ⟨hed, rfl, rfl⟩
      · obtain ⟨_, rfl⟩ := Prod.mk.inj (Except.ok.inj htag)
        exact .inr (.inl ⟨rfl, rfl⟩)
      · simp [bsrTag] at htag
      · simp [bsrTag] at htag
    | next _ hleaf hnext ih =>
      rcases ih with ⟨rfl, rfl⟩ | ⟨rfl, rfl⟩ | ⟨hed, rfl, rfl⟩
      · simp [unwind] at hnext
      · obtain ⟨rfl, rfl⟩ := Prod.mk.inj (Sum.inr.inj hnext)
        cases hleaf with
        | atom htag hrub =>
          obtain ⟨_, rfl⟩ := Prod.mk.inj (Except.ok.inj htag)
          obtain ⟨rfl, rfl⟩ := Prod.mk.inj (Except.ok.inj hrub)
          exact .inr (.inr ⟨_, rfl, rfl⟩)
        | back htag _ _ _ => simp [bsrTag] at htag
      · simp [unwind] at hnext
  have hinside : BodiesInside [57, 9] := by
    intro s bsr dict red len body hvisit htag hrub
    rw [hbits] at hvisits
    rcases hvisits s bsr dict hvisit with ⟨rfl, rfl⟩ | ⟨rfl, rfl⟩ | ⟨hed, rfl, rfl⟩
    · simp [bsrTag] at htag
    · obtain ⟨_, rfl⟩ := Prod.mk.inj (Except.ok.inj htag)
      obtain ⟨rfl, rfl⟩ := Prod.mk.inj (Except.ok.inj hrub)
      exact Nat.zero_le _
    · simp [bsrTag] at htag
  have hwhole : LastWhole [57, 9] := by
    intro s bsr dict red len body hvisit hdone htag hrub
    rw [hbits] at hvisits
    rcases hvisits s bsr dict hvisit with ⟨rfl, rfl⟩ | ⟨rfl, rfl⟩ | ⟨hed, rfl, rfl⟩
    · simp [bsrTag] at htag
    · simp at hdone
    · simp [bsrTag] at htag
  exact ⟨hinside, fun past ↦ (cue_decoders_agree past [57, 9] hinside (by decide)).mpr hwhole⟩

/-- An atom of `8 * k` bits, announced as one of `2 ^ 31` bits, of which only the last is set. -/
def longAtom (k : ℕ) : List UInt8 := [0, 0, 0, 0, 2, 0, 0, 0] ++ (List.replicate k 0 ++ [1])

/-- The length of `2 ^ 31` is read. -/
theorem bsrRubLen_longAtom (bits : ℕ) (rest : List Bool) :
    bsrRubLen ⟨bits, List.replicate 32 false ++ true :: (List.replicate 31 false ++ rest)⟩ =
      .ok (2 ^ 31, ⟨bits + 64, rest⟩) := by
  have hlog := bsrLog_zeros (show 32 ≤ 255 by decide) bits (List.replicate 31 false ++ rest)
  have hany : bsr64Any ⟨bits + (32 + 1), List.replicate 31 false ++ rest⟩ 31 =
      (0, ⟨bits + 64, rest⟩) := by
    rw [bsr64Any, show min 64 31 = 31 by decide, List.take_left' List.length_replicate,
      ofBits_replicate_false, Bsr.skip, List.drop_left' List.length_replicate]
  rw [bsrRubLen, hlog]
  simp only [if_neg (show ¬ 64 ≤ 32 by decide), hany]
  rfl

theorem ofBits_longAtom {len k : ℕ} (hlen : len = k + 1) (rest : List Bool) :
    ofBits ((List.replicate k false ++ true :: rest).take len) = 2 ^ k := by
  have htake : (List.replicate k false ++ true :: rest).take len =
      List.replicate k false ++ [true] := by
    rw [hlen, List.append_cons, List.take_left']
    simp
  rw [htake, ofBits_append, ofBits_replicate_false, List.length_replicate]
  simp [ofBits]

theorem unpack_longAtom (k : ℕ) : unpack (longAtom (k + 1)) =
    false :: (List.replicate 32 false ++ true :: (List.replicate 31 false ++
      (List.replicate (8 * k + 7) false ++ true :: List.replicate 7 false))) := by
  have hzeros := unpack_replicate_zero (k + 1)
  rw [unpack] at hzeros
  rw [longAtom, unpack, List.flatMap_append, List.flatMap_append, hzeros,
    show 8 * (k + 1) = 1 + (8 * k + 7) by ring, List.replicate_add]
  rfl

/-- `ur_cue()` returns the atom `2 ^ (2 ^ 31 - 1)` and `u3s_cue()` returns `0`. -/
theorem cue_decoders_differ : BodiesInside (longAtom (2 ^ 28)) ∧ ∀ past, ∃ n m,
    Cues past (longAtom (2 ^ 28)) n ∧ Cues past (longAtom (2 ^ 28)) m ∧ n ≠ m := by
  obtain ⟨k, hk⟩ : ∃ k, 2 ^ 28 = k + 1 := ⟨2 ^ 28 - 1, by decide⟩
  rw [hk]
  have hbits := unpack_longAtom k
  have hlength : (longAtom (k + 1)).length = k + 10 := by
    simp [longAtom]
  generalize longAtom (k + 1) = byt at hbits hlength ⊢
  have htag : bsrTag (bsrInit byt) = .ok (.atom, (bsrInit byt).skip 1) := by
    rw [bsrInit, hbits]
    rfl
  have hrub : bsrRubLen ((bsrInit byt).skip 1) =
      .ok (2 ^ 31, ⟨65, List.replicate (8 * k + 7) false ++ true :: List.replicate 7 false⟩) := by
    rw [bsrInit, hbits]
    exact bsrRubLen_longAtom 1 _
  -- only the atom is read
  have hvisits : ∀ s bsr dict, Visit byt s bsr dict → s = [] ∧ bsr = bsrInit byt := by
    intro s bsr dict hvisit
    induction hvisit with
    | start => exact ⟨rfl, rfl⟩
    | cell _ htag' ih =>
      rw [ih.2, htag] at htag'
      simp at htag'
    | next _ _ hnext ih =>
      rw [ih.1, unwind] at hnext
      simp at hnext
  have hinside : BodiesInside byt := by
    intro s bsr dict red len body hvisit htag' hrub'
    obtain ⟨rfl, rfl⟩ := hvisits s bsr dict hvisit
    obtain ⟨_, rfl⟩ := Prod.mk.inj (Except.ok.inj (htag.symm.trans htag'))
    obtain ⟨rfl, rfl⟩ := Prod.mk.inj (Except.ok.inj (hrub.symm.trans hrub'))
    simp only [List.length_append, List.length_replicate, List.length_cons]
    omega
  have hsize : (ofBits (unpack byt)).size ≤ 2 ^ 32 - 32 := by
    have hlt := Nat.size_le.mpr (ofBits_lt (unpack byt))
    rw [length_unpack, hlength] at hlt
    omega
  have hwhole : ¬ LastWhole byt := by
    intro hwhole
    have hlast : 2 ^ 31 - 1 = 8 * k + 7 := by omega
    have hval := ofBits_longAtom (show 2 ^ 31 = 8 * k + 7 + 1 by omega) (List.replicate 7 false)
    rcases hwhole [] _ _ _ _ _ .start (by simp) htag hrub with hzero | ⟨_, hshort⟩ | hhigh | hlarge
    · rw [hval] at hzero
      exact absurd hzero (Nat.two_pow_pos _).ne'
    · rw [hval, hlast] at hshort
      exact Nat.lt_irrefl _ hshort
    · simp only [Bsr.skip, bsrInit] at hhigh
      omega
    · omega
  exact ⟨hinside, fun past ↦ cues_of_not_lastWhole past hinside (by omega) hwhole⟩

end Vere.Noun.Serial
