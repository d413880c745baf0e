import Vere.Ur.Serial

/-!
# The jam encoders

`pkg/noun/serial.c` has two more encoders of its own: `u3s_jam_fib`, which writes into a slab on the
loom with 32-bit counters, and `u3s_jam_xeno`, which writes with the bit stream of `ur` but keeps
its cursors in a hash table on the loom. `jam_encoders_agree` compares them with `ur_jam`, which
does not end if a bucket of its dictionary stays full.
-/

set_option autoImplicit false

namespace Vere.Noun.Serial

open Lib.Bits Ur

section Walk

variable {σ : Type*} (pat : ℕ → σ → Option σ) (cel : Noun → σ → Option (σ × Bool))

/-- `u3a_walk_fore()`, where a callback may bail. -/
def walkFore (top : List Noun) (ptr : σ) : Option σ :=
  match top with
  | [] => some ptr
  | .atom a :: top => do
    let ptr ← pat a ptr
    walkFore top ptr
  | .cell h t :: top => do
    match ← cel (.cell h t) ptr with
    | (ptr, true) => walkFore (h :: t :: top) ptr
    | (ptr, false) => walkFore top ptr
termination_by (top.map Noun.size).sum
decreasing_by
  all_goals simp only [List.map_cons, List.sum_cons, Noun.size]; omega

/-- The traversal of one noun. -/
def visitM : Noun → σ → Option σ
  | .atom a, ptr => pat a ptr
  | .cell h t, ptr => do
    match ← cel (.cell h t) ptr with
    | (ptr, true) =>
      let ptr ← visitM h ptr
      visitM t ptr
    | (ptr, false) => some ptr

/-- The stack holds the nouns that are still to be traversed. -/
theorem walkFore_eq_foldlM (top : List Noun) (ptr : σ) :
    walkFore pat cel top ptr = top.foldlM (fun ptr n ↦ visitM pat cel n ptr) ptr := by
  fun_induction walkFore pat cel top ptr with
  | case1 ptr => rfl
  | case2 ptr a top ih =>
    rw [List.foldlM_cons]
    exact bind_congr fun ptr' ↦ ih ptr'
  | case3 ptr h t top ih_cell ih_skip =>
    rw [List.foldlM_cons, visitM, bind_assoc]
    refine bind_congr fun (ptr', go) ↦ ?_
    cases go with
    | true => simpa [Option.bind_assoc] using ih_cell ptr'
    | false => simpa using ih_skip ptr'

end Walk

/-! ### On the loom -/

/-- `_cs_jam_fib`: the cursors of the nouns written, the number of bits and the bits. -/
structure JamFib where
  har : Noun → Option ℕ
  bit_w : ℕ
  buf_w : List Bool

/-- `_cs_jam_fib_grow()`: the check for overflow of the number of bits. -/
def csJamFibGrow (fib_u : JamFib) (mor_w : ℕ) : Option Unit :=
  let wan_w := (fib_u.bit_w + mor_w) % 2 ^ 32
  if wan_w < mor_w then none else some ()

/-- `_cs_jam_fib_chop()`. -/
def csJamFibChop (fib_u : JamFib) (met_w a : ℕ) : Option JamFib := do
  csJamFibGrow fib_u met_w
  pure { fib_u with
    bit_w := (fib_u.bit_w + met_w) % 2 ^ 32, buf_w := fib_u.buf_w ++ bitsOf met_w a }

/-- `_cs_jam_fib_mat()`. -/
def csJamFibMat (fib_u : JamFib) (a : ℕ) : Option JamFib :=
  if a = 0 then csJamFibChop fib_u 1 1
  else do
    let a_w := a.size
    let b_w := a_w.size
    let fib_u ← csJamFibChop fib_u (b_w + 1) (1 <<< b_w)
    let fib_u ← csJamFibChop fib_u (b_w - 1) (a_w &&& (1 <<< (b_w - 1) - 1))
    csJamFibChop fib_u a_w a

/-- `_cs_jam_fib_atom_cb()`. -/
def csJamFibAtomCb (a : ℕ) (fib_u : JamFib) : Option JamFib :=
  match fib_u.har (.atom a) with
  | none => do
    let fib_u := { fib_u with har := Function.update fib_u.har (.atom a) (some fib_u.bit_w) }
    let fib_u ← csJamFibChop fib_u 1 0
    csJamFibMat fib_u a
  | some b =>
    let a_w := a.size
    let b_w := b.size
    if a_w ≤ b_w then do
      let fib_u ← csJamFibChop fib_u 1 0
      csJamFibMat fib_u a
    else do
      let fib_u ← csJamFibChop fib_u 2 3
      csJamFibMat fib_u b

/-- `_cs_jam_fib_cell_cb()`. -/
def csJamFibCellCb (a : Noun) (fib_u : JamFib) : Option (JamFib × Bool) :=
  match fib_u.har a with
  | none => do
    let fib_u := { fib_u with har := Function.update fib_u.har a (some fib_u.bit_w) }
    let fib_u ← csJamFibChop fib_u 2 1
    pure (fib_u, true)
  | some b => do
    let fib_u ← csJamFibChop fib_u 2 3
    let fib_u ← csJamFibMat fib_u b
    pure (fib_u, false)

/-- `u3s_jam_fib()`: the number of bits and the bits. -/
def jamFib (a : Noun) : Option (ℕ × List Bool) := do
  let fib_u ← walkFore csJamFibAtomCb csJamFibCellCb [a] ⟨fun _ ↦ none, 0, []⟩
  pure (fib_u.bit_w, fib_u.buf_w)

/-! ### Off the loom -/

/-- `_jam_xeno_t`: the cursors of the nouns written, and the writer. -/
structure JamXeno where
  har : Noun → Option ℕ
  rit_u : Bsw

/-- `_cs_jam_bsw_atom()`: an atom of at most 31 bits is direct. -/
def csJamBswAtom (rit_u : Bsw) (met_w a : ℕ) : Bsw :=
  if a < 2 ^ 31 then bswAtom64 rit_u met_w a else bswAtomBytes rit_u met_w a

/-- `_cs_jam_bsw_back()`. -/
def csJamBswBack (rit_u : Bsw) (met_w a : ℕ) : Bsw :=
  let bak_d := if a < 2 ^ 31 then a else a % 2 ^ 64
  bswBack64 rit_u met_w bak_d

/-- `_cs_jam_xeno_atom()`. -/
def csJamXenoAtom (a : ℕ) (jam_u : JamXeno) : Option JamXeno :=
  let met_w := a.size
  match jam_u.har (.atom a) with
  | none => some ⟨Function.update jam_u.har (.atom a) (some jam_u.rit_u.bits),
      csJamBswAtom jam_u.rit_u met_w a⟩
  | some bak =>
    let bak_w := bak.size
    if met_w ≤ bak_w then some { jam_u with rit_u := csJamBswAtom jam_u.rit_u met_w a }
    else some { jam_u with rit_u := csJamBswBack jam_u.rit_u bak_w bak }

/-- `_cs_jam_xeno_cell()`. -/
def csJamXenoCell (a : Noun) (jam_u : JamXeno) : Option (JamXeno × Bool) :=
  match jam_u.har a with
  | none => some (⟨Function.update jam_u.har a (some jam_u.rit_u.bits), bswCell jam_u.rit_u⟩, true)
  | some bak => some ({ jam_u with rit_u := csJamBswBack jam_u.rit_u bak.size bak }, false)

/-- `u3s_jam_xeno()`: the number of bits and the bytes. -/
def jamXeno (a : Noun) : Option (ℕ × List UInt8) := do
  let jam_u ← walkFore csJamXenoAtom csJamXenoCell [a] ⟨fun _ ↦ none, bswInit⟩
  pure (bswDone jam_u.rit_u)

/-! ### The encoders agree -/

/-- Every atom of a noun has fewer bits than a bound. -/
def AtomsBelow (bound : ℕ) : Noun → Prop
  | .atom a => a.size < bound
  | .cell h t => AtomsBelow bound h ∧ AtomsBelow bound t

theorem csJamBswAtom_size (rit_u : Bsw) (a : ℕ) :
    csJamBswAtom rit_u a.size a = bswAtom rit_u a a.size := by
  have hbytes : bswAtomBytes rit_u a.size a = rit_u.write (false :: mat a) := by
    rw [bswAtomBytes, bswMat_size, bswBit, Bsw.write_write]
    rfl
  rw [csJamBswAtom, bswAtom_size, hbytes]
  split_ifs with hcat
  · have hlt : a < 2 ^ 62 := by omega
    rw [← bswAtom_size, bswAtom, if_pos hlt]
  · rfl

theorem bitsOf_mod (len val exp : ℕ) (hle : len ≤ exp) :
    bitsOf len (val % 2 ^ exp) = bitsOf len val := by
  refine List.map_congr_left fun i hi ↦ ?_
  have hlt : i < exp := Nat.lt_of_lt_of_le (List.mem_range.mp hi) hle
  rw [Nat.testBit_mod_two_pow, decide_eq_true hlt, Bool.true_and]

theorem bswMat_mod (bsw : Bsw) {len : ℕ} (hle : len ≤ 64) (val : ℕ) :
    bswMat bsw len (val % 2 ^ 64) = bswMat bsw len val := by
  unfold bswMat bswBits
  rw [bitsOf_mod len val 64 hle]

theorem csJamBswBack_eq (rit_u : Bsw) (met_w a : ℕ) :
    csJamBswBack rit_u met_w a = bswBack64 rit_u met_w a := by
  unfold csJamBswBack bswBack64
  dsimp only
  split_ifs
  · rfl
  · exact bswMat_mod _ (Nat.min_le_left _ _) _

/-- The state of the encoder of `ur` that the off-loom encoder is in. -/
def JamXeno.toUr (jam_u : JamXeno) : Jam := ⟨jam_u.har, jam_u.rit_u⟩

theorem csJamXenoAtom_toUr (a : ℕ) (jam_u : JamXeno) :
    (csJamXenoAtom a jam_u).map JamXeno.toUr = some (jamAtom a jam_u.toUr) := by
  unfold csJamXenoAtom jamAtom
  simp only [csJamBswAtom_size, csJamBswBack_eq, JamXeno.toUr]
  cases jam_u.har (.atom a) with
  | none => rfl
  | some bak =>
    dsimp only
    split_ifs <;> rfl

theorem csJamXenoCell_toUr (a : Noun) (jam_u : JamXeno) :
    (csJamXenoCell a jam_u).map (Prod.map JamXeno.toUr id) = some (jamCell a jam_u.toUr) := by
  unfold csJamXenoCell jamCell
  simp only [csJamBswBack_eq, JamXeno.toUr]
  cases jam_u.har a <;> rfl

theorem visitM_toUr (n : Noun) (jam_u : JamXeno) :
    (visitM csJamXenoAtom csJamXenoCell n jam_u).map JamXeno.toUr =
      some (visit jamAtom jamCell n jam_u.toUr) := by
  induction n generalizing jam_u with
  | atom a => exact csJamXenoAtom_toUr a jam_u
  | cell h t ih_h ih_t =>
    obtain ⟨⟨next, go⟩, hcell, hmap⟩ :=
      Option.map_eq_some_iff.mp (csJamXenoCell_toUr (.cell h t) jam_u)
    rw [visitM, visit, hcell, ← hmap]
    cases go with
    | false => rfl
    | true =>
      obtain ⟨next_h, hvisit, hur⟩ := Option.map_eq_some_iff.mp (ih_h next)
      simp only [Prod.map, id, ← hur, Option.bind_eq_bind, Option.bind_some, hvisit]
      exact ih_t next_h

/-- The off-loom encoder is that of `ur`. -/
theorem jamXeno_eq (n : Noun) : jamXeno n = some (jam n) := by
  obtain ⟨jam_u, hvisit, hur⟩ := Option.map_eq_some_iff.mp
    (visitM_toUr n ⟨fun _ ↦ none, bswInit⟩)
  have hbsw : jam_u.rit_u = jamBsw n := by
    rw [jamBsw_eq]
    exact congrArg Jam.bsw hur
  have hwalk : walkFore csJamXenoAtom csJamXenoCell [n] ⟨fun _ ↦ none, bswInit⟩ = some jam_u := by
    rw [walkFore_eq_foldlM, List.foldlM_cons, hvisit]
    rfl
  rw [jamXeno, hwalk, jam, ← hbsw]
  rfl

/-- Appending bits to the slab, or the bail when they are too many. -/
def JamFib.write (fib_u : JamFib) (more : List Bool) : Option JamFib :=
  if fib_u.bit_w + more.length < 2 ^ 32 then
    some ⟨fib_u.har, fib_u.bit_w + more.length, fib_u.buf_w ++ more⟩
  else none

variable {fib_u : JamFib}

theorem csJamFibChop_eq (hlt : fib_u.bit_w < 2 ^ 32) {met_w : ℕ} (hmet : met_w < 2 ^ 32) (a : ℕ) :
    csJamFibChop fib_u met_w a = fib_u.write (bitsOf met_w a) := by
  unfold csJamFibChop csJamFibGrow JamFib.write
  rw [length_bitsOf]
  by_cases hfit : fib_u.bit_w + met_w < 2 ^ 32
  · have hmod : (fib_u.bit_w + met_w) % 2 ^ 32 = fib_u.bit_w + met_w := Nat.mod_eq_of_lt hfit
    simp only [hmod, if_pos hfit, if_neg (show ¬ fib_u.bit_w + met_w < met_w by omega)]
    rfl
  · have hwrap : (fib_u.bit_w + met_w) % 2 ^ 32 < met_w := by omega
    simp only [if_neg hfit, if_pos hwrap]
    rfl

theorem JamFib.write_bind (fib_u : JamFib) (more last : List Bool) :
    (fib_u.write more).bind (fun fib_u ↦ fib_u.write last) = fib_u.write (more ++ last) := by
  unfold JamFib.write
  rw [List.length_append]
  by_cases hfit : fib_u.bit_w + more.length < 2 ^ 32
  · simp only [if_pos hfit, Option.bind_some, Nat.add_assoc, List.append_assoc]
  · have hno : ¬ fib_u.bit_w + (more.length + last.length) < 2 ^ 32 := by omega
    simp only [if_neg hfit, if_neg hno, Option.bind_none]

theorem JamFib.lt_of_write {fib_u' : JamFib} {more : List Bool}
    (hwrite : fib_u.write more = some fib_u') : fib_u'.bit_w < 2 ^ 32 := by
  unfold JamFib.write at hwrite
  split_ifs at hwrite with hfit
  rw [← Option.some.inj hwrite]
  exact hfit

/-- Chopping and going on. -/
theorem csJamFibChop_bind (hlt : fib_u.bit_w < 2 ^ 32) {met_w : ℕ} (hmet : met_w < 2 ^ 32) (a : ℕ)
    {next : JamFib → Option JamFib} {last : List Bool}
    (hnext : ∀ fib_u : JamFib, fib_u.bit_w < 2 ^ 32 → next fib_u = fib_u.write last) :
    (csJamFibChop fib_u met_w a).bind next = fib_u.write (bitsOf met_w a ++ last) := by
  rw [csJamFibChop_eq hlt hmet, ← JamFib.write_bind]
  cases hwrite : fib_u.write (bitsOf met_w a) with
  | none => rfl
  | some fib_u' => exact hnext fib_u' (JamFib.lt_of_write hwrite)

theorem bitsOf_two_pow (len : ℕ) :
    bitsOf (len + 1) (1 <<< len) = List.replicate len false ++ [true] := by
  rw [Nat.one_shiftLeft]
  refine List.ext_getElem (by simp) fun i hi hi' ↦ ?_
  simp only [bitsOf, List.getElem_map, List.getElem_range, Nat.testBit_two_pow]
  by_cases hlt : i < len
  · rw [List.getElem_append_left (by simpa using hlt), List.getElem_replicate]
    simpa using Nat.ne_of_gt hlt
  · have heq : i = len := by
      simp only [length_bitsOf] at hi
      omega
    subst heq
    simp

/-- The length-prefixed number is the one that `ur` writes. -/
theorem csJamFibMat_eq (hlt : fib_u.bit_w < 2 ^ 32) {a : ℕ} (ha : a.size < 2 ^ 30) :
    csJamFibMat fib_u a = fib_u.write (mat a) := by
  unfold csJamFibMat mat
  by_cases hzero : a = 0
  · rw [if_pos hzero, if_pos hzero, csJamFibChop_eq hlt (by decide)]
    rfl
  · have hnel : a.size.size ≤ 30 := Nat.size_le.mpr ha
    rw [if_neg hzero, if_neg hzero]
    have hmask : a.size &&& (1 <<< (a.size.size - 1) - 1) = a.size % 2 ^ (a.size.size - 1) := by
      rw [Nat.one_shiftLeft, Nat.and_two_pow_sub_one_eq_mod]
    have hlast := csJamFibChop_bind hlt (show a.size.size + 1 < 2 ^ 32 by omega)
      (1 <<< a.size.size) fun fib_u hlt ↦
        csJamFibChop_bind hlt (show a.size.size - 1 < 2 ^ 32 by omega)
          (a.size &&& (1 <<< (a.size.size - 1) - 1)) fun fib_u hlt ↦
            csJamFibChop_eq hlt (show a.size < 2 ^ 32 by omega) a
    refine hlast.trans ?_
    rw [bitsOf_two_pow, hmask, bitsOf_mod _ _ _ (Nat.le_refl _)]
    simp

/-- The on-loom encoder is in the state of the encoder of `ur`, before its counters overflow. -/
structure Beside (fib_u : JamFib) (j : Jam) : Prop where
  har : fib_u.har = j.dict
  bit : fib_u.bit_w = j.bsw.out.length
  buf : fib_u.buf_w = j.bsw.out
  bits : j.bsw.bits = j.bsw.out.length
  lt : j.bsw.out.length < 2 ^ 32
  bak : ∀ ref bak, j.dict ref = some bak → bak < 2 ^ 32

/-- A result of the on-loom encoder: the state of the encoder of `ur`, or a bail when that has
written `2 ^ 32` bits. -/
def Agrees (res : Option JamFib) (j : Jam) : Prop :=
  if j.bsw.out.length < 2 ^ 32 then ∃ fib_u, res = some fib_u ∧ Beside fib_u j else res = none

theorem Beside.lt_bit {j : Jam} (hbeside : Beside fib_u j) : fib_u.bit_w < 2 ^ 32 := by
  rw [hbeside.bit]
  exact hbeside.lt

theorem Beside.write {fib_u : JamFib} {j : Jam} (hbeside : Beside fib_u j) (more : List Bool) :
    Agrees (fib_u.write more) ⟨j.dict, j.bsw.write more⟩ := by
  have hlength : (j.bsw.write more).out.length = j.bsw.out.length + more.length := by
    simp [Bsw.write]
  rw [Agrees, JamFib.write, hbeside.bit]
  simp only [hlength]
  split_ifs with hfit
  · refine ⟨_, rfl, hbeside.har, hlength.symm, ?_, ?_, by rw [hlength]; exact hfit, hbeside.bak⟩
    · simp [Bsw.write, hbeside.buf]
    · rw [hlength, Bsw.write, hbeside.bits]
      exact Nat.mod_eq_of_lt (by omega)
  · rfl

/-- The cursor of a noun is recorded. -/
theorem Beside.put {fib_u : JamFib} {j : Jam} (hbeside : Beside fib_u j) (ref : Noun) :
    Beside { fib_u with har := Function.update fib_u.har ref (some fib_u.bit_w) }
      ⟨Function.update j.dict ref (some j.bsw.bits), j.bsw⟩ := by
  refine ⟨?_, hbeside.bit, hbeside.buf, hbeside.bits, hbeside.lt, fun ref' bak href ↦ ?_⟩
  · simp only [hbeside.har, hbeside.bit, hbeside.bits]
  · by_cases heq : ref' = ref
    · simp only [heq, Function.update_self, Option.some.injEq] at href
      rw [← href, hbeside.bits]
      exact hbeside.lt
    · simp only [Function.update_of_ne heq] at href
      exact hbeside.bak ref' bak href

theorem chop_atom (hlt : fib_u.bit_w < 2 ^ 32) {a : ℕ} (ha : a.size < 2 ^ 30) :
    (csJamFibChop fib_u 1 0).bind (fun fib_u ↦ csJamFibMat fib_u a) =
      fib_u.write (false :: mat a) :=
  csJamFibChop_bind hlt (by decide) 0 fun _ hlt ↦ csJamFibMat_eq hlt ha

theorem chop_back (hlt : fib_u.bit_w < 2 ^ 32) {b : ℕ} (hb : b < 2 ^ 32) :
    (csJamFibChop fib_u 2 3).bind (fun fib_u ↦ csJamFibMat fib_u b) =
      fib_u.write (true :: true :: mat b) := by
  have hsize : b.size ≤ 32 := Nat.size_le.mpr hb
  exact csJamFibChop_bind hlt (by decide) 3 fun _ hlt ↦ csJamFibMat_eq hlt (by omega)

theorem Beside.atom {fib_u : JamFib} {j : Jam} (hbeside : Beside fib_u j) {a : ℕ}
    (ha : a.size < 2 ^ 30) : Agrees (csJamFibAtomCb a fib_u) (jamAtom a j) := by
  unfold csJamFibAtomCb jamAtom
  rw [hbeside.har]
  cases hdict : j.dict (.atom a) with
  | none =>
    have hput := hbeside.put (.atom a)
    rw [hbeside.har] at hput
    simp only [bswAtom_size]
    refine (congrArg (Agrees · _) (chop_atom hput.lt_bit ha)).mpr ?_
    exact hput.write (false :: mat a)
  | some b =>
    have hb := hbeside.bak _ _ hdict
    simp only [bswAtom_size]
    split_ifs
    · exact (congrArg (Agrees · _) (chop_atom hbeside.lt_bit ha)).mpr (hbeside.write _)
    · rw [bswBack64_size j.bsw (show b < 2 ^ 64 by omega)]
      exact (congrArg (Agrees · _) (chop_back hbeside.lt_bit hb)).mpr (hbeside.write _)

/-- Going on with more to write: once `2 ^ 32` bits are written, the bail is final. -/
theorem Agrees.bind {res : Option JamFib} {j j' : Jam} (hagrees : Agrees res j)
    (happ : Appends j.bsw j'.bsw) {next : JamFib → Option JamFib}
    (hnext : ∀ fib_u, Beside fib_u j → Agrees (next fib_u) j') : Agrees (res.bind next) j' := by
  unfold Agrees at hagrees
  split_ifs at hagrees with hfit
  · obtain ⟨fib_u, rfl, hbeside⟩ := hagrees
    exact hnext fib_u hbeside
  · have hle := happ.length_le
    rw [hagrees, Agrees, if_neg (by omega)]
    rfl

theorem agrees_visit {n : Noun} (hatoms : AtomsBelow (2 ^ 30) n) {j : Jam}
    (hbeside : Beside fib_u j) :
    Agrees (visitM csJamFibAtomCb csJamFibCellCb n fib_u) (visit jamAtom jamCell n j) := by
  induction n generalizing fib_u j with
  | atom a => exact hbeside.atom hatoms
  | cell h t ih_h ih_t =>
    obtain ⟨hatoms_h, hatoms_t⟩ := hatoms
    cases hdict : j.dict (.cell h t) with
    | none =>
      have hput := hbeside.put (.cell h t)
      have hchop : csJamFibChop ⟨Function.update fib_u.har (.cell h t) (some fib_u.bit_w),
          fib_u.bit_w, fib_u.buf_w⟩ 2 1 = JamFib.write ⟨Function.update fib_u.har (.cell h t)
            (some fib_u.bit_w), fib_u.bit_w, fib_u.buf_w⟩ [true, false] :=
        csJamFibChop_eq hput.lt_bit (by decide) 1
      have hvisit : visit jamAtom jamCell (.cell h t) j =
          visit jamAtom jamCell t (visit jamAtom jamCell h
            ⟨Function.update j.dict (.cell h t) (some j.bsw.bits),
              j.bsw.write [true, false]⟩) := by
        simp [visit, jamCell, hdict, bswCell_eq]
      have hvisitM : visitM csJamFibAtomCb csJamFibCellCb (.cell h t) fib_u =
          (JamFib.write ⟨Function.update fib_u.har (.cell h t) (some fib_u.bit_w), fib_u.bit_w,
            fib_u.buf_w⟩ [true, false]).bind fun fib_u ↦
              (visitM csJamFibAtomCb csJamFibCellCb h fib_u).bind fun fib_u ↦
                visitM csJamFibAtomCb csJamFibCellCb t fib_u := by
        have hnone : fib_u.har (.cell h t) = none := by
          rw [hbeside.har]
          exact hdict
        simp only [visitM, csJamFibCellCb, hnone, hchop]
        cases JamFib.write _ [true, false] <;> rfl
      rw [hvisit, hvisitM]
      refine (hput.write [true, false]).bind ((appends_visit h _).trans (appends_visit t _))
        fun fib_u hbeside ↦ ?_
      exact (ih_h hatoms_h hbeside).bind (appends_visit t _) fun fib_u hbeside ↦
        ih_t hatoms_t hbeside
    | some b =>
      have hb := hbeside.bak _ _ hdict
      have hvisit : visit jamAtom jamCell (.cell h t) j =
          ⟨j.dict, j.bsw.write (true :: true :: mat b)⟩ := by
        simp [visit, jamCell, hdict, bswBack64_size j.bsw (show b < 2 ^ 64 by omega)]
      have hvisitM : visitM csJamFibAtomCb csJamFibCellCb (.cell h t) fib_u =
          fib_u.write (true :: true :: mat b) := by
        have hsome : fib_u.har (.cell h t) = some b := by
          rw [hbeside.har]
          exact hdict
        rw [← chop_back hbeside.lt_bit hb]
        simp only [visitM, csJamFibCellCb, hsome]
        cases csJamFibChop fib_u 2 3 with
        | none => rfl
        | some fib_u' =>
          simp only [Option.bind_eq_bind, Option.bind_some]
          cases csJamFibMat fib_u' b <;> rfl
      rw [hvisit, hvisitM]
      exact hbeside.write _

/-- The on-loom encoder writes what the encoder of `ur` writes, and bails when that writes `2 ^ 32`
bits or more. -/
theorem jamFib_eq {n : Noun} (hatoms : AtomsBelow (2 ^ 30) n) :
    jamFib n = if (jamBsw n).out.length < 2 ^ 32 then
      some ((jamBsw n).out.length, (jamBsw n).out) else none := by
  have hbeside : Beside ⟨fun _ ↦ none, 0, []⟩ ⟨fun _ ↦ none, bswInit⟩ :=
    ⟨rfl, rfl, rfl, rfl, by decide, fun _ _ href ↦ by simp at href⟩
  have hagrees := agrees_visit hatoms hbeside
  have hwalk : walkFore csJamFibAtomCb csJamFibCellCb [n] ⟨fun _ ↦ none, 0, []⟩ =
      visitM csJamFibAtomCb csJamFibCellCb n ⟨fun _ ↦ none, 0, []⟩ := by
    rw [walkFore_eq_foldlM, List.foldlM_cons]
    exact bind_pure _
  rw [jamFib, hwalk]
  rw [Agrees, ← jamBsw_eq] at hagrees
  split_ifs at hagrees ⊢
  · obtain ⟨fib_u, hvisit, hbeside'⟩ := hagrees
    rw [hvisit, jamBsw_eq]
    simp [hbeside'.bit, hbeside'.buf]
  · rw [hagrees]
    rfl

/-- The three encoders agree on nouns whose atoms have fewer than `2 ^ 30` bits and of whose parts
no eleven have one mug: the off-loom encoder and `ur_jam` always write the same, and so does the
on-loom encoder when that has fewer than `2 ^ 32` bits; otherwise it bails. -/
theorem jam_encoders_agree (n : Noun) (hatoms : AtomsBelow (2 ^ 30) n) {mug : Noun → ℕ}
    (hspread : Spread mug (nounParts n)) :
    urJam mug n = some (bswDone (jamBsw n)) ∧ jamXeno n = urJam mug n ∧
      jamFib n = if (jamBsw n).out.length < 2 ^ 32 then
        some ((jamBsw n).out.length, (jamBsw n).out) else none := by
  rw [urJam_eq hspread]
  exact ⟨rfl, jamXeno_eq n, jamFib_eq hatoms⟩

/-- The encoders on a cell with the same head and tail. -/
theorem jam_encoders_agree_shared :
    jamFib (.cell (.cell (.atom 1) (.atom 2)) (.cell (.atom 1) (.atom 2))) =
      some ((jamBsw (.cell (.cell (.atom 1) (.atom 2)) (.cell (.atom 1) (.atom 2)))).out.length,
        (jamBsw (.cell (.cell (.atom 1) (.atom 2)) (.cell (.atom 1) (.atom 2)))).out) := by
  have hatoms : AtomsBelow (2 ^ 30)
      (.cell (.cell (.atom 1) (.atom 2)) (.cell (.atom 1) (.atom 2))) := by
    simp only [AtomsBelow]
    decide
  have hspread : Spread (Murmur.mug Murmur.murmur3)
      (nounParts (.cell (.cell (.atom 1) (.atom 2)) (.cell (.atom 1) (.atom 2)))) :=
        spread_of_card_le (by decide)
  rw [(jam_encoders_agree _ hatoms hspread).2.2, if_pos]
  rw [jamBsw_eq]
  decide

/-- Five different atoms of `exp + 1` bits. -/
def five (exp : ℕ) : Noun :=
  .cell (.atom (2 ^ exp)) (.cell (.atom (2 ^ exp + 1)) (.cell (.atom (2 ^ exp + 2))
    (.cell (.atom (2 ^ exp + 3)) (.atom (2 ^ exp + 4)))))

/-- Different atoms are all written out. -/
theorem length_jamBsw_five (exp : ℕ) : 5 * (exp + 1) ≤ (jamBsw (five exp)).out.length := by
  have hsize : ∀ i, exp + 1 ≤ (mat (2 ^ exp + i)).length := fun i ↦
    Nat.le_trans (Nat.lt_size.mpr (Nat.le_add_right (2 ^ exp) i)) (size_le_length_mat _)
  have hout : (jamBsw (five exp)).out.length = 13 + (mat (2 ^ exp)).length +
      (mat (2 ^ exp + 1)).length + (mat (2 ^ exp + 2)).length + (mat (2 ^ exp + 3)).length +
        (mat (2 ^ exp + 4)).length := by
    rw [jamBsw_eq]
    simp [five, visit, jamCell, jamAtom, bswAtom_size, bswCell_eq, Bsw.write, bswInit]
    omega
  have h0 : exp + 1 ≤ (mat (2 ^ exp)).length := hsize 0
  have h1 := hsize 1
  have h2 := hsize 2
  have h3 := hsize 3
  have h4 := hsize 4
  omega

theorem atomsBelow_five {exp : ℕ} (hexp : 3 ≤ exp) : AtomsBelow (exp + 2) (five exp) := by
  have hpow : 2 ^ 3 ≤ 2 ^ exp := Nat.pow_le_pow_right (by decide) hexp
  have hsize : ∀ i ≤ 4, (2 ^ exp + i).size < exp + 2 := by
    intro i hi
    refine Nat.lt_succ_of_le (Nat.size_le.mpr ?_)
    rw [Nat.pow_succ]
    omega
  exact ⟨hsize 0 (by decide), hsize 1 (by decide), hsize 2 (by decide), hsize 3 (by decide),
    hsize 4 (by decide)⟩

theorem jamFib_five {exp : ℕ} (hexp : exp + 2 = 2 ^ 30) :
    AtomsBelow (2 ^ 30) (five exp) ∧ jamFib (five exp) = none := by
  have hatoms : AtomsBelow (2 ^ 30) (five exp) := hexp ▸ atomsBelow_five (by omega)
  have hlong := length_jamBsw_five exp
  refine ⟨hatoms, ?_⟩
  rw [jamFib_eq hatoms, if_neg (by omega)]

/-- Five different atoms of `2 ^ 30 - 1` bits have an encoding that the on-loom encoder does not
produce. -/
theorem jam_encoders_differ : AtomsBelow (2 ^ 30) (five (2 ^ 30 - 2)) ∧
    jamFib (five (2 ^ 30 - 2)) = none ∧
    jamXeno (five (2 ^ 30 - 2)) = some (jam (five (2 ^ 30 - 2))) := by
  obtain ⟨hatoms, hnone⟩ := jamFib_five (show 2 ^ 30 - 2 + 2 = 2 ^ 30 by decide)
  exact ⟨hatoms, hnone, jamXeno_eq _⟩

end Vere.Noun.Serial
