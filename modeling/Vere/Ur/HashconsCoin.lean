import Mathlib.Data.List.Perm.Subperm
import Vere.Ur.HashconsCue

/-!
# Coining atoms

What `ur_coin_bytes()` returns for a byte string in any arena that the operations reach
(`coinBytes_iff`). Growing the dictionary of atoms comes to an end unless ten other atoms have the
mug of the new one, and the same reference is found again in the arena that is left.
-/

set_option autoImplicit false

namespace Vere.Ur

open Lib Lib.Fuel Noun.Serial

section Sound

variable {mugBytes : ℕ → ℕ} {mugBoth : ℕ → ℕ → ℕ} {past : Past} {wide : ℕ → Nref} {r r' : Arena}
  {ref hed tal : Nref}
  {a fuel : ℕ}

/-! ### Every arena that is reached -/

/-- An arena whose dictionary of atoms is within its bounds, with every atom once. -/
structure Sound (mugBytes : ℕ → ℕ) (mugBoth : ℕ → ℕ → ℕ) (r : Arena) : Prop where
  arena : ArenaOk mugBytes mugBoth r
  fit : r.atomDict.Fit pailMax (r.mug mugBytes)
  nodup : ∀ i < r.atomDict.size, (r.atomDict.pail i).Nodup

theorem sound_init : Sound mugBytes mugBoth arenaInit :=
  ⟨arenaOk_init, Pails.fit_empty (by decide) (by decide), fun _ _ ↦ List.nodup_nil⟩

theorem Sound.all_nodup (hok : Sound mugBytes mugBoth r) : r.atomDict.all.Nodup := by
  have hall := @Pails.Fit.all_nodup _ _ _ _ id (r.mug mugBytes) hok.fit fun i hi ↦ by
    rw [List.map_id]
    exact hok.nodup i hi
  rwa [List.map_id] at hall

/-- The members of the dictionary are the atoms. -/
theorem Sound.isAtom (hok : Sound mugBytes mugBoth r) {i : ℕ} (hi : i < r.atomDict.size)
    (hmem : ref ∈ r.atomDict.pail i) :
    ∃ idx b, ref = .iatom idx ∧ r.root.atoms[idx]? = some b ∧ r.mug mugBytes ref = mugBytes b := by
  obtain ⟨⟨idx, hlt, rfl⟩, -⟩ := hok.arena.atomDict.mem i ref hi hmem
  have hget := List.getElem?_eq_getElem hlt
  exact ⟨idx, _, rfl, hget, hok.arena.mug_iatom hget⟩

theorem Sound.grow (hok : Sound mugBytes mugBoth r) {dict : Pails Nref}
    (hgrow : r.atomDict.grow pailMax (r.mug mugBytes) fuel r.atomDict.prev r.atomDict.size =
      some dict) :
    Sound mugBytes mugBoth { r with atomDict := dict } := by
  have hpos : 0 < r.atomDict.prev + r.atomDict.size := Nat.add_pos_right _ hok.fit.pos
  have hok' := hok.arena
  refine ⟨⟨hok'.atoms_nodup, hok'.cells_nodup, hok'.cells_below, hok'.atomMugs, hok'.cellMugs,
    hok'.atomDict.grow hpos hgrow, hok'.cellDict⟩, Pails.Fit.of_grow hpos hgrow, fun i _ ↦ ?_⟩
  obtain ⟨-, -, -, hpail, -⟩ := Pails.grow_pail hgrow
  dsimp only
  rw [hpail]
  exact hok.all_nodup.sublist List.filter_sublist

theorem Sound.append_atom (hok : Sound mugBytes mugBoth r) (hnot : a ∉ r.root.atoms)
    (hroom : (r.atomDict.bucket (mugBytes a)).length ≠ pailMax) :
    Sound mugBytes mugBoth (r.appendAtom a (mugBytes a)) := by
  have harena := hok.arena.append_atom hnot
  have hnew : (r.appendAtom a (mugBytes a)).mug mugBytes (.iatom r.root.atoms.length) =
    mugBytes a :=
    harena.mug_iatom List.getElem?_concat_length
  have hsame : ∀ i ref, i < r.atomDict.size → ref ∈ r.atomDict.pail i →
      (r.appendAtom a (mugBytes a)).mug mugBytes ref = r.mug mugBytes ref := by
    intro i ref hi hmem
    obtain ⟨idx, b, rfl, hget, -⟩ := hok.isAtom hi hmem
    have hbelow : r.root.Below 0 (.iatom idx) := (List.getElem?_eq_some_iff.mp hget).1
    exact hok.arena.mug_appendAtom a _ hbelow
  refine ⟨harena, ?_, fun i hi ↦ ?_⟩
  · have hfit :=
      (hok.fit.of_hash_eq hsame).add (.iatom r.root.atoms.length) (by rw [hnew]; exact hroom)
    rw [hnew] at hfit
    exact hfit
  · show (Function.update r.atomDict.pail (mugBytes a % r.atomDict.size)
      (r.atomDict.bucket (mugBytes a) ++ [.iatom r.root.atoms.length]) i).Nodup
    by_cases heq : i = mugBytes a % r.atomDict.size
    · have hidx : mugBytes a % r.atomDict.size < r.atomDict.size := Nat.mod_lt _ hok.fit.pos
      rw [heq, Function.update_self, List.nodup_append']
      refine ⟨hok.nodup _ hidx, List.nodup_singleton _, ?_⟩
      rw [List.disjoint_singleton]
      intro hmem
      obtain ⟨idx, b, hsame', hget, -⟩ := hok.isAtom hidx hmem
      obtain rfl := Nref.iatom.inj hsame'
      exact Nat.lt_irrefl _ (List.getElem?_eq_some_iff.mp hget).1
    · rw [Function.update_of_ne heq]
      exact hok.nodup i hi

/-- An arena after an operation, with what it had under the same references. -/
structure Kept (mugBytes : ℕ → ℕ) (mugBoth : ℕ → ℕ → ℕ) (r r' : Arena) : Prop where
  sound : Sound mugBytes mugBoth r'
  extends_ : r.root.Extends r'.root

theorem Kept.trans {r'' : Arena} (hfst : Kept mugBytes mugBoth r r')
    (hsnd : Kept mugBytes mugBoth r' r'') :
    Kept mugBytes mugBoth r r'' :=
  ⟨hsnd.sound, hfst.extends_.trans hsnd.extends_⟩

theorem Root.Valid.mono {r r' : Root} (hext : r.Extends r') (hvalid : r.Valid ref) : r'.Valid ref :=
  Root.Below.mono hext hext.cells.length_le hvalid

theorem kept_coinBytesUnsafe (hok : Sound mugBytes mugBoth r)
    (hcoin : r.coinBytesUnsafe mugBytes fuel a = some (ref, r')) :
    Kept mugBytes mugBoth r r' ∧ r'.root.Valid ref ∧ r'.root.cells = r.root.cells := by
  induction fuel generalizing r with
  | zero => cases hcoin
  | succ fuel ih =>
    rw [Arena.coinBytesUnsafe] at hcoin
    dsimp only at hcoin
    split at hcoin
    · rename_i tom hfind
      obtain ⟨rfl, rfl⟩ := Prod.mk.inj (Option.some.inj hcoin)
      obtain ⟨idx, b, rfl, hget, -⟩ :=
        hok.isAtom (Nat.mod_lt _ hok.fit.pos) (List.mem_of_find?_eq_some hfind)
      exact ⟨⟨hok, .refl _⟩, (List.getElem?_eq_some_iff.mp hget).1, rfl⟩
    rename_i hfind
    split at hcoin
    · obtain ⟨dict, hgrow, hcoin⟩ := Option.bind_eq_some_iff.mp hcoin
      obtain ⟨hkept, hvalid, hcells⟩ := ih (hok.grow hgrow) hcoin
      exact ⟨⟨hkept.sound, hkept.extends_⟩, hvalid, hcells⟩
    · rename_i hroom
      obtain ⟨rfl, rfl⟩ := Prod.mk.inj (Option.some.inj hcoin)
      refine ⟨⟨hok.append_atom (hok.arena.coin_missing hfind) hroom, List.prefix_append _ _,
        List.prefix_refl _⟩, ?_, rfl⟩
      show r.root.atoms.length < (r.root.atoms ++ [a]).length
      rw [List.length_append]
      exact Nat.lt_succ_self _

theorem cons_atoms (hcons : r.cons mugBytes mugBoth fuel hed tal = some (ref, r')) :
    r'.atomDict = r.atomDict ∧ r'.atomMugs = r.atomMugs ∧ r'.root.atoms = r.root.atoms := by
  induction fuel generalizing r with
  | zero => cases hcons
  | succ fuel ih =>
    rw [Arena.cons] at hcons
    dsimp only at hcons
    split at hcons
    · obtain ⟨rfl, rfl⟩ := Prod.mk.inj (Option.some.inj hcons)
      exact ⟨rfl, rfl, rfl⟩
    split at hcons
    · obtain ⟨dict, -, hcons⟩ := Option.bind_eq_some_iff.mp hcons
      exact @ih { r with cellDict := dict } hcons
    · obtain ⟨rfl, rfl⟩ := Prod.mk.inj (Option.some.inj hcons)
      exact ⟨rfl, rfl, rfl⟩

theorem kept_cons (hok : Sound mugBytes mugBoth r) (hhed : r.root.Valid hed)
    (htal : r.root.Valid tal) (hcons : r.cons mugBytes mugBoth fuel hed tal = some (ref, r')) :
    Kept mugBytes mugBoth r r' ∧ r'.root.Valid ref := by
  obtain ⟨hroot, harena⟩ := hok.arena.cons hhed htal hcons
  obtain ⟨hdict, hmugs, hatoms⟩ := cons_atoms hcons
  have hsame : ∀ i ref, i < r.atomDict.size → ref ∈ r.atomDict.pail i →
      r'.mug mugBytes ref = r.mug mugBytes ref := by
    intro i ref hi hmem
    obtain ⟨idx, b, rfl, -, -⟩ := hok.isAtom hi hmem
    rw [Arena.mug, Arena.mug, hmugs]
  have hpair : (ref, r'.root) = Ur.cons r.root hed tal := hroot.symm
  obtain ⟨rfl, hroot'⟩ := Prod.mk.inj hpair
  refine ⟨⟨⟨harena, ?_, ?_⟩, ?_⟩, ?_⟩
  · rw [hdict]
    exact hok.fit.of_hash_eq hsame
  · rw [hdict]
    exact hok.nodup
  · rw [hroot']
    exact ⟨List.prefix_refl _, prefix_intern r.root.cells (hed, tal)⟩
  · rw [hroot']
    exact (List.getElem?_eq_some_iff.mp (getElem?_intern r.root.cells (hed, tal))).1

/-! ### The decoder keeps what the arena has -/

/-- A stack and a dictionary of references that the root has given. -/
structure Given (r : Root) (s : List NrefFrame) (dict : ℕ → Option Nref) : Prop where
  frames : ∀ f ∈ s, ∀ ref ∈ f.ref, r.Valid ref
  dict : ∀ bits, ∀ ref ∈ dict bits, r.Valid ref

theorem given_nil (r : Root) : Given r [] fun _ ↦ none := ⟨nofun, nofun⟩

theorem Given.mono {r r' : Root} (hext : r.Extends r') {s : List NrefFrame} {dict : ℕ → Option Nref}
    (hgiven : Given r s dict) : Given r' s dict :=
  ⟨fun f hf ref href ↦ (hgiven.frames f hf ref href).mono hext,
    fun bits ref href ↦ (hgiven.dict bits ref href).mono hext⟩

theorem Given.update {r : Root} {s : List NrefFrame} {dict : ℕ → Option Nref}
    (hgiven : Given r s dict) (href : r.Valid ref) (bits : ℕ) :
    Given r s (Function.update dict bits (some ref)) := by
  refine ⟨hgiven.frames, fun bits' ref' href' ↦ ?_⟩
  by_cases heq : bits' = bits
  · rw [heq, Function.update_self, Option.mem_some_iff] at href'
    rwa [← href']
  · rw [Function.update_of_ne heq] at href'
    exact hgiven.dict bits' ref' href'

theorem Given.tail {r : Root} {f : NrefFrame} {s : List NrefFrame} {dict : ℕ → Option Nref}
    (hgiven : Given r (f :: s) dict) : Given r s dict :=
  ⟨fun g hg ↦ hgiven.frames g (List.mem_cons_of_mem _ hg), hgiven.dict⟩

theorem Given.push {r : Root} {f : NrefFrame} {s : List NrefFrame} {dict : ℕ → Option Nref}
    (hgiven : Given r s dict) (hframe : ∀ ref ∈ f.ref, r.Valid ref) : Given r (f :: s) dict := by
  refine ⟨fun g hg ↦ ?_, hgiven.dict⟩
  rcases List.mem_cons.mp hg with rfl | hg
  · exact hframe
  · exact hgiven.frames g hg

variable {s : List NrefFrame} {bsr red : Bsr} {dict : ℕ → Option Nref} {len : ℕ}

theorem kept_cueAtom (hok : Sound mugBytes mugBoth r)
    (hatom : r.cueAtom mugBytes past fuel bsr len = some (ref, r', red)) :
    Kept mugBytes mugBoth r r' ∧ r'.root.Valid ref := by
  unfold Arena.cueAtom at hatom
  split_ifs at hatom with hle
  · obtain ⟨rfl, rfl, rfl⟩ := Prod.mk.inj (Option.some.inj hatom) |>.imp_right Prod.mk.inj
    exact ⟨⟨hok, .refl _⟩, Bits.ofBits_take_lt (Nat.min_le_right 64 len |>.trans hle)⟩
  · obtain ⟨⟨ref', r''⟩, hcoin, hsome⟩ := Option.bind_eq_some_iff.mp hatom
    obtain ⟨rfl, rfl, rfl⟩ := Prod.mk.inj (Option.some.inj hsome) |>.imp_right Prod.mk.inj
    obtain ⟨hkept, hvalid, -⟩ := kept_coinBytesUnsafe hok hcoin
    exact ⟨hkept, hvalid⟩

theorem kept_cueNext (hok : Sound mugBytes mugBoth r) (hgiven : Given r.root s dict)
    {res : Except CueRes (Nref × List NrefFrame × Bsr × (ℕ → Option Nref))}
    (hnext : r.cueNext mugBytes past fuel s bsr dict = some (r', res)) :
    Kept mugBytes mugBoth r r' ∧ ∀ ref s' red dict', res = .ok (ref, s', red, dict') →
      r'.root.Valid ref ∧ Given r'.root s' dict' := by
  fun_induction Arena.cueNext mugBytes past fuel r s bsr dict with
  | case2 s bsr red₁ htag ih => exact ih (hgiven.push fun _ hnone ↦ by cases hnone) hnext
  | case6 s bsr red₁ htag len red₂ hrub hle bak red₃ hany val hdict =>
    obtain ⟨rfl, rfl⟩ := Prod.mk.inj (Option.some.inj hnext)
    refine ⟨⟨hok, .refl _⟩, fun ref s' red dict' hres ↦ ?_⟩
    obtain ⟨rfl, rfl, rfl, rfl⟩ := by simpa using hres
    exact ⟨hgiven.dict bak _ hdict, hgiven⟩
  | case9 s bsr red₁ htag len red₂ hrub ref' r'' red₃ hatom =>
    obtain ⟨rfl, rfl⟩ := Prod.mk.inj (Option.some.inj hnext)
    obtain ⟨hkept, hvalid⟩ := kept_cueAtom hok hatom
    refine ⟨hkept, fun ref s' red dict' hres ↦ ?_⟩
    obtain ⟨rfl, rfl, rfl, rfl⟩ := by simpa using hres
    exact ⟨hvalid, (hgiven.mono hkept.extends_).update hvalid bsr.bits⟩
  | case8 => cases hnext
  | _ =>
    obtain ⟨rfl, rfl⟩ := Prod.mk.inj (Option.some.inj hnext)
    exact ⟨⟨hok, .refl _⟩, fun _ _ _ _ hres ↦ by cases hres⟩

theorem kept_cueWalk (hok : Sound mugBytes mugBoth r) (href : r.root.Valid ref)
    (hgiven : Given r.root s dict) {res : Except CueRes Nref}
    (hwalk : r.cueWalk mugBytes mugBoth past fuel ref s bsr dict = some (r', res)) :
    Kept mugBytes mugBoth r r' := by
  fun_induction Arena.cueWalk mugBytes mugBoth past fuel r ref s bsr dict with
  | case1 r ref bsr dict =>
    obtain ⟨rfl, rfl⟩ := Prod.mk.inj (Option.some.inj hwalk)
    exact ⟨hok, .refl _⟩
  | case2 => cases hwalk
  | case3 r ref bsr dict bits s r₁ res' hnext =>
    obtain ⟨rfl, rfl⟩ := Prod.mk.inj (Option.some.inj hwalk)
    have hpush : Given r.root (⟨some ref, bits⟩ :: s) dict :=
      hgiven.tail.push fun ref' href' ↦ Option.some.inj href' ▸ href
    exact (kept_cueNext hok hpush hnext).1
  | case4 r ref bsr dict bits s r₁ ref₁ s₁ bsr₁ dict₁ hnext ih =>
    have hpush : Given r.root (⟨some ref, bits⟩ :: s) dict :=
      hgiven.tail.push fun ref' href' ↦ Option.some.inj href' ▸ href
    obtain ⟨hkept, hread⟩ := kept_cueNext hok hpush hnext
    obtain ⟨hvalid, hgiven'⟩ := hread _ _ _ _ rfl
    exact hkept.trans (ih hkept.sound hvalid hgiven' hwalk)
  | case5 => cases hwalk
  | case6 r ref bsr dict hed bits s ref₁ r₁ hcons ih =>
    have hhed : r.root.Valid hed := hgiven.frames _ List.mem_cons_self hed rfl
    obtain ⟨hkept, hvalid⟩ := kept_cons hok hhed href hcons
    exact hkept.trans
      (ih hkept.sound hvalid ((hgiven.tail.mono hkept.extends_).update hvalid bits) hwalk)

theorem kept_cue (hok : Sound mugBytes mugBoth r) {byt : List UInt8} {res : Except CueRes Nref}
    (hcue : r.cue mugBytes mugBoth past fuel byt = some (r', res)) :
    Kept mugBytes mugBoth r r' := by
  unfold Arena.cue at hcue
  split_ifs at hcue
  · obtain ⟨rfl, rfl⟩ := Prod.mk.inj (Option.some.inj hcue)
    exact ⟨hok, .refl _⟩
  split at hcue
  · cases hcue
  · rename_i r₁ res' hnext
    obtain ⟨rfl, rfl⟩ := Prod.mk.inj (Option.some.inj hcue)
    exact (kept_cueNext hok (given_nil _) hnext).1
  · rename_i r₁ ref s bsr dict hnext
    obtain ⟨hkept, hread⟩ := kept_cueNext hok (given_nil _) hnext
    obtain ⟨hvalid, hgiven⟩ := hread _ _ _ _ rfl
    exact hkept.trans (kept_cueWalk hkept.sound hvalid hgiven hcue)

theorem kept_coinBytes (hok : Sound mugBytes mugBoth r) {front : UInt8} {byt : List UInt8}
    (hcoin : r.coinBytes mugBytes wide front fuel byt = some (ref, r')) :
    Kept mugBytes mugBoth r r' := by
  unfold Arena.coinBytes at hcoin
  dsimp only at hcoin
  split at hcoin
  · obtain ⟨-, rfl⟩ := Prod.mk.inj (Option.some.inj hcoin)
    exact ⟨hok, .refl _⟩
  · exact (kept_coinBytesUnsafe hok hcoin).1

theorem kept_coin64 (hok : Sound mugBytes mugBoth r)
    (hcoin : r.coin64 mugBytes fuel a = some (ref, r')) :
    Kept mugBytes mugBoth r r' := by
  unfold Arena.coin64 at hcoin
  split at hcoin
  · obtain ⟨-, rfl⟩ := Prod.mk.inj (Option.some.inj hcoin)
    exact ⟨hok, .refl _⟩
  · exact (kept_coinBytesUnsafe hok hcoin).1

theorem sound_arenaStep {op : ℕ × ArenaOp} (hok : Sound mugBytes mugBoth r)
    (hstep : arenaStep mugBytes mugBoth past wide r op = some r') : Sound mugBytes mugBoth r' := by
  obtain ⟨fuel, op⟩ := op
  cases op with
  | coinBytes front byt =>
    obtain ⟨⟨ref, r₁⟩, hcoin, rfl⟩ := Option.map_eq_some_iff.mp hstep
    exact (kept_coinBytes hok hcoin).sound
  | coin64 n =>
    obtain ⟨⟨ref, r₁⟩, hcoin, rfl⟩ := Option.map_eq_some_iff.mp hstep
    exact (kept_coin64 hok hcoin).sound
  | cons hed tal =>
    replace hstep : (if r.root.Valid hed ∧ r.root.Valid tal then
      (r.cons mugBytes mugBoth fuel hed tal).map Prod.snd else none) = some r' := hstep
    split_ifs at hstep with hvalid
    obtain ⟨⟨ref, r₁⟩, hcons, rfl⟩ := Option.map_eq_some_iff.mp hstep
    exact (kept_cons hok hvalid.1 hvalid.2 hcons).1.sound
  | cue byt =>
    obtain ⟨⟨r₁, res⟩, hcue, rfl⟩ := Option.map_eq_some_iff.mp hstep
    exact (kept_cue hok hcue).sound

/-- Every arena that the operations reach is sound. -/
theorem sound_of_reach
    (hreach : Runs.Reach (arenaStep mugBytes mugBoth past wide) (fun _ _ ↦ True) arenaInit r) :
    Sound mugBytes mugBoth r :=
  hreach.invariant sound_init fun _ _ _ hok _ hstep ↦ sound_arenaStep hok hstep

/-! ### When coining returns -/

/-- How many atoms have the mug of a number. -/
def Root.sharing (mugBytes : ℕ → ℕ) (r : Root) (a : ℕ) : ℕ :=
  (r.atoms.filter fun b ↦ mugBytes b = mugBytes a).length

theorem Sound.bytes_nodup (hok : Sound mugBytes mugBoth r) {i : ℕ} (hi : i < r.atomDict.size) :
    ((r.atomDict.pail i).map r.root.bytes).Nodup := by
  refine List.Nodup.map_on (fun x hx y hy hsame ↦ ?_) (hok.nodup i hi)
  obtain ⟨idx, b, rfl, hget, -⟩ := hok.isAtom hi hx
  obtain ⟨idx', b', rfl, hget', -⟩ := hok.isAtom hi hy
  rw [Root.bytes, Root.bytes, List.getD_eq_getElem?_getD, List.getD_eq_getElem?_getD, hget,
    hget'] at hsame
  obtain rfl : b = b' := hsame
  obtain ⟨hlt, heq⟩ := List.getElem?_eq_some_iff.mp hget
  obtain ⟨hlt', heq'⟩ := List.getElem?_eq_some_iff.mp hget'
  exact congrArg Nref.iatom ((hok.arena.atoms_nodup.getElem_inj_iff).mp (heq.trans heq'.symm))

/-- The atoms of one mug are in one bucket. -/
theorem Sound.sharing_le (hok : Sound mugBytes mugBoth r) (a : ℕ) :
    r.root.sharing mugBytes a ≤ (r.atomDict.bucket (mugBytes a)).length := by
  rw [Root.sharing, ← @List.length_map _ _ (r.atomDict.bucket (mugBytes a)) r.root.bytes]
  refine (List.subperm_of_subset (hok.arena.atoms_nodup.filter _) fun b hb ↦ ?_).length_le
  obtain ⟨hmem, hsame⟩ := List.mem_filter.mp hb
  obtain ⟨idx, hget⟩ := List.mem_iff_getElem?.mp hmem
  have hlt := (List.getElem?_eq_some_iff.mp hget).1
  refine List.mem_map.mpr ⟨.iatom idx, ?_, ?_⟩
  · have hin := hok.arena.atomDict.has (.iatom idx) ⟨idx, hlt, rfl⟩
    rwa [hok.arena.mug_iatom hget, of_decide_eq_true hsame] at hin
  · rw [Root.bytes, List.getD_eq_getElem?_getD, hget]
    rfl

/-- With as many buckets as there are mugs, a bucket has the atoms of one mug only. -/
theorem Sound.le_sharing (hok : Sound mugBytes mugBoth r) (hmug : ∀ b, mugBytes b < 2 ^ 31)
    (hlarge : 2 ^ 31 ≤ r.atomDict.size) (a : ℕ) :
    (r.atomDict.bucket (mugBytes a)).length ≤ r.root.sharing mugBytes a := by
  have hsmall : mugBytes a % r.atomDict.size = mugBytes a :=
    Nat.mod_eq_of_lt (Nat.lt_of_lt_of_le (hmug a) hlarge)
  have hidx : mugBytes a < r.atomDict.size := Nat.lt_of_lt_of_le (hmug a) hlarge
  rw [Root.sharing, Pails.bucket, hsmall,
    ← @List.length_map _ _ (r.atomDict.pail (mugBytes a)) r.root.bytes]
  refine (List.subperm_of_subset (hok.bytes_nodup hidx) fun b hb ↦ ?_).length_le
  obtain ⟨ref, hmem, rfl⟩ := List.mem_map.mp hb
  have hhash := hok.fit.mem _ ref hidx hmem
  obtain ⟨idx, b, rfl, hget, hsame⟩ := hok.isAtom hidx hmem
  rw [hsame, Nat.mod_eq_of_lt (Nat.lt_of_lt_of_le (hmug b) hlarge)] at hhash
  rw [Root.bytes, List.getD_eq_getElem?_getD, hget, Option.getD_some, List.mem_filter]
  exact ⟨List.mem_of_getElem? hget, decide_eq_true hhash⟩

/-- An atom that is there is found. -/
theorem Sound.coin_again (hok : Sound mugBytes mugBoth r) {idx : ℕ}
    (hget : r.root.atoms[idx]? = some a) (fuel : ℕ) :
    r.coinBytesUnsafe mugBytes (fuel + 1) a = some (.iatom idx, r) := by
  rw [Arena.coinBytesUnsafe]
  dsimp only
  split
  · rename_i tom hfind
    have hsame := hok.arena.coin_found hfind
    rw [Ur.coinBytesUnsafe, intern_of_getElem? hok.arena.atoms_nodup hget] at hsame
    rw [← (Prod.mk.inj hsame).1]
  · rename_i hfind
    exact absurd (List.mem_of_getElem? hget) (hok.arena.coin_missing hfind)

theorem Sound.coined (hok : Sound mugBytes mugBoth r)
    (hcoin : r.coinBytesUnsafe mugBytes fuel a = some (ref, r')) :
    ∃ idx, ref = .iatom idx ∧ r'.root.atoms[idx]? = some a := by
  have hpair := (hok.arena.coinBytesUnsafe hcoin).1
  obtain ⟨rfl, hroot⟩ := Prod.mk.inj hpair
  refine ⟨_, rfl, ?_⟩
  rw [← hroot]
  exact getElem?_intern r.root.atoms a

/-- A new atom whose mug ten others have makes the dictionary grow for ever. -/
theorem Sound.coin_none (hok : Sound mugBytes mugBoth r) (hnot : a ∉ r.root.atoms)
    (hmany : pailMax ≤ r.root.sharing mugBytes a) (fuel : ℕ) :
    r.coinBytesUnsafe mugBytes fuel a = none := by
  induction fuel generalizing r with
  | zero => rfl
  | succ fuel ih =>
    have hfull : (r.atomDict.bucket (mugBytes a)).length = pailMax :=
      Nat.le_antisymm (hok.fit.fill _) (Nat.le_trans hmany (hok.sharing_le a))
    rw [Arena.coinBytesUnsafe]
    dsimp only
    split
    · rename_i tom hfind
      have hsame := hok.arena.coin_found hfind
      rw [Ur.coinBytesUnsafe, intern, if_neg hnot] at hsame
      have hatoms := congrArg Root.atoms (Prod.mk.inj hsame).2
      exact absurd (hatoms ▸ List.mem_append_right _ (List.mem_singleton_self a)) hnot
    · rw [if_pos hfull, Option.bind_eq_bind, Option.bind_eq_none_iff]
      intro dict hgrow
      exact ih (hok.grow hgrow) hnot hmany

theorem Sound.exists_coin (hok : Sound mugBytes mugBoth r) (hmug : ∀ b, mugBytes b < 2 ^ 31)
    (hfew : r.root.sharing mugBytes a < pailMax) :
    ∃ c, Returns (fun fuel ↦ r.coinBytesUnsafe mugBytes fuel a) c := by
  obtain ⟨left, hleft⟩ : ∃ left, left = 2 ^ 32 - (r.atomDict.prev + r.atomDict.size) := ⟨_, rfl⟩
  induction left using Nat.strongRecOn generalizing r with
  | _ left ih =>
    cases hfind : (r.atomDict.bucket (mugBytes a)).find? fun tom ↦ r.root.bytes tom = a with
    | some tom =>
      refine ⟨(tom, r), .succ fun fuel ↦ ?_⟩
      rw [Arena.coinBytesUnsafe]
      simp only [hfind]
    | none =>
      by_cases hroom : (r.atomDict.bucket (mugBytes a)).length = pailMax
      · have hsmall : r.atomDict.size < 2 ^ 31 := by
          by_contra hlarge
          have hle := hok.le_sharing hmug (Nat.le_of_not_lt hlarge) a
          omega
        have hbound : ∀ ref ∈ r.atomDict.all, r.mug mugBytes ref < 2 ^ 31 := by
          intro ref hmem
          obtain ⟨i, hi, hmem⟩ := List.mem_flatMap.mp hmem
          obtain ⟨idx, b, rfl, -, hsame⟩ := hok.isAtom (List.mem_range.mp hi) hmem
          rw [hsame]
          exact hmug b
        obtain ⟨dict, hgrows, -, hsize, hprev, -⟩ := hok.fit.exists_grow hbound
        have hpos := hok.fit.pos
        have hle := hok.fit.prev
        obtain ⟨need, hneed⟩ := hgrows
        have hok' := hok.grow (hneed need (Nat.le_refl _))
        obtain ⟨c, hret⟩ := @ih (2 ^ 32 - (dict.prev + dict.size)) (by omega)
          { r with atomDict := dict } hok' hfew rfl
        have hnext := @Returns.bind _ _ _ _ _
          (fun fuel dict ↦ Arena.coinBytesUnsafe mugBytes fuel { r with atomDict := dict } a) ⟨need,
          hneed⟩ hret
        refine ⟨c, hnext.of_succ fun fuel ↦ ?_⟩
        rw [Arena.coinBytesUnsafe]
        simp only [hfind, if_pos hroom]
      · refine ⟨(.iatom r.root.atoms.length, r.appendAtom a (mugBytes a)), .succ fun fuel ↦ ?_⟩
        rw [Arena.coinBytesUnsafe]
        simp only [hfind, if_neg hroom]
        rfl

/-- Coining returns if the atom is there or few others have its mug. -/
theorem Sound.exists_coin_iff (hok : Sound mugBytes mugBoth r) (hmug : ∀ b, mugBytes b < 2 ^ 31) :
    (∃ c, Returns (fun fuel ↦ r.coinBytesUnsafe mugBytes fuel a) c) ↔
      a ∈ r.root.atoms ∨ r.root.sharing mugBytes a < pailMax := by
  constructor
  · rintro ⟨c, need, hneed⟩
    by_contra hneither
    obtain ⟨hnot, hmany⟩ := not_or.mp hneither
    have hnone := hok.coin_none hnot (Nat.le_of_not_lt hmany) need
    cases (hneed need (Nat.le_refl _)).symm.trans hnone
  · rintro (hmem | hfew)
    · obtain ⟨idx, hget⟩ := List.mem_iff_getElem?.mp hmem
      exact ⟨_, .succ (hok.coin_again hget)⟩
    · exact hok.exists_coin hmug hfew

end Sound

/-! ### What coining a byte string gives -/

/-- Coining depends on the value only. -/
theorem Arena.coinBytes_eq (mugBytes : ℕ → ℕ) (wide : ℕ → Nref) (front : UInt8) (fuel : ℕ)
    (r : Arena) (byt : List UInt8) : r.coinBytes mugBytes wide front fuel byt =
      if met0BytesUnsafe front (Bytes.bytesOf (Bytes.value byt)) ≤ 62 then
        some (if Bytes.value byt < 2 ^ 31 then
          .direct (Bytes.value byt) else wide (Bytes.value byt), r)
      else r.coinBytesUnsafe mugBytes fuel (Bytes.value byt) := by
  unfold Arena.coinBytes
  dsimp only
  rw [stripZeros_eq, Bytes.value_bytesOf]

/-- Whatever stands in front of a byte string and whatever an undefined shift gives, the string is
coined as the atom of its value, with the reference that its number and the string with zeros behind
it have, before and after. -/
def CoinsOne (mugBytes : ℕ → ℕ) (r : Arena) (byt : List UInt8) : Prop :=
  ∀ front wide, ∃ ref r', Returns (fun fuel ↦ r.coinBytes mugBytes wide front fuel byt) (ref, r') ∧
    r'.root.Holds ref (.atom (Bytes.value byt)) ∧ ∀ from_, from_ = r ∨ from_ = r' →
      (Bytes.value byt < 2 ^ 64 →
      Returns (fun fuel ↦ from_.coin64 mugBytes fuel (Bytes.value byt)) (ref, r')) ∧
      ∀ len front' wide', Returns
        (fun fuel ↦ from_.coinBytes mugBytes wide' front' fuel (byt ++ List.replicate len 0))
          (ref, r')

section CoinsOne

variable {mugBytes : ℕ → ℕ} {mugBoth : ℕ → ℕ → ℕ} {past : Past} {wide : ℕ → Nref} {r : Arena}
  {byt : List UInt8}

theorem met0_le_iff (front : UInt8) {a : ℕ} (hne : a ≠ 0) :
    met0BytesUnsafe front (Bytes.bytesOf a) ≤ 62 ↔ a.size % 2 ^ 64 ≤ 62 := by
  rw [UInt64.le_iff_toNat_le, met0_bytesOf front hne]
  rfl

theorem Arena.coinBytes_of_small (wide : ℕ → Nref) (front : UInt8) (fuel : ℕ) (r : Arena)
    (hne : Bytes.value byt ≠ 0) (hsmall : Bytes.value byt < 2 ^ 31) :
    r.coinBytes mugBytes wide front fuel byt = some (.direct (Bytes.value byt), r) := by
  have hsize : (Bytes.value byt).size ≤ 31 := Nat.size_le.mpr hsmall
  have hmod := Nat.mod_le (Bytes.value byt).size (2 ^ 64)
  rw [Arena.coinBytes_eq, if_pos ((met0_le_iff front hne).mpr (by omega)), if_pos hsmall]

theorem Arena.coinBytes_of_large (wide : ℕ → Nref) (front : UInt8) (fuel : ℕ) (r : Arena)
    (hne : Bytes.value byt ≠ 0) (hlarge : 62 < (Bytes.value byt).size % 2 ^ 64) :
    r.coinBytes mugBytes wide front fuel byt =
      r.coinBytesUnsafe mugBytes fuel (Bytes.value byt) := by
  rw [Arena.coinBytes_eq, if_neg fun hle ↦ Nat.not_le_of_lt hlarge ((met0_le_iff front hne).mp hle)]

/-- A string without a value becomes an indirect atom when the byte in front of it is small. -/
theorem Sound.not_coinsOne_zero (hok : Sound mugBytes mugBoth r) (hzero : Bytes.value byt = 0) :
    ¬ CoinsOne mugBytes r byt := by
  intro hone
  obtain ⟨ref, r', ⟨need, hneed⟩, -, hsame⟩ := hone 0 .direct
  obtain ⟨hcoin, -⟩ := hsame r (Or.inl rfl)
  rw [hzero] at hcoin
  obtain ⟨need', hneed'⟩ := hcoin (by decide)
  have hbytes : r.coinBytes mugBytes .direct 0 need byt = some (ref, r') :=
    hneed need (Nat.le_refl _)
  have hnum : r.coin64 mugBytes need' 0 = some (ref, r') := hneed' need' (Nat.le_refl _)
  have hnil : ¬ met0BytesUnsafe 0 (Bytes.bytesOf 0) ≤ 62 :=
    fun hle ↦ absurd ((met0_nil 0).mp hle) (by decide)
  rw [Arena.coin64, if_pos (by decide)] at hnum
  rw [Arena.coinBytes_eq, hzero, if_neg hnil] at hbytes
  obtain ⟨rfl, rfl⟩ := Prod.mk.inj (Option.some.inj hnum)
  obtain ⟨idx, hdirect, -⟩ := hok.coined hbytes
  cases hdirect

/-- A direct atom of more than 31 bits is what the shift gives. -/
theorem not_coinsOne_wide (hlarge : 2 ^ 31 ≤ Bytes.value byt)
    (hsize : (Bytes.value byt).size % 2 ^ 64 ≤ 62) :
    ¬ CoinsOne mugBytes r byt := by
  intro hone
  have hne : Bytes.value byt ≠ 0 := by omega
  obtain ⟨ref, r', ⟨need, hneed⟩, hholds, -⟩ := hone 0 fun _ ↦ .direct 0
  have hbytes : r.coinBytes mugBytes (fun _ ↦ .direct 0) 0 need byt = some (ref, r') :=
    hneed need (Nat.le_refl _)
  rw [Arena.coinBytes_eq, if_pos ((met0_le_iff 0 hne).mpr hsize),
    if_neg (Nat.not_lt_of_le hlarge)] at hbytes
  obtain ⟨rfl, rfl⟩ := Prod.mk.inj (Option.some.inj hbytes)
  generalize Bytes.value byt = a at hholds hne
  cases hholds
  exact hne rfl

theorem coinsOne_of_small (hne : Bytes.value byt ≠ 0) (hsmall : Bytes.value byt < 2 ^ 31) :
    CoinsOne mugBytes r byt := by
  intro front wide
  have hdirect : Bytes.value byt < 2 ^ 62 := Nat.lt_trans hsmall (by decide)
  refine ⟨.direct (Bytes.value byt), r,
    ⟨0, fun fuel _ ↦ Arena.coinBytes_of_small _ _ _ _ hne hsmall⟩, .direct hdirect,
    fun from_ hfrom ↦ ?_⟩
  obtain rfl : from_ = r := hfrom.elim id id
  refine ⟨fun _ ↦ ⟨0, fun fuel _ ↦ ?_⟩, fun len front' wide' ↦ ⟨0, fun fuel _ ↦ ?_⟩⟩
  · exact if_pos hdirect
  · rw [← Bytes.value_append_zeros byt len] at hne hsmall ⊢
    exact Arena.coinBytes_of_small _ _ _ _ hne hsmall

/-- A number of more than 62 bits is coined alike by all when its coining returns. -/
theorem Sound.coinsOne_of_large (hok : Sound mugBytes mugBoth r) (hne : Bytes.value byt ≠ 0)
    (hlarge : 62 < (Bytes.value byt).size % 2 ^ 64) :
    CoinsOne mugBytes r byt ↔
    ∃ c, Returns (fun fuel ↦ r.coinBytesUnsafe mugBytes fuel (Bytes.value byt)) c := by
  constructor
  · intro hone
    obtain ⟨ref, r', hret, -⟩ := hone 0 .direct
    exact ⟨(ref, r'), hret.congr fun fuel ↦ Arena.coinBytes_of_large _ _ _ _ hne hlarge⟩
  · rintro ⟨⟨ref, r'⟩, hret⟩ front wide
    have hwide : ¬ Bytes.value byt < 2 ^ 62 := by
      rw [← Nat.size_le]
      have hmod := Nat.mod_le (Bytes.value byt).size (2 ^ 64)
      omega
    have hagain : ∀ from_, from_ = r ∨ from_ = r' →
        Returns (fun fuel ↦ from_.coinBytesUnsafe mugBytes fuel (Bytes.value byt)) (ref, r') := by
      rintro from_ (rfl | rfl)
      · exact hret
      · obtain ⟨need, hneed⟩ := hret
        have hcoin := hneed need (Nat.le_refl _)
        obtain ⟨idx, rfl, hget⟩ := hok.coined hcoin
        exact .succ ((kept_coinBytesUnsafe hok hcoin).1.sound.coin_again hget)
    obtain ⟨need, hneed⟩ := hret
    obtain ⟨idx, hidx, hget⟩ := hok.coined (hneed need (Nat.le_refl _))
    refine ⟨ref, r', (hagain r (Or.inl rfl)).congr fun fuel ↦
      (Arena.coinBytes_of_large _ _ _ _ hne hlarge).symm, ?_,
      fun from_ hfrom ↦ ⟨fun _ ↦ (hagain from_ hfrom).congr fun fuel ↦ ?_, fun len front' wide' ↦
        (hagain from_ hfrom).congr fun fuel ↦ ?_⟩⟩
    · rw [hidx]
      exact .iatom hget
    · rw [Arena.coin64, if_neg hwide]
    · rw [← Bytes.value_append_zeros byt len] at hne hlarge ⊢
      exact (Arena.coinBytes_of_large _ _ _ _ hne hlarge).symm

/-- In every arena that the operations reach, a byte string is coined as the atom of its value
exactly if it has one that is not zero, of at most 31 bits or of more than 62, and one of the latter
is there already or shares its mug with less than ten. -/
theorem coinBytes_iff (hmug : ∀ b, mugBytes b < 2 ^ 31)
    (hreach : Runs.Reach (arenaStep mugBytes mugBoth past wide) (fun _ _ ↦ True) arenaInit r)
    (byt : List UInt8) :
    CoinsOne mugBytes r byt ↔ Bytes.value byt ≠ 0 ∧ (Bytes.value byt < 2 ^ 31 ∨
      62 < (Bytes.value byt).size % 2 ^ 64 ∧
        (Bytes.value byt ∈ r.root.atoms ∨ r.root.sharing mugBytes (Bytes.value byt) <
          pailMax)) := by
  have hok := sound_of_reach hreach
  by_cases hne : Bytes.value byt = 0
  · exact iff_of_false (hok.not_coinsOne_zero hne) fun hcond ↦ hcond.1 hne
  by_cases hsmall : Bytes.value byt < 2 ^ 31
  · exact iff_of_true (coinsOne_of_small hne hsmall) ⟨hne, Or.inl hsmall⟩
  by_cases hlarge : 62 < (Bytes.value byt).size % 2 ^ 64
  · rw [hok.coinsOne_of_large hne hlarge, hok.exists_coin_iff hmug]
    exact ⟨fun hroom ↦ ⟨hne, Or.inr ⟨hlarge, hroom⟩⟩, fun hcond ↦ (hcond.2.resolve_left hsmall).2⟩
  · refine iff_of_false (not_coinsOne_wide (Nat.le_of_not_lt hsmall) (Nat.le_of_not_lt hlarge)) ?_
    rintro ⟨-, hlow | ⟨hmany, -⟩⟩
    · exact hsmall hlow
    · exact hlarge hmany

/-- Five, with two zeros behind it, in the first arena. -/
theorem coinBytes_five : CoinsOne (· % 2 ^ 31) arenaInit [5, 0, 0] :=
  (@coinBytes_iff (· % 2 ^ 31) (fun h t ↦ (h + t) % 2 ^ 31) (fun _ _ ↦ (0, 0, 0)) .direct arenaInit
    (fun b ↦ Nat.mod_lt b (by decide)) .refl [5, 0, 0]).mpr ⟨by decide, Or.inl (by decide)⟩

end CoinsOne

/-- Neither the empty string nor the four bytes of `2 ^ 31` are coined as their atoms. -/
theorem coinBytes_splits_zero :
    ¬ CoinsOne (fun _ ↦ 1) arenaInit [] ∧ ¬ CoinsOne (fun _ ↦ 1) arenaInit [0, 0, 0, 0x80] := by
  refine ⟨(@sound_init (fun _ ↦ 1) fun _ _ ↦ 0).not_coinsOne_zero rfl,
    not_coinsOne_wide (by decide) ?_⟩
  have hsize : (Bytes.value [0, 0, 0, 0x80]).size ≤ 32 := Nat.size_le.mpr (by decide)
  have hmod := Nat.mod_le (Bytes.value [0, 0, 0, 0x80]).size (2 ^ 64)
  omega

end Vere.Ur
