import Mathlib.Data.Finset.Card
import Mathlib.Data.List.DropRight
import Vere.Lib.Bytes
import Vere.Lib.Pails
import Vere.Ur.Hashcons

/-!
# The dictionaries of the arena

In the program an atom or a cell is found through a dictionary of references, distributed by mug
over buckets of ten. `Arena` is a root with its dictionaries and stored mugs. Whenever its
operations return, they return what finding or appending in the root does
(`ArenaOk.coinBytesUnsafe`, `ArenaOk.cons`). They need not return: eleven nouns of one mug fill a
bucket however much the dictionary grows.
-/

set_option autoImplicit false

namespace Vere.Ur

open Lib

/-! ### The bytes of an atom -/

/-- `ur_met0_bytes_unsafe()`, which reads the byte `front` in front of the bytes if there are none.
-/
def met0BytesUnsafe (front : UInt8) (byt : List UInt8) : UInt64 :=
  let last : UInt64 := UInt64.ofNat byt.length - 1
  (last <<< 3) + UInt64.ofNat (byt.getLastD front).toNat.size

/-- The bytes without trailing zeros, as `ur_coin_bytes()` strips them. -/
def stripZeros (byt : List UInt8) : List UInt8 := byt.rdropWhile fun b ↦ b == 0

/-- What is left are the bytes of the value. -/
theorem stripZeros_eq (byt : List UInt8) : stripZeros byt = Bytes.bytesOf (Bytes.value byt) := by
  have hzeros : ∀ len (bytes : List UInt8), stripZeros (bytes ++ List.replicate len 0) =
      stripZeros bytes := by
    intro len bytes
    induction len with
    | zero => rw [List.replicate_zero, List.append_nil]
    | succ len ih =>
      rw [List.replicate_succ', ← List.append_assoc, stripZeros,
        List.rdropWhile_concat_pos _ _ _ (by rfl)]
      exact ih
  have hstrip : stripZeros byt = stripZeros (Bytes.bytesOf (Bytes.value byt)) := by
    nth_rewrite 1 [Bytes.exists_zeros byt]
    exact hzeros _ _
  rw [hstrip, stripZeros, List.rdropWhile_eq_self_iff]
  intro hne hlast
  refine Bytes.getLast?_bytesOf (Bytes.value byt) ?_
  rw [List.getLast?_eq_some_getLast hne]
  exact congrArg some (by simpa using hlast)

/-- The bits of an atom other than zero are counted right, up to the overflow of the count. -/
theorem met0_bytesOf (front : UInt8) {a : ℕ} (hne : a ≠ 0) :
    (met0BytesUnsafe front (Bytes.bytesOf a)).toNat = a.size % 2 ^ 64 := by
  obtain ⟨bytes, last, hbytes, hlt, -, hsize⟩ := Bytes.bytesOf_eq_concat hne
  have hlast : (UInt8.ofNat last).toNat = last := by
    rw [UInt8.toNat_ofNat']
    exact Nat.mod_eq_of_lt hlt
  have hmost : last.size ≤ 8 := Nat.size_le.mpr hlt
  have hlen : (UInt64.ofNat (bytes ++ [UInt8.ofNat last]).length - 1).toNat =
      bytes.length % 2 ^ 64 := by
    rw [List.length_append, List.length_singleton, UInt64.toNat_sub, UInt64.toNat_ofNat']
    have hone : (1 : UInt64).toNat = 1 := rfl
    rw [hone]
    omega
  unfold met0BytesUnsafe
  dsimp only
  rw [hbytes, UInt64.toNat_add, UInt64.toNat_shiftLeft, hlen, List.getLastD_concat, hlast,
    UInt64.toNat_ofNat', hsize, Nat.shiftLeft_eq]
  have hthree : (3 : UInt64).toNat % 64 = 3 := rfl
  rw [hthree]
  omega

/-- Where there is nothing, the count is zero or far too large. -/
theorem met0_nil (front : UInt8) : met0BytesUnsafe front [] ≤ 62 ↔ 0x80 ≤ front := by
  have hmost : front.toNat.size ≤ 8 := Nat.size_le.mpr front.toNat_lt
  have htop : 7 < front.toNat.size ↔ 2 ^ 7 ≤ front.toNat := Nat.lt_size
  have hcount : (met0BytesUnsafe front []).toNat = (2 ^ 64 - 8 + front.toNat.size) % 2 ^ 64 := by
    unfold met0BytesUnsafe
    dsimp only
    rw [UInt64.toNat_add, UInt64.toNat_ofNat', List.getLastD_nil]
    have hlast : ((UInt64.ofNat ([] : List UInt8).length - 1) <<< 3).toNat = 2 ^ 64 - 8 := rfl
    rw [hlast]
    omega
  have hbound : (62 : UInt64).toNat = 62 := rfl
  have hfront : (0x80 : UInt8).toNat = 2 ^ 7 := rfl
  rw [UInt64.le_iff_toNat_le, UInt8.le_iff_toNat_le, hcount, hbound, hfront, ← htop]
  omega

/-- `ur_pail_max`. -/
def pailMax : ℕ := 10

/-- A new key whose mug `ur_pail_max` others have: its bucket is full however often the table grows.
-/
def crowded {κ : Type} [DecidableEq κ] (mug : κ → ℕ) (keys : List κ) (key : κ) : Bool :=
  decide (key ∉ keys ∧ pailMax ≤ keys.countP fun other ↦ mug other = mug key)

/-- No hash has more keys than a bucket has places. -/
def Spread {κ ι : Type} [DecidableEq ι] (mug : κ → ι) (keys : Finset κ) : Prop :=
  ∀ mug_w, (keys.filter fun ref ↦ mug ref = mug_w).card ≤ pailMax

/-- The keys after a put, which does not end if the bucket of the key stays full. -/
def keep {κ : Type} [DecidableEq κ] (mug : κ → ℕ) (keys : List κ) (key : κ) : Option (List κ) :=
  if key ∈ keys then some keys else if crowded mug keys key then none else some (key :: keys)

/-- The keys are different ones of a set. -/
def Held {κ : Type} (keys : Finset κ) (ks : List κ) : Prop := ks.Nodup ∧ ∀ key ∈ ks, key ∈ keys

theorem Spread.keep {κ : Type} [DecidableEq κ] {mug : κ → ℕ} {keys : Finset κ}
    (hspread : Spread mug keys) {ks : List κ} (hheld : Held keys ks) {key : κ} (hkey : key ∈ keys) :
    ∃ ks', keep mug ks key = some ks' ∧ Held keys ks' := by
  obtain ⟨hnodup, hsub⟩ := hheld
  rw [Ur.keep]
  by_cases hold : key ∈ ks
  · exact ⟨ks, if_pos hold, hnodup, hsub⟩
  have hroom : ¬ crowded mug ks key := by
    rw [crowded, decide_eq_true_eq]
    rintro ⟨_, hmany⟩
    have hlist : (key :: ks.filter fun other ↦ mug other = mug key).Nodup :=
      List.nodup_cons.mpr ⟨fun hmem ↦ hold (List.mem_filter.mp hmem).1, hnodup.filter _⟩
    have hle :=
      Finset.card_le_card (show (key :: ks.filter fun other ↦ mug other = mug key).toFinset ⊆
        keys.filter fun other ↦ mug other = mug key by
      intro other hother
      rw [Finset.mem_filter]
      rcases List.mem_cons.mp (List.mem_toFinset.mp hother) with rfl | hother
      · exact ⟨hkey, rfl⟩
      · obtain ⟨hmem, hmug⟩ := List.mem_filter.mp hother
        exact ⟨hsub other hmem, of_decide_eq_true hmug⟩)
    rw [List.toFinset_card_of_nodup hlist, List.length_cons, ← List.countP_eq_length_filter] at hle
    have hfew := hspread (mug key)
    omega
  refine ⟨key :: ks, by rw [if_neg hold, if_neg hroom], List.nodup_cons.mpr ⟨hold, hnodup⟩,
    fun other hother ↦ ?_⟩
  rcases List.mem_cons.mp hother with rfl | hother
  · exact hkey
  · exact hsub other hother

/-- `ur_root_t` with the mugs of its nouns and its dictionaries. -/
structure Arena where
  root : Root
  atomMugs : List ℕ
  cellMugs : List ℕ
  atomDict : Pails Nref
  cellDict : Pails Nref

/-- `ur_bytes()`, of a reference that is not a cell. -/
def Root.bytes (r : Root) : Nref → ℕ
  | .direct a => a
  | .iatom idx => r.atoms.getD idx 0
  | .icell _ => 0

/-- The head and tail of a cell. -/
def Root.cell (r : Root) : Nref → Option (Nref × Nref)
  | .icell idx => r.cells[idx]?
  | _ => none

section Operations

variable (mugBytes : ℕ → ℕ) (mugBoth : ℕ → ℕ → ℕ)

/-- `ur_nref_mug()`. -/
def Arena.mug (r : Arena) : Nref → ℕ
  | .direct a => mugBytes a
  | .iatom idx => r.atomMugs.getD idx 0
  | .icell idx => r.cellMugs.getD idx 0

/-- `ur_root_init()`, with dictionaries of the sizes `ur_fib11` and `ur_fib12` together. -/
def arenaInit : Arena :=
  ⟨rootInit, [], [], ⟨144, 89 + 144, fun _ ↦ []⟩, ⟨144, 89 + 144, fun _ ↦ []⟩⟩

/-- `ur_coin_bytes_unsafe()` through the dictionary. -/
def Arena.coinBytesUnsafe : ℕ → Arena → ℕ → Option (Nref × Arena)
  | 0, _, _ => none
  | fuel + 1, r, a =>
    let mug := mugBytes a
    let bucket := r.atomDict.bucket mug
    match bucket.find? fun tom ↦ r.root.bytes tom = a with
    | some tom => some (tom, r)
    | none =>
      if bucket.length = pailMax then do
        let dict ← r.atomDict.grow pailMax (r.mug mugBytes) fuel r.atomDict.prev r.atomDict.size
        Arena.coinBytesUnsafe fuel { r with atomDict := dict } a
      else
        let tom := Nref.iatom r.root.atoms.length
        some (tom, { r with
          root := { r.root with atoms := r.root.atoms ++ [a] }
          atomMugs := r.atomMugs ++ [mug]
          atomDict := r.atomDict.add mug tom })

/-- `ur_coin_bytes()` through the dictionary, with the byte in front of the bytes. The bytes of a
direct atom are shifted as an `int`, and from `2 ^ 31` on what that gives is undefined: `wide`
stands for it. -/
def Arena.coinBytes (wide : ℕ → Nref) (front : UInt8) (fuel : ℕ) (r : Arena) (byt : List UInt8) :
    Option (Nref × Arena) :=
  let byt := stripZeros byt
  let a := Bytes.value byt
  if met0BytesUnsafe front byt ≤ 62 then some (if a < 2 ^ 31 then .direct a else wide a, r)
  else r.coinBytesUnsafe mugBytes fuel a

/-- `ur_coin64()` through the dictionary. -/
def Arena.coin64 (fuel : ℕ) (r : Arena) (n : ℕ) : Option (Nref × Arena) :=
  if n < 2 ^ 62 then some (.direct n, r) else r.coinBytesUnsafe mugBytes fuel n

/-- `ur_cons()` through the dictionary. -/
def Arena.cons : ℕ → Arena → Nref → Nref → Option (Nref × Arena)
  | 0, _, _, _ => none
  | fuel + 1, r, hed, tal =>
    let mug := mugBoth (r.mug mugBytes hed) (r.mug mugBytes tal)
    let bucket := r.cellDict.bucket mug
    match bucket.find? fun cel ↦ r.root.cell cel = some (hed, tal) with
    | some cel => some (cel, r)
    | none =>
      if bucket.length = pailMax then do
        let dict ← r.cellDict.grow pailMax (r.mug mugBytes) fuel r.cellDict.prev r.cellDict.size
        Arena.cons fuel { r with cellDict := dict } hed tal
      else
        let cel := Nref.icell r.root.cells.length
        some (cel, { r with
          root := { r.root with cells := r.root.cells ++ [(hed, tal)] }
          cellMugs := r.cellMugs ++ [mug]
          cellDict := r.cellDict.add mug cel })

end Operations

/-! ### The dictionaries are complete -/

section Refinement

variable (mugBytes : ℕ → ℕ) (mugBoth : ℕ → ℕ → ℕ)

/-- The references of the atoms. -/
def Root.IsAtom (r : Root) (ref : Nref) : Prop := ∃ idx, idx < r.atoms.length ∧ ref = .iatom idx

/-- The references of the cells. -/
def Root.IsCell (r : Root) (ref : Nref) : Prop := ∃ idx, idx < r.cells.length ∧ ref = .icell idx

/-- The mugs are stored, nothing is there twice, and the dictionaries hold every reference where its
mug says. -/
structure ArenaOk (r : Arena) : Prop where
  atoms_nodup : r.root.atoms.Nodup
  cells_nodup : r.root.cells.Nodup
  cells_below : ∀ idx hed tal, r.root.cells[idx]? = some (hed, tal) →
    r.root.Below idx hed ∧ r.root.Below idx tal
  atomMugs : r.atomMugs = r.root.atoms.map mugBytes
  cellMugs : r.cellMugs = r.root.cells.map fun cel ↦
    mugBoth (r.mug mugBytes cel.1) (r.mug mugBytes cel.2)
  atomDict : r.atomDict.Has (r.mug mugBytes) r.root.IsAtom
  cellDict : r.cellDict.Has (r.mug mugBytes) r.root.IsCell

variable {mugBytes mugBoth} {r r' : Arena} {ref hed tal : Nref} {a fuel : ℕ}

theorem arenaOk_init : ArenaOk mugBytes mugBoth arenaInit := by
  have hempty : ∀ {hash : Nref → ℕ} {M : Nref → Prop}, (∀ x, ¬ M x) →
      Pails.Has hash ⟨144, 89 + 144, fun _ ↦ []⟩ M :=
    fun hnone ↦ (Pails.has_empty (by decide)).congr fun x ↦ ⟨False.elim, hnone x⟩
  refine ⟨List.nodup_nil, List.nodup_nil, by simp [arenaInit, rootInit], rfl, rfl, hempty ?_,
    hempty ?_⟩
  · rintro x ⟨idx, hlt, -⟩
    simp [arenaInit, rootInit] at hlt
  · rintro x ⟨idx, hlt, -⟩
    simp [arenaInit, rootInit] at hlt

theorem ArenaOk.mug_iatom (hok : ArenaOk mugBytes mugBoth r) {idx : ℕ}
    (hget : r.root.atoms[idx]? = some a) : r.mug mugBytes (.iatom idx) = mugBytes a := by
  rw [Arena.mug, hok.atomMugs, List.getD_eq_getElem?_getD, List.getElem?_map, hget]
  rfl

theorem ArenaOk.mug_icell (hok : ArenaOk mugBytes mugBoth r) {idx : ℕ}
    (hget : r.root.cells[idx]? = some (hed, tal)) : r.mug mugBytes (.icell idx) =
      mugBoth (r.mug mugBytes hed) (r.mug mugBytes tal) := by
  rw [Arena.mug, hok.cellMugs, List.getD_eq_getElem?_getD, List.getElem?_map, hget]
  rfl

theorem intern_of_getElem? {α : Type*} [DecidableEq α] {l : List α} {x : α} {i : ℕ}
    (hnodup : l.Nodup) (hget : l[i]? = some x) : intern l x = (i, l) := by
  obtain ⟨hlt, rfl⟩ := List.getElem?_eq_some_iff.mp hget
  rw [intern, if_pos (List.getElem_mem hlt), hnodup.idxOf_getElem]

/-- What is found in its bucket is the atom. -/
theorem ArenaOk.coin_found (hok : ArenaOk mugBytes mugBoth r) {tom : Nref}
    (hfind : (r.atomDict.bucket (mugBytes a)).find? (fun tom ↦ r.root.bytes tom = a) = some tom) :
    Ur.coinBytesUnsafe r.root a = (tom, r.root) := by
  have hbytes : r.root.bytes tom = a := by simpa using List.find?_some hfind
  obtain ⟨⟨idx, hlt, rfl⟩, -⟩ := hok.atomDict.mem _ tom (Nat.mod_lt _ hok.atomDict.pos)
    (List.mem_of_find?_eq_some hfind)
  have hget : r.root.atoms[idx]? = some a := by
    rw [← hbytes, Root.bytes, List.getD_eq_getElem?_getD, List.getElem?_eq_getElem hlt]
    rfl
  rw [Ur.coinBytesUnsafe, intern_of_getElem? hok.atoms_nodup hget]

/-- An atom that is not in its bucket is not there. -/
theorem ArenaOk.coin_missing (hok : ArenaOk mugBytes mugBoth r)
    (hfind : (r.atomDict.bucket (mugBytes a)).find? (fun tom ↦ r.root.bytes tom = a) = none) :
    a ∉ r.root.atoms := by
  intro hmem
  obtain ⟨idx, hget⟩ := List.mem_iff_getElem?.mp hmem
  obtain ⟨hlt, -⟩ := List.getElem?_eq_some_iff.mp hget
  have hin := hok.atomDict.has (.iatom idx) ⟨idx, hlt, rfl⟩
  rw [hok.mug_iatom hget] at hin
  refine List.find?_eq_none.mp hfind _ hin ?_
  rw [Root.bytes, List.getD_eq_getElem?_getD, hget]
  simp

/-- An atom that is appended, with its mug, under the next reference. -/
def Arena.appendAtom (r : Arena) (a mug : ℕ) : Arena :=
  { r with
    root := { r.root with atoms := r.root.atoms ++ [a] }
    atomMugs := r.atomMugs ++ [mug]
    atomDict := r.atomDict.add mug (.iatom r.root.atoms.length) }

/-- A cell that is appended, with its mug, under the next reference. -/
def Arena.appendCell (r : Arena) (hed tal : Nref) (mug : ℕ) : Arena :=
  { r with
    root := { r.root with cells := r.root.cells ++ [(hed, tal)] }
    cellMugs := r.cellMugs ++ [mug]
    cellDict := r.cellDict.add mug (.icell r.root.cells.length) }

theorem getD_append_left {l : List ℕ} {i : ℕ} (x : ℕ) (hlt : i < l.length) :
    (l ++ [x]).getD i 0 = l.getD i 0 := by
  rw [List.getD_eq_getElem?_getD, List.getD_eq_getElem?_getD, List.getElem?_append_left hlt]

theorem getD_append_length (l : List ℕ) (x : ℕ) : (l ++ [x]).getD l.length 0 = x := by
  rw [List.getD_eq_getElem?_getD, List.getElem?_concat_length, Option.getD_some]

/-- The mugs of the references that are there do not change. -/
theorem ArenaOk.mug_appendAtom (hok : ArenaOk mugBytes mugBoth r) (a mug : ℕ) {idx : ℕ}
    (hbelow : r.root.Below idx ref) :
    (r.appendAtom a mug).mug mugBytes ref = r.mug mugBytes ref := by
  cases ref with
  | direct a => rfl
  | iatom i =>
    refine getD_append_left mug ?_
    rw [hok.atomMugs, List.length_map]
    exact hbelow
  | icell i => rfl

theorem ArenaOk.mug_appendCell (hok : ArenaOk mugBytes mugBoth r) (hed tal : Nref) (mug : ℕ)
    (hbelow : r.root.Below r.root.cells.length ref) :
    (r.appendCell hed tal mug).mug mugBytes ref = r.mug mugBytes ref := by
  cases ref with
  | direct a => rfl
  | iatom i => rfl
  | icell i =>
    refine getD_append_left mug ?_
    rw [hok.cellMugs, List.length_map]
    exact hbelow

theorem Root.IsAtom.below {r : Root} (hatom : r.IsAtom ref) (idx : ℕ) : r.Below idx ref := by
  obtain ⟨i, hlt, rfl⟩ := hatom
  exact hlt

theorem Root.IsCell.below {r : Root} (hcell : r.IsCell ref) : r.Below r.cells.length ref := by
  obtain ⟨i, hlt, rfl⟩ := hcell
  exact hlt

/-- The stored mugs of the cells, by any mug that the references in cells keep. -/
theorem ArenaOk.cellMugs_congr (hok : ArenaOk mugBytes mugBoth r) {mug' : Nref → ℕ}
    (hsame : ∀ ref, r.root.Below r.root.cells.length ref → mug' ref = r.mug mugBytes ref) :
    r.cellMugs = r.root.cells.map fun cel ↦ mugBoth (mug' cel.1) (mug' cel.2) := by
  rw [hok.cellMugs]
  refine List.map_congr_left fun cel hcel ↦ ?_
  obtain ⟨idx, hget⟩ := List.mem_iff_getElem?.mp hcel
  obtain ⟨hlt, -⟩ := List.getElem?_eq_some_iff.mp hget
  obtain ⟨hhed, htal⟩ := hok.cells_below idx cel.1 cel.2 hget
  rw [hsame _ (hhed.mono (.refl _) (Nat.le_of_lt hlt)),
    hsame _ (htal.mono (.refl _) (Nat.le_of_lt hlt))]

theorem ArenaOk.append_atom (hok : ArenaOk mugBytes mugBoth r) (hnot : a ∉ r.root.atoms) :
    ArenaOk mugBytes mugBoth (r.appendAtom a (mugBytes a)) := by
  have hsame : ∀ ref, r.root.Below r.root.cells.length ref →
      (r.appendAtom a (mugBytes a)).mug mugBytes ref = r.mug mugBytes ref :=
    fun ref hbelow ↦ hok.mug_appendAtom a (mugBytes a) hbelow
  have hlength : r.atomMugs.length = r.root.atoms.length := by rw [hok.atomMugs, List.length_map]
  have hnew : (r.appendAtom a (mugBytes a)).mug mugBytes (.iatom r.root.atoms.length) =
      mugBytes a := by
    show (r.atomMugs ++ [mugBytes a]).getD r.root.atoms.length 0 = mugBytes a
    rw [← hlength, getD_append_length]
  have hext : r.root.Extends (r.appendAtom a (mugBytes a)).root :=
    ⟨List.prefix_append _ _, List.prefix_refl _⟩
  refine ⟨?_, hok.cells_nodup, ?_, ?_, ?_, ?_, ?_⟩
  · exact List.nodup_append'.mpr ⟨hok.atoms_nodup, List.nodup_singleton a, by simpa using hnot⟩
  · intro idx hed tal hget
    obtain ⟨hhed, htal⟩ := hok.cells_below idx hed tal hget
    exact ⟨hhed.mono hext (Nat.le_refl _), htal.mono hext (Nat.le_refl _)⟩
  · show r.atomMugs ++ [mugBytes a] = (r.root.atoms ++ [a]).map mugBytes
    rw [hok.atomMugs, List.map_append]
    rfl
  · exact hok.cellMugs_congr hsame
  · have hdict := (hok.atomDict.of_hash_eq fun ref href ↦
      hsame ref (href.below _)).add (.iatom r.root.atoms.length)
    rw [hnew] at hdict
    refine hdict.congr fun ref ↦ ?_
    show r.root.IsAtom ref ∨ ref = _ ↔ ∃ idx, idx < (r.root.atoms ++ [a]).length ∧ ref = .iatom idx
    rw [List.length_append, List.length_singleton]
    constructor
    · rintro (⟨idx, hlt, rfl⟩ | rfl)
      · exact ⟨idx, by omega, rfl⟩
      · exact ⟨_, by omega, rfl⟩
    · rintro ⟨idx, hlt, rfl⟩
      by_cases hidx : idx = r.root.atoms.length
      · exact Or.inr (by rw [hidx])
      · exact Or.inl ⟨idx, by omega, rfl⟩
  · exact hok.cellDict.of_hash_eq fun ref href ↦ hsame ref href.below

/-- `ur_coin_bytes_unsafe()` finds or appends. -/
theorem ArenaOk.coinBytesUnsafe (hok : ArenaOk mugBytes mugBoth r)
    (hcoin : r.coinBytesUnsafe mugBytes fuel a = some (ref, r')) :
    Ur.coinBytesUnsafe r.root a = (ref, r'.root) ∧ ArenaOk mugBytes mugBoth r' := by
  induction fuel generalizing r with
  | zero => simp [Arena.coinBytesUnsafe] at hcoin
  | succ fuel ih =>
    rw [Arena.coinBytesUnsafe] at hcoin
    dsimp only at hcoin
    split at hcoin
    · rename_i tom hfind
      obtain ⟨rfl, rfl⟩ := Prod.mk.inj (Option.some.inj hcoin)
      exact ⟨hok.coin_found hfind, hok⟩
    rename_i hfind
    split at hcoin
    · obtain ⟨dict, hgrow, hcoin⟩ := Option.bind_eq_some_iff.mp hcoin
      have hpos := hok.atomDict.pos
      have hdict := hok.atomDict.grow (by omega) hgrow
      have hok' : ArenaOk mugBytes mugBoth { r with atomDict := dict } :=
        ⟨hok.atoms_nodup, hok.cells_nodup, hok.cells_below, hok.atomMugs, hok.cellMugs, hdict,
          hok.cellDict⟩
      have hstep := ih hok' hcoin
      exact hstep
    · obtain ⟨rfl, rfl⟩ := Prod.mk.inj (Option.some.inj hcoin)
      have hnot := hok.coin_missing hfind
      refine ⟨?_, hok.append_atom hnot⟩
      rw [Ur.coinBytesUnsafe, intern, if_neg hnot]

theorem ArenaOk.append_cell (hok : ArenaOk mugBytes mugBoth r) (hnot : (hed, tal) ∉ r.root.cells)
    (hhed : r.root.Below r.root.cells.length hed) (htal : r.root.Below r.root.cells.length tal) :
    ArenaOk mugBytes mugBoth
      (r.appendCell hed tal (mugBoth (r.mug mugBytes hed) (r.mug mugBytes tal))) := by
  generalize hmug : mugBoth (r.mug mugBytes hed) (r.mug mugBytes tal) = mug
  have hsame : ∀ ref, r.root.Below r.root.cells.length ref →
      (r.appendCell hed tal mug).mug mugBytes ref = r.mug mugBytes ref :=
    fun ref hbelow ↦ hok.mug_appendCell hed tal mug hbelow
  have hlength : r.cellMugs.length = r.root.cells.length := by rw [hok.cellMugs, List.length_map]
  have hnew : (r.appendCell hed tal mug).mug mugBytes (.icell r.root.cells.length) = mug := by
    show (r.cellMugs ++ [mug]).getD r.root.cells.length 0 = mug
    rw [← hlength, getD_append_length]
  have hext : r.root.Extends (r.appendCell hed tal mug).root :=
    ⟨List.prefix_refl _, List.prefix_append _ _⟩
  refine ⟨hok.atoms_nodup, ?_, ?_, hok.atomMugs, ?_, ?_, ?_⟩
  · exact List.nodup_append'.mpr
      ⟨hok.cells_nodup, List.nodup_singleton _, by simpa using hnot⟩
  · intro idx hed' tal' hget
    rcases Nat.lt_trichotomy idx r.root.cells.length with hlt | rfl | hgt
    · replace hget : (r.root.cells ++ [(hed, tal)])[idx]? = some (hed', tal') := hget
      rw [List.getElem?_append_left hlt] at hget
      obtain ⟨hhed', htal'⟩ := hok.cells_below idx hed' tal' hget
      exact ⟨hhed'.mono hext (Nat.le_refl _), htal'.mono hext (Nat.le_refl _)⟩
    · replace hget : (r.root.cells ++ [(hed, tal)])[r.root.cells.length]? = some (hed', tal') :=
        hget
      rw [List.getElem?_concat_length, Option.some.injEq] at hget
      obtain ⟨rfl, rfl⟩ := Prod.mk.inj hget
      exact ⟨hhed.mono hext (Nat.le_refl _), htal.mono hext (Nat.le_refl _)⟩
    · replace hget : (r.root.cells ++ [(hed, tal)])[idx]? = some (hed', tal') := hget
      rw [List.getElem?_eq_none (by simp; omega)] at hget
      simp at hget
  · show r.cellMugs ++ [mug] = (r.root.cells ++ [(hed, tal)]).map _
    rw [List.map_append, ← hok.cellMugs_congr hsame]
    simp only [List.map_cons, List.map_nil, hsame hed hhed, hsame tal htal, hmug]
  · exact hok.atomDict.of_hash_eq fun ref href ↦ hsame ref (href.below _)
  · have hdict := (hok.cellDict.of_hash_eq fun ref href ↦
      hsame ref href.below).add (.icell r.root.cells.length)
    rw [hnew] at hdict
    refine hdict.congr fun ref ↦ ?_
    show r.root.IsCell ref ∨ ref = _ ↔
      ∃ idx, idx < (r.root.cells ++ [(hed, tal)]).length ∧ ref = .icell idx
    rw [List.length_append, List.length_singleton]
    constructor
    · rintro (⟨idx, hlt, rfl⟩ | rfl)
      · exact ⟨idx, by omega, rfl⟩
      · exact ⟨_, by omega, rfl⟩
    · rintro ⟨idx, hlt, rfl⟩
      by_cases hidx : idx = r.root.cells.length
      · exact Or.inr (by rw [hidx])
      · exact Or.inl ⟨idx, by omega, rfl⟩

/-- What is found in its bucket is the cell. -/
theorem ArenaOk.cons_found (hok : ArenaOk mugBytes mugBoth r) {mug : ℕ} {cel : Nref}
    (hfind : (r.cellDict.bucket mug).find? (fun cel ↦ r.root.cell cel = some (hed, tal)) =
      some cel) : Ur.cons r.root hed tal = (cel, r.root) := by
  have hcell : r.root.cell cel = some (hed, tal) := by simpa using List.find?_some hfind
  obtain ⟨⟨idx, hlt, rfl⟩, -⟩ := hok.cellDict.mem _ cel (Nat.mod_lt _ hok.cellDict.pos)
    (List.mem_of_find?_eq_some hfind)
  rw [Ur.cons, intern_of_getElem? hok.cells_nodup hcell]

/-- A cell that is not in its bucket is not there. -/
theorem ArenaOk.cons_missing (hok : ArenaOk mugBytes mugBoth r)
    (hfind : (r.cellDict.bucket (mugBoth (r.mug mugBytes hed) (r.mug mugBytes tal))).find?
      (fun cel ↦ r.root.cell cel = some (hed, tal)) = none) : (hed, tal) ∉ r.root.cells := by
  intro hmem
  obtain ⟨idx, hget⟩ := List.mem_iff_getElem?.mp hmem
  obtain ⟨hlt, -⟩ := List.getElem?_eq_some_iff.mp hget
  have hin := hok.cellDict.has (.icell idx) ⟨idx, hlt, rfl⟩
  rw [hok.mug_icell hget] at hin
  refine List.find?_eq_none.mp hfind _ hin ?_
  exact decide_eq_true hget

/-- `ur_cons()` finds or appends, for references that are there. -/
theorem ArenaOk.cons (hok : ArenaOk mugBytes mugBoth r)
    (hhed : r.root.Below r.root.cells.length hed) (htal : r.root.Below r.root.cells.length tal)
    (hcons : r.cons mugBytes mugBoth fuel hed tal = some (ref, r')) :
    Ur.cons r.root hed tal = (ref, r'.root) ∧ ArenaOk mugBytes mugBoth r' := by
  induction fuel generalizing r with
  | zero => simp [Arena.cons] at hcons
  | succ fuel ih =>
    rw [Arena.cons] at hcons
    dsimp only at hcons
    split at hcons
    · rename_i cel hfind
      obtain ⟨rfl, rfl⟩ := Prod.mk.inj (Option.some.inj hcons)
      exact ⟨hok.cons_found hfind, hok⟩
    rename_i hfind
    split at hcons
    · obtain ⟨dict, hgrow, hcons⟩ := Option.bind_eq_some_iff.mp hcons
      have hpos := hok.cellDict.pos
      have hdict := hok.cellDict.grow (by omega) hgrow
      have hok' : ArenaOk mugBytes mugBoth { r with cellDict := dict } :=
        ⟨hok.atoms_nodup, hok.cells_nodup, hok.cells_below, hok.atomMugs, hok.cellMugs,
          hok.atomDict, hdict⟩
      have hstep := ih hok' hhed htal hcons
      exact hstep
    · obtain ⟨rfl, rfl⟩ := Prod.mk.inj (Option.some.inj hcons)
      have hnot := hok.cons_missing hfind
      refine ⟨?_, hok.append_cell hnot hhed htal⟩
      rw [Ur.cons, intern, if_neg hnot]

end Refinement

end Vere.Ur
