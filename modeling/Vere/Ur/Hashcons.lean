import Mathlib.Algebra.Group.Nat.Defs
import Vere.Lib.Intern
import Vere.Noun.Basic
import Mathlib.Data.Nat.Size

/-!
# The off-loom arena

`ur_root_t`: atoms that are deduplicated and cells that are hash-consed, so that noun references are
unique within a root. `Root.Holds` reads the noun behind a reference. Under `Root.Ok`, which every
operation keeps, one reference holds one noun (`Root.Holds.unique`) and one noun has one reference
(`Root.Ok.ref_unique`).
-/

set_option autoImplicit false

namespace Vere.Ur

open Lib

/-! ### References and roots -/

/-- `ur_nref`: the tag and the index, or the value of a direct atom. -/
inductive Nref
  | direct (a : ℕ)
  | iatom (idx : ℕ)
  | icell (idx : ℕ)
  deriving DecidableEq, Repr

/-- `ur_root_t`, in which the byte arrays are the numbers they spell. -/
structure Root where
  atoms : List ℕ
  cells : List (Nref × Nref)
  deriving Repr

/-- `ur_root_init()`. -/
def rootInit : Root := ⟨[], []⟩

/-- `ur_coin_bytes_unsafe()`: bytes without trailing zeros. -/
def coinBytesUnsafe (r : Root) (a : ℕ) : Nref × Root :=
  let (idx, atoms) := intern r.atoms a
  (.iatom idx, { r with atoms := atoms })

/-- `ur_cons()`. -/
def cons (r : Root) (hed tal : Nref) : Nref × Root :=
  let (idx, cells) := intern r.cells (hed, tal)
  (.icell idx, { r with cells := cells })

/-- The noun of a reference, where the cells that it can lead to are given. -/
def nrefNoun (atoms : List ℕ) (cels : List Noun) : Nref → Noun
  | .direct a => .atom a
  | .iatom idx => .atom (atoms.getD idx 0)
  | .icell idx => cels.getD idx Noun.nul

/-- The nouns of the cells, in the order in which they were consed. -/
def Root.cels (r : Root) : List Noun :=
  r.cells.foldl
    (fun cels cel ↦ cels ++ [.cell (nrefNoun r.atoms cels cel.1) (nrefNoun r.atoms cels cel.2)]) []

/-- The noun of a reference. -/
def Root.noun (r : Root) : Nref → Noun := nrefNoun r.atoms r.cels

/-! ### What a reference holds -/

/-- The noun behind a reference. -/
inductive Root.Holds (r : Root) : Nref → Noun → Prop
  | direct {a : ℕ} (hlt : a < 2 ^ 62) : Root.Holds r (.direct a) (.atom a)
  | iatom {idx a : ℕ} (hget : r.atoms[idx]? = some a) : Root.Holds r (.iatom idx) (.atom a)
  | icell {idx : ℕ} {hed tal : Nref} {h t : Noun} (hget : r.cells[idx]? = some (hed, tal))
      (hhed : Root.Holds r hed h) (htal : Root.Holds r tal t) :
      Root.Holds r (.icell idx) (.cell h t)

/-- The references that can stand in the cell of an index: direct atoms, atoms that are there, and
cells of smaller indices. -/
def Root.Below (r : Root) (idx : ℕ) : Nref → Prop
  | .direct a => a < 2 ^ 62
  | .iatom i => i < r.atoms.length
  | .icell i => i < idx

/-- Atoms are indirect only when they must be, nothing is there twice, and cells are there in the
order in which they were consed. -/
structure Root.Ok (r : Root) : Prop where
  atoms_large : ∀ a ∈ r.atoms, 2 ^ 62 ≤ a
  atoms_nodup : r.atoms.Nodup
  cells_nodup : r.cells.Nodup
  cells_below : ∀ idx hed tal, r.cells[idx]? = some (hed, tal) →
    r.Below idx hed ∧ r.Below idx tal

/-- Everything in a root is in the other one, under the same reference. -/
structure Root.Extends (r r' : Root) : Prop where
  atoms : r.atoms <+: r'.atoms
  cells : r.cells <+: r'.cells

variable {r r' r'' : Root} {ref ref' hed tal : Nref} {n m h t : Noun} {idx idx' a : ℕ}

theorem Root.Extends.refl (r : Root) : r.Extends r :=
  ⟨List.prefix_refl _, List.prefix_refl _⟩

theorem Root.Extends.trans (hfst : r.Extends r') (hsnd : r'.Extends r'') : r.Extends r'' :=
  ⟨hfst.atoms.trans hsnd.atoms, hfst.cells.trans hsnd.cells⟩

theorem getElem?_grow {α : Type*} {l l' : List α} {i : ℕ} {x : α} (hpre : l <+: l')
    (hget : l[i]? = some x) : l'[i]? = some x := by
  obtain ⟨more, rfl⟩ := hpre
  obtain ⟨hlt, -⟩ := List.getElem?_eq_some_iff.mp hget
  rwa [List.getElem?_append_left hlt]

theorem Root.Holds.mono (hext : r.Extends r') (hholds : r.Holds ref n) : r'.Holds ref n := by
  induction hholds with
  | direct hlt => exact .direct hlt
  | iatom hget => exact .iatom (getElem?_grow hext.atoms hget)
  | icell hget _ _ ihh iht => exact .icell (getElem?_grow hext.cells hget) ihh iht

theorem Root.Below.mono (hext : r.Extends r') (hle : idx ≤ idx') (hbelow : r.Below idx ref) :
    r'.Below idx' ref := by
  cases ref with
  | direct a => exact hbelow
  | iatom i => exact Nat.lt_of_lt_of_le hbelow hext.atoms.length_le
  | icell i => exact Nat.lt_of_lt_of_le hbelow hle

theorem Root.Holds.below_length (hholds : r.Holds ref n) : r.Below r.cells.length ref := by
  cases hholds with
  | direct hlt => exact hlt
  | iatom hget => exact (List.getElem?_eq_some_iff.mp hget).1
  | icell hget _ _ => exact (List.getElem?_eq_some_iff.mp hget).1

/-- One reference holds one noun. -/
theorem Root.Holds.unique (hn : r.Holds ref n) (hm : r.Holds ref m) : n = m := by
  induction hn generalizing m with
  | direct _ =>
    cases hm
    rfl
  | iatom hget =>
    cases hm with
    | iatom hget' => rw [Option.some.inj (hget.symm.trans hget')]
  | icell hget _ _ ihh iht =>
    cases hm with
    | icell hget' hhed htal =>
      obtain ⟨rfl, rfl⟩ := Prod.mk.inj (Option.some.inj (hget.symm.trans hget'))
      rw [ihh hhed, iht htal]

/-- One noun has one reference. -/
theorem Root.Ok.ref_unique (hok : r.Ok) (href : r.Holds ref n) (href' : r.Holds ref' n) :
    ref = ref' := by
  induction href generalizing ref' with
  | direct hlt =>
    cases href' with
    | direct _ => rfl
    | iatom hget =>
      have := hok.atoms_large _ (List.mem_of_getElem? hget)
      omega
  | iatom hget =>
    cases href' with
    | direct hlt =>
      have := hok.atoms_large _ (List.mem_of_getElem? hget)
      omega
    | iatom hget' =>
      obtain ⟨hlt, -⟩ := List.getElem?_eq_some_iff.mp hget
      rw [(List.getElem?_inj hlt hok.atoms_nodup).mp (hget.trans hget'.symm)]
  | icell hget _ _ ihh iht =>
    cases href' with
    | icell hget' hhed htal =>
      obtain rfl := ihh hhed
      obtain rfl := iht htal
      obtain ⟨hlt, -⟩ := List.getElem?_eq_some_iff.mp hget
      rw [(List.getElem?_inj hlt hok.cells_nodup).mp (hget.trans hget'.symm)]

/-- Every reference that can stand in a cell holds a noun. -/
theorem Root.Ok.exists_holds (hok : r.Ok) (hbelow : r.Below r.cells.length ref) :
    ∃ n, r.Holds ref n := by
  -- a cell leads to cells of smaller indices
  have hcells : ∀ idx, idx < r.cells.length → ∃ n, r.Holds (.icell idx) n := by
    intro idx
    induction idx using Nat.strongRecOn with
    | _ idx ih =>
      intro hlt
      have hleaf : ∀ {ref}, r.Below idx ref → ∃ n, r.Holds ref n := by
        intro ref hbelow
        cases ref with
        | direct a => exact ⟨_, .direct hbelow⟩
        | iatom i => exact ⟨_, .iatom (List.getElem?_eq_getElem hbelow)⟩
        | icell i => exact ih i hbelow (Nat.lt_trans hbelow hlt)
      have hget : r.cells[idx]? = some (r.cells[idx].1, r.cells[idx].2) :=
        List.getElem?_eq_getElem hlt
      obtain ⟨hhed, htal⟩ := hok.cells_below idx _ _ hget
      obtain ⟨h, hh⟩ := hleaf hhed
      obtain ⟨t, ht⟩ := hleaf htal
      exact ⟨.cell h t, .icell hget hh ht⟩
  cases ref with
  | direct a => exact ⟨_, .direct hbelow⟩
  | iatom i => exact ⟨_, .iatom (List.getElem?_eq_getElem hbelow)⟩
  | icell i => exact hcells i hbelow

/-! ### The operations -/

theorem ok_rootInit : rootInit.Ok where
  atoms_large := by simp [rootInit]
  atoms_nodup := List.nodup_nil
  cells_nodup := List.nodup_nil
  cells_below := by simp [rootInit]

/-- A reference that an operation returns for a noun, in the root it leaves. -/
structure Coined (r : Root) (n : Noun) (res : Nref × Root) : Prop where
  ok : res.2.Ok
  extends_ : r.Extends res.2
  holds : res.2.Holds res.1 n

theorem coined_bytesUnsafe (hok : r.Ok) (hlarge : 2 ^ 62 ≤ a) :
    Coined r (.atom a) (coinBytesUnsafe r a) := by
  have hext : r.Extends (coinBytesUnsafe r a).2 :=
    ⟨prefix_intern r.atoms a, List.prefix_refl _⟩
  refine ⟨⟨?_, nodup_intern hok.atoms_nodup a, hok.cells_nodup, ?_⟩, hext,
    .iatom (getElem?_intern r.atoms a)⟩
  · intro b hb
    obtain ⟨i, hget⟩ := List.mem_iff_getElem?.mp hb
    rcases getElem?_intern_or hget with hold | ⟨-, rfl⟩
    · exact hok.atoms_large b (List.mem_of_getElem? hold)
    · exact hlarge
  · intro idx hed tal hget
    obtain ⟨hhed, htal⟩ := hok.cells_below idx hed tal hget
    exact ⟨hhed.mono hext (Nat.le_refl _), htal.mono hext (Nat.le_refl _)⟩

theorem coined_cons (hok : r.Ok) (hhed : r.Holds hed h) (htal : r.Holds tal t) :
    Coined r (.cell h t) (cons r hed tal) := by
  have hext : r.Extends (cons r hed tal).2 := ⟨List.prefix_refl _, prefix_intern r.cells (hed, tal)⟩
  refine ⟨⟨hok.atoms_large, hok.atoms_nodup, nodup_intern hok.cells_nodup _, ?_⟩, hext,
    .icell (getElem?_intern r.cells (hed, tal)) (hhed.mono hext) (htal.mono hext)⟩
  intro idx hed' tal' hget
  rcases getElem?_intern_or hget with hold | ⟨rfl, heq⟩
  · obtain ⟨hhed', htal'⟩ := hok.cells_below idx hed' tal' hold
    exact ⟨hhed'.mono hext (Nat.le_refl _), htal'.mono hext (Nat.le_refl _)⟩
  · obtain ⟨rfl, rfl⟩ := Prod.mk.inj heq
    exact ⟨hhed.below_length.mono hext (Nat.le_refl _), htal.below_length.mono hext (Nat.le_refl _)⟩

/-! ### The noun of a reference -/

/-- The nouns of a part of the cells, after those of the cells before it. -/
def celsFrom (atoms : List ℕ) (cels : List Noun) (cells : List (Nref × Nref)) : List Noun :=
  cells.foldl
    (fun cels cel ↦ cels ++ [.cell (nrefNoun atoms cels cel.1) (nrefNoun atoms cels cel.2)]) cels

theorem prefix_celsFrom (atoms : List ℕ) (cells : List (Nref × Nref)) (cels : List Noun) :
    cels <+: celsFrom atoms cels cells := by
  induction cells generalizing cels with
  | nil => exact List.prefix_refl cels
  | cons cel cells ih => exact (List.prefix_append cels _).trans (ih _)

theorem length_celsFrom (atoms : List ℕ) (cells : List (Nref × Nref)) (cels : List Noun) :
    (celsFrom atoms cels cells).length = cels.length + cells.length := by
  induction cells generalizing cels with
  | nil => rfl
  | cons cel cells ih =>
    refine (ih _).trans ?_
    simp only [List.length_append, List.length_cons, List.length_nil]
    omega

/-- The noun of a cell is read off the cells before it. -/
theorem getElem?_cels (hget : r.cells[idx]? = some (hed, tal)) : ∃ cels, cels.length = idx ∧
    cels <+: r.cels ∧
      r.cels[idx]? = some (.cell (nrefNoun r.atoms cels hed) (nrefNoun r.atoms cels tal)) := by
  obtain ⟨hlt, heq⟩ := List.getElem?_eq_some_iff.mp hget
  obtain ⟨cels, hcels⟩ : ∃ cels, celsFrom r.atoms [] (r.cells.take idx) = cels := ⟨_, rfl⟩
  have hlength : cels.length = idx := by
    rw [← hcels, length_celsFrom, List.length_nil, List.length_take]
    omega
  have hsplit : r.cells = r.cells.take idx ++ (hed, tal) :: r.cells.drop (idx + 1) := by
    rw [← heq, List.getElem_cons_drop, List.take_append_drop]
  have hall : r.cels = celsFrom r.atoms
      (cels ++ [.cell (nrefNoun r.atoms cels hed) (nrefNoun r.atoms cels tal)])
      (r.cells.drop (idx + 1)) := by
    rw [Root.cels, hsplit, List.foldl_append, List.foldl_cons, ← hsplit]
    rw [celsFrom] at hcels
    rw [hcels, celsFrom]
  have hpre := prefix_celsFrom r.atoms (r.cells.drop (idx + 1))
    (cels ++ [.cell (nrefNoun r.atoms cels hed) (nrefNoun r.atoms cels tal)])
  rw [← hall] at hpre
  refine ⟨cels, hlength, (List.prefix_append cels _).trans hpre, ?_⟩
  refine getElem?_grow hpre ?_
  rw [← hlength]
  exact List.getElem?_concat_length

theorem nrefNoun_grow {cels cels' : List Noun} (hpre : cels <+: cels')
    (hbelow : r.Below cels.length ref) :
    nrefNoun r.atoms cels ref = nrefNoun r.atoms cels' ref := by
  cases ref with
  | direct a => rfl
  | iatom i => rfl
  | icell i =>
    have hget := List.getElem?_eq_getElem hbelow
    rw [nrefNoun, nrefNoun, List.getD_eq_getElem?_getD, List.getD_eq_getElem?_getD, hget,
      getElem?_grow hpre hget]

/-- The function reads what the reference holds. -/
theorem Root.Ok.noun_eq (hok : r.Ok) (hholds : r.Holds ref n) : r.noun ref = n := by
  induction hholds with
  | direct _ => rfl
  | iatom hget => rw [Root.noun, nrefNoun, List.getD_eq_getElem?_getD, hget, Option.getD_some]
  | @icell idx hed tal h t hget hhed htal ihh iht =>
    obtain ⟨cels, rfl, hpre, hcel⟩ := getElem?_cels hget
    obtain ⟨hbelow, hbelow'⟩ := hok.cells_below _ _ _ hget
    rw [Root.noun, nrefNoun, List.getD_eq_getElem?_getD, hcel, Option.getD_some,
      nrefNoun_grow hpre hbelow, nrefNoun_grow hpre hbelow']
    exact congrArg₂ Noun.cell ihh iht

end Vere.Ur
