import Mathlib.Order.Defs.Unbundled
import Mathlib.Order.RelClasses
import Mathlib.Data.List.Basic
import Vere.Lib.Fuel

/-!
# Treaps

A binary tree of nodes is a treap when its keys are strictly ordered from left to right by one
linear order and from parent to child by another. The operations here insert, delete, split, join
and combine such trees, and each is specified by the nodes of its result: `mem_put`, `mem_del`,
`split_spec`, `join_spec`, `dif_spec`, `uni_spec`, `int_spec` and `intSwap_spec`.

The union and the intersections call themselves on trees that other calls return, so they carry
fuel; their specifications say that enough of it gives the result.
-/

set_option autoImplicit false

namespace Vere.Lib.Treap

/-- A binary tree with a value in each node. -/
inductive Tree (α : Type*)
  | nil : Tree α
  | node (n : α) (l r : Tree α) : Tree α
  deriving DecidableEq, Repr

namespace Tree

variable {α : Type*}

/-- The values from left to right. -/
def toList : Tree α → List α
  | nil => []
  | node n l r => l.toList ++ n :: r.toList

/-- The value at the root. -/
def root? : Tree α → Option α
  | nil => none
  | node n _ _ => some n

/-- The number of nodes. -/
def size : Tree α → ℕ
  | nil => 0
  | node _ l r => l.size + r.size + 1

instance : Membership α (Tree α) := ⟨fun t m ↦ m ∈ t.toList⟩

theorem mem_def {m : α} {t : Tree α} : m ∈ t ↔ m ∈ t.toList := Iff.rfl

@[simp] theorem mem_nil {m : α} : ¬ m ∈ (nil : Tree α) := by simp [mem_def, toList]

@[simp] theorem mem_node {m n : α} {l r : Tree α} :
    m ∈ node n l r ↔ m ∈ l ∨ m = n ∨ m ∈ r := by
  simp [mem_def, toList]

@[simp] theorem size_nil : (nil : Tree α).size = 0 := rfl

@[simp] theorem size_node (n : α) (l r : Tree α) : (node n l r).size = l.size + r.size + 1 := rfl

end Tree

open Treap.Tree Fuel

section Orders

variable {κ : Type*} (gor : κ → κ → Prop)

/-- The strict part of the left-to-right order. -/
def Before (a b : κ) : Prop := gor a b ∧ a ≠ b

variable {gor} [IsLinearOrder κ gor] {a b c : κ}

theorem Before.trans (hab : Before gor a b) (hbc : Before gor b c) : Before gor a c := by
  refine ⟨trans_of gor hab.1 hbc.1, ?_⟩
  rintro rfl
  exact hab.2 (antisymm_of gor hab.1 hbc.1)

omit [IsLinearOrder κ gor] in
theorem Before.ne (hab : Before gor a b) : a ≠ b := hab.2

theorem Before.asymm (hab : Before gor a b) : ¬ Before gor b a := fun hba ↦
  hab.2 (antisymm_of gor hab.1 hba.1)

theorem Before.not_gor (hab : Before gor a b) : ¬ gor b a := fun hba ↦
  hab.2 (antisymm_of gor hab.1 hba)

theorem before_of_not_gor (hab : ¬ gor a b) : Before gor b a := by
  refine ⟨(total_of gor a b).resolve_left hab, ?_⟩
  rintro rfl
  exact hab (refl_of gor b)

end Orders

section Invariant

variable {α κ : Type*} (key : α → κ) (gor mor : κ → κ → Prop)

/-- Heap order from parent to child. -/
def Heap : Tree α → Prop
  | nil => True
  | node n l r => (∀ m ∈ l.root?, mor (key n) (key m)) ∧ (∀ m ∈ r.root?, mor (key n) (key m)) ∧
      Heap l ∧ Heap r

/-- The treap invariant: keys strictly ordered from left to right, which excludes duplicates, and
heap order from parent to child. -/
@[mk_iff]
structure IsTreap (t : Tree α) : Prop where
  ordered : (t.toList.map key).Pairwise (Before gor)
  heap : Heap key mor t

/-- The invariant by recursion: each root against all nodes of its subtrees. -/
def Valid : Tree α → Prop
  | nil => True
  | node n l r =>
      (∀ m ∈ l, Before gor (key m) (key n) ∧ mor (key n) (key m)) ∧
      (∀ m ∈ r, Before gor (key n) (key m) ∧ mor (key n) (key m)) ∧ Valid l ∧ Valid r

variable {key gor mor}

theorem Heap.root_mor [IsTrans κ mor] {t : Tree α} (hheap : Heap key mor t) {k : κ}
    (hroot : ∀ n ∈ t.root?, mor k (key n)) : ∀ m ∈ t, mor k (key m) := by
  induction t with
  | nil => simp
  | node n l r ihl ihr =>
    obtain ⟨hl, hr, hheapl, hheapr⟩ := hheap
    have hn : mor k (key n) := hroot n rfl
    intro m hm
    rcases mem_node.mp hm with hml | rfl | hmr
    · exact ihl hheapl (fun c hc ↦ trans_of mor hn (hl c hc)) m hml
    · exact hn
    · exact ihr hheapr (fun c hc ↦ trans_of mor hn (hr c hc)) m hmr

theorem root?_mem {t : Tree α} {n : α} (hroot : n ∈ t.root?) : n ∈ t := by
  cases t with
  | nil => simp [root?] at hroot
  | node m l r =>
    simp only [root?, Option.mem_def, Option.some.injEq] at hroot
    simp [hroot]

/-- The two forms of the invariant agree. -/
theorem isTreap_iff_valid [IsTrans κ mor] {t : Tree α} [IsLinearOrder κ gor] :
    IsTreap key gor mor t ↔ Valid key gor mor t := by
  induction t with
  | nil => simp [Valid, Heap, toList, isTreap_iff]
  | node n l r ihl ihr =>
    constructor
    · rintro ⟨hordered, hl, hr, hheapl, hheapr⟩
      simp only [toList, List.map_append, List.map_cons, List.pairwise_append,
        List.pairwise_cons, List.mem_map, List.mem_cons] at hordered
      obtain ⟨hordl, ⟨hn, hordr⟩, hcross⟩ := hordered
      refine ⟨?_, ?_, ihl.mp ⟨hordl, hheapl⟩, ihr.mp ⟨hordr, hheapr⟩⟩
      · intro m hm
        exact ⟨hcross _ ⟨m, hm, rfl⟩ _ (Or.inl rfl), hheapl.root_mor hl m hm⟩
      · intro m hm
        exact ⟨hn _ ⟨m, hm, rfl⟩, hheapr.root_mor hr m hm⟩
    · rintro ⟨hl, hr, hvl, hvr⟩
      obtain ⟨hordl, hheapl⟩ := ihl.mpr hvl
      obtain ⟨hordr, hheapr⟩ := ihr.mpr hvr
      refine ⟨?_, fun m hm ↦ (hl m (root?_mem hm)).2, fun m hm ↦ (hr m (root?_mem hm)).2,
        hheapl, hheapr⟩
      simp only [toList, List.map_append, List.map_cons, List.pairwise_append,
        List.pairwise_cons, List.mem_map, List.mem_cons]
      refine ⟨hordl, ⟨?_, hordr⟩, ?_⟩
      · rintro _ ⟨m, hm, rfl⟩
        exact (hr m hm).1
      · rintro _ ⟨m, hm, rfl⟩ _ (rfl | ⟨m', hm', rfl⟩)
        · exact (hl m hm).1
        · exact (hl m hm).1.trans (hr m' hm').1

/-- A treap has at most one node for a key. -/
theorem Valid.key_inj [IsLinearOrder κ gor] {t : Tree α} (ht : Valid key gor mor t) {m m' : α}
    (hm : m ∈ t) (hm' : m' ∈ t) (hkey : key m = key m') : m = m' := by
  induction t with
  | nil => simp at hm
  | node n l r ihl ihr =>
    obtain ⟨hl, hr, hvl, hvr⟩ := ht
    rcases mem_node.mp hm with hml | rfl | hmr <;> rcases mem_node.mp hm' with hml' | rfl | hmr'
    · exact ihl hvl hml hml'
    · exact absurd hkey (hl _ hml).1.ne
    · exact absurd hkey ((hl _ hml).1.trans (hr _ hmr').1).ne
    · exact absurd hkey.symm (hl _ hml').1.ne
    · rfl
    · exact absurd hkey (hr _ hmr').1.ne
    · exact absurd hkey.symm ((hl _ hml').1.trans (hr _ hmr).1).ne
    · exact absurd hkey.symm (hr _ hmr).1.ne
    · exact ihr hvr hmr hmr'

/-- The nodes on the left of the root. -/
theorem Valid.mem_left_iff [IsLinearOrder κ gor] {n m : α} {l r : Tree α}
    (ht : Valid key gor mor (node n l r)) :
    m ∈ l ↔ m ∈ node n l r ∧ Before gor (key m) (key n) := by
  obtain ⟨hl, hr, -, -⟩ := ht
  refine ⟨fun hm ↦ ⟨mem_node.mpr (Or.inl hm), (hl m hm).1⟩, ?_⟩
  rintro ⟨hm, hbefore⟩
  rcases mem_node.mp hm with hml | rfl | hmr
  · exact hml
  · exact absurd rfl hbefore.ne
  · exact absurd hbefore (hr m hmr).1.asymm

/-- The nodes on the right of the root. -/
theorem Valid.mem_right_iff [IsLinearOrder κ gor] {n m : α} {l r : Tree α}
    (ht : Valid key gor mor (node n l r)) :
    m ∈ r ↔ m ∈ node n l r ∧ Before gor (key n) (key m) := by
  obtain ⟨hl, hr, -, -⟩ := ht
  refine ⟨fun hm ↦ ⟨mem_node.mpr (Or.inr (Or.inr hm)), (hr m hm).1⟩, ?_⟩
  rintro ⟨hm, hbefore⟩
  rcases mem_node.mp hm with hml | rfl | hmr
  · exact absurd hbefore (hl m hml).1.asymm
  · exact absurd rfl hbefore.ne
  · exact hmr

theorem Valid.root_mor [IsLinearOrder κ mor] {n m : α} {l r : Tree α}
    (ht : Valid key gor mor (node n l r)) (hm : m ∈ node n l r) : mor (key n) (key m) := by
  obtain ⟨hl, hr, -, -⟩ := ht
  rcases mem_node.mp hm with hml | rfl | hmr
  · exact (hl m hml).2
  · exact refl_of mor (key m)
  · exact (hr m hmr).2

/-- The nodes of a treap determine its shape. -/
theorem Valid.unique [IsLinearOrder κ gor] [IsLinearOrder κ mor] {t t' : Tree α}
    (ht : Valid key gor mor t) (ht' : Valid key gor mor t') (hmem : ∀ m, m ∈ t ↔ m ∈ t') :
    t = t' := by
  induction t generalizing t' with
  | nil =>
    cases t' with
    | nil => rfl
    | node n' l' r' => exact absurd ((hmem n').mpr (by simp)) mem_nil
  | node n l r ihl ihr =>
    cases t' with
    | nil => exact absurd ((hmem n).mp (by simp)) mem_nil
    | node n' l' r' =>
      have hn : n ∈ node n' l' r' := (hmem n).mp (by simp)
      have hn' : n' ∈ node n l r := (hmem n').mpr (by simp)
      have hkey : key n = key n' := antisymm_of mor (ht.root_mor hn') (ht'.root_mor hn)
      obtain rfl : n = n' := ht.key_inj (by simp) hn' hkey
      have hl : l = l' := ihl ht.2.2.1 ht'.2.2.1 fun m ↦ by
        rw [ht.mem_left_iff, ht'.mem_left_iff, hmem]
      have hr : r = r' := ihr ht.2.2.2 ht'.2.2.2 fun m ↦ by
        rw [ht.mem_right_iff, ht'.mem_right_iff, hmem]
      rw [hl, hr]

end Invariant

/-! ### Insertion and deletion -/

section Operations

variable {α κ : Type*} [DecidableEq κ] (key : α → κ)
variable (gor mor : κ → κ → Prop) [DecidableRel gor] [DecidableRel mor]

/-- A root over a new left subtree, rotated to the right when the heap order asks for it. -/
def hangLeft (n : α) (l r : Tree α) : Tree α :=
  match l with
  | nil => node n nil r
  | node m lm rm => if mor (key n) (key m) then node n l r else node m lm (node n rm r)

/-- A root over a new right subtree, rotated to the left when the heap order asks for it. -/
def hangRight (n : α) (l r : Tree α) : Tree α :=
  match r with
  | nil => node n l nil
  | node m lm rm => if mor (key n) (key m) then node n l r else node m (node n l lm) rm

/-- Insert a node, replacing the node of the same key. -/
def put (n : α) : Tree α → Tree α
  | nil => node n nil nil
  | node m l r =>
    if key m = key n then node n l r
    else if gor (key n) (key m) then hangLeft key mor m (put n l) r
    else hangRight key mor m l (put n r)

/-- Join two treaps, all keys of the first before all keys of the second. -/
def join (d e : Tree α) : Tree α :=
  match d, e with
  | nil, e => e
  | node n l r, nil => node n l r
  | node n l r, node m lm rm =>
    if mor (key n) (key m) then node n l (join r (node m lm rm))
    else node m (join (node n l r) lm) rm
termination_by d.size + e.size
decreasing_by all_goals simp only [size_node]; omega

/-- Remove the node of a key. -/
def del (k : κ) : Tree α → Tree α
  | nil => nil
  | node m l r =>
    if key m = k then join key mor l r
    else if gor k (key m) then node m (del k l) r
    else node m l (del k r)

/-- The nodes before a key and the nodes after it. -/
def split (k : κ) : Tree α → Tree α × Tree α
  | nil => (nil, nil)
  | node m l r =>
    if k = key m then (l, r)
    else if gor k (key m) then ((split k l).1, node m (split k l).2 r)
    else (node m l (split k r).1, (split k r).2)

/-- Remove the keys of the second treap from the first. -/
def dif (a : Tree α) : Tree α → Tree α
  | nil => a
  | node n l r =>
    let c := split key gor (key n) a
    join key mor (dif c.1 l) (dif c.2 r)

variable {key gor mor} [IsLinearOrder κ gor] [IsLinearOrder κ mor]

section

omit [DecidableEq κ] [DecidableRel gor] [IsLinearOrder κ gor] [IsLinearOrder κ mor]

theorem mem_hangLeft {n m : α} {l r : Tree α} :
    m ∈ hangLeft key mor n l r ↔ m ∈ l ∨ m = n ∨ m ∈ r := by
  cases l with
  | nil => simp [hangLeft]
  | node d lm rm =>
    simp only [hangLeft]
    split_ifs
    · exact mem_node
    · simp only [mem_node]
      tauto

theorem mem_hangRight {n m : α} {l r : Tree α} :
    m ∈ hangRight key mor n l r ↔ m ∈ l ∨ m = n ∨ m ∈ r := by
  cases r with
  | nil => simp [hangRight]
  | node d lm rm =>
    simp only [hangRight]
    split_ifs
    · exact mem_node
    · simp only [mem_node]
      tauto

theorem hangLeft_eq_node (n : α) (l r : Tree α) :
    ∃ d ld rd, hangLeft key mor n l r = node d ld rd := by
  unfold hangLeft
  split
  · exact ⟨_, _, _, rfl⟩
  · split_ifs <;> exact ⟨_, _, _, rfl⟩

theorem hangRight_eq_node (n : α) (l r : Tree α) :
    ∃ d ld rd, hangRight key mor n l r = node d ld rd := by
  unfold hangRight
  split
  · exact ⟨_, _, _, rfl⟩
  · split_ifs <;> exact ⟨_, _, _, rfl⟩

end

omit [IsLinearOrder κ gor] [IsLinearOrder κ mor] in
theorem put_eq_node (n : α) (t : Tree α) : ∃ d ld rd, put key gor mor n t = node d ld rd := by
  unfold put
  split
  · exact ⟨_, _, _, rfl⟩
  · split_ifs
    · exact ⟨_, _, _, rfl⟩
    · exact hangLeft_eq_node _ _ _
    · exact hangRight_eq_node _ _ _

omit [DecidableEq κ] [DecidableRel gor] in
/-- Hanging a treap to the left of a root. One node of it, the new one, may be above that root. -/
theorem valid_hangLeft {n : α} (new : α) {l r : Tree α} (hvl : Valid key gor mor l)
    (hvr : Valid key gor mor r)
    (hl : ∀ m ∈ l, Before gor (key m) (key n) ∧ (m = new ∨ mor (key n) (key m)))
    (hr : ∀ m ∈ r, Before gor (key n) (key m) ∧ mor (key n) (key m)) :
    Valid key gor mor (hangLeft key mor n l r) := by
  cases l with
  | nil => exact ⟨by simp, hr, trivial, hvr⟩
  | node d lm rm =>
    obtain ⟨hlm, hrm, hvlm, hvrm⟩ := hvl
    have hd := hl d (by simp)
    simp only [hangLeft]
    split_ifs with hmor
    · refine ⟨fun m hm ↦ ⟨(hl m hm).1, ?_⟩, hr, ⟨hlm, hrm, hvlm, hvrm⟩, hvr⟩
      rcases mem_node.mp hm with hm | rfl | hm
      · exact trans_of mor hmor (hlm m hm).2
      · exact hmor
      · exact trans_of mor hmor (hrm m hm).2
    · have hnew : d = new := hd.2.resolve_right hmor
      have habove : mor (key d) (key n) := (total_of mor _ _).resolve_left hmor
      refine ⟨hlm, ?_, hvlm, ⟨?_, hr, hvrm, hvr⟩⟩
      · intro m hm
        rcases mem_node.mp hm with hm | rfl | hm
        · exact hrm m hm
        · exact ⟨hd.1, habove⟩
        · exact ⟨hd.1.trans (hr m hm).1, trans_of mor habove (hr m hm).2⟩
      · intro m hm
        have hmem := hl m (by simp [hm])
        refine ⟨hmem.1, hmem.2.resolve_left ?_⟩
        rintro rfl
        exact (hrm m hm).1.ne (congrArg key hnew)

omit [DecidableEq κ] [DecidableRel gor] in
/-- Hanging a treap to the right of a root. One node of it, the new one, may be above that root. -/
theorem valid_hangRight {n : α} (new : α) {l r : Tree α} (hvl : Valid key gor mor l)
    (hvr : Valid key gor mor r)
    (hl : ∀ m ∈ l, Before gor (key m) (key n) ∧ mor (key n) (key m))
    (hr : ∀ m ∈ r, Before gor (key n) (key m) ∧ (m = new ∨ mor (key n) (key m))) :
    Valid key gor mor (hangRight key mor n l r) := by
  cases r with
  | nil => exact ⟨hl, by simp, hvl, trivial⟩
  | node d lm rm =>
    obtain ⟨hlm, hrm, hvlm, hvrm⟩ := hvr
    have hd := hr d (by simp)
    simp only [hangRight]
    split_ifs with hmor
    · refine ⟨hl, fun m hm ↦ ⟨(hr m hm).1, ?_⟩, hvl, ⟨hlm, hrm, hvlm, hvrm⟩⟩
      rcases mem_node.mp hm with hm | rfl | hm
      · exact trans_of mor hmor (hlm m hm).2
      · exact hmor
      · exact trans_of mor hmor (hrm m hm).2
    · have hnew : d = new := hd.2.resolve_right hmor
      have habove : mor (key d) (key n) := (total_of mor _ _).resolve_left hmor
      refine ⟨?_, hrm, ⟨hl, ?_, hvl, hvlm⟩, hvrm⟩
      · intro m hm
        rcases mem_node.mp hm with hm | rfl | hm
        · exact ⟨(hl m hm).1.trans hd.1, trans_of mor habove (hl m hm).2⟩
        · exact ⟨hd.1, habove⟩
        · exact hlm m hm
      · intro m hm
        have hmem := hr m (by simp [hm])
        refine ⟨hmem.1, hmem.2.resolve_left ?_⟩
        rintro rfl
        exact (hlm m hm).1.ne (congrArg key hnew.symm)

omit [IsLinearOrder κ mor] in
theorem mem_put {t : Tree α} (ht : Valid key gor mor t) (n m : α) :
    m ∈ put key gor mor n t ↔ m = n ∨ m ∈ t ∧ key m ≠ key n := by
  induction t with
  | nil => simp [put]
  | node d l r ihl ihr =>
    obtain ⟨hl, hr, hvl, hvr⟩ := ht
    have hleft : m ∈ l → key m ≠ key d := fun hm ↦ (hl m hm).1.ne
    have hright : m ∈ r → key m ≠ key d := fun hm ↦ (hr m hm).1.ne.symm
    simp only [put]
    split_ifs with hkey hgor
    · simp only [mem_node]
      grind
    · have hafter : m ∈ r → key m ≠ key n := fun hm heq ↦
        (hr m hm).1.not_gor (heq ▸ hgor)
      rw [mem_hangLeft, ihl hvl, mem_node]
      grind
    · have hbefore : m ∈ l → key m ≠ key n := fun hm heq ↦
        hgor (heq ▸ (hl m hm).1.1)
      rw [mem_hangRight, ihr hvr, mem_node]
      grind

theorem valid_put {t : Tree α} (ht : Valid key gor mor t) (n : α) :
    Valid key gor mor (put key gor mor n t) := by
  induction t with
  | nil => exact ⟨by simp, by simp, trivial, trivial⟩
  | node d l r ihl ihr =>
    obtain ⟨hl, hr, hvl, hvr⟩ := ht
    simp only [put]
    split_ifs with hkey hgor
    · exact ⟨by simpa only [← hkey] using hl, by simpa only [← hkey] using hr, hvl, hvr⟩
    · refine valid_hangLeft n (ihl hvl) hvr ?_ hr
      intro m hm
      rcases (mem_put hvl n m).mp hm with rfl | ⟨hm, _⟩
      · exact ⟨⟨hgor, fun heq ↦ hkey heq.symm⟩, Or.inl rfl⟩
      · exact ⟨(hl m hm).1, Or.inr (hl m hm).2⟩
    · refine valid_hangRight n hvl (ihr hvr) hl ?_
      intro m hm
      rcases (mem_put hvr n m).mp hm with rfl | ⟨hm, _⟩
      · exact ⟨before_of_not_gor hgor, Or.inl rfl⟩
      · exact ⟨(hr m hm).1, Or.inr (hr m hm).2⟩

omit [DecidableEq κ] [DecidableRel gor] [IsLinearOrder κ gor] in
/-- Joining two treaps keeps the invariant and all nodes. -/
theorem join_spec {d e : Tree α} (hd : Valid key gor mor d) (he : Valid key gor mor e)
    (hde : ∀ m ∈ d, ∀ m' ∈ e, Before gor (key m) (key m')) :
    Valid key gor mor (join key mor d e) ∧ ∀ m, m ∈ join key mor d e ↔ m ∈ d ∨ m ∈ e := by
  fun_induction join key mor d e with
  | case1 e => exact ⟨he, by simp⟩
  | case2 n l r => exact ⟨hd, by simp⟩
  | case3 n l r m lm rm hmor ih =>
    obtain ⟨hl, hr, hvl, hvr⟩ := hd
    obtain ⟨hvalid, hmem⟩ := ih hvr he fun x hx y hy ↦ hde x (by simp [hx]) y hy
    refine ⟨⟨hl, ?_, hvl, hvalid⟩, ?_⟩
    · intro x hx
      rcases (hmem x).mp hx with hx | hx
      · exact hr x hx
      · refine ⟨hde n (by simp) x hx, ?_⟩
        rcases mem_node.mp hx with hx | rfl | hx
        · exact trans_of mor hmor (he.1 x hx).2
        · exact hmor
        · exact trans_of mor hmor (he.2.1 x hx).2
    · intro x
      simp only [mem_node, hmem]
      tauto
  | case4 n l r m lm rm hmor ih =>
    obtain ⟨hlm, hrm, hvlm, hvrm⟩ := he
    have habove : mor (key m) (key n) := (total_of mor _ _).resolve_left hmor
    obtain ⟨hvalid, hmem⟩ := ih hd hvlm fun x hx y hy ↦ hde x hx y (by simp [hy])
    refine ⟨⟨?_, hrm, hvalid, hvrm⟩, ?_⟩
    · intro x hx
      rcases (hmem x).mp hx with hx | hx
      · refine ⟨hde x hx m (by simp), ?_⟩
        rcases mem_node.mp hx with hx | rfl | hx
        · exact trans_of mor habove (hd.1 x hx).2
        · exact habove
        · exact trans_of mor habove (hd.2.1 x hx).2
      · exact hlm x hx
    · intro x
      simp only [mem_node, hmem]
      tauto

/-- Deleting a key removes exactly its node. -/
theorem del_spec {t : Tree α} (ht : Valid key gor mor t) (k : κ) :
    Valid key gor mor (del key gor mor k t) ∧
      ∀ m, m ∈ del key gor mor k t ↔ m ∈ t ∧ key m ≠ k := by
  induction t with
  | nil => exact ⟨trivial, by simp [del]⟩
  | node d l r ihl ihr =>
    obtain ⟨hl, hr, hvl, hvr⟩ := ht
    obtain ⟨hvalidl, hmeml⟩ := ihl hvl
    obtain ⟨hvalidr, hmemr⟩ := ihr hvr
    have hleft : ∀ m ∈ l, key m ≠ key d := fun m hm ↦ (hl m hm).1.ne
    have hright : ∀ m ∈ r, key m ≠ key d := fun m hm ↦ (hr m hm).1.ne.symm
    simp only [del]
    split_ifs with hkey hgor
    · obtain ⟨hvalid, hmem⟩ := join_spec hvl hvr fun m hm m' hm' ↦ (hl m hm).1.trans (hr m' hm').1
      refine ⟨hvalid, fun m ↦ ?_⟩
      rw [hmem, mem_node, ← hkey]
      grind
    · refine ⟨⟨fun m hm ↦ hl m ((hmeml m).mp hm).1, hr, hvalidl, hvr⟩, fun m ↦ ?_⟩
      have hafter : m ∈ r → key m ≠ k := fun hm heq ↦ (hr m hm).1.not_gor (heq ▸ hgor)
      rw [mem_node, mem_node, hmeml]
      grind
    · refine ⟨⟨hl, fun m hm ↦ hr m ((hmemr m).mp hm).1, hvl, hvalidr⟩, fun m ↦ ?_⟩
      have hbefore : m ∈ l → key m ≠ k := fun hm heq ↦ hgor (heq ▸ (hl m hm).1.1)
      rw [mem_node, mem_node, hmemr]
      grind

omit [DecidableRel mor] [IsLinearOrder κ mor] in
/-- Splitting separates the nodes before a key from the nodes after it. -/
theorem split_spec {t : Tree α} (ht : Valid key gor mor t) (k : κ) :
    Valid key gor mor (split key gor k t).1 ∧ Valid key gor mor (split key gor k t).2 ∧
      (∀ m, m ∈ (split key gor k t).1 ↔ m ∈ t ∧ Before gor (key m) k) ∧
      ∀ m, m ∈ (split key gor k t).2 ↔ m ∈ t ∧ Before gor k (key m) := by
  induction t with
  | nil => exact ⟨trivial, trivial, by simp [split], by simp [split]⟩
  | node d l r ihl ihr =>
    obtain ⟨hl, hr, hvl, hvr⟩ := ht
    simp only [split]
    split_ifs with hkey hgor
    · subst hkey
      refine ⟨hvl, hvr, fun m ↦ ?_, fun m ↦ ?_⟩
      · have hbefore : m ∈ l → Before gor (key m) (key d) := fun hm ↦ (hl m hm).1
        have hafter : m ∈ r → ¬ Before gor (key m) (key d) := fun hm ↦ (hr m hm).1.asymm
        have hself : m = d → ¬ Before gor (key m) (key d) := fun heq hlt ↦ hlt.ne (heq ▸ rfl)
        rw [mem_node]
        tauto
      · have hbefore : m ∈ l → ¬ Before gor (key d) (key m) := fun hm ↦ (hl m hm).1.asymm
        have hafter : m ∈ r → Before gor (key d) (key m) := fun hm ↦ (hr m hm).1
        have hself : m = d → ¬ Before gor (key d) (key m) := fun heq hlt ↦ hlt.ne (heq ▸ rfl)
        rw [mem_node]
        tauto
    · have hlt : Before gor k (key d) := ⟨hgor, hkey⟩
      obtain ⟨hvalid, hvalid', hmem, hmem'⟩ := ihl hvl
      refine ⟨hvalid, ⟨fun m hm ↦ hl m ((hmem' m).mp hm).1, hr, hvalid', hvr⟩, fun m ↦ ?_,
        fun m ↦ ?_⟩
      · have hafter : m ∈ r → ¬ Before gor (key m) k := fun hm ↦ (hlt.trans (hr m hm).1).asymm
        have hself : m = d → ¬ Before gor (key m) k := fun heq ↦ heq ▸ hlt.asymm
        rw [hmem, mem_node]
        tauto
      · have hafter : m ∈ r → Before gor k (key m) := fun hm ↦ hlt.trans (hr m hm).1
        have hself : m = d → Before gor k (key m) := fun heq ↦ heq ▸ hlt
        rw [mem_node, mem_node, hmem']
        tauto
    · have hlt : Before gor (key d) k := before_of_not_gor hgor
      obtain ⟨hvalid, hvalid', hmem, hmem'⟩ := ihr hvr
      refine ⟨⟨hl, fun m hm ↦ hr m ((hmem m).mp hm).1, hvl, hvalid⟩, hvalid', fun m ↦ ?_,
        fun m ↦ ?_⟩
      · have hbefore : m ∈ l → Before gor (key m) k := fun hm ↦ (hl m hm).1.trans hlt
        have hself : m = d → Before gor (key m) k := fun heq ↦ heq ▸ hlt
        rw [mem_node, mem_node, hmem]
        tauto
      · have hbefore : m ∈ l → ¬ Before gor k (key m) := fun hm ↦ ((hl m hm).1.trans hlt).asymm
        have hself : m = d → ¬ Before gor k (key m) := fun heq ↦ heq ▸ hlt.asymm
        rw [hmem', mem_node]
        tauto

/-- The difference keeps exactly the nodes whose key is not in the second treap. -/
theorem dif_spec {a b : Tree α} (ha : Valid key gor mor a) (hb : Valid key gor mor b) :
    Valid key gor mor (dif key gor mor a b) ∧
      ∀ m, m ∈ dif key gor mor a b ↔ m ∈ a ∧ ∀ m' ∈ b, key m' ≠ key m := by
  induction b generalizing a with
  | nil => exact ⟨ha, by simp [dif]⟩
  | node n l r ihl ihr =>
    obtain ⟨hl, hr, hvl, hvr⟩ := hb
    obtain ⟨hsplit, hsplit', hmem, hmem'⟩ := split_spec ha (key n)
    obtain ⟨hvalidl, hmeml⟩ := ihl hsplit hvl
    obtain ⟨hvalidr, hmemr⟩ := ihr hsplit' hvr
    obtain ⟨hvalid, hjoin⟩ := join_spec hvalidl hvalidr (by
      intro m hm m' hm'
      have hbefore := ((hmem m).mp ((hmeml m).mp hm).1).2
      have hafter := ((hmem' m').mp ((hmemr m').mp hm').1).2
      exact hbefore.trans hafter)
    refine ⟨hvalid, fun m ↦ ?_⟩
    simp only [dif]
    rw [hjoin, hmeml, hmemr, hmem, hmem']
    constructor
    · rintro (⟨⟨hm, hlt⟩, hnot⟩ | ⟨⟨hm, hlt⟩, hnot⟩)
      · refine ⟨hm, fun m' hm' ↦ ?_⟩
        rcases mem_node.mp hm' with hm' | rfl | hm'
        · exact hnot m' hm'
        · exact hlt.ne.symm
        · exact (hlt.trans (hr m' hm').1).ne.symm
      · refine ⟨hm, fun m' hm' ↦ ?_⟩
        rcases mem_node.mp hm' with hm' | rfl | hm'
        · exact ((hl m' hm').1.trans hlt).ne
        · exact hlt.ne
        · exact hnot m' hm'
    · rintro ⟨hm, hnot⟩
      by_cases hgor : gor (key m) (key n)
      · exact Or.inl ⟨⟨hm, hgor, (hnot n (by simp)).symm⟩, fun m' hm' ↦ hnot m' (by simp [hm'])⟩
      · exact Or.inr ⟨⟨hm, before_of_not_gor hgor⟩, fun m' hm' ↦ hnot m' (by simp [hm'])⟩

end Operations

/-! ### Left and right exchanged -/

section Mirror

variable {α κ : Type*} {key : α → κ} {gor mor : κ → κ → Prop}

/-- The mirror image of a tree. -/
def mirror : Tree α → Tree α
  | nil => nil
  | node n l r => node n (mirror r) (mirror l)

@[simp] theorem mem_mirror {m : α} {t : Tree α} : m ∈ mirror t ↔ m ∈ t := by
  induction t with
  | nil => rfl
  | node n l r ihl ihr =>
    simp only [mirror, mem_node, ihl, ihr]
    tauto

@[simp] theorem size_mirror (t : Tree α) : (mirror t).size = t.size := by
  induction t with
  | nil => rfl
  | node n l r ihl ihr =>
    simp only [mirror, size_node, ihl, ihr]
    omega

theorem before_swap {a b : κ} : Before (Function.swap gor) a b ↔ Before gor b a :=
  and_congr_right fun _ ↦ ne_comm

/-- The mirror image of a treap is a treap for the opposite order. -/
theorem valid_mirror {t : Tree α} :
    Valid key (Function.swap gor) mor (mirror t) ↔ Valid key gor mor t := by
  induction t with
  | nil => exact Iff.rfl
  | node n l r ihl ihr =>
    simp only [mirror, Valid, mem_mirror, before_swap, ihl, ihr]
    tauto

end Mirror

/-! ### Union -/

section Union

variable {α κ : Type*} [DecidableEq κ] (key : α → κ)
variable (gor mor : κ → κ → Prop) [DecidableRel gor] [DecidableRel mor]

/-- The union of two treaps; a node of the second replaces the node of the same key. -/
def uni : ℕ → Tree α → Tree α → Option (Tree α)
  | 0, _, _ => none
  | _ + 1, a, nil => some a
  | _ + 1, nil, b => some b
  | fuel + 1, node n l r, node m lm rm =>
    if key n = key m then do
      let l' ← uni fuel l lm
      let r' ← uni fuel r rm
      some (node m l' r')
    else if mor (key n) (key m) then
      if gor (key m) (key n) then do
        let l' ← uni fuel l (node m lm nil)
        uni fuel (node n l' r) rm
      else do
        let r' ← uni fuel r (node m nil rm)
        uni fuel (node n l r') lm
    else if gor (key n) (key m) then do
      let lm' ← uni fuel (node n l nil) lm
      uni fuel r (node m lm' rm)
    else do
      let rm' ← uni fuel (node n nil r) rm
      uni fuel l (node m lm rm')

/-- The union of two treaps, with the first returned at once when the two are equal. -/
def uniSing [DecidableEq α] (fuel : ℕ) (a b : Tree α) : Option (Tree α) :=
  if a = b then some a else uni key gor mor fuel a b

/-- What a union is: a treap with the nodes of `b` and those of `a` whose key is not in `b`, no
larger than the two together. -/
structure IsUni (a b c : Tree α) : Prop where
  valid : Valid key gor mor c
  mem : ∀ m, m ∈ c ↔ m ∈ b ∨ m ∈ a ∧ ∀ m' ∈ b, key m' ≠ key m
  size_le : c.size ≤ a.size + b.size

/-- The size of the treap whose root is the lower one. -/
def lower : Tree α → Tree α → ℕ
  | node n l r, node m lm rm =>
    if mor (key n) (key m) then (node m lm rm).size else (node n l r).size
  | _, _ => 0

variable {key gor mor}

omit [DecidableEq κ] in
/-- A union in two parts: the nodes `b₁` of the second operand are united with the nodes `a₁` of
the first, and the rest `b₂` with the outcome. -/
theorem mem_union_of_first {a₁ a₂ b₁ b₂ c₁ c : α → Prop}
    (hab : ∀ x y, a₂ x → b₁ y → key y ≠ key x) (hbb : ∀ x y, b₁ x → b₂ y → key y ≠ key x)
    (hc₁ : ∀ x, c₁ x ↔ b₁ x ∨ a₁ x ∧ ∀ y, b₁ y → key y ≠ key x)
    (hc : ∀ x, c x ↔ b₂ x ∨ (a₂ x ∨ c₁ x) ∧ ∀ y, b₂ y → key y ≠ key x) (x : α) :
    c x ↔ (b₁ x ∨ b₂ x) ∨ (a₁ x ∨ a₂ x) ∧ ∀ y, b₁ y ∨ b₂ y → key y ≠ key x := by
  grind

omit [DecidableEq κ] in
/-- A union in two parts: the nodes `a₁` of the first operand are united with the nodes `b₁` of the
second, and the rest `a₂` with the outcome. -/
theorem mem_union_of_second {a₁ a₂ b₁ b₂ c₁ c : α → Prop}
    (hab : ∀ x y, a₁ x → b₂ y → key y ≠ key x) (haa : ∀ x y, a₁ x → a₂ y → key y ≠ key x)
    (hc₁ : ∀ x, c₁ x ↔ b₁ x ∨ a₁ x ∧ ∀ y, b₁ y → key y ≠ key x)
    (hc : ∀ x, c x ↔ (c₁ x ∨ b₂ x) ∨ a₂ x ∧ ∀ y, c₁ y ∨ b₂ y → key y ≠ key x) (x : α) :
    c x ↔ (b₁ x ∨ b₂ x) ∨ (a₁ x ∨ a₂ x) ∧ ∀ y, b₁ y ∨ b₂ y → key y ≠ key x := by
  grind

variable [IsLinearOrder κ gor] [IsLinearOrder κ mor]
variable {n m : α} {l r lm rm : Tree α}

section

omit [DecidableEq κ] [DecidableRel gor] [DecidableRel mor]

omit [IsLinearOrder κ mor] in
theorem IsUni.root_eq (ha : Valid key gor mor (node n l r)) (hb : Valid key gor mor (node m lm rm))
    (hkey : key n = key m) {l' r' : Tree α} (hl' : IsUni key gor mor l lm l')
    (hr' : IsUni key gor mor r rm r') :
    IsUni key gor mor (node n l r) (node m lm rm) (node m l' r') := by
  obtain ⟨hl, hr, _, _⟩ := ha
  obtain ⟨hlm, hrm, _, _⟩ := hb
  rw [hkey] at hl hr
  refine ⟨⟨?_, ?_, hl'.valid, hr'.valid⟩, fun x ↦ ?_, ?_⟩
  · intro x hx
    rcases (hl'.mem x).mp hx with hx | ⟨hx, _⟩
    · exact hlm x hx
    · exact hl x hx
  · intro x hx
    rcases (hr'.mem x).mp hx with hx | ⟨hx, _⟩
    · exact hrm x hx
    · exact hr x hx
  · have hleft : x ∈ l → ∀ y ∈ rm, key y ≠ key x := fun hx y hy ↦
      ((hl x hx).1.trans (hrm y hy).1).ne.symm
    have hright : x ∈ r → ∀ y ∈ lm, key y ≠ key x := fun hx y hy ↦
      ((hlm y hy).1.trans (hr x hx).1).ne
    have hleft' : x ∈ l → key m ≠ key x := fun hx ↦ (hl x hx).1.ne.symm
    have hright' : x ∈ r → key m ≠ key x := fun hx ↦ (hr x hx).1.ne
    simp only [mem_node, hl'.mem, hr'.mem]
    grind
  · have hsizel := hl'.size_le
    have hsizer := hr'.size_le
    simp only [size_node]
    omega

/-- The left part of the lower second treap goes to the left of the first root. -/
theorem IsUni.first_left (ha : Valid key gor mor (node n l r))
    (hb : Valid key gor mor (node m lm rm)) (hmor : mor (key n) (key m))
    (hlt : Before gor (key m) (key n)) {l' : Tree α}
    (hl' : IsUni key gor mor l (node m lm nil) l') :
    Valid key gor mor (node n l' r) ∧ (node n l' r).size ≤ (node n l r).size + lm.size + 1 ∧
      ∀ c, IsUni key gor mor (node n l' r) rm c →
        IsUni key gor mor (node n l r) (node m lm rm) c := by
  obtain ⟨hl, hr, _, hvr⟩ := ha
  obtain ⟨hlm, hrm, _, _⟩ := hb
  have hpart : ∀ y ∈ node m lm nil, Before gor (key y) (key n) ∧ mor (key n) (key y) := by
    intro y hy
    rcases mem_node.mp hy with hy | rfl | hy
    · exact ⟨(hlm y hy).1.trans hlt, trans_of mor hmor (hlm y hy).2⟩
    · exact ⟨hlt, hmor⟩
    · exact absurd hy mem_nil
  have hsize := hl'.size_le
  simp only [size_node, size_nil] at hsize ⊢
  refine ⟨⟨?_, hr, hl'.valid, hvr⟩, by omega, fun c hc ↦ ⟨hc.valid, fun x ↦ ?_, ?_⟩⟩
  · intro x hx
    rcases (hl'.mem x).mp hx with hx | ⟨hx, _⟩
    · exact hpart x hx
    · exact hl x hx
  · have hab : ∀ x y, x = n ∨ x ∈ r → y ∈ node m lm nil → key y ≠ key x := by
      rintro x y (rfl | hx) hy
      · exact (hpart y hy).1.ne
      · exact ((hpart y hy).1.trans (hr x hx).1).ne
    have hbb : ∀ x y, x ∈ node m lm nil → y ∈ rm → key y ≠ key x := by
      intro x y hx hy
      rcases mem_node.mp hx with hx | rfl | hx
      · exact ((hlm x hx).1.trans (hrm y hy).1).ne.symm
      · exact (hrm y hy).1.ne.symm
      · exact absurd hx mem_nil
    have hunion := mem_union_of_first hab hbb hl'.mem
      (fun x ↦ (hc.mem x).trans (by rw [mem_node]; grind)) x
    rw [hunion]
    simp only [mem_node, mem_nil]
    grind
  · have hsizec := hc.size_le
    simp only [size_node] at hsizec ⊢
    omega

omit [IsLinearOrder κ gor]
  [IsLinearOrder κ mor] in
theorem isUni_mirror {a b c : Tree α} :
    IsUni key (Function.swap gor) mor (mirror a) (mirror b) (mirror c) ↔
      IsUni key gor mor a b c := by
  constructor
  · rintro ⟨hvalid, hmem, hsize⟩
    exact ⟨valid_mirror.mp hvalid, by simpa using hmem, by simpa using hsize⟩
  · rintro ⟨hvalid, hmem, hsize⟩
    exact ⟨valid_mirror.mpr hvalid, by simpa using hmem, by simpa using hsize⟩

theorem IsUni.first_right (ha : Valid key gor mor (node n l r))
    (hb : Valid key gor mor (node m lm rm)) (hmor : mor (key n) (key m))
    (hlt : Before gor (key n) (key m)) {r' : Tree α}
    (hr' : IsUni key gor mor r (node m nil rm) r') :
    Valid key gor mor (node n l r') ∧ (node n l r').size ≤ (node n l r).size + rm.size + 1 ∧
      ∀ c, IsUni key gor mor (node n l r') lm c →
        IsUni key gor mor (node n l r) (node m lm rm) c := by
  have hmirror := IsUni.first_left (valid_mirror.mpr ha) (valid_mirror.mpr hb) hmor
    (before_swap.mpr hlt) ((isUni_mirror).mpr hr')
  obtain ⟨hvalid, hsize, hstep⟩ := hmirror
  refine ⟨valid_mirror.mp hvalid, ?_, fun c hc ↦ ?_⟩
  · simp only [size_node, size_mirror] at hsize ⊢
    omega
  · exact (isUni_mirror).mp (hstep (mirror c) ((isUni_mirror).mpr hc))

theorem IsUni.second_left (ha : Valid key gor mor (node n l r))
    (hb : Valid key gor mor (node m lm rm)) (hmor : mor (key m) (key n))
    (hlt : Before gor (key n) (key m)) {lm' : Tree α}
    (hlm' : IsUni key gor mor (node n l nil) lm lm') :
    Valid key gor mor (node m lm' rm) ∧ (node m lm' rm).size ≤ (node m lm rm).size + l.size + 1 ∧
      ∀ c, IsUni key gor mor r (node m lm' rm) c →
        IsUni key gor mor (node n l r) (node m lm rm) c := by
  obtain ⟨hl, hr, _, _⟩ := ha
  obtain ⟨hlm, hrm, _, hvrm⟩ := hb
  have hpart : ∀ y ∈ node n l nil, Before gor (key y) (key m) ∧ mor (key m) (key y) := by
    intro y hy
    rcases mem_node.mp hy with hy | rfl | hy
    · exact ⟨(hl y hy).1.trans hlt, trans_of mor hmor (hl y hy).2⟩
    · exact ⟨hlt, hmor⟩
    · exact absurd hy mem_nil
  have hsize := hlm'.size_le
  simp only [size_node, size_nil] at hsize ⊢
  refine ⟨⟨?_, hrm, hlm'.valid, hvrm⟩, by omega, fun c hc ↦ ⟨hc.valid, fun x ↦ ?_, ?_⟩⟩
  · intro x hx
    rcases (hlm'.mem x).mp hx with hx | ⟨hx, _⟩
    · exact hlm x hx
    · exact hpart x hx
  · have hab : ∀ x y, x ∈ node n l nil → y = m ∨ y ∈ rm → key y ≠ key x := by
      rintro x y hx (rfl | hy)
      · exact (hpart x hx).1.ne.symm
      · exact ((hpart x hx).1.trans (hrm y hy).1).ne.symm
    have haa : ∀ x y, x ∈ node n l nil → y ∈ r → key y ≠ key x := by
      intro x y hx hy
      rcases mem_node.mp hx with hx | rfl | hx
      · exact ((hl x hx).1.trans (hr y hy).1).ne.symm
      · exact (hr y hy).1.ne.symm
      · exact absurd hx mem_nil
    have hunion := mem_union_of_second hab haa hlm'.mem
      (fun x ↦ (hc.mem x).trans (by simp only [mem_node, or_assoc])) x
    rw [hunion]
    simp only [mem_node, mem_nil]
    grind
  · have hsizec := hc.size_le
    simp only [size_node] at hsizec ⊢
    omega

theorem IsUni.second_right (ha : Valid key gor mor (node n l r))
    (hb : Valid key gor mor (node m lm rm)) (hmor : mor (key m) (key n))
    (hlt : Before gor (key m) (key n)) {rm' : Tree α}
    (hrm' : IsUni key gor mor (node n nil r) rm rm') :
    Valid key gor mor (node m lm rm') ∧ (node m lm rm').size ≤ (node m lm rm).size + r.size + 1 ∧
      ∀ c, IsUni key gor mor l (node m lm rm') c →
        IsUni key gor mor (node n l r) (node m lm rm) c := by
  have hmirror := IsUni.second_left (valid_mirror.mpr ha) (valid_mirror.mpr hb) hmor
    (before_swap.mpr hlt) ((isUni_mirror).mpr hrm')
  obtain ⟨hvalid, hsize, hstep⟩ := hmirror
  refine ⟨valid_mirror.mp hvalid, ?_, fun c hc ↦ ?_⟩
  · simp only [size_node, size_mirror] at hsize ⊢
    omega
  · exact (isUni_mirror).mp (hstep (mirror c) ((isUni_mirror).mpr hc))

end

omit [DecidableEq κ] [DecidableRel gor] [IsLinearOrder κ gor] [IsLinearOrder κ mor] in
theorem lower_lt_of_first {rest : Tree α} (hmor : mor (key n) (key m)) {l' r' : Tree α}
    (hrest : ∀ x ∈ rest, mor (key m) (key x)) (hsize : rest.size < (node m lm rm).size)
    [IsTrans κ mor] :
    lower key mor (node n l' r') rest < lower key mor (node n l r) (node m lm rm) := by
  have hlower : lower key mor (node n l r) (node m lm rm) = (node m lm rm).size := if_pos hmor
  rw [hlower]
  cases rest with
  | nil => simp [lower]
  | node x lx rx =>
    have hx : mor (key n) (key x) := trans_of mor hmor (hrest x (by simp))
    simpa only [lower, if_pos hx] using hsize

omit [DecidableEq κ] [DecidableRel gor] [IsLinearOrder κ gor] in
theorem lower_lt_of_second {rest : Tree α} (hmor : ¬ mor (key n) (key m)) {l' r' : Tree α}
    (hrest : ∀ x ∈ rest, mor (key n) (key x)) (hsize : rest.size < (node n l r).size) :
    lower key mor rest (node m l' r') < lower key mor (node n l r) (node m lm rm) := by
  have hlower : lower key mor (node n l r) (node m lm rm) = (node n l r).size := if_neg hmor
  rw [hlower]
  cases rest with
  | nil => simp [lower]
  | node x lx rx =>
    have hx : ¬ mor (key x) (key m) := fun hxm ↦
      hmor (trans_of mor (hrest x (by simp)) hxm)
    simpa only [lower, if_neg hx] using hsize

/-- The union of two treaps is computed with enough fuel. -/
theorem uni_spec (a b : Tree α) (ha : Valid key gor mor a) (hb : Valid key gor mor b) :
    ∃ c, IsUni key gor mor a b c ∧ Returns (fun fuel ↦ uni key gor mor fuel a b) c := by
  match a, b with
  | a, nil => exact ⟨a, ⟨ha, by simp, by simp⟩, .of_succ (fun _ ↦ by rw [uni]) .pure⟩
  | nil, node m lm rm =>
    exact ⟨node m lm rm, ⟨hb, by simp, by simp⟩, .of_succ (fun _ ↦ by simp [uni]) .pure⟩
  | node n l r, node m lm rm =>
    have hunfold : ∀ fuel, uni key gor mor (fuel + 1) (node n l r) (node m lm rm) = _ :=
      fun _ ↦ by rw [uni]
    obtain ⟨hl, hr, hvl, hvr⟩ := id ha
    obtain ⟨hlm, hrm, hvlm, hvrm⟩ := id hb
    by_cases hkey : key n = key m
    · obtain ⟨l', hl', hreturnl⟩ := uni_spec l lm hvl hvlm
      obtain ⟨r', hr', hreturnr⟩ := uni_spec r rm hvr hvrm
      simp only [if_pos hkey] at hunfold
      exact ⟨node m l' r', hl'.root_eq ha hb hkey hr',
        .of_succ hunfold (hreturnl.bind (hreturnr.bind .pure))⟩
    by_cases hmor : mor (key n) (key m)
    · by_cases hgor : gor (key m) (key n)
      · have hlt : Before gor (key m) (key n) := ⟨hgor, Ne.symm hkey⟩
        obtain ⟨l', hl', hreturn⟩ := uni_spec l (node m lm nil) hvl ⟨hlm, by simp, hvlm, trivial⟩
        obtain ⟨hvalid, hsize, hstep⟩ := hl'.first_left ha hb hmor hlt
        have hlower : lower key mor (node n l' r) rm < lower key mor (node n l r) (node m lm rm) :=
          lower_lt_of_first hmor (fun x hx ↦ (hrm x hx).2) (by simp only [size_node]; omega)
        obtain ⟨c, hc, hreturn'⟩ := uni_spec (node n l' r) rm hvalid hvrm
        simp only [if_neg hkey, if_pos hmor, if_pos hgor] at hunfold
        exact ⟨c, hstep c hc, .of_succ hunfold (hreturn.bind hreturn')⟩
      · have hlt : Before gor (key n) (key m) := before_of_not_gor hgor
        obtain ⟨r', hr', hreturn⟩ := uni_spec r (node m nil rm) hvr ⟨by simp, hrm, trivial, hvrm⟩
        obtain ⟨hvalid, hsize, hstep⟩ := hr'.first_right ha hb hmor hlt
        have hlower : lower key mor (node n l r') lm < lower key mor (node n l r) (node m lm rm) :=
          lower_lt_of_first hmor (fun x hx ↦ (hlm x hx).2) (by simp only [size_node]; omega)
        obtain ⟨c, hc, hreturn'⟩ := uni_spec (node n l r') lm hvalid hvlm
        simp only [if_neg hkey, if_pos hmor, if_neg hgor] at hunfold
        exact ⟨c, hstep c hc, .of_succ hunfold (hreturn.bind hreturn')⟩
    · have habove : mor (key m) (key n) := (total_of mor _ _).resolve_left hmor
      by_cases hgor : gor (key n) (key m)
      · have hlt : Before gor (key n) (key m) := ⟨hgor, hkey⟩
        obtain ⟨lm', hlm', hreturn⟩ := uni_spec (node n l nil) lm ⟨hl, by simp, hvl, trivial⟩ hvlm
        obtain ⟨hvalid, hsize, hstep⟩ := hlm'.second_left ha hb habove hlt
        have hlower : lower key mor r (node m lm' rm) < lower key mor (node n l r) (node m lm rm) :=
          lower_lt_of_second hmor (fun x hx ↦ (hr x hx).2) (by simp only [size_node]; omega)
        obtain ⟨c, hc, hreturn'⟩ := uni_spec r (node m lm' rm) hvr hvalid
        simp only [if_neg hkey, if_neg hmor, if_pos hgor] at hunfold
        exact ⟨c, hstep c hc, .of_succ hunfold (hreturn.bind hreturn')⟩
      · have hlt : Before gor (key m) (key n) := before_of_not_gor hgor
        obtain ⟨rm', hrm', hreturn⟩ := uni_spec (node n nil r) rm ⟨by simp, hr, trivial, hvr⟩ hvrm
        obtain ⟨hvalid, hsize, hstep⟩ := hrm'.second_right ha hb habove hlt
        have hlower : lower key mor l (node m lm rm') < lower key mor (node n l r) (node m lm rm) :=
          lower_lt_of_second hmor (fun x hx ↦ (hl x hx).2) (by simp only [size_node]; omega)
        obtain ⟨c, hc, hreturn'⟩ := uni_spec l (node m lm rm') hvl hvalid
        simp only [if_neg hkey, if_neg hmor, if_neg hgor] at hunfold
        exact ⟨c, hstep c hc, .of_succ hunfold (hreturn.bind hreturn')⟩
termination_by (a.size + b.size, lower key mor a b)
decreasing_by
  all_goals
    simp_wf
    simp only [size_node, Prod.lex_def] at *
    omega

end Union

/-! ### Intersection -/

section Intersection

variable {α κ : Type*} [DecidableEq κ] (key : α → κ)
variable (gor mor : κ → κ → Prop) [DecidableRel gor] [DecidableRel mor]

/-- The nodes of the second treap whose key is in the first. The lower treap is the one split. -/
def int : ℕ → Tree α → Tree α → Option (Tree α)
  | 0, _, _ => none
  | _ + 1, nil, _ => some nil
  | _ + 1, node _ _ _, nil => some nil
  | fuel + 1, node n l r, node m lm rm =>
    if key n = key m then do
      let l' ← int fuel l lm
      let r' ← int fuel r rm
      some (node m l' r')
    else if mor (key n) (key m) then
      if gor (key m) (key n) then do
        let c ← int fuel l (node m lm nil)
        let d ← int fuel (node n l r) rm
        uni key gor mor fuel c d
      else do
        let c ← int fuel r (node m nil rm)
        let d ← int fuel (node n l r) lm
        uni key gor mor fuel c d
    else if gor (key n) (key m) then do
      let c ← int fuel (node n l nil) lm
      let d ← int fuel r (node m lm rm)
      uni key gor mor fuel c d
    else do
      let c ← int fuel (node n nil r) rm
      let d ← int fuel l (node m lm rm)
      uni key gor mor fuel c d

/-- What an intersection is: a treap with the nodes of `b` whose key is in `a`. -/
structure IsInt (a b c : Tree α) : Prop where
  valid : Valid key gor mor c
  mem : ∀ m, m ∈ c ↔ m ∈ b ∧ ∃ m' ∈ a, key m' = key m

variable {key gor mor} [IsLinearOrder κ gor]
variable {n m : α} {l r lm rm : Tree α}

section

omit [DecidableEq κ] [DecidableRel gor] [DecidableRel mor]

theorem IsInt.root_eq (ha : Valid key gor mor (node n l r)) (hb : Valid key gor mor (node m lm rm))
    (hkey : key n = key m) {l' r' : Tree α} (hl' : IsInt key gor mor l lm l')
    (hr' : IsInt key gor mor r rm r') :
    IsInt key gor mor (node n l r) (node m lm rm) (node m l' r') := by
  obtain ⟨hl, hr, _, _⟩ := ha
  obtain ⟨hlm, hrm, _, _⟩ := hb
  refine ⟨⟨fun x hx ↦ hlm x ((hl'.mem x).mp hx).1, fun x hx ↦ hrm x ((hr'.mem x).mp hx).1,
    hl'.valid, hr'.valid⟩, fun x ↦ ?_⟩
  rw [hkey] at hl hr
  have hleft : x ∈ lm → ∀ y ∈ r, key y ≠ key x := fun hx y hy ↦
    ((hlm x hx).1.trans (hr y hy).1).ne.symm
  have hright : x ∈ rm → ∀ y ∈ l, key y ≠ key x := fun hx y hy ↦
    ((hl y hy).1.trans (hrm x hx).1).ne
  have hleft' : x ∈ lm → key n ≠ key x := fun hx ↦ hkey ▸ (hlm x hx).1.ne.symm
  have hright' : x ∈ rm → key n ≠ key x := fun hx ↦ hkey ▸ (hrm x hx).1.ne
  simp only [mem_node, hl'.mem, hr'.mem]
  grind

omit [IsLinearOrder κ gor] in
/-- An intersection by splitting the second operand. -/
theorem IsInt.split_second {a a₁ b b₁ b₂ c₁ c₂ c : Tree α}
    (ha : ∀ x ∈ a₁, x ∈ a) (hb : ∀ x, x ∈ b ↔ x ∈ b₁ ∨ x ∈ b₂)
    (hab : ∀ x ∈ a, ∀ y ∈ b₁, key x = key y → x ∈ a₁)
    (hbb : ∀ x ∈ b₁, ∀ y ∈ b₂, key x ≠ key y)
    (hc₁ : IsInt key gor mor a₁ b₁ c₁) (hc₂ : IsInt key gor mor a b₂ c₂)
    (hc : IsUni key gor mor c₁ c₂ c) : IsInt key gor mor a b c := by
  refine ⟨hc.valid, fun x ↦ ?_⟩
  rw [hc.mem, hc₁.mem, hc₂.mem, hb]
  constructor
  · rintro (⟨hx, hmatch⟩ | ⟨⟨hx, y, hy, hkey⟩, _⟩)
    · exact ⟨Or.inr hx, hmatch⟩
    · exact ⟨Or.inl hx, y, ha y hy, hkey⟩
  · rintro ⟨hx | hx, y, hy, hkey⟩
    · refine Or.inr ⟨⟨hx, y, hab y hy x hx hkey, hkey⟩, fun z hz ↦ ?_⟩
      exact (hbb x hx z ((hc₂.mem z).mp hz).1).symm
    · exact Or.inl ⟨hx, y, hy, hkey⟩

omit [IsLinearOrder κ gor] in
/-- An intersection by splitting the first operand. -/
theorem IsInt.split_first {a a₁ a₂ b b₁ c₁ c₂ c : Tree α}
    (ha : ∀ x, x ∈ a ↔ x ∈ a₁ ∨ x ∈ a₂) (hb : ∀ x ∈ b₁, x ∈ b)
    (hab : ∀ x ∈ a₁, ∀ y ∈ b, key x = key y → y ∈ b₁)
    (haa : ∀ x ∈ a₁, ∀ y ∈ a₂, key x ≠ key y)
    (hc₁ : IsInt key gor mor a₁ b₁ c₁) (hc₂ : IsInt key gor mor a₂ b c₂)
    (hc : IsUni key gor mor c₁ c₂ c) : IsInt key gor mor a b c := by
  refine ⟨hc.valid, fun x ↦ ?_⟩
  rw [hc.mem, hc₁.mem, hc₂.mem]
  constructor
  · rintro (⟨hx, y, hy, hkey⟩ | ⟨⟨hx, y, hy, hkey⟩, _⟩)
    · exact ⟨hx, y, (ha y).mpr (Or.inr hy), hkey⟩
    · exact ⟨hb x hx, y, (ha y).mpr (Or.inl hy), hkey⟩
  · rintro ⟨hx, y, hy, hkey⟩
    rcases (ha y).mp hy with hy | hy
    · refine Or.inr ⟨⟨hab y hy x hx hkey, y, hy, hkey⟩, fun z hz hzx ↦ ?_⟩
      obtain ⟨w, hw, hwz⟩ := ((hc₂.mem z).mp hz).2
      exact haa y hy w hw (by rw [hkey, hwz, hzx])
    · exact Or.inl ⟨hx, y, hy, hkey⟩

theorem IsInt.second_left (ha : Valid key gor mor (node n l r))
    (hb : Valid key gor mor (node m lm rm)) (hlt : Before gor (key m) (key n))
    {c₁ c₂ c : Tree α} (hc₁ : IsInt key gor mor l (node m lm nil) c₁)
    (hc₂ : IsInt key gor mor (node n l r) rm c₂) (hc : IsUni key gor mor c₁ c₂ c) :
    IsInt key gor mor (node n l r) (node m lm rm) c := by
  obtain ⟨hlm, hrm, _, _⟩ := hb
  have hpart : ∀ y ∈ node m lm nil, Before gor (key y) (key n) ∧ (key y = key m ∨
      Before gor (key y) (key m)) := by
    intro y hy
    rcases mem_node.mp hy with hy | rfl | hy
    · exact ⟨(hlm y hy).1.trans hlt, Or.inr (hlm y hy).1⟩
    · exact ⟨hlt, Or.inl rfl⟩
    · exact absurd hy mem_nil
  refine hc₁.split_second (by simp +contextual) (by simp; tauto) ?_ ?_ hc₂ hc
  · intro x hx y hy hkey
    rcases mem_node.mp hx with hx | rfl | hx
    · exact hx
    · exact absurd hkey (hpart y hy).1.ne.symm
    · exact absurd hkey ((hpart y hy).1.trans (ha.2.1 x hx).1).ne.symm
  · intro x hx y hy
    rcases (hpart x hx).2 with hkey | hbefore
    · rw [hkey]
      exact (hrm y hy).1.ne
    · exact (hbefore.trans (hrm y hy).1).ne

/-- The first root is before the second: what is up to it can only meet the left subtree. -/
theorem IsInt.first_left (ha : Valid key gor mor (node n l r))
    (hb : Valid key gor mor (node m lm rm)) (hlt : Before gor (key n) (key m))
    {c₁ c₂ c : Tree α} (hc₁ : IsInt key gor mor (node n l nil) lm c₁)
    (hc₂ : IsInt key gor mor r (node m lm rm) c₂) (hc : IsUni key gor mor c₁ c₂ c) :
    IsInt key gor mor (node n l r) (node m lm rm) c := by
  obtain ⟨hl, hr, _, _⟩ := ha
  have hpart : ∀ y ∈ node n l nil, Before gor (key y) (key m) ∧ (key y = key n ∨
      Before gor (key y) (key n)) := by
    intro y hy
    rcases mem_node.mp hy with hy | rfl | hy
    · exact ⟨(hl y hy).1.trans hlt, Or.inr (hl y hy).1⟩
    · exact ⟨hlt, Or.inl rfl⟩
    · exact absurd hy mem_nil
  refine hc₁.split_first (by simp; tauto) (by simp +contextual) ?_ ?_ hc₂ hc
  · intro x hx y hy hkey
    rcases mem_node.mp hy with hy | rfl | hy
    · exact hy
    · exact absurd hkey (hpart x hx).1.ne
    · exact absurd hkey ((hpart x hx).1.trans (hb.2.1 y hy).1).ne
  · intro x hx y hy
    rcases (hpart x hx).2 with hkey | hbefore
    · rw [hkey]
      exact (hr y hy).1.ne
    · exact (hbefore.trans (hr y hy).1).ne

omit [IsLinearOrder κ gor] in
theorem isInt_mirror {a b c : Tree α} :
    IsInt key (Function.swap gor) mor (mirror a) (mirror b) (mirror c) ↔
      IsInt key gor mor a b c := by
  constructor
  · rintro ⟨hvalid, hmem⟩
    exact ⟨valid_mirror.mp hvalid, by simpa using hmem⟩
  · rintro ⟨hvalid, hmem⟩
    exact ⟨valid_mirror.mpr hvalid, by simpa using hmem⟩

theorem IsInt.second_right (ha : Valid key gor mor (node n l r))
    (hb : Valid key gor mor (node m lm rm)) (hlt : Before gor (key n) (key m))
    {c₁ c₂ c : Tree α} (hc₁ : IsInt key gor mor r (node m nil rm) c₁)
    (hc₂ : IsInt key gor mor (node n l r) lm c₂) (hc : IsUni key gor mor c₁ c₂ c) :
    IsInt key gor mor (node n l r) (node m lm rm) c :=
  (isInt_mirror).mp (IsInt.second_left (valid_mirror.mpr ha) (valid_mirror.mpr hb)
    (before_swap.mpr hlt) ((isInt_mirror).mpr hc₁) ((isInt_mirror).mpr hc₂) ((isUni_mirror).mpr hc))

theorem IsInt.first_right (ha : Valid key gor mor (node n l r))
    (hb : Valid key gor mor (node m lm rm)) (hlt : Before gor (key m) (key n))
    {c₁ c₂ c : Tree α} (hc₁ : IsInt key gor mor (node n nil r) rm c₁)
    (hc₂ : IsInt key gor mor l (node m lm rm) c₂) (hc : IsUni key gor mor c₁ c₂ c) :
    IsInt key gor mor (node n l r) (node m lm rm) c :=
  (isInt_mirror).mp (IsInt.first_left (valid_mirror.mpr ha) (valid_mirror.mpr hb)
    (before_swap.mpr hlt) ((isInt_mirror).mpr hc₁) ((isInt_mirror).mpr hc₂) ((isUni_mirror).mpr hc))

end

variable [IsLinearOrder κ mor]

/-- The intersection of two treaps is computed with enough fuel. -/
theorem int_spec (a b : Tree α) (ha : Valid key gor mor a) (hb : Valid key gor mor b) :
    ∃ c, IsInt key gor mor a b c ∧ Returns (fun fuel ↦ int key gor mor fuel a b) c := by
  match a, b with
  | nil, b => exact ⟨nil, ⟨trivial, by simp⟩, .of_succ (fun _ ↦ by rw [int]) .pure⟩
  | node n l r, nil => exact ⟨nil, ⟨trivial, by simp⟩, .of_succ (fun _ ↦ by rw [int]) .pure⟩
  | node n l r, node m lm rm =>
    have hunfold : ∀ fuel, int key gor mor (fuel + 1) (node n l r) (node m lm rm) = _ :=
      fun _ ↦ by rw [int]
    obtain ⟨hl, hr, hvl, hvr⟩ := id ha
    obtain ⟨hlm, hrm, hvlm, hvrm⟩ := id hb
    by_cases hkey : key n = key m
    · obtain ⟨l', hl', hreturnl⟩ := int_spec l lm hvl hvlm
      obtain ⟨r', hr', hreturnr⟩ := int_spec r rm hvr hvrm
      simp only [if_pos hkey] at hunfold
      exact ⟨node m l' r', hl'.root_eq ha hb hkey hr',
        .of_succ hunfold (hreturnl.bind (hreturnr.bind .pure))⟩
    by_cases hmor : mor (key n) (key m)
    · by_cases hgor : gor (key m) (key n)
      · obtain ⟨c₁, hc₁, hreturn₁⟩ := int_spec l (node m lm nil) hvl ⟨hlm, by simp, hvlm, trivial⟩
        obtain ⟨c₂, hc₂, hreturn₂⟩ := int_spec (node n l r) rm ha hvrm
        obtain ⟨c, hc, hreturn⟩ := uni_spec c₁ c₂ hc₁.valid hc₂.valid
        simp only [if_neg hkey, if_pos hmor, if_pos hgor] at hunfold
        exact ⟨c, hc₁.second_left ha hb ⟨hgor, Ne.symm hkey⟩ hc₂ hc,
          .of_succ hunfold (hreturn₁.bind (hreturn₂.bind hreturn))⟩
      · obtain ⟨c₁, hc₁, hreturn₁⟩ := int_spec r (node m nil rm) hvr ⟨by simp, hrm, trivial, hvrm⟩
        obtain ⟨c₂, hc₂, hreturn₂⟩ := int_spec (node n l r) lm ha hvlm
        obtain ⟨c, hc, hreturn⟩ := uni_spec c₁ c₂ hc₁.valid hc₂.valid
        simp only [if_neg hkey, if_pos hmor, if_neg hgor] at hunfold
        exact ⟨c, hc₁.second_right ha hb (before_of_not_gor hgor) hc₂ hc,
          .of_succ hunfold (hreturn₁.bind (hreturn₂.bind hreturn))⟩
    · by_cases hgor : gor (key n) (key m)
      · obtain ⟨c₁, hc₁, hreturn₁⟩ := int_spec (node n l nil) lm ⟨hl, by simp, hvl, trivial⟩ hvlm
        obtain ⟨c₂, hc₂, hreturn₂⟩ := int_spec r (node m lm rm) hvr hb
        obtain ⟨c, hc, hreturn⟩ := uni_spec c₁ c₂ hc₁.valid hc₂.valid
        simp only [if_neg hkey, if_neg hmor, if_pos hgor] at hunfold
        exact ⟨c, hc₁.first_left ha hb ⟨hgor, hkey⟩ hc₂ hc,
          .of_succ hunfold (hreturn₁.bind (hreturn₂.bind hreturn))⟩
      · obtain ⟨c₁, hc₁, hreturn₁⟩ := int_spec (node n nil r) rm ⟨by simp, hr, trivial, hvr⟩ hvrm
        obtain ⟨c₂, hc₂, hreturn₂⟩ := int_spec l (node m lm rm) hvl hb
        obtain ⟨c, hc, hreturn⟩ := uni_spec c₁ c₂ hc₁.valid hc₂.valid
        simp only [if_neg hkey, if_neg hmor, if_neg hgor] at hunfold
        exact ⟨c, hc₁.first_right ha hb (before_of_not_gor hgor) hc₂ hc,
          .of_succ hunfold (hreturn₁.bind (hreturn₂.bind hreturn))⟩
termination_by a.size + b.size
decreasing_by all_goals simp only [size_node, size_nil]; omega

/-- The equality test in front of the union does not change what it computes. -/
theorem uniSing_spec [DecidableEq α] (a b : Tree α) (ha : Valid key gor mor a)
    (hb : Valid key gor mor b) :
    ∃ c, IsUni key gor mor a b c ∧ Returns (fun fuel ↦ uniSing key gor mor fuel a b) c := by
  by_cases heq : a = b
  · subst heq
    refine ⟨a, ⟨ha, fun m ↦ ?_, by omega⟩, ?_⟩
    · exact ⟨Or.inl, fun hm ↦ hm.elim id And.left⟩
    · simp only [uniSing, if_pos]
      exact .pure
  · simp only [uniSing, if_neg heq]
    exact uni_spec a b ha hb

end Intersection

/-! ### Intersection of trees without values -/

section IntSwap

variable {α κ : Type*} [DecidableEq κ] [DecidableEq α] (key : α → κ)
variable (gor mor : κ → κ → Prop) [DecidableRel gor] [DecidableRel mor]

/-- The common nodes of two treaps. The operands are exchanged so that the second has the higher
root, and it is the one split. -/
def intSwap : ℕ → Tree α → Tree α → Option (Tree α)
  | 0, _, _ => none
  | _ + 1, nil, _ => some nil
  | _ + 1, node _ _ _, nil => some nil
  | fuel + 1, node n' l' r', node m' lm' rm' =>
    let swap := decide (mor (key n') (key m'))
    let n := if swap then m' else n'
    let l := if swap then lm' else l'
    let r := if swap then rm' else r'
    let m := if swap then n' else m'
    let lm := if swap then l' else lm'
    let rm := if swap then r' else rm'
    if key m = key n then do
      let c ← intSwap fuel l lm
      let d ← intSwap fuel r rm
      some (node n c d)
    else if gor (key m) (key n) then do
      let c ← intSwap fuel l (node m lm nil)
      let d ← intSwap fuel (node n l r) rm
      uniSing key gor mor fuel c d
    else do
      let c ← intSwap fuel r (node m nil rm)
      let d ← intSwap fuel (node n l r) lm
      uniSing key gor mor fuel c d

variable {key gor mor} [IsLinearOrder κ gor] [IsLinearOrder κ mor]

omit [DecidableEq κ] [DecidableEq α] [DecidableRel gor] [DecidableRel mor]
  [IsLinearOrder κ gor] [IsLinearOrder κ mor] in
theorem IsInt.comm (hkey : Function.Injective key) {a b c : Tree α}
    (hc : IsInt key gor mor a b c) : IsInt key gor mor b a c := by
  refine ⟨hc.valid, fun m ↦ ?_⟩
  rw [hc.mem]
  constructor
  · rintro ⟨hm, m', hm', heq⟩
    exact ⟨hkey heq ▸ hm', m, hm, rfl⟩
  · rintro ⟨hm, m', hm', heq⟩
    exact ⟨hkey heq ▸ hm', m, hm, rfl⟩

/-- The body of `intSwap` on operands in the order it works on. -/
theorem intSwap_step (a b : Tree α) (n m : α) (l r lm rm : Tree α) {run : ℕ → Option (Tree α)}
    (hkey : Function.Injective key)
    (hsize : (node n l r).size + (node m lm rm).size ≤ a.size + b.size)
    (ha : Valid key gor mor (node n l r)) (hb : Valid key gor mor (node m lm rm))
    (ih : ∀ a' b', a'.size + b'.size < a.size + b.size → Valid key gor mor a' →
      Valid key gor mor b' → ∃ c, IsInt key gor mor a' b' c ∧
        Returns (fun fuel ↦ intSwap key gor mor fuel a' b') c)
    (hrun : ∀ fuel, run (fuel + 1) =
      if key m = key n then do
        let c ← intSwap key gor mor fuel l lm
        let d ← intSwap key gor mor fuel r rm
        some (node n c d)
      else if gor (key m) (key n) then do
        let c ← intSwap key gor mor fuel l (node m lm nil)
        let d ← intSwap key gor mor fuel (node n l r) rm
        uniSing key gor mor fuel c d
      else do
        let c ← intSwap key gor mor fuel r (node m nil rm)
        let d ← intSwap key gor mor fuel (node n l r) lm
        uniSing key gor mor fuel c d) :
    ∃ c, IsInt key gor mor (node n l r) (node m lm rm) c ∧ Returns run c := by
  obtain ⟨hl, hr, hvl, hvr⟩ := id ha
  obtain ⟨hlm, hrm, hvlm, hvrm⟩ := id hb
  simp only [size_node] at hsize
  by_cases heq : key m = key n
  · obtain ⟨l', hl', hreturnl⟩ := ih l lm (by omega) hvl hvlm
    obtain ⟨r', hr', hreturnr⟩ := ih r rm (by omega) hvr hvrm
    simp only [if_pos heq] at hrun
    have hmn : m = n := hkey heq
    subst hmn
    exact ⟨node m l' r', hl'.root_eq ha hb rfl hr',
      .of_succ hrun (hreturnl.bind (hreturnr.bind .pure))⟩
  by_cases hgor : gor (key m) (key n)
  · obtain ⟨c₁, hc₁, hreturn₁⟩ := ih l (node m lm nil) (by simp only [size_node, size_nil]; omega)
      hvl ⟨hlm, by simp, hvlm, trivial⟩
    obtain ⟨c₂, hc₂, hreturn₂⟩ := ih (node n l r) rm (by simp only [size_node]; omega) ha hvrm
    obtain ⟨c, hc, hreturn⟩ := uniSing_spec c₁ c₂ hc₁.valid hc₂.valid
    simp only [if_neg heq, if_pos hgor] at hrun
    exact ⟨c, hc₁.second_left ha hb ⟨hgor, heq⟩ hc₂ hc,
      .of_succ hrun (hreturn₁.bind (hreturn₂.bind hreturn))⟩
  · obtain ⟨c₁, hc₁, hreturn₁⟩ := ih r (node m nil rm) (by simp only [size_node, size_nil]; omega)
      hvr ⟨by simp, hrm, trivial, hvrm⟩
    obtain ⟨c₂, hc₂, hreturn₂⟩ := ih (node n l r) lm (by simp only [size_node]; omega) ha hvlm
    obtain ⟨c, hc, hreturn⟩ := uniSing_spec c₁ c₂ hc₁.valid hc₂.valid
    simp only [if_neg heq, if_neg hgor] at hrun
    exact ⟨c, hc₁.second_right ha hb (before_of_not_gor hgor) hc₂ hc,
      .of_succ hrun (hreturn₁.bind (hreturn₂.bind hreturn))⟩

/-- The common nodes of two treaps are computed with enough fuel. Assumes: a node is its key. -/
theorem intSwap_spec (hkey : Function.Injective key) (a b : Tree α) (ha : Valid key gor mor a)
    (hb : Valid key gor mor b) :
    ∃ c, IsInt key gor mor a b c ∧ Returns (fun fuel ↦ intSwap key gor mor fuel a b) c := by
  match a, b with
  | nil, b => exact ⟨nil, ⟨trivial, by simp⟩, .of_succ (fun _ ↦ by rw [intSwap]) .pure⟩
  | node n l r, nil => exact ⟨nil, ⟨trivial, by simp⟩, .of_succ (fun _ ↦ by rw [intSwap]) .pure⟩
  | node n l r, node m lm rm =>
    have ih : ∀ a' b', a'.size + b'.size < (node n l r).size + (node m lm rm).size →
        Valid key gor mor a' → Valid key gor mor b' → ∃ c, IsInt key gor mor a' b' c ∧
          Returns (fun fuel ↦ intSwap key gor mor fuel a' b') c :=
      fun a' b' _ ha' hb' ↦ intSwap_spec hkey a' b' ha' hb'
    by_cases hmor : mor (key n) (key m)
    · have hswapped : ∃ c, IsInt key gor mor (node m lm rm) (node n l r) c ∧
          Returns (fun fuel ↦ intSwap key gor mor fuel (node n l r) (node m lm rm)) c :=
        intSwap_step (node n l r) (node m lm rm) m n lm rm l r hkey (by omega) hb ha ih
          (fun fuel ↦ by simp [intSwap, hmor])
      obtain ⟨c, hc, hreturn⟩ := hswapped
      exact ⟨c, hc.comm hkey, hreturn⟩
    · exact intSwap_step (node n l r) (node m lm rm) n m l r lm rm hkey (by omega) ha hb ih
        (fun fuel ↦ by simp [intSwap, hmor])
termination_by a.size + b.size

end IntSwap

end Vere.Lib.Treap
