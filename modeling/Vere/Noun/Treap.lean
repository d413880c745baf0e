import Mathlib.Data.Set.Insert
import Mathlib.Logic.Function.Basic
import Vere.Lib.Treap
import Vere.Noun.Compare

/-!
# Maps and sets of nouns

`pkg/noun/jets/d`: the treaps behind Hoon's maps (`by_put.c`, `by_del.c`, `by_uni.c`, `by_int.c`,
`by_dif.c`, `by_bif.c`) and sets (`in_put.c` and its siblings). A tree is null or a node with two
subtrees, ordered from left to right by `gor` and from parent to child by `mor`; a node of a map
is a cell of key and value, a node of a set is the key itself.

The functions are the code on arbitrary nouns, where a noun of another shape is a bail, and so are
two keys that are not compared. On a noun that encodes a treap each of them agrees with the
operation of `Vere.Lib.Treap` of the same name, and `treap_operations` restates the specifications
proved there for the finite maps and sets that the nouns denote.
-/

set_option autoImplicit false

namespace Vere.Noun

open Lib.Treap Lib.Fuel

variable (mug : Noun → ℕ)

/-! ### Maps -/

/-- `u3qdb_put`. -/
def qdbPut (a b c : Noun) : Except Failed Noun :=
  match a with
  | .atom a => if a = 0 then .ok (trel (.cell b c) nul nul) else .error .bail
  | .cell (.cell pn_a qn_a) (.cell l_a r_a) => do
    if pn_a = b then
      if qn_a = c then .ok (.cell (.cell pn_a qn_a) (.cell l_a r_a))
      else .ok (trel (.cell b c) l_a r_a)
    else if ← orBail (qcGor mug b pn_a) then
      match ← qdbPut l_a b c with
      | .cell (.cell pn_d qn_d) (.cell l_d r_d) =>
        if ← orBail (qcMor mug pn_a pn_d) then
          .ok (trel (.cell pn_a qn_a) (trel (.cell pn_d qn_d) l_d r_d) r_a)
        else .ok (trel (.cell pn_d qn_d) l_d (trel (.cell pn_a qn_a) r_d r_a))
      | _ => .error .bail
    else
      match ← qdbPut r_a b c with
      | .cell (.cell pn_d qn_d) (.cell l_d r_d) =>
        if ← orBail (qcMor mug pn_a pn_d) then
          .ok (trel (.cell pn_a qn_a) l_a (trel (.cell pn_d qn_d) l_d r_d))
        else .ok (trel (.cell pn_d qn_d) (trel (.cell pn_a qn_a) l_a l_d) r_d)
      | _ => .error .bail
  | _ => .error .bail

/-- `_rebalance()` of `by_del.c` and `in_del.c`, which differ in the key of a node. -/
def rebalance (key : Noun → Option Noun) (a : Noun) : Except Failed Noun :=
  match a with
  | .cell n_a (.cell l_a r_a) =>
    if l_a = nul then .ok r_a
    else if r_a = nul then .ok l_a
    else
      match l_a, r_a with
      | .cell n_l_a (.cell l_l_a r_l_a), .cell n_r_a (.cell l_r_a r_r_a) => do
        let p_l ← orBail (key n_l_a)
        let p_r ← orBail (key n_r_a)
        if ← orBail (qcMor mug p_l p_r) then
          let new_right ← rebalance key (trel n_a r_l_a (.cell n_r_a (.cell l_r_a r_r_a)))
          .ok (trel n_l_a l_l_a new_right)
        else
          let new_left ← rebalance key (trel n_a (.cell n_l_a (.cell l_l_a r_l_a)) l_r_a)
          .ok (trel n_r_a new_left r_r_a)
      | _, _ => .error .bail
  | _ => .error .bail
termination_by a.size
decreasing_by all_goals simp only [trel, size]; omega

/-- `u3qdb_del`. -/
def qdbDel (a b : Noun) : Except Failed Noun :=
  match a with
  | .atom a => if a = 0 then .ok nul else .error .bail
  | .cell (.cell pn_a qn_a) lr_a =>
    if pn_a = b then rebalance mug u3h (.cell (.cell pn_a qn_a) lr_a)
    else
      match lr_a with
      | .cell l_a r_a => do
        if ← orBail (qcGor mug b pn_a) then
          let l ← qdbDel l_a b
          .ok (trel (.cell pn_a qn_a) l r_a)
        else
          let r ← qdbDel r_a b
          .ok (trel (.cell pn_a qn_a) l_a r)
      | .atom _ => .error .bail
  | _ => .error .bail

/-- `u3qdb_uni`. -/
def qdbUni : ℕ → Noun → Noun → Except Failed Noun
  | 0, _, _ => .error .steps
  | fuel + 1, a, b =>
    if b = nul then .ok a
    else if a = nul then .ok b
    else
      match a, b with
      | .cell (.cell p_n_a q_n_a) (.cell l_a r_a), .cell (.cell p_n_b q_n_b) (.cell l_b r_b) => do
        let n_a := Noun.cell p_n_a q_n_a
        let n_b := Noun.cell p_n_b q_n_b
        if p_n_a = p_n_b then
          let l ← qdbUni fuel l_a l_b
          let r ← qdbUni fuel r_a r_b
          .ok (trel n_b l r)
        else if ← orBail (qcMor mug p_n_a p_n_b) then
          if ← orBail (qcGor mug p_n_b p_n_a) then
            let new_la ← qdbUni fuel l_a (trel n_b l_b nul)
            qdbUni fuel (trel n_a new_la r_a) r_b
          else
            let new_ra ← qdbUni fuel r_a (trel n_b nul r_b)
            qdbUni fuel (trel n_a l_a new_ra) l_b
        else if ← orBail (qcGor mug p_n_a p_n_b) then
          let new_lb ← qdbUni fuel (trel n_a l_a nul) l_b
          qdbUni fuel r_a (trel n_b new_lb r_b)
        else
          let new_rb ← qdbUni fuel (trel n_a nul r_a) r_b
          qdbUni fuel l_a (trel n_b l_b new_rb)
      | _, _ => .error .bail

/-- `u3qdb_int`. -/
def qdbInt : ℕ → Noun → Noun → Except Failed Noun
  | 0, _, _ => .error .steps
  | fuel + 1, a, b =>
    if a = nul ∨ b = nul then .ok nul
    else
      match a, b with
      | .cell (.cell p_n_a q_n_a) (.cell l_a r_a), .cell (.cell p_n_b q_n_b) (.cell l_b r_b) => do
        let n_a := Noun.cell p_n_a q_n_a
        let n_b := Noun.cell p_n_b q_n_b
        if ← orBail (qcMor mug p_n_a p_n_b) then
          if p_n_b = p_n_a then
            let l ← qdbInt fuel l_a l_b
            let r ← qdbInt fuel r_a r_b
            .ok (trel n_b l r)
          else if ← orBail (qcGor mug p_n_b p_n_a) then
            let new_a ← qdbInt fuel l_a (trel n_b l_b nul)
            let new_b ← qdbInt fuel (trel n_a l_a r_a) r_b
            qdbUni mug fuel new_a new_b
          else
            let new_a ← qdbInt fuel r_a (trel n_b nul r_b)
            let new_b ← qdbInt fuel (trel n_a l_a r_a) l_b
            qdbUni mug fuel new_a new_b
        else if p_n_a = p_n_b then
          let l ← qdbInt fuel l_a l_b
          let r ← qdbInt fuel r_a r_b
          .ok (trel n_b l r)
        else if ← orBail (qcGor mug p_n_a p_n_b) then
          let new_a ← qdbInt fuel (trel n_a l_a nul) l_b
          let new_b ← qdbInt fuel r_a (trel n_b l_b r_b)
          qdbUni mug fuel new_a new_b
        else
          let new_a ← qdbInt fuel (trel n_a nul r_a) r_b
          let new_b ← qdbInt fuel l_a (trel n_b l_b r_b)
          qdbUni mug fuel new_a new_b
      | _, _ => .error .bail

/-- `_b_dif_join()` and `_i_dif_join()`, which differ in the key of a node. -/
def difJoin (key : Noun → Option Noun) (d e : Noun) : Except Failed Noun :=
  if d = nul then .ok e
  else if e = nul then .ok d
  else
    match d, e with
    | .cell n_d lr_d, .cell n_e lr_e => do
      let p_d ← orBail (key n_d)
      let p_e ← orBail (key n_e)
      if ← orBail (qcMor mug p_d p_e) then
        match lr_d with
        | .cell l_d r_d =>
          let r ← difJoin key r_d (.cell n_e lr_e)
          .ok (trel n_d l_d r)
        | .atom _ => .error .bail
      else
        match lr_e with
        | .cell l_e r_e =>
          let l ← difJoin key (.cell n_d lr_d) l_e
          .ok (trel n_e l r_e)
        | .atom _ => .error .bail
    | _, _ => .error .bail
termination_by d.size + e.size
decreasing_by all_goals simp only [size]; omega

/-- `_b_bif_putroot()`. -/
def bBifPutroot (a b : Noun) : Except Failed Noun :=
  match a with
  | .atom a => if a = 0 then .ok (trel b nul nul) else .error .bail
  | .cell n_a (.cell l_a r_a) =>
    match b, n_a with
    | .cell p_b q_b, .cell p_n_a q_n_a => do
      if p_b = p_n_a then .ok (trel (.cell p_b q_b) l_a r_a)
      else if ← orBail (qcGor mug p_b p_n_a) then
        match ← bBifPutroot l_a b with
        | .cell n_c (.cell l_c r_c) =>
          .ok (trel n_c l_c (trel (.cell p_n_a q_n_a) r_c r_a))
        | _ => .error .bail
      else
        match ← bBifPutroot r_a b with
        | .cell n_c (.cell l_c r_c) =>
          .ok (trel n_c (trel (.cell p_n_a q_n_a) l_a l_c) r_c)
        | _ => .error .bail
    | _, _ => .error .bail
  | _ => .error .bail

/-- `u3qdb_bif`. -/
def qdbBif (a b : Noun) : Except Failed Noun := do
  match ← bBifPutroot mug a b with
  | .cell _ (.cell l_c r_c) => .ok (.cell l_c r_c)
  | _ => .error .bail

/-- `u3qdb_dif`. -/
def qdbDif (a b : Noun) : Except Failed Noun :=
  match b with
  | .atom b => if b = 0 then .ok a else .error .bail
  | .cell n_b (.cell l_b r_b) => do
    match ← qdbBif mug a n_b with
    | .cell l_c r_c =>
      let d ← qdbDif l_c l_b
      let e ← qdbDif r_c r_b
      difJoin mug u3h d e
    | _ => .error .bail
  | _ => .error .bail

/-! ### Sets -/

/-- `u3qdi_put`. -/
def qdiPut (a b : Noun) : Except Failed Noun :=
  match a with
  | .atom a => if a = 0 then .ok (trel b nul nul) else .error .bail
  | .cell n_a lr_a =>
    if n_a = b then .ok (.cell n_a lr_a)
    else
      match lr_a with
      | .cell l_a r_a => do
        if ← orBail (qcGor mug b n_a) then
          match ← qdiPut l_a b with
          | .cell n_c (.cell l_c r_c) =>
            if ← orBail (qcMor mug n_a n_c) then .ok (trel n_a (trel n_c l_c r_c) r_a)
            else .ok (trel n_c l_c (trel n_a r_c r_a))
          | _ => .error .bail
        else
          match ← qdiPut r_a b with
          | .cell n_c (.cell l_c r_c) =>
            if ← orBail (qcMor mug n_a n_c) then .ok (trel n_a l_a (trel n_c l_c r_c))
            else .ok (trel n_c (trel n_a l_a l_c) r_c)
          | _ => .error .bail
      | .atom _ => .error .bail

/-- `u3qdi_del`. -/
def qdiDel (a b : Noun) : Except Failed Noun :=
  match a with
  | .atom a => if a = 0 then .ok nul else .error .bail
  | .cell n_a (.cell l_a r_a) => do
    if n_a = b then rebalance mug some (.cell n_a (.cell l_a r_a))
    else if ← orBail (qcGor mug b n_a) then
      let l ← qdiDel l_a b
      .ok (trel n_a l r_a)
    else
      let r ← qdiDel r_a b
      .ok (trel n_a l_a r)
  | _ => .error .bail

/-- `_in_uni()`. -/
def inUni : ℕ → Noun → Noun → Except Failed Noun
  | 0, _, _ => .error .steps
  | fuel + 1, a, b =>
    if a = nul then .ok b
    else if b = nul then .ok a
    else
      match a, b with
      | .cell n_a (.cell l_a r_a), .cell n_b (.cell l_b r_b) => do
        if (← orBail (qcMor mug n_a n_b)) = false then
          if n_a = n_b then
            let l ← inUni fuel l_a l_b
            let r ← inUni fuel r_a r_b
            .ok (trel n_b l r)
          else if ← orBail (qcGor mug n_a n_b) then
            let sub ← inUni fuel (trel n_a l_a nul) l_b
            inUni fuel r_a (trel n_b sub r_b)
          else
            let sub ← inUni fuel (trel n_a nul r_a) r_b
            inUni fuel l_a (trel n_b l_b sub)
        else if n_b = n_a then
          let l ← inUni fuel l_a l_b
          let r ← inUni fuel r_a r_b
          .ok (trel n_b l r)
        else if ← orBail (qcGor mug n_b n_a) then
          let sub ← inUni fuel l_a (trel n_b l_b nul)
          inUni fuel (trel n_a sub r_a) r_b
        else
          let sub ← inUni fuel r_a (trel n_b nul r_b)
          inUni fuel (trel n_a l_a sub) l_b
      | _, _ => .error .bail

/-- `u3qdi_uni`. -/
def qdiUni (fuel : ℕ) (a b : Noun) : Except Failed Noun :=
  if a = b then .ok a else inUni mug fuel a b

/-- `u3qdi_int`. The operands and their parts are exchanged together. -/
def qdiInt : ℕ → Noun → Noun → Except Failed Noun
  | 0, _, _ => .error .steps
  | fuel + 1, a, b =>
    if a = nul ∨ b = nul then .ok nul
    else
      match a, b with
      | .cell n_a' lr_a', .cell n_b' lr_b' => do
        let swap ← orBail (qcMor mug n_a' n_b')
        let n_a := if swap then n_b' else n_a'
        let n_b := if swap then n_a' else n_b'
        match if swap then lr_b' else lr_a', if swap then lr_a' else lr_b' with
        | .cell l_a r_a, .cell l_b r_b =>
          if n_b = n_a then
            let l ← qdiInt fuel l_a l_b
            let r ← qdiInt fuel r_a r_b
            .ok (trel n_a l r)
          else if ← orBail (qcGor mug n_b n_a) then
            let new_a ← qdiInt fuel l_a (trel n_b l_b nul)
            let new_b ← qdiInt fuel (trel n_a l_a r_a) r_b
            qdiUni mug fuel new_a new_b
          else
            let new_a ← qdiInt fuel r_a (trel n_b nul r_b)
            let new_b ← qdiInt fuel (trel n_a l_a r_a) l_b
            qdiUni mug fuel new_a new_b
        | _, _ => .error .bail
      | _, _ => .error .bail

/-- `_i_bif_putroot()`. -/
def iBifPutroot (a b : Noun) : Except Failed Noun :=
  match a with
  | .atom a => if a = 0 then .ok (trel b nul nul) else .error .bail
  | .cell n_a lr_a =>
    if b = n_a then .ok (.cell n_a lr_a)
    else
      match lr_a with
      | .cell l_a r_a => do
        if ← orBail (qcGor mug b n_a) then
          match ← iBifPutroot l_a b with
          | .cell n_c (.cell l_c r_c) => .ok (trel n_c l_c (trel n_a r_c r_a))
          | _ => .error .bail
        else
          match ← iBifPutroot r_a b with
          | .cell n_c (.cell l_c r_c) => .ok (trel n_c (trel n_a l_a l_c) r_c)
          | _ => .error .bail
      | .atom _ => .error .bail

/-- `u3qdi_bif`. -/
def qdiBif (a b : Noun) : Except Failed Noun := do
  match ← iBifPutroot mug a b with
  | .cell _ (.cell l_c r_c) => .ok (.cell l_c r_c)
  | _ => .error .bail

/-- `u3qdi_dif`. -/
def qdiDif (a b : Noun) : Except Failed Noun :=
  match b with
  | .atom b => if b = 0 then .ok a else .error .bail
  | .cell n_b (.cell l_b r_b) => do
    match ← qdiBif mug a n_b with
    | .cell l_c r_c =>
      let d ← qdiDif l_c l_b
      let e ← qdiDif r_c r_b
      difJoin mug some d e
    | _ => .error .bail
  | _ => .error .bail

/-! ### Nouns that encode treaps -/

section Encoding

variable {α : Type} (enc : α → Noun)

/-- The noun of a tree. -/
def ofTree : Lib.Treap.Tree α → Noun
  | .nil => nul
  | .node n l r => trel (enc n) (ofTree l) (ofTree r)

/-- The noun of a node of a map. -/
def pair (n : Noun × Noun) : Noun := .cell n.1 n.2

/-- A map: a treap of cells of key and value. -/
def IsMap (a : Noun) : Prop :=
  ∃ t : Lib.Treap.Tree (Noun × Noun), a = ofTree pair t ∧
    IsTreap Prod.fst (Gor mug) (Mor mug) t

/-- A set: a treap of keys. -/
def IsSet (a : Noun) : Prop :=
  ∃ t : Lib.Treap.Tree Noun, a = ofTree id t ∧
    IsTreap id (Gor mug) (Mor mug) t

/-- The finite map that a noun denotes. -/
def mapOf : Noun → Noun → Option Noun
  | .cell (.cell p q) (.cell l r), k => if p = k then some q else (mapOf l k).or (mapOf r k)
  | _, _ => none

/-- The finite set that a noun denotes. -/
def setOf : Noun → Set Noun
  | .cell n (.cell l r) => insert n (setOf l ∪ setOf r)
  | _ => ∅

variable {mug enc}

@[simp] theorem ofTree_nil : ofTree enc .nil = nul := rfl

@[simp] theorem ofTree_node (n : α) (l r : Lib.Treap.Tree α) :
    ofTree enc (.node n l r) = .cell (enc n) (.cell (ofTree enc l) (ofTree enc r)) := rfl

@[simp] theorem ofTree_eq_nul {t : Lib.Treap.Tree α} : ofTree enc t = nul ↔ t = .nil := by
  cases t with
  | nil => simp
  | node n l r => simp [nul]

/-- The keys of a tree are among those of a set. -/
def Keyed (key : α → Noun) (keys : Set Noun) (t : Lib.Treap.Tree α) : Prop := ∀ m ∈ t, key m ∈ keys

variable {key : α → Noun} {keys : Set Noun} {n : α} {l r t : Lib.Treap.Tree α}

@[simp] theorem keyed_nil : Keyed key keys .nil := fun _ hm ↦ absurd hm Lib.Treap.Tree.mem_nil

@[simp] theorem keyed_node :
    Keyed key keys (.node n l r) ↔ key n ∈ keys ∧ Keyed key keys l ∧ Keyed key keys r := by
  simp only [Keyed, Lib.Treap.Tree.mem_node]
  grind

/-- Rebalancing after a deletion joins the two subtrees. -/
theorem rebalance_agrees {nkey : Noun → Option Noun} (hkey : ∀ n, nkey (enc n) = some (key n))
    (n : Noun) (hl : Keyed key keys l) (hr : Keyed key keys r) :
    Agrees (Colliding mug keys) (ofTree enc) (Keyed key keys)
      (rebalance mug nkey (trel n (ofTree enc l) (ofTree enc r)))
        (some (join key (Mor mug) l r)) := by
  fun_induction join key (Mor mug) l r with
  | case1 e =>
    unfold rebalance
    simp only [trel, ofTree_nil, if_true]
    exact .same hr
  | case2 m l r =>
    unfold rebalance
    simp only [trel, ofTree_nil, ofTree_eq_nul, reduceCtorEq, if_true, if_false]
    exact .same hl
  | case3 m l r m' lm rm hmor ih =>
    obtain ⟨hm, hl, hr'⟩ := keyed_node.mp hl
    have hm' := (keyed_node.mp hr).1
    unfold rebalance
    simp only [trel, ofTree_eq_nul, reduceCtorEq, if_false]
    simp only [ofTree_node, hkey, orBail_some, ok_bind]
    refine .mor hm hm' ?_
    rw [if_pos hmor]
    exact (ih hr' hr).bind_some fun hgood ↦ .ok (keyed_node.mpr ⟨hm, hl, hgood⟩) rfl
  | case4 m l r m' lm rm hmor ih =>
    obtain ⟨hm', hlm, hrm⟩ := keyed_node.mp hr
    have hm := (keyed_node.mp hl).1
    unfold rebalance
    simp only [trel, ofTree_eq_nul, reduceCtorEq, if_false]
    simp only [ofTree_node, hkey, orBail_some, ok_bind]
    refine .mor hm hm' ?_
    rw [if_neg hmor]
    exact (ih hl hlm).bind_some fun hgood ↦ .ok (keyed_node.mpr ⟨hm', hgood, hrm⟩) rfl

theorem difJoin_agrees {nkey : Noun → Option Noun} (hkey : ∀ n, nkey (enc n) = some (key n))
    (hl : Keyed key keys l) (hr : Keyed key keys r) :
    Agrees (Colliding mug keys) (ofTree enc) (Keyed key keys)
      (difJoin mug nkey (ofTree enc l) (ofTree enc r)) (some (join key (Mor mug) l r)) := by
  fun_induction join key (Mor mug) l r with
  | case1 e =>
    unfold difJoin
    simp only [ofTree_nil, if_true]
    exact .same hr
  | case2 m l r =>
    unfold difJoin
    simp only [ofTree_nil, ofTree_eq_nul, reduceCtorEq, if_true, if_false]
    exact .same hl
  | case3 m l r m' lm rm hmor ih =>
    obtain ⟨hm, hl, hr'⟩ := keyed_node.mp hl
    have hm' := (keyed_node.mp hr).1
    unfold difJoin
    simp only [ofTree_eq_nul, reduceCtorEq, if_false]
    simp only [ofTree_node, hkey, orBail_some, ok_bind]
    refine .mor hm hm' ?_
    rw [if_pos hmor]
    exact (ih hr' hr).bind_some fun hgood ↦ .ok (keyed_node.mpr ⟨hm, hl, hgood⟩) rfl
  | case4 m l r m' lm rm hmor ih =>
    obtain ⟨hm', hlm, hrm⟩ := keyed_node.mp hr
    have hm := (keyed_node.mp hl).1
    unfold difJoin
    simp only [ofTree_eq_nul, reduceCtorEq, if_false]
    simp only [ofTree_node, hkey, orBail_some, ok_bind]
    refine .mor hm hm' ?_
    rw [if_neg hmor]
    exact (ih hl hlm).bind_some fun hgood ↦ .ok (keyed_node.mpr ⟨hm', hgood, hrm⟩) rfl

end Encoding

/-! ### The code computes the operations on treaps -/

variable {k : Noun}

section Refinement

variable {mug} {keys : Set Noun}

theorem qdbPut_agrees {t : Lib.Treap.Tree (Noun × Noun)} (ht : Keyed Prod.fst keys t) {p : Noun}
    (hp : p ∈ keys) (q : Noun) : Agrees (Colliding mug keys) (ofTree pair) (Keyed Prod.fst keys)
      (qdbPut mug (ofTree pair t) p q) (some (put Prod.fst (Gor mug) (Mor mug) (p, q) t)) := by
  have hnode : ∀ t, ∃ d ld rd, put Prod.fst (Gor mug) (Mor mug) (p, q) t = .node d ld rd :=
    fun t ↦ put_eq_node (p, q) t
  induction t with
  | nil => exact .ok (keyed_node.mpr ⟨hp, keyed_nil, keyed_nil⟩) rfl
  | node n l r ihl ihr =>
    obtain ⟨pn, qn⟩ := n
    obtain ⟨hn, hl, hr⟩ := keyed_node.mp ht
    simp only [ofTree_node, pair, qdbPut, put]
    by_cases hkey : pn = p
    · subst hkey
      rw [if_pos rfl, if_pos rfl]
      by_cases hval : qn = q
      · subst hval
        rw [if_pos rfl]
        exact .ok ht rfl
      · rw [if_neg hval]
        exact .ok (keyed_node.mpr ⟨hp, hl, hr⟩) rfl
    rw [if_neg hkey, if_neg hkey]
    refine .gor hp hn ?_
    by_cases hgor : gor mug p pn = true
    · rw [if_pos hgor, if_pos hgor]
      refine (ihl hl).bind_some fun hgood ↦ ?_
      obtain ⟨⟨pd, qd⟩, ld, rd, hput⟩ := hnode l
      rw [hput] at hgood ⊢
      obtain ⟨hd, hld, hrd⟩ := keyed_node.mp hgood
      refine .mor hn hd ?_
      rw [hangLeft]
      by_cases hmor : mor mug pn pd = true
      · rw [if_pos hmor, if_pos hmor]
        exact .ok (keyed_node.mpr ⟨hn, hgood, hr⟩) rfl
      · rw [if_neg hmor, if_neg hmor]
        exact .ok (by simp only [keyed_node]; exact ⟨hd, hld, hn, hrd, hr⟩) rfl
    · rw [if_neg hgor, if_neg hgor]
      refine (ihr hr).bind_some fun hgood ↦ ?_
      obtain ⟨⟨pd, qd⟩, ld, rd, hput⟩ := hnode r
      rw [hput] at hgood ⊢
      obtain ⟨hd, hld, hrd⟩ := keyed_node.mp hgood
      refine .mor hn hd ?_
      rw [hangRight]
      by_cases hmor : mor mug pn pd = true
      · rw [if_pos hmor, if_pos hmor]
        exact .ok (keyed_node.mpr ⟨hn, hl, hgood⟩) rfl
      · rw [if_neg hmor, if_neg hmor]
        exact .ok (by simp only [keyed_node]; exact ⟨hd, ⟨hn, hl, hld⟩, hrd⟩) rfl

theorem u3h_pair (n : Noun × Noun) : u3h (pair n) = some n.1 := rfl

theorem qdbDel_agrees {t : Lib.Treap.Tree (Noun × Noun)} (ht : Keyed Prod.fst keys t)
    (hk : k ∈ keys) :
    Agrees (Colliding mug keys) (ofTree pair) (Keyed Prod.fst keys)
      (qdbDel mug (ofTree pair t) k) (some (del Prod.fst (Gor mug) (Mor mug) k t)) := by
  induction t with
  | nil => exact .ok keyed_nil rfl
  | node n l r ihl ihr =>
    obtain ⟨pn, qn⟩ := n
    obtain ⟨hn, hl, hr⟩ := keyed_node.mp ht
    simp only [ofTree_node, pair, qdbDel, del]
    by_cases hkey : pn = k
    · rw [if_pos hkey, if_pos hkey]
      exact rebalance_agrees u3h_pair _ hl hr
    rw [if_neg hkey, if_neg hkey]
    refine .gor hk hn ?_
    by_cases hgor : gor mug k pn = true
    · rw [if_pos hgor, if_pos hgor]
      exact (ihl hl).bind_some fun hgood ↦ .ok (keyed_node.mpr ⟨hn, hgood, hr⟩) rfl
    · rw [if_neg hgor, if_neg hgor]
      exact (ihr hr).bind_some fun hgood ↦ .ok (keyed_node.mpr ⟨hn, hl, hgood⟩) rfl

theorem qdbUni_agrees (fuel : ℕ) {a b : Lib.Treap.Tree (Noun × Noun)} (ha : Keyed Prod.fst keys a)
    (hb : Keyed Prod.fst keys b) : Agrees (Colliding mug keys) (ofTree pair) (Keyed Prod.fst keys)
      (qdbUni mug fuel (ofTree pair a) (ofTree pair b))
        (uni Prod.fst (Gor mug) (Mor mug) fuel a b) := by
  induction fuel generalizing a b with
  | zero => exact .steps
  | succ fuel ih =>
    cases b with
    | nil =>
      simp only [qdbUni, uni, ofTree_nil, if_true]
      exact .same ha
    | node m lm rm =>
      cases a with
      | nil =>
        simp only [qdbUni, uni, ofTree_nil, ofTree_eq_nul, reduceCtorEq, if_true, if_false]
        exact .same hb
      | node n l r =>
        obtain ⟨p_n, q_n⟩ := n
        obtain ⟨p_m, q_m⟩ := m
        obtain ⟨hn, hl, hr⟩ := keyed_node.mp ha
        obtain ⟨hm, hlm, hrm⟩ := keyed_node.mp hb
        simp only [qdbUni, uni, ofTree_eq_nul, reduceCtorEq, if_false]
        simp only [ofTree_node, pair]
        by_cases hkey : p_n = p_m
        · rw [if_pos hkey, if_pos hkey]
          exact (ih hl hlm).bind fun c hc ↦ (ih hr hrm).bind fun d hd ↦
            .ok (keyed_node.mpr ⟨hm, hc, hd⟩) rfl
        rw [if_neg hkey, if_neg hkey]
        refine .mor hn hm ?_
        by_cases hmor : mor mug p_n p_m = true
        · rw [if_pos hmor, if_pos hmor]
          refine .gor hm hn ?_
          by_cases hgor : gor mug p_m p_n = true
          · rw [if_pos hgor, if_pos hgor]
            have hlow : Keyed Prod.fst keys (.node (p_m, q_m) lm .nil) :=
              keyed_node.mpr ⟨hm, hlm, keyed_nil⟩
            exact (ih hl hlow).bind fun c hc ↦ ih (keyed_node.mpr ⟨hn, hc, hr⟩) hrm
          · rw [if_neg hgor, if_neg hgor]
            have hlow : Keyed Prod.fst keys (.node (p_m, q_m) .nil rm) :=
              keyed_node.mpr ⟨hm, keyed_nil, hrm⟩
            exact (ih hr hlow).bind fun c hc ↦ ih (keyed_node.mpr ⟨hn, hl, hc⟩) hlm
        · rw [if_neg hmor, if_neg hmor]
          refine .gor hn hm ?_
          by_cases hgor : gor mug p_n p_m = true
          · rw [if_pos hgor, if_pos hgor]
            have hlow : Keyed Prod.fst keys (.node (p_n, q_n) l .nil) :=
              keyed_node.mpr ⟨hn, hl, keyed_nil⟩
            exact (ih hlow hlm).bind fun c hc ↦ ih hr (keyed_node.mpr ⟨hm, hc, hrm⟩)
          · rw [if_neg hgor, if_neg hgor]
            have hlow : Keyed Prod.fst keys (.node (p_n, q_n) .nil r) :=
              keyed_node.mpr ⟨hn, keyed_nil, hr⟩
            exact (ih hlow hrm).bind fun c hc ↦ ih hl (keyed_node.mpr ⟨hm, hlm, hc⟩)

theorem qdbInt_agrees (fuel : ℕ) {a b : Lib.Treap.Tree (Noun × Noun)} (ha : Keyed Prod.fst keys a)
    (hb : Keyed Prod.fst keys b) : Agrees (Colliding mug keys) (ofTree pair) (Keyed Prod.fst keys)
      (qdbInt mug fuel (ofTree pair a) (ofTree pair b))
        (int Prod.fst (Gor mug) (Mor mug) fuel a b) := by
  induction fuel generalizing a b with
  | zero => exact .steps
  | succ fuel ih =>
    cases a with
    | nil =>
      simp only [qdbInt, int, ofTree_nil, true_or, if_true]
      exact .same keyed_nil
    | node n l r =>
      cases b with
      | nil =>
        simp only [qdbInt, int, ofTree_nil, or_true, if_true]
        exact .same keyed_nil
      | node m lm rm =>
        obtain ⟨p_n, q_n⟩ := n
        obtain ⟨p_m, q_m⟩ := m
        obtain ⟨hn, hl, hr⟩ := keyed_node.mp ha
        obtain ⟨hm, hlm, hrm⟩ := keyed_node.mp hb
        simp only [qdbInt, int, ofTree_eq_nul, reduceCtorEq, or_self, if_false]
        simp only [ofTree_node, pair]
        refine .mor hn hm ?_
        by_cases hkey : p_n = p_m
        · subst hkey
          rw [if_pos (refl_of (Mor mug) p_n), if_pos rfl, if_pos rfl]
          exact (ih hl hlm).bind fun c hc ↦ (ih hr hrm).bind fun d hd ↦
            .ok (keyed_node.mpr ⟨hm, hc, hd⟩) rfl
        rw [if_neg hkey, if_neg hkey, if_neg (Ne.symm hkey)]
        by_cases hmor : mor mug p_n p_m = true
        · rw [if_pos hmor, if_pos hmor]
          refine .gor hm hn ?_
          by_cases hgor : gor mug p_m p_n = true
          · rw [if_pos hgor, if_pos hgor]
            have hlow : Keyed Prod.fst keys (.node (p_m, q_m) lm .nil) :=
              keyed_node.mpr ⟨hm, hlm, keyed_nil⟩
            exact (ih hl hlow).bind fun c hc ↦ (ih ha hrm).bind fun d hd ↦ qdbUni_agrees fuel hc hd
          · rw [if_neg hgor, if_neg hgor]
            have hlow : Keyed Prod.fst keys (.node (p_m, q_m) .nil rm) :=
              keyed_node.mpr ⟨hm, keyed_nil, hrm⟩
            exact (ih hr hlow).bind fun c hc ↦ (ih ha hlm).bind fun d hd ↦ qdbUni_agrees fuel hc hd
        · rw [if_neg hmor, if_neg hmor]
          refine .gor hn hm ?_
          by_cases hgor : gor mug p_n p_m = true
          · rw [if_pos hgor, if_pos hgor]
            have hlow : Keyed Prod.fst keys (.node (p_n, q_n) l .nil) :=
              keyed_node.mpr ⟨hn, hl, keyed_nil⟩
            exact (ih hlow hlm).bind fun c hc ↦ (ih hr hb).bind fun d hd ↦ qdbUni_agrees fuel hc hd
          · rw [if_neg hgor, if_neg hgor]
            have hlow : Keyed Prod.fst keys (.node (p_n, q_n) .nil r) :=
              keyed_node.mpr ⟨hn, keyed_nil, hr⟩
            exact (ih hlow hrm).bind fun c hc ↦ (ih hl hb).bind fun d hd ↦ qdbUni_agrees fuel hc hd

/-- The two parts of a split, as the subtrees of a node. -/
theorem bBifPutroot_agrees {t : Lib.Treap.Tree (Noun × Noun)} (ht : Keyed Prod.fst keys t)
    {p : Noun} (hp : p ∈ keys) (q : Noun) :
    Agrees (Colliding mug keys) (ofTree pair) (Keyed Prod.fst keys)
      (bBifPutroot mug (ofTree pair t) (.cell p q))
      (some (.node (p, q) (split Prod.fst (Gor mug) p t).1 (split Prod.fst (Gor mug) p t).2)) := by
  induction t with
  | nil => exact .ok (keyed_node.mpr ⟨hp, keyed_nil, keyed_nil⟩) rfl
  | node n l r ihl ihr =>
    obtain ⟨pn, qn⟩ := n
    obtain ⟨hn, hl, hr⟩ := keyed_node.mp ht
    simp only [ofTree_node, pair, bBifPutroot, split]
    by_cases hkey : p = pn
    · rw [if_pos hkey, if_pos hkey]
      exact .ok (keyed_node.mpr ⟨hp, hl, hr⟩) rfl
    rw [if_neg hkey, if_neg hkey]
    refine .gor hp hn ?_
    by_cases hgor : gor mug p pn = true
    · rw [if_pos hgor, if_pos hgor]
      refine (ihl hl).bind_some fun hgood ↦ ?_
      obtain ⟨-, hfirst, hsecond⟩ := keyed_node.mp hgood
      exact .ok (by simp only [keyed_node]; exact ⟨hp, hfirst, hn, hsecond, hr⟩) rfl
    · rw [if_neg hgor, if_neg hgor]
      refine (ihr hr).bind_some fun hgood ↦ ?_
      obtain ⟨-, hfirst, hsecond⟩ := keyed_node.mp hgood
      exact .ok (by simp only [keyed_node]; exact ⟨hp, ⟨hn, hl, hfirst⟩, hsecond⟩) rfl

/-- The noun of the two parts of a split. -/
def ofTrees {α : Type} (enc : α → Noun) (parts : Lib.Treap.Tree α × Lib.Treap.Tree α) : Noun :=
  .cell (ofTree enc parts.1) (ofTree enc parts.2)

/-- The keys of two trees are among those of a set. -/
def BothKeyed {α : Type} (key : α → Noun) (keys : Set Noun)
    (parts : Lib.Treap.Tree α × Lib.Treap.Tree α) : Prop :=
  Keyed key keys parts.1 ∧ Keyed key keys parts.2

theorem qdbBif_agrees {t : Lib.Treap.Tree (Noun × Noun)} (ht : Keyed Prod.fst keys t) {p : Noun}
    (hp : p ∈ keys) (q : Noun) :
    Agrees (Colliding mug keys) (ofTrees pair) (BothKeyed Prod.fst keys)
      (qdbBif mug (ofTree pair t) (.cell p q)) (some (split Prod.fst (Gor mug) p t)) :=
  (bBifPutroot_agrees ht hp q).bind_some fun hgood ↦ .ok (keyed_node.mp hgood).2 rfl

theorem qdbDif_agrees {a b : Lib.Treap.Tree (Noun × Noun)} (ha : Keyed Prod.fst keys a)
    (hb : Keyed Prod.fst keys b) : Agrees (Colliding mug keys) (ofTree pair) (Keyed Prod.fst keys)
      (qdbDif mug (ofTree pair a) (ofTree pair b))
        (some (dif Prod.fst (Gor mug) (Mor mug) a b)) := by
  induction b generalizing a with
  | nil => exact .same ha
  | node n l r ihl ihr =>
    obtain ⟨p, q⟩ := n
    obtain ⟨hn, hl, hr⟩ := keyed_node.mp hb
    simp only [ofTree_node, pair, qdbDif, dif]
    refine (qdbBif_agrees ha hn q).bind_some fun hgood ↦ ?_
    refine (ihl hgood.1 hl).bind_some fun hc ↦ (ihr hgood.2 hr).bind_some fun hd ↦ ?_
    exact difJoin_agrees u3h_pair hc hd

theorem keyed_id_node {n : Noun} {l r : Lib.Treap.Tree Noun} :
    Keyed id keys (.node n l r) ↔ n ∈ keys ∧ Keyed id keys l ∧ Keyed id keys r := keyed_node

theorem qdiPut_agrees {t : Lib.Treap.Tree Noun} (ht : Keyed id keys t) (hk : k ∈ keys) :
    Agrees (Colliding mug keys) (ofTree id) (Keyed id keys)
      (qdiPut mug (ofTree id t) k) (some (put id (Gor mug) (Mor mug) k t)) := by
  have hnode : ∀ t, ∃ d ld rd, put id (Gor mug) (Mor mug) k t = .node d ld rd :=
    fun t ↦ put_eq_node k t
  induction t with
  | nil => exact .ok (keyed_node.mpr ⟨hk, keyed_nil, keyed_nil⟩) rfl
  | node n l r ihl ihr =>
    obtain ⟨hn, hl, hr⟩ := keyed_id_node.mp ht
    simp only [ofTree_node, id, qdiPut, put]
    by_cases hkey : n = k
    · subst hkey
      rw [if_pos rfl, if_pos rfl]
      exact .same ht
    rw [if_neg hkey, if_neg hkey]
    refine .gor hk hn ?_
    by_cases hgor : gor mug k n = true
    · rw [if_pos hgor, if_pos hgor]
      refine (ihl hl).bind_some fun hgood ↦ ?_
      obtain ⟨d, ld, rd, hput⟩ := hnode l
      rw [hput] at hgood ⊢
      obtain ⟨hd, hld, hrd⟩ := keyed_id_node.mp hgood
      refine .mor hn hd ?_
      simp only [hangLeft, id]
      by_cases hmor : mor mug n d = true
      · rw [if_pos hmor, if_pos hmor]
        exact .ok (keyed_node.mpr ⟨hn, hgood, hr⟩) rfl
      · rw [if_neg hmor, if_neg hmor]
        exact .ok (by simp only [keyed_node]; exact ⟨hd, hld, hn, hrd, hr⟩) rfl
    · rw [if_neg hgor, if_neg hgor]
      refine (ihr hr).bind_some fun hgood ↦ ?_
      obtain ⟨d, ld, rd, hput⟩ := hnode r
      rw [hput] at hgood ⊢
      obtain ⟨hd, hld, hrd⟩ := keyed_id_node.mp hgood
      refine .mor hn hd ?_
      simp only [hangRight, id]
      by_cases hmor : mor mug n d = true
      · rw [if_pos hmor, if_pos hmor]
        exact .ok (keyed_node.mpr ⟨hn, hl, hgood⟩) rfl
      · rw [if_neg hmor, if_neg hmor]
        exact .ok (by simp only [keyed_node]; exact ⟨hd, ⟨hn, hl, hld⟩, hrd⟩) rfl

theorem qdiDel_agrees {t : Lib.Treap.Tree Noun} (ht : Keyed id keys t) (hk : k ∈ keys) :
    Agrees (Colliding mug keys) (ofTree id) (Keyed id keys)
      (qdiDel mug (ofTree id t) k) (some (del id (Gor mug) (Mor mug) k t)) := by
  induction t with
  | nil => exact .ok keyed_nil rfl
  | node n l r ihl ihr =>
    obtain ⟨hn, hl, hr⟩ := keyed_id_node.mp ht
    simp only [ofTree_node, id, qdiDel, del]
    by_cases hkey : n = k
    · rw [if_pos hkey, if_pos hkey]
      exact rebalance_agrees (fun _ ↦ rfl) n hl hr
    rw [if_neg hkey, if_neg hkey]
    refine .gor hk hn ?_
    by_cases hgor : gor mug k n = true
    · rw [if_pos hgor, if_pos hgor]
      exact (ihl hl).bind_some fun hgood ↦ .ok (keyed_node.mpr ⟨hn, hgood, hr⟩) rfl
    · rw [if_neg hgor, if_neg hgor]
      exact (ihr hr).bind_some fun hgood ↦ .ok (keyed_node.mpr ⟨hn, hl, hgood⟩) rfl

theorem inUni_agrees (fuel : ℕ) {a b : Lib.Treap.Tree Noun} (ha : Keyed id keys a)
    (hb : Keyed id keys b) :
    Agrees (Colliding mug keys) (ofTree id) (Keyed id keys)
      (inUni mug fuel (ofTree id a) (ofTree id b)) (uni id (Gor mug) (Mor mug) fuel a b) := by
  induction fuel generalizing a b with
  | zero => exact .steps
  | succ fuel ih =>
    cases a with
    | nil =>
      cases b with
      | nil => exact .same keyed_nil
      | node m lm rm =>
        simp only [inUni, uni, ofTree_nil, if_true]
        exact .same hb
    | node n l r =>
      cases b with
      | nil =>
        simp only [inUni, uni, ofTree_nil, ofTree_eq_nul, reduceCtorEq, if_true, if_false]
        exact .same ha
      | node m lm rm =>
        obtain ⟨hn, hl, hr⟩ := keyed_id_node.mp ha
        obtain ⟨hm, hlm, hrm⟩ := keyed_id_node.mp hb
        simp only [inUni, uni, ofTree_eq_nul, reduceCtorEq, if_false]
        simp only [ofTree_node, id]
        refine .mor hn hm ?_
        by_cases hkey : n = m
        · subst hkey
          rw [if_neg (by rw [refl_of (Mor mug) n]; decide), if_pos rfl, if_pos rfl]
          exact (ih hl hlm).bind fun c hc ↦ (ih hr hrm).bind fun d hd ↦
            .ok (keyed_node.mpr ⟨hm, hc, hd⟩) rfl
        rw [if_neg hkey, if_neg hkey, if_neg (Ne.symm hkey)]
        by_cases hmor : mor mug n m = true
        · rw [if_neg (by rw [hmor]; decide), if_pos hmor]
          refine .gor hm hn ?_
          by_cases hgor : gor mug m n = true
          · rw [if_pos hgor, if_pos hgor]
            have hlow : Keyed id keys (.node m lm .nil) := keyed_node.mpr ⟨hm, hlm, keyed_nil⟩
            exact (ih hl hlow).bind fun c hc ↦ ih (keyed_node.mpr ⟨hn, hc, hr⟩) hrm
          · rw [if_neg hgor, if_neg hgor]
            have hlow : Keyed id keys (.node m .nil rm) := keyed_node.mpr ⟨hm, keyed_nil, hrm⟩
            exact (ih hr hlow).bind fun c hc ↦ ih (keyed_node.mpr ⟨hn, hl, hc⟩) hlm
        · rw [if_pos (Bool.not_eq_true _ ▸ hmor), if_neg hmor]
          refine .gor hn hm ?_
          by_cases hgor : gor mug n m = true
          · rw [if_pos hgor, if_pos hgor]
            have hlow : Keyed id keys (.node n l .nil) := keyed_node.mpr ⟨hn, hl, keyed_nil⟩
            exact (ih hlow hlm).bind fun c hc ↦ ih hr (keyed_node.mpr ⟨hm, hc, hrm⟩)
          · rw [if_neg hgor, if_neg hgor]
            have hlow : Keyed id keys (.node n .nil r) := keyed_node.mpr ⟨hn, keyed_nil, hr⟩
            exact (ih hlow hrm).bind fun c hc ↦ ih hl (keyed_node.mpr ⟨hm, hlm, hc⟩)

theorem ofTree_inj {α : Type} {enc : α → Noun} (hinj : Function.Injective enc)
    {a b : Lib.Treap.Tree α} :
    ofTree enc a = ofTree enc b ↔ a = b := by
  induction a generalizing b with
  | nil => cases b <;> simp [nul]
  | node n l r ihl ihr =>
    cases b with
    | nil => simp [nul]
    | node m lm rm => simp [ihl, ihr, hinj.eq_iff]

theorem ofTree_id_inj {a b : Lib.Treap.Tree Noun} : ofTree id a = ofTree id b ↔ a = b :=
  ofTree_inj Function.injective_id

theorem qdiUni_agrees (fuel : ℕ) {a b : Lib.Treap.Tree Noun} (ha : Keyed id keys a)
    (hb : Keyed id keys b) :
    Agrees (Colliding mug keys) (ofTree id) (Keyed id keys)
      (qdiUni mug fuel (ofTree id a) (ofTree id b)) (uniSing id (Gor mug) (Mor mug) fuel a b) := by
  simp only [qdiUni, uniSing, ofTree_id_inj]
  by_cases hsame : a = b
  · rw [if_pos hsame, if_pos hsame]
    exact .same ha
  · rw [if_neg hsame, if_neg hsame]
    exact inUni_agrees fuel ha hb

theorem qdiInt_agrees (fuel : ℕ) {a b : Lib.Treap.Tree Noun} (ha : Keyed id keys a)
    (hb : Keyed id keys b) :
    Agrees (Colliding mug keys) (ofTree id) (Keyed id keys)
      (qdiInt mug fuel (ofTree id a) (ofTree id b)) (intSwap id (Gor mug) (Mor mug) fuel a b) := by
  induction fuel generalizing a b with
  | zero => exact .steps
  | succ fuel ih =>
    -- With the operands in their order, or exchanged.
    have hordered : ∀ {n m : Noun} {l r lm rm : Lib.Treap.Tree Noun}, Keyed id keys (.node n l r) →
        Keyed id keys (.node m lm rm) → Agrees (Colliding mug keys) (ofTree id) (Keyed id keys)
          (do
            if m = n then
              let c ← qdiInt mug fuel (ofTree id l) (ofTree id lm)
              let d ← qdiInt mug fuel (ofTree id r) (ofTree id rm)
              .ok (trel n c d)
            else if ← orBail (qcGor mug m n) then
              let c ← qdiInt mug fuel (ofTree id l) (trel m (ofTree id lm) nul)
              let d ← qdiInt mug fuel (trel n (ofTree id l) (ofTree id r)) (ofTree id rm)
              qdiUni mug fuel c d
            else
              let c ← qdiInt mug fuel (ofTree id r) (trel m nul (ofTree id rm))
              let d ← qdiInt mug fuel (trel n (ofTree id l) (ofTree id r)) (ofTree id lm)
              qdiUni mug fuel c d)
          (if m = n then do
            let c ← intSwap id (Gor mug) (Mor mug) fuel l lm
            let d ← intSwap id (Gor mug) (Mor mug) fuel r rm
            some (.node n c d)
          else if Gor mug m n then do
            let c ← intSwap id (Gor mug) (Mor mug) fuel l (.node m lm .nil)
            let d ← intSwap id (Gor mug) (Mor mug) fuel (.node n l r) rm
            uniSing id (Gor mug) (Mor mug) fuel c d
          else do
            let c ← intSwap id (Gor mug) (Mor mug) fuel r (.node m .nil rm)
            let d ← intSwap id (Gor mug) (Mor mug) fuel (.node n l r) lm
            uniSing id (Gor mug) (Mor mug) fuel c d) := by
      intro n m l r lm rm hhigh hlow
      obtain ⟨hn, hl, hr⟩ := keyed_id_node.mp hhigh
      obtain ⟨hm, hlm, hrm⟩ := keyed_id_node.mp hlow
      by_cases hkey : m = n
      · rw [if_pos hkey, if_pos hkey]
        exact (ih hl hlm).bind fun c hc ↦ (ih hr hrm).bind fun d hd ↦
          .ok (keyed_node.mpr ⟨hn, hc, hd⟩) rfl
      rw [if_neg hkey, if_neg hkey]
      refine .gor hm hn ?_
      by_cases hgor : gor mug m n = true
      · rw [if_pos hgor, if_pos hgor]
        have hpart : Keyed id keys (.node m lm .nil) := keyed_node.mpr ⟨hm, hlm, keyed_nil⟩
        exact (ih hl hpart).bind fun c hc ↦ (ih hhigh hrm).bind fun d hd ↦ qdiUni_agrees fuel hc hd
      · rw [if_neg hgor, if_neg hgor]
        have hpart : Keyed id keys (.node m .nil rm) := keyed_node.mpr ⟨hm, keyed_nil, hrm⟩
        exact (ih hr hpart).bind fun c hc ↦ (ih hhigh hlm).bind fun d hd ↦ qdiUni_agrees fuel hc hd
    cases a with
    | nil =>
      simp only [qdiInt, intSwap, ofTree_nil, true_or, if_true]
      exact .same keyed_nil
    | node n l r =>
      cases b with
      | nil =>
        simp only [qdiInt, intSwap, ofTree_nil, or_true, if_true]
        exact .same keyed_nil
      | node m lm rm =>
        simp only [qdiInt, intSwap, ofTree_eq_nul, reduceCtorEq, or_self, if_false]
        simp only [ofTree_node, id]
        refine .mor (keyed_id_node.mp ha).1 (keyed_id_node.mp hb).1 ?_
        by_cases hmor : mor mug n m = true
        · simp only [Mor, hmor, decide_true, if_true]
          exact hordered hb ha
        · simp only [Mor, hmor, decide_false, Bool.false_eq_true, if_false]
          exact hordered ha hb

theorem iBifPutroot_agrees {t : Lib.Treap.Tree Noun} (ht : Keyed id keys t) (hk : k ∈ keys) :
    Agrees (Colliding mug keys) (ofTree id) (Keyed id keys) (iBifPutroot mug (ofTree id t) k)
      (some (.node k (split id (Gor mug) k t).1 (split id (Gor mug) k t).2)) := by
  induction t with
  | nil => exact .ok (keyed_node.mpr ⟨hk, keyed_nil, keyed_nil⟩) rfl
  | node n l r ihl ihr =>
    obtain ⟨hn, hl, hr⟩ := keyed_id_node.mp ht
    simp only [ofTree_node, id, iBifPutroot, split]
    by_cases hkey : k = n
    · subst hkey
      rw [if_pos rfl, if_pos rfl]
      exact .same ht
    rw [if_neg hkey, if_neg hkey]
    refine .gor hk hn ?_
    by_cases hgor : gor mug k n = true
    · rw [if_pos hgor, if_pos hgor]
      refine (ihl hl).bind_some fun hgood ↦ ?_
      obtain ⟨-, hfirst, hsecond⟩ := keyed_id_node.mp hgood
      exact .ok (by simp only [keyed_node]; exact ⟨hk, hfirst, hn, hsecond, hr⟩) rfl
    · rw [if_neg hgor, if_neg hgor]
      refine (ihr hr).bind_some fun hgood ↦ ?_
      obtain ⟨-, hfirst, hsecond⟩ := keyed_id_node.mp hgood
      exact .ok (by simp only [keyed_node]; exact ⟨hk, ⟨hn, hl, hfirst⟩, hsecond⟩) rfl

theorem qdiBif_agrees {t : Lib.Treap.Tree Noun} (ht : Keyed id keys t) (hk : k ∈ keys) :
    Agrees (Colliding mug keys) (ofTrees id) (BothKeyed id keys) (qdiBif mug (ofTree id t) k)
      (some (split id (Gor mug) k t)) :=
  (iBifPutroot_agrees ht hk).bind_some fun hgood ↦ .ok (keyed_id_node.mp hgood).2 rfl

theorem qdiDif_agrees {a b : Lib.Treap.Tree Noun} (ha : Keyed id keys a) (hb : Keyed id keys b) :
    Agrees (Colliding mug keys) (ofTree id) (Keyed id keys)
      (qdiDif mug (ofTree id a) (ofTree id b)) (some (dif id (Gor mug) (Mor mug) a b)) := by
  induction b generalizing a with
  | nil => exact .same ha
  | node n l r ihl ihr =>
    obtain ⟨hn, hl, hr⟩ := keyed_id_node.mp hb
    simp only [ofTree_node, id, qdiDif, dif]
    refine (qdiBif_agrees ha hn).bind_some fun hgood ↦ ?_
    refine (ihl hgood.1 hl).bind_some fun hc ↦ (ihr hgood.2 hr).bind_some fun hd ↦ ?_
    exact difJoin_agrees (fun _ ↦ rfl) hc hd

end Refinement

/-! ### What the nouns denote -/

section Denotation

variable {mug}

theorem mem_of_mapOf {t : Lib.Treap.Tree (Noun × Noun)} {v : Noun}
    (hmap : mapOf (ofTree pair t) k = some v) : (k, v) ∈ t := by
  induction t with
  | nil => simp [mapOf, nul] at hmap
  | node n l r ihl ihr =>
    obtain ⟨p, q⟩ := n
    simp only [ofTree_node, pair, mapOf] at hmap
    split_ifs at hmap with hkey
    · rw [Option.some.injEq] at hmap
      simp [hkey, hmap]
    · rcases Option.or_eq_some_iff.mp hmap with hleft | ⟨_, hright⟩
      · simp [ihl hleft]
      · simp [ihr hright]

theorem mapOf_isSome_of_mem {t : Lib.Treap.Tree (Noun × Noun)} {v : Noun} (hmem : (k, v) ∈ t) :
    (mapOf (ofTree pair t) k).isSome := by
  induction t with
  | nil => simp at hmem
  | node n l r ihl ihr =>
    obtain ⟨p, q⟩ := n
    simp only [ofTree_node, pair, mapOf]
    split_ifs with hkey
    · rfl
    · rcases Lib.Treap.Tree.mem_node.mp hmem with hleft | heq | hright
      · simp [ihl hleft]
      · exact absurd (congrArg Prod.fst heq).symm hkey
      · simp [ihr hright]

/-- The finite map of a treap holds exactly its nodes. -/
theorem mapOf_eq_some {t : Lib.Treap.Tree (Noun × Noun)} (ht : Valid Prod.fst (Gor mug) (Mor mug) t)
    {v : Noun} : mapOf (ofTree pair t) k = some v ↔ (k, v) ∈ t := by
  refine ⟨mem_of_mapOf, fun hmem ↦ ?_⟩
  obtain ⟨w, hw⟩ := Option.isSome_iff_exists.mp (mapOf_isSome_of_mem hmem)
  have heq := ht.key_inj hmem (mem_of_mapOf hw) rfl
  rw [hw, (Prod.mk.inj heq).2]

theorem mapOf_isSome_iff {t : Lib.Treap.Tree (Noun × Noun)} :
    (mapOf (ofTree pair t) k).isSome ↔ ∃ n ∈ t, n.1 = k := by
  constructor
  · intro hsome
    obtain ⟨v, hv⟩ := Option.isSome_iff_exists.mp hsome
    exact ⟨(k, v), mem_of_mapOf hv, rfl⟩
  · rintro ⟨⟨p, v⟩, hmem, rfl⟩
    exact mapOf_isSome_of_mem hmem

theorem mapOf_eq_none_iff {t : Lib.Treap.Tree (Noun × Noun)} :
    mapOf (ofTree pair t) k = none ↔ ∀ n ∈ t, n.1 ≠ k := by
  rw [← Option.not_isSome_iff_eq_none, mapOf_isSome_iff]
  push Not
  rfl

theorem mem_setOf {t : Lib.Treap.Tree Noun} : k ∈ setOf (ofTree id t) ↔ k ∈ t := by
  induction t with
  | nil => simp [setOf, nul]
  | node n l r ihl ihr =>
    simp only [ofTree_node, id, setOf, Set.mem_insert_iff, Set.mem_union, ihl, ihr,
      Lib.Treap.Tree.mem_node]
    tauto

/-- A treap of cells denotes a given map when it has the right nodes. -/
theorem isMap_mapOf {t : Lib.Treap.Tree (Noun × Noun)} (ht : Valid Prod.fst (Gor mug) (Mor mug) t)
    {f : Noun → Option Noun} (hf : ∀ k v, (k, v) ∈ t ↔ f k = some v) :
    IsMap mug (ofTree pair t) ∧ mapOf (ofTree pair t) = f := by
  refine ⟨⟨t, rfl, isTreap_iff_valid.mpr ht⟩, ?_⟩
  funext k
  exact Option.ext fun v ↦ (mapOf_eq_some ht).trans (hf k v)

/-- A treap of keys denotes a given set when it has the right nodes. -/
theorem isSet_setOf {t : Lib.Treap.Tree Noun} (ht : Valid id (Gor mug) (Mor mug) t) {f : Set Noun}
    (hf : ∀ k, k ∈ t ↔ k ∈ f) : IsSet mug (ofTree id t) ∧ setOf (ofTree id t) = f := by
  refine ⟨⟨t, rfl, isTreap_iff_valid.mpr ht⟩, ?_⟩
  ext k
  exact mem_setOf.trans (hf k)

variable (a : Noun)

/-- The keys that a map holds. -/
def keysOf : Set Noun := {k | (mapOf a k).isSome}

variable {a}

theorem keyed_keysOf {t : Lib.Treap.Tree (Noun × Noun)} :
    Keyed Prod.fst (keysOf (ofTree pair t)) t :=
  fun n hn ↦ mapOf_isSome_iff.mpr ⟨n, hn, rfl⟩

theorem keyed_setOf {t : Lib.Treap.Tree Noun} : Keyed id (setOf (ofTree id t)) t :=
  fun _ hn ↦ mem_setOf.mpr hn

theorem Keyed.mono {α : Type} {key : α → Noun} {keys keys' : Set Noun} {t : Lib.Treap.Tree α}
    (ht : Keyed key keys t) (hsub : ∀ k ∈ keys, k ∈ keys') : Keyed key keys' t :=
  fun n hn ↦ hsub _ (ht n hn)

end Denotation

/-! ### Specifications -/

section Specifications

variable {mug} {a b : Noun}

theorem qdbPut_spec (ha : IsMap mug a) (k v : Noun) :
    ∃ c, GivesOr (Colliding mug (insert k (keysOf a))) (qdbPut mug a k v) c ∧
      IsMap mug c ∧ mapOf c = Function.update (mapOf a) k (some v) := by
  obtain ⟨t, rfl, ht⟩ := ha
  rw [isTreap_iff_valid] at ht
  have hkeyed := (@keyed_keysOf t).mono fun p hp ↦ Set.mem_insert_of_mem k hp
  refine ⟨_, (qdbPut_agrees hkeyed (Set.mem_insert k _) v).givesOr,
    isMap_mapOf (valid_put ht (k, v)) fun p w ↦ ?_⟩
  rw [mem_put ht, ← mapOf_eq_some ht]
  by_cases hkey : p = k
  · simp [hkey, eq_comm]
  · simp [hkey]

theorem qdbDel_spec (ha : IsMap mug a) (k : Noun) :
    ∃ c, GivesOr (Colliding mug (insert k (keysOf a))) (qdbDel mug a k) c ∧
      IsMap mug c ∧ mapOf c = Function.update (mapOf a) k none := by
  obtain ⟨t, rfl, ht⟩ := ha
  rw [isTreap_iff_valid] at ht
  obtain ⟨hvalid, hmem⟩ := del_spec ht k
  have hkeyed := (@keyed_keysOf t).mono fun p hp ↦ Set.mem_insert_of_mem k hp
  refine ⟨_, (qdbDel_agrees hkeyed (Set.mem_insert k _)).givesOr, isMap_mapOf hvalid fun p w ↦ ?_⟩
  rw [hmem, ← mapOf_eq_some ht]
  by_cases hkey : p = k
  · simp [hkey]
  · simp [hkey]

theorem qdbUni_spec (ha : IsMap mug a) (hb : IsMap mug b) :
    ∃ c, Yields (Colliding mug (keysOf a ∪ keysOf b)) (fun fuel ↦ qdbUni mug fuel a b) c ∧
    IsMap mug c ∧
      mapOf c = fun k ↦ (mapOf b k).or (mapOf a k) := by
  obtain ⟨s, rfl, hs⟩ := ha
  obtain ⟨t, rfl, ht⟩ := hb
  rw [isTreap_iff_valid] at hs ht
  obtain ⟨c, hc, hreturn⟩ := uni_spec s t hs ht
  have hfirst := (@keyed_keysOf s).mono fun p hp ↦ Set.mem_union_left (keysOf (ofTree pair t)) hp
  have hsecond := (@keyed_keysOf t).mono fun p hp ↦ Set.mem_union_right (keysOf (ofTree pair s)) hp
  refine ⟨ofTree pair c, Agrees.yields (fun fuel ↦ qdbUni_agrees fuel hfirst hsecond) hreturn,
    isMap_mapOf hc.valid fun p w ↦ ?_⟩
  rw [hc.mem, Option.or_eq_some_iff, mapOf_eq_some hs, mapOf_eq_some ht, mapOf_eq_none_iff]
  tauto

theorem qdbInt_spec (ha : IsMap mug a) (hb : IsMap mug b) :
    ∃ c, Yields (Colliding mug (keysOf a ∪ keysOf b)) (fun fuel ↦ qdbInt mug fuel a b) c ∧
    IsMap mug c ∧
      mapOf c = fun k ↦ if (mapOf a k).isSome then mapOf b k else none := by
  obtain ⟨s, rfl, hs⟩ := ha
  obtain ⟨t, rfl, ht⟩ := hb
  rw [isTreap_iff_valid] at hs ht
  obtain ⟨c, hc, hreturn⟩ := int_spec s t hs ht
  have hfirst := (@keyed_keysOf s).mono fun p hp ↦ Set.mem_union_left (keysOf (ofTree pair t)) hp
  have hsecond := (@keyed_keysOf t).mono fun p hp ↦ Set.mem_union_right (keysOf (ofTree pair s)) hp
  refine ⟨ofTree pair c, Agrees.yields (fun fuel ↦ qdbInt_agrees fuel hfirst hsecond) hreturn,
    isMap_mapOf hc.valid fun p w ↦ ?_⟩
  rw [hc.mem, Option.ite_none_right_eq_some, mapOf_isSome_iff, mapOf_eq_some ht]
  tauto

theorem qdbDif_spec (ha : IsMap mug a) (hb : IsMap mug b) :
    ∃ c, GivesOr (Colliding mug (keysOf a ∪ keysOf b)) (qdbDif mug a b) c ∧ IsMap mug c ∧
      mapOf c = fun k ↦ if (mapOf b k).isSome then none else mapOf a k := by
  obtain ⟨s, rfl, hs⟩ := ha
  obtain ⟨t, rfl, ht⟩ := hb
  rw [isTreap_iff_valid] at hs ht
  obtain ⟨hvalid, hmem⟩ := dif_spec hs ht
  have hfirst := (@keyed_keysOf s).mono fun p hp ↦ Set.mem_union_left (keysOf (ofTree pair t)) hp
  have hsecond := (@keyed_keysOf t).mono fun p hp ↦ Set.mem_union_right (keysOf (ofTree pair s)) hp
  refine ⟨_, (qdbDif_agrees hfirst hsecond).givesOr, isMap_mapOf hvalid fun p w ↦ ?_⟩
  rw [hmem, Option.ite_none_left_eq_some, mapOf_isSome_iff, mapOf_eq_some hs]
  push Not
  tauto

theorem qdbBif_spec (ha : IsMap mug a) (k v : Noun) :
    ∃ l r, GivesOr (Colliding mug (insert k (keysOf a))) (qdbBif mug a (.cell k v)) (.cell l r) ∧
      (IsMap mug l ∧ mapOf l = fun p ↦ if Gor mug p k ∧ p ≠ k then mapOf a p else none) ∧
      IsMap mug r ∧ mapOf r = fun p ↦ if Gor mug k p ∧ k ≠ p then mapOf a p else none := by
  obtain ⟨t, rfl, ht⟩ := ha
  rw [isTreap_iff_valid] at ht
  obtain ⟨hvalid, hvalid', hmem, hmem'⟩ := split_spec ht k
  have hkeyed := (@keyed_keysOf t).mono fun p hp ↦ Set.mem_insert_of_mem k hp
  refine ⟨_, _, (qdbBif_agrees hkeyed (Set.mem_insert k _) v).givesOr,
    isMap_mapOf hvalid fun p w ↦ ?_, isMap_mapOf hvalid' fun p w ↦ ?_⟩
  · rw [hmem, Option.ite_none_right_eq_some, mapOf_eq_some ht, and_comm]
    rfl
  · rw [hmem', Option.ite_none_right_eq_some, mapOf_eq_some ht, and_comm]
    rfl

theorem qdiPut_spec (ha : IsSet mug a) (k : Noun) :
    ∃ c, GivesOr (Colliding mug (insert k (setOf a))) (qdiPut mug a k) c ∧
      IsSet mug c ∧ setOf c = insert k (setOf a) := by
  obtain ⟨t, rfl, ht⟩ := ha
  rw [isTreap_iff_valid] at ht
  have hkeyed := (@keyed_setOf t).mono fun p hp ↦ Set.mem_insert_of_mem k hp
  refine ⟨_, (qdiPut_agrees hkeyed (Set.mem_insert k _)).givesOr,
    isSet_setOf (valid_put ht k) fun p ↦ ?_⟩
  rw [mem_put ht, Set.mem_insert_iff, mem_setOf]
  by_cases hkey : p = k <;> simp [hkey]

theorem qdiDel_spec (ha : IsSet mug a) (k : Noun) :
    ∃ c, GivesOr (Colliding mug (insert k (setOf a))) (qdiDel mug a k) c ∧
      IsSet mug c ∧ setOf c = setOf a \ {k} := by
  obtain ⟨t, rfl, ht⟩ := ha
  rw [isTreap_iff_valid] at ht
  obtain ⟨hvalid, hmem⟩ := del_spec ht k
  have hkeyed := (@keyed_setOf t).mono fun p hp ↦ Set.mem_insert_of_mem k hp
  refine ⟨_, (qdiDel_agrees hkeyed (Set.mem_insert k _)).givesOr, isSet_setOf hvalid fun p ↦ ?_⟩
  rw [hmem, Set.mem_sdiff, mem_setOf, Set.mem_singleton_iff]
  rfl

theorem qdiUni_spec (ha : IsSet mug a) (hb : IsSet mug b) :
    ∃ c, Yields (Colliding mug (setOf a ∪ setOf b)) (fun fuel ↦ qdiUni mug fuel a b) c ∧
    IsSet mug c ∧
      setOf c = setOf a ∪ setOf b := by
  obtain ⟨s, rfl, hs⟩ := ha
  obtain ⟨t, rfl, ht⟩ := hb
  rw [isTreap_iff_valid] at hs ht
  obtain ⟨c, hc, hreturn⟩ := uniSing_spec s t hs ht
  have hfirst := (@keyed_setOf s).mono fun p hp ↦ Set.mem_union_left (setOf (ofTree id t)) hp
  have hsecond := (@keyed_setOf t).mono fun p hp ↦ Set.mem_union_right (setOf (ofTree id s)) hp
  refine ⟨ofTree id c, Agrees.yields (fun fuel ↦ qdiUni_agrees fuel hfirst hsecond) hreturn,
    isSet_setOf hc.valid fun p ↦ ?_⟩
  rw [hc.mem, Set.mem_union, mem_setOf, mem_setOf]
  constructor
  · rintro (hp | ⟨hp, _⟩)
    · exact Or.inr hp
    · exact Or.inl hp
  · rintro (hp | hp)
    · by_cases hpt : p ∈ t
      · exact Or.inl hpt
      · exact Or.inr ⟨hp, fun q hq (heq : q = p) ↦ hpt (heq ▸ hq)⟩
    · exact Or.inl hp

theorem qdiInt_spec (ha : IsSet mug a) (hb : IsSet mug b) :
    ∃ c, Yields (Colliding mug (setOf a ∪ setOf b)) (fun fuel ↦ qdiInt mug fuel a b) c ∧
    IsSet mug c ∧
      setOf c = setOf a ∩ setOf b := by
  obtain ⟨s, rfl, hs⟩ := ha
  obtain ⟨t, rfl, ht⟩ := hb
  rw [isTreap_iff_valid] at hs ht
  obtain ⟨c, hc, hreturn⟩ := intSwap_spec Function.injective_id s t hs ht
  have hfirst := (@keyed_setOf s).mono fun p hp ↦ Set.mem_union_left (setOf (ofTree id t)) hp
  have hsecond := (@keyed_setOf t).mono fun p hp ↦ Set.mem_union_right (setOf (ofTree id s)) hp
  refine ⟨ofTree id c, Agrees.yields (fun fuel ↦ qdiInt_agrees fuel hfirst hsecond) hreturn,
    isSet_setOf hc.valid fun p ↦ ?_⟩
  rw [hc.mem, Set.mem_inter_iff, mem_setOf, mem_setOf]
  constructor
  · rintro ⟨hp, q, hq, rfl⟩
    exact ⟨hq, hp⟩
  · rintro ⟨hps, hpt⟩
    exact ⟨hpt, p, hps, rfl⟩

theorem qdiDif_spec (ha : IsSet mug a) (hb : IsSet mug b) :
    ∃ c, GivesOr (Colliding mug (setOf a ∪ setOf b)) (qdiDif mug a b) c ∧ IsSet mug c ∧
      setOf c = setOf a \ setOf b := by
  obtain ⟨s, rfl, hs⟩ := ha
  obtain ⟨t, rfl, ht⟩ := hb
  rw [isTreap_iff_valid] at hs ht
  obtain ⟨hvalid, hmem⟩ := dif_spec hs ht
  have hfirst := (@keyed_setOf s).mono fun p hp ↦ Set.mem_union_left (setOf (ofTree id t)) hp
  have hsecond := (@keyed_setOf t).mono fun p hp ↦ Set.mem_union_right (setOf (ofTree id s)) hp
  refine ⟨_, (qdiDif_agrees hfirst hsecond).givesOr, isSet_setOf hvalid fun p ↦ ?_⟩
  rw [hmem, Set.mem_sdiff, mem_setOf, mem_setOf]
  constructor
  · rintro ⟨hp, hnot⟩
    exact ⟨hp, fun hpt ↦ hnot p hpt rfl⟩
  · rintro ⟨hp, hnot⟩
    exact ⟨hp, fun q hq (heq : q = p) ↦ hnot (heq ▸ hq)⟩

theorem qdiBif_spec (ha : IsSet mug a) (k : Noun) :
    ∃ l r, GivesOr (Colliding mug (insert k (setOf a))) (qdiBif mug a k) (.cell l r) ∧
      (IsSet mug l ∧ setOf l = {p ∈ setOf a | Gor mug p k ∧ p ≠ k}) ∧
      IsSet mug r ∧ setOf r = {p ∈ setOf a | Gor mug k p ∧ k ≠ p} := by
  obtain ⟨t, rfl, ht⟩ := ha
  rw [isTreap_iff_valid] at ht
  obtain ⟨hvalid, hvalid', hmem, hmem'⟩ := split_spec ht k
  have hkeyed := (@keyed_setOf t).mono fun p hp ↦ Set.mem_insert_of_mem k hp
  refine ⟨_, _, (qdiBif_agrees hkeyed (Set.mem_insert k _)).givesOr, isSet_setOf hvalid fun p ↦ ?_,
    isSet_setOf hvalid' fun p ↦ ?_⟩
  · rw [hmem, Set.mem_ofPred_eq, mem_setOf]
    rfl
  · rw [hmem', Set.mem_ofPred_eq, mem_setOf]
    rfl

end Specifications

/-- The treap operations are those of finite maps and sets. Assumes: the operands are treaps.
Insertion, deletion, union (the second operand wins), intersection (values of the second),
difference and the split at a key give treaps again, and return with enough fuel. A call bails only
where two of the keys that it has to do with collide. -/
theorem treap_operations :
    (∀ a b, IsMap mug a → IsMap mug b →
      (∀ k v, ∃ c, GivesOr (Colliding mug (insert k (keysOf a))) (qdbPut mug a k v) c ∧
      IsMap mug c ∧
        mapOf c = Function.update (mapOf a) k (some v)) ∧
      (∀ k, ∃ c, GivesOr (Colliding mug (insert k (keysOf a))) (qdbDel mug a k) c ∧ IsMap mug c ∧
        mapOf c = Function.update (mapOf a) k none) ∧
      (∃ c, Yields (Colliding mug (keysOf a ∪ keysOf b)) (fun fuel ↦ qdbUni mug fuel a b) c ∧
        IsMap mug c ∧ mapOf c = fun k ↦ (mapOf b k).or (mapOf a k)) ∧
      (∃ c, Yields (Colliding mug (keysOf a ∪ keysOf b)) (fun fuel ↦ qdbInt mug fuel a b) c ∧
        IsMap mug c ∧ mapOf c = fun k ↦ if (mapOf a k).isSome then mapOf b k else none) ∧
      (∃ c, GivesOr (Colliding mug (keysOf a ∪ keysOf b)) (qdbDif mug a b) c ∧ IsMap mug c ∧
        mapOf c = fun k ↦ if (mapOf b k).isSome then none else mapOf a k) ∧
      (∀ k v, ∃ l r,
        GivesOr (Colliding mug (insert k (keysOf a))) (qdbBif mug a (.cell k v)) (.cell l r) ∧
        (IsMap mug l ∧ mapOf l = fun p ↦ if Gor mug p k ∧ p ≠ k then mapOf a p else none) ∧
        IsMap mug r ∧ mapOf r = fun p ↦ if Gor mug k p ∧ k ≠ p then mapOf a p else none)) ∧
    (∀ a b, IsSet mug a → IsSet mug b →
      (∀ k, ∃ c, GivesOr (Colliding mug (insert k (setOf a))) (qdiPut mug a k) c ∧ IsSet mug c ∧
        setOf c = insert k (setOf a)) ∧
      (∀ k, ∃ c, GivesOr (Colliding mug (insert k (setOf a))) (qdiDel mug a k) c ∧ IsSet mug c ∧
        setOf c = setOf a \ {k}) ∧
      (∃ c, Yields (Colliding mug (setOf a ∪ setOf b)) (fun fuel ↦ qdiUni mug fuel a b) c ∧
        IsSet mug c ∧ setOf c = setOf a ∪ setOf b) ∧
      (∃ c, Yields (Colliding mug (setOf a ∪ setOf b)) (fun fuel ↦ qdiInt mug fuel a b) c ∧
        IsSet mug c ∧ setOf c = setOf a ∩ setOf b) ∧
      (∃ c, GivesOr (Colliding mug (setOf a ∪ setOf b)) (qdiDif mug a b) c ∧ IsSet mug c ∧
        setOf c = setOf a \ setOf b) ∧
      (∀ k, ∃ l r, GivesOr (Colliding mug (insert k (setOf a))) (qdiBif mug a k) (.cell l r) ∧
        (IsSet mug l ∧ setOf l = {p ∈ setOf a | Gor mug p k ∧ p ≠ k}) ∧
        IsSet mug r ∧ setOf r = {p ∈ setOf a | Gor mug k p ∧ k ≠ p})) := by
  refine ⟨fun a b ha hb ↦ ?_, fun a b ha hb ↦ ?_⟩
  · exact ⟨qdbPut_spec ha, qdbDel_spec ha, qdbUni_spec ha hb, qdbInt_spec ha hb, qdbDif_spec ha hb,
      qdbBif_spec ha⟩
  · exact ⟨qdiPut_spec ha, qdiDel_spec ha, qdiUni_spec ha hb, qdiInt_spec ha hb, qdiDif_spec ha hb,
      qdiBif_spec ha⟩

/-- A map of one pair and a map of two, under a mug that sends every noun to zero. -/
theorem treap_operations_pairs :
    ∃ c need, (∀ fuel, need ≤ fuel → qdbUni (fun _ ↦ 0) fuel
        (ofTree pair (.node (.atom 2, .atom 7) .nil .nil))
        (ofTree pair (.node (.atom 1, .atom 8) .nil (.node (.atom 2, .atom 9) .nil .nil))) =
          .ok c) ∧
      mapOf c (.atom 2) = some (.atom 9) := by
  have hone : IsMap (fun _ ↦ 0) (ofTree pair (.node (.atom 2, .atom 7) .nil .nil)) :=
    ⟨_, rfl, isTreap_iff_valid.mpr (by simp [Valid])⟩
  have htwo : IsMap (fun _ ↦ 0)
      (ofTree pair (.node (.atom 1, .atom 8) .nil (.node (.atom 2, .atom 9) .nil .nil))) :=
    ⟨_, rfl, isTreap_iff_valid.mpr (by simp [Valid, Before, Gor, Mor]; decide)⟩
  obtain ⟨c, ⟨need, hneed⟩, -, hmap⟩ := ((treap_operations fun _ ↦ 0).1 _ _ hone htwo).2.2.1
  refine ⟨c, need, fun fuel hfuel ↦ (hneed fuel hfuel).ok
    (not_colliding_direct ?_), by rw [hmap]; decide⟩
  rintro k (hk | hk)
  · obtain ⟨n, hn, rfl⟩ := mapOf_isSome_iff.mp hk
    obtain rfl : n = (.atom 2, .atom 7) := by simpa using hn
    exact ⟨2, rfl, by decide⟩
  · obtain ⟨n, hn, rfl⟩ := mapOf_isSome_iff.mp hk
    obtain rfl | rfl : n = (.atom 1, .atom 8) ∨ n = (.atom 2, .atom 9) := by simpa using hn
    · exact ⟨1, rfl, by decide⟩
    · exact ⟨2, rfl, by decide⟩

theorem isMap_single (k v : Noun) : IsMap mug (ofTree pair (.node (k, v) .nil .nil)) :=
  ⟨_, rfl, isTreap_iff_valid.mpr (by simp [Valid])⟩

/-- Under a mug that sends every noun to zero, the key of the map and the new one are not compared.
-/
theorem qdbPut_clash {k' : Noun} (hclash : Clash k' k) (v : Noun) :
    qdbPut (fun _ ↦ 0) (ofTree pair (.node (k, v) .nil .nil)) k' v = .error .bail := by
  simp only [ofTree_node, pair, qdbPut]
  rw [if_neg hclash.ne.symm, qcGor_const hclash]
  rfl

/-- An insertion beside a key of `2 ^ 27` words. -/
theorem qdbPut_collides :
    IsMap (fun _ ↦ 0) (ofTree pair (.node (.atom (2 ^ 2 ^ 32), nul) .nil .nil)) ∧
    ¬∃ c, qdbPut (fun _ ↦ 0) (ofTree pair (.node (.atom (2 ^ 2 ^ 32), nul) .nil .nil))
      (.atom (2 ^ 2 ^ 32 + 1)) nul = .ok c := by
  refine ⟨isMap_single _ _ _, ?_⟩
  rw [qdbPut_clash clash_succ.symm]
  exact fun ⟨_, hput⟩ ↦ nomatch hput

end Vere.Noun
