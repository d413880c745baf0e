import Vere.Noun.Treap

/-!
# The validators of treaps

`_by_apt()` of `pkg/noun/jets/d/by_apt.c` and `_in_apt()` of `pkg/noun/jets/d/in_apt.c` are one
traversal (`aptWith`) that hands the bounds of the keys down the tree. They differ in the key of a
node and in that `_by_apt()` turns down equal keys in every comparison and `_in_apt()` in none.
`aptWith_eq_true` says which trees are accepted, and `apt_exact_iff` when both verdicts are right: a
set with an element below an equal one is accepted, and a treap in which a key collides with one
below it is not.
-/

set_option autoImplicit false

namespace Vere.Noun

open Lib.Treap

/-! ### The validators -/

/-- The next check, unless this one has failed or bailed. -/
def passing (check next : Option Bool) : Option Bool :=
  match check with
  | some true => next
  | out => out

section Apt

variable (key : Noun → Option Noun) (gor mor : Noun → Noun → Option Bool)

/-- The check against a bound, if there is one. -/
def boundApt (check : Noun → Option Bool) : Option Noun → Option Bool
  | none => some true
  | some bound => check bound

/-- The check of a child against the key above it, which bails where the child has no key. -/
def childApt (p_n_a : Noun) : Noun → Option Bool
  | .atom 0 => some true
  | .cell n_a _ => key n_a >>= mor p_n_a
  | _ => none

/-- `_by_apt()` and `_in_apt()`: `none` is a bail, `l` and `r` are the bounds from above. -/
def aptWith : Noun → Option Noun → Option Noun → Option Bool
  | .atom 0, _, _ => some true
  | .cell n_a (.cell l_a r_a), l, r =>
    match key n_a with
    | none => none
    | some p_n_a =>
      passing (boundApt (fun l ↦ gor p_n_a l) l) <|
      passing (boundApt (fun r ↦ gor r p_n_a) r) <|
      passing (childApt key mor p_n_a l_a) <|
      passing (aptWith l_a (some p_n_a) r) <|
      passing (childApt key mor p_n_a r_a) <|
      aptWith r_a l (some p_n_a)
  | _, _, _ => none

end Apt

/-- A comparison that turns down equal nouns. -/
def strictly (rel : Noun → Noun → Option Bool) (a b : Noun) : Option Bool :=
  (rel a b).map fun res ↦ res && !decide (a = b)

section Jets

variable (mug : Noun → ℕ)

/-- `_by_apt()`. -/
def byApt : Noun → Option Noun → Option Noun → Option Bool :=
  aptWith u3h (strictly (qcGor mug)) (strictly (qcMor mug))

/-- `_in_apt()`. -/
def inApt : Noun → Option Noun → Option Noun → Option Bool := aptWith some (qcGor mug) (qcMor mug)

/-- `u3qdb_apt()`. -/
def qdbApt (a : Noun) : Option Bool := byApt mug a none none

/-- `u3qdi_apt()`. -/
def qdiApt (a : Noun) : Option Bool := inApt mug a none none

end Jets

/-! ### What they accept -/

section Sorted

variable {α : Type} (key : α → Noun) (lt dn : Noun → Noun → Prop)

/-- A tree in one relation from left to right and in another one from top to bottom. -/
def Sorted : Lib.Treap.Tree α → Prop
  | .nil => True
  | .node n l r => (∀ m ∈ l, lt (key m) (key n) ∧ dn (key n) (key m)) ∧
      (∀ m ∈ r, lt (key n) (key m) ∧ dn (key n) (key m)) ∧ Sorted l ∧ Sorted r

/-- The keys of a tree are between bounds. -/
def Within (l r : Option Noun) (t : Lib.Treap.Tree α) : Prop :=
  ∀ m ∈ t, (∀ above ∈ l, lt (key m) above) ∧ ∀ below ∈ r, lt below (key m)

end Sorted

section Accepted

theorem passing_eq_true {check next : Option Bool} :
    passing check next = some true ↔ check = some true ∧ next = some true := by
  unfold passing
  split
  · exact (and_iff_right rfl).symm
  · next hnot => exact iff_of_false hnot fun hboth ↦ hnot hboth.1

variable {α : Type} {enc : α → Noun} {key : α → Noun} {nkey : Noun → Option Noun}
  {gor mor : Noun → Noun → Option Bool}

/-- The check of a child is that of the root of its tree. -/
theorem childApt_ofTree (hkey : ∀ n, nkey (enc n) = some (key n)) (p : Noun)
    (t : Lib.Treap.Tree α) :
    childApt nkey mor p (ofTree enc t) = some true ↔ ∀ m ∈ t.root?, mor p (key m) = some true := by
  cases t with
  | nil => simp [childApt, nul, Tree.root?]
  | node n l r => simp [childApt, hkey, Tree.root?]

theorem boundApt_eq_true {check : Noun → Option Bool} {bound : Option Noun} :
    boundApt check bound = some true ↔ ∀ u ∈ bound, check u = some true := by
  cases bound with
  | none => exact iff_of_true rfl nofun
  | some u => simp [boundApt]

/-- What is below the root of a tree is below the root's key. -/
theorem Sorted.root {lt dn : Noun → Noun → Prop} {t : Lib.Treap.Tree α}
    (hsorted : Sorted key lt dn t) (htrans : ∀ a b c, dn a b → dn b c → dn a c) {p : Noun}
    (hroot : ∀ m ∈ t.root?, dn p (key m)) {x : α} (hx : x ∈ t) : dn p (key x) := by
  cases t with
  | nil => exact absurd hx Tree.mem_nil
  | node n l r =>
    have hn : dn p (key n) := hroot n rfl
    rcases Tree.mem_node.mp hx with hx | rfl | hx
    · exact htrans _ _ _ hn (hsorted.1 x hx).2
    · exact hn
    · exact htrans _ _ _ hn (hsorted.2.1 x hx).2

/-- The trees that are accepted: those in order within the bounds. -/
theorem aptWith_eq_true (hkey : ∀ n, nkey (enc n) = some (key n))
    (hdec : ∀ n p, nkey n = some p → ∃ m, n = enc m)
    (hgor : ∀ a b c, gor a b = some true → gor b c = some true → gor a c = some true)
    (hmor : ∀ a b c, mor a b = some true → mor b c = some true → mor a c = some true) (a : Noun)
    (l r : Option Noun) :
    aptWith nkey gor mor a l r = some true ↔ ∃ t, a = ofTree enc t ∧
      Sorted key (fun a b ↦ gor a b = some true) (fun a b ↦ mor a b = some true) t ∧
      Within key (fun a b ↦ gor a b = some true) l r t := by
  fun_induction aptWith nkey gor mor a l r with
  | case1 l r => exact iff_of_true rfl ⟨.nil, rfl, trivial, fun m hm ↦ absurd hm Tree.mem_nil⟩
  | case2 n_a l_a r_a l r hnone =>
    refine iff_of_false nofun ?_
    rintro ⟨_ | ⟨m, tl, tr⟩, heq, -⟩
    · cases heq
    · rw [(Noun.cell.inj heq).1, hkey] at hnone
      cases hnone
  | case3 n_a l_a r_a l r p_n_a hsome ihl ihr =>
    obtain ⟨m, rfl⟩ := hdec n_a p_n_a hsome
    obtain rfl : key m = p_n_a := Option.some.inj ((hkey m).symm.trans hsome)
    simp only [passing_eq_true, ihl, ihr, boundApt_eq_true]
    constructor
    · rintro ⟨habove, hbelow, hchl, ⟨tl, rfl, hsl, hwl⟩, hchr, tr, rfl, hsr, hwr⟩
      rw [childApt_ofTree hkey] at hchl hchr
      have hleft : ∀ x ∈ tl, gor (key x) (key m) = some true := fun x hx ↦ (hwl x hx).1 _ rfl
      have hright : ∀ x ∈ tr, gor (key m) (key x) = some true := fun x hx ↦ (hwr x hx).2 _ rfl
      refine ⟨.node m tl tr, rfl, ⟨fun x hx ↦ ⟨hleft x hx, hsl.root hmor hchl hx⟩,
        fun x hx ↦ ⟨hright x hx, hsr.root hmor hchr hx⟩, hsl, hsr⟩, fun x hx ↦ ?_⟩
      rcases Tree.mem_node.mp hx with hx | rfl | hx
      · exact ⟨fun u hu ↦ hgor _ _ _ (hleft x hx) (habove u hu), (hwl x hx).2⟩
      · exact ⟨habove, hbelow⟩
      · exact ⟨(hwr x hx).1, fun u hu ↦ hgor _ _ _ (hbelow u hu) (hright x hx)⟩
    · rintro ⟨_ | ⟨m', tl, tr⟩, heq, hsorted, hwithin⟩
      · cases heq
      · obtain ⟨henc, hrest⟩ := Noun.cell.inj heq
        obtain ⟨rfl, rfl⟩ := Noun.cell.inj hrest
        have hsame : key m' = key m := Option.some.inj ((hkey m').symm.trans (henc ▸ hkey m))
        obtain ⟨hl, hr, hsl, hsr⟩ := hsorted
        rw [hsame] at hl hr
        have hroot := hwithin m' (Tree.mem_node.mpr (.inr (.inl rfl)))
        rw [hsame] at hroot
        rw [childApt_ofTree hkey, childApt_ofTree hkey]
        refine ⟨hroot.1, hroot.2, fun x hx ↦ (hl x (root?_mem hx)).2, ⟨tl, rfl, hsl, fun x hx ↦ ?_⟩,
          fun x hx ↦ (hr x (root?_mem hx)).2, tr, rfl, hsr, fun x hx ↦ ?_⟩
        · refine ⟨fun u hu ↦ ?_, (hwithin x (Tree.mem_node.mpr (.inl hx))).2⟩
          rw [← Option.some.inj hu]
          exact (hl x hx).1
        · refine ⟨(hwithin x (Tree.mem_node.mpr (.inr (.inr hx)))).1, fun u hu ↦ ?_⟩
          rw [← Option.some.inj hu]
          exact (hr x hx).1
  | case4 a l r hnul hcell =>
    refine iff_of_false nofun ?_
    rintro ⟨_ | ⟨m, tl, tr⟩, rfl, -⟩
    · exact hnul rfl
    · exact hcell _ _ _ rfl

end Accepted

/-! ### Strict and non-strict trees -/

section Strict

variable {α : Type} {key : α → Noun} {mug : Noun → ℕ}

/-- A key collides with one below it. -/
def Clashing (mug : Noun → ℕ) (key : α → Noun) : Lib.Treap.Tree α → Prop
  | .nil => False
  | .node n l r => (∃ m ∈ l, Collide mug (key n) (key m)) ∨ (∃ m ∈ r, Collide mug (key n) (key m)) ∨
      Clashing mug key l ∨ Clashing mug key r

theorem not_clashing_node {n : α} {l r : Lib.Treap.Tree α} : ¬Clashing mug key (.node n l r) ↔
    (∀ m ∈ l, ¬Collide mug (key n) (key m)) ∧ (∀ m ∈ r, ¬Collide mug (key n) (key m)) ∧
      ¬Clashing mug key l ∧ ¬Clashing mug key r := by
  rw [Clashing]
  push Not
  rfl

/-- Two keys are compared on the left of the upper one. -/
theorem compared_left {m n : Noun} : qcGor mug m n = some true ∧ qcMor mug n m = some true ↔
    (Gor mug m n ∧ Mor mug n m) ∧ ¬Collide mug n m := by
  rw [qcGor_eq_true, qcMor_eq_true, Collide]
  have hswap : mug m = mug n ∧ Clash m n ↔ mug n = mug m ∧ Clash n m :=
    and_congr eq_comm ⟨Clash.symm, Clash.symm⟩
  tauto

theorem compared_right {m n : Noun} : qcGor mug n m = some true ∧ qcMor mug n m = some true ↔
    (Gor mug n m ∧ Mor mug n m) ∧ ¬Collide mug n m := by
  rw [qcGor_eq_true, qcMor_eq_true, Collide]
  tauto

theorem strictly_eq_true {rel : Noun → Noun → Option Bool} {a b : Noun} :
    strictly rel a b = some true ↔ rel a b = some true ∧ a ≠ b := by
  simp [strictly]

/-- A tree passes the comparisons when it is in order and no key collides with one below it. -/
theorem sorted_compared_iff {t : Lib.Treap.Tree α} :
    Sorted key (fun a b ↦ qcGor mug a b = some true) (fun a b ↦ qcMor mug a b = some true) t ↔
      Sorted key (Gor mug) (Mor mug) t ∧ ¬Clashing mug key t := by
  induction t with
  | nil => exact iff_of_true trivial ⟨trivial, id⟩
  | node n l r ihl ihr =>
    rw [Sorted, Sorted, ihl, ihr, not_clashing_node]
    simp only [compared_left, compared_right, imp_and, forall_and]
    tauto

/-- In strict order from left to right it makes no difference whether the order down is strict. -/
theorem sorted_strict_iff {t : Lib.Treap.Tree α} :
    Sorted key (fun a b ↦ strictly (qcGor mug) a b = some true)
      (fun a b ↦ strictly (qcMor mug) a b = some true) t ↔
      Valid key (Gor mug) (Mor mug) t ∧ ¬Clashing mug key t := by
  induction t with
  | nil => exact iff_of_true trivial ⟨trivial, id⟩
  | node n l r ihl ihr =>
    have hl : ∀ m, (strictly (qcGor mug) (key m) (key n) = some true ∧
        strictly (qcMor mug) (key n) (key m) = some true) ↔
          (Before (Gor mug) (key m) (key n) ∧ Mor mug (key n) (key m)) ∧
          ¬Collide mug (key n) (key m) := by
      intro m
      have hboth := @compared_left mug (key m) (key n)
      have hne : key m ≠ key n ↔ key n ≠ key m := ne_comm
      rw [strictly_eq_true, strictly_eq_true, Before]
      tauto
    have hr : ∀ m, (strictly (qcGor mug) (key n) (key m) = some true ∧
        strictly (qcMor mug) (key n) (key m) = some true) ↔
          (Before (Gor mug) (key n) (key m) ∧ Mor mug (key n) (key m)) ∧
          ¬Collide mug (key n) (key m) := by
      intro m
      have hboth := @compared_right mug (key m) (key n)
      rw [strictly_eq_true, strictly_eq_true, Before]
      tauto
    rw [Sorted, Valid, ihl, ihr, not_clashing_node]
    simp only [hl, hr, imp_and, forall_and]
    tauto

theorem Sorted.of_valid {t : Lib.Treap.Tree α} (hvalid : Valid key (Gor mug) (Mor mug) t) :
    Sorted key (Gor mug) (Mor mug) t := by
  induction t with
  | nil => trivial
  | node n l r ihl ihr =>
    obtain ⟨hl, hr, hvl, hvr⟩ := hvalid
    exact ⟨fun m hm ↦ ⟨(hl m hm).1.1, (hl m hm).2⟩, fun m hm ↦ ⟨(hr m hm).1.1, (hr m hm).2⟩,
      ihl hvl, ihr hvr⟩

/-- A node has the same element as one of its children. -/
def Repeats : Lib.Treap.Tree Noun → Prop
  | .nil => False
  | .node n l r => n ∈ l.root? ∨ n ∈ r.root? ∨ Repeats l ∨ Repeats r

/-- An element that is met again below a node is that of a child. -/
theorem Sorted.root_eq {t : Lib.Treap.Tree Noun} (hsorted : Sorted id (Gor mug) (Mor mug) t)
    {n : Noun} (hdown : ∀ m ∈ t, Mor mug n m) (hn : n ∈ t) : n ∈ t.root? := by
  cases t with
  | nil => exact absurd hn Tree.mem_nil
  | node m l r =>
    have hfirst : Mor mug n m := hdown m (Tree.mem_node.mpr (.inr (.inl rfl)))
    rcases Tree.mem_node.mp hn with hn | rfl | hn
    · exact congrArg some (antisymm_of (Mor mug) (hsorted.1 n hn).2 hfirst)
    · rfl
    · exact congrArg some (antisymm_of (Mor mug) (hsorted.2.1 n hn).2 hfirst)

/-- A tree in non-strict order is a treap if and only if no child repeats its parent. -/
theorem Sorted.valid_iff {t : Lib.Treap.Tree Noun} (hsorted : Sorted id (Gor mug) (Mor mug) t) :
    Valid id (Gor mug) (Mor mug) t ↔ ¬Repeats t := by
  induction t with
  | nil => exact iff_of_true trivial id
  | node n l r ihl ihr =>
    obtain ⟨hl, hr, hsl, hsr⟩ := hsorted
    rw [Valid, Repeats, ihl hsl, ihr hsr, not_or, not_or, not_or]
    constructor
    · rintro ⟨hvl, hvr, hnl, hnr⟩
      exact ⟨fun hroot ↦ (hvl n (root?_mem hroot)).1.2 rfl,
        fun hroot ↦ (hvr n (root?_mem hroot)).1.2 rfl, hnl, hnr⟩
    · rintro ⟨hnotl, hnotr, hnl, hnr⟩
      refine ⟨fun m hm ↦ ⟨⟨(hl m hm).1, ?_⟩, (hl m hm).2⟩,
        fun m hm ↦ ⟨⟨(hr m hm).1, ?_⟩, (hr m hm).2⟩, hnl, hnr⟩
      · rintro rfl
        exact hnotl (hsl.root_eq (fun x hx ↦ (hl x hx).2) hm)
      · rintro rfl
        exact hnotr (hsr.root_eq (fun x hx ↦ (hr x hx).2) hm)

end Strict

/-! ### The verdicts -/

section Verdicts

variable (mug : Noun → ℕ) (a : Noun)

theorem strictly_trans {rel : Noun → Noun → Option Bool} {bails : Noun → Noun → Prop}
    (hrel : TotalBut rel bails) (a b c : Noun) (hab : strictly rel a b = some true)
    (hbc : strictly rel b c = some true) :
    strictly rel a c = some true := by
  rw [strictly_eq_true] at hab hbc ⊢
  refine ⟨hrel.trans a b c hab.1 hbc.1, ?_⟩
  rintro rfl
  exact hab.2 (hrel.antisymm a b hab.1 hbc.1)

theorem pair_injective : Function.Injective pair := by
  rintro ⟨p, q⟩ ⟨p', q'⟩ heq
  obtain ⟨rfl, rfl⟩ := Noun.cell.inj heq
  rfl

/-- The maps that are accepted. -/
theorem qdbApt_iff : qdbApt mug a = some true ↔ ∃ t, a = ofTree pair t ∧
    IsTreap Prod.fst (Gor mug) (Mor mug) t ∧ ¬Clashing mug Prod.fst t := by
  have hdec : ∀ n p, u3h n = some p → ∃ m, n = pair m := by
    rintro (n | ⟨h, t⟩) p hhead
    · cases hhead
    · exact ⟨(h, t), rfl⟩
  have htrue := @aptWith_eq_true _ pair Prod.fst u3h _ _ u3h_pair hdec
    (strictly_trans (totalBut_thenDor mug)) (strictly_trans
      (totalBut_thenDor fun k ↦ mug (.atom (mug k)))) a none
    none
  rw [qdbApt, byApt]
  refine htrue.trans (exists_congr fun t ↦ and_congr_right fun _ ↦ ?_)
  rw [isTreap_iff_valid, ← sorted_strict_iff]
  exact and_iff_left fun m _ ↦ ⟨nofun, nofun⟩

/-- The sets that are accepted. -/
theorem qdiApt_iff : qdiApt mug a = some true ↔ ∃ t, a = ofTree id t ∧
    Sorted id (Gor mug) (Mor mug) t ∧ ¬Clashing mug id t := by
  have htrue := @aptWith_eq_true _ id id some _ _ (fun _ ↦ rfl) (fun n _ _ ↦ ⟨n, rfl⟩)
    (totalBut_thenDor mug).trans (totalBut_thenDor fun k ↦ mug (.atom (mug k))).trans a none none
  rw [qdiApt, inApt]
  refine htrue.trans (exists_congr fun t ↦ and_congr_right fun _ ↦ ?_)
  rw [← sorted_compared_iff]
  exact and_iff_left fun m _ ↦ ⟨nofun, nofun⟩

/-- Both validators are exact on a noun, and the keys of what they accept are distinct. -/
structure AptExact : Prop where
  map : qdbApt mug a = some true ↔ IsMap mug a
  set : qdiApt mug a = some true ↔ IsSet mug a
  mapKeys : ∀ t, a = ofTree pair t → qdbApt mug a = some true → (t.toList.map Prod.fst).Nodup
  setKeys : ∀ t, a = ofTree id t → qdiApt mug a = some true → t.toList.Nodup

/-- The validators are exact except on the trees in non-strict order that have an element twice,
which are accepted as sets, and on the treaps in which a key collides with one below it, which are
not accepted. -/
theorem apt_exact_iff : AptExact mug a ↔
    (¬∃ t, a = ofTree id t ∧ Sorted id (Gor mug) (Mor mug) t ∧ Repeats t ∧ ¬Clashing mug id t) ∧
      (¬∃ t, a = ofTree id t ∧ IsTreap id (Gor mug) (Mor mug) t ∧ Clashing mug id t) ∧
      ¬∃ t, a = ofTree pair t ∧ IsTreap Prod.fst (Gor mug) (Mor mug) t ∧
      Clashing mug Prod.fst t := by
  constructor
  · rintro ⟨hmap, hset, -, -⟩
    refine ⟨?_, ?_, ?_⟩
    · rintro ⟨t, rfl, hsorted, hrepeats, hnot⟩
      obtain ⟨t', heq, htreap⟩ := hset.mp ((qdiApt_iff mug _).mpr ⟨t, rfl, hsorted, hnot⟩)
      obtain rfl := ofTree_id_inj.mp heq
      exact hsorted.valid_iff.mp (isTreap_iff_valid.mp htreap) hrepeats
    · rintro ⟨t, rfl, htreap, hclashing⟩
      obtain ⟨t', heq, -, hnot⟩ := (qdiApt_iff mug _).mp (hset.mpr ⟨t, rfl, htreap⟩)
      obtain rfl := ofTree_id_inj.mp heq
      exact hnot hclashing
    · rintro ⟨t, rfl, htreap, hclashing⟩
      obtain ⟨t', heq, -, hnot⟩ := (qdbApt_iff mug _).mp (hmap.mpr ⟨t, rfl, htreap⟩)
      obtain rfl := (ofTree_inj pair_injective).mp heq
      exact hnot hclashing
  · rintro ⟨hrepeats, hsetClash, hmapClash⟩
    have hmap : qdbApt mug a = some true ↔ IsMap mug a := by
      rw [qdbApt_iff]
      refine exists_congr fun t ↦ and_congr_right fun heq ↦ ?_
      exact and_iff_left_of_imp fun htreap hclashing ↦ hmapClash ⟨t, heq, htreap, hclashing⟩
    have hset : qdiApt mug a = some true ↔ IsSet mug a := by
      rw [qdiApt_iff]
      refine exists_congr fun t ↦ and_congr_right fun heq ↦ ⟨?_, fun htreap ↦ ?_⟩
      · rintro ⟨hsorted, hnot⟩
        exact isTreap_iff_valid.mpr (hsorted.valid_iff.mpr fun htwice ↦ hrepeats ⟨t, heq, hsorted,
          htwice, hnot⟩)
      · exact ⟨.of_valid (isTreap_iff_valid.mp htreap),
          fun hclashing ↦ hsetClash ⟨t, heq, htreap, hclashing⟩⟩
    refine ⟨hmap, hset, fun t heq haccept ↦ ?_, fun t heq haccept ↦ ?_⟩
    · obtain ⟨t', heq', htreap⟩ := hmap.mp haccept
      obtain rfl := (ofTree_inj pair_injective).mp (heq.symm.trans heq')
      exact htreap.ordered.imp Before.ne
    · obtain ⟨t', heq', htreap⟩ := hset.mp haccept
      obtain rfl := ofTree_id_inj.mp (heq.symm.trans heq')
      have hnodup := htreap.ordered.imp Before.ne
      rwa [List.map_id] at hnodup

end Verdicts

/-- A set of one element that is there twice is accepted. -/
theorem qdiApt_doubled :
    qdiApt (fun _ ↦ 0) (trel (.atom 1) (trel (.atom 1) nul nul) nul) = some true ∧
    ¬IsSet (fun _ ↦ 0) (trel (.atom 1) (trel (.atom 1) nul nul) nul) := by
  refine ⟨by decide, fun ⟨t, heq, htreap⟩ ↦ ?_⟩
  obtain rfl : Lib.Treap.Tree.node (.atom 1) (.node (.atom 1) .nil .nil) .nil = t :=
    ofTree_id_inj.mp heq
  exact absurd (htreap.ordered.imp Before.ne) (by decide)

end Vere.Noun
