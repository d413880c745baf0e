import Mathlib.Data.List.Nodup

/-!
# Linked lists in a memory

Lists whose links are functions of the address: `Linked` has links both ways, `Chained` only
forward. A list reads the links of its own members (`Linked.congr`), and the edits are local:
`Linked.push`, `Linked.concat`, `Chained.concat`, `Linked.unlink`, `Chained.cut` and `Chained.join`.
A list is determined by its head (`Chained.unique`).
-/

set_option autoImplicit false

namespace Vere.Lib

variable {α : Type*}

/-- The addresses of a list, from its head on, where `prv` is before the head. -/
def Linked (null : α) (pre nex : α → α) : α → α → List α → Prop
  | _, hed, [] => hed = null
  | prv, hed, p :: ps => hed = p ∧ p ≠ null ∧ pre p = prv ∧ Linked null pre nex p (nex p) ps

/-- The addresses of a list that is linked forward only. -/
def Chained (null : α) (nex : α → α) : α → List α → Prop
  | hed, [] => hed = null
  | hed, p :: ps => hed = p ∧ p ≠ null ∧ Chained null nex (nex p) ps

variable {null : α} {pre pre' nex nex' : α → α} {prv hed p : α} {l l₁ l₂ : List α}

/-! ### Reading -/

theorem Linked.congr (hpre : ∀ q ∈ l, pre' q = pre q) (hnex : ∀ q ∈ l, nex' q = nex q)
    (hlinked : Linked null pre nex prv hed l) : Linked null pre' nex' prv hed l := by
  induction l generalizing prv hed with
  | nil => exact hlinked
  | cons q l ih =>
    obtain ⟨hhed, hne, hprv, hrest⟩ := hlinked
    refine ⟨hhed, hne, (hpre q (by simp)).trans hprv, ?_⟩
    rw [hnex q (by simp)]
    exact ih (fun r hr ↦ hpre r (by simp [hr])) (fun r hr ↦ hnex r (by simp [hr])) hrest

theorem Chained.congr (hnex : ∀ q ∈ l, nex' q = nex q) (hchained : Chained null nex hed l) :
    Chained null nex' hed l := by
  induction l generalizing hed with
  | nil => exact hchained
  | cons q l ih =>
    obtain ⟨hhed, hne, hrest⟩ := hchained
    refine ⟨hhed, hne, ?_⟩
    rw [hnex q (by simp)]
    exact ih (fun r hr ↦ hnex r (by simp [hr])) hrest

theorem Linked.ne_null (hlinked : Linked null pre nex prv hed l) (hmem : p ∈ l) : p ≠ null := by
  induction l generalizing prv hed with
  | nil => simp at hmem
  | cons q l ih =>
    rcases List.mem_cons.mp hmem with rfl | hmem
    · exact hlinked.2.1
    · exact ih hlinked.2.2.2 hmem

theorem Linked.chained (hlinked : Linked null pre nex prv hed l) : Chained null nex hed l := by
  induction l generalizing prv hed with
  | nil => exact hlinked
  | cons q l ih =>
    obtain ⟨hhed, hne, _, hrest⟩ := hlinked
    exact ⟨hhed, hne, ih hrest⟩

theorem Chained.ne_null (hchained : Chained null nex hed l) (hmem : p ∈ l) : p ≠ null := by
  induction l generalizing hed with
  | nil => simp at hmem
  | cons q l ih =>
    rcases List.mem_cons.mp hmem with rfl | hmem
    · exact hchained.2.1
    · exact ih hchained.2.2 hmem

/-- The link forward is the next member. -/
theorem Linked.nex_eq (hlinked : Linked null pre nex prv hed (l₁ ++ p :: l₂)) :
    nex p = l₂.headD null ∧ ∀ q ∈ l₂.head?, pre q = p := by
  induction l₁ generalizing prv hed with
  | nil =>
    obtain ⟨_, _, _, hrest⟩ := hlinked
    cases l₂ with
    | nil => exact ⟨hrest, by simp⟩
    | cons q l₂ => exact ⟨hrest.1, by simpa using hrest.2.2.1⟩
  | cons q l₁ ih => exact ih hlinked.2.2.2

/-- The link back is the member before. -/
theorem Linked.pre_eq (hlinked : Linked null pre nex prv hed (l₁ ++ p :: l₂)) :
    pre p = l₁.getLastD prv ∧ ∀ q ∈ l₁.getLast?, nex q = p := by
  induction l₁ generalizing prv hed with
  | nil => exact ⟨hlinked.2.2.1, by simp⟩
  | cons q l₁ ih =>
    obtain ⟨_, _, _, hrest⟩ := hlinked
    obtain ⟨hpre, hnex⟩ := ih hrest
    cases l₁ with
    | nil => exact ⟨hpre, by simpa using hrest.1⟩
    | cons r l₁ =>
      rw [List.getLastD_cons, List.getLast?_cons_cons]
      exact ⟨hpre, hnex⟩

theorem Linked.head_eq (hlinked : Linked null pre nex prv hed l) : hed = l.headD null := by
  cases l with
  | nil => exact hlinked
  | cons q l => exact hlinked.1

theorem Chained.head_eq (hchained : Chained null nex hed l) : hed = l.headD null := by
  cases l with
  | nil => exact hchained
  | cons q l => exact hchained.1

/-- A chain is the only one from its head. -/
theorem Chained.unique {l' : List α} (hchained : Chained null nex hed l)
    (hother : Chained null nex hed l') : l = l' := by
  induction l generalizing hed l' with
  | nil =>
    cases l' with
    | nil => rfl
    | cons q l' => exact absurd (hother.1.symm.trans hchained) hother.2.1
  | cons q l ih =>
    obtain ⟨rfl, hne, hrest⟩ := hchained
    cases l' with
    | nil => exact absurd hother hne
    | cons q' l' =>
      obtain ⟨rfl, _, hrest'⟩ := hother
      rw [ih hrest hrest']

theorem Chained.of_append (hchained : Chained null nex hed (l₁ ++ p :: l₂)) :
    Chained null nex p (p :: l₂) := by
  induction l₁ generalizing hed with
  | nil =>
    obtain ⟨rfl, hrest⟩ := hchained
    exact ⟨rfl, hrest⟩
  | cons q l₁ ih => exact ih hchained.2.2

/-- A chain that came back to a member would not end. -/
theorem Chained.nodup (hchained : Chained null nex hed l) : l.Nodup := by
  induction l generalizing hed with
  | nil => exact .nil
  | cons q l ih =>
    obtain ⟨rfl, hne, hrest⟩ := hchained
    refine List.nodup_cons.mpr ⟨fun hmem ↦ ?_, ih hrest⟩
    obtain ⟨l₁, l₂, rfl⟩ := List.append_of_mem hmem
    have hagain : Chained null nex hed (hed :: l₂) := hrest.of_append
    have hwhole : Chained null nex hed (hed :: (l₁ ++ hed :: l₂)) := ⟨rfl, hne, hrest⟩
    have hlength := congrArg List.length (hwhole.unique hagain)
    simp only [List.length_cons, List.length_append] at hlength
    omega

/-! ### Editing -/

/-- A chain ends after a member that links to nothing. -/
theorem Chained.cut (hchained : Chained null nex hed (l₁ ++ p :: l₂))
    (hnex : ∀ q ∈ l₁, nex' q = nex q) (hend : nex' p = null) :
    Chained null nex' hed (l₁ ++ [p]) := by
  induction l₁ generalizing hed with
  | nil => exact ⟨hchained.1, hchained.2.1, hend⟩
  | cons q l₁ ih =>
    obtain ⟨rfl, hne, hrest⟩ := hchained
    refine ⟨rfl, hne, ?_⟩
    rw [hnex hed List.mem_cons_self]
    exact ih hrest fun r hr ↦ hnex r (List.mem_cons_of_mem _ hr)

/-- A chain goes on with another one after a member that links to it. -/
theorem Chained.join {hed' : α} (hchained : Chained null nex hed (l₁ ++ [p]))
    (hnex : ∀ q ∈ l₁, nex' q = nex q)
    (hlink : nex' p = hed') (hrest : Chained null nex' hed' l₂) :
      Chained null nex' hed (l₁ ++ p :: l₂) := by
  induction l₁ generalizing hed with
  | nil =>
    obtain ⟨rfl, hne, _⟩ := hchained
    exact ⟨rfl, hne, hlink ▸ hrest⟩
  | cons q l₁ ih =>
    obtain ⟨rfl, hne, hlast⟩ := hchained
    refine ⟨rfl, hne, ?_⟩
    rw [hnex hed List.mem_cons_self]
    exact ih hlast fun r hr ↦ hnex r (List.mem_cons_of_mem _ hr)

/-- A new head, which the old head links back to. -/
theorem Linked.push (hlinked : Linked null pre nex prv hed l) (hnodup : l.Nodup) (hne : p ≠ null)
    (hpre : ∀ q ∈ l, q ≠ hed → pre' q = pre q) (hnex : ∀ q ∈ l, nex' q = nex q)
    (hhed : hed ≠ null → pre' hed = p) (hprv : pre' p = prv) (hlink : nex' p = hed) :
    Linked null pre' nex' prv p (p :: l) := by
  refine ⟨rfl, hne, hprv, ?_⟩
  rw [hlink]
  cases l with
  | nil => exact hlinked
  | cons q l =>
    obtain ⟨rfl, hq, _, hrest⟩ := hlinked
    rw [List.nodup_cons] at hnodup
    refine ⟨rfl, hq, hhed hq, ?_⟩
    rw [hnex hed (by simp)]
    refine hrest.congr (fun r hr ↦ hpre r (by simp [hr]) ?_) fun r hr ↦ hnex r (by simp [hr])
    rintro rfl
    exact hnodup.1 hr

theorem Chained.push (hchained : Chained null nex hed l) (hne : p ≠ null)
    (hnex : ∀ q ∈ l, nex' q = nex q) (hlink : nex' p = hed) : Chained null nex' p (p :: l) := by
  refine ⟨rfl, hne, ?_⟩
  rw [hlink]
  exact hchained.congr hnex

theorem getLastD_mem (hne : l ≠ []) : l.getLastD null ∈ l := by
  cases l with
  | nil => exact absurd rfl hne
  | cons q l =>
    rw [List.getLastD_cons]
    exact List.getLastD_mem_cons

theorem getLastD_cons_cons (null q a : α) (l : List α) :
    (a :: l).getLastD null ∈ a :: l ∧ (q :: a :: l).getLastD null = (a :: l).getLastD null := by
  simp only [List.getLastD_cons, List.getLastD_mem_cons, and_self]

/-- A new last member, which the old one links to. -/
theorem Chained.concat (hchained : Chained null nex hed l) (hnodup : l.Nodup) (hne : p ≠ null)
    (hnex : ∀ q ∈ l, q ≠ l.getLastD null → nex' q = nex q)
    (hlast : l ≠ [] → nex' (l.getLastD null) = p) (hend : nex' p = null) :
    Chained null nex' (if l = [] then p else hed) (l ++ [p]) := by
  induction l generalizing hed with
  | nil => exact ⟨rfl, hne, hend⟩
  | cons q l ih =>
    obtain ⟨rfl, hq, hrest⟩ := hchained
    rw [List.nodup_cons] at hnodup
    rw [if_neg (by simp)]
    refine ⟨rfl, hq, ?_⟩
    cases l with
    | nil =>
      rw [show nex' hed = p from hlast (by simp)]
      exact ⟨rfl, hne, hend⟩
    | cons a l =>
      obtain ⟨hmem, heq⟩ := getLastD_cons_cons null hed a l
      rw [heq] at hnex hlast
      have hnext : nex' hed = nex hed :=
        hnex hed (by simp) fun hsame ↦ hnodup.1 (hsame ▸ hmem)
      have hchain := ih hrest hnodup.2 (fun r hr ↦ hnex r (List.mem_cons_of_mem _ hr))
        fun _ ↦ hlast (by simp)
      rw [if_neg (by simp)] at hchain
      rw [hnext]
      exact hchain

/-- A new last member, which links back to the old one. -/
theorem Linked.concat (hlinked : Linked null pre nex prv hed l) (hnodup : l.Nodup) (hne : p ≠ null)
    (hpre : ∀ q ∈ l, pre' q = pre q) (hnex : ∀ q ∈ l, q ≠ l.getLastD null → nex' q = nex q)
    (hlast : l ≠ [] → nex' (l.getLastD null) = p) (hprv : pre' p = l.getLastD prv)
    (hend : nex' p = null) : Linked null pre' nex' prv (if l = [] then p else hed) (l ++ [p]) := by
  induction l generalizing prv hed with
  | nil => exact ⟨rfl, hne, hprv, hend⟩
  | cons q l ih =>
    obtain ⟨rfl, hq, hback, hrest⟩ := hlinked
    rw [List.nodup_cons] at hnodup
    rw [if_neg (by simp)]
    refine ⟨rfl, hq, (hpre hed (by simp)).trans hback, ?_⟩
    have hrec := ih hrest hnodup.2 fun r hr ↦ hpre r (List.mem_cons_of_mem _ hr)
    cases l with
    | nil =>
      rw [show nex' hed = p from hlast (by simp)]
      exact ⟨rfl, hne, hprv, hend⟩
    | cons a l =>
      obtain ⟨hmem, heq⟩ := getLastD_cons_cons null hed a l
      rw [heq] at hnex hlast
      have hnext : nex' hed = nex hed := hnex hed (by simp) fun hsame ↦ hnodup.1 (hsame ▸ hmem)
      rw [List.getLastD_cons] at hprv
      have hchain :=
        hrec (fun r hr ↦ hnex r (List.mem_cons_of_mem _ hr)) (fun _ ↦ hlast (by simp)) hprv
      rw [if_neg (by simp)] at hchain
      rw [hnext]
      exact hchain

/-- A member is taken out when its neighbours link to each other. -/
theorem Linked.unlink (hlinked : Linked null pre nex prv hed (l₁ ++ p :: l₂))
    (hnodup : (prv :: (l₁ ++ p :: l₂)).Nodup)
    (hpre : ∀ q ∈ l₁ ++ l₂, q ≠ nex p → pre' q = pre q)
    (hnex : ∀ q ∈ l₁ ++ l₂, q ≠ pre p → nex' q = nex q)
    (hback : nex p ≠ null → pre' (nex p) = pre p)
    (hforth : l₁ ≠ [] → nex' (pre p) = nex p) :
    Linked null pre' nex' prv (if l₁ = [] then nex p else hed) (l₁ ++ l₂) := by
  induction l₁ generalizing prv hed with
  | nil =>
    obtain ⟨_, _, hprv, hrest⟩ := hlinked
    rw [if_pos rfl]
    cases l₂ with
    | nil => exact hrest
    | cons q l₂ =>
      obtain ⟨hq, hqn, _, hrest⟩ := hrest
      simp only [List.nil_append, List.nodup_cons, List.mem_cons, not_or] at hnodup
      refine ⟨hq, hqn, ?_, ?_⟩
      · rw [← hq, hback (hq ▸ hqn), hprv]
      · rw [hnex q (by simp) (by rw [hprv]; tauto)]
        refine hrest.congr (fun r hr ↦ hpre r (by simp [hr]) ?_) fun r hr ↦ hnex r (by simp [hr]) ?_
        · rintro rfl
          rw [hq] at hr
          exact hnodup.2.2.1 hr
        · rintro rfl
          rw [hprv] at hr
          exact hnodup.1.2.2 hr
  | cons a l₁ ih =>
    obtain ⟨rfl, ha, hprv, hrest⟩ := hlinked
    rw [if_neg (by simp)]
    have hlast := hrest.pre_eq.1
    have hnext := hrest.nex_eq.1
    have htail : (hed :: (l₁ ++ p :: l₂)).Nodup := by
      rw [List.cons_append, List.nodup_cons] at hnodup
      exact hnodup.2
    have hrec := ih hrest htail (fun r hr ↦ hpre r (by simp [List.mem_append.mp hr]))
      (fun r hr ↦ hnex r (by simp [List.mem_append.mp hr])) fun _ ↦ hforth (by simp)
    rw [List.nodup_cons] at htail
    have hnot : hed ≠ nex p := by
      rw [hnext]
      cases l₂ with
      | nil => exact ha
      | cons q l₂ =>
        rintro rfl
        exact htail.1 (by simp)
    have hlink : nex' hed = if l₁ = [] then nex p else nex hed := by
      cases l₁ with
      | nil =>
        rw [if_pos rfl, ← hforth (by simp), hlast]
        rfl
      | cons b l₁ =>
        rw [if_neg (by simp)]
        refine hnex hed (by simp) ?_
        rw [hlast]
        rintro heq
        refine htail.1 ?_
        rw [heq, List.getLastD_cons, List.mem_append]
        exact .inl List.getLastD_mem_cons
    refine ⟨rfl, ha, (hpre hed (by simp) hnot).trans hprv, ?_⟩
    rw [hlink]
    exact hrec

end Vere.Lib
