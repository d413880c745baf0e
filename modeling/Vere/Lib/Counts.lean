import Mathlib.Algebra.BigOperators.Group.Finset.Basic
import Mathlib.Data.List.Count

/-!
# Reference counts

A heap of boxes, each of which holds references to boxes, is shared safely when no box has more
references than its use count says. `Counted boxes held use roots` says so for the boxes in use,
where `roots` are the references from outside that belong to the program. A use count may be too
high, for references that nobody remembers, and never too low.

A box whose use count is one and that is referred to from outside is referred to from nowhere else,
so that it can be taken out of the heap (`Counted.take`), after which what it held belongs to the
program, and be put back (`Counted.put`).
-/

set_option autoImplicit false

namespace Vere.Lib.Counts

variable {α : Type*} [DecidableEq α]

/-- The number of references that boxes hold to `o`. -/
def refs (boxes : Finset α) (held : α → List α) (o : α) : ℕ := ∑ b ∈ boxes, (held b).count o

/-- The use counts are not below the numbers of references. -/
structure Counted (boxes : Finset α) (held : α → List α) (use : α → ℕ) (roots : List α) : Prop where
  /-- What a box holds is a box. -/
  closed : ∀ b ∈ boxes, ∀ o ∈ held b, o ∈ boxes
  /-- What the program holds is a box. -/
  inside : ∀ o ∈ roots, o ∈ boxes
  /-- No box is used more often than it says. -/
  uses : ∀ o ∈ boxes, refs boxes held o + roots.count o ≤ use o

variable {boxes : Finset α} {held held' : α → List α} {use use' : α → ℕ} {roots roots' : List α}
  {b o : α}

theorem refs_erase (hb : b ∈ boxes) (o : α) :
    refs boxes held o = (held b).count o + refs (boxes.erase b) held o :=
  (Finset.add_sum_erase boxes (fun b ↦ (held b).count o) hb).symm

theorem refs_insert (hb : b ∉ boxes) (o : α) :
    refs (insert b boxes) held o = (held b).count o + refs boxes held o :=
  Finset.sum_insert hb

theorem refs_congr (hsame : ∀ b ∈ boxes, held b = held' b) (o : α) :
    refs boxes held o = refs boxes held' o :=
  Finset.sum_congr rfl fun b hb ↦ by rw [hsame b hb]

/-- A box that holds a reference adds to the count. -/
theorem refs_pos (hb : b ∈ boxes) (ho : o ∈ held b) : 0 < refs boxes held o := by
  rw [refs_erase hb]
  have hcount : 0 < (held b).count o := List.count_pos_iff.mpr ho
  omega

/-- A reference to a box outside a closed heap is held by none of its boxes. -/
theorem refs_outside (hclosed : ∀ b ∈ boxes, ∀ o ∈ held b, o ∈ boxes) (ho : o ∉ boxes) :
    refs boxes held o = 0 :=
  Finset.sum_eq_zero fun b hb ↦ List.count_eq_zero.mpr fun hheld ↦ ho (hclosed b hb o hheld)

namespace Counted

theorem congr (hcounted : Counted boxes held use roots) (hheld : ∀ b ∈ boxes, held b = held' b)
    (huse : ∀ b ∈ boxes, use b ≤ use' b) : Counted boxes held' use' roots where
  closed b hb o ho := hcounted.closed b hb o (by rwa [hheld b hb])
  inside := hcounted.inside
  uses o ho := by
    rw [← refs_congr hheld]
    exact (hcounted.uses o ho).trans (huse o ho)

theorem perm (hcounted : Counted boxes held use roots) (hperm : roots.Perm roots') :
    Counted boxes held use roots' where
  closed := hcounted.closed
  inside o ho := hcounted.inside o (hperm.mem_iff.mpr ho)
  uses o ho := by
    rw [← hperm.count_eq]
    exact hcounted.uses o ho

/-- A box with one use that the program refers to is referred to from nowhere else. -/
theorem unshared (hcounted : Counted boxes held use (b :: roots)) (huse : use b = 1) :
    b ∉ roots ∧ ∀ b' ∈ boxes, b ∉ held b' := by
  have huses := hcounted.uses b (hcounted.inside b List.mem_cons_self)
  rw [List.count_cons_self] at huses
  refine ⟨fun hroot ↦ ?_, fun b' hb' hheld ↦ ?_⟩
  · have hcount : 0 < roots.count b := List.count_pos_iff.mpr hroot
    omega
  · have hpos := refs_pos hb' hheld
    omega

/-- A box that nobody else refers to is taken out of the heap, for what it holds. -/
theorem take (hcounted : Counted boxes held use (b :: roots)) (huse : use b = 1) :
    Counted (boxes.erase b) held use (held b ++ roots) := by
  have hb := hcounted.inside b List.mem_cons_self
  obtain ⟨hroots, hheld⟩ := hcounted.unshared huse
  refine ⟨fun b' hb' o ho ↦ ?_, fun o ho ↦ ?_, fun o ho ↦ ?_⟩
  · have hin := Finset.mem_of_mem_erase hb'
    refine Finset.mem_erase.mpr ⟨?_, hcounted.closed b' hin o ho⟩
    rintro rfl
    exact hheld b' hin ho
  · obtain hin | hin := List.mem_append.mp ho
    · refine Finset.mem_erase.mpr ⟨?_, hcounted.closed b hb o hin⟩
      rintro rfl
      exact hheld o hb hin
    · refine Finset.mem_erase.mpr ⟨?_, hcounted.inside o (List.mem_cons_of_mem b hin)⟩
      rintro rfl
      exact hroots hin
  · have huses := hcounted.uses o (Finset.mem_of_mem_erase ho)
    rw [refs_erase hb, List.count_cons] at huses
    rw [List.count_append]
    omega

/-- A box with a use is put into the heap, for what it holds. -/
theorem put (hcounted : Counted boxes held use (held b ++ roots)) (hb : b ∉ boxes)
    (huse : 1 ≤ use b) : Counted (insert b boxes) held use (b :: roots) := by
  refine ⟨fun b' hb' o ho ↦ ?_, fun o ho ↦ ?_, fun o ho ↦ ?_⟩
  · obtain rfl | hb' := Finset.mem_insert.mp hb'
    · exact Finset.mem_insert_of_mem (hcounted.inside o (List.mem_append_left _ ho))
    · exact Finset.mem_insert_of_mem (hcounted.closed b' hb' o ho)
  · obtain rfl | ho := List.mem_cons.mp ho
    · exact Finset.mem_insert_self _ _
    · exact Finset.mem_insert_of_mem (hcounted.inside o (List.mem_append_right _ ho))
  · rw [refs_insert hb, List.count_cons]
    obtain rfl | ho := Finset.mem_insert.mp ho
    · have houtside := refs_outside hcounted.closed hb
      have hroot : o ∉ held o ++ roots := fun hroot ↦ hb (hcounted.inside o hroot)
      have hcount := List.count_eq_zero.mpr hroot
      rw [List.count_append] at hcount
      simp only [beq_self_eq_true, if_true]
      omega
    · have huses := hcounted.uses o ho
      rw [List.count_append] at huses
      rw [if_neg]
      · omega
      · intro hsame
        exact hb ((beq_iff_eq.mp hsame) ▸ ho)

/-- A use count that has been raised covers one more reference. -/
theorem gain (hcounted : Counted boxes held use roots) (ho : o ∈ boxes)
    (hothers : ∀ b ∈ boxes, b ≠ o → use b ≤ use' b) (huse : use o + 1 ≤ use' o) :
    Counted boxes held use' (o :: roots) where
  closed := hcounted.closed
  inside b hb := by
    obtain rfl | hb := List.mem_cons.mp hb
    · exact ho
    · exact hcounted.inside b hb
  uses b hb := by
    have huses := hcounted.uses b hb
    rw [List.count_cons]
    split_ifs with hsame
    · obtain rfl := beq_iff_eq.mp hsame
      omega
    · have hle := hothers b hb fun heq ↦ hsame (beq_iff_eq.mpr heq.symm)
      omega

/-- What a box holds is exchanged with the program. -/
theorem exchange {ins outs : List α} (hcounted : Counted boxes held use (ins ++ roots))
    (hb : b ∈ boxes) (hothers : ∀ b' ∈ boxes, b' ≠ b → held b' = held' b')
    (hsame : ∀ o, (held b).count o + ins.count o = (held' b).count o + outs.count o) :
    Counted boxes held' use (outs ++ roots) := by
  have hmem : ∀ o, o ∈ held' b ∨ o ∈ outs → o ∈ boxes := by
    intro o ho
    have hcount : 0 < (held' b).count o + outs.count o := by
      rcases ho with ho | ho
      · exact Nat.add_pos_left (List.count_pos_iff.mpr ho) _
      · exact Nat.add_pos_right _ (List.count_pos_iff.mpr ho)
    rw [← hsame o, Nat.add_pos_iff_pos_or_pos] at hcount
    rcases hcount with hheld | hin
    · exact hcounted.closed b hb o (List.count_pos_iff.mp hheld)
    · exact hcounted.inside o (List.mem_append_left _ (List.count_pos_iff.mp hin))
  refine ⟨fun b' hb' o ho ↦ ?_, fun o ho ↦ ?_, fun o ho ↦ ?_⟩
  · by_cases heq : b' = b
    · exact hmem o (.inl (heq ▸ ho))
    · rw [← hothers b' hb' heq] at ho
      exact hcounted.closed b' hb' o ho
  · rcases List.mem_append.mp ho with ho | ho
    · exact hmem o (.inr ho)
    · exact hcounted.inside o (List.mem_append_right _ ho)
  · have huses := hcounted.uses o ho
    have hrest : refs (boxes.erase b) held o = refs (boxes.erase b) held' o :=
      refs_congr (fun b' hb' ↦ hothers b' (Finset.mem_of_mem_erase hb')
        (Finset.ne_of_mem_erase hb')) o
    have hb' := hsame o
    rw [refs_erase hb, List.count_append] at huses
    rw [refs_erase hb, List.count_append, ← hrest]
    omega

/-- A reference that is given up allows a lower use count. -/
theorem lose (hcounted : Counted boxes held use (o :: roots))
    (hothers : ∀ b ∈ boxes, b ≠ o → use b ≤ use' b) (huse : use o ≤ use' o + 1) :
    Counted boxes held use' roots where
  closed := hcounted.closed
  inside b hb := hcounted.inside b (List.mem_cons_of_mem o hb)
  uses b hb := by
    have huses := hcounted.uses b hb
    rw [List.count_cons] at huses
    split_ifs at huses with hsame
    · obtain rfl := beq_iff_eq.mp hsame
      omega
    · have hle := hothers b hb fun heq ↦ hsame (beq_iff_eq.mpr heq.symm)
      omega

end Counted

end Vere.Lib.Counts
