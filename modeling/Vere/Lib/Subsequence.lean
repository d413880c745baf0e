import Mathlib.Data.List.Basic

/-!
# Longest common subsequences

The method of Hunt and Szymanski. A candidate of length `i + 1` is a list of positions in the second
list, the last one first, at which a common subsequence of that length is found;
`Candidates A B kad` says that `kad` has a candidate for every length of a common subsequence of `A`
and `B`, each with a top that is as low as it can be. `Candidates.step` is what another element of
the first list does to them, and `Candidates.longest` what they say about the common subsequences.
-/

set_option autoImplicit false

namespace Vere.Lib.Subsequence

open scoped List

/-! ### Sublists that end in an element -/

section Concat

variable {α : Type*} {x y : α} {l l' : List α}

theorem concat_sublist_concat : l ++ [x] <+ l' ++ [y] ↔ l ++ [x] <+ l' ∨ x = y ∧ l <+ l' := by
  rw [← List.reverse_sublist, ← @List.reverse_sublist _ (l ++ [x]) l',
    ← @List.reverse_sublist _ l l']
  simp only [List.reverse_append, List.reverse_cons, List.reverse_nil, List.nil_append,
    List.singleton_append]
  exact List.cons_sublist_cons'

theorem sublist_concat : l <+ l' ++ [x] → l <+ l' ∨ ∃ l₁, l = l₁ ++ [x] ∧ l₁ <+ l' := by
  intro hsub
  rcases List.eq_nil_or_concat l with rfl | ⟨l₁, y, rfl⟩
  · exact Or.inl (List.nil_sublist _)
  · rw [List.concat_eq_append] at hsub ⊢
    rcases concat_sublist_concat.mp hsub with hl | ⟨rfl, hl⟩
    · exact Or.inl hl
    · exact Or.inr ⟨l₁, rfl, hl⟩

theorem take_concat {B : List α} {m : ℕ} (hm : B[m]? = some x) :
    B.take (m + 1) = B.take m ++ [x] := by
  rw [List.take_add_one, hm]
  rfl

/-- Where the last element of a sublist of a prefix is found. -/
theorem exists_last {B : List α} {j : ℕ} (hsub : l ++ [x] <+ B.take j) :
    ∃ m < j, B[m]? = some x ∧ l <+ B.take m := by
  induction j with
  | zero =>
    rw [List.take_zero, List.sublist_nil] at hsub
    exact absurd hsub (by simp)
  | succ j ih =>
    cases hj : B[j]? with
    | none =>
      rw [List.take_add_one, hj, Option.toList_none, List.append_nil] at hsub
      obtain ⟨m, hm, hrest⟩ := ih hsub
      exact ⟨m, by omega, hrest⟩
    | some y =>
      rw [take_concat hj] at hsub
      rcases concat_sublist_concat.mp hsub with hless | ⟨rfl, hless⟩
      · obtain ⟨m, hm, hrest⟩ := ih hless
        exact ⟨m, by omega, hrest⟩
      · exact ⟨j, by omega, hj, hless⟩

end Concat

/-! ### Candidates -/

/-- The top of a candidate. -/
def top (kad : List (List ℕ)) (i : ℕ) : Option ℕ := kad[i]?.bind List.head?

/-- The candidate that one of length `i + 1` extends. -/
def prev (kad : List (List ℕ)) (i : ℕ) : List ℕ := if i = 0 then [] else kad.getD (i - 1) []

/-- A position behind the top of the candidate that is to be extended. -/
def low (kad : List (List ℕ)) (i j : ℕ) : Bool := i = 0 || (top kad (i - 1)).any (· < j)

/-- A position before the top of the candidate that is to be replaced. -/
def high (kad : List (List ℕ)) (i j : ℕ) : Bool := (top kad i).all (j < ·)

/-- The candidate of length `i + 1` after an element that is found at the positions `js`. -/
def row (kad : List (List ℕ)) (js : List ℕ) (i : ℕ) : Option (List ℕ) :=
  match js.find? (low kad i) with
  | some j => if high kad i j then some (j :: prev kad i) else kad[i]?
  | none => kad[i]?

theorem row_cons (kad : List (List ℕ)) (j : ℕ) (js : List ℕ) (i : ℕ) : row kad (j :: js) i =
    if low kad i j = true then if high kad i j = true then some (j :: prev kad i) else kad[i]?
      else row kad js i := by
  unfold row
  rw [List.find?_cons]
  cases low kad i j <;> rfl

variable {α : Type*}

/-- Positions of a common subsequence of length `i + 1`. -/
structure Candidate (A B : List α) (i : ℕ) (c : List ℕ) (w : List α) : Prop where
  spells : List.Forall₂ (fun j x ↦ B[j]? = some x) c w
  length : w.length = i + 1
  first : w.reverse <+ A
  second : ∀ j ∈ c.head?, w.reverse <+ B.take (j + 1)

/-- Candidates for all lengths, none of which can end further to the left. -/
structure Candidates (A B : List α) (kad : List (List ℕ)) : Prop where
  candidate : ∀ i c, kad[i]? = some c → ∃ w, Candidate A B i c w
  best : ∀ j cs, cs <+ A → cs <+ B.take j → cs = [] ∨ ∃ t ∈ top kad (cs.length - 1), t < j

variable {A B : List α} {kad : List (List ℕ)} {i j : ℕ}

theorem Candidates.nil (B : List α) : Candidates [] B [] where
  candidate i c hc := by cases hc
  best j cs hfirst _ := Or.inl (List.sublist_nil.mp hfirst)

theorem Candidate.cons {i : ℕ} {c : List ℕ} {w : List α} (hc : Candidate A B i c w) :
    ∃ t c' x w', c = t :: c' ∧ w = x :: w' ∧ B[t]? = some x ∧
      List.Forall₂ (fun j x ↦ B[j]? = some x) c' w' ∧ w'.length = i ∧ w'.reverse <+ A ∧
        w'.reverse <+ B.take t := by
  obtain ⟨hspells, hlen, hfirst, hsecond⟩ := hc
  cases hspells with
  | nil => cases hlen
  | @cons t x c' w' ht hrest =>
    have hsub := hsecond t rfl
    rw [List.reverse_cons] at hfirst hsub
    rw [take_concat ht] at hsub
    refine ⟨t, c', x, w', rfl, rfl, ht, hrest, by simpa using hlen, ?_, ?_⟩
    · exact (List.sublist_append_left _ _).trans hfirst
    · rcases concat_sublist_concat.mp hsub with hsub | ⟨-, hsub⟩
      · exact (List.sublist_append_left _ _).trans hsub
      · exact hsub

/-- Longer candidates end further to the right. -/
theorem Candidates.increasing (hkad : Candidates A B kad) {t' : ℕ}
    (ht' : top kad (i + 1) = some t') :
    ∃ t ∈ top kad i, t < t' := by
  obtain ⟨c, hc, hhead⟩ := Option.bind_eq_some_iff.mp ht'
  obtain ⟨w, hw⟩ := hkad.candidate _ _ hc
  obtain ⟨t, c', x, w', rfl, rfl, -, -, hlen, hfirst, hsecond⟩ := hw.cons
  cases hhead
  rcases hkad.best _ w'.reverse hfirst hsecond with hnil | hbest
  · rw [List.reverse_eq_nil_iff] at hnil
    rw [hnil] at hlen
    cases hlen
  · rwa [List.length_reverse, hlen, Nat.add_sub_cancel] at hbest

theorem low_succ : low kad (i + 1) j = true ↔ ∃ t ∈ top kad i, t < j := by
  simp [low, Option.any_eq_true]

theorem high_iff : high kad i j = true ↔ ∀ t ∈ top kad i, j < t := by
  simp [high, Option.all_eq_true]

theorem Candidates.low_mono (hkad : Candidates A B kad) (hlow : low kad (i + 1) j = true) :
    low kad i j = true := by
  cases i with
  | zero => rfl
  | succ i =>
    obtain ⟨t', ht', hlt'⟩ := low_succ.mp hlow
    obtain ⟨t, ht, hlt⟩ := hkad.increasing ht'
    exact low_succ.mpr ⟨t, ht, by omega⟩

theorem Candidates.high_mono (hkad : Candidates A B kad) (hhigh : high kad i j = true) :
    high kad (i + 1) j = true := by
  refine high_iff.mpr fun t' ht' ↦ ?_
  obtain ⟨t, ht, hlt⟩ := hkad.increasing ht'
  exact Nat.lt_trans (high_iff.mp hhigh t ht) hlt

theorem Candidates.low_anti (hkad : Candidates A B kad) {i' : ℕ} (hle : i ≤ i')
    (hlow : low kad i' j = true) :
    low kad i j = true := by
  induction hle with
  | refl => exact hlow
  | step _ ih => exact ih (hkad.low_mono hlow)

/-- Where a position does not extend a candidate, or replaces one, it does so further on too. -/
theorem Candidates.fits_mono (hkad : Candidates A B kad) {i' : ℕ} (hle : i ≤ i')
    (hfits : low kad i j = false ∨ high kad i j = true) : low kad i' j = false ∨
      high kad i' j = true := by
  induction hle with
  | refl => exact hfits
  | step _ ih =>
    refine ih.imp (fun hlow ↦ ?_) hkad.high_mono
    rw [← Bool.not_eq_true] at hlow ⊢
    exact fun hsucc ↦ hlow (hkad.low_mono hsucc)

/-- Where a position is before the top, it extends no longer candidate. -/
theorem not_low_of_high (hhigh : high kad i j = true) : low kad (i + 1) j = false := by
  rw [← Bool.not_eq_true, low_succ]
  rintro ⟨t, ht, hlt⟩
  exact absurd (high_iff.mp hhigh t ht) (by omega)

/-- No candidate is longer than a list. -/
theorem Candidates.length_le (hkad : Candidates A B kad) : kad.length ≤ A.length ∧
    kad.length ≤ B.length := by
  cases hlen : kad.length with
  | zero => exact ⟨Nat.zero_le _, Nat.zero_le _⟩
  | succ k =>
    obtain ⟨w, hw⟩ := hkad.candidate k _ (List.getElem?_eq_getElem (by omega))
    obtain ⟨t, c', x, w', hc, rfl, -⟩ := hw.cons
    have hfirst := hw.first.length_le
    have hsecond := (hw.second t (by rw [hc]; rfl)).length_le
    have hwlen := hw.length
    rw [List.length_reverse] at hfirst hsecond
    rw [List.length_take] at hsecond
    omega

/-- No common subsequence is longer than the longest candidate. -/
theorem Candidates.longest (hkad : Candidates A B kad) {cs : List α} (hfirst : cs <+ A)
    (hsecond : cs <+ B) :
    cs.length ≤ kad.length := by
  rw [← List.take_length (l := B)] at hsecond
  rcases hkad.best _ cs hfirst hsecond with rfl | ⟨t, ht, -⟩
  · exact Nat.zero_le _
  · obtain ⟨c, hc, -⟩ := Option.bind_eq_some_iff.mp ht
    have hlt := (List.getElem?_eq_some_iff.mp hc).1
    omega

/-! ### Another element -/

section Step

variable {x : α} {js : List ℕ} {kad' : List (List ℕ)}

/-- The candidate that is extended, and its word. -/
theorem Candidates.exists_prev (hkad : Candidates A B kad) (hlow : low kad i j = true) :
    ∃ w, List.Forall₂ (fun j x ↦ B[j]? = some x) (prev kad i) w ∧ w.length = i ∧ w.reverse <+ A ∧
      w.reverse <+ B.take j := by
  cases i with
  | zero => exact ⟨[], .nil, rfl, List.nil_sublist _, List.nil_sublist _⟩
  | succ i =>
    obtain ⟨t, ht, hlt⟩ := low_succ.mp hlow
    obtain ⟨c, hc, hhead⟩ := Option.bind_eq_some_iff.mp ht
    obtain ⟨w, hw⟩ := hkad.candidate i c hc
    have hprev : prev kad (i + 1) = c := by
      rw [prev, if_neg (Nat.succ_ne_zero i), Nat.add_sub_cancel, List.getD_eq_getElem?_getD, hc]
      rfl
    rw [hprev]
    refine ⟨w, hw.spells, hw.length, hw.first, (hw.second t hhead).trans ?_⟩
    exact List.take_sublist_take_left (by omega)

/-- A position of the new element, before which a common subsequence is extended. -/
theorem row_spec {m : ℕ} (hsorted : js.Pairwise (· < ·)) (hmem : m ∈ js)
    (hlow : low kad i m = true) : ∃ c, row kad js i = some c ∧ ∃ t ∈ c.head?, t ≤ m := by
  obtain ⟨j, hfind⟩ : ∃ j, js.find? (low kad i) = some j := by
    cases hfind : js.find? (low kad i) with
    | none => exact absurd hlow (List.find?_eq_none.mp hfind m hmem)
    | some j => exact ⟨j, rfl⟩
  have hjm : j ≤ m := by
    obtain ⟨-, as, bs, rfl, hbefore⟩ := List.find?_eq_some_iff_append.mp hfind
    rcases List.mem_append.mp hmem with hmem | hmem
    · exact absurd hlow (by simpa using hbefore m hmem)
    · rcases List.mem_cons.mp hmem with rfl | hmem
      · exact Nat.le_refl _
      · have hafter := (List.pairwise_append.mp hsorted).2.1
        exact Nat.le_of_lt (List.rel_of_pairwise_cons hafter hmem)
  unfold row
  rw [hfind]
  dsimp only
  cases hhigh : high kad i j with
  | true => exact ⟨_, if_pos rfl, j, rfl, hjm⟩
  | false =>
    rw [if_neg (by simp)]
    have hnot : ¬∀ t ∈ top kad i, j < t := fun hall ↦ by simp [high_iff.mpr hall] at hhigh
    simp only [not_forall, Nat.not_lt] at hnot
    obtain ⟨t, ht, hle⟩ := hnot
    obtain ⟨c, hc, hhead⟩ := Option.bind_eq_some_iff.mp ht
    exact ⟨c, hc, t, hhead, Nat.le_trans hle hjm⟩

/-- No top moves to the right. -/
theorem exists_top_row {t : ℕ} (ht : top kad i = some t) : ∃ c, row kad js i = some c ∧
    ∃ t' ∈ c.head?, t' ≤ t := by
  obtain ⟨c, hc, hhead⟩ := Option.bind_eq_some_iff.mp ht
  unfold row
  cases hfind : js.find? (low kad i) with
  | none => exact ⟨c, hc, t, hhead, Nat.le_refl _⟩
  | some j =>
    dsimp only
    cases hhigh : high kad i j with
    | true => exact ⟨_, if_pos rfl, j, rfl, Nat.le_of_lt (high_iff.mp hhigh t ht)⟩
    | false =>
      rw [if_neg (by simp)]
      exact ⟨c, hc, t, hhead, Nat.le_refl _⟩

/-- The candidates for a list that goes on with an element, which is found at the positions `js`. -/
theorem Candidates.step (hkad : Candidates A B kad) (hsorted : js.Pairwise (· < ·))
    (hjs : ∀ j, j ∈ js ↔ B[j]? = some x)
    (hrow : ∀ i, kad'[i]? = if i ≤ kad.length then row kad js i else none) :
      Candidates (A ++ [x]) B kad' where
  candidate i c hc := by
    have hold : ∀ c, kad[i]? = some c → ∃ w, Candidate (A ++ [x]) B i c w := by
      intro c hc
      obtain ⟨w, hw⟩ := hkad.candidate i c hc
      exact ⟨w, hw.spells, hw.length, hw.first.trans (List.sublist_append_left _ _), hw.second⟩
    rw [hrow] at hc
    by_cases hi : i ≤ kad.length
    · rw [if_pos hi, row] at hc
      cases hfind : js.find? (low kad i) with
      | none =>
        rw [hfind] at hc
        exact hold c hc
      | some j =>
        rw [hfind] at hc
        dsimp only at hc
        by_cases hhigh : high kad i j = true
        · rw [if_pos hhigh] at hc
          cases hc
          have hj : B[j]? = some x := (hjs j).mp (List.mem_of_find?_eq_some hfind)
          obtain ⟨w, hspells, hlen, hfirst, hsecond⟩ := hkad.exists_prev (List.find?_some hfind)
          refine ⟨x :: w, .cons hj hspells, by simp [hlen], ?_, ?_⟩
          · rw [List.reverse_cons]
            exact hfirst.append (List.Sublist.refl _)
          · rintro t ⟨⟩
            rw [List.reverse_cons, take_concat hj]
            exact hsecond.append (List.Sublist.refl _)
        · rw [if_neg hhigh] at hc
          exact hold c hc
    · rw [if_neg hi] at hc
      cases hc
  best j cs hfirst hsecond := by
    rcases sublist_concat hfirst with hold | ⟨ds, rfl, hold⟩
    · refine (hkad.best j cs hold hsecond).imp_right ?_
      rintro ⟨t, ht, hlt⟩
      have hi : cs.length - 1 ≤ kad.length := by
        obtain ⟨c, hc, -⟩ := Option.bind_eq_some_iff.mp ht
        exact Nat.le_of_lt (List.getElem?_eq_some_iff.mp hc).1
      obtain ⟨c, hc, t', ht', hle⟩ := @exists_top_row _ _ js _ ht
      refine ⟨t', ?_, by omega⟩
      rw [top, hrow, if_pos hi, hc]
      exact ht'
    · right
      obtain ⟨m, hm, hx, hds⟩ := exists_last hsecond
      have hlow : low kad ds.length m = true := by
        rcases hkad.best m ds hold hds with rfl | ⟨t, ht, hlt⟩
        · rfl
        · cases hlen : ds.length with
          | zero => rfl
          | succ n =>
            rw [hlen, Nat.add_sub_cancel] at ht
            exact low_succ.mpr ⟨t, ht, hlt⟩
      have hi : ds.length ≤ kad.length := hkad.longest hold (hds.trans (List.take_sublist _ _))
      obtain ⟨c, hc, t, ht, hle⟩ := row_spec hsorted ((hjs m).mpr hx) hlow
      rw [List.length_append, List.length_singleton, Nat.add_sub_cancel, top, hrow, if_pos hi, hc]
      exact ⟨t, ht, by omega⟩

end Step

end Vere.Lib.Subsequence
