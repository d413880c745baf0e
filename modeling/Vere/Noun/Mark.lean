import Vere.Lib.Visit
import Vere.Noun.AllocateRun

/-!
# Marking, counting and discounting

`u3a_mark_noun()`, `u3a_count_noun()` and `u3a_discount_noun()` of `pkg/noun/allocate.c`. The three
go through a noun in the same way: each box that they come to has its use count changed, and what is
below a box is gone through only if the change says that the box is a new one. `walkNoun` is the
common walk, with the change and the test as parameters.

On the heap of a road the walk is a depth-first visit, and the use count of a box afterwards depends
only on how often the walk came to it (`walkNoun_tours`). `count_discount` is what follows for
counting: the sum is the size of what can be reached, and discounting gives the road back.
-/

set_option autoImplicit false

namespace Vere.Noun.Mark

open Lib.Visit Allocate

/-! ### Words that are nouns -/

/-- `u3a_is_cat()`. -/
def isCat (som : ℕ) : Bool := som >>> 31 = 0

/-- `u3a_is_pom()`, and `u3du()`. -/
def isPom (som : ℕ) : Bool := som >>> 30 = 3

/-- `u3a_to_off()`. -/
def toOff (som : ℕ) : ℕ := som &&& 0x3fffffff

/-- `u3a_is_senior()`, on a road with its material at `mat_p`. -/
def isSenior (mat_p : ℕ) (r : Road) (som : ℕ) : Bool :=
  if isCat som then true
  else if r.isNorth then decide (toOff som < r.rut_p ∨ mat_p ≤ toOff som)
  else decide (toOff som < mat_p ∨ r.rut_p ≤ toOff som)

/-! ### Changes of use counts -/

/-- `u3a_mark_ptr()`, on the use count and the size of a box: the use count, and what is returned.
-/
def markUse (use_w siz_w : ℕ) : ℕ × ℕ :=
  if use_w = 0 then (0, 0)
  else if use_w = 0x80000000 then (0xffffffff, 0xffffffff)
  else if 0x80000000 < use_w then (use_w - 1, 0)
  else (0xffffffff, siz_w)

/-- `u3a_count_ptr()`, on the use count and the size of a box. -/
def countUse (use_w siz_w : ℕ) : ℕ × ℕ :=
  if use_w = 0 then (0, 0)
  else if 0x80000000 ≤ use_w then (use_w, 0)
  else (2 ^ 32 - use_w, siz_w)

/-- `u3a_discount_ptr()`, on the use count and the size of a box. -/
def discountUse (use_w siz_w : ℕ) : ℕ × ℕ :=
  if use_w = 0 then (0, 0)
  else if 0x80000000 ≤ use_w then (2 ^ 32 - use_w, siz_w)
  else (use_w, 0)

section

variable (mat_p : ℕ) (change : ℕ → ℕ → ℕ × ℕ) (stop : ℕ → Bool)

/-- `u3a_mark_ptr()`, `u3a_count_ptr()` or `u3a_discount_ptr()`: change the use count of a box of
the heap. -/
def visitPtr (r : Road) (ptr : ℕ) : Road × ℕ :=
  if r.low ≤ ptr ∧ ptr < r.high then
    let box := ptr - 2
    let (use_w, siz_w) := change (r.loom (box + 1)) (r.loom box)
    (r.put (box + 1) use_w, siz_w)
  else (r, 0)

/-- The loop of `u3a_mark_noun()`, `u3a_count_noun()` or `u3a_discount_noun()`, with what it has
summed up. The head of a cell is gone through first, and the loop goes on with the tail. -/
def walkNoun : ℕ → Road → ℕ → ℕ → Option (Road × ℕ)
  | 0, _, _, _ => none
  | fuel + 1, r, som, siz_w =>
    if isSenior mat_p r som then some (r, siz_w)
    else
      let dog_w := toOff som
      let (r, new_w) := visitPtr change r dog_w
      if stop new_w then some (r, siz_w)
      else if isPom som then do
        let (r, hed_w) ← walkNoun fuel r (r.loom (dog_w + 1)) 0
        walkNoun fuel r (r.loom (dog_w + 2)) (siz_w + new_w + hed_w)
      else some (r, siz_w + new_w)

/-- `u3a_mark_noun()`. -/
def markNoun (fuel : ℕ) (r : Road) (som : ℕ) : Option (Road × ℕ) :=
  walkNoun mat_p markUse (fun new_w ↦ new_w = 0 ∨ new_w = 0xffffffff) fuel r som 0

/-- `u3a_count_noun()`. -/
def countNoun (fuel : ℕ) (r : Road) (som : ℕ) : Option (Road × ℕ) :=
  walkNoun mat_p countUse (fun new_w ↦ new_w = 0) fuel r som 0

/-- `u3a_discount_noun()`. -/
def discountNoun (fuel : ℕ) (r : Road) (som : ℕ) : Option (Road × ℕ) :=
  walkNoun mat_p discountUse (fun new_w ↦ new_w = 0) fuel r som 0

end

/-- `u3a_mark_ptr()`. -/
def markPtr (r : Road) (ptr : ℕ) : Road × ℕ := visitPtr markUse r ptr

/-- One call for each root, and the sum of what they return. -/
def sumAll {ι : Type} (call : Road → ι → Option (Road × ℕ)) : Road → List ι → Option (Road × ℕ)
  | r, [] => some (r, 0)
  | r, root :: roots => do
    let (r, siz_w) ← call r root
    let (r, sum_w) ← sumAll call r roots
    some (r, siz_w + sum_w)

/-! ### References -/

/-- The pointer into the heap that a word is, if it is one. -/
def refs (r : Road) (som : ℕ) : List ℕ :=
  if isCat som = false ∧ r.low ≤ toOff som ∧ toOff som < r.high then [toOff som] else []

/-- What a box refers to, where `cell` says which pointers are to cells. -/
def next (r : Road) (cell : ℕ → Bool) (ptr : ℕ) : List ℕ :=
  if cell ptr then refs r (r.loom (ptr + 1)) ++ refs r (r.loom (ptr + 2)) else []

/-- Pointers to boxes of the heap, which are apart from each other. -/
structure Boxes (mat_p : ℕ) (r : Road) (ptrs : List ℕ) : Prop where
  above : r.isNorth = true → r.high ≤ mat_p
  below : r.isNorth = false → mat_p ≤ r.low
  range : ∀ p ∈ ptrs, 2 < p ∧ r.low ≤ p ∧ p < r.high
  apart : ∀ p ∈ ptrs, ∀ q ∈ ptrs, p = q ∨ p + 6 ≤ q ∨ q + 6 ≤ p

/-- A word is a noun, if it points into the heap only to one of the boxes, which is a cell if the
word says so. -/
def IsNoun (r : Road) (ptrs : List ℕ) (cell : ℕ → Bool) (som : ℕ) : Prop :=
  ∀ p ∈ refs r som, p ∈ ptrs ∧ isPom som = cell p

instance (r : Road) (ptrs : List ℕ) (cell : ℕ → Bool) (som : ℕ) :
    Decidable (IsNoun r ptrs cell som) :=
  inferInstanceAs (Decidable (∀ p ∈ refs r som, p ∈ ptrs ∧ isPom som = cell p))

/-- The words of a cell are nouns. -/
def Cells (r : Road) (ptrs : List ℕ) (cell : ℕ → Bool) : Prop :=
  ∀ p ∈ ptrs, cell p = true →
    IsNoun r ptrs cell (r.loom (p + 1)) ∧ IsNoun r ptrs cell (r.loom (p + 2))

instance (r : Road) (ptrs : List ℕ) (cell : ℕ → Bool) : Decidable (Cells r ptrs cell) :=
  inferInstanceAs (Decidable (∀ p ∈ ptrs, cell p = true →
    IsNoun r ptrs cell (r.loom (p + 1)) ∧ IsNoun r ptrs cell (r.loom (p + 2))))

section

variable {mat_p : ℕ} {change : ℕ → ℕ → ℕ × ℕ} {stop : ℕ → Bool} {r : Road} {ptrs log : List ℕ}
  {cell : ℕ → Bool} {som p : ℕ}

theorem mem_refs : p ∈ refs r som ↔ isCat som = false ∧ r.low ≤ p ∧ p < r.high ∧ p = toOff som := by
  unfold refs
  split_ifs with hin
  · rw [List.mem_singleton]
    constructor
    · rintro rfl
      exact ⟨hin.1, hin.2.1, hin.2.2, rfl⟩
    · exact fun h ↦ h.2.2.2
  · constructor
    · exact nofun
    · rintro ⟨hcat, hlow, hhigh, rfl⟩
      exact absurd ⟨hcat, hlow, hhigh⟩ hin

theorem Cells.next_mem (hcells : Cells r ptrs cell) (hp : p ∈ ptrs) :
    ∀ q ∈ next r cell p, q ∈ ptrs := by
  intro q hq
  unfold next at hq
  split_ifs at hq with hcell
  · obtain ⟨hhed, htel⟩ := hcells p hp hcell
    rcases List.mem_append.mp hq with hq | hq
    · exact (hhed q hq).1
    · exact (htel q hq).1
  · exact absurd hq List.not_mem_nil

variable {as news : List ℕ}

/-- What is arrived at are boxes. -/
theorem Cells.arrivals_mem {seen : Set ℕ} (hcells : Cells r ptrs cell) (has : ∀ p ∈ as, p ∈ ptrs)
    (hvisits : Visits (next r cell) seen as news) :
    ∀ p ∈ arrivals (next r cell) as news, p ∈ ptrs := by
  have hnews : ∀ p ∈ news, p ∈ ptrs := fun p hp ↦
    (hvisits.reached p hp).mem {p | p ∈ ptrs} has fun q hq ↦ hcells.next_mem hq
  intro p hp
  rcases List.mem_append.mp hp with hp | hp
  · exact has p hp
  · obtain ⟨q, hq, hnext⟩ := List.mem_flatMap.mp hp
    exact hcells.next_mem (hnews q hq) p hnext

theorem IsNoun.refs_mem (hnoun : IsNoun r ptrs cell som) : ∀ p ∈ refs r som, p ∈ ptrs :=
  fun p hp ↦ (hnoun p hp).1

/-- Words that are not use counts. -/
theorem Boxes.not_mem (hboxes : Boxes mat_p r ptrs) (hp : p ∈ ptrs) :
    p - 1 ∉ ptrs ∧ p + 1 ∉ ptrs ∧ p + 2 ∉ ptrs ∧ p + 3 ∉ ptrs := by
  have hrange := hboxes.range p hp
  refine ⟨fun hmem ↦ ?_, fun hmem ↦ ?_, fun hmem ↦ ?_, fun hmem ↦ ?_⟩
  all_goals
    have hapart := hboxes.apart p hp _ hmem
    omega

/-! ### Logs

A log is what has been come to so far. The use counts depend only on how often a box is in it. -/

/-- A use count after some changes. -/
def changed (change : ℕ → ℕ → ℕ × ℕ) (siz_w count use_w : ℕ) : ℕ :=
  (fun use_w ↦ (change use_w siz_w).1)^[count] use_w

theorem changed_succ (change : ℕ → ℕ → ℕ × ℕ) (siz_w count use_w : ℕ) :
    changed change siz_w (count + 1) use_w = (change (changed change siz_w count use_w) siz_w).1 :=
  Function.iterate_succ_apply' ..

/-- A road after the changes of a log. -/
def logged (change : ℕ → ℕ → ℕ × ℕ) (r : Road) (log : List ℕ) : Road :=
  { r with loom := fun w ↦ changed change (r.loom (w - 1)) (log.count (w + 1)) (r.loom w) }

theorem logged_nil (change : ℕ → ℕ → ℕ × ℕ) (r : Road) : logged change r [] = r := rfl

theorem logged_perm {log' : List ℕ} (hperm : log.Perm log') :
    logged change r log = logged change r log' := by
  simp only [logged, hperm.count_eq]

/-- A word that is not a use count of the log is as it was. -/
theorem loom_logged {w : ℕ} (hw : w + 1 ∉ log) : (logged change r log).loom w = r.loom w := by
  show changed change (r.loom (w - 1)) (log.count (w + 1)) (r.loom w) = r.loom w
  rw [List.count_eq_zero_of_not_mem hw]
  rfl

theorem use_logged (hp : 2 < p) : (logged change r log).loom (p - 2 + 1) =
    changed change (r.loom (p - 2)) (log.count p) (r.loom (p - 2 + 1)) := by
  show changed change (r.loom (p - 2 + 1 - 1)) (log.count (p - 2 + 1 + 1)) _ = _
  rw [Nat.add_sub_cancel, show p - 2 + 1 + 1 = p by omega]

theorem Boxes.size_logged (hboxes : Boxes mat_p r ptrs) (hlog : ∀ q ∈ log, q ∈ ptrs)
    (hp : p ∈ ptrs) :
    (logged change r log).loom (p - 2) = r.loom (p - 2) := by
  refine loom_logged fun hmem ↦ (hboxes.not_mem hp).1 ?_
  have hrange := hboxes.range p hp
  rw [show p - 1 = p - 2 + 1 by omega]
  exact hlog _ hmem

/-- A visit is one more entry of the log. -/
theorem Boxes.visit_logged (hboxes : Boxes mat_p r ptrs) (hlog : ∀ q ∈ log, q ∈ ptrs)
    (hp : p ∈ ptrs) : visitPtr change (logged change r log) p = (logged change r (p :: log),
      (change (changed change (r.loom (p - 2)) (log.count p) (r.loom (p - 2 + 1)))
        (r.loom (p - 2))).2) := by
  obtain ⟨hlt, hin⟩ := hboxes.range p hp
  have hrange : (logged change r log).low ≤ p ∧ p < (logged change r log).high := hin
  rw [visitPtr, if_pos hrange]
  dsimp only
  rw [hboxes.size_logged hlog hp, use_logged hlt]
  refine congrArg (·, _) ?_
  show Road.mk .. = Road.mk ..
  congr 1
  funext w
  rw [Function.update_apply]
  split_ifs with hw
  · subst hw
    show _ = changed change (r.loom (p - 2 + 1 - 1)) ((p :: log).count (p - 2 + 1 + 1)) _
    rw [Nat.add_sub_cancel, show p - 2 + 1 + 1 = p by omega, List.count_cons_self, changed_succ]
  · show changed change _ (log.count (w + 1)) _ = changed change _ ((p :: log).count (w + 1)) _
    rw [List.count_cons_of_ne (by omega)]

/-! ### Walks -/

/-- The first visit to a box returns its size, and the later ones stop the walk. -/
structure Once (change : ℕ → ℕ → ℕ × ℕ) (stop : ℕ → Bool) (siz_w use_w : ℕ) : Prop where
  first : (change use_w siz_w).2 = siz_w
  goes : stop siz_w = false
  later : ∀ count, stop (change (changed change siz_w (count + 1) use_w) siz_w).2 = true

/-- The total size of some boxes. -/
def sizes (r : Road) (ptrs : List ℕ) : ℕ := (ptrs.map fun p ↦ r.loom (p - 2)).sum

/-- How many boxes are not in the log. -/
def unseen (ptrs log : List ℕ) : ℕ := (ptrs.filter fun p ↦ p ∉ log).length

theorem unseen_cons_lt (hp : p ∈ ptrs) (hnew : p ∉ log) :
    unseen ptrs (p :: log) < unseen ptrs log := by
  have hsub : (ptrs.filter fun q ↦ q ∉ p :: log) =
      (ptrs.filter fun q ↦ q ∉ log).filter (· ≠ p) := by
    rw [List.filter_filter]
    refine List.filter_congr fun q _ ↦ ?_
    simp [not_or]
  rw [unseen, unseen, hsub]
  refine List.length_filter_lt_length_iff_exists.mpr ⟨p, ?_, by simp⟩
  simpa using ⟨hp, hnew⟩

theorem unseen_mono {log' : List ℕ} (hsub : ∀ q ∈ log, q ∈ log') :
    unseen ptrs log' ≤ unseen ptrs log := by
  refine (List.monotone_filter_right ptrs fun q hq ↦ ?_).length_le
  simp only [decide_not, Bool.not_eq_true', decide_eq_false_iff_not] at hq ⊢
  exact fun hmem ↦ hq (hsub q hmem)

/-- What is in the log has been seen. -/
abbrev seenIn (log : List ℕ) : Set ℕ := {p | p ∈ log}

/-- What has been seen after a walk. -/
theorem seenIn_arrivals {nex : ℕ → List ℕ} (hvisits : Visits nex (seenIn log) as news) :
    seenIn (arrivals nex as news ++ log) = seenIn log ∪ {p | p ∈ news} := by
  ext p
  simp only [Set.mem_ofPred_eq, Set.mem_union, List.mem_append]
  constructor
  · rintro (hp | hp)
    · exact hvisits.of_arrived p hp
    · exact .inl hp
  · rintro (hp | hp)
    · exact .inr hp
    · exact .inl (hvisits.arrived p hp)

/-- A word that does not point into the heap is passed by. -/
theorem walkNoun_of_refs_nil (hstop : stop 0 = true) (fuel : ℕ) (siz_w : ℕ)
    (hrefs : refs r som = []) :
    walkNoun mat_p change stop (fuel + 1) r som siz_w = some (r, siz_w) := by
  unfold walkNoun
  by_cases hsenior : isSenior mat_p r som = true
  · exact if_pos hsenior
  · have hcat : isCat som = false := by
      by_contra hcat
      exact hsenior (by simp [isSenior, Bool.of_not_eq_false hcat])
    have hout : ¬(r.low ≤ toOff som ∧ toOff som < r.high) := by
      intro hin
      simp [refs, hcat, hin] at hrefs
    have hvisit : visitPtr change r (toOff som) = (r, 0) := if_neg hout
    rw [if_neg hsenior]
    simp only [hvisit]
    exact if_pos hstop

theorem Boxes.not_senior (hboxes : Boxes mat_p r ptrs) (hp : p ∈ refs r som) :
    isSenior mat_p r som = false := by
  obtain ⟨hcat, hlow, hhigh, rfl⟩ := mem_refs.mp hp
  have habove := hboxes.above
  have hbelow := hboxes.below
  unfold isSenior
  unfold Road.low at hlow hbelow
  unfold Road.high at hhigh habove
  rw [if_neg (by simp [hcat])]
  cases hnorth : r.isNorth with
  | true =>
    simp only [hnorth, if_true, forall_const] at hlow hhigh habove ⊢
    simp only [decide_eq_false_iff_not]
    omega
  | false =>
    simp only [hnorth, Bool.false_eq_true, if_false, forall_const] at hlow hhigh hbelow ⊢
    simp only [decide_eq_false_iff_not]
    omega

/-- A walk is a depth-first visit of what its word refers to. -/
theorem walkNoun_tours (hboxes : Boxes mat_p r ptrs) (hcells : Cells r ptrs cell)
    (hstop : stop 0 = true)
    (honce : ∀ p ∈ ptrs, Once change stop (r.loom (p - 2)) (r.loom (p - 2 + 1))) (fuel : ℕ) :
    ∀ {som : ℕ} {log : List ℕ} (siz_w : ℕ), IsNoun r ptrs cell som → (∀ q ∈ log, q ∈ ptrs) →
      unseen ptrs log < fuel → ∃ news, Visits (next r cell) (seenIn log) (refs r som) news ∧
        walkNoun mat_p change stop fuel (logged change r log) som siz_w =
          some (logged change r (arrivals (next r cell) (refs r som) news ++ log),
            siz_w + sizes r news) := by
  induction fuel with
  | zero => exact fun _ _ _ hlt ↦ absurd hlt (Nat.not_lt_zero _)
  | succ fuel ih =>
    intro som log siz_w hnoun hlog hlt
    have hrefs : refs (logged change r log) som = refs r som := rfl
    rcases hsom : refs r som with _ | ⟨p, rest⟩
    · exact ⟨[], .done, walkNoun_of_refs_nil hstop fuel siz_w (hrefs.trans hsom)⟩
    have hmem : p ∈ refs r som := hsom ▸ List.mem_cons_self
    obtain ⟨hp, hpom⟩ := hnoun p hmem
    have hoff : p = toOff som := (mem_refs.mp hmem).2.2.2
    have hrest : rest = [] := by
      unfold refs at hsom
      split_ifs at hsom
      exact (List.cons.inj hsom).2.symm
    subst hrest
    have hsenior : isSenior mat_p (logged change r log) som = false := hboxes.not_senior hmem
    have hlog' : ∀ q ∈ p :: log, q ∈ ptrs := by
      intro q hq
      rcases List.mem_cons.mp hq with rfl | hq
      · exact hp
      · exact hlog q hq
    unfold walkNoun
    rw [if_neg (by simp [hsenior])]
    simp only [← hoff, hboxes.visit_logged hlog hp]
    by_cases hseen : p ∈ log
    · -- a later visit
      obtain ⟨count, hcount⟩ := Nat.exists_eq_succ_of_ne_zero (List.count_pos_iff.mpr hseen).ne'
      refine ⟨[], .pass hseen .done, ?_⟩
      rw [hcount, if_pos ((honce p hp).later count)]
      rfl
    · have hzero : log.count p = 0 := List.count_eq_zero_of_not_mem hseen
      have hfirst : (change (changed change (r.loom (p - 2)) (log.count p) (r.loom (p - 2 + 1)))
          (r.loom (p - 2))).2 = r.loom (p - 2) := by
        rw [hzero]
        exact (honce p hp).first
      have hfewer := unseen_cons_lt hp hseen
      rw [hfirst, if_neg (by simp [(honce p hp).goes])]
      cases hcell : cell p with
      | false =>
        have hnext : next r cell p = [] := by simp [next, hcell]
        refine ⟨[p], .enter hseen ?_, ?_⟩
        · rw [hnext]
          exact .done
        · rw [if_neg (by simp [hpom, hcell])]
          simp [arrivals, hnext, sizes]
      | true =>
        obtain ⟨hhed, htel⟩ := hcells p hp hcell
        obtain ⟨_, _, hword₂, hword₃⟩ := hboxes.not_mem hp
        have hnext : next r cell p = refs r (r.loom (p + 1)) ++ refs r (r.loom (p + 2)) := by
          simp [next, hcell]
        obtain ⟨news₁, hvisits₁, hwalk₁⟩ := ih 0 hhed hlog' (by omega)
        -- the log after the head
        have hin : ∀ q ∈ arrivals (next r cell) (refs r (r.loom (p + 1))) news₁ ++ p :: log,
            q ∈ ptrs := by
          intro q hq
          rcases List.mem_append.mp hq with hq | hq
          · exact hcells.arrivals_mem hhed.refs_mem hvisits₁ q hq
          · exact hlog' q hq
        have hunseen : unseen ptrs
          (arrivals (next r cell) (refs r (r.loom (p + 1))) news₁ ++ p :: log) ≤
            unseen ptrs (p :: log) := unseen_mono fun q hq ↦ List.mem_append_right _ hq
        obtain ⟨news₂, hvisits₂, hwalk₂⟩ :=
          ih (siz_w + r.loom (p - 2) + sizes r news₁) htel hin (by omega)
        rw [seenIn_arrivals hvisits₁] at hvisits₂
        refine ⟨p :: (news₁ ++ news₂), .enter hseen ?_, ?_⟩
        · rw [hnext, List.append_nil]
          have hset : insert p (seenIn log) = seenIn (p :: log) := by
            ext q
            simp
          rw [hset]
          exact hvisits₁.append hvisits₂
        · have hloom₁ : (logged change r (p :: log)).loom (p + 1) = r.loom (p + 1) :=
            loom_logged fun hmem ↦ hword₂ (hlog' _ hmem)
          have hloom₂ : (logged change r (arrivals (next r cell) (refs r (r.loom (p + 1))) news₁ ++
              p :: log)).loom (p + 2) = r.loom (p + 2) :=
            loom_logged fun hmem ↦ hword₃ (hin _ hmem)
          rw [if_pos (by simp [hpom, hcell]), hloom₁, hwalk₁]
          simp only [Option.bind_eq_bind, Option.bind_some]
          rw [hloom₂, Nat.zero_add, hwalk₂]
          refine congrArg some (Prod.ext (logged_perm ?_) ?_)
          · have harrivals := (arrivals_cons (next r cell) p [] (news₁ ++ news₂)).trans
              ((List.append_nil (next r cell p) ▸ hnext ▸ arrivals_append (next r cell)
                (refs r (r.loom (p + 1))) (refs r (r.loom (p + 2))) news₁ news₂).cons p)
            refine List.Perm.trans ?_ (harrivals.append_right log).symm
            refine List.perm_append_comm_assoc .. |>.trans ?_
            rw [← List.append_assoc]
            exact List.perm_middle
          · show siz_w + r.loom (p - 2) + sizes r news₁ + sizes r news₂ =
              siz_w + sizes r (p :: (news₁ ++ news₂))
            simp only [sizes, List.map_cons, List.map_append, List.sum_cons, List.sum_append]
            omega

/-- The calls for some roots come to what the roots refer to. What they return is the size of what
is new, if no box is come to more often than `lim` says. -/
def Tours (change : ℕ → ℕ → ℕ × ℕ) (r : Road) (cell : ℕ → Bool) (lim : ℕ → Prop) (log as : List ℕ)
    (result : Option (Road × ℕ)) : Prop :=
  ∃ news siz_w, Visits (next r cell) (seenIn log) as news ∧
    result = some (logged change r (arrivals (next r cell) as news ++ log), siz_w) ∧
    ((∀ p, lim ((arrivals (next r cell) as news ++ log).count p)) → siz_w = sizes r news)

theorem sumAll_tours {ι : Type} (call : Road → ι → Option (Road × ℕ)) {refsOf : ι → List ℕ}
    {lim : ℕ → Prop} (hlim : ∀ i j, i ≤ j → lim j → lim i) (hcells : Cells r ptrs cell)
    {roots : List ι} (hmem : ∀ root ∈ roots, ∀ p ∈ refsOf root, p ∈ ptrs)
    (hcall : ∀ root ∈ roots, ∀ log, (∀ q ∈ log, q ∈ ptrs) →
      Tours change r cell lim log (refsOf root) (call (logged change r log) root)) :
    ∀ log, (∀ q ∈ log, q ∈ ptrs) →
      Tours change r cell lim log (roots.flatMap refsOf)
        (sumAll call (logged change r log) roots) := by
  induction roots with
  | nil => exact fun log _ ↦ ⟨[], 0, .done, rfl, fun _ ↦ rfl⟩
  | cons root roots ih =>
    intro log hlog
    obtain ⟨news₁, siz₁, hvisits₁, hcall₁, hsiz₁⟩ := hcall root List.mem_cons_self log hlog
    have hin : ∀ q ∈ arrivals (next r cell) (refsOf root) news₁ ++ log, q ∈ ptrs := by
      intro q hq
      rcases List.mem_append.mp hq with hq | hq
      · exact hcells.arrivals_mem (hmem root List.mem_cons_self) hvisits₁ q hq
      · exact hlog q hq
    obtain ⟨news₂, siz₂, hvisits₂, hcall₂, hsiz₂⟩ :=
      ih (fun root hroot ↦ hmem root (List.mem_cons_of_mem _ hroot))
        (fun root hroot ↦ hcall root (List.mem_cons_of_mem _ hroot)) _ hin
    rw [seenIn_arrivals hvisits₁] at hvisits₂
    have hperm : (arrivals (next r cell) (roots.flatMap refsOf) news₂ ++
        (arrivals (next r cell) (refsOf root) news₁ ++ log)).Perm
        (arrivals (next r cell) ((root :: roots).flatMap refsOf) (news₁ ++ news₂) ++ log) := by
      refine List.perm_append_comm_assoc .. |>.trans ?_
      rw [← List.append_assoc, List.flatMap_cons]
      exact (arrivals_append ..).symm.append_right log
    refine ⟨news₁ ++ news₂, siz₁ + siz₂, ?_, ?_, fun hfine ↦ ?_⟩
    · rw [List.flatMap_cons]
      exact hvisits₁.append hvisits₂
    · simp only [sumAll, hcall₁, hcall₂, Option.bind_eq_bind, Option.bind_some, logged_perm hperm]
    · have hfine₂ : ∀ p, lim ((arrivals (next r cell) (roots.flatMap refsOf) news₂ ++
          (arrivals (next r cell) (refsOf root) news₁ ++ log)).count p) :=
        fun p ↦ hperm.count_eq p ▸ hfine p
      have hfine₁ : ∀ p, lim ((arrivals (next r cell) (refsOf root) news₁ ++ log).count p) := by
        intro p
        exact hlim _ _ ((List.sublist_append_right ..).count_le p) (hfine₂ p)
      rw [hsiz₁ hfine₁, hsiz₂ hfine₂]
      simp [sizes]

theorem unseen_le (ptrs log : List ℕ) : unseen ptrs log ≤ ptrs.length := List.length_filter_le ..

/-- The walks of some nouns, when nothing has been seen. -/
theorem walkAll_tours (hboxes : Boxes mat_p r ptrs) (hcells : Cells r ptrs cell)
    (hstop : stop 0 = true)
    (honce : ∀ p ∈ ptrs, Once change stop (r.loom (p - 2)) (r.loom (p - 2 + 1))) {fuel : ℕ}
    (hfuel : ptrs.length < fuel) {roots : List ℕ} (hroots : ∀ som ∈ roots, IsNoun r ptrs cell som) :
    ∃ news, Visits (next r cell) ∅ (roots.flatMap (refs r)) news ∧
      sumAll (fun r som ↦ walkNoun mat_p change stop fuel r som 0) r roots =
        some (logged change r (arrivals (next r cell) (roots.flatMap (refs r)) news),
        sizes r news) := by
  set call : Road → ℕ → Option (Road × ℕ) := fun r som ↦ walkNoun mat_p change stop fuel r som 0
  have hcall : ∀ som ∈ roots, ∀ log, (∀ q ∈ log, q ∈ ptrs) →
      Tours change r cell (fun _ ↦ True) log (refs r som)
        (call (logged change r log) som) := by
    intro som hsom log hlog
    obtain ⟨news, hvisits, hwalk⟩ :=
      walkNoun_tours hboxes hcells hstop honce fuel 0 (hroots som hsom)
      hlog ((unseen_le ptrs log).trans_lt hfuel)
    exact ⟨news, _, hvisits, hwalk, fun _ ↦ Nat.zero_add _⟩
  obtain ⟨news, siz_w, hvisits, hsum, hsiz⟩ := sumAll_tours call (fun _ _ _ _ ↦ trivial) hcells
    (fun som hsom ↦ (hroots som hsom).refs_mem) hcall [] nofun
  have hseen : seenIn [] = ∅ := by
    ext p
    simp
  rw [hseen] at hvisits
  rw [hsiz fun _ ↦ trivial, logged_nil, List.append_nil] at hsum
  exact ⟨news, hvisits, hsum⟩

theorem next_logged (hboxes : Boxes mat_p r ptrs) (hlog : ∀ q ∈ log, q ∈ ptrs) (hp : p ∈ ptrs) :
    next (logged change r log) cell p = next r cell p := by
  obtain ⟨_, _, hword₂, hword₃⟩ := hboxes.not_mem hp
  have hhed : (logged change r log).loom (p + 1) = r.loom (p + 1) :=
    loom_logged fun hmem ↦ hword₂ (hlog _ hmem)
  have htel : (logged change r log).loom (p + 2) = r.loom (p + 2) :=
    loom_logged fun hmem ↦ hword₃ (hlog _ hmem)
  rw [next, hhed, htel]
  rfl

/-- What is reached from nouns is a heap of nouns by itself. -/
theorem Cells.of_visits (hboxes : Boxes mat_p r ptrs) (hcells : Cells r ptrs cell)
    (hlog : ∀ q ∈ log, q ∈ ptrs) (has : ∀ p ∈ as, p ∈ ptrs)
    (hvisits : Visits (next r cell) ∅ as news) : Cells (logged change r log) news cell := by
  intro p hp hcell
  have hp' : p ∈ ptrs := hcells.arrivals_mem has hvisits p (hvisits.arrived p hp)
  obtain ⟨hhed, htel⟩ := hcells p hp' hcell
  obtain ⟨_, _, hword₂, hword₃⟩ := hboxes.not_mem hp'
  have hnext : ∀ q ∈ next r cell p, q ∈ news := fun q hq ↦
    (hvisits.closed p hp q hq).resolve_left (Set.notMem_empty q)
  rw [next, if_pos hcell] at hnext
  rw [loom_logged fun hmem ↦ hword₂ (hlog _ hmem), loom_logged fun hmem ↦ hword₃ (hlog _ hmem)]
  exact ⟨fun q hq ↦ ⟨hnext q (List.mem_append_left _ hq), (hhed q hq).2⟩,
    fun q hq ↦ ⟨hnext q (List.mem_append_right _ hq), (htel q hq).2⟩⟩

/-- Changing use counts does not change what can be reached. -/
theorem Cells.same_visits {news' : List ℕ} (hboxes : Boxes mat_p r ptrs)
    (hlog : ∀ q ∈ log, q ∈ ptrs) (hsub : ∀ p ∈ news, p ∈ ptrs)
    (hvisits : Visits (next r cell) ∅ as news)
    (hvisits' : Visits (next (logged change r log) cell) ∅ as news') : news'.Perm news := by
  have hroots : ∀ p ∈ as, p ∈ news := fun p hp ↦
    (hvisits.roots p hp).resolve_left (Set.notMem_empty p)
  have hclosed : ∀ p ∈ news, ∀ q ∈ next r cell p, q ∈ news := fun p hp q hq ↦
    (hvisits.closed p hp q hq).resolve_left (Set.notMem_empty q)
  rw [List.perm_ext_iff_of_nodup hvisits'.fresh.1 hvisits.fresh.1]
  intro p
  constructor
  · intro hp
    refine (hvisits'.reached p hp).mem {p | p ∈ news} hroots fun q hq q' hnext ↦ ?_
    rw [next_logged hboxes hlog (hsub q hq)] at hnext
    exact hclosed q hq q' hnext
  · intro hp
    refine ((hvisits.reached p hp).mem {p | p ∈ news ∧ p ∈ news'} (fun q hq ↦ ⟨hroots q hq, ?_⟩)
      fun q hq q' hnext ↦ ⟨hclosed q hq.1 q' hnext, ?_⟩).2
    · exact (hvisits'.roots q hq).resolve_left (Set.notMem_empty q)
    · have hsame : next (logged change r log) cell q = next r cell q :=
        next_logged hboxes hlog (hsub q hq.1)
      rw [← hsame] at hnext
      exact (hvisits'.closed q hq.2 q' hnext).resolve_left (Set.notMem_empty q')

theorem Boxes.subset {some : List ℕ} (hboxes : Boxes mat_p r ptrs) (hsub : ∀ p ∈ some, p ∈ ptrs) :
    Boxes mat_p (logged change r log) some :=
  ⟨hboxes.above, hboxes.below, fun p hp ↦ hboxes.range p (hsub p hp),
    fun p hp q hq ↦ hboxes.apart p (hsub p hp) q (hsub q hq)⟩

end

/-! ### Heaps with use counts -/

/-- The heap of a road with its material at `mat_p`, where the use counts are positive as signed
words.
-/
structure Heap (mat_p : ℕ) (r : Road) (bs : List Box) : Prop extends
    BoxInvariant r (livesOf bs) bs where
  pos : 0 < r.low
  high_le : r.high ≤ 2 ^ 30
  above : r.isNorth = true → r.high ≤ mat_p
  below : r.isNorth = false → mat_p ≤ r.low
  siz : ∀ b ∈ bs, minimum ≤ b.siz
  use : ∀ b ∈ bs, r.loom (b.pos + 1) < 0x80000000

/-- The pointers to the allocations. -/
def ptrsOf (bs : List Box) : List ℕ := (livesOf bs).map Prod.fst

section

variable {mat_p : ℕ} {r : Road} {bs : List Box} {p : ℕ}

theorem mem_ptrsOf : p ∈ ptrsOf bs ↔ ∃ b ∈ bs, (∃ len, b.state = .live len) ∧ p = b.pos + 2 := by
  constructor
  · intro hp
    obtain ⟨⟨q, len⟩, hmem, rfl⟩ := List.mem_map.mp hp
    obtain ⟨xs, b, ys, rfl, hstate, hpos⟩ := exists_live hmem
    exact ⟨b, by simp, ⟨len, hstate⟩, hpos⟩
  · rintro ⟨b, hb, ⟨len, hstate⟩, rfl⟩
    refine List.mem_map.mpr ⟨(b.pos + 2, len), List.mem_filterMap.mpr ⟨b, hb, ?_⟩, rfl⟩
    simp [hstate]

theorem Heap.boxes (hheap : Heap mat_p r bs) : Boxes mat_p r (ptrsOf bs) := by
  refine ⟨hheap.above, hheap.below, fun p hp ↦ ?_, fun p hp q hq ↦ ?_⟩
  · obtain ⟨b, hb, _, rfl⟩ := mem_ptrsOf.mp hp
    have hmem := hheap.tiles.mem hb
    have hpos := hheap.pos
    have hsiz : 6 ≤ b.siz := hheap.siz b hb
    omega
  · obtain ⟨b, hb, _, rfl⟩ := mem_ptrsOf.mp hp
    obtain ⟨c, hc, _, rfl⟩ := mem_ptrsOf.mp hq
    have hb' : 6 ≤ b.siz := hheap.siz b hb
    have hc' : 6 ≤ c.siz := hheap.siz c hc
    rcases hheap.tiles.apart hb hc with rfl | hapart | hapart
    · exact .inl rfl
    · exact .inr (.inl (by omega))
    · exact .inr (.inr (by omega))

/-- The words of the box of an allocation. -/
theorem Heap.words (hheap : Heap mat_p r bs) (hp : p ∈ ptrsOf bs) :
    6 ≤ r.loom (p - 2) ∧ r.loom (p - 2) ≤ 2 ^ 30 ∧ 0 < r.loom (p - 2 + 1) ∧
      r.loom (p - 2 + 1) < 0x80000000 := by
  obtain ⟨b, hb, ⟨len, hstate⟩, rfl⟩ := mem_ptrsOf.mp hp
  rw [Nat.add_sub_cancel]
  have hmem := hheap.tiles.mem hb
  have hhigh := hheap.high_le
  have hsiz : 6 ≤ b.siz := hheap.siz b hb
  rw [(hheap.tagged b hb).1]
  refine ⟨hsiz, by omega, ?_, hheap.use b hb⟩
  rcases hheap.state b hb with ⟨_, _, huse, _⟩ | ⟨hfree, _⟩ | ⟨hcell, _⟩
  · omega
  · simp [hstate] at hfree
  · simp [hstate] at hcell

/-! ### Counting -/

variable {siz_w use_w : ℕ}

theorem changed_count (hpos : 0 < use_w) (hlt : use_w < 0x80000000) (count : ℕ) :
    changed countUse siz_w (count + 1) use_w = 2 ^ 32 - use_w := by
  induction count with
  | zero =>
    rw [changed_succ]
    show (countUse use_w siz_w).1 = _
    rw [countUse, if_neg (by omega), if_neg (by omega)]
  | succ count ih => rw [changed_succ, ih, countUse, if_neg (by omega), if_pos (by omega)]

theorem countUse_once (hsiz : siz_w ≠ 0) (hpos : 0 < use_w) (hlt : use_w < 0x80000000) :
    Once countUse (fun new_w ↦ new_w = 0) siz_w use_w := by
  refine ⟨?_, by simpa using hsiz, fun count ↦ ?_⟩
  · rw [countUse, if_neg (by omega), if_neg (by omega)]
  · rw [changed_count hpos hlt, countUse, if_neg (by omega), if_pos (by omega)]
    rfl

theorem changed_discount (hpos : 0 < use_w) (hlt : use_w < 0x80000000) (count : ℕ) :
    changed discountUse siz_w (count + 1) (2 ^ 32 - use_w) = use_w := by
  induction count with
  | zero =>
    rw [changed_succ]
    show (discountUse (2 ^ 32 - use_w) siz_w).1 = _
    rw [discountUse, if_neg (by omega), if_pos (by omega)]
    show 2 ^ 32 - (2 ^ 32 - use_w) = use_w
    omega
  | succ count ih => rw [changed_succ, ih, discountUse, if_neg (by omega), if_neg (by omega)]

theorem discountUse_once (hsiz : siz_w ≠ 0) (hpos : 0 < use_w) (hlt : use_w < 0x80000000) :
    Once discountUse (fun new_w ↦ new_w = 0) siz_w (2 ^ 32 - use_w) := by
  refine ⟨?_, by simpa using hsiz, fun count ↦ ?_⟩
  · rw [discountUse, if_neg (by omega), if_pos (by omega)]
  · rw [changed_discount hpos hlt, discountUse, if_neg (by omega), if_neg (by omega)]
    rfl

/-- Counting some nouns sums up the sizes of what can be reached, once each, and discounting them
after that gives the road back. -/
theorem count_discount {cell : ℕ → Bool} (hheap : Heap mat_p r bs)
    (hcells : Cells r (ptrsOf bs) cell) {roots : List ℕ}
    (hroots : ∀ som ∈ roots, IsNoun r (ptrsOf bs) cell som) {fuel : ℕ}
    (hfuel : (ptrsOf bs).length < fuel) :
    ∃ r' reached, reached.Nodup ∧
      (∀ p, p ∈ reached ↔ Reached (next r cell) (roots.flatMap (refs r)) p) ∧
      sumAll (countNoun mat_p fuel) r roots = some (r', sizes r reached) ∧
      sumAll (discountNoun mat_p fuel) r' roots = some (r, sizes r reached) := by
  have hboxes := hheap.boxes
  have hstop : (fun new_w ↦ decide (new_w = 0)) 0 = true := rfl
  obtain ⟨reached, hvisits, hcount⟩ := walkAll_tours hboxes hcells hstop
    (fun p hp ↦ by
      obtain ⟨hsiz, _, hpos, hlt⟩ := hheap.words hp
      exact countUse_once (by omega) hpos hlt) hfuel hroots
  have has : ∀ p ∈ roots.flatMap (refs r), p ∈ ptrsOf bs := by
    intro p hp
    obtain ⟨som, hsom, hmem⟩ := List.mem_flatMap.mp hp
    exact (hroots som hsom).refs_mem p hmem
  -- the log of counting, and what is reached
  set log := arrivals (next r cell) (roots.flatMap (refs r)) reached with hlogdef
  have hlog : ∀ q ∈ log, q ∈ ptrsOf bs := hcells.arrivals_mem has hvisits
  have hsub : ∀ q ∈ reached, q ∈ ptrsOf bs := fun q hq ↦ hlog q (hvisits.arrived q hq)
  have hsize : ∀ p ∈ reached, (logged countUse r log).loom (p - 2) = r.loom (p - 2) :=
    fun p hp ↦ hboxes.size_logged hlog (hsub p hp)
  have huse : ∀ p ∈ reached,
      (logged countUse r log).loom (p - 2 + 1) = 2 ^ 32 - r.loom (p - 2 + 1) := by
    intro p hp
    obtain ⟨_, _, hpos, hlt⟩ := hheap.words (hsub p hp)
    obtain ⟨count, hcount⟩ :=
      Nat.exists_eq_succ_of_ne_zero (List.count_pos_iff.mpr (hvisits.arrived p hp)).ne'
    rw [use_logged (hboxes.range p (hsub p hp)).1, hcount, changed_count hpos hlt]
  have hlogged : Boxes mat_p (logged countUse r log) reached := hboxes.subset hsub
  have honce : ∀ p ∈ reached, Once discountUse (fun new_w ↦ decide (new_w = 0))
      ((logged countUse r log).loom (p - 2)) ((logged countUse r log).loom (p - 2 + 1)) := by
    intro p hp
    obtain ⟨hsiz, _, hpos, hlt⟩ := hheap.words (hsub p hp)
    rw [hsize p hp, huse p hp]
    exact discountUse_once (by omega) hpos hlt
  have hnouns : ∀ som ∈ roots, IsNoun (logged countUse r log) reached cell som :=
    fun som hsom p hp ↦
    ⟨(hvisits.roots p (List.mem_flatMap.mpr ⟨som, hsom, hp⟩)).resolve_left (Set.notMem_empty p),
      (hroots som hsom p hp).2⟩
  obtain ⟨reached', hvisits', hdiscount⟩ := walkAll_tours hlogged
    (hcells.of_visits hboxes hlog has hvisits) hstop honce
    ((List.subperm_of_subset hvisits.fresh.1 hsub).length_le.trans_lt hfuel) hnouns
  have hperm : reached'.Perm reached := Cells.same_visits hboxes hlog hsub hvisits hvisits'
  set log' :=
    arrivals (next (logged countUse r log) cell) (roots.flatMap (refs (logged countUse r log)))
    reached' with hlogdef'
  -- both logs are of what is reached
  have hmem : ∀ p, p ∈ log → p ∈ reached := fun p hp ↦
    (hvisits.of_arrived p hp).resolve_left (Set.notMem_empty p)
  have hmem' : ∀ p, p ∈ log' → p ∈ reached := fun p hp ↦
    hperm.mem_iff.mp ((hvisits'.of_arrived p hp).resolve_left (Set.notMem_empty p))
  have hback : logged discountUse (logged countUse r log) log' = r := by
    show Road.mk .. = Road.mk ..
    congr 1
    funext w
    by_cases hw : w + 1 ∈ reached
    · obtain ⟨_, _, hpos, hlt⟩ := hheap.words (hsub _ hw)
      have hlow := (hboxes.range _ (hsub _ hw)).1
      have hword : w + 1 - 2 + 1 = w := by omega
      obtain ⟨count, hcount⟩ := Nat.exists_eq_succ_of_ne_zero
        (List.count_pos_iff.mpr (hvisits'.arrived _ (hperm.mem_iff.mpr hw))).ne'
      have huse' := huse _ hw
      rw [hword] at huse' hpos hlt
      rw [hcount, huse', changed_discount hpos hlt]
    · rw [List.count_eq_zero_of_not_mem fun h ↦ hw (hmem' _ h)]
      exact loom_logged fun h ↦ hw (hmem _ h)
  have hsizes : sizes (logged countUse r log) reached' = sizes r reached := by
    unfold sizes
    rw [(hperm.map _).sum_nat, List.map_congr_left hsize]
  refine ⟨_, reached, hvisits.fresh.1, fun p ↦ hvisits.mem_iff, hcount, ?_⟩
  rw [hback, hsizes] at hdiscount
  exact hdiscount

/-- A road with a cell, whose head and tail are the same atom. -/
def pairRoad : Road :=
  { emptyRoad with
    hat_p := 13
    loom := fun w ↦ [0, 6, 1, 0, 0x80000009, 0x80000009, 6, 6, 2, 0, 1, 5, 6].getD w 0 }

theorem pairRoad_heap : Heap 64 pairRoad [⟨1, 6, .live 3⟩, ⟨7, 6, .live 3⟩] := by
  refine ⟨⟨?_, by decide, by simp [Box.Tagged, pairRoad], ?_, fun sel _ ↦
    ⟨[], ?_⟩, ⟨[], ?_⟩, .refl _, ?_⟩,
    by decide, by decide, by decide, by decide, by decide, by decide⟩
  · exact ⟨rfl, rfl, rfl⟩
  · simp [pairRoad]
  · exact ⟨.refl _, .nil, rfl⟩
  · exact ⟨.refl _, .nil, rfl⟩
  · simp [livesOf]

theorem count_discount_pair :
    ∃ r' reached, reached.Nodup ∧
      (∀ p, p ∈ reached ↔
        Reached (next pairRoad fun p ↦ p = 3) ([0xc0000003].flatMap (refs pairRoad)) p) ∧
      sumAll (countNoun 64 3) pairRoad [0xc0000003] = some (r', sizes pairRoad reached) ∧
      sumAll (discountNoun 64 3) r' [0xc0000003] = some (pairRoad, sizes pairRoad reached) :=
  count_discount pairRoad_heap (by decide) (by decide) (by decide)

end

end Vere.Noun.Mark
