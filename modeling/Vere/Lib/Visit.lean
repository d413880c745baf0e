import Mathlib.Data.Set.Insert
import Mathlib.Logic.Relation
import Mathlib.Tactic.Tauto

/-!
# Depth-first visits

A search of a graph that is cut off at what has been seen (`Visits`), by its list of what is left to
do. What it finds new is what can be reached, when nothing had been seen before (`Visits.mem_iff`),
and it arrives at a vertex once for each edge into it from what is new, and for each time that it is
on the list (`arrivals`).
-/

set_option autoImplicit false

namespace Vere.Lib.Visit

variable {α : Type*} {next : α → List α} {seen seen' : Set α} {as bs news news' : List α} {a b : α}

/-- What has been seen is passed by. What is new is followed by what it leads to, before the rest.
-/
inductive Visits (next : α → List α) : Set α → List α → List α → Prop
  | done {seen : Set α} : Visits next seen [] []
  | pass {seen : Set α} {a : α} {as news : List α} (hseen : a ∈ seen)
  (hrest : Visits next seen as news) :
      Visits next seen (a :: as) news
  | enter {seen : Set α} {a : α} {as news : List α} (hnew : a ∉ seen)
      (hrest : Visits next (insert a seen) (next a ++ as) news) : Visits next seen (a :: as)
        (a :: news)

/-- What can be reached from a list. -/
def Reached (next : α → List α) (as : List α) (b : α) : Prop :=
  ∃ a ∈ as, Relation.ReflTransGen (fun a b ↦ b ∈ next a) a b

/-- What the search arrives at, again and again. -/
def arrivals (next : α → List α) (as news : List α) : List α := as ++ news.flatMap next

theorem Visits.append (has : Visits next seen as news)
    (hbs : Visits next (seen ∪ {a | a ∈ news}) bs news') :
    Visits next seen (as ++ bs) (news ++ news') := by
  induction has with
  | done => simpa using hbs
  | pass hseen _ ih => exact .pass hseen (ih hbs)
  | @enter seen a as news hnew _ ih =>
    refine .enter hnew ?_
    show Visits next (insert a seen) (next a ++ (as ++ bs)) (news ++ news')
    rw [← List.append_assoc]
    refine ih ?_
    have hset : insert a seen ∪ {b | b ∈ news} = seen ∪ {b | b ∈ a :: news} := by
      ext b
      simp only [Set.mem_union, Set.mem_insert_iff, Set.mem_ofPred_eq, List.mem_cons]
      tauto
    rwa [hset]

theorem Visits.roots (hvisits : Visits next seen as news) : ∀ a ∈ as, a ∈ seen ∨ a ∈ news := by
  induction hvisits with
  | done => exact nofun
  | pass hseen _ ih =>
    intro b hb
    rcases List.mem_cons.mp hb with rfl | hb
    · exact .inl hseen
    · exact ih b hb
  | enter hnew _ ih =>
    intro b hb
    rcases List.mem_cons.mp hb with rfl | hb
    · exact .inr List.mem_cons_self
    · rcases ih b (List.mem_append_right _ hb) with hseen | hmem
      · rcases hseen with rfl | hseen
        · exact .inr List.mem_cons_self
        · exact .inl hseen
      · exact .inr (List.mem_cons_of_mem _ hmem)

/-- What is new leads to what was seen or is new. -/
theorem Visits.closed (hvisits : Visits next seen as news) : ∀ a ∈ news, ∀ b ∈ next a, b ∈ seen ∨
    b ∈ news := by
  induction hvisits with
  | done => exact nofun
  | pass _ _ ih => exact ih
  | @enter seen a as news hnew hrest ih =>
    have hlift : ∀ b, b ∈ insert a seen ∨ b ∈ news → b ∈ seen ∨ b ∈ a :: news := by
      rintro b ((rfl | hseen) | hmem)
      · exact .inr List.mem_cons_self
      · exact .inl hseen
      · exact .inr (List.mem_cons_of_mem _ hmem)
    intro c hc b hb
    rcases List.mem_cons.mp hc with rfl | hc
    · exact hlift b (hrest.roots b (List.mem_append_left _ hb))
    · exact hlift b (ih c hc b hb)

theorem Visits.fresh (hvisits : Visits next seen as news) : news.Nodup ∧ ∀ a ∈ news, a ∉ seen := by
  induction hvisits with
  | done => exact ⟨.nil, nofun⟩
  | pass _ _ ih => exact ih
  | enter hnew _ ih =>
    obtain ⟨hnodup, hfresh⟩ := ih
    refine ⟨List.nodup_cons.mpr ⟨fun hmem ↦ hfresh _ hmem (Set.mem_insert _ _), hnodup⟩,
      fun b hb ↦ ?_⟩
    rcases List.mem_cons.mp hb with rfl | hb
    · exact hnew
    · exact fun hseen ↦ hfresh b hb (Set.mem_insert_of_mem _ hseen)

theorem Reached.of_next (hreached : Reached next (next a ++ as) b) : Reached next (a :: as) b := by
  obtain ⟨c, hc, hpath⟩ := hreached
  rcases List.mem_append.mp hc with hc | hc
  · exact ⟨a, List.mem_cons_self, hpath.head hc⟩
  · exact ⟨c, List.mem_cons_of_mem _ hc, hpath⟩

theorem Visits.reached (hvisits : Visits next seen as news) : ∀ b ∈ news, Reached next as b := by
  induction hvisits with
  | done => exact nofun
  | pass _ _ ih =>
    intro b hb
    obtain ⟨c, hc, hpath⟩ := ih b hb
    exact ⟨c, List.mem_cons_of_mem _ hc, hpath⟩
  | enter _ _ ih =>
    intro b hb
    rcases List.mem_cons.mp hb with rfl | hb
    · exact ⟨b, List.mem_cons_self, .refl⟩
    · exact (ih b hb).of_next

/-- A closed set that has the list has all that can be reached. -/
theorem Reached.mem (goal : Set α) (hroots : ∀ a ∈ as, a ∈ goal)
    (hclosed : ∀ a ∈ goal, ∀ b ∈ next a, b ∈ goal)
    (hreached : Reached next as b) : b ∈ goal := by
  obtain ⟨a, ha, hpath⟩ := hreached
  induction hpath with
  | refl => exact hroots a ha
  | tail _ hstep ih => exact hclosed _ ih _ hstep

/-- From nothing seen, a search finds what can be reached. -/
theorem Visits.mem_iff (hvisits : Visits next ∅ as news) : b ∈ news ↔ Reached next as b := by
  refine ⟨hvisits.reached b, fun hreached ↦ ?_⟩
  refine hreached.mem {a | a ∈ news} (fun a ha ↦ ?_) (fun a ha c hc ↦ ?_)
  · exact (hvisits.roots a ha).resolve_left (Set.notMem_empty a)
  · exact (hvisits.closed a ha c hc).resolve_left (Set.notMem_empty c)

theorem arrivals_append (next : α → List α) (as bs news news' : List α) :
    (arrivals next (as ++ bs) (news ++ news')).Perm
      (arrivals next as news ++ arrivals next bs news') := by
  unfold arrivals
  rw [List.flatMap_append, List.append_assoc, List.append_assoc]
  refine List.Perm.append_left as ?_
  rw [← List.append_assoc, ← List.append_assoc]
  exact List.perm_append_comm.append_right _

theorem arrivals_cons (next : α → List α) (a : α) (as news : List α) :
    (arrivals next (a :: as) (a :: news)).Perm (a :: arrivals next (next a ++ as) news) := by
  unfold arrivals
  rw [List.flatMap_cons, List.cons_append, ← List.append_assoc]
  exact (List.perm_append_comm.append_right _).cons a

/-- What is new was arrived at. -/
theorem Visits.arrived (hvisits : Visits next seen as news) :
    ∀ a ∈ news, a ∈ arrivals next as news := by
  induction hvisits with
  | done => exact nofun
  | pass _ _ ih => exact fun b hb ↦ List.mem_cons_of_mem _ (ih b hb)
  | enter _ _ ih =>
    intro b hb
    rw [(arrivals_cons next ..).mem_iff, List.mem_cons]
    rcases List.mem_cons.mp hb with rfl | hb
    · exact .inl rfl
    · exact .inr (ih b hb)

/-- What is arrived at was seen or is new. -/
theorem Visits.of_arrived (hvisits : Visits next seen as news) :
    ∀ a ∈ arrivals next as news, a ∈ seen ∨ a ∈ news := by
  intro b hb
  rcases List.mem_append.mp hb with hb | hb
  · exact hvisits.roots b hb
  · obtain ⟨a, ha, hnext⟩ := List.mem_flatMap.mp hb
    exact hvisits.closed a ha b hnext

end Vere.Lib.Visit
