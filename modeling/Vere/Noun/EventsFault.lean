import Vere.Noun.Events
import Mathlib.Tactic

/-!
# Faults and the guard page

`u3e_fault()` of `pkg/noun/events.c`. A store to a page that is read-only makes the page writable
and marks it dirty. One page between the heap and the stack of the road cannot be accessed: when it
is hit, it moves to the middle of what is then free.

`Guarded` is what the handler relies on, and keeps.
-/

set_option autoImplicit false

namespace Vere.Noun.Events

/-! ### Roads -/

/-- `c3_rod()`: round down to a multiple. -/
def c3Rod (x n : ℕ) : ℕ := x / n * n

/-- `c3_rop()`: round up to a multiple. -/
def c3Rop (x n : ℕ) : ℕ := (x + (n - 1)) / n * n

/-- `u3_road`: the bounds of its heap and of its stack. -/
structure Road where
  rut_p : ℕ
  hat_p : ℕ
  mat_p : ℕ
  cap_p : ℕ

/-- `u3a_is_north()`. -/
def Road.isNorth (rod_u : Road) : Bool := decide (rod_u.hat_p < rod_u.cap_p)

/-- The bounds of the free space. -/
def Road.free (rod_u : Road) : ℕ × ℕ :=
  if rod_u.isNorth then (rod_u.hat_p, rod_u.cap_p) else (rod_u.cap_p, rod_u.hat_p)

/-! ### The guard page -/

/-- `_ce_center_guard_page()`, of a road. It bails when the page cannot move. -/
def Pool.center (pol_u : Pool) (rod_u : Road) : Option Pool :=
  let top_p := c3Rod rod_u.free.2 pagWiz
  let bot_p := c3Rop rod_u.free.1 pagWiz
  let gar_w := (bot_p + c3Rod ((top_p - bot_p) / 2) pagWiz) / pagWiz
  if top_p < bot_p + pagWiz then none
  else if gar_w = pol_u.gar_w then none
  else some { pol_u with gar_w := gar_w, prot := Function.update pol_u.prot gar_w .none }

/-- `u3e_init()`: initialize guard page tracking. -/
def u3eInit (pol_u : Pool) (rod_u : Road) : Option Pool := pol_u.center rod_u

/-- `u3e_ward()`: reposition guard page if needed. -/
def u3eWard (pol_u : Pool) (rod_u : Road) (low_p hig_p : ℕ) : Option Pool :=
  if pol_u.gar_w * pagWiz < low_p ∨ hig_p < pol_u.gar_w * pagWiz then pol_u.center rod_u
  else some pol_u

/-- `u3e_yolo()`: disable dirty page tracking, read/write whole loom. -/
def u3eYolo (pol_u : Pool) : Pool :=
  { pol_u with prot := Function.update (fun _ ↦ .readWrite) pol_u.gar_w .none }

/-! ### Faults -/

/-- How a call fails: with `%meme`, with the assertion of `u3e_fault()`, or with another assertion.
-/
inductive FaultError
  | meme
  | strange
  | assert

/-- The page is dirty, and can be written. -/
def Pool.touch (pol_u : Pool) (pag_w : ℕ) : Pool :=
  { pol_u with
    dit_w := Function.update pol_u.dit_w pag_w true
    prot := Function.update pol_u.prot pag_w .readWrite }

/-- `u3e_fault()`: handle a memory event, in a page of the loom. -/
def u3eFault (pol_u : Pool) (rod_u : Road) (pag_w : ℕ) : Except FaultError Pool :=
  if pag_w = pol_u.gar_w then
    match pol_u.center rod_u with
    | none => .error .meme
    | some pol_u => .ok (pol_u.touch pag_w)
  else if pol_u.dit_w pag_w then .error .strange
  else .ok (pol_u.touch pag_w)

/-- A load from a page. -/
def Pool.load (pol_u : Pool) (rod_u : Road) (pag_w : ℕ) : Except FaultError Pool :=
  if pol_u.prot pag_w = .none then u3eFault pol_u rod_u pag_w else .ok pol_u

/-- The fault of a store to a page, if any. -/
def Pool.prepare (pol_u : Pool) (rod_u : Road) (pag_w : ℕ) : Except FaultError Pool :=
  if pol_u.prot pag_w = .readWrite then .ok pol_u else u3eFault pol_u rod_u pag_w

/-- A store to a page, which becomes `page`. -/
def Pool.store (pol_u : Pool) (rod_u : Road) (pag_w : ℕ) (page : Page) :
    Except FaultError Pool := do
  let pol_u ← pol_u.prepare rod_u pag_w
  .ok { pol_u with mem := Function.update pol_u.mem pag_w page }

/-! ### What the handler does -/

variable {pol_u next : Pool} {rod_u : Road} {pag_w : ℕ}

theorem Pool.center_eq (hcenter : pol_u.center rod_u = some next) :
    next.gar_w ≠ pol_u.gar_w ∧
      next = { pol_u with
        gar_w := next.gar_w
        prot := Function.update pol_u.prot next.gar_w .none } := by
  simp only [Pool.center] at hcenter
  split_ifs at hcenter with hshort hsame
  obtain rfl := Option.some.inj hcenter
  exact ⟨hsame, rfl⟩

/-- `u3e_fault()` makes the page writable, and may have moved the guard page away from it. -/
theorem u3eFault_cases (hfault : u3eFault pol_u rod_u pag_w = .ok next) :
    (pag_w = pol_u.gar_w ∧ ∃ mid_u, pol_u.center rod_u = some mid_u ∧ next = mid_u.touch pag_w) ∨
      (pag_w ≠ pol_u.gar_w ∧ pol_u.dit_w pag_w = false ∧ next = pol_u.touch pag_w) := by
  unfold u3eFault at hfault
  split_ifs at hfault with hguard hdirty
  · cases hcenter : pol_u.center rod_u with
    | none =>
      rw [hcenter] at hfault
      cases hfault
    | some mid_u =>
      rw [hcenter] at hfault
      exact .inl ⟨hguard, mid_u, rfl, (Except.ok.inj hfault).symm⟩
  · exact .inr ⟨hguard, by simpa using hdirty, (Except.ok.inj hfault).symm⟩

theorem u3eFault_frame (hfault : u3eFault pol_u rod_u pag_w = .ok next) :
    next.pag_w = pol_u.pag_w ∧ next.mem = pol_u.mem ∧ next.pgs_w = pol_u.pgs_w ∧
      next.dit_w = Function.update pol_u.dit_w pag_w true ∧
      ∀ pag ≠ pag_w, next.prot pag = pol_u.prot pag ∨ next.prot pag = .none := by
  rcases u3eFault_cases hfault with ⟨_, mid_u, hcenter, rfl⟩ | ⟨_, _, rfl⟩
  · rw [(Pool.center_eq hcenter).2]
    refine ⟨rfl, rfl, rfl, rfl, fun pag hpag ↦ ?_⟩
    by_cases hnew : pag = mid_u.gar_w
    · exact .inr (by simp [Pool.touch, hnew, hnew ▸ hpag])
    · exact .inl (by simp [Pool.touch, hpag, hnew])
  · exact ⟨rfl, rfl, rfl, rfl, fun pag hpag ↦ .inl (Function.update_of_ne hpag ..)⟩

/-! ### Protection -/

/-- Every page that is not writable is the guard page or clean, and only the guard page is
inaccessible. -/
structure Guarded (pol_u : Pool) : Prop where
  clean : ∀ pag_w, pol_u.prot pag_w ≠ .readWrite → pag_w = pol_u.gar_w ∨ pol_u.dit_w pag_w = false
  guard : ∀ pag_w, pol_u.prot pag_w = .none → pag_w = pol_u.gar_w

/-- The handler keeps `Guarded`. -/
theorem Guarded.fault (hguarded : Guarded pol_u) (hfault : u3eFault pol_u rod_u pag_w = .ok next) :
    Guarded next := by
  rcases u3eFault_cases hfault with ⟨rfl, mid_u, hcenter, rfl⟩ | ⟨hother, _, rfl⟩
  · -- the old guard page can be written now, and the new one is the only page without access
    obtain ⟨hmoved, hmid⟩ := Pool.center_eq hcenter
    have hdit : mid_u.dit_w = pol_u.dit_w := by rw [hmid]
    have hprot : mid_u.prot = Function.update pol_u.prot mid_u.gar_w .none := by rw [hmid]
    refine ⟨fun pag hpag ↦ ?_, fun pag hpag ↦ ?_⟩
    · by_cases hold : pag = pol_u.gar_w
      · simp [Pool.touch, hold] at hpag
      · by_cases hnew : pag = mid_u.gar_w
        · exact .inl hnew
        · simp only [Pool.touch, hprot, hdit, Function.update_of_ne hold,
            Function.update_of_ne hnew] at hpag ⊢
          exact .inr ((hguarded.clean pag hpag).resolve_left hold)
    · by_cases hold : pag = pol_u.gar_w
      · simp [Pool.touch, hold] at hpag
      · by_contra hnew
        have hnew : pag ≠ mid_u.gar_w := hnew
        simp only [Pool.touch, hprot, Function.update_of_ne hold,
          Function.update_of_ne hnew] at hpag
        exact hold (hguarded.guard pag hpag)
  · refine ⟨fun pag hpag ↦ ?_, fun pag hpag ↦ ?_⟩
    · by_cases hpage : pag = pag_w
      · simp [Pool.touch, hpage] at hpag
      · simp only [Pool.touch, Function.update_of_ne hpage] at hpag ⊢
        exact hguarded.clean pag hpag
    · by_cases hpage : pag = pag_w
      · simp [Pool.touch, hpage] at hpag
      · simp only [Pool.touch, Function.update_of_ne hpage] at hpag
        exact hguarded.guard pag hpag

/-- The assertion of the handler does not fail. -/
theorem Guarded.not_strange (hguarded : Guarded pol_u) (hprot : pol_u.prot pag_w ≠ .readWrite) :
    u3eFault pol_u rod_u pag_w ≠ .error .strange := by
  unfold u3eFault
  split_ifs with hguard hdirty
  · cases pol_u.center rod_u with
    | none => exact fun hmeme ↦ by cases hmeme
    | some mid_u => exact fun hok ↦ by cases hok
  · rcases hguarded.clean pag_w hprot with heq | hclean
    · exact absurd heq hguard
    · rw [hclean] at hdirty
      cases hdirty
  · exact fun hok ↦ by cases hok

end Vere.Noun.Events
