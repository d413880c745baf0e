import Mathlib.Data.List.Infix

/-!
# Calls that can fail

What a call in `Except` has done when it succeeds: each of its parts has succeeded (`bind_eq_ok`). A
run is a list of operations, and `Every` step of it may meet a condition. When an invariant holds as
long as the steps meet the condition, and a good state shows that the step before has met it, then
all states of a run are good if and only if all steps meet the condition: `run_good_iff` when steps
that meet it succeed, and `run_partial_iff` when they may fail. `run_keeps` is the invariant rule of
such runs.
-/

set_option autoImplicit false

namespace Vere.Lib.Results

universe u

variable {ε : Type*}

theorem bind_eq_ok {α β : Type u} {x : Except ε α} {next : α → Except ε β} {res : β}
    (hbind : x >>= next = .ok res) : ∃ mid, x = .ok mid ∧ next mid = .ok res := by
  cases x with
  | error fault => cases hbind
  | ok mid => exact ⟨mid, rfl, hbind⟩

variable {σ Op : Type*} {step : σ → Op → Except ε σ} {s s' : σ} {op : Op} {ops : List Op}

/-- Every step of a run meets a condition on the state before it. -/
def Every (step : σ → Op → Except ε σ) (good : σ → Op → Prop) : σ → List Op → Prop
  | _, [] => True
  | s, op :: ops => good s op ∧ ∀ s', step s op = .ok s' → Every step good s' ops

theorem run_cons (hstep : step s op = .ok s') (ops : List Op) :
    (op :: ops).foldlM step s = ops.foldlM step s' := by
  rw [List.foldlM_cons, hstep]
  rfl

section Good

variable {Inv Good : σ → Prop} {legal good : σ → Op → Prop}

/-- What a start has and the steps of a run keep. -/
theorem run_keeps (hkeep : ∀ s op s', Inv s → good s op → step s op = .ok s' → Inv s')
    (hstart : Inv s) (hevery : Every step good s ops) {front : List Op} (hinitial : front <+: ops)
    (hrun : front.foldlM step s = .ok s') : Inv s' := by
  induction ops generalizing s front with
  | nil =>
    obtain rfl := List.prefix_nil.mp hinitial
    obtain rfl := Except.ok.inj hrun
    exact hstart
  | cons op ops ih =>
    cases front with
    | nil =>
      obtain rfl := Except.ok.inj hrun
      exact hstart
    | cons first front =>
      obtain ⟨rfl, hrestPrefix⟩ := List.cons_prefix_cons.mp hinitial
      obtain ⟨mid, hstep, hrun⟩ := bind_eq_ok (List.foldlM_cons.symm.trans hrun)
      exact ih (hkeep s first mid hstart hevery.1 hstep) (hevery.2 mid hstep) hrestPrefix hrun

/-- Steps that meet the condition succeed. -/
theorem run_good_iff (hgood : ∀ s, Inv s → Good s)
    (hkeep : ∀ s op, Inv s → legal s op → good s op → ∃ s', step s op = .ok s' ∧ Inv s')
    (hshows : ∀ s op s', Inv s → legal s op → step s op = .ok s' → Good s' → good s op)
    (hstart : Inv s) (hlegal : Every step legal s ops) :
    (∀ front, front <+: ops → ∃ mid, front.foldlM step s = .ok mid ∧ Good mid) ↔
      Every step good s ops := by
  induction ops generalizing s with
  | nil =>
    refine iff_of_true (fun front hinitial ↦ ?_) trivial
    obtain rfl := List.prefix_nil.mp hinitial
    exact ⟨s, rfl, hgood s hstart⟩
  | cons op ops ih =>
    obtain ⟨hlegalOp, hlegalRest⟩ := hlegal
    constructor
    · intro hall
      obtain ⟨last, hrun, hlast⟩ := hall [op] (List.prefix_append [op] ops)
      obtain ⟨mid, hstep, hmid⟩ := bind_eq_ok (List.foldlM_cons.symm.trans hrun)
      obtain rfl := Except.ok.inj hmid
      have hmeets := hshows s op mid hstart hlegalOp hstep hlast
      refine ⟨hmeets, fun s' hstep' ↦ ?_⟩
      obtain ⟨s'', hstep'', hinv⟩ := hkeep s op hstart hlegalOp hmeets
      obtain rfl := Except.ok.inj (hstep''.symm.trans hstep')
      refine (ih hinv (hlegalRest s'' hstep'')).mp fun front hinitial ↦ ?_
      obtain ⟨mid, hrun, hmid⟩ := hall (op :: front) (List.cons_prefix_cons.mpr ⟨rfl, hinitial⟩)
      exact ⟨mid, (run_cons hstep'' front).symm.trans hrun, hmid⟩
    · rintro ⟨hmeets, hrest⟩ front hinitial
      cases front with
      | nil => exact ⟨s, rfl, hgood s hstart⟩
      | cons first front =>
        obtain ⟨rfl, hrestPrefix⟩ := List.cons_prefix_cons.mp hinitial
        obtain ⟨s', hstep, hinv⟩ := hkeep s first hstart hlegalOp hmeets
        obtain ⟨mid, hrun, hmid⟩ :=
          (ih hinv (hlegalRest s' hstep)).mpr (hrest s' hstep) front hrestPrefix
        exact ⟨mid, (run_cons hstep front).trans hrun, hmid⟩

/-- Steps may fail. -/
theorem run_partial_iff (hgood : ∀ s, Inv s → Good s)
    (hkeep : ∀ s op s', Inv s → good s op → step s op = .ok s' → Inv s')
    (hshows : ∀ s op, Inv s → (∀ s', step s op = .ok s' → Good s') → good s op) (hstart : Inv s) :
    (∀ front mid, front <+: ops → front.foldlM step s = .ok mid → Good mid) ↔
      Every step good s ops := by
  refine ⟨fun hall ↦ ?_, fun hevery front mid hinitial hrun ↦
    hgood mid (run_keeps hkeep hstart hevery hinitial hrun)⟩
  induction ops generalizing s with
  | nil => trivial
  | cons op ops ih =>
    have hmeets : good s op := hshows s op hstart fun s' hstep ↦
      hall [op] s' (List.prefix_append [op] ops) (run_cons hstep [])
    refine ⟨hmeets, fun s' hstep ↦ ?_⟩
    refine ih (hkeep s op s' hstart hmeets hstep) fun front mid hinitial hrun ↦ ?_
    exact hall (op :: front) mid (List.cons_prefix_cons.mpr ⟨rfl, hinitial⟩)
      ((run_cons hstep front).trans hrun)

end Good

end Vere.Lib.Results
