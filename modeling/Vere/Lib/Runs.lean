import Mathlib.Data.Option.Basic

/-!
# Runs

The states that a partial step function reaches, by steps that meet a condition. What the start has
and every such step keeps, every state of such a run has (`Reach.invariant`).
-/

set_option autoImplicit false

namespace Vere.Lib.Runs

variable {σ Op : Type*}

/-- The states that `start` can reach by `good` steps. -/
inductive Reach (step : σ → Op → Option σ) (good : σ → Op → Prop) (start : σ) : σ → Prop
  | refl : Reach step good start start
  | step {s next : σ} (op : Op) (hbefore : Reach step good start s) (hgood : good s op)
      (hstep : step s op = some next) : Reach step good start next

theorem Reach.invariant {step : σ → Op → Option σ} {good : σ → Op → Prop} {start s : σ}
    (hreach : Reach step good start s) {P : σ → Prop} (hstart : P start)
    (hkeep : ∀ s op next, P s → good s op → step s op = some next → P next) : P s := by
  induction hreach with
  | refl => exact hstart
  | step op _ hgood hstep ih => exact hkeep _ op _ ih hgood hstep

end Vere.Lib.Runs
