import Mathlib.Data.List.Basic

/-!
# Crashes

A program that changes a store does so by a list of operations. `crash run part ops i k s` is the
store when the program stops in operation `i`, of which `part` says what `k` bytes of it have done.
-/

set_option autoImplicit false

namespace Vere.Lib.Crash

variable {σ Op : Type*} (run : Op → σ → σ) (part : Op → ℕ → σ → σ)

/-- The store after all operations. -/
def exec : List Op → σ → σ
  | [], s => s
  | op :: ops, s => exec ops (run op s)

/-- The store after `i` operations and `k` bytes of the next one. -/
def crash : List Op → ℕ → ℕ → σ → σ
  | [], _, _, s => s
  | op :: _, 0, k, s => part op k s
  | op :: ops, i + 1, k, s => crash ops i k (run op s)

variable {run part}

@[simp]
theorem exec_nil (s : σ) : exec run [] s = s := rfl

@[simp]
theorem exec_cons (op : Op) (ops : List Op) (s : σ) :
    exec run (op :: ops) s = exec run ops (run op s) := rfl

theorem exec_append (ops more : List Op) (s : σ) :
    exec run (ops ++ more) s = exec run more (exec run ops s) := by
  induction ops generalizing s with
  | nil => rfl
  | cons op ops ih => exact ih (run op s)

/-- A crash is in the first operations, or after all of them. -/
theorem crash_append_left (ops more : List Op) {i : ℕ} (k : ℕ) (s : σ) (hleft : i < ops.length) :
    crash run part (ops ++ more) i k s = crash run part ops i k s := by
  induction ops generalizing i s with
  | nil => simp at hleft
  | cons op ops ih =>
    cases i with
    | zero => rfl
    | succ i => exact ih (run op s) (Nat.lt_of_succ_lt_succ hleft)

theorem crash_append_right (ops more : List Op) (i k : ℕ) (s : σ) :
    crash run part (ops ++ more) (ops.length + i) k s =
      crash run part more i k (exec run ops s) := by
  induction ops generalizing s with
  | nil => simp
  | cons op ops ih =>
    rw [List.length_cons, Nat.add_right_comm]
    exact ih (run op s)

theorem crash_of_getElem? {ops : List Op} {i : ℕ} {op : Op} (hop : ops[i]? = some op) (k : ℕ)
    (s : σ) :
    crash run part ops i k s = part op k (exec run (ops.take i) s) := by
  induction ops generalizing i s with
  | nil => simp at hop
  | cons next ops ih =>
    cases i with
    | zero =>
      obtain rfl : next = op := by simpa using hop
      rfl
    | succ i => exact ih (by simpa using hop) (run next s)

/-- What every operation keeps holds after all of them. -/
theorem exec_invariant {P : σ → Prop} {ops : List Op} {s : σ} (hstart : P s)
    (hrun : ∀ op ∈ ops, ∀ s, P s → P (run op s)) : P (exec run ops s) := by
  induction ops generalizing s with
  | nil => exact hstart
  | cons op ops ih =>
    exact ih (hrun op List.mem_cons_self s hstart)
      fun next hnext ↦ hrun next (List.mem_cons_of_mem op hnext)

/-- What every operation keeps, and every part of one, holds after a crash. -/
theorem crash_invariant {P : σ → Prop} {ops : List Op} {i k : ℕ} {s : σ} (hstart : P s)
    (hrun : ∀ op ∈ ops, ∀ s, P s → P (run op s))
    (hpart : ∀ op, ops[i]? = some op → ∀ s, P s → P (part op k s)) :
    P (crash run part ops i k s) := by
  induction ops generalizing i s with
  | nil => exact hstart
  | cons op ops ih =>
    cases i with
    | zero => exact hpart op rfl s hstart
    | succ i =>
      refine ih (hrun op List.mem_cons_self s hstart)
        (fun next hnext ↦ hrun next (List.mem_cons_of_mem op hnext)) fun next hnext ↦ hpart next ?_
      rwa [List.getElem?_cons_succ]

end Vere.Lib.Crash
