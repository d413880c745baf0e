import Vere.Lib.Fuel
import Vere.Noun.OrderMet

/-!
# Calls that compare nouns

A function that asks `u3qc_gor()` and `u3qc_mor()` about nouns bails where one of them does, which
is where two of the nouns collide. `Agrees` compares such a run with a function that has the orders
of `Order` at hand: the run gives the same result, or it bails and the reason is met. What is known
of the result is carried along, so that the nouns that are compared next are again among those that
may collide.
-/

set_option autoImplicit false

namespace Vere.Noun

open Lib.Fuel

/-- How a call ends without a result. -/
inductive Failed
  /-- `u3m_bail()`. -/
  | bail
  /-- A failed assertion, or an access out of bounds. -/
  | fault
  /-- The model counts the calls, and none is left. -/
  | steps

/-- A part of a call that may bail. -/
def orBail {α : Type} : Option α → Except Failed α
  | some a => .ok a
  | none => .error .bail

@[simp] theorem orBail_some {α : Type} (a : α) : orBail (some a) = .ok a := rfl

@[simp] theorem ok_bind {α β : Type} (a : α) (next : α → Except Failed β) :
    (Except.ok a >>= next) = next a := rfl

/-- A part of a call that may fail an assertion or read out of bounds. -/
def orFault {α : Type} : Option α → Except Failed α
  | some a => .ok a
  | none => .error .fault

/-! ### Collisions -/

section Collisions

variable (mug : Noun → ℕ)

/-- Two nouns on which `u3qc_gor()` or `u3qc_mor()` bails. -/
def Collide (a b : Noun) : Prop := (mug a = mug b ∨ mug (.atom (mug a)) = mug (.atom (mug b))) ∧
    Clash a b

/-- Two nouns of a set collide. -/
def Colliding (keys : Set Noun) : Prop := ∃ a ∈ keys, ∃ b ∈ keys, Collide mug a b

variable {mug}

theorem Colliding.mono {keys keys' : Set Noun} (hcolliding : Colliding mug keys)
    (hsub : ∀ k ∈ keys, k ∈ keys') :
    Colliding mug keys' := by
  obtain ⟨a, ha, b, hb, hcollide⟩ := hcolliding
  exact ⟨a, hsub a ha, b, hsub b hb, hcollide⟩

/-- A comparison by a number and then by `dor` bails on a clash of nouns with the same number. -/
theorem thenDor_eq (f : Noun → ℕ) (a b : Noun) :
    ((f a = f b ∧ Clash a b) ∧ (if f a = f b then
      qcDor a b else some (decide (f a < f b))) = none) ∨
      (if f a = f b then qcDor a b else some (decide (f a < f b))) =
        some (if f a = f b then dor a b else decide (f a < f b)) := by
  by_cases heq : f a = f b
  · rw [if_pos heq, if_pos heq]
    exact (qcDor_eq a b).imp (.imp_left fun hclash ↦ ⟨heq, hclash⟩) And.right
  · rw [if_neg heq, if_neg heq]
    exact .inr rfl

variable {a b : Noun}

/-- A comparison by a number and then by `dor` answers yes where the order does and the nouns do not
clash. -/
theorem thenDor_eq_true (f : Noun → ℕ) :
    (if f a = f b then qcDor a b else some (decide (f a < f b))) = some true ↔
      (if f a = f b then dor a b else decide (f a < f b)) = true ∧ ¬(f a = f b ∧ Clash a b) := by
  by_cases heq : f a = f b
  · rw [if_pos heq, if_pos heq]
    rcases qcDor_eq a b with ⟨hclash, hnone⟩ | ⟨hnot, hsome⟩
    · exact iff_of_false (by rw [hnone]; nofun) fun hboth ↦ hboth.2 ⟨heq, hclash⟩
    · rw [hsome, Option.some.injEq]
      exact (and_iff_left fun hboth ↦ hnot hboth.2).symm
  · rw [if_neg heq, if_neg heq, Option.some.injEq]
    exact (and_iff_left fun hboth ↦ heq hboth.1).symm

theorem qcGor_eq_true : qcGor mug a b = some true ↔ Gor mug a b ∧ ¬(mug a = mug b ∧ Clash a b) :=
  thenDor_eq_true mug

theorem qcMor_eq_true : qcMor mug a b = some true ↔
    Mor mug a b ∧ ¬(mug (.atom (mug a)) = mug (.atom (mug b)) ∧ Clash a b) :=
  thenDor_eq_true fun k ↦ mug (.atom (mug k))

theorem qcGor_eq (a b : Noun) :
    (Collide mug a b ∧ qcGor mug a b = none) ∨ qcGor mug a b = some (gor mug a b) :=
  (thenDor_eq mug a b).imp_left (.imp_left fun hboth ↦ ⟨.inl hboth.1, hboth.2⟩)

theorem qcMor_eq (a b : Noun) :
    (Collide mug a b ∧ qcMor mug a b = none) ∨ qcMor mug a b = some (mor mug a b) :=
  (thenDor_eq (fun k ↦ mug (.atom (mug k))) a b).imp_left
    (.imp_left fun hboth ↦ ⟨.inr hboth.1, hboth.2⟩)

/-- Where every mug is the same, nouns collide when they clash. -/
theorem qcGor_const {n : ℕ} (hclash : Clash a b) : qcGor (fun _ ↦ n) a b = none :=
  (if_pos rfl).trans (qcDor_eq_none.mpr hclash)

theorem not_clash_direct {a b : ℕ} (ha : a < 2 ^ 31) (hb : b < 2 ^ 31) :
    ¬Clash (.atom a) (.atom b) := by
  rw [clash_atom]
  rintro ⟨-, -, -, hlarge⟩
  exact hlarge.elim (size_direct ha) (size_direct hb)

/-- Direct atoms do not collide. -/
theorem not_colliding_direct {keys : Set Noun} (hkeys : ∀ k ∈ keys, ∃ a, k = .atom a ∧ a < 2 ^ 31) :
    ¬Colliding mug keys := by
  rintro ⟨k, hk, k', hk', -, hclash⟩
  obtain ⟨a, rfl, ha⟩ := hkeys k hk
  obtain ⟨b, rfl, hb⟩ := hkeys k' hk'
  exact not_clash_direct ha hb hclash

end Collisions

/-! ### Results -/

section Results

variable {α β : Type}

/-- A run gives the result `c`, or it bails for the reason `why`. -/
def GivesOr (why : Prop) (run : Except Failed α) (c : α) : Prop :=
  run = .ok c ∨ run = .error .bail ∧ why

/-- A run gives the result `c` with some number of steps and any more, or it bails for the reason
`why`. -/
def Yields (why : Prop) (run : ℕ → Except Failed α) (c : α) : Prop :=
  ∃ need, ∀ fuel, need ≤ fuel → GivesOr why (run fuel) c

variable {why why' : Prop}

variable {c : α} {run : Except Failed α}

theorem GivesOr.ok (hrun : GivesOr why run c) (hnot : ¬why) : run = .ok c :=
  hrun.resolve_right fun hbail ↦ hnot hbail.2

theorem GivesOr.mono (hrun : GivesOr why run c) (himp : why → why') : GivesOr why' run c :=
  hrun.imp_right (.imp_right himp)

theorem GivesOr.bind {run : Except Failed α} {next : α → Except Failed β} {c : α} {d : β}
    (hrun : GivesOr why run c) (hnext : GivesOr why (next c) d) : GivesOr why (run >>= next) d := by
  rcases hrun with rfl | ⟨rfl, hwhy⟩
  · exact hnext
  · exact .inr ⟨rfl, hwhy⟩

/-- A part of a run that has its result at once. -/
theorem GivesOr.bind_ok {next : α → Except Failed β} {d : β} (hrun : run = .ok c)
    (hnext : GivesOr why (next c) d) : GivesOr why (run >>= next) d :=
  hrun ▸ hnext

theorem Yields.mono {run : ℕ → Except Failed α} {c : α} (hrun : Yields why run c)
    (himp : why → why') :
    Yields why' run c := by
  obtain ⟨need, hneed⟩ := hrun
  exact ⟨need, fun fuel hfuel ↦ (hneed fuel hfuel).mono himp⟩

theorem Yields.bind {run : ℕ → Except Failed α} {next : ℕ → α → Except Failed β} {c : α} {d : β}
    (hrun : Yields why run c) (hnext : Yields why (fun fuel ↦ next fuel c) d) :
    Yields why (fun fuel ↦ run fuel >>= next fuel) d := by
  obtain ⟨need, hneed⟩ := hrun
  obtain ⟨need', hneed'⟩ := hnext
  refine ⟨max need need', fun fuel hfuel ↦ (hneed fuel (by omega)).bind (hneed' fuel (by omega))⟩

/-- A run that needs no steps. -/
theorem GivesOr.yields (hrun : GivesOr why run c) : Yields why (fun _ ↦ run) c :=
  ⟨0, fun _ _ ↦ hrun⟩

end Results

/-! ### Agreement -/

section Agreement

variable {α α' β β' : Type}

/-- A run gives the noun of the result that is wanted, which is good, or it bails for the reason
`why`. It has no steps left only where nothing is wanted. -/
inductive Agrees (why : Prop) (enc : β → α) (good : β → Prop) : Except Failed α → Option β → Prop
  | same {c : β} (hgood : good c) : Agrees why enc good (.ok (enc c)) (some c)
  | steps : Agrees why enc good (.error .steps) none
  | bail (hwhy : why) (want : Option β) : Agrees why enc good (.error .bail) want

variable {why : Prop} {enc : β → α} {good : β → Prop} {enc' : β' → α'} {good' : β' → Prop}

theorem Agrees.ok {a : α} {c : β} (hgood : good c) (henc : enc c = a) :
    Agrees why enc good (.ok a) (some c) :=
  henc ▸ .same hgood

theorem Agrees.bind {run : Except Failed α} {want : Option β} (hrun : Agrees why enc good run want)
    {next : α → Except Failed α'} {next' : β → Option β'}
    (hnext : ∀ c, good c → Agrees why enc' good' (next (enc c)) (next' c)) :
    Agrees why enc' good' (run >>= next) (want >>= next') := by
  cases hrun with
  | same hgood => exact hnext _ hgood
  | steps => exact .steps
  | bail hwhy => exact .bail hwhy _

/-- A part of a run whose result is known. -/
theorem Agrees.bind_some {run : Except Failed α} {c : β} (hrun : Agrees why enc good run (some c))
    {next : α → Except Failed α'} {want : Option β'}
    (hnext : good c → Agrees why enc' good' (next (enc c)) want) :
    Agrees why enc' good' (run >>= next) want := by
  cases hrun with
  | same hgood => exact hnext hgood
  | bail hwhy => exact .bail hwhy _

theorem Agrees.givesOr {run : Except Failed α} {c : β} (hrun : Agrees why enc good run (some c)) :
    GivesOr why run (enc c) := by
  cases hrun with
  | same hgood => exact .inl rfl
  | bail hwhy => exact .inr ⟨rfl, hwhy⟩

/-- A run with steps gives what the wanted function returns. -/
theorem Agrees.yields {run : ℕ → Except Failed α} {want : ℕ → Option β}
    (hrun : ∀ fuel, Agrees why enc good (run fuel) (want fuel)) {c : β}
    (hreturns : Returns want c) :
    Yields why run (enc c) := by
  obtain ⟨need, hneed⟩ := hreturns
  refine ⟨need, fun fuel hfuel ↦ ?_⟩
  have hagrees := hrun fuel
  rw [hneed fuel hfuel] at hagrees
  exact hagrees.givesOr

variable {mug : Noun → ℕ} {keys : Set Noun} {k k' : Noun}

theorem Agrees.gor (hk : k ∈ keys) (hk' : k' ∈ keys) {next : Bool → Except Failed α}
    {want : Option β} (hnext : Agrees (Colliding mug keys) enc good (next (gor mug k k')) want) :
    Agrees (Colliding mug keys) enc good (orBail (qcGor mug k k') >>= next) want := by
  rcases @qcGor_eq mug k k' with ⟨hcollide, hnone⟩ | hsome
  · rw [hnone]
    exact .bail ⟨k, hk, k', hk', hcollide⟩ want
  · rw [hsome]
    exact hnext

theorem Agrees.mor (hk : k ∈ keys) (hk' : k' ∈ keys) {next : Bool → Except Failed α}
    {want : Option β} (hnext : Agrees (Colliding mug keys) enc good (next (mor mug k k')) want) :
    Agrees (Colliding mug keys) enc good (orBail (qcMor mug k k') >>= next) want := by
  rcases @qcMor_eq mug k k' with ⟨hcollide, hnone⟩ | hsome
  · rw [hnone]
    exact .bail ⟨k, hk, k', hk', hcollide⟩ want
  · rw [hsome]
    exact hnext

end Agreement

end Vere.Noun
