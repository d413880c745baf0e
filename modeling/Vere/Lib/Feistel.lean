import Mathlib.Data.Set.Function
import Mathlib.Order.Interval.Set.Defs

/-!
# Unbalanced ciphers

A round of a Feistel cipher on two halves that need not have the same range: the right half moves to
the left, and the left half is added to a hash of the right one, modulo its range. Whatever the hash
is, `turns` is a bijection from the pairs below two bounds to the pairs below the same bounds, in
the other order after an odd number of rounds, and `unturns` with the rounds in reverse order is its
inverse (`turns_spec`, `unturns_spec`).

With two bijections between the numbers below `a * (a + 1)` and the pairs below `a` and `a + 1` it
makes a cipher on these numbers (`invOn_encipher`).
-/

set_option autoImplicit false

namespace Vere.Lib.Feistel

/-- The hash of a round, and the range of the half that it is added to. -/
structure Round where
  hash : ℕ → ℕ
  range : ℕ

/-- The pairs below two bounds. -/
def box (bounds : ℕ × ℕ) : Set (ℕ × ℕ) := {p | p.1 < bounds.1 ∧ p.2 < bounds.2}

/-! ### One round -/

def turn (p : ℕ × ℕ) (r : Round) : ℕ × ℕ := (p.2, (r.hash p.2 + p.1) % r.range)

def unturn (p : ℕ × ℕ) (r : Round) : ℕ × ℕ :=
  ((p.2 + r.range - r.hash p.1 % r.range) % r.range, p.1)

variable {r : Round} {p : ℕ × ℕ} {m : ℕ}

theorem unturn_turn (hp : p.1 < r.range) : unturn (turn p r) r = p := by
  refine Prod.ext ?_ rfl
  show ((r.hash p.2 + p.1) % r.range + r.range - r.hash p.2 % r.range) % r.range = p.1
  have hhash : r.hash p.2 % r.range < r.range := Nat.mod_lt _ (by omega)
  rw [Nat.add_mod, Nat.mod_eq_of_lt hp]
  generalize r.hash p.2 % r.range = f at hhash ⊢
  by_cases hsmall : f + p.1 < r.range
  · rw [Nat.mod_eq_of_lt hsmall,
      show f + p.1 + r.range - f = p.1 + r.range by omega, Nat.add_mod_right, Nat.mod_eq_of_lt hp]
  · have hwrap : (f + p.1) % r.range = f + p.1 - r.range := by
      rw [Nat.mod_eq_sub_mod (not_lt.mp hsmall), Nat.mod_eq_of_lt (by omega)]
    rw [hwrap, show f + p.1 - r.range + r.range - f = p.1 by omega, Nat.mod_eq_of_lt hp]

theorem turn_unturn (hp : p.2 < r.range) : turn (unturn p r) r = p := by
  refine Prod.ext rfl ?_
  show (r.hash p.1 + (p.2 + r.range - r.hash p.1 % r.range) % r.range) % r.range = p.2
  have hhash : r.hash p.1 % r.range < r.range := Nat.mod_lt _ (by omega)
  rw [Nat.add_mod_mod, ← Nat.mod_add_mod]
  generalize r.hash p.1 % r.range = f at hhash ⊢
  rw [show f + (p.2 + r.range - f) = p.2 + r.range by omega, Nat.add_mod_right, Nat.mod_eq_of_lt hp]

theorem turn_mem (hp : p ∈ box (r.range, m)) : turn p r ∈ box (m, r.range) :=
  ⟨hp.2, Nat.mod_lt _ (Nat.zero_lt_of_lt hp.1)⟩

theorem unturn_mem (hp : p ∈ box (m, r.range)) : unturn p r ∈ box (r.range, m) :=
  ⟨Nat.mod_lt _ (Nat.zero_lt_of_lt hp.2), hp.1⟩

/-! ### All rounds -/

def turns (rounds : List Round) (p : ℕ × ℕ) : ℕ × ℕ := rounds.foldl turn p

def unturns (rounds : List Round) (p : ℕ × ℕ) : ℕ × ℕ := rounds.foldl unturn p

/-- The ranges alternate between two bounds. -/
def Alternates : List Round → ℕ × ℕ → Prop
  | [], _ => True
  | r :: rounds, bounds => r.range = bounds.1 ∧ Alternates rounds bounds.swap

/-- The bounds behind the rounds. -/
def exit (rounds : List Round) (bounds : ℕ × ℕ) :
    ℕ × ℕ := rounds.foldl (fun bounds _ ↦ bounds.swap) bounds

variable {rounds : List Round} {bounds : ℕ × ℕ}

theorem unturns_reverse_cons (p : ℕ × ℕ) :
    unturns (r :: rounds).reverse p = unturn (unturns rounds.reverse p) r := by
  simp [unturns]

theorem turns_spec (halt : Alternates rounds bounds) (hp : p ∈ box bounds) :
    turns rounds p ∈ box (exit rounds bounds) ∧ unturns rounds.reverse (turns rounds p) = p := by
  induction rounds generalizing p bounds with
  | nil => exact ⟨hp, rfl⟩
  | cons r rounds ih =>
    obtain ⟨n, m⟩ := bounds
    obtain ⟨rfl, halt⟩ := halt
    obtain ⟨hmem, hback⟩ := ih halt (turn_mem hp)
    refine ⟨hmem, ?_⟩
    rw [unturns_reverse_cons]
    show unturn (unturns rounds.reverse (turns rounds (turn p r))) r = p
    rw [hback, unturn_turn hp.1]

theorem unturns_spec (halt : Alternates rounds bounds) (hp : p ∈ box (exit rounds bounds)) :
    unturns rounds.reverse p ∈ box bounds ∧ turns rounds (unturns rounds.reverse p) = p := by
  induction rounds generalizing bounds with
  | nil => exact ⟨hp, rfl⟩
  | cons r rounds ih =>
    obtain ⟨n, m⟩ := bounds
    obtain ⟨rfl, halt⟩ := halt
    obtain ⟨hmem, hback⟩ := ih halt hp
    rw [unturns_reverse_cons]
    refine ⟨unturn_mem hmem, ?_⟩
    show turns rounds (turn (unturn (unturns rounds.reverse p) r) r) = p
    rw [turn_unturn hmem.2, hback]

/-! ### Numbers as pairs -/

def split (a x : ℕ) : ℕ × ℕ := (x % a, x / a)

def join (a : ℕ) (p : ℕ × ℕ) : ℕ := p.2 * a + p.1

/-- The numbers below `a * (a + 1)` as pairs, with the halves exchanged where the left one is below
`a`.
-/
def pack (a : ℕ) (p : ℕ × ℕ) : ℕ := if a = p.2 then p.2 * a + p.1 else p.1 * a + p.2

def unpack (a x : ℕ) : ℕ × ℕ := if a = x / a then (x % a, x / a) else (x / a, x % a)

variable {a b x : ℕ}

theorem div_join {low high : ℕ} (hlow : low < a) : (high * a + low) / a = high := by
  rw [Nat.mul_comm, Nat.mul_add_div (Nat.zero_lt_of_lt hlow), Nat.div_eq_of_lt hlow, Nat.add_zero]

theorem mod_join {low high : ℕ} (hlow : low < a) : (high * a + low) % a = low := by
  rw [Nat.mul_comm, Nat.mul_add_mod, Nat.mod_eq_of_lt hlow]

theorem join_lt (hp : p ∈ box (a, b)) : join a p < a * b := by
  have hle : (p.2 + 1) * a ≤ b * a := Nat.mul_le_mul_right a hp.2
  have hleft : p.1 < a := hp.1
  rw [Nat.succ_mul, Nat.mul_comm b] at hle
  unfold join
  omega

theorem split_mem (hx : x < a * b) : split a x ∈ box (a, b) := by
  have hpos : 0 < a := Nat.pos_of_ne_zero fun hzero ↦ by simp [hzero] at hx
  exact ⟨Nat.mod_lt _ hpos, Nat.div_lt_of_lt_mul hx⟩

theorem split_join (hp : p ∈ box (a, b)) : split a (join a p) = p :=
  Prod.ext (mod_join hp.1) (div_join hp.1)

theorem join_split (x : ℕ) : join a (split a x) = x := Nat.div_add_mod' x a

theorem pack_lt (hp : p ∈ box (a, a + 1)) : pack a p < a * (a + 1) := by
  unfold pack
  split
  · exact join_lt hp
  · next hne =>
    have hright : p.2 < a := Nat.lt_of_le_of_ne (Nat.le_of_lt_succ hp.2) (Ne.symm hne)
    exact join_lt (p := p.swap) ⟨hright, Nat.lt_succ_of_lt hp.1⟩

theorem unpack_mem (hx : x < a * (a + 1)) : unpack a x ∈ box (a, a + 1) := by
  obtain ⟨hmod, hdiv⟩ : x % a < a ∧ x / a < a + 1 := split_mem hx
  unfold unpack
  split
  · exact ⟨hmod, hdiv⟩
  · next hne => exact ⟨Nat.lt_of_le_of_ne (Nat.le_of_lt_succ hdiv) (Ne.symm hne),
      Nat.lt_succ_of_lt hmod⟩

theorem unpack_pack (hp : p ∈ box (a, a + 1)) : unpack a (pack a p) = p := by
  unfold unpack pack
  by_cases heq : a = p.2
  · rw [if_pos heq, div_join hp.1, mod_join hp.1, if_pos heq]
  · have hright : p.2 < a := Nat.lt_of_le_of_ne (Nat.le_of_lt_succ hp.2) (Ne.symm heq)
    have hleft : p.1 < a := hp.1
    rw [if_neg heq, div_join hright, mod_join hright, if_neg hleft.ne']

theorem pack_unpack (hx : x < a * (a + 1)) : pack a (unpack a x) = x := by
  obtain ⟨hmod, -⟩ : x % a < a ∧ x / a < a + 1 := split_mem hx
  unfold unpack pack
  by_cases heq : a = x / a
  · rw [if_pos heq, if_pos heq]
    exact Nat.div_add_mod' x a
  · rw [if_neg heq, if_neg hmod.ne']
    exact Nat.div_add_mod' x a

/-! ### The cipher -/

def encipher (a : ℕ) (rounds : List Round) (x : ℕ) : ℕ := pack a (turns rounds (split a x))

def decipher (a : ℕ) (rounds : List Round) (x : ℕ) : ℕ := join a (unturns rounds (unpack a x))

/-- After an even number of rounds, the cipher permutes the numbers below `a * (a + 1)`. -/
theorem encipher_lt (halt : Alternates rounds (a, a + 1))
    (hexit : exit rounds (a, a + 1) = (a, a + 1)) (hx : x < a * (a + 1)) :
    encipher a rounds x < a * (a + 1) ∧ decipher a rounds.reverse (encipher a rounds x) = x := by
  obtain ⟨hmem, hback⟩ := turns_spec halt (split_mem hx)
  rw [hexit] at hmem
  refine ⟨pack_lt hmem, ?_⟩
  unfold decipher encipher
  rw [unpack_pack hmem, hback, join_split]

theorem decipher_lt (halt : Alternates rounds (a, a + 1))
    (hexit : exit rounds (a, a + 1) = (a, a + 1)) (hx : x < a * (a + 1)) :
    decipher a rounds.reverse x < a * (a + 1) ∧
    encipher a rounds (decipher a rounds.reverse x) = x := by
  have hmem := unpack_mem hx
  rw [← hexit] at hmem
  obtain ⟨hback, hthere⟩ := unturns_spec halt hmem
  refine ⟨join_lt hback, ?_⟩
  unfold decipher encipher
  rw [split_join hback, hthere, pack_unpack hx]

end Vere.Lib.Feistel
