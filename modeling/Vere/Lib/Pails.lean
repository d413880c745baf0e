import Mathlib.Data.List.Nodup
import Mathlib.Logic.Function.Basic
import Vere.Lib.Fuel

/-!
# Dictionaries of bounded buckets

A set in which a member lies in the bucket that its hash selects, and every bucket has a bounded
number of places. A bucket that is full makes the set grow: all members are put anew into more
buckets, and into more again when one of those is full. Growing neither loses nor adds a member
(`Pails.Has.grow`), and it comes to an end when the hashes are below a bound and no hash has more
members than a bucket has places (`exists_grow`).
-/

set_option autoImplicit false

namespace Vere.Lib

variable {α : Type*}

/-- The number of buckets, what it grows by, and the buckets. -/
structure Pails (α : Type*) where
  prev : ℕ
  size : ℕ
  pail : ℕ → List α

namespace Pails

variable (max : ℕ) (hash : α → ℕ)

/-- The bucket of a hash. -/
def bucket (d : Pails α) (mug : ℕ) : List α := d.pail (mug % d.size)

/-- Put a member into its bucket. -/
def add (d : Pails α) (mug : ℕ) (x : α) : Pails α :=
  { d with pail := Function.update d.pail (mug % d.size) (d.bucket mug ++ [x]) }

/-- Put all members into new buckets, unless one of these is full. -/
def spill : List α → Pails α → Option (Pails α)
  | [], d => some d
  | x :: xs, d => if (d.bucket (hash x)).length = max then none else spill xs (d.add (hash x) x)

/-- All members, bucket by bucket. -/
def all (d : Pails α) : List α := (List.range d.size).flatMap d.pail

/-- Grow to the sum of two numbers of buckets, or further. -/
def grow : ℕ → ℕ → ℕ → Pails α → Option (Pails α)
  | 0, _, _, _ => none
  | fuel + 1, prev, size, d =>
    match spill max hash d.all ⟨size, prev + size, fun _ ↦ []⟩ with
    | some d' => some d'
    | none => grow fuel size (prev + size) d

/-- The members are those of a predicate, each in its bucket. -/
structure Has (d : Pails α) (M : α → Prop) : Prop where
  pos : 0 < d.size
  mem : ∀ i x, i < d.size → x ∈ d.pail i → M x ∧ hash x % d.size = i
  has : ∀ x, M x → x ∈ d.bucket (hash x)

variable {max hash} {d d' : Pails α} {M : α → Prop}

variable {prev size : ℕ} {x : α} {xs : List α}

theorem has_empty (hpos : 0 < size) : Has hash ⟨prev, size, fun _ ↦ []⟩ fun _ : α ↦ False :=
  ⟨hpos, fun i x _ hmem ↦ by simp at hmem, fun x hx ↦ hx.elim⟩

theorem Has.add (hhas : Has hash d M) (x : α) :
    Has hash (d.add (hash x) x) fun y ↦ M y ∨ y = x := by
  refine ⟨hhas.pos, ?_, ?_⟩
  · intro i y hi hmem
    replace hmem : y ∈ Function.update d.pail (hash x % d.size) (d.bucket (hash x) ++ [x]) i := hmem
    by_cases hix : i = hash x % d.size
    · subst hix
      rw [Function.update_self] at hmem
      rcases List.mem_append.mp hmem with hold | hnew
      · obtain ⟨hM, hhash⟩ := hhas.mem _ y hi hold
        exact ⟨Or.inl hM, hhash⟩
      · obtain rfl : y = x := by simpa using hnew
        exact ⟨Or.inr rfl, rfl⟩
    · rw [Function.update_of_ne hix] at hmem
      obtain ⟨hM, hhash⟩ := hhas.mem i y hi hmem
      exact ⟨Or.inl hM, hhash⟩
  · intro y hy
    show y ∈ Function.update d.pail (hash x % d.size) (d.bucket (hash x) ++ [x]) (hash y % d.size)
    by_cases hyx : hash y % d.size = hash x % d.size
    · rw [hyx, Function.update_self]
      rcases hy with hM | rfl
      · have hold := hhas.has y hM
        rw [bucket, hyx] at hold
        exact List.mem_append_left _ hold
      · exact List.mem_append_right _ (by simp)
    · rw [Function.update_of_ne hyx]
      rcases hy with hM | rfl
      · exact hhas.has y hM
      · exact absurd rfl hyx

theorem Has.congr {N : α → Prop} (hhas : Has hash d M) (hiff : ∀ x, M x ↔ N x) : Has hash d N :=
  ⟨hhas.pos, fun i x hi hmem ↦ ⟨(hiff x).mp (hhas.mem i x hi hmem).1, (hhas.mem i x hi hmem).2⟩,
    fun x hx ↦ hhas.has x ((hiff x).mpr hx)⟩

/-- The buckets depend on the hashes of the members only. -/
theorem Has.of_hash_eq {hash' : α → ℕ} (hhas : Has hash d M) (hsame : ∀ x, M x → hash' x = hash x) :
    Has hash' d M := by
  refine ⟨hhas.pos, fun i x hi hmem ↦ ?_, fun x hx ↦ ?_⟩
  · obtain ⟨hM, hhash⟩ := hhas.mem i x hi hmem
    exact ⟨hM, by rw [hsame x hM, hhash]⟩
  · rw [hsame x hx]
    exact hhas.has x hx

theorem Has.mem_all (hhas : Has hash d M) : x ∈ d.all ↔ M x := by
  rw [all, List.mem_flatMap]
  constructor
  · rintro ⟨i, hi, hmem⟩
    exact (hhas.mem i x (List.mem_range.mp hi) hmem).1
  · intro hx
    exact ⟨hash x % d.size, List.mem_range.mpr (Nat.mod_lt _ hhas.pos), hhas.has x hx⟩

theorem Has.spill (hhas : Has hash d M) (hspill : spill max hash xs d = some d') :
    Has hash d' fun x ↦ M x ∨ x ∈ xs := by
  induction xs generalizing d M with
  | nil =>
    obtain rfl := Option.some.inj hspill
    exact hhas.congr fun x ↦ by simp
  | cons y ys ih =>
    rw [Pails.spill] at hspill
    split at hspill
    · simp at hspill
    · refine (ih (hhas.add y) hspill).congr fun x ↦ ?_
      rw [List.mem_cons, or_assoc]

/-- Growing keeps the members. -/
theorem Has.grow {fuel : ℕ} (hhas : Has hash d M) (hpos : 0 < prev + size)
    (hgrow : grow max hash fuel prev size d = some d') : Has hash d' M := by
  induction fuel generalizing prev size with
  | zero => simp [Pails.grow] at hgrow
  | succ fuel ih =>
    rw [Pails.grow] at hgrow
    split at hgrow
    · rename_i d'' hspill
      obtain rfl := Option.some.inj hgrow
      refine ((has_empty hpos).spill hspill).congr fun x ↦ ?_
      rw [hhas.mem_all, false_or]
    · exact ih (by omega) hgrow

/-! ### Growing comes to an end -/

/-- The members that go to a bucket. -/
def dealt (hash : α → ℕ) (size : ℕ) (xs : List α) (i : ℕ) : List α :=
  xs.filter fun x ↦ hash x % size = i

theorem dealt_cons_of_eq {i : ℕ} (heq : hash x % size = i) :
    dealt hash size (x :: xs) i = x :: dealt hash size xs i :=
  List.filter_cons_of_pos (by simpa using heq)

theorem dealt_cons_of_ne {i : ℕ} (hne : hash x % size ≠ i) :
    dealt hash size (x :: xs) i = dealt hash size xs i :=
  List.filter_cons_of_neg (by simpa using hne)

/-- Spilling deals the members behind those that the buckets have. -/
theorem spill_pail (hspill : spill max hash xs d = some d') :
    d'.prev = d.prev ∧ d'.size = d.size ∧ (∀ i, d'.pail i = d.pail i ++ dealt hash d.size xs i) ∧
      ((∀ i, (d.pail i).length ≤ max) → ∀ i, (d'.pail i).length ≤ max) := by
  induction xs generalizing d with
  | nil =>
    obtain rfl := Option.some.inj hspill
    exact ⟨rfl, rfl, fun i ↦ (List.append_nil _).symm, id⟩
  | cons x xs ih =>
    rw [Pails.spill] at hspill
    split at hspill
    · cases hspill
    · rename_i hroom
      obtain ⟨hprev, hsize, hpail, hfill⟩ := ih hspill
      refine ⟨hprev, hsize, fun i ↦ ?_, fun hle ↦ hfill fun i ↦ ?_⟩
      · rw [hpail]
        show Function.update d.pail (hash x % d.size) (d.bucket (hash x) ++ [x]) i ++
          dealt hash d.size xs i = _
        by_cases hi : hash x % d.size = i
        · rw [dealt_cons_of_eq hi, ← hi, Function.update_self, bucket, List.append_assoc]
          rfl
        · rw [dealt_cons_of_ne hi, Function.update_of_ne (Ne.symm hi)]
      · simp only [add]
        by_cases hi : i = hash x % d.size
        · rw [hi, Function.update_self, List.length_append, List.length_singleton]
          have hbucket := hle (hash x % d.size)
          rw [bucket] at hroom ⊢
          omega
        · rw [Function.update_of_ne hi]
          exact hle i

/-- Spilling succeeds if every bucket has room for the members that go there. -/
theorem exists_spill {xs : List α}
    (hfit : ∀ i, (d.pail i).length + (dealt hash d.size xs i).length ≤ max) :
    ∃ d', spill max hash xs d = some d' := by
  induction xs generalizing d with
  | nil => exact ⟨d, rfl⟩
  | cons x xs ih =>
    have hhere := hfit (hash x % d.size)
    rw [dealt_cons_of_eq rfl, List.length_cons] at hhere
    rw [Pails.spill, if_neg (by rw [bucket]; omega)]
    refine ih fun i ↦ ?_
    have hi := hfit i
    show (Function.update d.pail (hash x % d.size) (d.bucket (hash x) ++ [x]) i).length +
      (dealt hash d.size xs i).length ≤ max
    by_cases heq : hash x % d.size = i
    · rw [dealt_cons_of_eq heq, List.length_cons] at hi
      rw [← heq, Function.update_self, bucket, List.length_append, List.length_singleton, heq]
      omega
    · rw [dealt_cons_of_ne heq] at hi
      rw [Function.update_of_ne (Ne.symm heq)]
      exact hi

/-- What growing gives: the members dealt to a number of buckets that is at least the one asked for.
-/
theorem grow_pail {fuel : ℕ} (hgrow : grow max hash fuel prev size d = some d') :
    prev + size ≤ d'.size ∧ size ≤ d'.prev ∧ d'.prev ≤ d'.size ∧
      (∀ i, d'.pail i = dealt hash d'.size d.all i) ∧ ∀ i, (d'.pail i).length ≤ max := by
  induction fuel generalizing prev size with
  | zero => cases hgrow
  | succ fuel ih =>
    rw [Pails.grow] at hgrow
    split at hgrow
    · rename_i d'' hspill
      obtain rfl := Option.some.inj hgrow
      obtain ⟨hprev, hsize, hpail, hfill⟩ := spill_pail hspill
      rw [hprev, hsize]
      refine ⟨Nat.le_refl _, Nat.le_refl _, Nat.le_add_left _ _, fun i ↦ ?_,
        hfill fun i ↦ Nat.zero_le _⟩
      rw [hpail]
      rfl
    · obtain ⟨hsize, hprev, hrest⟩ := ih hgrow
      exact ⟨by omega, by omega, hrest⟩

/-- Growing comes to an end with hashes below a bound, of which none has more members than there are
places, and the number of buckets is then at most what was asked for or twice that bound. -/
theorem exists_grow {bound : ℕ} (hbound : ∀ x ∈ d.all, hash x < bound)
    (hfit : ∀ mug, (d.all.filter fun x ↦ hash x = mug).length ≤ max) (hpos : 0 < size) :
    ∃ d', Fuel.Returns (fun fuel ↦ grow max hash fuel prev size d) d' ∧
      d'.size ≤ Nat.max (prev + size) (2 * bound) := by
  obtain ⟨left, hleft⟩ : ∃ left, left = bound - (prev + size) := ⟨_, rfl⟩
  induction left using Nat.strongRecOn generalizing prev size with
  | _ left ih =>
    cases hspill : spill max hash d.all ⟨size, prev + size, fun _ ↦ []⟩ with
    | some d' =>
      refine ⟨d', Fuel.Returns.succ fun fuel ↦ ?_, ?_⟩
      · rw [grow, hspill]
      · obtain ⟨-, hsize, -⟩ := spill_pail hspill
        rw [hsize]
        exact Nat.le_max_left _ _
    | none =>
      have hsmall : prev + size < bound := by
        by_contra hlarge
        obtain ⟨d', hd'⟩ := @exists_spill _ max hash ⟨size, prev + size, fun _ ↦ []⟩ d.all
          fun i ↦ by
          refine Nat.le_trans ?_ (hfit i)
          rw [List.length_nil, Nat.zero_add, dealt]
          refine Nat.le_of_eq (congrArg List.length (List.filter_congr fun x hx ↦ ?_))
          have hlt : hash x < prev + size :=
            Nat.lt_of_lt_of_le (hbound x hx) (Nat.le_of_not_lt hlarge)
          rw [Nat.mod_eq_of_lt hlt]
        rw [hd'] at hspill
        cases hspill
      obtain ⟨d', hret, hsize⟩ := @ih (bound - (size + (prev + size))) (by omega) size (prev + size)
        (by omega) rfl
      refine ⟨d', hret.of_succ fun fuel ↦ ?_, Nat.le_trans hsize ?_⟩
      · rw [grow, hspill]
      · refine Nat.le_trans (Nat.max_le.mpr ⟨?_, Nat.le_refl _⟩) (Nat.le_max_right _ _)
        omega

/-! ### Dictionaries within their bounds -/

/-- Members are in the bucket of their hash, and no bucket has more than its places. -/
structure Fit (max : ℕ) (hash : α → ℕ) (d : Pails α) : Prop where
  pos : 0 < d.size
  mem : ∀ i x, i < d.size → x ∈ d.pail i → hash x % d.size = i
  fill : ∀ i, (d.pail i).length ≤ max
  prev : d.prev ≤ d.size

theorem fit_empty (hpos : 0 < size) (hle : prev ≤ size) : Fit max hash ⟨prev, size, fun _ ↦ []⟩ :=
  ⟨hpos, fun _ _ _ hmem ↦ absurd hmem List.not_mem_nil, fun _ ↦ Nat.zero_le _, hle⟩

theorem Fit.of_hash_eq {hash' : α → ℕ} (hfit : Fit max hash d)
    (hsame : ∀ i x, i < d.size → x ∈ d.pail i → hash' x = hash x) : Fit max hash' d :=
  ⟨hfit.pos, fun i x hi hmem ↦ (hsame i x hi hmem).symm ▸ hfit.mem i x hi hmem, hfit.fill,
    hfit.prev⟩

theorem Fit.add (hfit : Fit max hash d) (x : α) (hroom : (d.bucket (hash x)).length ≠ max) :
    Fit max hash (d.add (hash x) x) := by
  refine ⟨hfit.pos, fun i y hi hmem ↦ ?_, fun i ↦ ?_, hfit.prev⟩
  · replace hmem : y ∈ Function.update d.pail (hash x % d.size) (d.bucket (hash x) ++ [x]) i := hmem
    by_cases hix : i = hash x % d.size
    · rw [hix, Function.update_self] at hmem
      rcases List.mem_append.mp hmem with hold | hnew
      · rw [hix]
        exact hfit.mem _ y (Nat.mod_lt _ hfit.pos) hold
      · rw [List.mem_singleton.mp hnew, hix]
        rfl
    · rw [Function.update_of_ne hix] at hmem
      exact hfit.mem i y hi hmem
  · show (Function.update d.pail (hash x % d.size) (d.bucket (hash x) ++ [x]) i).length ≤ max
    by_cases hix : i = hash x % d.size
    · have hle : (d.bucket (hash x)).length ≤ max := hfit.fill _
      rw [hix, Function.update_self, List.length_append, List.length_singleton]
      omega
    · rw [Function.update_of_ne hix]
      exact hfit.fill i

/-- Members with different keys in every bucket have different keys, when the hash is one of the
key. -/
theorem Fit.all_nodup {κ : Type*} {key : α → κ} {keyHash : κ → ℕ}
    (hfit : Fit max (fun x ↦ keyHash (key x)) d)
    (hnodup : ∀ i < d.size, ((d.pail i).map key).Nodup) : (d.all.map key).Nodup := by
  rw [all, List.map_flatMap, List.nodup_flatMap]
  refine ⟨fun i hi ↦ hnodup i (List.mem_range.mp hi), ?_⟩
  refine List.nodup_range.imp_of_mem fun {i j} hi hj hne k hmem hmem' ↦ hne ?_
  obtain ⟨x, hx, rfl⟩ := List.mem_map.mp hmem
  obtain ⟨y, hy, hsame⟩ := List.mem_map.mp hmem'
  have hhash := hfit.mem i x (List.mem_range.mp hi) hx
  have hhash' := hfit.mem j y (List.mem_range.mp hj) hy
  rw [hsame] at hhash'
  exact hhash.symm.trans hhash'

/-- The members of one hash are in one bucket. -/
theorem Fit.count_le (hfit : Fit max hash d) (mug : ℕ) :
    (d.all.filter fun x ↦ hash x = mug).length ≤ max := by
  have hothers : ∀ is : List ℕ, is.Nodup → (∀ i ∈ is, i < d.size) →
      ((is.flatMap d.pail).filter fun x ↦ hash x = mug).length ≤ if mug % d.size ∈ is then
        max else 0 := by
    intro is hnodup hlt
    induction is with
    | nil => exact Nat.zero_le _
    | cons i is ih =>
      obtain ⟨hnot, hnodup⟩ := List.nodup_cons.mp hnodup
      have hrest := ih hnodup fun j hj ↦ hlt j (List.mem_cons_of_mem _ hj)
      rw [List.flatMap_cons, List.filter_append, List.length_append]
      by_cases heq : mug % d.size = i
      · rw [heq, if_neg hnot] at hrest
        rw [heq, if_pos List.mem_cons_self]
        have hhere :=
          Nat.le_trans (List.length_filter_le (fun x ↦ decide (hash x = mug)) (d.pail i))
            (hfit.fill i)
        omega
      · have hnone : ((d.pail i).filter fun x ↦ hash x = mug) = [] := by
          rw [List.filter_eq_nil_iff]
          intro x hx
          have hmug := hfit.mem i x (hlt i List.mem_cons_self) hx
          have hne : hash x ≠ mug := fun hsame ↦ heq (hsame ▸ hmug)
          simpa using hne
        have hmem : mug % d.size ∈ i :: is ↔ mug % d.size ∈ is := by
          rw [List.mem_cons, or_iff_right heq]
        simp only [hnone, List.length_nil, Nat.zero_add, hmem]
        exact hrest
  refine Nat.le_trans (hothers _ List.nodup_range fun i hi ↦ List.mem_range.mp hi) ?_
  split
  · exact Nat.le_refl _
  · exact Nat.zero_le _

theorem Fit.of_grow {fuel : ℕ} (hpos : 0 < prev + size)
    (hgrow : grow max hash fuel prev size d = some d') : Fit max hash d' := by
  obtain ⟨hsize, -, hle, hpail, hfill⟩ := grow_pail hgrow
  refine ⟨by omega, fun i x _ hmem ↦ ?_, hfill, hle⟩
  rw [hpail, dealt, List.mem_filter] at hmem
  simpa using hmem.2

/-- A dictionary within its bounds can grow. -/
theorem Fit.exists_grow {bound : ℕ} (hfit : Fit max hash d) (hbound : ∀ x ∈ d.all, hash x < bound) :
    ∃ d', Fuel.Returns (fun fuel ↦ grow max hash fuel d.prev d.size d) d' ∧ Fit max hash d' ∧
      d.prev + d.size ≤ d'.size ∧ d.size ≤ d'.prev ∧
      d'.size ≤ Nat.max (d.prev + d.size) (2 * bound) ∧
      ∀ i, d'.pail i = dealt hash d'.size d.all i := by
  obtain ⟨d', ⟨need, hneed⟩, hmost⟩ := Pails.exists_grow hbound hfit.count_le hfit.pos
  have hgrow := hneed need (Nat.le_refl _)
  obtain ⟨hsize, hprev, -, hpail, -⟩ := grow_pail hgrow
  exact ⟨d', ⟨need, hneed⟩, .of_grow (Nat.add_pos_right _ hfit.pos) hgrow, hsize, hprev,
    hmost, hpail⟩

/-- With as many buckets as there are hashes, a bucket has the members of one hash. -/
theorem Fit.hash_eq {bound : ℕ} (hfit : Fit max hash d)
    (hbound : ∀ i x, x ∈ d.pail i → hash x < bound) (hlarge : bound ≤ d.size) {mug : ℕ}
    (hmug : mug < bound) (hmem : x ∈ d.bucket mug) : hash x = mug := by
  have hhash := hfit.mem _ x (Nat.mod_lt _ hfit.pos) hmem
  rwa [Nat.mod_eq_of_lt (Nat.lt_of_lt_of_le (hbound _ x hmem) hlarge),
    Nat.mod_eq_of_lt (Nat.lt_of_lt_of_le hmug hlarge)]
    at hhash

end Pails

end Vere.Lib
