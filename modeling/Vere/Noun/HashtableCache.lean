import Vere.Noun.HashtableMap

/-!
# Caches

A table of bounded size is trimmed by every `u3h_put()`. `Caches` is a run of operations on one
table, of any bound, with the value that was put last for every key. In every run a table can be
trimmed to any number of entries (`trim_exactly`), and what it holds for a key is what was put last.
-/

set_option autoImplicit false

namespace Vere.Noun.Hashtable

open Lib.Fuel

variable (mug : Noun → Fin (2 ^ 31))

/-- The table in `u3h_put()` when the entry is in and nothing is trimmed yet. -/
def putKev (har_u : Root) (key val : Noun) : Root :=
  match har_u.sot_w (rootIndex (mug key)) with
  | none =>
    { har_u with
      sot_w := Function.update har_u.sot_w (rootIndex (mug key)) (some (.noun ⟨key, val⟩ true))
      use_w := har_u.use_w + 1 }
  | some sot_w =>
    let (sot_w, use_w) := chSlotPut mug ⟨key, val⟩ 5 (cutEnd (mug key) 25) sot_w
    { har_u with
      sot_w := Function.update har_u.sot_w (rootIndex (mug key)) (some sot_w),
        use_w := har_u.use_w + use_w }

section Insertion

variable {mug} {har_u : Root} {key val : Noun}

theorem putKev_max : (putKev mug har_u key val).max_w = har_u.max_w := by
  unfold putKev
  cases har_u.sot_w (rootIndex (mug key)) <;> rfl

theorem put_eq (fuel : ℕ) : put mug fuel har_u key val =
    if 0 < har_u.max_w then trimTo har_u.max_w fuel (putKev mug har_u key val)
    else some (putKev mug har_u key val) := by
  have hput : put mug fuel har_u key val = if 0 < (putKev mug har_u key val).max_w then
      trimTo (putKev mug har_u key val).max_w fuel (putKev mug har_u key val)
    else some (putKev mug har_u key val) := rfl
  rw [hput, putKev_max]

theorem putKev_arm : (putKev mug har_u key val).arm_u = har_u.arm_u := by
  unfold putKev
  cases har_u.sot_w (rootIndex (mug key)) <;> rfl

/-- The bound of a table is nothing to its entries. -/
theorem putKev_bound (max_w : ℕ) :
    putKev mug { har_u with max_w := max_w } key val =
      { putKev mug har_u key val with max_w := max_w } := by
  unfold putKev
  dsimp only
  cases har_u.sot_w (rootIndex (mug key)) <;> rfl

theorem RootOk.bound (hok : RootOk mug har_u) (max_w : ℕ) :
    RootOk mug { har_u with max_w := max_w } :=
  ⟨hok.slot, hok.use, hok.arm⟩

/-- The entry is in, and the others are as they were. -/
theorem RootOk.putKev (hok : RootOk mug har_u) (key val : Noun) :
    RootOk mug (putKev mug har_u key val) ∧
    ∀ key' val', RootHolds (Hashtable.putKev mug har_u key val) key' val' ↔
      if key' = key then val' = val else RootHolds har_u key' val' := by
  obtain ⟨har_u', hput, hok', -, hholds⟩ := (hok.bound 0).put rfl key val
  have hsame : har_u' = { Hashtable.putKev mug har_u key val with max_w := 0 } := by
    have hrun := hput 0
    rw [put_eq, if_neg (Nat.lt_irrefl 0), putKev_bound] at hrun
    exact (Option.some.inj hrun).symm
  subst hsame
  exact ⟨hok'.bound (Hashtable.putKev mug har_u key val).max_w, hholds⟩

/-- Putting an entry returns: the table is trimmed if it has a bound. -/
theorem RootOk.put_returns (hok : RootOk mug har_u) (key val : Noun) :
    ∃ har_u', Returns (fun fuel ↦ Hashtable.put mug fuel har_u key val) har_u' ∧ RootOk mug har_u' ∧
      har_u'.max_w = har_u.max_w ∧ (0 < har_u.max_w → har_u'.use_w ≤ har_u.max_w) ∧
      ∀ key' val', RootHolds har_u' key' val' →
      RootHolds (Hashtable.putKev mug har_u key val) key' val' := by
  obtain ⟨hok', -⟩ := hok.putKev key val
  by_cases hmax : 0 < har_u.max_w
  · obtain ⟨har_u', hret, hok'', hmax', huse, hholds⟩ := hok'.trimTo har_u.max_w
    refine ⟨har_u', ?_, hok'', hmax'.trans putKev_max, fun _ ↦ ?_, hholds⟩
    · simpa only [put_eq, if_pos hmax] using hret
    · rw [huse]
      exact Nat.min_le_right _ _
  · refine ⟨Hashtable.putKev mug har_u key val, ?_, hok', putKev_max, fun h ↦ absurd h hmax,
      fun _ _ h ↦ h⟩
    simpa only [put_eq, if_neg hmax] using Returns.pure

end Insertion

/-! ### Runs on one table -/

/-- A table in a run that starts with a new one, with the value that was put last for each key. -/
inductive Caches (max_w : ℕ) : Root → (Noun → Option Noun) → Prop
  | new : Caches max_w (newCache max_w) fun _ ↦ none
  | put {har_u har_u' : Root} {last : Noun → Option Noun} {fuel : ℕ} (key val : Noun)
  (hrun : Caches max_w har_u last)
      (hput : put mug fuel har_u key val = some har_u') : Caches max_w har_u'
        (Function.update last key (some val))
  | git {har_u : Root} {last : Noun → Option Noun} (key : Noun) (hrun : Caches max_w har_u last) :
      Caches max_w (git mug har_u key).2 last
  | trim {har_u har_u' : Root} {last : Noun → Option Noun} {fuel : ℕ} (n_w : ℕ)
    (hrun : Caches max_w har_u last)
      (htrim : trimTo n_w fuel har_u = some har_u') : Caches max_w har_u' last

section Runs

variable {mug} {max_w : ℕ} {har_u har_u' : Root} {last : Noun → Option Noun}

theorem rootOk_newCache (max_w : ℕ) : RootOk mug (newCache max_w) :=
  (@denotes_new mug).ok.bound max_w

/-- What holds in every run: the table is in order and within its bound, and holds only what was put
last. -/
structure CacheOk (mug : Noun → Fin (2 ^ 31)) (max_w : ℕ) (har_u : Root)
    (last : Noun → Option Noun) : Prop where
  ok : RootOk mug har_u
  max : har_u.max_w = max_w
  bound : 0 < max_w → har_u.use_w ≤ max_w
  last : ∀ key val, RootHolds har_u key val → last key = some val

/-- Any amount of fuel that is enough gives the same table. -/
theorem returns_unique {β : Type} {run : ℕ → Option β} {fuel : ℕ} {c d : β}
    (hmono : ∀ fuel c, run fuel = some c → ∀ more, run (fuel + more) = some c)
    (hrun : run fuel = some c) (hret : Returns run d) : c = d := by
  obtain ⟨need, hneed⟩ := hret
  have hmore := hmono fuel c hrun need
  rw [hneed _ (Nat.le_add_left _ _)] at hmore
  exact (Option.some.inj hmore).symm

theorem trimTo_mono (n_w : ℕ) (fuel : ℕ) (har_u har_u' : Root)
    (hrun : trimTo n_w fuel har_u = some har_u') (more : ℕ) :
    trimTo n_w (fuel + more) har_u = some har_u' := by
  induction fuel generalizing har_u with
  | zero => cases hrun
  | succ fuel ih =>
    rw [Nat.add_right_comm, trimTo_succ]
    rw [trimTo_succ] at hrun
    split_ifs at hrun ⊢ with hover
    · exact ih _ hrun
    · exact hrun

theorem put_mono (key val : Noun) (fuel : ℕ) (har_u' : Root)
    (hrun : put mug fuel har_u key val = some har_u') (more : ℕ) :
    put mug (fuel + more) har_u key val = some har_u' := by
  rw [put_eq] at hrun ⊢
  split_ifs at hrun ⊢
  · exact trimTo_mono _ _ _ _ hrun more
  · exact hrun

theorem Caches.ok (hrun : Caches mug max_w har_u last) : CacheOk mug max_w har_u last := by
  induction hrun with
  | new =>
    refine ⟨rootOk_newCache max_w, rfl, fun _ ↦ Nat.zero_le _, fun key val hholds ↦ ?_⟩
    obtain ⟨sot_w, hslot, -⟩ := ((@rootOk_newCache mug max_w).holds_iff).mp hholds
    cases hslot
  | @put har_u har_u' last fuel key val _ hput ih =>
    obtain ⟨har_u'', hret, hok, hmax, hbound, hholds⟩ := ih.ok.put_returns key val
    obtain rfl := returns_unique (put_mono key val) hput hret
    refine ⟨hok, hmax.trans ih.max, fun hpos ↦ ?_, fun key' val' hheld ↦ ?_⟩
    · rw [← ih.max] at hpos ⊢
      exact hbound hpos
    · have hin := ((ih.ok.putKev key val).2 key' val').mp (hholds key' val' hheld)
      by_cases hkey : key' = key
      · rw [if_pos hkey] at hin
        rw [hkey, hin, Function.update_self]
      · rw [if_neg hkey] at hin
        rw [Function.update_of_ne hkey]
        exact ih.last key' val' hin
  | @git har_u last key _ ih =>
    obtain ⟨hok, hmax, hsame⟩ := ih.ok.git key
    refine ⟨hok, hmax.trans ih.max, fun hpos ↦ ?_, fun key' val' hheld ↦ ih.last key' val' ?_⟩
    · have huse : (Hashtable.git mug har_u key).2.use_w = har_u.use_w := by
        rw [hok.use, ih.ok.use]
        simpa using congrArg List.length hsame
      rw [huse]
      exact ih.bound hpos
    · rw [rootHolds_iff_mem_map] at hheld ⊢
      rwa [← hsame]
  | @trim har_u har_u' last fuel n_w _ htrim ih =>
    obtain ⟨har_u'', hret, hok, hmax, huse, hholds⟩ := ih.ok.trimTo n_w
    obtain rfl := returns_unique (fun fuel c h ↦ trimTo_mono n_w fuel _ c h) htrim hret
    refine ⟨hok, hmax.trans ih.max, fun hpos ↦ ?_,
      fun key val hheld ↦ ih.last key val (hholds key val hheld)⟩
    rw [huse]
    exact (Nat.min_le_left _ _).trans (ih.bound hpos)

/-- In every run a table is trimmed to exactly as many entries as it is to be trimmed to, or it has
no more than that. What is found in it afterwards was there before, and is what was put last. -/
theorem trim_exactly (hrun : Caches mug max_w har_u last) (n_w : ℕ) :
    ∃ har_u', Returns (fun fuel ↦ trimTo n_w fuel har_u) har_u' ∧
    har_u'.use_w = min har_u.use_w n_w ∧
      (walk har_u').length = min har_u.use_w n_w ∧
      ∀ key val, (git mug har_u' key).1 = some val →
        (git mug har_u key).1 = some val ∧ last key = some val := by
  obtain ⟨hok, -, -, hlast⟩ := hrun.ok
  obtain ⟨har_u', hret, hok', -, huse, hholds⟩ := hok.trimTo n_w
  refine ⟨har_u', hret, huse, hok'.use.symm.trans huse, fun key val hgit ↦ ?_⟩
  have hheld := hholds key val (hok'.git_eq_some.mp hgit)
  exact ⟨hok.git_eq_some.mpr hheld, hlast key val hheld⟩

/-- A table of two entries that is trimmed to one. -/
theorem trim_exactly_two : ∃ har_u', Returns (fun fuel ↦ trimTo 1 fuel (putKev (fun _ ↦ 5)
    (putKev (fun _ ↦ 5) (newCache 0) (.atom 1) (.atom 2)) (.atom 3) (.atom 4))) har_u' ∧
    har_u'.use_w = 1 := by
  have hrun : Caches (fun _ ↦ 5) 0 (putKev (fun _ ↦ 5)
    (putKev (fun _ ↦ 5) (newCache 0) (.atom 1) (.atom 2))
      (.atom 3) (.atom 4)) _ :=
    @Caches.put _ _ _ _ _ 0 (.atom 3) (.atom 4)
      (@Caches.put _ _ _ _ _ 0 (.atom 1) (.atom 2) Caches.new rfl) rfl
  obtain ⟨har_u', hret, huse, -⟩ := trim_exactly hrun 1
  exact ⟨har_u', hret, huse⟩

end Runs

end Vere.Noun.Hashtable
