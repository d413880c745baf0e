import Vere.Noun.Treap

/-!
# Canonicity of maps and sets

Maps and sets are compared by the equality of nouns, so that the noun has to be a function of what
it holds. A history is any nesting of insertions, deletions and unions from the empty tree. Two
histories whose results hold the same pairs, or the same elements, give the same noun
(`treap_canonical`): the order of keys and the order of their priorities are linear, also where mugs
are equal, and leave one shape. A history that has to compare two of its keys that collide may bail
instead.
-/

set_option autoImplicit false

namespace Vere.Noun

open Lib.Treap Lib.Fuel

/-! ### Histories -/

/-- How a map was made. -/
inductive MapHistory
  | empty : MapHistory
  | put (hist : MapHistory) (k v : Noun) : MapHistory
  | del (hist : MapHistory) (k : Noun) : MapHistory
  | uni (hist more : MapHistory) : MapHistory

/-- How a set was made. -/
inductive SetHistory
  | empty : SetHistory
  | put (hist : SetHistory) (k : Noun) : SetHistory
  | del (hist : SetHistory) (k : Noun) : SetHistory
  | uni (hist more : SetHistory) : SetHistory

/-- The keys that are put and deleted. -/
def MapHistory.keys : MapHistory → Set Noun
  | .empty => ∅
  | .put hist k _ => insert k hist.keys
  | .del hist k => insert k hist.keys
  | .uni hist more => hist.keys ∪ more.keys

/-- The elements that are put and deleted. -/
def SetHistory.keys : SetHistory → Set Noun
  | .empty => ∅
  | .put hist k => insert k hist.keys
  | .del hist k => insert k hist.keys
  | .uni hist more => hist.keys ∪ more.keys

variable (mug : Noun → ℕ)

/-- The map that a history makes, with the fuel that each union gets. -/
def MapHistory.run (fuel : ℕ) : MapHistory → Except Failed Noun
  | .empty => .ok nul
  | .put hist k v => hist.run fuel >>= fun a ↦ qdbPut mug a k v
  | .del hist k => hist.run fuel >>= fun a ↦ qdbDel mug a k
  | .uni hist more => hist.run fuel >>= fun a ↦ more.run fuel >>= fun b ↦ qdbUni mug fuel a b

/-- The set that a history makes, with the fuel that each union gets. -/
def SetHistory.run (fuel : ℕ) : SetHistory → Except Failed Noun
  | .empty => .ok nul
  | .put hist k => hist.run fuel >>= fun a ↦ qdiPut mug a k
  | .del hist k => hist.run fuel >>= fun a ↦ qdiDel mug a k
  | .uni hist more => hist.run fuel >>= fun a ↦ more.run fuel >>= fun b ↦ qdiUni mug fuel a b

/-! ### Results -/

variable {mug}

theorem isMap_nul : IsMap mug nul := ⟨.nil, rfl, isTreap_iff_valid.mpr trivial⟩

theorem isSet_nul : IsSet mug nul := ⟨.nil, rfl, isTreap_iff_valid.mpr trivial⟩

/-- A later part of a history has to do with keys of the history. -/
theorem Colliding.of_insert {keys keys' : Set Noun} {k : Noun} (hsub : ∀ p ∈ keys, p ∈ keys')
    (hcolliding : Colliding mug (insert k keys)) : Colliding mug (insert k keys') :=
  hcolliding.mono fun _ hp ↦ hp.imp_right (hsub _)

theorem Colliding.of_union {keys more keys' more' : Set Noun} (hsub : ∀ p ∈ keys, p ∈ keys')
    (hsub' : ∀ p ∈ more, p ∈ more') (hcolliding : Colliding mug (keys ∪ more)) :
    Colliding mug (keys' ∪ more') :=
  hcolliding.mono fun _ hp ↦ hp.imp (hsub _) (hsub' _)

/-- A step of a history that needs no fuel. -/
theorem yields_bind {why why' : Prop} {run : ℕ → Except Failed Noun}
    {next : Noun → Except Failed Noun} {a c : Noun} (hrun : Yields why run a) (himp : why → why')
    (hnext : GivesOr why' (next a) c) :
    Yields why' (fun fuel ↦ run fuel >>= next) c :=
  (hrun.mono himp).bind hnext.yields

/-- Every history makes a map, unless it bails, and the map holds keys of the history. -/
theorem MapHistory.exists_yields (hist : MapHistory) :
    ∃ a, Yields (Colliding mug hist.keys) (fun fuel ↦ hist.run mug fuel) a ∧ IsMap mug a ∧
      ∀ k ∈ keysOf a, k ∈ hist.keys := by
  induction hist with
  | empty => exact ⟨nul, ⟨0, fun _ _ ↦ .inl rfl⟩, isMap_nul,
    fun k hk ↦ absurd hk (by simp [keysOf, mapOf, nul])⟩
  | put hist k v ih =>
    obtain ⟨a, hrun, hmap, hkeys⟩ := ih
    obtain ⟨c, hput, hmap', hof⟩ := qdbPut_spec hmap k v
    refine ⟨c, yields_bind hrun (.mono · fun _ hp ↦ .inr hp) (hput.mono (.of_insert hkeys)),
      hmap', ?_⟩
    intro p hp
    by_cases hkey : p = k
    · exact .inl hkey
    · rw [keysOf, Set.mem_ofPred_eq, hof, Function.update_of_ne hkey] at hp
      exact .inr (hkeys p hp)
  | del hist k ih =>
    obtain ⟨a, hrun, hmap, hkeys⟩ := ih
    obtain ⟨c, hdel, hmap', hof⟩ := qdbDel_spec hmap k
    refine ⟨c, yields_bind hrun (.mono · fun _ hp ↦ .inr hp) (hdel.mono (.of_insert hkeys)),
      hmap', ?_⟩
    intro p hp
    by_cases hkey : p = k
    · exact .inl hkey
    · rw [keysOf, Set.mem_ofPred_eq, hof, Function.update_of_ne hkey] at hp
      exact .inr (hkeys p hp)
  | uni hist more ih ih' =>
    obtain ⟨a, hrun, hmap, hkeys⟩ := ih
    obtain ⟨b, hrun', hmap', hkeys'⟩ := ih'
    obtain ⟨c, huni, hmap'', hof⟩ := qdbUni_spec hmap hmap'
    refine ⟨c, (hrun.mono (.mono · fun _ hp ↦ .inl hp)).bind
      ((hrun'.mono (.mono · fun _ hp ↦ .inr hp)).bind
      (huni.mono (.of_union hkeys hkeys'))), hmap'', fun p hp ↦ ?_⟩
    rw [keysOf, Set.mem_ofPred_eq, hof, Option.isSome_or, Bool.or_eq_true] at hp
    exact hp.symm.imp (hkeys p) (hkeys' p)

/-- Every history makes a set, unless it bails, and the set holds elements of the history. -/
theorem SetHistory.exists_yields (hist : SetHistory) :
    ∃ a, Yields (Colliding mug hist.keys) (fun fuel ↦ hist.run mug fuel) a ∧ IsSet mug a ∧
      ∀ k ∈ setOf a, k ∈ hist.keys := by
  induction hist with
  | empty => exact ⟨nul, ⟨0, fun _ _ ↦ .inl rfl⟩, isSet_nul,
    fun k hk ↦ absurd hk (by simp [setOf, nul])⟩
  | put hist k ih =>
    obtain ⟨a, hrun, hset, hkeys⟩ := ih
    obtain ⟨c, hput, hset', hof⟩ := qdiPut_spec hset k
    refine ⟨c, yields_bind hrun (.mono · fun _ hp ↦ .inr hp) (hput.mono (.of_insert hkeys)),
      hset', ?_⟩
    rw [hof]
    exact fun p hp ↦ hp.imp_right (hkeys p)
  | del hist k ih =>
    obtain ⟨a, hrun, hset, hkeys⟩ := ih
    obtain ⟨c, hdel, hset', hof⟩ := qdiDel_spec hset k
    refine ⟨c, yields_bind hrun (.mono · fun _ hp ↦ .inr hp) (hdel.mono (.of_insert hkeys)),
      hset', ?_⟩
    rw [hof]
    exact fun p hp ↦ .inr (hkeys p hp.1)
  | uni hist more ih ih' =>
    obtain ⟨a, hrun, hset, hkeys⟩ := ih
    obtain ⟨b, hrun', hset', hkeys'⟩ := ih'
    obtain ⟨c, huni, hset'', hof⟩ := qdiUni_spec hset hset'
    refine ⟨c, (hrun.mono (.mono · fun _ hp ↦ .inl hp)).bind
      ((hrun'.mono (.mono · fun _ hp ↦ .inr hp)).bind
      (huni.mono (.of_union hkeys hkeys'))), hset'', ?_⟩
    rw [hof]
    exact fun p hp ↦ hp.imp (hkeys p) (hkeys' p)

/-- A map is determined by its pairs. -/
theorem IsMap.unique {a b : Noun} (ha : IsMap mug a) (hb : IsMap mug b) (hmap : mapOf a = mapOf b) :
    a = b := by
  obtain ⟨s, rfl, hs⟩ := ha
  obtain ⟨t, rfl, ht⟩ := hb
  rw [isTreap_iff_valid] at hs ht
  rw [hs.unique ht fun m ↦ ?_]
  obtain ⟨k, v⟩ := m
  rw [← mapOf_eq_some hs, ← mapOf_eq_some ht, hmap]

/-- A set is determined by its elements. -/
theorem IsSet.unique {a b : Noun} (ha : IsSet mug a) (hb : IsSet mug b) (hset : setOf a = setOf b) :
    a = b := by
  obtain ⟨s, rfl, hs⟩ := ha
  obtain ⟨t, rfl, ht⟩ := hb
  rw [isTreap_iff_valid] at hs ht
  rw [hs.unique ht fun m ↦ ?_]
  rw [← mem_setOf, ← mem_setOf, hset]

variable (mug)

/-- Every history gives a noun, unless two of its keys collide and it bails, and two histories that
give the same pairs, or the same elements, give the same noun. -/
theorem treap_canonical :
    (∀ hist hist' : MapHistory, ∃ a b,
      Yields (Colliding mug hist.keys) (fun fuel ↦ hist.run mug fuel) a ∧
      Yields (Colliding mug hist'.keys) (fun fuel ↦ hist'.run mug fuel) b ∧
      (mapOf a = mapOf b → a = b)) ∧
    (∀ hist hist' : SetHistory, ∃ a b,
      Yields (Colliding mug hist.keys) (fun fuel ↦ hist.run mug fuel) a ∧
      Yields (Colliding mug hist'.keys) (fun fuel ↦ hist'.run mug fuel) b ∧
      (setOf a = setOf b → a = b)) := by
  constructor
  · intro hist hist'
    obtain ⟨a, hrun, hmap, -⟩ := hist.exists_yields
    obtain ⟨b, hrun', hmap', -⟩ := hist'.exists_yields
    exact ⟨a, b, hrun, hrun', hmap.unique hmap'⟩
  · intro hist hist'
    obtain ⟨a, hrun, hset, -⟩ := hist.exists_yields
    obtain ⟨b, hrun', hset', -⟩ := hist'.exists_yields
    exact ⟨a, b, hrun, hrun', hset.unique hset'⟩

end Vere.Noun
