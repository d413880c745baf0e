import Mathlib.Data.Finmap
import Vere.Lib.Sparse
import Vere.Ur.HashconsDict

/-!
# Off-loom dictionaries

`ur_dict32_t` and `ur_dict64_t` have a value for a reference, and `ur_dict_t` has references only. A
dictionary whose bucket is full grows, and grows again while some bucket cannot take what is dealt
to it. If no eleven keys have one mug, every sequence of operations returns, with the lookups of a
finite map (`dict_run_refines`).
-/

set_option autoImplicit false

namespace Vere.Ur

open Lib Lib.Fuel

/-- `ur_dict32_t` is `Dict UInt32`, `ur_dict64_t` is `Dict UInt64`, and `ur_dict_t` is `Dict Unit`.
-/
abbrev Dict (V : Type) := Pails (Nref × V)

section Operations

variable {V : Type} (mug : Nref → Fin (2 ^ 31))

/-- The mug of an entry. -/
def entryMug (entry : Nref × V) : ℕ := mug entry.1

/-- A dictionary without buckets. -/
def dictNone : Dict V := ⟨0, 0, fun _ ↦ []⟩

/-- `ur_dict32_grow()`, `ur_dict64_grow()` and `ur_dict_grow()`. -/
def dictGrow (fuel prev size : ℕ) (dict : Dict V) : Option (Dict V) :=
  dict.grow pailMax (entryMug mug) fuel prev size

/-- `ur_dict32_get()`, `ur_dict64_get()` and `ur_dict_get()`. -/
def dictGet (dict : Dict V) (ref : Nref) : Option V :=
  ((dict.bucket (mug ref)).find? fun entry ↦ entry.1 = ref).map Prod.snd

/-- `ur_dict32_put()`, `ur_dict64_put()` and `ur_dict_put()`. -/
def dictPut : ℕ → Dict V → Nref → V → Option (Dict V)
  | 0, _, _, _ => none
  | fuel + 1, dict, ref, val =>
    let bucket := dict.bucket (mug ref)
    match bucket.findIdx? fun entry ↦ entry.1 = ref with
    | some i =>
      some { dict with
        pail := Function.update dict.pail (mug ref % dict.size) (bucket.set i (ref, val)) }
    | none =>
      if bucket.length = pailMax then do
        let dict ← dictGrow mug fuel dict.prev dict.size dict
        dictPut fuel dict ref val
      else some (dict.add (mug ref) (ref, val))

/-- An operation on a dictionary. -/
inductive DictOp (V : Type)
  | put (ref : Nref) (val : V)
  | get (ref : Nref)

/-- A sequence of operations, with what the lookups give. -/
def dictRun (fuel : ℕ) : List (DictOp V) → Dict V → Option (Dict V × List (Option V))
  | [], dict => some (dict, [])
  | .put ref val :: ops, dict => do
    let dict ← dictPut mug fuel dict ref val
    dictRun fuel ops dict
  | .get ref :: ops, dict => do
    let (dict', outs) ← dictRun fuel ops dict
    pure (dict', dictGet mug dict ref :: outs)

/-- A sequence of operations on a dictionary that has just been made. -/
def dictRunNew (fuel prev size : ℕ) (ops : List (DictOp V)) :
    Option (Dict V × List (Option V)) := do
  let dict ← dictGrow mug fuel prev size dictNone
  dictRun mug fuel ops dict

/-- The reference: a finite map from references. -/
abbrev RefMap (V : Type) := Finmap fun _ : Nref ↦ V

/-- The operations on a finite map. -/
def mapRun : List (DictOp V) → RefMap V → RefMap V × List (Option V)
  | [], map => (map, [])
  | .put ref val :: ops, map => mapRun ops (map.insert ref val)
  | .get ref :: ops, map => ((mapRun ops map).1, map.lookup ref :: (mapRun ops map).2)

/-- The keys that are put. -/
def putKeys (ops : List (DictOp V)) : List Nref :=
  ops.filterMap fun op ↦ match op with
    | .put ref _ => some ref
    | .get _ => none

end Operations

/-! ### Dictionaries are finite maps -/

section Refinement

variable {V : Type} {mug : Nref → Fin (2 ^ 31)}

/-- A dictionary holds the entries of a map, each once and in the bucket of its mug, and no bucket
overflows. -/
structure DictOk (mug : Nref → Fin (2 ^ 31)) (dict : Dict V) (map : RefMap V) : Prop where
  has : dict.Has (entryMug mug) fun entry ↦ map.lookup entry.1 = some entry.2
  fit : dict.Fit pailMax (entryMug mug)
  nodup : ∀ i < dict.size, ((dict.pail i).map Prod.fst).Nodup

variable {dict dict' : Dict V} {map : RefMap V} {ref : Nref} {val : V}

theorem mem_bucket_iff (hok : DictOk mug dict map) :
    (ref, val) ∈ dict.bucket (mug ref) ↔ map.lookup ref = some val := by
  constructor
  · intro hmem
    exact (hok.has.mem _ _ (Nat.mod_lt _ hok.has.pos) hmem).1
  · intro hlookup
    exact hok.has.has (ref, val) hlookup

/-- Lookups return what the map returns. -/
theorem DictOk.get_eq (hok : DictOk mug dict map) (ref : Nref) :
    dictGet mug dict ref = map.lookup ref := by
  refine Option.ext fun val ↦ ?_
  rw [← mem_bucket_iff hok, dictGet, Option.map_eq_some_iff]
  constructor
  · rintro ⟨⟨ref', val'⟩, hfind, rfl⟩
    obtain rfl : ref' = ref := by simpa using List.find?_some hfind
    exact List.mem_of_find?_eq_some hfind
  · intro hmem
    have hsome : ((dict.bucket (mug ref)).find? fun entry ↦ entry.1 = ref).isSome := by
      rw [List.find?_isSome]
      exact ⟨_, hmem, by simp⟩
    obtain ⟨⟨ref', val'⟩, hfind⟩ := Option.isSome_iff_exists.mp hsome
    obtain rfl : ref' = ref := by simpa using List.find?_some hfind
    refine ⟨(ref', val'), hfind, ?_⟩
    have hlookup := (mem_bucket_iff hok).mp (List.mem_of_find?_eq_some hfind)
    rw [(mem_bucket_iff hok).mp hmem] at hlookup
    exact (Option.some.inj hlookup).symm

/-- Every entry is there once. -/
theorem DictOk.all_nodup (hok : DictOk mug dict map) : (dict.all.map Prod.fst).Nodup :=
  @Pails.Fit.all_nodup _ _ _ _ Prod.fst (fun ref ↦ mug ref) hok.fit hok.nodup

/-- A list of entries with different keys is not longer than a set that has its keys. -/
theorem length_le_card {entries : List (Nref × V)} (hnodup : (entries.map Prod.fst).Nodup)
    {keys : Finset Nref} (hsub : ∀ entry ∈ entries, entry.1 ∈ keys) :
    entries.length ≤ keys.card := by
  rw [← List.length_map Prod.fst, ← List.toFinset_card_of_nodup hnodup]
  refine Finset.card_le_card fun ref href ↦ ?_
  obtain ⟨entry, hentry, rfl⟩ := List.mem_map.mp (List.mem_toFinset.mp href)
  exact hsub entry hentry

variable {keys : Finset Nref}

/-- Growing returns and keeps every entry. -/
theorem DictOk.grow (hok : DictOk mug dict map) :
    ∃ dict', Returns (fun fuel ↦ dictGrow mug fuel dict.prev dict.size dict) dict' ∧
    DictOk mug dict' map ∧
      dict.prev + dict.size ≤ dict'.size ∧ dict.size ≤ dict'.prev ∧
      dict'.size ≤ max (dict.prev + dict.size) (2 ^ 32) := by
  have hpos := hok.has.pos
  obtain ⟨dict', ⟨need, hneed⟩, hfit, hsize, hprev, hmost, hpail⟩ :=
    hok.fit.exists_grow fun entry _ ↦ (mug entry.1).isLt
  refine ⟨dict', ⟨need, hneed⟩, ⟨?_, hfit, fun i _ ↦ ?_⟩, hsize, hprev, hmost⟩
  · exact hok.has.grow (by omega) (hneed need (Nat.le_refl _))
  · rw [hpail]
    exact hok.all_nodup.sublist (List.filter_sublist.map Prod.fst)

/-- A bucket that is full where the buckets are as many as the mugs has no place for another key of
its mug, and then there would be too many of them. -/
theorem DictOk.size_lt (hok : DictOk mug dict map) (hspread : Spread mug keys)
    (hsub : ∀ ref ∈ map, ref ∈ keys) (href : ref ∈ keys)
    (hnew : ∀ entry ∈ dict.bucket (mug ref), entry.1 ≠ ref)
    (hfull : (dict.bucket (mug ref)).length = pailMax) : dict.size < 2 ^ 31 := by
  by_contra hlarge
  have hcount : (dict.bucket (mug ref)).length ≤
      ((keys.filter fun key ↦ mug key = mug ref).erase ref).card := by
    refine length_le_card (hok.nodup _ (Nat.mod_lt _ hok.has.pos)) fun entry hentry ↦ ?_
    obtain ⟨hlookup, -⟩ := hok.has.mem _ _ (Nat.mod_lt _ hok.has.pos) hentry
    have hmug := hok.fit.hash_eq (fun _ entry _ ↦ (mug entry.1).isLt) (Nat.le_of_not_lt hlarge)
      (mug ref).isLt hentry
    rw [Finset.mem_erase, Finset.mem_filter]
    exact ⟨hnew entry hentry, hsub _ (Finmap.mem_of_lookup_eq_some hlookup), Fin.ext hmug⟩
  have hmem : ref ∈ keys.filter fun key ↦ mug key = mug ref := by
    rw [Finset.mem_filter]
    exact ⟨href, rfl⟩
  have hten := hspread (mug ref)
  rw [Finset.card_erase_of_mem hmem, hfull] at hcount
  have hpos := Finset.card_pos.mpr ⟨ref, hmem⟩
  omega

/-- Replacing the value of a key. -/
theorem DictOk.set (hok : DictOk mug dict map) {i : ℕ}
    (hfind : ((dict.bucket (mug ref)).findIdx? fun entry ↦ entry.1 = ref) = some i) (val : V) :
    DictOk mug { dict with
      pail := Function.update dict.pail (mug ref % dict.size)
        ((dict.bucket (mug ref)).set i (ref, val)) }
      (map.insert ref val) := by
  have hidx : (mug ref : ℕ) % dict.size < dict.size := Nat.mod_lt _ hok.has.pos
  obtain ⟨hlt, hkey, -⟩ := List.findIdx?_eq_some_iff_getElem.mp hfind
  have hkey : (dict.bucket (mug ref))[i].1 = ref := by simpa using hkey
  have hnodup : ((dict.bucket (mug ref)).map Prod.fst).Nodup := hok.nodup _ hidx
  obtain ⟨before, after, hsplit, hset, -⟩ := Sparse.exists_split (List.getElem?_eq_getElem hlt)
  generalize (dict.bucket (mug ref))[i] = old at hkey hsplit
  subst hkey
  have hother : ∀ entry ∈ before ++ after, entry.1 ≠ old.1 := by
    intro entry hentry hsame
    rw [hsplit, (List.perm_middle.map Prod.fst).nodup_iff, List.map_cons, List.nodup_cons] at hnodup
    exact hnodup.1 (List.mem_map.mpr ⟨entry, hentry, hsame⟩)
  have hmem : ∀ entry, entry ∈ (dict.bucket (mug old.1)).set i (old.1, val) ↔
      entry = (old.1, val) ∨ entry ∈ before ++ after := by
    intro entry
    rw [hset, List.perm_middle.mem_iff, List.mem_cons]
  have hhad : ∀ entry, entry ∈ dict.bucket (mug old.1) ↔ entry = old ∨ entry ∈ before ++ after := by
    intro entry
    rw [hsplit, List.perm_middle.mem_iff, List.mem_cons]
  have hmugs : ∀ j entry, j < dict.size → entry ∈ Function.update dict.pail (mug old.1 % dict.size)
      ((dict.bucket (mug old.1)).set i (old.1, val)) j →
      (map.insert old.1 val).lookup entry.1 = some entry.2 ∧
      entryMug mug entry % dict.size = j := by
    intro j entry hj hentry
    by_cases heq : j = mug old.1 % dict.size
    · rw [heq, Function.update_self, hmem] at hentry
      obtain rfl | hentry := hentry
      · exact ⟨Finmap.lookup_insert map, heq.symm⟩
      · obtain ⟨hlookup, hmug⟩ := hok.has.mem _ entry hidx ((hhad entry).mpr (Or.inr hentry))
        exact ⟨(Finmap.lookup_insert_of_ne map (hother entry hentry)).trans hlookup,
          hmug.trans heq.symm⟩
    · rw [Function.update_of_ne heq] at hentry
      obtain ⟨hlookup, hmug⟩ := hok.has.mem j entry hj hentry
      refine ⟨(Finmap.lookup_insert_of_ne map fun hsame ↦ heq ?_).trans hlookup, hmug⟩
      rw [← hmug, entryMug, hsame]
  refine ⟨⟨hok.has.pos, hmugs, fun entry hlookup ↦ ?_⟩,
    ⟨hok.has.pos, fun j entry hj hentry ↦ (hmugs j entry hj hentry).2, fun j ↦ ?_, hok.fit.prev⟩,
    fun j hj ↦ ?_⟩
  · show entry ∈
      Function.update dict.pail (mug old.1 % dict.size) _ (entryMug mug entry % dict.size)
    by_cases hsame : entry.1 = old.1
    · rw [hsame, Finmap.lookup_insert] at hlookup
      rw [entryMug, hsame, Function.update_self, hmem]
      exact Or.inl (Prod.ext hsame (Option.some.inj hlookup).symm)
    · rw [Finmap.lookup_insert_of_ne map hsame] at hlookup
      have hin := hok.has.has entry hlookup
      by_cases heq : entryMug mug entry % dict.size = mug old.1 % dict.size
      · rw [Pails.bucket, heq] at hin
        rw [heq, Function.update_self, hmem]
        refine Or.inr (((hhad entry).mp hin).resolve_left fun hold ↦ hsame ?_)
        rw [hold]
      · rw [Function.update_of_ne heq]
        exact hin
  · dsimp only
    by_cases heq : j = mug old.1 % dict.size
    · rw [heq, Function.update_self, List.length_set]
      exact hok.fit.fill _
    · rw [Function.update_of_ne heq]
      exact hok.fit.fill j
  · dsimp only
    by_cases heq : j = mug old.1 % dict.size
    · rw [heq, Function.update_self, hset]
      rw [hsplit] at hnodup
      simpa only [List.map_append, List.map_cons] using hnodup
    · rw [Function.update_of_ne heq]
      exact hok.nodup j hj

/-- Adding a key whose bucket has room. -/
theorem DictOk.add (hok : DictOk mug dict map)
    (hnew : ∀ entry ∈ dict.bucket (mug ref), entry.1 ≠ ref)
    (hroom : (dict.bucket (mug ref)).length ≠ pailMax) (val : V) :
    DictOk mug (dict.add (mug ref) (ref, val)) (map.insert ref val) := by
  have hidx : (mug ref : ℕ) % dict.size < dict.size := Nat.mod_lt _ hok.has.pos
  have hnone : map.lookup ref = none := by
    rw [Option.eq_none_iff_forall_ne_some]
    intro old hlookup
    exact hnew (ref, old) ((mem_bucket_iff hok).mpr hlookup) rfl
  refine ⟨(hok.has.add (ref, val)).congr fun entry ↦ ?_, hok.fit.add (ref, val) hroom,
    fun j hj ↦ ?_⟩
  · by_cases hsame : entry.1 = ref
    · rw [hsame, Finmap.lookup_insert, hnone, Option.some.injEq]
      constructor
      · rintro (hold | rfl)
        · cases hold
        · rfl
      · intro hval
        exact Or.inr (Prod.ext hsame hval.symm)
    · rw [Finmap.lookup_insert_of_ne map hsame, or_iff_left]
      rintro rfl
      exact hsame rfl
  · show ((Function.update dict.pail (mug ref % dict.size)
      (dict.bucket (mug ref) ++ [(ref, val)]) j).map Prod.fst).Nodup
    by_cases heq : j = mug ref % dict.size
    · rw [heq, Function.update_self, List.map_append, List.map_singleton, List.nodup_append']
      refine ⟨hok.nodup _ hidx, List.nodup_singleton _, ?_⟩
      rw [List.disjoint_singleton, List.mem_map]
      rintro ⟨entry, hentry, hsame⟩
      exact hnew entry hentry hsame
    · rw [Function.update_of_ne heq]
      exact hok.nodup j hj

theorem dictPut_succ (fuel : ℕ) (dict : Dict V) (ref : Nref) (val : V) :
    dictPut mug (fuel + 1) dict ref val =
    match (dict.bucket (mug ref)).findIdx? fun entry ↦ entry.1 = ref with
    | some i => some { dict with
        pail := Function.update dict.pail (mug ref % dict.size)
          ((dict.bucket (mug ref)).set i (ref, val)) }
    | none =>
      if (dict.bucket (mug ref)).length = pailMax then
        (dictGrow mug fuel dict.prev dict.size dict).bind fun dict ↦ dictPut mug fuel dict ref val
      else some (dict.add (mug ref) (ref, val)) := rfl

/-- Putting returns: each time the dictionary grows, the two last sizes together are more, and from
as many buckets on as there are mugs the bucket has room. -/
theorem DictOk.put (hok : DictOk mug dict map) (hspread : Spread mug keys)
    (hsub : ∀ ref ∈ map, ref ∈ keys) (href : ref ∈ keys) (val : V) :
    ∃ dict', Returns (fun fuel ↦ dictPut mug fuel dict ref val) dict' ∧
    DictOk mug dict' (map.insert ref val) ∧
      dict'.size ≤ max dict.size (2 ^ 32) := by
  obtain ⟨left, hleft⟩ : ∃ left, left = 2 ^ 32 - (dict.prev + dict.size) := ⟨_, rfl⟩
  induction left using Nat.strongRecOn generalizing dict with
  | _ left ih =>
    cases hfind : (dict.bucket (mug ref)).findIdx? fun entry ↦ entry.1 = ref with
    | some i =>
      refine ⟨_, Returns.succ fun fuel ↦ ?_, hok.set hfind val, le_max_left _ _⟩
      rw [dictPut_succ, hfind]
    | none =>
      have hnew : ∀ entry ∈ dict.bucket (mug ref), entry.1 ≠ ref := by
        simpa using List.findIdx?_eq_none_iff.mp hfind
      by_cases hfull : (dict.bucket (mug ref)).length = pailMax
      · have hsize := hok.size_lt hspread hsub href hnew hfull
        have hprev := hok.fit.prev
        have hpos := hok.has.pos
        obtain ⟨grown, hgrow, hok', hmore, hmore', hmost⟩ := hok.grow
        obtain ⟨dict', hret, hok'', hmost'⟩ :=
          ih (2 ^ 32 - (grown.prev + grown.size)) (by omega) hok' rfl
        have hboth :=
          @Returns.bind _ _ _ _ _ (fun fuel dict ↦ dictPut mug fuel dict ref val) hgrow hret
        refine ⟨dict', hboth.of_succ fun fuel ↦ ?_, hok'', by omega⟩
        rw [dictPut_succ, hfind]
        exact if_pos hfull
      · refine ⟨_, Returns.succ fun fuel ↦ ?_, hok.add hnew hfull val, le_max_left _ _⟩
        rw [dictPut_succ, hfind]
        exact if_neg hfull

/-- A sequence of operations returns, with the lookups of the map. -/
theorem DictOk.run (ops : List (DictOp V)) (hok : DictOk mug dict map) (hspread : Spread mug keys)
    (hsub : ∀ ref ∈ map, ref ∈ keys) (hkeys : ∀ ref ∈ putKeys ops, ref ∈ keys) :
    ∃ dict', Returns (fun fuel ↦ dictRun mug fuel ops dict) (dict', (mapRun ops map).2) ∧
      DictOk mug dict' (mapRun ops map).1 ∧ dict'.size ≤ max dict.size (2 ^ 32) := by
  induction ops generalizing dict map with
  | nil => exact ⟨dict, Returns.pure, hok, le_max_left _ _⟩
  | cons op ops ih =>
    cases op with
    | put ref val =>
      have hkeys' : ref ∈ keys ∧ ∀ ref ∈ putKeys ops, ref ∈ keys := by
        simpa [putKeys] using hkeys
      obtain ⟨dict₁, hput, hok₁, hsize⟩ := hok.put hspread hsub hkeys'.1 val
      have hsub₁ : ∀ ref' ∈ map.insert ref val, ref' ∈ keys := by
        intro ref' hmem
        rw [Finmap.mem_insert] at hmem
        obtain rfl | hmem := hmem
        · exact hkeys'.1
        · exact hsub ref' hmem
      obtain ⟨dict', hret, hok', hsize'⟩ := ih hok₁ hsub₁ hkeys'.2
      exact ⟨dict', hput.bind hret, hok', by omega⟩
    | get ref =>
      have hkeys' : ∀ ref ∈ putKeys ops, ref ∈ keys := by
        simpa [putKeys] using hkeys
      obtain ⟨dict', hret, hok', hrest⟩ := ih hok hsub hkeys'
      refine ⟨dict', ?_, hok', hrest⟩
      have hnext := hret.map fun ran : Dict V × List (Option V) ↦
        (ran.1, dictGet mug dict ref :: ran.2)
      rw [hok.get_eq] at hnext
      refine hnext.congr fun fuel ↦ ?_
      rw [← hok.get_eq]
      show _ = (dictRun mug fuel ops dict).bind fun ran ↦ some (ran.1,
        dictGet mug dict ref :: ran.2)
      rw [Option.map_eq_bind]
      rfl

/-- A dictionary that has just been made is the empty map. -/
theorem dictOk_new {prev size : ℕ} (hpos : 0 < prev + size) :
    DictOk mug (⟨size, prev + size, fun _ ↦ []⟩ : Dict V) ∅ :=
  ⟨(Pails.has_empty hpos).congr fun entry ↦ ⟨False.elim, by simp⟩,
    Pails.fit_empty hpos (Nat.le_add_left _ _), fun _ _ ↦ List.nodup_nil⟩

/-- If no mug has more than ten of the keys that are put, every sequence of operations on a new
dictionary returns, with the lookups and the entries of a finite map. No bucket overflows, the
number of buckets stays within 64 bits, and to grow once more returns and keeps every entry. -/
theorem dict_run_refines (mug : Nref → Fin (2 ^ 31)) {prev size : ℕ} (hpos : 0 < prev + size)
    (ops : List (DictOp V))
    (hspread : ∀ mug_w, ((putKeys ops).toFinset.filter fun ref ↦ mug ref = mug_w).card ≤ pailMax) :
    ∃ dict, Returns (fun fuel ↦ dictRunNew mug fuel prev size ops) (dict, (mapRun ops ∅).2) ∧
      (∀ ref, dictGet mug dict ref = (mapRun ops ∅).1.lookup ref) ∧
      (∀ i, (dict.pail i).length ≤ pailMax) ∧ dict.size ≤ max (prev + size) (2 ^ 32) ∧
      ∃ dict', Returns (fun fuel ↦ dictGrow mug fuel dict.prev dict.size dict) dict' ∧
        ∀ ref, dictGet mug dict' ref = dictGet mug dict ref := by
  have hnew : Returns (fun fuel ↦ dictGrow mug fuel prev size (dictNone : Dict V)) ⟨size,
    prev + size, fun _ ↦ []⟩ :=
    Returns.succ fun fuel ↦ rfl
  have hsub : ∀ ref ∈ (∅ : RefMap V), ref ∈ (putKeys ops).toFinset :=
    fun ref hmem ↦ absurd hmem Finmap.notMem_empty
  obtain ⟨dict, hret, hok, hsize⟩ :=
    (dictOk_new hpos).run ops hspread hsub fun ref href ↦ List.mem_toFinset.mpr href
  obtain ⟨dict', hgrow, hok', -⟩ := hok.grow
  refine ⟨dict, hnew.bind hret, hok.get_eq, hok.fit.fill, hsize, dict', hgrow, fun ref ↦ ?_⟩
  rw [hok.get_eq, hok'.get_eq]

/-- Mugs have 31 bits. -/
local instance neZeroEleven : NeZero (2 ^ 31) := ⟨by decide⟩

/-- The mug of eleven keys, of which one differs from the others. -/
def mugEleven (ref : Nref) : Fin (2 ^ 31) := if ref = .direct 10 then 1 else 0

/-- Eleven keys are put in a dictionary that starts with one bucket. -/
theorem dict_run_refines_eleven : ∃ dict, Returns (fun fuel ↦ dictRunNew mugEleven fuel 0 1
      ((List.range 11).map fun a ↦ DictOp.put (.direct a) ())) (dict, []) ∧
    dictGet mugEleven dict (.direct 10) = some () := by
  have hspread :
    ∀ mug_w, ((putKeys ((List.range 11).map fun a ↦ DictOp.put (.direct a) ())).toFinset.filter
      fun ref ↦ mugEleven ref = mug_w).card ≤ pailMax := by
    intro mug_w
    by_cases hzero : mug_w = 0
    · subst hzero
      decide
    · by_cases hone : mug_w = 1
      · subst hone
        decide
      · rw [Finset.filter_eq_empty_iff.mpr]
        · exact Nat.zero_le _
        · intro ref _
          rw [mugEleven]
          split_ifs
          · exact Ne.symm hone
          · exact Ne.symm hzero
  obtain ⟨dict, hret, hget, -⟩ := dict_run_refines mugEleven (show 0 < 0 + 1 by decide) _ hspread
  exact ⟨dict, hret, hget (.direct 10)⟩

end Refinement

end Vere.Ur
