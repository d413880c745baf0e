import Mathlib.Data.Finmap
import Vere.Noun.Hashtable

/-!
# Hash tables are finite maps

A family of hash tables without a size limit is run beside a family of finite maps keyed by noun
equality. Every operation on a table is the operation of the map, except that trimming may remove
any keys: `run_refines_maps`.
-/

set_option autoImplicit false

namespace Vere.Noun.Hashtable

open Lib.Fuel

/-- The reference: a finite map keyed by noun equality. -/
abbrev Map := Finmap fun _ : Noun ↦ Noun

variable (mug : Noun → Fin (2 ^ 31))

/-- A table without a size limit is in order and holds the entries of a map. -/
structure Denotes (har_u : Root) (map : Map) : Prop where
  ok : RootOk mug har_u
  max : har_u.max_w = 0
  lookup : ∀ key val, map.lookup key = some val ↔ RootHolds har_u key val

section Operations

variable {mug} {har_u har_u' rah_u : Root} {map : Map}

theorem denotes_new : Denotes mug new ∅ := by
  have hwalk : walk new = [] := by simp [walk, new, newCache, cellsOf]
  refine ⟨⟨fun inx_w sot_w hslot ↦ ?_, ?_, ?_⟩, rfl, fun key val ↦ ?_⟩
  · simp [new, newCache] at hslot
  · rw [hwalk]
    rfl
  · simp [new, newCache]
  · simp [RootHolds, hwalk]

/-- Lookups return what the map returns. -/
theorem Denotes.git_eq (hden : Denotes mug har_u map) (key : Noun) :
    (git mug har_u key).1 = map.lookup key := by
  refine Option.ext fun val ↦ ?_
  rw [hden.lookup, hden.ok.git_eq_some]

theorem Denotes.keys_eq (hden : Denotes mug har_u map) :
    map.keys = ((walk har_u).map fun kev ↦ kev.1.key).toFinset := by
  ext key
  rw [Finmap.mem_keys, Finmap.mem_iff, List.mem_toFinset, List.mem_map]
  constructor
  · rintro ⟨val, hlookup⟩
    obtain ⟨warm, hmem⟩ := (hden.lookup key val).mp hlookup
    exact ⟨_, hmem, rfl⟩
  · rintro ⟨⟨⟨key', val⟩, warm⟩, hmem, rfl⟩
    exact ⟨val, (hden.lookup _ val).mpr ⟨warm, hmem⟩⟩

theorem Denotes.use_eq (hden : Denotes mug har_u map) : har_u.use_w = map.keys.card := by
  rw [hden.keys_eq, List.toFinset_card_of_nodup hden.ok.nodup, List.length_map]
  exact hden.ok.use

/-- Every table in order denotes a map. -/
theorem exists_denotes (hok : RootOk mug har_u) (hmax : har_u.max_w = 0) :
    ∃ map, Denotes mug har_u map := by
  have hnodup : ((walk har_u).map fun kev ↦
      (⟨kev.1.key, kev.1.val⟩ : Sigma fun _ : Noun ↦ Noun)).NodupKeys := by
    have hkeys := hok.nodup
    simpa [List.NodupKeys, List.keys, Function.comp_def] using hkeys
  refine ⟨List.toFinmap ((walk har_u).map fun kev ↦ ⟨kev.1.key, kev.1.val⟩), hok, hmax,
    fun key val ↦ ?_⟩
  rw [Finmap.dlookup_list_toFinmap, ← Option.mem_def, List.mem_dlookup_iff hnodup]
  simp only [RootHolds, List.mem_map, Sigma.mk.injEq]
  constructor
  · rintro ⟨⟨⟨key', val'⟩, warm⟩, hmem, rfl, heq⟩
    obtain rfl := eq_of_heq heq
    exact ⟨warm, hmem⟩
  · rintro ⟨warm, hmem⟩
    exact ⟨_, hmem, rfl, HEq.rfl⟩

/-- `u3h_git()` keeps the map. -/
theorem Denotes.git (hden : Denotes mug har_u map) (key : Noun) :
    Denotes mug (git mug har_u key).2 map := by
  obtain ⟨hok, hmax, hwalk⟩ := hden.ok.git key
  refine ⟨hok, hmax.trans hden.max, fun key' val' ↦ ?_⟩
  rw [hden.lookup, rootHolds_iff_mem_map, rootHolds_iff_mem_map, hwalk]

theorem Denotes.put (hden : Denotes mug har_u map) (key val : Noun) :
    ∃ har_u', (∀ fuel, put mug fuel har_u key val = some har_u') ∧
      Denotes mug har_u' (map.insert key val) := by
  obtain ⟨har_u', hput, hok, hmax, hholds⟩ := hden.ok.put hden.max key val
  refine ⟨har_u', hput, hok, hmax, fun key' val' ↦ ?_⟩
  rw [hholds]
  by_cases hkey : key' = key
  · subst hkey
    rw [Finmap.lookup_insert, if_pos rfl, Option.some.injEq, eq_comm]
  · rw [Finmap.lookup_insert_of_ne _ hkey, if_neg hkey, hden.lookup]

/-- The map after putting a list of entries. -/
def insertAll (kevs : List (Kev × Bool)) (map : Map) : Map :=
  kevs.foldl (fun map kev ↦ map.insert kev.1.key kev.1.val) map

theorem Denotes.putAll (kevs : List (Kev × Bool)) (hden : Denotes mug har_u map) :
    ∃ har_u', (∀ fuel, kevs.foldlM
        (fun har_u kev ↦ Hashtable.put mug fuel har_u kev.1.key kev.1.val) har_u = some har_u') ∧
      Denotes mug har_u' (insertAll kevs map) := by
  induction kevs generalizing har_u map with
  | nil => exact ⟨har_u, fun _ ↦ rfl, hden⟩
  | cons kev kevs ih =>
    obtain ⟨har_u₁, hput, hden₁⟩ := hden.put kev.1.key kev.1.val
    obtain ⟨har_u', hputs, hden'⟩ := ih hden₁
    refine ⟨har_u', fun fuel ↦ ?_, hden'⟩
    rw [List.foldlM_cons, hput]
    exact hputs fuel

/-- Entries of different keys that are put into a map win over its own. -/
theorem lookup_insertAll {kevs : List (Kev × Bool)}
    (hnodup : (kevs.map fun kev ↦ kev.1.key).Nodup) (map : Map) (key : Noun) :
    (∀ kev ∈ kevs, kev.1.key = key → (insertAll kevs map).lookup key = some kev.1.val) ∧
      ((∀ kev ∈ kevs, kev.1.key ≠ key) → (insertAll kevs map).lookup key = map.lookup key) := by
  induction kevs generalizing map with
  | nil => exact ⟨by simp, fun _ ↦ rfl⟩
  | cons kov kevs ih =>
    obtain ⟨hnot, hnodup⟩ := List.nodup_cons.mp hnodup
    obtain ⟨hin, hout⟩ := ih hnodup (map.insert kov.1.key kov.1.val)
    constructor
    · intro kev hmem hkey
      rcases List.mem_cons.mp hmem with rfl | hmem
      · refine (hout fun kev' hmem' heq ↦ hnot ?_).trans ?_
        · exact List.mem_map.mpr ⟨kev', hmem', heq.trans hkey.symm⟩
        · rw [← hkey, Finmap.lookup_insert]
      · exact hin kev hmem hkey
    · intro hother
      refine (hout fun kev hmem ↦ hother kev (List.mem_cons_of_mem _ hmem)).trans ?_
      exact Finmap.lookup_insert_of_ne _ (Ne.symm (hother kov List.mem_cons_self))

theorem Denotes.uni {pam : Map} (hden : Denotes mug har_u map) (hden' : Denotes mug rah_u pam) :
    ∃ har_u', (∀ fuel, uni mug fuel har_u rah_u = some har_u') ∧
      Denotes mug har_u' (pam ∪ map) := by
  obtain ⟨har_u', huni, hall⟩ := hden.putAll (walk rah_u)
  have hunion : insertAll (walk rah_u) map = pam ∪ map := by
    refine Finmap.ext_lookup fun key ↦ ?_
    obtain ⟨hin, hout⟩ := lookup_insertAll hden'.ok.nodup map key
    by_cases hmem : key ∈ pam
    · obtain ⟨val, hval⟩ := Finmap.mem_iff.mp hmem
      obtain ⟨warm, hentry⟩ := (hden'.lookup key val).mp hval
      rw [Finmap.lookup_union_left hmem, hval]
      exact hin _ hentry rfl
    · rw [Finmap.lookup_union_right hmem]
      refine hout fun kev hentry heq ↦ hmem (Finmap.mem_iff.mpr ⟨kev.1.val, ?_⟩)
      rw [hden'.lookup, ← heq]
      exact ⟨kev.2, hentry⟩
  exact ⟨har_u', huni, hunion ▸ hall⟩

theorem Denotes.trimTo (hden : Denotes mug har_u map) (n_w : ℕ) :
    ∃ har_u' map', Returns (fun fuel ↦ trimTo n_w fuel har_u) har_u' ∧ Denotes mug har_u' map' ∧
      map'.keys.card = min map.keys.card n_w ∧
      ∀ key val, map'.lookup key = some val → map.lookup key = some val := by
  obtain ⟨har_u', hret, hok, hmax, huse, hheld⟩ := hden.ok.trimTo n_w
  obtain ⟨map', hden'⟩ := exists_denotes hok (hmax.trans hden.max)
  refine ⟨har_u', map', hret, hden', ?_, fun key val hlookup ↦ ?_⟩
  · rw [← hden'.use_eq, ← hden.use_eq, huse]
  · exact (hden.lookup key val).mpr (hheld key val ((hden'.lookup key val).mp hlookup))

end Operations

/-! ### Runs -/

/-- An operation on a family of tables. -/
inductive Op
  | put (tab : ℕ) (key val : Noun) : Op
  | get (tab : ℕ) (key : Noun) : Op
  | git (tab : ℕ) (key : Noun) : Op
  | uni (tab bat : ℕ) : Op
  | trimTo (tab n_w : ℕ) : Op

/-- Carry out an operation; the second result is that of a lookup. -/
def step (fuel : ℕ) (tabs : ℕ → Root) : Op → Option ((ℕ → Root) × Option Noun)
  | .put tab key val => do
    let har_u ← put mug fuel (tabs tab) key val
    pure (Function.update tabs tab har_u, none)
  | .get tab key =>
    let (pro, har_u) := get mug (tabs tab) key
    some (Function.update tabs tab har_u, pro)
  | .git tab key =>
    let (pro, har_u) := git mug (tabs tab) key
    some (Function.update tabs tab har_u, pro)
  | .uni tab bat => do
    let har_u ← uni mug fuel (tabs tab) (tabs bat)
    pure (Function.update tabs tab har_u, none)
  | .trimTo tab n_w => do
    let har_u ← trimTo n_w fuel (tabs tab)
    pure (Function.update tabs tab har_u, none)

/-- Carry out a sequence of operations. -/
def run (fuel : ℕ) : List Op → (ℕ → Root) → Option ((ℕ → Root) × List (Option Noun))
  | [], tabs => some (tabs, [])
  | op :: ops, tabs => do
    let (tabs, pro) ← step mug fuel tabs op
    let (tabs, pros) ← run fuel ops tabs
    pure (tabs, pro :: pros)

/-- What an operation does to the reference maps. Trimming may remove any keys. -/
inductive RefStep (maps : ℕ → Map) : Op → (ℕ → Map) → Option Noun → Prop
  | put (tab : ℕ) (key val : Noun) :
    RefStep maps (.put tab key val) (Function.update maps tab ((maps tab).insert key val)) none
  | get (tab : ℕ) (key : Noun) : RefStep maps (.get tab key) maps ((maps tab).lookup key)
  | git (tab : ℕ) (key : Noun) : RefStep maps (.git tab key) maps ((maps tab).lookup key)
  | uni (tab bat : ℕ) :
    RefStep maps (.uni tab bat) (Function.update maps tab (maps bat ∪ maps tab)) none
  | trimTo (tab n_w : ℕ) (map : Map) (hcard : map.keys.card = min (maps tab).keys.card n_w)
      (hsub : ∀ key val, map.lookup key = some val → (maps tab).lookup key = some val) :
    RefStep maps (.trimTo tab n_w) (Function.update maps tab map) none

/-- What a sequence of operations does to the reference maps. -/
inductive RefRun : (ℕ → Map) → List Op → (ℕ → Map) → List (Option Noun) → Prop
  | nil (maps : ℕ → Map) : RefRun maps [] maps []
  | cons {maps maps₁ maps₂ : ℕ → Map} {op : Op} {ops : List Op} {pro : Option Noun}
      {pros : List (Option Noun)} (hstep : RefStep maps op maps₁ pro)
      (hrun : RefRun maps₁ ops maps₂ pros) : RefRun maps (op :: ops) maps₂ (pro :: pros)

section Runs

variable {mug} {tabs : ℕ → Root} {maps : ℕ → Map}

theorem denotes_update (hden : ∀ tab, Denotes mug (tabs tab) (maps tab)) (tab : ℕ) {har_u : Root}
    {map : Map} (htab : Denotes mug har_u map) (tab' : ℕ) :
    Denotes mug (Function.update tabs tab har_u tab') (Function.update maps tab map tab') := by
  by_cases heq : tab' = tab
  · subst heq
    simpa using htab
  · simpa [Function.update_of_ne heq] using hden tab'

/-- Every operation returns and does what the reference does. -/
theorem step_refines (hden : ∀ tab, Denotes mug (tabs tab) (maps tab)) (op : Op) :
    ∃ tabs' pro maps', Returns (fun fuel ↦ step mug fuel tabs op) (tabs', pro) ∧
      RefStep maps op maps' pro ∧ ∀ tab, Denotes mug (tabs' tab) (maps' tab) := by
  cases op with
  | put tab key val =>
    obtain ⟨har_u, hput, htab⟩ := (hden tab).put key val
    refine ⟨_, none, _, ⟨0, fun fuel _ ↦ ?_⟩, .put tab key val, denotes_update hden tab htab⟩
    simp only [step, hput]
    rfl
  | get tab key =>
    refine ⟨_, _, maps, Returns.pure, (hden tab).git_eq key ▸ .get tab key, fun tab' ↦ ?_⟩
    have htab := denotes_update hden tab ((hden tab).git key) tab'
    rwa [Function.update_eq_self] at htab
  | git tab key =>
    refine ⟨_, _, maps, Returns.pure, (hden tab).git_eq key ▸ .git tab key, fun tab' ↦ ?_⟩
    have htab := denotes_update hden tab ((hden tab).git key) tab'
    rwa [Function.update_eq_self] at htab
  | uni tab bat =>
    obtain ⟨har_u, huni, htab⟩ := (hden tab).uni (hden bat)
    refine ⟨_, none, _, ⟨0, fun fuel _ ↦ ?_⟩, .uni tab bat, denotes_update hden tab htab⟩
    simp only [step, huni]
    rfl
  | trimTo tab n_w =>
    obtain ⟨har_u, map, hret, htab, hcard, hsub⟩ := (hden tab).trimTo n_w
    exact ⟨_, none, _, hret.bind Returns.pure, .trimTo tab n_w map hcard hsub,
      denotes_update hden tab htab⟩

theorem run_refines (hden : ∀ tab, Denotes mug (tabs tab) (maps tab)) (ops : List Op) :
    ∃ tabs' pros maps', Returns (fun fuel ↦ run mug fuel ops tabs) (tabs', pros) ∧
      RefRun maps ops maps' pros ∧ ∀ tab, Denotes mug (tabs' tab) (maps' tab) := by
  induction ops generalizing tabs maps with
  | nil => exact ⟨tabs, [], maps, Returns.pure, .nil maps, hden⟩
  | cons op ops ih =>
    obtain ⟨tabs₁, pro, maps₁, hstep, href, hden₁⟩ := step_refines hden op
    obtain ⟨tabs', pros, maps', hrun, hrefs, hden'⟩ := ih hden₁
    exact ⟨tabs', pro :: pros, maps', hstep.bind (hrun.bind Returns.pure), .cons href hrefs, hden'⟩

end Runs

/-- Hash tables without a size limit refine finite maps. For every mug function, every sequence of
operations on a family of new tables returns; a run of the reference maps gives the same lookups,
where trimming only removes keys; and afterwards every table is in order, with the count and the
entries of its map. -/
theorem run_refines_maps (ops : List Op) : ∃ tabs pros maps,
    Returns (fun fuel ↦ run mug fuel ops fun _ ↦ new) (tabs, pros) ∧
      RefRun (fun _ ↦ ∅) ops maps pros ∧
      ∀ tab, RootOk mug (tabs tab) ∧ (tabs tab).use_w = (maps tab).keys.card ∧
        ∀ key, (git mug (tabs tab) key).1 = (maps tab).lookup key := by
  obtain ⟨tabs, pros, maps, hrun, href, hden⟩ := run_refines (fun _ ↦ denotes_new) ops
  exact ⟨tabs, pros, maps, hrun, href,
    fun tab ↦ ⟨(hden tab).ok, (hden tab).use_eq, (hden tab).git_eq⟩⟩

end Vere.Noun.Hashtable
