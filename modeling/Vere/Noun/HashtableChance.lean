import Mathlib.Data.Set.Insert
import Vere.Noun.HashtableSpared

/-!
# Second chances

`u3h_git()` warms the entry that it finds, so that the clock cools it when it comes to it and does
not remove it. The source does so only for a key-value cell in the root: `_ch_node_git()` and
`_ch_buck_git()` return the value and leave the slot as it is. `git_warms_iff` says for which tables
and keys the entry is warm after the lookup, and that in a run whose lookups are all of this kind no
entry is removed that has been looked up since the arm was there.
-/

set_option autoImplicit false

namespace Vere.Noun.Hashtable

open Lib.Sparse Lib.Clock

/-- The entry of a key is warm. -/
def Warm (har_u : Root) (key : Noun) : Prop := ∃ val, (⟨key, val⟩, true) ∈ walk har_u

/-- A table has an entry of a key. -/
def Has (har_u : Root) (key : Noun) : Prop := ∃ val, RootHolds har_u key val

/-- The arm comes to the entry of a key in its next turn: it cools or removes it. -/
def Passes (har_u : Root) (key : Noun) : Prop :=
  ∃ kov ∈ walk har_u, kov.1.key = key ∧ kov ∉ walk (chTrimRoot har_u).2

/-- The entry of a key is not removed in the next turn, nor as the one entry that is too many while
another one is cold. -/
structure Spared (har_u : Root) (key : Noun) : Prop where
  turn : Has (chTrimRoot har_u).2 key
  trim : ∀ n_w fuel har_u', har_u.use_w = n_w + 1 → trimTo n_w fuel har_u = some har_u' →
    (∃ kov ∈ walk har_u, kov.2 = false) → Has har_u' key

section Runs

variable (mug : Noun → Fin (2 ^ 31))

/-- The root slot of a key is a key-value cell. -/
def AtRoot (har_u : Root) (key : Noun) : Prop :=
  ∃ kev warm, har_u.sot_w (rootIndex (mug key)) = some (.noun kev warm)

/-- A table in a run that starts with a new one, turn by turn, with the keys that have been looked
up since the arm was there last. Every entry that is found is in the root, or is warm. -/
inductive Looked (max_w : ℕ) : Root → Set Noun → Prop
  | new : Looked max_w (newCache max_w) ∅
  | put {har_u : Root} {keys : Set Noun} (key val : Noun) (hrun : Looked max_w har_u keys) :
      Looked max_w (putKev mug har_u key val) keys
  | missed {har_u : Root} {keys : Set Noun} {key : Noun} (hrun : Looked max_w har_u keys)
      (hmissed : (git mug har_u key).1 = none) : Looked max_w (git mug har_u key).2 keys
  | found {har_u : Root} {keys : Set Noun} {key : Noun} (hrun : Looked max_w har_u keys)
      (hfound : (git mug har_u key).1 ≠ none) (hmark : AtRoot mug har_u key ∨ Warm har_u key) :
      Looked max_w (git mug har_u key).2 (insert key keys)
  | turn {har_u : Root} {keys : Set Noun} (hrun : Looked max_w har_u keys) :
      Looked max_w (afterTurn (chTrimRoot har_u)) {key | key ∈ keys ∧ ¬Passes har_u key}

end Runs

/-! ### Putting keeps entries warm -/

section Slots

variable {mug : Noun → Fin (2 ^ 31)} {lev pre : ℕ} {kev : Kev} {sot_w : Slot}

/-- A slot after an entry was put in it: it has the entry, warm, and every entry of another key as
it was. -/
structure Kept (lev : ℕ) (kev : Kev) (sot_w tos_w : Slot) : Prop where
  new : (kev, true) ∈ cells lev tos_w
  old : ∀ kov ∈ cells lev sot_w, kov.1.key ≠ kev.key → kov ∈ cells lev tos_w

theorem Kept.noun (lev : ℕ) (kev kov : Kev) (warm : Bool) (rem_w : ℕ) :
    Kept lev kev (.noun kov warm) (chSlotPut mug kev lev rem_w (.noun kov warm)).1 := by
  have hput : (chSlotPut mug kev lev rem_w (.noun kov warm)).1 =
      if kev.key = kov.key then .noun kev true
      else chTwo (kov, warm) (kev, true) lev (cutEnd (mug kov.key) (5 * lev)) rem_w := by
    cases lev <;> simp only [chSlotPut] <;> split_ifs <;> rfl
  rw [hput]
  split_ifs with hkey
  · refine ⟨by rw [cells_noun]; exact List.mem_singleton_self _, fun other hother hne ↦ ?_⟩
    rw [cells_noun, List.mem_singleton] at hother
    rw [hother] at hne
    exact absurd hkey.symm hne
  · have hperm := cells_chTwo (kov, warm) (kev, true) lev (cutEnd (mug kov.key) (5 * lev)) rem_w
    refine ⟨hperm.mem_iff.mpr List.mem_cons_self, fun other hother _ ↦ ?_⟩
    rw [cells_noun] at hother
    exact hperm.mem_iff.mpr (List.mem_cons_of_mem _ hother)

theorem Kept.buck (kev : Kev) (sots : List (Kev × Bool)) :
    Kept 0 kev (.buck sots) (.buck (chBuckAdd kev sots).1) := by
  cases hfind : sots.findIdx? fun kov ↦ kev.key = kov.1.key with
  | none =>
    have hadd : (chBuckAdd kev sots).1 = (kev, true) :: sots := by
      rw [chBuckAdd, hfind]
    rw [hadd]
    exact ⟨List.mem_cons_self, fun other hother _ ↦ List.mem_cons_of_mem _ hother⟩
  | some i_w =>
    have hadd : (chBuckAdd kev sots).1 = sots.set i_w (kev, true) := by
      rw [chBuckAdd, hfind]
    obtain ⟨hlt, hkov, -⟩ := List.findIdx?_eq_some_iff_getElem.mp hfind
    have hkey : kev.key = sots[i_w].1.key := by simpa using hkov
    obtain ⟨before, after, hsplit, hset, -⟩ := exists_split (List.getElem?_eq_getElem hlt)
    rw [hadd, hset]
    refine ⟨List.mem_append_right _ List.mem_cons_self, fun other hother hne ↦ ?_⟩
    change other ∈ sots at hother
    rw [hsplit] at hother
    rcases List.mem_append.mp hother with hmem | hmem
    · exact List.mem_append_left _ hmem
    · rcases List.mem_cons.mp hmem with rfl | hmem
      · exact absurd hkey.symm hne
      · exact List.mem_append_right _ (List.mem_cons_of_mem _ hmem)

/-- Putting an entry below a node. -/
theorem Kept.node {map_w : ℕ} {sots : List Slot} {index : ℕ} {old new : Slot}
    (hold : sots[index]? = some old) (hkept : Kept lev kev old new) :
    Kept (lev + 1) kev (.node map_w sots) (.node map_w (sots.set index new)) := by
  obtain ⟨before, after, hsplit, hset, -⟩ := exists_split hold
  rw [hset]
  refine ⟨?_, fun other hother hne ↦ ?_⟩
  · rw [cells, List.flatMap_append, List.flatMap_cons]
    exact List.mem_append_right _ (List.mem_append_left _ hkept.new)
  · rw [cells, hsplit, List.flatMap_append, List.flatMap_cons] at hother
    rw [cells, List.flatMap_append, List.flatMap_cons]
    rcases List.mem_append.mp hother with hmem | hmem
    · exact List.mem_append_left _ hmem
    · rcases List.mem_append.mp hmem with hmem | hmem
      · exact List.mem_append_right _ (List.mem_append_left _ (hkept.old other hmem hne))
      · exact List.mem_append_right _ (List.mem_append_right _ hmem)

theorem kept_chSlotPut (hok : Ok mug lev pre sot_w) (kev : Kev) :
    Kept lev kev sot_w (chSlotPut mug kev lev ((mug kev.key : ℕ) % 2 ^ (5 * lev)) sot_w).1 := by
  induction lev generalizing pre sot_w with
  | zero =>
    cases sot_w with
    | noun kov warm => exact Kept.noun 0 kev kov warm _
    | buck sots => exact Kept.buck kev sots
    | node map_w sots => exact hok.elim
  | succ lev ih =>
    cases sot_w with
    | noun kov warm => exact Kept.noun (lev + 1) kev kov warm _
    | buck sots => exact hok.elim
    | node map_w sots =>
      have hbit := bitOf_lt (mug kev.key) lev
      obtain ⟨-, hrem, -⟩ := fragment (mug kev.key) lev
      simp only [chSlotPut, chNodeAdd, hrem, shiftRight_eq_bitOf, chPopcount_cutEnd map_w hbit]
      by_cases hset : map_w.testBit (bitOf (mug kev.key) lev) = true
      · obtain ⟨old, hget, hindex⟩ := get_isSome hok.2.1 hbit hset
        simp only [if_pos hset, hindex]
        exact Kept.node hindex (ih (hok.2.2 _ hbit old hget))
      · rw [if_neg hset]
        have hle : rank map_w (bitOf (mug kev.key) lev) ≤ sots.length :=
          hok.2.1 ▸ rank_mono map_w (Nat.le_of_lt hbit)
        have hperm := (List.perm_insertIdx (Slot.noun kev true) sots hle).flatMap_right (cells lev)
        refine ⟨?_, fun other hother _ ↦ ?_⟩
        · rw [cells, hperm.mem_iff, List.flatMap_cons, cells_noun]
          exact List.mem_cons_self
        · rw [cells, hperm.mem_iff, List.flatMap_cons]
          exact List.mem_append_right _ hother

end Slots

/-! ### Warm entries -/

section Tables

variable {mug : Noun → Fin (2 ^ 31)} {har_u : Root} {key : Noun}

/-- The entry that is put in is warm, and those of other keys are as they were. -/
theorem RootOk.kept (hok : RootOk mug har_u) (key val : Noun) :
    (⟨key, val⟩, true) ∈ walk (Hashtable.putKev mug har_u key val) ∧
      ∀ kov ∈ walk har_u, kov.1.key ≠ key → kov ∈ walk (Hashtable.putKev mug har_u key val) := by
  obtain ⟨tos_w, hsame, hnew, hold⟩ : ∃ tos_w, (Hashtable.putKev mug har_u key val).sot_w =
      Function.update har_u.sot_w (rootIndex (mug key)) (some tos_w) ∧
      (⟨key, val⟩, true) ∈ cells 5 tos_w ∧
      ∀ sot_w, har_u.sot_w (rootIndex (mug key)) = some sot_w →
        ∀ kov ∈ cells 5 sot_w, kov.1.key ≠ key → kov ∈ cells 5 tos_w := by
    unfold Hashtable.putKev
    cases hslot : har_u.sot_w (rootIndex (mug key)) with
    | none =>
      refine ⟨_, rfl, ?_, nofun⟩
      rw [cells_noun]
      exact List.mem_singleton_self _
    | some sot_w =>
      have hkept := kept_chSlotPut (hok.slot _ _ hslot) ⟨key, val⟩
      rw [← cutEnd_eq] at hkept
      refine ⟨_, rfl, hkept.new, fun sot_w' hsome ↦ ?_⟩
      rw [← Option.some.inj hsome]
      exact hkept.old
  constructor
  · refine mem_walk.mpr ⟨rootIndex (mug key), tos_w, ?_, hnew⟩
    rw [hsame, Function.update_self]
  · intro kov hkov hne
    obtain ⟨inx_w, sot_w, hslot, hmem⟩ := mem_walk.mp hkov
    by_cases hinx : inx_w = rootIndex (mug key)
    · subst hinx
      refine mem_walk.mpr ⟨rootIndex (mug key), tos_w, ?_, hold sot_w hslot kov hmem hne⟩
      rw [hsame, Function.update_self]
    · refine mem_walk.mpr ⟨inx_w, sot_w, ?_, hmem⟩
      rw [hsame, Function.update_of_ne hinx, hslot]

theorem Warm.putKev (hwarm : Warm har_u key) (hok : RootOk mug har_u) (key' val' : Noun) :
    Warm (Hashtable.putKev mug har_u key' val') key := by
  obtain ⟨val, hmem⟩ := hwarm
  obtain ⟨hnew, hold⟩ := hok.kept key' val'
  by_cases hkey : key = key'
  · exact ⟨val', hkey ▸ hnew⟩
  · exact ⟨val, hold _ hmem hkey⟩

/-- A lookup warms the entry that it finds in the root, and leaves the other entries. -/
theorem git_cases (mug : Noun → Fin (2 ^ 31)) (har_u : Root) (key : Noun) :
    (∃ kev warm, har_u.sot_w (rootIndex (mug key)) = some (.noun kev warm) ∧ kev.key = key ∧
      (git mug har_u key).2 = { har_u with
        sot_w := Function.update har_u.sot_w (rootIndex (mug key)) (some (.noun kev true)) }) ∨
      (git mug har_u key).2 = har_u ∧ (AtRoot mug har_u key → (git mug har_u key).1 = none) := by
  cases hslot : har_u.sot_w (rootIndex (mug key)) with
  | none =>
    refine .inr ⟨?_, ?_⟩
    · simp only [git, hslot]
    · rintro ⟨kev, warm, hroot⟩
      cases hslot.symm.trans hroot
  | some sot_w =>
    cases sot_w with
    | noun kev warm =>
      by_cases hkey : key = kev.key
      · refine .inl ⟨kev, warm, rfl, hkey.symm, ?_⟩
        simp only [git, hslot, if_pos hkey]
      · refine .inr ⟨?_, fun _ ↦ ?_⟩ <;> simp only [git, hslot, if_neg hkey]
    | node map_w sots =>
      refine .inr ⟨?_, ?_⟩
      · simp only [git, hslot]
      · rintro ⟨kev, warm, hroot⟩
        cases hslot.symm.trans hroot
    | buck sots =>
      refine .inr ⟨?_, ?_⟩
      · simp only [git, hslot]
      · rintro ⟨kev, warm, hroot⟩
        cases hslot.symm.trans hroot

theorem Warm.git (hwarm : Warm har_u key) (key' : Noun) : Warm (git mug har_u key').2 key := by
  rcases git_cases mug har_u key' with ⟨kev, warm, hslot, -, hgit⟩ | ⟨hgit, -⟩
  · obtain ⟨val, hmem⟩ := hwarm
    obtain ⟨inx_w, sot_w, hsome, hmem⟩ := mem_walk.mp hmem
    refine ⟨val, ?_⟩
    rw [hgit, mem_walk]
    by_cases hinx : inx_w = rootIndex (mug key')
    · subst hinx
      obtain rfl := Option.some.inj (hslot.symm.trans hsome)
      rw [cells_noun, List.mem_singleton] at hmem
      refine ⟨_, .noun kev true, Function.update_self _ _ _, ?_⟩
      rw [cells_noun, ← (Prod.mk.inj hmem).1]
      exact List.mem_singleton_self _
    · exact ⟨inx_w, sot_w, (Function.update_of_ne hinx _ _).trans hsome, hmem⟩
  · rw [hgit]
    exact hwarm

/-- A lookup that finds an entry leaves it warm exactly if it is in the root or was warm. -/
theorem warm_git_iff (hfound : (git mug har_u key).1 ≠ none) :
    Warm (git mug har_u key).2 key ↔ AtRoot mug har_u key ∨ Warm har_u key := by
  rcases git_cases mug har_u key with ⟨kev, warm, hslot, rfl, hgit⟩ | ⟨hgit, hroot⟩
  · refine iff_of_true ⟨kev.val, ?_⟩ (.inl ⟨kev, warm, hslot⟩)
    rw [hgit, mem_walk]
    refine ⟨_, .noun kev true, Function.update_self _ _ _, ?_⟩
    rw [cells_noun]
    exact List.mem_singleton_self _
  · rw [hgit, or_iff_right fun hat ↦ hfound (hroot hat)]

/-! ### What is warm is spared -/

theorem Warm.turn (hwarm : Warm har_u key) (hok : RootOk mug har_u) (harm : ArmOk har_u) :
    Has (chTrimRoot har_u).2 key := by
  obtain ⟨val, hmem⟩ := hwarm
  refine ⟨val, rootHolds_iff_mem_map.mpr ?_⟩
  rw [← (order_perm har_u).mem_iff] at hmem
  obtain ⟨swept, rest, horder, -, ⟨-, horder', -⟩ | ⟨kev, rest', -, rfl, hperm, -⟩⟩ :=
    hok.swept_chTrimRoot harm
  · rw [← ((order_perm _).map Prod.fst).mem_iff, horder', List.map_append, cool_fst,
      ← List.map_append]
    rw [horder] at hmem
    exact List.mem_map.mpr ⟨(⟨key, val⟩, true), List.perm_append_comm.mem_iff.mp hmem, rfl⟩
  · rw [horder] at hmem
    rw [hperm.mem_iff]
    refine List.mem_map.mpr ⟨(⟨key, val⟩, true), ?_, rfl⟩
    rcases List.mem_append.mp hmem with hmem | hmem
    · exact List.mem_append_left _ hmem
    · rcases List.mem_cons.mp hmem with heq | hmem
      · exact nomatch (Prod.mk.inj heq).2
      · exact List.mem_append_right _ hmem

theorem Warm.spared (hwarm : Warm har_u key) (hok : RootOk mug har_u) (harm : ArmOk har_u) :
    Spared har_u key where
  turn := hwarm.turn hok harm
  trim n_w fuel har_u' huse htrim := by
    rintro ⟨cold, hcold, hfalse⟩
    obtain ⟨val, hmem⟩ := hwarm
    obtain ⟨kev, hvictim, hperm⟩ := hok.trimTo_victim fuel harm huse htrim
    obtain ⟨kev', hvictim', hkev⟩ :=
      exists_victim_cold hfalse ((order_perm har_u).mem_iff.mpr hcold)
    obtain rfl : kev = kev' := Option.some.inj (hvictim.symm.trans hvictim')
    refine ⟨val, rootHolds_iff_mem_map.mpr ?_⟩
    have hin : ⟨key, val⟩ ∈ kev :: (walk har_u').map Prod.fst :=
      hperm.mem_iff.mp (List.mem_map.mpr ⟨_, hmem, rfl⟩)
    rcases List.mem_cons.mp hin with rfl | hin
    · have hcold := (order_perm har_u).mem_iff.mp hkev
      exact nomatch (Prod.mk.inj (List.inj_on_of_nodup_map hok.nodup hmem hcold rfl)).2
    · exact hin

/-! ### Runs -/

/-- What holds in every run whose lookups warm what they find. -/
structure LookedOk (mug : Noun → Fin (2 ^ 31)) (har_u : Root) (keys : Set Noun) : Prop where
  ok : RootOk mug har_u
  arm : ArmOk har_u
  warm : ∀ key ∈ keys, Warm har_u key

theorem Looked.ok {max_w : ℕ} {keys : Set Noun} (hrun : Looked mug max_w har_u keys) :
    LookedOk mug har_u keys := by
  induction hrun with
  | new =>
    refine ⟨rootOk_newCache max_w, fun hinx ↦ absurd rfl hinx, fun key hkey ↦ ?_⟩
    exact absurd hkey (Set.notMem_empty key)
  | put key val hrun ih =>
    refine ⟨(ih.ok.putKev key val).1, ih.arm.putKev ih.ok key val, fun key' hkey ↦ ?_⟩
    exact (ih.warm key' hkey).putKev ih.ok key val
  | missed hrun hmissed ih =>
    exact ⟨(ih.ok.git _).1, ih.arm.git _, fun key' hkey ↦ (ih.warm key' hkey).git _⟩
  | found hrun hfound hmark ih =>
    refine ⟨(ih.ok.git _).1, ih.arm.git _, fun key' hkey ↦ ?_⟩
    rcases Set.mem_insert_iff.mp hkey with rfl | hkey
    · exact (warm_git_iff hfound).mpr hmark
    · exact (ih.warm key' hkey).git _
  | @turn har_u keys hrun ih =>
    refine ⟨ih.ok.turned_chTrimRoot.ok, ?_, fun key hkey ↦ ?_⟩
    · obtain ⟨-, -, -, -, ⟨-, -, harm⟩ | ⟨-, -, -, -, -, harm⟩⟩ := ih.ok.swept_chTrimRoot ih.arm
      · exact harm
      · exact harm
    · obtain ⟨hkey, hpasses⟩ := hkey
      obtain ⟨val, hmem⟩ := ih.warm key hkey
      have hsame : walk (afterTurn (chTrimRoot har_u)) = walk (chTrimRoot har_u).2 := walk_congr rfl
      refine ⟨val, ?_⟩
      rw [hsame]
      by_contra hnot
      exact hpasses ⟨_, hmem, rfl, hnot⟩

/-- In every run, a lookup that finds an entry leaves it warm, and spares it, exactly if it is in
the root or was warm; and in every run whose lookups are so, what has been looked up since the arm
was there is spared. -/
theorem git_warms_iff (mug : Noun → Fin (2 ^ 31)) (max_w : ℕ) :
    (∀ har_u last key, Caches mug max_w har_u last → (git mug har_u key).1 ≠ none →
      (Warm (git mug har_u key).2 key ∧ Spared (git mug har_u key).2 key ↔
        AtRoot mug har_u key ∨ Warm har_u key)) ∧
    ∀ har_u keys, Looked mug max_w har_u keys → ∀ key ∈ keys, Warm har_u key ∧
    Spared har_u key := by
  refine ⟨fun har_u last key hrun hfound ↦ ?_, fun har_u keys hrun key hkey ↦ ?_⟩
  · rw [← warm_git_iff hfound, and_iff_left_iff_imp]
    exact fun hwarm ↦ hwarm.spared (hrun.ok.ok.git key).1 (hrun.arm.git key)
  · have hwarm := hrun.ok.warm key hkey
    exact ⟨hwarm, hwarm.spared hrun.ok.ok hrun.ok.arm⟩

end Tables

/-! ### An entry below the root -/

/-- Mugs have 31 bits. -/
local instance neZeroThree : NeZero (2 ^ 31) := ⟨by decide⟩

/-- The mugs of three atoms, which have a root slot in common. -/
def mugThree : Noun → Fin (2 ^ 31)
  | .atom 1 => 0x100000
  | .atom 2 => 0x200000
  | _ => 1

/-- A table of three entries in a node. -/
def tableThree : Root :=
  putKev mugThree (putKev mugThree (putKev mugThree (newCache 0) (.atom 0) (.atom 0)) (.atom 1)
    (.atom 1))
    (.atom 2) (.atom 2)

theorem caches_tableThree : ∃ last, Caches mugThree 0 tableThree last := by
  have hzero := @Caches.put mugThree 0 _ _ _ 0 (.atom 0) (.atom 0) Caches.new rfl
  have hone := @Caches.put mugThree 0 _ _ _ 0 (.atom 1) (.atom 1) hzero rfl
  exact ⟨_, @Caches.put mugThree 0 _ _ _ 0 (.atom 2) (.atom 2) hone rfl⟩

/-- What was just put in is warm, below the root too. -/
theorem git_warms_three : Warm (git mugThree tableThree (.atom 1)).2 (.atom 1) ∧
    Spared (git mugThree tableThree (.atom 1)).2 (.atom 1) := by
  obtain ⟨last, hrun⟩ := caches_tableThree
  have hmem : (⟨.atom 1, .atom 1⟩, true) ∈ walk tableThree := by decide +kernel
  have hiff := (git_warms_iff mugThree 0).1 tableThree last (.atom 1) hrun (by decide +kernel)
  exact hiff.mpr (.inr ⟨.atom 1, hmem⟩)

/-- Trimmed to two entries, the table has two cold ones in its node; what is looked up there stays
cold.
-/
theorem git_leaves_cold : ∃ har_u last, Caches mugThree 0 har_u last ∧
    (git mugThree har_u (.atom 1)).1 = some (.atom 1) ∧
    ¬Warm (git mugThree har_u (.atom 1)).2 (.atom 1) := by
  obtain ⟨last, hrun⟩ := caches_tableThree
  have htrim : ((trimTo 2 200 tableThree).map fun har_u ↦
      ((git mugThree har_u (.atom 1)).1, walk (git mugThree har_u (.atom 1)).2)) =
      some (some (.atom 1), [(⟨.atom 1, .atom 1⟩, false), (⟨.atom 2, .atom 2⟩, false)]) := by
    decide +kernel
  obtain ⟨har_u, htrim, hgit⟩ := Option.map_eq_some_iff.mp htrim
  obtain ⟨hfound, hwalk⟩ := Prod.mk.inj hgit
  refine ⟨har_u, last, .trim 2 hrun htrim, hfound, fun ⟨val, hmem⟩ ↦ ?_⟩
  rw [hwalk] at hmem
  simp at hmem

end Vere.Noun.Hashtable
