import Vere.Lib.Clock
import Vere.Noun.HashtableCache

/-!
# The clock of a table

The arm of a table is at a mug, and at an index of the bucket there. `order` is the list of the
entries from the arm on, around the table, and a turn of the clock cools some warm entries at its
head, or removes the first cold one after them (`RootOk.swept_chTrimRoot`). So a table that has one
entry too many loses the victim of that order (`RootOk.trimTo_victim`).
-/

set_option autoImplicit false

namespace Vere.Noun.Hashtable

open Lib.Sparse Lib.Fuel Lib.Clock

/-! ### The place of the arm -/

/-- The number of entries below a slot in cells and buckets whose mugs are all before a mug. -/
def past (mug_w : ℕ) : ℕ → ℕ → Slot → ℕ
  | lev, pre, .noun _ _ => if (pre + 1) * 2 ^ (5 * lev) ≤ mug_w then 1 else 0
  | 0, pre, .buck sot_w => if pre + 1 ≤ mug_w then sot_w.length else 0
  | lev + 1, pre, .node map_w sot_w => ((List.range 32).map fun bit_w ↦
      match Lib.Sparse.get map_w sot_w bit_w with
      | some tos_w => past mug_w lev (32 * pre + bit_w) tos_w
      | none => 0).sum
  | _, _, _ => 0

/-- The same for a slot that may be null. -/
def pastOf (mug_w lev pre : ℕ) : Option Slot → ℕ
  | some sot_w => past mug_w lev pre sot_w
  | none => 0

/-- The length of the bucket where the slots on the way of a mug end, if they end in one. -/
def bucked : ℕ → ℕ → Slot → ℕ
  | 0, _, .buck sot_w => sot_w.length
  | lev + 1, mug_w, .node map_w sot_w =>
    match Lib.Sparse.get map_w sot_w (bitOf mug_w lev) with
    | some tos_w => bucked lev mug_w tos_w
    | none => 0
  | _, _, _ => 0

/-- The same for a slot that may be null. -/
def buckedOf (lev mug_w : ℕ) : Option Slot → ℕ
  | some sot_w => bucked lev mug_w sot_w
  | none => 0

/-- The number of entries of a table that the arm has passed. -/
def cut (har_u : Root) : ℕ :=
  ((List.finRange 64).map fun inx_w : Fin 64 ↦ pastOf har_u.arm_u.mug_w 5 inx_w
    (har_u.sot_w inx_w)).sum +
    min har_u.arm_u.inx_w (buckedOf 5 har_u.arm_u.mug_w (har_u.sot_w (rootIndex har_u.arm_u.mug_w)))

/-- The entries of a table from the arm on, all around. -/
def order (har_u : Root) : List (Kev × Bool) :=
  (walk har_u).drop (cut har_u) ++ (walk har_u).take (cut har_u)

/-- The arm has an index only where there is a bucket. -/
def ArmOk (har_u : Root) : Prop :=
  har_u.arm_u.inx_w ≠ 0 →
    0 < buckedOf 5 har_u.arm_u.mug_w (har_u.sot_w (rootIndex har_u.arm_u.mug_w))

section Slots

variable {mug : Noun → Fin (2 ^ 31)} {lev pre mug_w : ℕ} {sot_w : Slot}

theorem past_noun (lev pre mug_w : ℕ) (kev : Kev) (warm : Bool) :
    past mug_w lev pre (.noun kev warm) = if (pre + 1) * 2 ^ (5 * lev) ≤ mug_w then 1 else 0 := by
  cases lev <;> rfl

theorem past_node_eq (mug_w lev pre map_w : ℕ) (sot_w : List Slot) :
    past mug_w (lev + 1) pre (.node map_w sot_w) =
      ((List.range 32).map fun bit_w ↦ pastOf mug_w lev (32 * pre + bit_w)
        (Lib.Sparse.get map_w sot_w bit_w)).sum := by
  rw [past]
  refine congrArg List.sum (List.map_congr_left fun bit_w _ ↦ ?_)
  cases Lib.Sparse.get map_w sot_w bit_w <;> rfl

theorem bucked_noun (lev mug_w : ℕ) (kev : Kev) (warm : Bool) :
    bucked lev mug_w (.noun kev warm) = 0 := by
  cases lev <;> rfl

theorem bucked_node (lev mug_w map_w : ℕ) (sot_w : List Slot) :
    bucked (lev + 1) mug_w (.node map_w sot_w) =
    buckedOf lev mug_w (Lib.Sparse.get map_w sot_w (bitOf mug_w lev)) := by
  rw [bucked]
  cases Lib.Sparse.get map_w sot_w (bitOf mug_w lev) <;> rfl

/-- A sum over places that are passed, one at the arm, and places that are not. -/
theorem sum_split {ι E : Type} {low high : List ι} {here : ι} {f : ι → ℕ} {c : ι → List E}
    (hlow : ∀ i ∈ low, f i = (c i).length) (hhigh : ∀ i ∈ high, f i = 0) :
    ((low ++ here :: high).map f).sum = (low.flatMap c).length + f here := by
  rw [List.map_append, List.map_cons, List.sum_append, List.sum_cons, List.length_flatMap,
    List.map_congr_left hlow]
  have hzero : (high.map f).sum = 0 := by
    rw [List.sum_eq_zero]
    intro x hx
    obtain ⟨i, hi, rfl⟩ := List.mem_map.mp hx
    exact hhigh i hi
  omega

/-- Nothing is passed before the first mug of a slot. -/
theorem past_of_le (hle : mug_w ≤ pre * 2 ^ (5 * lev)) : past mug_w lev pre sot_w = 0 := by
  induction lev generalizing pre sot_w with
  | zero =>
    cases sot_w with
    | noun kev warm => exact if_neg (by simp at hle ⊢; omega)
    | buck sots => exact if_neg (by simp at hle; omega)
    | node map_w sots => rfl
  | succ lev ih =>
    have hpow : 2 ^ (5 * (lev + 1)) = 32 * 2 ^ (5 * lev) := by
      rw [Nat.mul_add, Nat.pow_add, Nat.mul_comm]
    cases sot_w with
    | noun kev warm =>
      have hpos : 0 < 2 ^ (5 * (lev + 1)) := Nat.two_pow_pos _
      have hmore : pre * 2 ^ (5 * (lev + 1)) < (pre + 1) * 2 ^ (5 * (lev + 1)) := by
        rw [Nat.add_mul]
        omega
      exact if_neg (by omega)
    | buck sots => rfl
    | node map_w sots =>
      rw [past_node_eq, List.sum_eq_zero]
      intro x hx
      obtain ⟨bit_w, -, rfl⟩ := List.mem_map.mp hx
      cases Lib.Sparse.get map_w sots bit_w with
      | none => rfl
      | some tos_w =>
        refine ih (hle.trans ?_)
        rw [hpow, ← Nat.mul_assoc]
        exact Nat.mul_le_mul_right _ (by omega)

theorem cells_node (lev map_w : ℕ) {sot_w : List Slot} (hlength : sot_w.length = chPopcount map_w) :
    cells (lev + 1) (.node map_w sot_w) =
      (List.range 32).flatMap fun bit_w ↦ cellsOf lev (Lib.Sparse.get map_w sot_w bit_w) := by
  have hall := @flatMap_get _ _ (cells lev) map_w 32 sot_w hlength.ge
  have htake : sot_w.take (rank map_w 32) = sot_w := by
    rw [show rank map_w 32 = sot_w.length from hlength.symm, List.take_length]
  rw [htake] at hall
  rw [cells, ← hall]
  refine List.flatMap_congr fun bit_w _ ↦ ?_
  cases Lib.Sparse.get map_w sot_w bit_w <;> rfl

/-- Everything is passed behind the last mug of a slot. -/
theorem Ok.past_of_ge (hok : Ok mug lev pre sot_w) (hge : (pre + 1) * 2 ^ (5 * lev) ≤ mug_w) :
    past mug_w lev pre sot_w = (cells lev sot_w).length := by
  induction lev generalizing pre sot_w with
  | zero =>
    cases sot_w with
    | noun kev warm => exact if_pos hge
    | buck sots => exact if_pos (by simpa using hge)
    | node map_w sots => exact hok.elim
  | succ lev ih =>
    have hpow : 2 ^ (5 * (lev + 1)) = 32 * 2 ^ (5 * lev) := by
      rw [Nat.mul_add, Nat.pow_add, Nat.mul_comm]
    cases sot_w with
    | noun kev warm => exact if_pos hge
    | buck sots => exact hok.elim
    | node map_w sots =>
      rw [past_node_eq, cells_node lev map_w hok.2.1, List.length_flatMap]
      refine congrArg List.sum (List.map_congr_left fun bit_w hbit ↦ ?_)
      cases hget : Lib.Sparse.get map_w sots bit_w with
      | none => rfl
      | some tos_w =>
        have hlt := List.mem_range.mp hbit
        refine ih (hok.2.2 bit_w hlt tos_w hget) (le_trans ?_ hge)
        rw [hpow, ← Nat.mul_assoc]
        exact Nat.mul_le_mul_right _ (by omega)

/-- What is passed below a node, when the arm is at one of its slots. -/
theorem Ok.past_node {map_w bit_w : ℕ} {sots : List Slot}
    (hok : Ok mug (lev + 1) pre (.node map_w sots)) (hbit : bit_w < 32)
    (hlow : (32 * pre + bit_w) * 2 ^ (5 * lev) ≤ mug_w)
    (hhigh : mug_w ≤ (32 * pre + bit_w + 1) * 2 ^ (5 * lev)) :
    past mug_w (lev + 1) pre (.node map_w sots) =
      ((sots.take (rank map_w bit_w)).flatMap (cells lev)).length +
        pastOf mug_w lev (32 * pre + bit_w) (Lib.Sparse.get map_w sots bit_w) := by
  have hsplit : List.range 32 =
      List.range bit_w ++ bit_w :: (List.range (31 - bit_w)).map (bit_w + 1 + ·) := by
    have hcount : 32 = bit_w + (31 - bit_w + 1) := by omega
    rw [hcount, List.range_add, List.range_succ_eq_map, List.map_cons, List.map_map]
    simp only [Nat.add_zero, Function.comp_def, Nat.succ_eq_add_one, Nat.add_right_comm bit_w,
      Nat.add_assoc]
  have hbefore := @flatMap_get _ _ (cells lev) map_w bit_w sots
    (hok.2.1 ▸ rank_mono map_w (Nat.le_of_lt hbit))
  rw [past_node_eq, hsplit, ← hbefore]
  refine sum_split (fun i hi ↦ ?_) fun i hi ↦ ?_
  · have hlt := List.mem_range.mp hi
    cases hget : Lib.Sparse.get map_w sots i with
    | none => rfl
    | some tos_w =>
      refine (hok.2.2 i (by omega) tos_w hget).past_of_ge (le_trans ?_ hlow)
      exact Nat.mul_le_mul_right _ (by omega)
  · obtain ⟨j, -, rfl⟩ := List.mem_map.mp hi
    cases Lib.Sparse.get map_w sots (bit_w + 1 + j) with
    | none => rfl
    | some tos_w =>
      refine past_of_le (hhigh.trans ?_)
      exact Nat.mul_le_mul_right _ (by omega)

/-! ### Turns -/

theorem chTrimBuck_swept (arm_u : Arm) (sot_w : List (Kev × Bool)) (htwo : 2 ≤ sot_w.length) :
    ∃ swept rest, sot_w.drop arm_u.inx_w = swept ++ rest ∧ (∀ kev ∈ swept, kev.2 = true) ∧
      ((rest = [] ∧ chTrimBuck arm_u sot_w =
          (false, ⟨(arm_u.mug_w + 1) &&& 0x7FFFFFFF, 0⟩,
          .buck (sot_w.take arm_u.inx_w ++ cool swept))) ∨
        ∃ kev rest' arm_u' tos_w, rest = (kev, false) :: rest' ∧
          chTrimBuck arm_u sot_w = (true, arm_u', tos_w) ∧
          (cells 0 tos_w).map Prod.fst = (sot_w.take arm_u.inx_w ++ (swept ++ rest')).map Prod.fst ∧
          (arm_u'.inx_w ≠ 0 → arm_u'.mug_w = arm_u.mug_w ∧ 0 < bucked 0 arm_u.mug_w tos_w)) := by
  fun_induction chTrimBuck arm_u sot_w with
  | case1 arm_u sot_w hnone =>
    have hge : sot_w.length ≤ arm_u.inx_w := List.getElem?_eq_none_iff.mp hnone
    refine ⟨[], [], List.drop_eq_nil_of_le hge, by rintro _ ⟨⟩, Or.inl ⟨rfl, ?_⟩⟩
    rw [List.take_of_length_le hge]
    simp [cool]
  | case2 arm_u sot_w kev hwarm ih =>
    obtain ⟨hlt, hkev⟩ := List.getElem?_eq_some_iff.mp hwarm
    obtain ⟨swept, rest, hdrop, hswept, hturn⟩ := ih (by rw [List.length_set]; exact htwo)
    have htake : (sot_w.set arm_u.inx_w (kev, false)).take (arm_u.inx_w + 1) =
        sot_w.take arm_u.inx_w ++ [(kev, false)] := by
      rw [List.take_add_one, List.take_set_of_le (Nat.le_refl _), List.getElem?_set_self hlt]
      rfl
    have hrest : sot_w.drop arm_u.inx_w = (kev, true) :: (swept ++ rest) := by
      rw [List.drop_eq_getElem_cons hlt, hkev, ← hdrop, List.drop_set_of_lt (Nat.lt_succ_self _)]
    refine ⟨(kev, true) :: swept, rest, hrest, ?_, ?_⟩
    · intro e he
      obtain rfl | he := List.mem_cons.mp he
      · rfl
      · exact hswept e he
    · dsimp only at hturn
      rw [htake] at hturn
      obtain ⟨hnil, heq⟩ | ⟨kov, rest', arm_u', tos_w, hcold, heq, hcells, harm⟩ := hturn
      · refine Or.inl ⟨hnil, heq.trans ?_⟩
        simp [cool]
      · refine Or.inr ⟨kov, rest', arm_u', tos_w, hcold, heq, hcells.trans ?_, harm⟩
        simp
  | case3 arm_u sot_w kev hcold ken_w hlength kov warm hken =>
    obtain ⟨hlt, hkev⟩ := List.getElem?_eq_some_iff.mp hcold
    obtain ⟨other, hother, -, herase⟩ := exists_perm_pair hlength hcold
    obtain rfl : (kov, warm) = other := Option.some.inj (hken.symm.trans hother)
    refine ⟨[], sot_w.drop arm_u.inx_w, rfl, by rintro _ ⟨⟩, Or.inr ⟨kev,
      sot_w.drop (arm_u.inx_w + 1), _, _, ?_, rfl, ?_, fun h ↦ absurd rfl h⟩⟩
    · rw [List.drop_eq_getElem_cons hlt, hkev]
    · rw [List.nil_append, ← List.eraseIdx_eq_take_drop_succ, herase, cells_noun]
  | case4 arm_u sot_w kev hcold ken_w hlength hken =>
    obtain ⟨other, hother, -⟩ := exists_perm_pair hlength hcold
    cases hken.symm.trans hother
  | case5 arm_u sot_w kev hcold hlength =>
    obtain ⟨hlt, hkev⟩ := List.getElem?_eq_some_iff.mp hcold
    refine ⟨[], sot_w.drop arm_u.inx_w, rfl, by rintro _ ⟨⟩, Or.inr ⟨kev,
      sot_w.drop (arm_u.inx_w + 1), _, _, ?_, rfl, ?_, fun _ ↦ ⟨rfl, ?_⟩⟩⟩
    · rw [List.drop_eq_getElem_cons hlt, hkev]
    · rw [List.nil_append, ← List.eraseIdx_eq_take_drop_succ, cells]
    · show 0 < (sot_w.eraseIdx arm_u.inx_w).length
      rw [List.length_eraseIdx_of_lt hlt]
      omega

/-- What a turn of the clock at a mug does below a slot: it cools entries from the arm on and leaves
the arm behind them, or it removes the first cold entry. -/
inductive Swept (lev pre : ℕ) (arm_u : Arm) (sot_w : Slot) : Bool × Arm × Option Slot → Prop
  | kept {behind swept rest : List (Kev × Bool)} {tos_w : Slot} {next : ℕ}
      (hcells : cells lev sot_w = behind ++ (swept ++ rest))
      (hbehind : behind.length =
        past arm_u.mug_w lev pre sot_w + min arm_u.inx_w (bucked lev arm_u.mug_w sot_w))
      (hwarm : ∀ kev ∈ swept, kev.2 = true) (hlow : pre * 2 ^ (5 * lev) ≤ next)
      (hhigh : next ≤ (pre + 1) * 2 ^ (5 * lev))
      (hcells' : cells lev tos_w = behind ++ (cool swept ++ rest))
      (hpast : past next lev pre tos_w = behind.length + swept.length) :
      Swept lev pre arm_u sot_w (false, ⟨next % 2 ^ 31, 0⟩, some tos_w)
  | removed {behind swept rest : List (Kev × Bool)} {kev : Kev} {arm_u' : Arm} {tos_w : Option Slot}
      (hcells : cells lev sot_w = behind ++ (swept ++ (kev, false) :: rest))
      (hbehind : behind.length =
        past arm_u.mug_w lev pre sot_w + min arm_u.inx_w (bucked lev arm_u.mug_w sot_w))
      (hwarm : ∀ kev ∈ swept, kev.2 = true)
      (hcells' : (cellsOf lev tos_w).map Prod.fst = (behind ++ (swept ++ rest)).map Prod.fst)
      (harm : arm_u'.inx_w ≠ 0 → arm_u'.mug_w = arm_u.mug_w ∧ 0 < buckedOf lev arm_u.mug_w tos_w) :
      Swept lev pre arm_u sot_w (true, arm_u', tos_w)

/-- Skipping a prefix leads to the first mug behind it. -/
theorem chSkipSlot_eq {lef_w : ℕ} (hle : lef_w ≤ 31) :
    chSkipSlot mug_w lef_w = (mug_w / 2 ^ lef_w + 1) * 2 ^ lef_w % 2 ^ 31 := by
  have hpow : 2 ^ 31 = 2 ^ (31 - lef_w) * 2 ^ lef_w := by
    rw [← Nat.pow_add, Nat.sub_add_cancel hle]
  rw [chSkipSlot, cutEnd_eq, Nat.shiftRight_eq_div_pow, Nat.shiftLeft_eq, hpow,
    Nat.mul_mod_mul_right]

/-- The turn on a key-value cell. -/
theorem swept_noun {arm_u : Arm} {kev : Kev} {warm : Bool} (hlev : lev ≤ 5)
    (hpre : arm_u.mug_w / 2 ^ (5 * lev) = pre) (hinx : arm_u.inx_w = 0) (rem_w : ℕ) :
    Swept lev pre arm_u (.noun kev warm) (chTrimSlot arm_u lev rem_w (.noun kev warm)) := by
  have hturn : chTrimSlot arm_u lev rem_w (.noun kev warm) =
      if warm then (false, { arm_u with mug_w := chSkipSlot arm_u.mug_w (5 * lev) },
      some (.noun kev false))
      else (true, { arm_u with mug_w := chSkipSlot arm_u.mug_w (5 * lev) }, none) := by
    cases lev <;> rfl
  have hlt : arm_u.mug_w < (pre + 1) * 2 ^ (5 * lev) := by
    rw [← hpre, Nat.mul_comm]
    exact Nat.lt_mul_div_succ _ (Nat.two_pow_pos _)
  have hnone : ([] : List (Kev × Bool)).length = past arm_u.mug_w lev pre (.noun kev warm) +
      min arm_u.inx_w (bucked lev arm_u.mug_w (.noun kev warm)) := by
    rw [past_noun, if_neg (by omega), bucked_noun, hinx]
    rfl
  rw [hturn, chSkipSlot_eq (by omega), hpre, hinx]
  cases warm with
  | true =>
    refine @Swept.kept lev pre arm_u _ [] [(kev, true)] [] _ _ (cells_noun lev kev true) hnone ?_ ?_
      (Nat.le_refl _)
      (cells_noun lev kev false) ?_
    · intro e he
      rw [List.mem_singleton.mp he]
    · exact Nat.mul_le_mul_right _ (Nat.le_succ pre)
    · rw [past_noun, if_pos (Nat.le_refl _)]
      rfl
  | false =>
    exact @Swept.removed lev pre arm_u _ [] [] [] kev _ none
      (cells_noun lev kev false) hnone nofun rfl
      fun h ↦ absurd rfl h

/-- The turn on a bucket. -/
theorem swept_buck {arm_u : Arm} {sots : List (Kev × Bool)} (hmug : arm_u.mug_w = pre)
    (htwo : 2 ≤ sots.length) (rem_w : ℕ) :
    Swept 0 pre arm_u (.buck sots) (chTrimSlot arm_u 0 rem_w (.buck sots)) := by
  obtain ⟨swept, rest, hdrop, hwarm, hturn⟩ := chTrimBuck_swept arm_u sots htwo
  have hcells : cells 0 (.buck sots) = sots.take arm_u.inx_w ++ (swept ++ rest) := by
    rw [← hdrop, List.take_append_drop, cells]
  have hbehind : (sots.take arm_u.inx_w).length =
      past arm_u.mug_w 0 pre (.buck sots) + min arm_u.inx_w (bucked 0 arm_u.mug_w
        (.buck sots)) := by
    rw [past, if_neg (by omega), bucked, List.length_take, Nat.zero_add]
  have htrim : chTrimSlot arm_u 0 rem_w (.buck sots) =
      ((chTrimBuck arm_u sots).1, (chTrimBuck arm_u sots).2.1, some (chTrimBuck arm_u sots).2.2) :=
        rfl
  rw [htrim]
  obtain ⟨rfl, heq⟩ | ⟨kev, rest', arm_u', tos_w, rfl, heq, hcells', harm⟩ := hturn
  · rw [heq]
    have hnext : (arm_u.mug_w + 1) &&& 0x7FFFFFFF = (arm_u.mug_w + 1) % 2 ^ 31 :=
      Nat.and_two_pow_sub_one_eq_mod _ 31
    dsimp only
    rw [hnext]
    refine Swept.kept hcells hbehind hwarm (by omega) (by omega) (by rw [cells, List.append_nil]) ?_
    rw [past, if_pos (by omega), List.length_append, length_cool]
  · rw [heq]
    exact Swept.removed hcells hbehind hwarm hcells' harm

theorem mug_bounds {bit_w : ℕ} (hdiv : mug_w / 2 ^ (5 * lev) = 32 * pre + bit_w) :
    (32 * pre + bit_w) * 2 ^ (5 * lev) ≤ mug_w ∧
    mug_w ≤ (32 * pre + bit_w + 1) * 2 ^ (5 * lev) := by
  rw [← hdiv]
  refine ⟨Nat.div_mul_le_self _ _, ?_⟩
  rw [Nat.mul_comm]
  exact (Nat.lt_mul_div_succ _ (Nat.two_pow_pos _)).le

/-- A slot of a node is between the first and the last mug of the node. -/
theorem slot_bounds {bit_w next : ℕ} (hbit : bit_w < 32)
    (hlow : (32 * pre + bit_w) * 2 ^ (5 * lev) ≤ next)
    (hhigh : next ≤ (32 * pre + bit_w + 1) * 2 ^ (5 * lev)) :
    pre * 2 ^ (5 * (lev + 1)) ≤ next ∧ next ≤ (pre + 1) * 2 ^ (5 * (lev + 1)) := by
  have hpow : 2 ^ (5 * (lev + 1)) = 32 * 2 ^ (5 * lev) := by
    rw [Nat.mul_add, Nat.pow_add, Nat.mul_comm]
  rw [hpow, ← Nat.mul_assoc, ← Nat.mul_assoc]
  exact ⟨(Nat.mul_le_mul_right _ (by omega)).trans hlow,
    hhigh.trans (Nat.mul_le_mul_right _ (by omega))⟩

section Node

variable {map_w : ℕ} {sots : List Slot} {old : Slot} {arm_u : Arm}

/-- The entries of a node around those of one of its slots. -/
theorem exists_node_split (hok : Ok mug (lev + 1) pre (.node map_w sots))
    (hdiv : mug_w / 2 ^ (5 * lev) = 32 * pre + bitOf mug_w lev)
    (hget : Lib.Sparse.get map_w sots (bitOf mug_w lev) = some old) : ∃ before after,
      cells (lev + 1) (.node map_w sots) = before ++ (cells lev old ++ after) ∧
      past mug_w (lev + 1) pre (.node map_w sots) =
        before.length + past mug_w lev (32 * pre + bitOf mug_w lev) old ∧
      ((sots.eraseIdx (rank map_w (bitOf mug_w lev))).flatMap fun tos_w ↦ cells lev tos_w) =
        before ++ after ∧
      ∀ tos_w, cells (lev + 1) (.node map_w (sots.set (rank map_w (bitOf mug_w lev)) tos_w)) =
          before ++ (cells lev tos_w ++ after) ∧
        (Ok mug lev (32 * pre + bitOf mug_w lev) tos_w → ∀ next,
          (32 * pre + bitOf mug_w lev) * 2 ^ (5 * lev) ≤ next →
          next ≤ (32 * pre + bitOf mug_w lev + 1) * 2 ^ (5 * lev) →
            past next (lev + 1) pre (.node map_w (sots.set (rank map_w (bitOf mug_w lev)) tos_w)) =
              before.length + past next lev (32 * pre + bitOf mug_w lev) tos_w) := by
  have hbit := bitOf_lt mug_w lev
  obtain ⟨hlt, hold⟩ := List.getElem?_eq_some_iff.mp (get_eq_some_iff.mp hget).2
  refine ⟨(sots.take (rank map_w (bitOf mug_w lev))).flatMap (cells lev),
    (sots.drop (rank map_w (bitOf mug_w lev) + 1)).flatMap (cells lev), ?_, ?_, ?_,
    fun tos_w ↦ ⟨?_, ?_⟩⟩
  · have hsplit : sots = sots.take (rank map_w (bitOf mug_w lev)) ++ old :: sots.drop
        (rank map_w (bitOf mug_w lev) + 1) := by
      rw [← hold, List.getElem_cons_drop, List.take_append_drop]
    rw [cells]
    nth_rewrite 1 [hsplit]
    rw [List.flatMap_append, List.flatMap_cons]
  · obtain ⟨hlow, hhigh⟩ := mug_bounds hdiv
    rw [hok.past_node hbit hlow hhigh, hget]
    rfl
  · rw [List.eraseIdx_eq_take_drop_succ, List.flatMap_append]
  · rw [cells, List.set_eq_take_append_cons_drop, if_pos hlt, List.flatMap_append,
      List.flatMap_cons]
  · intro htos next hlow hhigh
    have hok' :=
      (hok.node_update hok.1 (by rw [List.length_set]; exact hok.2.1) (get_set hget) htos).1
    have hget' := @get_set _ _ _ _ _ tos_w hget (bitOf mug_w lev)
    rw [if_pos rfl] at hget'
    rw [hok'.past_node hbit hlow hhigh, hget', List.take_set_of_le (Nat.le_refl _)]
    rfl

theorem Swept.node {ret : Bool} {arm_u' : Arm} {tos_w : Option Slot}
    (hok : Ok mug (lev + 1) pre (.node map_w sots)) (hpre : arm_u.mug_w / 2 ^ (5 * (lev + 1)) = pre)
    (hget : Lib.Sparse.get map_w sots (bitOf arm_u.mug_w lev) = some old)
    (htos : ∀ sot_w, tos_w = some sot_w → Ok mug lev (32 * pre + bitOf arm_u.mug_w lev) sot_w)
    (hswept : Swept lev (32 * pre + bitOf arm_u.mug_w lev) arm_u old (ret, arm_u', tos_w)) :
    Swept (lev + 1) pre arm_u (.node map_w sots) (ret, arm_u', some (match tos_w with
      | some tos_w => .node map_w (sots.set (rank map_w (bitOf arm_u.mug_w lev)) tos_w)
      | none =>
        chShrink map_w (bitOf arm_u.mug_w lev) (rank map_w (bitOf arm_u.mug_w lev)) sots)) := by
  obtain ⟨before, after, hcells, hpast, herase, hset⟩ :=
    exists_node_split hok (div_eq_bitOf hpre) hget
  have hbucked : bucked (lev + 1) arm_u.mug_w (.node map_w sots) = bucked lev arm_u.mug_w old := by
    rw [bucked_node, hget]
    rfl
  cases hswept with
  | @kept behind swept rest tos_w next hold hbehind hwarm hlow hhigh hnew hnext =>
    obtain ⟨hcells', hpast'⟩ := hset tos_w
    obtain ⟨hlow', hhigh'⟩ := slot_bounds (bitOf_lt _ _) hlow hhigh
    refine @Swept.kept (lev + 1) pre arm_u _ (before ++ behind) swept
      (rest ++ after) _ next ?_ ?_ hwarm hlow' hhigh' ?_ ?_
    · simp only [hcells, hold, List.append_assoc]
    · rw [List.length_append, hbehind, hpast, hbucked, Nat.add_assoc]
    · simp only [hcells', hnew, List.append_assoc]
    · rw [hpast' (htos tos_w rfl) next hlow hhigh, hnext, List.length_append, Nat.add_assoc]
  | @removed behind swept rest kev arm_u' tos_w hold hbehind hwarm hnew harm =>
    refine @Swept.removed (lev + 1) pre arm_u _ (before ++ behind) swept
      (rest ++ after) kev arm_u' _ ?_ ?_ hwarm ?_ ?_
    · simp only [hcells, hold, List.append_assoc, List.cons_append]
    · rw [List.length_append, hbehind, hpast, hbucked, Nat.add_assoc]
    · cases tos_w with
      | some tos_w =>
        have hsame : (cells lev tos_w).map Prod.fst = _ := hnew
        simp only [cellsOf, (hset tos_w).1, List.map_append, hsame, List.append_assoc]
      | none =>
        have hempty : [] = (behind ++ (swept ++ rest)).map Prod.fst := hnew
        obtain ⟨-, hshrunk⟩ := hok.chShrink (bitOf_lt _ _) hget
        have hall : (before ++ behind ++ (swept ++ (rest ++ after))).map Prod.fst =
            before.map Prod.fst ++ ((behind ++ (swept ++ rest)).map Prod.fst ++
              after.map Prod.fst) := by
          simp only [List.map_append, List.append_assoc]
        rw [hall, ← hempty, List.nil_append, ← List.map_append, ← herase, cellsOf, hshrunk]
    · intro hinx
      obtain ⟨hmug, hpos⟩ := harm hinx
      cases tos_w with
      | none => exact absurd hpos (Nat.lt_irrefl 0)
      | some tos_w =>
        refine ⟨hmug, ?_⟩
        have hget' := @get_set _ _ _ _ _ tos_w hget (bitOf arm_u.mug_w lev)
        rw [if_pos rfl] at hget'
        rw [buckedOf, bucked_node, hget']
        exact hpos

theorem swept_chTrimSlot (hlev : lev ≤ 5) (hok : Ok mug lev pre sot_w)
    (hpre : arm_u.mug_w / 2 ^ (5 * lev) = pre)
    (harm : arm_u.inx_w ≠ 0 → 0 < bucked lev arm_u.mug_w sot_w) :
    Swept lev pre arm_u sot_w (chTrimSlot arm_u lev (arm_u.mug_w % 2 ^ (5 * lev)) sot_w) := by
  have hnoun : ∀ lev' kev warm, bucked lev' arm_u.mug_w (.noun kev warm) = 0 :=
    fun _ _ _ ↦ bucked_noun _ _ _ _
  induction lev generalizing pre sot_w with
  | zero =>
    cases sot_w with
    | noun kev warm =>
      refine swept_noun hlev hpre (not_not.mp fun hinx ↦ ?_) _
      exact absurd (harm hinx) (by rw [hnoun]; exact Nat.lt_irrefl 0)
    | node map_w sots => exact hok.elim
    | buck sots => exact swept_buck (by simpa using hpre) hok.1 _
  | succ lev ih =>
    cases sot_w with
    | noun kev warm =>
      refine swept_noun hlev hpre (not_not.mp fun hinx ↦ ?_) _
      exact absurd (harm hinx) (by rw [hnoun]; exact Nat.lt_irrefl 0)
    | buck sots => exact hok.elim
    | node map_w sots =>
      have hdiv := div_eq_bitOf hpre
      rw [bucked_node] at harm
      rw [chTrimSlot_node hok.2.1]
      cases hget : Lib.Sparse.get map_w sots (bitOf arm_u.mug_w lev) with
      | none =>
        rw [hget] at harm
        have hinx : arm_u.inx_w = 0 := not_not.mp fun hinx ↦ absurd (harm hinx) (Nat.lt_irrefl 0)
        dsimp only
        rw [chSkipSlot_eq (by omega), hdiv, hinx]
        obtain ⟨hlow, hhigh⟩ := mug_bounds hdiv
        have hle :=
          Nat.mul_le_mul_right (2 ^ (5 * lev)) (Nat.le_succ (32 * pre + bitOf arm_u.mug_w lev))
        obtain ⟨hlow', hhigh'⟩ := slot_bounds (bitOf_lt _ _) hle (Nat.le_refl _)
        have hpast := hok.past_node (bitOf_lt _ _) hlow hhigh
        have hpast' := hok.past_node (bitOf_lt _ _) hle (Nat.le_refl _)
        rw [hget, pastOf, Nat.add_zero] at hpast hpast'
        have hcells : cells (lev + 1) (.node map_w sots) =
            (sots.take (rank map_w (bitOf arm_u.mug_w lev))).flatMap (cells lev) ++
              (sots.drop (rank map_w (bitOf arm_u.mug_w lev))).flatMap (cells lev) := by
          rw [← List.flatMap_append, List.take_append_drop, cells]
        refine @Swept.kept (lev + 1) pre arm_u _ _ [] _ _ _ hcells ?_
          (by rintro _ ⟨⟩) hlow' hhigh' hcells hpast'
        rw [hpast, hinx, Nat.zero_min, Nat.add_zero]
      | some old =>
        rw [hget] at harm
        have hold := hok.2.2 _ (bitOf_lt _ _) old hget
        have hswept := ih (by omega) hold hdiv harm
        have hturn := turned_chTrimSlot (by omega) arm_u.mug_w arm_u hold
        dsimp only
        generalize chTrimSlot arm_u lev (arm_u.mug_w % 2 ^ (5 * lev)) old = turn at hswept hturn ⊢
        obtain ⟨ret, arm_u', tos_w⟩ := turn
        have hnode := hswept.node hok hpre hget hturn.ok
        cases tos_w <;> exact hnode

end Node

end Slots

/-! ### Turns on a table -/

section Tables

variable {mug : Noun → Fin (2 ^ 31)} {har_u : Root} {inx_w : Fin 64} {low high : List (Fin 64)}

/-- The root slots before one and those behind it. -/
theorem exists_finRange_split (inx_w : Fin 64) :
    ∃ low high, List.finRange 64 = low ++ inx_w :: high ∧
    (∀ inx ∈ low, inx < inx_w) ∧ ∀ inx ∈ high, inx_w < inx := by
  obtain ⟨low, high, hrange⟩ := List.append_of_mem (List.mem_finRange inx_w)
  have hsorted := List.pairwise_lt_finRange 64
  rw [hrange, List.pairwise_append, List.pairwise_cons] at hsorted
  obtain ⟨-, ⟨hhigh, -⟩, hlow⟩ := hsorted
  exact ⟨low, high, hrange, fun inx hinx ↦ hlow inx hinx inx_w List.mem_cons_self, hhigh⟩

/-- What is passed in a table, when the arm is at one of its root slots or right behind it. -/
theorem RootOk.sum_past (hok : RootOk mug har_u) (hrange : List.finRange 64 = low ++ inx_w :: high)
    (hlow : ∀ inx ∈ low, inx < inx_w) (hhigh : ∀ inx ∈ high, inx_w < inx) {next : ℕ}
    (hfirst : inx_w * 2 ^ 25 ≤ next) (hlast : next ≤ (inx_w + 1) * 2 ^ 25) :
    ((List.finRange 64).map fun inx : Fin 64 ↦ pastOf next 5 inx (har_u.sot_w inx)).sum =
      (low.flatMap fun inx ↦ cellsOf 5 (har_u.sot_w inx)).length + pastOf next 5 inx_w
        (har_u.sot_w inx_w) := by
  rw [hrange]
  refine sum_split (fun inx hinx ↦ ?_) fun inx hinx ↦ ?_
  · cases hslot : har_u.sot_w inx with
    | none => rfl
    | some sot_w =>
      have hlt : (inx : ℕ) < inx_w := hlow inx hinx
      refine (hok.slot inx sot_w hslot).past_of_ge (le_trans ?_ hfirst)
      exact Nat.mul_le_mul_right _ hlt
  · cases har_u.sot_w inx with
    | none => rfl
    | some sot_w =>
      have hlt : (inx_w : ℕ) < inx := hhigh inx hinx
      refine past_of_le (hlast.trans ?_)
      exact Nat.mul_le_mul_right _ hlt

/-- The order of a table whose arm goes on behind some entries of a root slot. Behind the last entry
it is the same as before the first. -/
theorem RootOk.order_eq (hok : RootOk mug har_u) (hrange : List.finRange 64 = low ++ inx_w :: high)
    (hlow : ∀ inx ∈ low, inx < inx_w) (hhigh : ∀ inx ∈ high, inx_w < inx) {next : ℕ}
    (hfirst : inx_w * 2 ^ 25 ≤ next) (hlast : next ≤ (inx_w + 1) * 2 ^ 25)
    (harm : har_u.arm_u = ⟨next % 2 ^ 31, 0⟩) {behind ahead : List (Kev × Bool)}
    (hwalk : walk har_u = (low.flatMap fun inx ↦ cellsOf 5 (har_u.sot_w inx)) ++ (behind ++ ahead))
    (hpast : pastOf next 5 inx_w (har_u.sot_w inx_w) = behind.length) :
    order har_u = ahead ++ ((low.flatMap fun inx ↦ cellsOf 5 (har_u.sot_w inx)) ++ behind) := by
  have hsum := hok.sum_past hrange hlow hhigh hfirst hlast
  rw [hpast, ← List.length_append] at hsum
  rw [← List.append_assoc] at hwalk
  have hlt := inx_w.isLt
  by_cases hwrap : next < 2 ^ 31
  · have hcut : cut har_u =
        ((low.flatMap fun inx ↦ cellsOf 5 (har_u.sot_w inx)) ++ behind).length := by
      rw [cut, harm, Nat.mod_eq_of_lt hwrap, hsum, Nat.zero_min, Nat.add_zero]
    rw [order, hcut, hwalk, List.drop_left, List.take_left]
  · have hnext : next = 2 ^ 31 := by omega
    have hall : ((List.finRange 64).map fun inx : Fin 64 ↦
      pastOf next 5 inx (har_u.sot_w inx)).sum =
        (walk har_u).length := by
      rw [walk, List.length_flatMap]
      refine congrArg List.sum (List.map_congr_left fun inx _ ↦ ?_)
      cases hslot : har_u.sot_w inx with
      | none => rfl
      | some sot_w =>
        rw [hnext]
        exact (hok.slot inx sot_w hslot).past_of_ge (Nat.mul_le_mul_right (2 ^ 25) inx.isLt)
    have hnil : ahead = [] := by
      rw [hall, hwalk, List.length_append] at hsum
      exact List.length_eq_zero_iff.mp (by omega)
    have hcut : cut har_u = 0 := by
      rw [cut, harm, hnext, Nat.mod_self, Nat.zero_min, Nat.add_zero, List.sum_eq_zero]
      intro x hx
      obtain ⟨inx, -, rfl⟩ := List.mem_map.mp hx
      cases har_u.sot_w inx with
      | none => rfl
      | some sot_w => exact past_of_le (Nat.zero_le _)
    rw [order, hcut, List.drop_zero, List.take_zero, List.append_nil, hwalk, hnil, List.append_nil,
      List.nil_append]

theorem rootIndex_bounds {mug_w : ℕ} (hlt : mug_w < 2 ^ 31) :
    (rootIndex mug_w : ℕ) * 2 ^ 25 ≤ mug_w ∧ mug_w ≤ ((rootIndex mug_w : ℕ) + 1) * 2 ^ 25 := by
  rw [rootIndex_val hlt]
  refine ⟨Nat.div_mul_le_self _ _, ?_⟩
  rw [Nat.mul_comm]
  exact (Nat.lt_mul_div_succ _ (Nat.two_pow_pos _)).le

/-- Where the slot of the arm is null, nothing is cooled and the arm goes on behind it. -/
theorem RootOk.order_null (hok : RootOk mug har_u) (harm : ArmOk har_u)
    (hslot : har_u.sot_w (rootIndex har_u.arm_u.mug_w) = none) :
    order (chTrimRoot har_u).2 = order har_u ∧ (chTrimRoot har_u).2.arm_u.inx_w = 0 := by
  have hinx : har_u.arm_u.inx_w = 0 := by
    by_contra hne
    have hpos := harm hne
    rw [hslot] at hpos
    exact Nat.lt_irrefl 0 hpos
  obtain ⟨low, high, hrange, hlow, hhigh⟩ := exists_finRange_split (rootIndex har_u.arm_u.mug_w)
  obtain ⟨hfirst, hlast⟩ := rootIndex_bounds hok.arm
  have hdiv : har_u.arm_u.mug_w / 2 ^ 25 = rootIndex har_u.arm_u.mug_w :=
    (rootIndex_val hok.arm).symm
  have hwalk : walk har_u = (low.flatMap fun inx ↦ cellsOf 5 (har_u.sot_w inx)) ++
      ([] ++ high.flatMap fun inx ↦ cellsOf 5 (har_u.sot_w inx)) := by
    rw [walk, hrange, List.flatMap_append, List.flatMap_cons, hslot]
    rfl
  have hpast : ∀ next, pastOf next 5 (rootIndex har_u.arm_u.mug_w)
      (har_u.sot_w (rootIndex har_u.arm_u.mug_w)) = ([] : List (Kev × Bool)).length := by
    intro next
    rw [hslot]
    rfl
  obtain ⟨arm_u, hnext⟩ : ∃ arm_u : Arm, arm_u =
    ⟨((rootIndex har_u.arm_u.mug_w : ℕ) + 1) * 2 ^ 25 % 2 ^ 31, 0⟩ :=
    ⟨_, rfl⟩
  have hturn : (chTrimRoot har_u).2 = { har_u with arm_u := arm_u } := by
    simp only [chTrimRoot, hslot, chSkipSlot_eq (show 25 ≤ 31 by decide), hdiv, hinx, hnext]
  have hok' : RootOk mug { har_u with arm_u := arm_u } := by
    refine hok.move rfl rfl ?_
    dsimp only
    rw [hnext]
    exact Nat.mod_lt _ (by decide)
  have hle : (rootIndex har_u.arm_u.mug_w : ℕ) * 2 ^ 25 ≤
    ((rootIndex har_u.arm_u.mug_w : ℕ) + 1) * 2 ^ 25 :=
    hfirst.trans hlast
  rw [hturn]
  refine ⟨?_, by rw [hnext]⟩
  rw [hok'.order_eq hrange hlow hhigh hle (Nat.le_refl _) hnext hwalk (hpast _),
    hok.order_eq hrange hlow hhigh hfirst hlast ?_ hwalk (hpast _)]
  rw [Nat.mod_eq_of_lt hok.arm, ← hinx]

/-- A turn of the clock on a table: it cools some warm entries at the head of the order and goes on
behind them, or it removes the first cold entry. -/
theorem RootOk.swept_chTrimRoot (hok : RootOk mug har_u) (harm : ArmOk har_u) :
    ∃ swept rest, order har_u = swept ++ rest ∧ (∀ kev ∈ swept, kev.2 = true) ∧
      (((chTrimRoot har_u).1 = false ∧ order (chTrimRoot har_u).2 = rest ++ cool swept ∧
          ArmOk (chTrimRoot har_u).2) ∨
        ∃ kev rest', (chTrimRoot har_u).1 = true ∧ rest = (kev, false) :: rest' ∧
          ((walk (chTrimRoot har_u).2).map Prod.fst).Perm ((swept ++ rest').map Prod.fst) ∧
          ArmOk (chTrimRoot har_u).2) := by
  cases hslot : har_u.sot_w (rootIndex har_u.arm_u.mug_w) with
  | none =>
    obtain ⟨horder, hinx⟩ := hok.order_null harm hslot
    refine ⟨[], order har_u, rfl, nofun, Or.inl ⟨?_, ?_, fun hne ↦ absurd hinx hne⟩⟩
    · simp only [chTrimRoot, hslot]
    · rw [horder]
      exact (List.append_nil _).symm
  | some sot_w =>
    obtain ⟨low, high, hrange, hlow, hhigh⟩ := exists_finRange_split (rootIndex har_u.arm_u.mug_w)
    obtain ⟨hfirst, hlast⟩ := rootIndex_bounds hok.arm
    have hdiv : har_u.arm_u.mug_w / 2 ^ (5 * 5) = rootIndex har_u.arm_u.mug_w :=
      (rootIndex_val hok.arm).symm
    have hok' := hok.turned_chTrimRoot.ok
    have hbucked : har_u.arm_u.inx_w ≠ 0 → 0 < bucked 5 har_u.arm_u.mug_w sot_w := by
      intro hne
      have hpos := harm hne
      rw [hslot] at hpos
      exact hpos
    have hswept := swept_chTrimSlot (Nat.le_refl 5) (hok.slot _ _ hslot) hdiv hbucked
    have hroot : chTrimRoot har_u =
      ((chTrimSlot har_u.arm_u 5 (har_u.arm_u.mug_w % 2 ^ (5 * 5)) sot_w).1,
        { har_u with
          arm_u := (chTrimSlot har_u.arm_u 5 (har_u.arm_u.mug_w % 2 ^ (5 * 5)) sot_w).2.1
          sot_w := Function.update har_u.sot_w (rootIndex har_u.arm_u.mug_w)
            (chTrimSlot har_u.arm_u 5 (har_u.arm_u.mug_w % 2 ^ (5 * 5)) sot_w).2.2 }) := by
      simp only [chTrimRoot, hslot, cutEnd_eq]
    rw [hroot] at hok' ⊢
    generalize chTrimSlot har_u.arm_u 5 (har_u.arm_u.mug_w % 2 ^ (5 * 5)) sot_w =
      turn at hswept hok' ⊢
    obtain ⟨before, hbefore⟩ : ∃ before, before =
      low.flatMap fun inx ↦ cellsOf 5 (har_u.sot_w inx) := ⟨_, rfl⟩
    obtain ⟨after, hafter⟩ : ∃ after, after = high.flatMap fun inx ↦ cellsOf 5 (har_u.sot_w inx) :=
      ⟨_, rfl⟩
    have hwalk : walk har_u = before ++ (cells 5 sot_w ++ after) := by
      rw [walk, hrange, List.flatMap_append, List.flatMap_cons, hslot, hbefore, hafter]
      rfl
    have hsame : ∀ range : List (Fin 64), (∀ inx ∈ range, inx ≠ rootIndex har_u.arm_u.mug_w) →
      ∀ tos_w,
        (range.flatMap fun inx ↦
          cellsOf 5 (Function.update har_u.sot_w (rootIndex har_u.arm_u.mug_w) tos_w inx)) =
          range.flatMap fun inx ↦ cellsOf 5 (har_u.sot_w inx) := by
      intro range hother tos_w
      refine List.flatMap_congr fun inx hinx ↦ ?_
      rw [Function.update_of_ne (hother inx hinx)]
    have hbefore' :=
      fun tos_w ↦ (hsame low (fun inx hinx ↦ Fin.ne_of_lt (hlow inx hinx)) tos_w).trans hbefore.symm
    have hafter' :=
      fun tos_w ↦ (hsame high (fun inx hinx ↦ (Fin.ne_of_lt (hhigh inx hinx)).symm) tos_w).trans
        hafter.symm
    have hwalk' : ∀ max_w use_w arm_u tos_w, walk ⟨max_w, use_w, arm_u,
        Function.update har_u.sot_w (rootIndex har_u.arm_u.mug_w) tos_w⟩ =
          before ++ (cellsOf 5 tos_w ++ after) := by
      intro max_w use_w arm_u tos_w
      rw [walk, hrange, List.flatMap_append, List.flatMap_cons]
      dsimp only
      rw [hbefore', hafter', Function.update_self]
    have horder : ∀ behind rest, cells 5 sot_w = behind ++ rest →
        behind.length = past har_u.arm_u.mug_w 5 (rootIndex har_u.arm_u.mug_w) sot_w +
          min har_u.arm_u.inx_w (bucked 5 har_u.arm_u.mug_w sot_w) →
        order har_u = rest ++ after ++ (before ++ behind) := by
      intro behind rest hcells hbehind
      have hcut : cut har_u = (before ++ behind).length := by
        have hsum := hok.sum_past hrange hlow hhigh hfirst hlast
        rw [hslot, pastOf, ← hbefore] at hsum
        rw [cut, hsum, hslot, buckedOf, List.length_append, hbehind, Nat.add_assoc]
      have hall : walk har_u = (before ++ behind) ++ (rest ++ after) := by
        rw [hwalk, hcells]
        simp only [List.append_assoc]
      rw [order, hcut, hall, List.drop_left, List.take_left]
    cases hswept with
    | @kept behind swept rest tos_w next hcells hbehind hwarm hlow' hhigh' hcells' hpast =>
      refine ⟨swept, rest ++ after ++ (before ++ behind), ?_, hwarm,
        Or.inl ⟨rfl, ?_, fun h ↦ absurd rfl h⟩⟩
      · rw [horder behind _ hcells hbehind]
        simp only [List.append_assoc]
      · have hahead : walk ⟨har_u.max_w, har_u.use_w, ⟨next % 2 ^ 31, 0⟩,
            Function.update har_u.sot_w (rootIndex har_u.arm_u.mug_w) (some tos_w)⟩ =
            (low.flatMap fun inx ↦ cellsOf 5
              (Function.update har_u.sot_w (rootIndex har_u.arm_u.mug_w) (some tos_w) inx)) ++
              ((behind ++ cool swept) ++ (rest ++ after)) := by
          rw [hwalk', hbefore', cellsOf, hcells']
          simp only [List.append_assoc]
        have hok'' : RootOk mug ⟨har_u.max_w, har_u.use_w, ⟨next % 2 ^ 31, 0⟩,
            Function.update har_u.sot_w (rootIndex har_u.arm_u.mug_w) (some tos_w)⟩ := hok'
        have hpassed : pastOf next 5 (rootIndex har_u.arm_u.mug_w) (Function.update har_u.sot_w
            (rootIndex har_u.arm_u.mug_w) (some tos_w) (rootIndex har_u.arm_u.mug_w)) =
            (behind ++ cool swept).length := by
          rw [Function.update_self, pastOf, hpast, List.length_append, length_cool]
        have heq := hok''.order_eq hrange hlow hhigh hlow' hhigh' rfl hahead hpassed
        dsimp only at heq ⊢
        rw [heq, hbefore']
        simp only [List.append_assoc]
    | @removed behind swept rest kev arm_u' tos_w hcells hbehind hwarm hcells' harm' =>
      refine ⟨swept, (kev, false) :: (rest ++ after ++ (before ++ behind)), ?_, hwarm,
        Or.inr ⟨kev, rest ++ after ++ (before ++ behind), rfl, rfl, ?_, fun hne ↦ ?_⟩⟩
      · rw [horder behind _ hcells hbehind]
        simp only [List.append_assoc, List.cons_append]
      · dsimp only
        rw [hwalk']
        simp only [List.map_append, hcells']
        have hturned : ∀ a b c d e : List Kev, (a ++ (b ++ (c ++ d) ++ e)).Perm
            (c ++ (d ++ e ++ (a ++ b))) := by
          intro a b c d e
          have hsplit : (a ++ b) ++ (c ++ (d ++ e)) = a ++ (b ++ (c ++ d) ++ e) := by
            simp only [List.append_assoc]
          rw [← hsplit]
          refine List.perm_append_comm.trans ?_
          simp only [List.append_assoc]
          exact List.Perm.refl _
        exact hturned _ _ _ _ _
      · obtain ⟨hmug, hpos⟩ := harm' hne
        dsimp only at hmug ⊢
        rw [hmug, Function.update_self]
        exact hpos

theorem order_perm (har_u : Root) : (order har_u).Perm (walk har_u) := by
  refine List.perm_append_comm.trans ?_
  rw [List.take_append_drop]

/-- A table that has one entry too many loses the victim of its order. -/
theorem RootOk.trimTo_victim {n_w : ℕ} (fuel : ℕ) (hok : RootOk mug har_u) (harm : ArmOk har_u)
    (huse : har_u.use_w = n_w + 1) {har_u' : Root}
    (hrun : Hashtable.trimTo n_w fuel har_u = some har_u') :
    ∃ kev, victim (order har_u) = some kev ∧
      ((walk har_u).map Prod.fst).Perm (kev :: (walk har_u').map Prod.fst) := by
  induction fuel generalizing har_u with
  | zero => cases hrun
  | succ fuel ih =>
    have hturn := hok.turned_chTrimRoot
    have huse' := hturn.use
    obtain ⟨swept, rest, horder, hwarm, hkept | hremoved⟩ := hok.swept_chTrimRoot harm
    · obtain ⟨hret, horder', harm'⟩ := hkept
      have htrims := hturn.trims
      rw [hret] at htrims
      have hafter : afterTurn (chTrimRoot har_u) = (chTrimRoot har_u).2 := by
        rw [afterTurn, hret]
        rfl
      rw [trimTo_succ, if_pos (by omega), hafter] at hrun
      obtain ⟨kev, hvictim, hperm⟩ := ih (hafter ▸ hturn.ok) harm' (huse'.trans huse) hrun
      refine ⟨kev, ?_, htrims.1 ▸ hperm⟩
      rw [horder, ← victim_sweep hwarm, ← horder', hvictim]
    · obtain ⟨kev, rest', hret, rfl, hperm, -⟩ := hremoved
      have hcount : (afterTurn (chTrimRoot har_u)).use_w = n_w := by
        rw [afterTurn, hret, if_pos rfl, huse', huse, Nat.add_sub_cancel]
      have hsame : har_u' = afterTurn (chTrimRoot har_u) := by
        rw [trimTo_succ, if_pos (by omega)] at hrun
        cases fuel with
        | zero => cases hrun
        | succ fuel =>
          rw [trimTo_succ, hcount, if_neg (Nat.lt_irrefl _)] at hrun
          exact (Option.some.inj hrun).symm
      have hwalk : walk (afterTurn (chTrimRoot har_u)) = walk (chTrimRoot har_u).2 := walk_congr rfl
      refine ⟨kev, horder ▸ victim_cold hwarm, ?_⟩
      rw [hsame, hwalk]
      have hfirst := (order_perm har_u).symm.map Prod.fst
      rw [horder] at hfirst
      refine hfirst.trans ?_
      simp only [List.map_append, List.map_cons] at hperm ⊢
      exact List.perm_middle.trans (hperm.symm.cons kev)

/-- Trimming leaves the arm at an index only where there is a bucket. -/
theorem ArmOk.trimTo {n_w : ℕ} (fuel : ℕ) (hok : RootOk mug har_u) (harm : ArmOk har_u)
    {har_u' : Root} (hrun : Hashtable.trimTo n_w fuel har_u = some har_u') : ArmOk har_u' := by
  induction fuel generalizing har_u with
  | zero => cases hrun
  | succ fuel ih =>
    rw [trimTo_succ] at hrun
    split_ifs at hrun
    · refine ih hok.turned_chTrimRoot.ok ?_ hrun
      obtain ⟨-, -, -, -, ⟨-, -, harm'⟩ | ⟨-, -, -, -, -, harm'⟩⟩ := hok.swept_chTrimRoot harm
      · exact harm'
      · exact harm'
    · obtain rfl := Option.some.inj hrun
      exact harm

end Tables

end Vere.Noun.Hashtable
