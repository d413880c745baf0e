import Vere.Noun.HashtableClock

/-!
# What a cache keeps

Where a key that a table does not hold would go in its walk (`place`), and how far the clock arm
would be then (`passed`), can be told before it is put there. `u3h_put()` on a cache that is full of
warm entries removes the entry that it puts, if the arm is right at its place (`put_kept_iff`).
-/

set_option autoImplicit false

namespace Vere.Noun.Hashtable

open Lib.Sparse Lib.Fuel Lib.Clock

variable (mug : Noun → Fin (2 ^ 31))

/-- The level of the slots of two different mugs below a slot of both. -/
def part : ℕ → ℕ → ℕ → ℕ
  | 0, _, _ => 0
  | lev + 1, ham_w, mad_w => if bitOf ham_w lev = bitOf mad_w lev then part lev ham_w mad_w else lev

/-- The number of entries of a slot in front of the place of a mug. -/
def place (mug_w : ℕ) : ℕ → Slot → ℕ
  | _, .noun kov _ => if mug kov.key ≤ mug_w then 1 else 0
  | lev + 1, .node map_w sot_w =>
    ((sot_w.take (rank map_w (bitOf mug_w lev))).flatMap (cells lev)).length +
      match Lib.Sparse.get map_w sot_w (bitOf mug_w lev) with
      | some tos_w => place mug_w lev tos_w
      | none => 0
  | _, _ => 0

/-- Whether an arm is past the slot of a mug. -/
def isPast (arm_w lev mug_w : ℕ) :
    ℕ := if mug_w / 2 ^ (5 * lev) < arm_w / 2 ^ (5 * lev) then 1 else 0

/-- The number of entries of a slot that an arm would be past, if a key of a mug were put there. -/
def passed (arm_w mug_w : ℕ) : ℕ → ℕ → Slot → ℕ
  | lev, _, .noun kov _ =>
    isPast arm_w (part lev (mug kov.key) mug_w) (mug kov.key) + isPast arm_w (part lev
      (mug kov.key) mug_w) mug_w
  | 0, pre, .buck sot_w => if pre + 1 ≤ arm_w then sot_w.length + 1 else 0
  | lev + 1, pre, .node map_w sot_w => ((List.range 32).map fun bit_w ↦
      if bit_w = bitOf mug_w lev then
        match Lib.Sparse.get map_w sot_w bit_w with
        | some tos_w => passed arm_w mug_w lev (32 * pre + bit_w) tos_w
        | none => isPast arm_w lev mug_w
      else pastOf arm_w lev (32 * pre + bit_w) (Lib.Sparse.get map_w sot_w bit_w)).sum
  | _, _, _ => 0

/-- The place of a mug in a slot that may be null. -/
def placeOf (mug_w lev : ℕ) : Option Slot → ℕ
  | some sot_w => place mug mug_w lev sot_w
  | none => 0

/-- What an arm would be past in a slot that may be null. -/
def passedOf (arm_w mug_w lev pre : ℕ) : Option Slot → ℕ
  | some sot_w => passed mug arm_w mug_w lev pre sot_w
  | none => isPast arm_w lev mug_w

/-- The number of entries of a table in front of the place of a key. -/
def keyPlace (har_u : Root) (key : Noun) : ℕ :=
  (((List.finRange 64).filter (· < rootIndex (mug key))).flatMap fun inx_w ↦
    cellsOf 5 (har_u.sot_w inx_w)).length +
    placeOf mug (mug key) 5 (har_u.sot_w (rootIndex (mug key)))

/-- The number of entries of a table that its arm would be past, if a key were put there. -/
def keyCut (har_u : Root) (key : Noun) : ℕ :=
  ((List.finRange 64).map fun inx_w : Fin 64 ↦
      if inx_w = rootIndex (mug key) then
        passedOf mug har_u.arm_u.mug_w (mug key) 5 inx_w (har_u.sot_w inx_w)
      else pastOf har_u.arm_u.mug_w 5 inx_w (har_u.sot_w inx_w)).sum +
    min har_u.arm_u.inx_w (buckedOf 5 har_u.arm_u.mug_w
      (har_u.sot_w (rootIndex har_u.arm_u.mug_w)) +
      if har_u.arm_u.mug_w = mug key then 1 else 0)

/-- The arm of a table is right at the place of a key. -/
def Aimed (har_u : Root) (key : Noun) : Prop :=
  keyPlace mug har_u key = if keyCut mug har_u key < har_u.use_w + 1 then
    keyCut mug har_u key else 0

instance (har_u : Root) (key : Noun) : Decidable (Aimed mug har_u key) :=
  inferInstanceAs (Decidable (_ = _))

/-! ### A slot that an entry is put in -/

section Slots

variable {mug} {lev pre mug_w arm_w : ℕ} {kev : Kev} {sot_w : Slot}

theorem isPast_eq (hpre : mug_w / 2 ^ (5 * lev) = pre) :
    isPast arm_w lev mug_w = if (pre + 1) * 2 ^ (5 * lev) ≤ arm_w then 1 else 0 := by
  have hpos : 0 < 2 ^ (5 * lev) := Nat.two_pow_pos _
  rw [isPast, hpre]
  simp only [Nat.lt_iff_add_one_le, Nat.le_div_iff_mul_le hpos]

/-- A sum in which one term is replaced. -/
theorem sum_replace (f g : ℕ → ℕ) {here bound : ℕ} (hlt : here < bound) :
    ((List.range bound).map fun i ↦ if i = here then g i else f i).sum + f here =
      ((List.range bound).map f).sum + g here := by
  induction bound with
  | zero => omega
  | succ bound ih =>
    rw [List.range_succ, List.map_append, List.map_append, List.sum_append, List.sum_append]
    simp only [List.map_cons, List.map_nil, List.sum_cons, List.sum_nil, Nat.add_zero]
    by_cases heq : here = bound
    · subst heq
      rw [if_pos rfl]
      have hsame : ((List.range here).map fun i ↦ if i = here then g i else f i) =
        (List.range here).map f :=
        List.map_congr_left fun i hi ↦ if_neg (List.mem_range.mp hi).ne
      rw [hsame]
      omega
    · rw [if_neg (Ne.symm heq)]
      have hbelow := ih (by omega)
      omega

theorem sum_single (g : ℕ → ℕ) {here bound : ℕ} (hlt : here < bound) :
    ((List.range bound).map fun i ↦ if i = here then g i else 0).sum = g here := by
  simpa using sum_replace (fun _ ↦ 0) g hlt

theorem past_update {map_w map_w' bit_w : ℕ} {sots sots' : List Slot} {tos_w : Slot}
    (hget : ∀ bit, Lib.Sparse.get map_w' sots' bit = if bit = bit_w then
      some tos_w else Lib.Sparse.get map_w sots bit) :
    past arm_w (lev + 1) pre (.node map_w' sots') = ((List.range 32).map fun bit ↦
      if bit = bit_w then past arm_w lev (32 * pre + bit) tos_w
      else pastOf arm_w lev (32 * pre + bit) (Lib.Sparse.get map_w sots bit)).sum := by
  rw [past_node_eq]
  refine congrArg List.sum (List.map_congr_left fun bit _ ↦ ?_)
  rw [hget]
  split_ifs <;> rfl

theorem get_single {bit_w : ℕ} (hbit : bit_w < 32) (tos_w : Slot) (bit : ℕ) :
    Lib.Sparse.get (1 <<< bit_w) [tos_w] bit = if bit = bit_w then some tos_w else Lib.Sparse.get 0
      [] bit := by
  have hget := @get_insertIdx _ _ _ _ _ (extends_single bit_w) hbit ([] : List Slot)
    (by simp) tos_w bit
  rwa [rank_zero, List.insertIdx_zero] at hget

theorem past_single {bit_w : ℕ} (hbit : bit_w < 32) (tos_w : Slot) :
    past arm_w (lev + 1) pre (.node (1 <<< bit_w) [tos_w]) =
      past arm_w lev (32 * pre + bit_w) tos_w := by
  rw [past_update (get_single hbit tos_w),
    ← sum_single (fun bit ↦ past arm_w lev (32 * pre + bit) tos_w) hbit]
  refine congrArg List.sum (List.map_congr_left fun bit _ ↦ ?_)
  rw [get_of_not_testBit (by simp)]
  rfl

/-- `_ch_two` keeps two entries in the order of their mugs, and the new one behind the other one of
the same mug. -/
theorem chTwo_place (had_w add_w : Kev × Bool) {ham_w mad_w : ℕ}
    (hham : ham_w / 2 ^ (5 * lev) = pre) (hmad : mad_w / 2 ^ (5 * lev) = pre) :
    cells lev (chTwo had_w add_w lev (ham_w % 2 ^ (5 * lev)) (mad_w % 2 ^ (5 * lev))) =
        (if ham_w ≤ mad_w then [had_w, add_w] else [add_w, had_w]) ∧
      past arm_w lev pre (chTwo had_w add_w lev (ham_w % 2 ^ (5 * lev)) (mad_w % 2 ^ (5 * lev))) =
        isPast arm_w (part lev ham_w mad_w) ham_w + isPast arm_w (part lev ham_w mad_w) mad_w := by
  induction lev generalizing pre with
  | zero =>
    have hsame : ham_w = mad_w := by
      rw [← hmad] at hham
      simpa using hham
    subst hsame
    rw [if_pos (Nat.le_refl _), part, isPast_eq hham]
    refine ⟨rfl, ?_⟩
    simp only [chTwo, past, Nat.mul_zero, Nat.pow_zero, Nat.mul_one]
    split_ifs <;> rfl
  | succ lev ih =>
    obtain ⟨-, hrem, -⟩ := fragment ham_w lev
    obtain ⟨-, hrem', -⟩ := fragment mad_w lev
    have hlt := bitOf_lt ham_w lev
    have hham' := div_eq_bitOf hham
    have hmad' := div_eq_bitOf hmad
    simp only [chTwo, hrem, hrem', shiftRight_eq_bitOf, part]
    by_cases heq : bitOf ham_w lev = bitOf mad_w lev
    · rw [if_pos heq, if_pos heq, past_single hlt]
      rw [← heq] at hmad'
      obtain ⟨hcells, hpast⟩ := ih hham' hmad'
      refine ⟨?_, hpast⟩
      rw [← hcells, cells, List.flatMap_singleton]
    · rw [if_neg heq, if_neg heq]
      have horder : ham_w ≤ mad_w ↔ bitOf ham_w lev < bitOf mad_w lev := by
        constructor
        · intro hle
          have hdiv := Nat.div_le_div_right (c := 2 ^ (5 * lev)) hle
          omega
        · intro hbit
          by_contra hgt
          have hdiv := Nat.div_le_div_right (c := 2 ^ (5 * lev)) (Nat.le_of_not_le hgt)
          omega
      have hclear : ¬ (1 <<< bitOf ham_w lev).testBit (bitOf mad_w lev) := by
        rw [Nat.one_shiftLeft, Nat.testBit_two_pow]
        simpa using heq
      have hrank : rank (1 <<< bitOf ham_w lev) (bitOf mad_w lev) =
          if bitOf ham_w lev < bitOf mad_w lev then 1 else 0 := by
        rw [(extends_single _).rank_eq, rank_zero, Nat.zero_add]
      have hlength : [Slot.noun had_w.1 had_w.2].length = rank (1 <<< bitOf ham_w lev) 32 := by
        rw [(extends_single _).rank_eq, rank_zero, if_pos hlt]
        rfl
      have hget := get_insertIdx (extends_or hclear) (bitOf_lt mad_w lev) hlength
        (Slot.noun add_w.1 add_w.2)
      have hboth : [Slot.noun had_w.1 had_w.2].insertIdx
        (rank (1 <<< bitOf ham_w lev) (bitOf mad_w lev))
          (.noun add_w.1 add_w.2) = if bitOf ham_w lev < bitOf mad_w lev
            then [.noun had_w.1 had_w.2, .noun add_w.1 add_w.2]
            else [.noun add_w.1 add_w.2, .noun had_w.1 had_w.2] := by
        rw [hrank]
        split_ifs <;> rfl
      rw [hboth] at hget
      refine ⟨?_, ?_⟩
      · simp only [horder]
        split_ifs
        · simp [cells]
        · simp [cells]
      · rw [past_update hget]
        have hsum := sum_replace
          (fun bit ↦ pastOf arm_w lev (32 * pre + bit)
            (Lib.Sparse.get (1 <<< bitOf ham_w lev) [.noun had_w.1 had_w.2] bit))
          (fun bit ↦ past arm_w lev (32 * pre + bit) (.noun add_w.1 add_w.2)) (bitOf_lt mad_w lev)
        have hnone : Lib.Sparse.get (1 <<< bitOf ham_w lev) [Slot.noun had_w.1 had_w.2]
          (bitOf mad_w lev) = none :=
          get_of_not_testBit hclear
        rw [← past_node_eq, past_single hlt, hnone, pastOf, Nat.add_zero] at hsum
        rw [hsum, past_noun, past_noun, isPast_eq hham', isPast_eq hmad']

/-- An entry is put in a slot at its place. -/
structure Placed (mug : Noun → Fin (2 ^ 31)) (lev pre : ℕ) (kev : Kev) (sot_w tos_w : Slot) :
    Prop where
  cells : ∃ before after, cells lev sot_w = before ++ after ∧
    cells lev tos_w = before ++ (kev, true) :: after ∧
    before.length = place mug (mug kev.key) lev sot_w
  past : ∀ arm_w, past arm_w lev pre tos_w = passed mug arm_w (mug kev.key) lev pre sot_w
  bucked : ∀ arm_w, arm_w / 2 ^ (5 * lev) = pre → 0 < bucked lev arm_w sot_w →
    bucked lev arm_w tos_w = bucked lev arm_w sot_w + if arm_w = mug kev.key then 1 else 0

theorem Placed.noun {kov : Kev} {warm : Bool} (hkov : (mug kov.key : ℕ) / 2 ^ (5 * lev) = pre)
    (hkev : (mug kev.key : ℕ) / 2 ^ (5 * lev) = pre) (hne : kev.key ≠ kov.key) :
    Placed mug lev pre kev (.noun kov warm)
      (chSlotPut mug kev lev ((mug kev.key : ℕ) % 2 ^ (5 * lev)) (.noun kov warm)).1 := by
  have hput : (chSlotPut mug kev lev ((mug kev.key : ℕ) % 2 ^ (5 * lev)) (.noun kov warm)).1 =
      chTwo (kov, warm) (kev, true) lev ((mug kov.key : ℕ) % 2 ^ (5 * lev))
        ((mug kev.key : ℕ) % 2 ^ (5 * lev)) := by
    rw [← cutEnd_eq (mug kov.key)]
    cases lev <;> simp only [chSlotPut, if_neg hne]
  have hplace : place mug (mug kev.key) lev (.noun kov warm) =
      if (mug kov.key : ℕ) ≤ mug kev.key then 1 else 0 := by
    cases lev <;> rfl
  have hpassed : ∀ arm_w, passed mug arm_w (mug kev.key) lev pre (.noun kov warm) =
      isPast arm_w (part lev (mug kov.key) (mug kev.key)) (mug kov.key) +
        isPast arm_w (part lev (mug kov.key) (mug kev.key)) (mug kev.key) := by
    intro arm_w
    cases lev <;> rfl
  rw [hput]
  refine ⟨?_, fun arm_w ↦ ?_, fun arm_w _ hpos ↦ ?_⟩
  · rw [(@chTwo_place lev pre 0 (kov, warm) (kev, true) _ _ hkov hkev).1, hplace, cells_noun]
    split_ifs with hle
    · exact ⟨[(kov, warm)], [], rfl, rfl, rfl⟩
    · exact ⟨[], [(kov, warm)], rfl, rfl, rfl⟩
  · rw [hpassed]
    exact (chTwo_place (kov, warm) (kev, true) hkov hkev).2
  · rw [bucked_noun] at hpos
    exact absurd hpos (Nat.lt_irrefl 0)

theorem Placed.buck {sots : List (Kev × Bool)} (hpre : (mug kev.key : ℕ) = pre)
    (habsent : ∀ kov ∈ sots, kov.1.key ≠ kev.key) :
    Placed mug 0 pre kev (.buck sots) (.buck (chBuckAdd kev sots).1) := by
  have hnone : (sots.findIdx? fun kov ↦ kev.key = kov.1.key) = none := by
    rw [List.findIdx?_eq_none_iff]
    intro kov hkov
    simpa using (habsent kov hkov).symm
  have hadd : (chBuckAdd kev sots).1 = (kev, true) :: sots := by
    rw [chBuckAdd, hnone]
  rw [hadd]
  refine ⟨⟨[], sots, rfl, rfl, rfl⟩, fun arm_w ↦ rfl, fun arm_w harm _ ↦ ?_⟩
  have hsame : arm_w = mug kev.key := by
    rw [hpre, ← harm]
    simp
  rw [if_pos hsame]
  rfl

/-- Putting an entry in an occupied slot of a node. -/
theorem Placed.node_set {map_w : ℕ} {sots : List Slot} {old new : Slot}
    (hold : Lib.Sparse.get map_w sots (bitOf (mug kev.key) lev) = some old)
    (hplaced : Placed mug lev (32 * pre + bitOf (mug kev.key) lev) kev old new) :
    Placed mug (lev + 1) pre kev (.node map_w sots)
      (.node map_w (sots.set (rank map_w (bitOf (mug kev.key) lev)) new)) := by
  refine ⟨?_, fun arm_w ↦ ?_, fun arm_w harm hpos ↦ ?_⟩
  · obtain ⟨before, after, hcells, hcells', hlength⟩ := hplaced.cells
    obtain ⟨hlt, hslot⟩ := List.getElem?_eq_some_iff.mp (get_eq_some_iff.mp hold).2
    have hsplit : sots = sots.take (rank map_w (bitOf (mug kev.key) lev)) ++
        old :: sots.drop (rank map_w (bitOf (mug kev.key) lev) + 1) := by
      rw [← hslot, List.getElem_cons_drop, List.take_append_drop]
    refine ⟨(sots.take (rank map_w (bitOf (mug kev.key) lev))).flatMap
      (Hashtable.cells lev) ++ before,
      after ++ (sots.drop (rank map_w (bitOf (mug kev.key) lev) + 1)).flatMap (Hashtable.cells lev),
      ?_, ?_, ?_⟩
    · rw [Hashtable.cells]
      nth_rewrite 1 [hsplit]
      rw [List.flatMap_append, List.flatMap_cons, hcells]
      simp only [List.append_assoc]
    · rw [Hashtable.cells, List.set_eq_take_append_cons_drop, if_pos hlt, List.flatMap_append,
        List.flatMap_cons, hcells']
      simp only [List.append_assoc, List.cons_append]
    · rw [List.length_append, hlength, place, hold]
  · rw [past_update (get_set hold), passed]
    refine congrArg List.sum (List.map_congr_left fun bit _ ↦ ?_)
    split_ifs with heq
    · rw [heq, hold]
      exact hplaced.past arm_w
    · rfl
  · have harm' := div_eq_bitOf harm
    rw [bucked_node] at hpos ⊢
    rw [bucked_node, get_set hold]
    split_ifs with heq hsame hsame
    · rw [heq, hold] at hpos ⊢
      rw [heq] at harm'
      have hbucked := hplaced.bucked arm_w harm' hpos
      rwa [if_pos hsame] at hbucked
    · rw [heq, hold] at hpos ⊢
      rw [heq] at harm'
      have hbucked := hplaced.bucked arm_w harm' hpos
      rwa [if_neg hsame] at hbucked
    · exact absurd (by rw [hsame]) heq
    · rfl

/-- Putting an entry in a free slot of a node. -/
theorem Placed.node_insert {map_w : ℕ} {sots : List Slot}
    (hok : Ok mug (lev + 1) pre (.node map_w sots))
    (hpre : (mug kev.key : ℕ) / 2 ^ (5 * (lev + 1)) = pre)
    (hclear : ¬ map_w.testBit (bitOf (mug kev.key) lev)) :
    Placed mug (lev + 1) pre kev (.node map_w sots)
      (.node (map_w ||| 1 <<< bitOf (mug kev.key) lev)
        (sots.insertIdx (rank map_w (bitOf (mug kev.key) lev)) (.noun kev true))) := by
  have hbit := bitOf_lt (mug kev.key) lev
  have hle : rank map_w (bitOf (mug kev.key) lev) ≤ sots.length :=
    hok.2.1 ▸ rank_mono map_w (Nat.le_of_lt hbit)
  have hnone : Lib.Sparse.get map_w sots (bitOf (mug kev.key) lev) = none :=
    get_of_not_testBit hclear
  have hget := get_insertIdx (extends_or hclear) hbit hok.2.1 (Slot.noun kev true)
  refine ⟨?_, fun arm_w ↦ ?_, fun arm_w harm hpos ↦ ?_⟩
  · refine ⟨(sots.take (rank map_w (bitOf (mug kev.key) lev))).flatMap (Hashtable.cells lev),
      (sots.drop (rank map_w (bitOf (mug kev.key) lev))).flatMap (Hashtable.cells lev), ?_, ?_, ?_⟩
    · rw [← List.flatMap_append, List.take_append_drop, Hashtable.cells]
    · rw [Hashtable.cells, insertIdx_eq hle, List.flatMap_append, List.flatMap_cons, cells_noun]
      rfl
    · rw [place, hnone, Nat.add_zero]
  · rw [past_update hget, passed]
    refine congrArg List.sum (List.map_congr_left fun bit _ ↦ ?_)
    split_ifs with heq
    · rw [heq, hnone, past_noun, isPast_eq (div_eq_bitOf hpre)]
    · rfl
  · rw [bucked_node] at hpos ⊢
    rw [bucked_node, hget]
    split_ifs with heq hsame hsame
    · rw [heq, hnone] at hpos
      exact absurd hpos (Nat.lt_irrefl 0)
    · rw [heq, hnone] at hpos
      exact absurd hpos (Nat.lt_irrefl 0)
    · exact absurd (by rw [hsame]) heq
    · rfl

/-- `_ch_slot_put()` puts an entry of a key that the slot does not hold at its place. -/
theorem placed_chSlotPut (hok : Ok mug lev pre sot_w)
    (hpre : (mug kev.key : ℕ) / 2 ^ (5 * lev) = pre)
    (habsent : ∀ kov ∈ cells lev sot_w, kov.1.key ≠ kev.key) :
    Placed mug lev pre kev sot_w (chSlotPut mug kev lev
      ((mug kev.key : ℕ) % 2 ^ (5 * lev)) sot_w).1 := by
  induction lev generalizing pre sot_w with
  | zero =>
    cases sot_w with
    | noun kov warm => exact Placed.noun hok hpre (habsent (kov, warm) List.mem_cons_self).symm
    | buck sots => exact Placed.buck (by simpa using hpre) habsent
    | node map_w sots => exact hok.elim
  | succ lev ih =>
    cases sot_w with
    | noun kov warm => exact Placed.noun hok hpre (habsent (kov, warm) List.mem_cons_self).symm
    | buck sots => exact hok.elim
    | node map_w sots =>
      obtain ⟨-, hrem, -⟩ := fragment (mug kev.key) lev
      simp only [chSlotPut, chNodeAdd, hrem, shiftRight_eq_bitOf,
        chPopcount_cutEnd map_w (bitOf_lt _ _)]
      by_cases hset : map_w.testBit (bitOf (mug kev.key) lev) = true
      · obtain ⟨old, hget, hindex⟩ := get_isSome hok.2.1 (bitOf_lt _ _) hset
        simp only [if_pos hset, hindex]
        refine Placed.node_set hget (ih (hok.2.2 _ (bitOf_lt _ _) old hget) (div_eq_bitOf hpre)
          fun kov hkov ↦ ?_)
        exact habsent kov ((mem_cells_node hok.2.1).mpr ⟨_, bitOf_lt _ _, old, hget, hkov⟩)
      · rw [if_neg hset]
        exact Placed.node_insert hok hpre hset

/-- Where a slot ends in a bucket, it does so when an entry has been put in it. -/
theorem bucked_chSlotPut_pos (hok : Ok mug lev pre sot_w) (kev : Kev)
    (hpos : 0 < bucked lev arm_w sot_w) :
    0 < bucked lev arm_w (chSlotPut mug kev lev ((mug kev.key : ℕ) % 2 ^ (5 * lev)) sot_w).1 := by
  induction lev generalizing pre sot_w with
  | zero =>
    cases sot_w with
    | noun kov warm => exact absurd hpos (Nat.lt_irrefl 0)
    | node map_w sots => exact hok.elim
    | buck sots =>
      show 0 < (chBuckAdd kev sots).1.length
      unfold chBuckAdd
      cases sots.findIdx? fun kov ↦ kev.key = kov.1.key with
      | none => exact Nat.succ_pos _
      | some i_w =>
        dsimp only
        rw [List.length_set]
        exact hpos
  | succ lev ih =>
    cases sot_w with
    | noun kov warm => exact absurd hpos (Nat.lt_irrefl 0)
    | buck sots => exact hok.elim
    | node map_w sots =>
      obtain ⟨-, hrem, -⟩ := fragment (mug kev.key) lev
      simp only [chSlotPut, chNodeAdd, hrem, shiftRight_eq_bitOf,
        chPopcount_cutEnd map_w (bitOf_lt _ _)]
      rw [bucked_node] at hpos
      by_cases hset : map_w.testBit (bitOf (mug kev.key) lev) = true
      · obtain ⟨old, hget, hindex⟩ := get_isSome hok.2.1 (bitOf_lt _ _) hset
        simp only [if_pos hset, hindex]
        rw [bucked_node, get_set hget]
        split_ifs with heq
        · rw [heq, hget] at hpos
          exact ih (hok.2.2 _ (bitOf_lt _ _) old hget) hpos
        · exact hpos
      · rw [if_neg hset, bucked_node,
          get_insertIdx (extends_or hset) (bitOf_lt (mug kev.key) lev) hok.2.1 (Slot.noun kev true)]
        split_ifs with heq
        · rw [heq, get_of_not_testBit hset] at hpos
          exact absurd hpos (Nat.lt_irrefl 0)
        · exact hpos

end Slots

/-! ### A table that an entry is put in -/

section Tables

variable {mug} {har_u : Root} {key val : Noun}

theorem ArmOk.putKev (hok : RootOk mug har_u) (harm : ArmOk har_u) (key val : Noun) :
    ArmOk (putKev mug har_u key val) := by
  intro hinx
  rw [putKev_arm] at hinx ⊢
  have hpos := harm hinx
  unfold Hashtable.putKev
  cases hslot : har_u.sot_w (rootIndex (mug key)) with
  | none =>
    dsimp only
    by_cases heq : rootIndex har_u.arm_u.mug_w = rootIndex (mug key)
    · rw [heq, hslot] at hpos
      exact absurd hpos (Nat.lt_irrefl 0)
    · rwa [Function.update_of_ne heq]
  | some sot_w =>
    dsimp only
    by_cases heq : rootIndex har_u.arm_u.mug_w = rootIndex (mug key)
    · rw [heq, hslot] at hpos
      rw [heq, Function.update_self, cutEnd_eq]
      exact bucked_chSlotPut_pos (hok.slot _ _ hslot) ⟨key, val⟩ hpos
    · rwa [Function.update_of_ne heq]

theorem ArmOk.git (harm : ArmOk har_u) (key : Noun) : ArmOk (git mug har_u key).2 := by
  cases hslot : har_u.sot_w (rootIndex (mug key)) with
  | none => simpa only [Hashtable.git, hslot] using harm
  | some sot_w =>
    cases sot_w with
    | node map_w sots => simpa only [Hashtable.git, hslot] using harm
    | buck sots => simpa only [Hashtable.git, hslot] using harm
    | noun kev warm =>
      simp only [Hashtable.git, hslot]
      split_ifs
      · intro hinx
        have hpos := harm hinx
        dsimp only at hinx ⊢
        by_cases heq : rootIndex har_u.arm_u.mug_w = rootIndex (mug key)
        · rw [heq, hslot] at hpos
          exact absurd hpos (by rw [buckedOf, bucked_noun]; exact Nat.lt_irrefl 0)
        · rwa [Function.update_of_ne heq]
      · exact harm

/-- In every run the arm has an index only where there is a bucket. -/
theorem Caches.arm {max_w : ℕ} {last : Noun → Option Noun} (hrun : Caches mug max_w har_u last) :
    ArmOk har_u := by
  induction hrun with
  | new => exact fun hinx ↦ absurd rfl hinx
  | @put har_u har_u' last fuel key val hrun hput ih =>
    have harm := ih.putKev hrun.ok.ok key val
    rw [put_eq] at hput
    split_ifs at hput
    · exact harm.trimTo fuel (hrun.ok.ok.putKev key val).1 hput
    · obtain rfl := Option.some.inj hput
      exact harm
  | git key hrun ih => exact ih.git key
  | @trim har_u har_u' last fuel n_w hrun htrim ih => exact ih.trimTo fuel hrun.ok.ok htrim

/-- An entry of a new key is put in a table at the place of the key. -/
theorem RootOk.placed (hok : RootOk mug har_u) (harm : ArmOk har_u)
    (habsent : ∀ kov ∈ walk har_u, kov.1.key ≠ key) (val : Noun) :
    (∃ before after, walk har_u = before ++ after ∧
        walk (Hashtable.putKev mug har_u key val) = before ++ (⟨key, val⟩, true) :: after ∧
        before.length = keyPlace mug har_u key) ∧
      cut (Hashtable.putKev mug har_u key val) = keyCut mug har_u key := by
  have hdiv : (mug key : ℕ) / 2 ^ (5 * 5) = rootIndex (mug key) :=
    (rootIndex_val (mug key).isLt).symm
  obtain ⟨tos_w, hsot, hcells, hpast, hbucked⟩ :
    ∃ tos_w, (Hashtable.putKev mug har_u key val).sot_w =
      Function.update har_u.sot_w (rootIndex (mug key)) (some tos_w) ∧
      (∃ before after, cellsOf 5 (har_u.sot_w (rootIndex (mug key))) = before ++ after ∧
        cells 5 tos_w = before ++ (⟨key, val⟩, true) :: after ∧
        before.length = placeOf mug (mug key) 5 (har_u.sot_w (rootIndex (mug key)))) ∧
      (∀ arm_w : ℕ, past arm_w 5 (rootIndex (mug key)) tos_w =
        passedOf mug arm_w (mug key) 5 (rootIndex (mug key)) (har_u.sot_w (rootIndex (mug key)))) ∧
      ∀ arm_w : ℕ, arm_w / 2 ^ (5 * 5) = rootIndex (mug key) →
        0 < buckedOf 5 arm_w (har_u.sot_w (rootIndex (mug key))) →
        bucked 5 arm_w tos_w = buckedOf 5 arm_w (har_u.sot_w
          (rootIndex (mug key))) + if arm_w = mug key then 1 else 0 := by
    unfold Hashtable.putKev
    cases hslot : har_u.sot_w (rootIndex (mug key)) with
    | none =>
      refine ⟨.noun ⟨key, val⟩ true, rfl, ⟨[], [], rfl, rfl, rfl⟩, fun arm_w ↦ ?_,
        fun _ _ hpos ↦ ?_⟩
      · rw [past_noun, passedOf, isPast_eq hdiv]
      · exact absurd hpos (Nat.lt_irrefl 0)
    | some sot_w =>
      have hplaced : Placed mug 5 (rootIndex (mug key)) ⟨key, val⟩ sot_w _ :=
        placed_chSlotPut (hok.slot _ _ hslot) hdiv fun kov hkov ↦
          habsent kov (mem_walk.mpr ⟨_, sot_w, hslot, hkov⟩)
      exact ⟨_, by dsimp only; rw [cutEnd_eq], hplaced.cells, hplaced.past, hplaced.bucked⟩
  refine ⟨?_, ?_⟩
  · obtain ⟨low, high, hrange, hlow, hhigh⟩ := exists_finRange_split (rootIndex (mug key))
    obtain ⟨before, after, hhad, hhas, hlength⟩ := hcells
    have hsame : ∀ range : List (Fin 64), (∀ inx ∈ range, inx ≠ rootIndex (mug key)) →
        (range.flatMap fun inx ↦ cellsOf 5 (Function.update har_u.sot_w (rootIndex (mug key))
          (some tos_w) inx)) =
          range.flatMap fun inx ↦ cellsOf 5 (har_u.sot_w inx) := by
      intro range hother
      refine List.flatMap_congr fun inx hinx ↦ ?_
      rw [Function.update_of_ne (hother inx hinx)]
    have hfilter : (List.finRange 64).filter (· < rootIndex (mug key)) = low := by
      rw [hrange, List.filter_append, List.filter_cons_of_neg (by simp)]
      rw [List.filter_eq_self.mpr fun inx hinx ↦ by simpa using hlow inx hinx,
        List.filter_eq_nil_iff.mpr
          fun inx hinx ↦ by simpa using Fin.le_of_lt (hhigh inx hinx), List.append_nil]
    refine ⟨(low.flatMap fun inx ↦ cellsOf 5 (har_u.sot_w inx)) ++ before,
      after ++ high.flatMap fun inx ↦ cellsOf 5 (har_u.sot_w inx), ?_, ?_, ?_⟩
    · rw [walk, hrange, List.flatMap_append, List.flatMap_cons, hhad]
      simp only [List.append_assoc]
    · rw [walk, hrange, List.flatMap_append, List.flatMap_cons, hsot,
        hsame low fun inx hinx ↦ Fin.ne_of_lt (hlow inx hinx), hsame high fun inx hinx ↦
          (Fin.ne_of_lt (hhigh inx hinx)).symm, Function.update_self, cellsOf, hhas]
      simp only [List.append_assoc, List.cons_append]
    · rw [List.length_append, hlength, keyPlace, hfilter]
  · rw [cut, keyCut, putKev_arm, hsot]
    refine congrArg₂ (· + ·) (congrArg List.sum (List.map_congr_left fun inx _ ↦ ?_)) ?_
    · split_ifs with heq
      · rw [heq, Function.update_self, pastOf, hpast]
      · rw [Function.update_of_ne heq]
    · by_cases hinx : har_u.arm_u.inx_w = 0
      · rw [hinx, Nat.zero_min, Nat.zero_min]
      · have hpos := harm hinx
        by_cases heq : rootIndex har_u.arm_u.mug_w = rootIndex (mug key)
        · rw [heq] at hpos ⊢
          rw [Function.update_self, buckedOf, hbucked _ ?_ hpos]
          rw [← heq]
          exact (rootIndex_val hok.arm).symm
        · rw [Function.update_of_ne heq, if_neg fun hsame ↦ heq (by rw [hsame]), Nat.add_zero]

theorem putKev_use (hok : RootOk mug har_u) {before after : List (Kev × Bool)}
    (hwalk : walk har_u = before ++ after)
    (hwalk' : walk (putKev mug har_u key val) = before ++ (⟨key, val⟩, true) :: after) :
    (putKev mug har_u key val).use_w = har_u.use_w + 1 := by
  rw [(hok.putKev key val).1.use, hok.use, hwalk, hwalk', List.length_append, List.length_append,
    List.length_cons, Nat.add_assoc]

theorem mem_keys_iff {key' : Noun} :
    key' ∈ ((walk har_u).map fun kev ↦ kev.1.key) ↔ ∃ val', RootHolds har_u key' val' := by
  rw [List.mem_map]
  constructor
  · rintro ⟨kev, hkev, rfl⟩
    exact ⟨kev.1.val, kev.2, hkev⟩
  · rintro ⟨val', warm, hmem⟩
    exact ⟨_, hmem, rfl⟩

/-- The entry of a key that is there is replaced. -/
theorem RootOk.putKev_use_of_mem (hok : RootOk mug har_u) {kov : Kev × Bool}
    (hkov : kov ∈ walk har_u) :
    (Hashtable.putKev mug har_u kov.1.key val).use_w = har_u.use_w := by
  obtain ⟨hok', hholds⟩ := hok.putKev kov.1.key val
  have hkeys : ((walk (Hashtable.putKev mug har_u kov.1.key val)).map fun kev ↦ kev.1.key).Perm
      ((walk har_u).map fun kev ↦ kev.1.key) := by
    rw [List.perm_ext_iff_of_nodup hok'.nodup hok.nodup]
    intro key'
    rw [mem_keys_iff, mem_keys_iff]
    by_cases hkey : key' = kov.1.key
    · refine iff_of_true ⟨val, (hholds key' val).mpr (by rw [if_pos hkey])⟩ ?_
      rw [hkey]
      exact ⟨kov.1.val, kov.2, hkov⟩
    · simp only [hholds, if_neg hkey]
  have hlength := hkeys.length_eq
  rwa [List.length_map, List.length_map, ← hok'.use, ← hok.use] at hlength

/-- The victim of a table that an entry of a new key was put in is that entry exactly when all the
others are warm and the arm is right at its place. -/
theorem RootOk.victim_putKev (hok : RootOk mug har_u) (harm : ArmOk har_u)
    (habsent : ∀ kov ∈ walk har_u, kov.1.key ≠ key) (val : Noun) :
    victim (order (Hashtable.putKev mug har_u key val)) = some ⟨key, val⟩ ↔
      (∀ kov ∈ walk har_u, kov.2 = true) ∧ Aimed mug har_u key := by
  obtain ⟨⟨before, after, hwalk, hwalk', hplace⟩, hcut⟩ := hok.placed harm habsent val
  have hmem : ∀ kov, kov ∈ order (Hashtable.putKev mug har_u key val) ↔ kov = (⟨key, val⟩, true) ∨
      kov ∈ walk har_u := by
    intro kov
    rw [(order_perm _).mem_iff, hwalk', hwalk]
    simp only [List.mem_append, List.mem_cons]
    exact or_left_comm
  by_cases hwarm : ∀ kov ∈ walk har_u, kov.2 = true
  · have hall : ∀ kov ∈ order (Hashtable.putKev mug har_u key val), kov.2 = true := by
      intro kov hkov
      obtain rfl | hkov := (hmem kov).mp hkov
      · rfl
      · exact hwarm kov hkov
    have hlength : (before ++ (⟨key, val⟩, true) :: after).length = har_u.use_w + 1 := by
      rw [← hwalk', ← (hok.putKev key val).1.use, putKev_use hok hwalk hwalk']
    rw [victim_warm hall, order, head?_drop_take, hcut, hwalk', hlength, Aimed, ← hplace]
    generalize (if keyCut mug har_u key < har_u.use_w + 1 then keyCut mug har_u key else 0) = index
    rw [and_iff_right hwarm]
    constructor
    · intro hfirst
      obtain ⟨kov, hkov, hkey⟩ := Option.map_eq_some_iff.mp hfirst
      by_contra hne
      have hother : kov ∈ before ++ after := by
        obtain hlt | hgt := Nat.lt_or_gt_of_ne hne
        · rw [List.getElem?_append_right hlt.le, List.getElem?_cons, if_neg (by omega)] at hkov
          exact List.mem_append_right _ (List.mem_of_getElem? hkov)
        · rw [List.getElem?_append_left hgt] at hkov
          exact List.mem_append_left _ (List.mem_of_getElem? hkov)
      exact habsent kov (hwalk ▸ hother) (by rw [hkey])
    · intro hindex
      rw [← hindex, List.getElem?_append_right (Nat.le_refl _), Nat.sub_self]
      rfl
  · simp only [hwarm, false_and, iff_false]
    push Not at hwarm
    obtain ⟨cold, hcold, hwarm⟩ := hwarm
    obtain ⟨kev, hvictim, hkev⟩ :=
      exists_victim_cold (Bool.eq_false_iff.mpr hwarm) ((hmem cold).mpr (Or.inr hcold))
    rw [hvictim]
    intro hsame
    obtain rfl := Option.some.inj hsame
    obtain hnew | hold := (hmem _).mp hkev
    · exact Bool.false_ne_true (congrArg Prod.snd hnew)
    · exact habsent _ hold rfl

/-- A cache that an entry of a new key is put in when it is full keeps the entry exactly when it is
not the victim. -/
theorem RootOk.put_full (hok : RootOk mug har_u) (harm : ArmOk har_u)
    (habsent : ∀ kov ∈ walk har_u, kov.1.key ≠ key) {max_w fuel : ℕ} {har_u' : Root}
    (hfull : har_u.use_w = max_w)
    (htrim : Hashtable.trimTo max_w fuel (Hashtable.putKev mug har_u key val) = some har_u') :
    RootHolds har_u' key val ↔ ¬ ((∀ kov ∈ walk har_u, kov.2 = true) ∧ Aimed mug har_u key) := by
  obtain ⟨⟨before, after, hwalk, hwalk', -⟩, -⟩ := hok.placed harm habsent val
  obtain ⟨hok', -⟩ := hok.putKev key val
  have huse : (Hashtable.putKev mug har_u key val).use_w = max_w + 1 := by
    rw [putKev_use hok hwalk hwalk', hfull]
  obtain ⟨kev, hvictim, hperm⟩ := hok'.trimTo_victim fuel (harm.putKev hok key val) huse htrim
  have hnodup : ((walk (Hashtable.putKev mug har_u key val)).map Prod.fst).Nodup :=
    List.Nodup.of_map Kev.key (by simpa only [List.map_map, Function.comp_def] using hok'.nodup)
  have hnew : ⟨key, val⟩ ∈ (walk (Hashtable.putKev mug har_u key val)).map Prod.fst := by
    rw [hwalk']
    simp
  rw [hperm.mem_iff, List.mem_cons] at hnew
  rw [hperm.nodup_iff, List.nodup_cons] at hnodup
  rw [← hok.victim_putKev harm habsent val, hvictim, rootHolds_iff_mem_map, Option.some.injEq]
  constructor
  · rintro hin rfl
    exact hnodup.1 hin
  · intro hne
    exact hnew.resolve_left (Ne.symm hne)

/-- A cache that need not be trimmed keeps what is put in it. -/
theorem RootOk.put_room (hok : RootOk mug har_u) {max_w fuel : ℕ} {har_u' : Root}
    (hroom : (Hashtable.putKev mug har_u key val).use_w ≤ max_w)
    (htrim : Hashtable.trimTo max_w fuel (Hashtable.putKev mug har_u key val) = some har_u') :
    RootHolds har_u' key val := by
  cases fuel with
  | zero => cases htrim
  | succ fuel =>
    rw [trimTo_succ, if_neg (Nat.not_lt.mpr hroom)] at htrim
    obtain rfl := Option.some.inj htrim
    exact ((hok.putKev key val).2 key val).mpr (by rw [if_pos rfl])

/-- In every run, putting an entry in a cache returns, and what is read for its key afterwards is
that entry, with the cache within its bound, exactly if the cache was not full, had the key, had a
cold entry, or has its arm elsewhere than right at the key. -/
theorem put_kept_iff {max_w : ℕ} {last : Noun → Option Noun} (hpos : 1 ≤ max_w)
    (hrun : Caches mug max_w har_u last) (key val : Noun) :
    (∃ har_u', Returns (fun fuel ↦ put mug fuel har_u key val) har_u' ∧
    (get mug har_u' key).1 = some val ∧
        har_u'.use_w ≤ max_w) ↔
      har_u.use_w < max_w ∨ (get mug har_u key).1 ≠ none ∨ (∃ kev ∈ walk har_u, kev.2 = false) ∨
      ¬ Aimed mug har_u key := by
  obtain ⟨hok, hmax, hbound, -⟩ := hrun.ok
  obtain ⟨har_u', hret, hok', -, hwithin, -⟩ := hok.put_returns key val
  have hlhs : (∃ har_u', Returns (fun fuel ↦ put mug fuel har_u key val) har_u' ∧
    (get mug har_u' key).1 = some val ∧
      har_u'.use_w ≤ max_w) ↔ RootHolds har_u' key val := by
    constructor
    · rintro ⟨har_u'', hret', hget, -⟩
      obtain ⟨need, hneed⟩ := hret'
      obtain rfl := returns_unique (put_mono key val) (hneed need (Nat.le_refl _)) hret
      exact hok'.git_eq_some.mp hget
    · intro hholds
      exact ⟨har_u', hret, hok'.git_eq_some.mpr hholds, hmax ▸ hwithin (by omega)⟩
  rw [hlhs]
  obtain ⟨need, hneed⟩ := hret
  have htrim := hneed need (Nat.le_refl _)
  dsimp only at htrim
  rw [put_eq, if_pos (by omega), hmax] at htrim
  by_cases habsent : ∀ kov ∈ walk har_u, kov.1.key ≠ key
  · obtain ⟨⟨before, after, hwalk, hwalk', -⟩, -⟩ := hok.placed hrun.arm habsent val
    have huse := putKev_use hok hwalk hwalk'
    have hnone : (get mug har_u key).1 = none := by
      rw [Option.eq_none_iff_forall_ne_some]
      intro old hget
      obtain ⟨warm, hmem⟩ := hok.git_eq_some.mp hget
      exact habsent _ hmem rfl
    by_cases hfull : har_u.use_w < max_w
    · exact iff_of_true (hok.put_room (by omega) htrim) (Or.inl hfull)
    · have hsame : har_u.use_w = max_w :=
        Nat.le_antisymm (hbound (by omega)) (Nat.le_of_not_lt hfull)
      rw [hok.put_full hrun.arm habsent hsame htrim, not_and_or]
      simp only [hfull, hnone, ne_eq, not_true_eq_false, false_or, not_forall, Bool.not_eq_true,
        exists_prop]
  · push Not at habsent
    obtain ⟨kov, hkov, rfl⟩ := habsent
    have hget : (get mug har_u kov.1.key).1 = some kov.1.val := hok.git_eq_some.mpr ⟨kov.2, hkov⟩
    have huse : (putKev mug har_u kov.1.key val).use_w ≤ max_w := by
      rw [hok.putKev_use_of_mem hkov]
      exact hbound (by omega)
    exact iff_of_true (hok.put_room huse htrim)
      (Or.inr (Or.inl (by rw [hget]; exact Option.some_ne_none _)))

end Tables

/-! ### A cache of one entry -/

/-- The mugs of two atoms. -/
def mugTwo : Noun → Fin (2 ^ 31)
  | .atom 0 => 0x79FF04E8
  | .atom 4 => 0x7EA39955
  | _ => 0

/-- A cache of one entry with a key in it. -/
def cacheOne (key : Noun) : Root := putKev mugTwo (newCache 1) key key

theorem caches_cacheOne {key : Noun}
    (hput : put mugTwo 1 (newCache 1) key key = some (cacheOne key)) :
    Caches mugTwo 1 (cacheOne key) (Function.update (fun _ ↦ none) key (some key)) :=
  Caches.put key key Caches.new hput

/-- The entry that is in stays behind the arm, and the new one takes its place. -/
theorem put_kept_after :
    ∃ har_u', Returns (fun fuel ↦ put mugTwo fuel (cacheOne (.atom 0)) (.atom 4) (.atom 4)) har_u' ∧
    (get mugTwo har_u' (.atom 4)).1 = some (.atom 4) ∧ har_u'.use_w ≤ 1 := by
  refine (put_kept_iff (Nat.le_refl 1) (caches_cacheOne rfl) (.atom 4) (.atom 4)).mpr ?_
  exact Or.inr (Or.inr (Or.inr (by decide +kernel)))

/-- The entry that is new is before the one that is in: the clock cools both and removes the new
one. -/
theorem put_lost : ∃ har_u last, Caches mugTwo 1 har_u last ∧
    ¬ ∃ har_u', Returns (fun fuel ↦ put mugTwo fuel har_u (.atom 0) (.atom 0)) har_u' ∧
      (get mugTwo har_u' (.atom 0)).1 = some (.atom 0) ∧ har_u'.use_w ≤ 1 := by
  refine ⟨cacheOne (.atom 4), _, caches_cacheOne rfl, ?_⟩
  rintro ⟨har_u', hret, hget, -⟩
  have hlost : ((put mugTwo 200 (cacheOne (.atom 4)) (.atom 0) (.atom 0)).map
      fun har_u ↦ (get mugTwo har_u (.atom 0)).1) = some none := by
    decide +kernel
  obtain ⟨har_u'', hput, hnone⟩ := Option.map_eq_some_iff.mp hlost
  obtain rfl := returns_unique (put_mono _ _) hput hret
  exact absurd (hnone.symm.trans hget) nofun

end Vere.Noun.Hashtable
