import Vere.Noun.Basic
import Vere.Noun.Pack

/-!
# Compaction of a north road

On a north road the new addresses are recorded in the trailing size words, which is where
`u3a_rewritten()` reads them, and the boxes move down in their order, each to where all that was
there has moved already. `pack_north` says that the road is packed, and that the roots are the nouns
that they were.
-/

set_option autoImplicit false

namespace Vere.Noun.Pack

open Lib Lib.Visit Allocate Mark

section

variable {mat_p : ℕ} {r r₁ r₂ : Road} {bs : List Box} {roots : List ℕ}

/-! ### The first sweep -/

variable {ys : List Box} {fuel : ℕ}

/-- The boxes before a box go below it. -/
theorem Heap.newPos_below {xs : List Box} {b c : Box} (hheap : Heap mat_p r (xs ++ b :: ys))
    (hnorth : r.isNorth = true) (hc : c ∈ xs) (huse : inUse r c = true) :
    newPos r (xs ++ b :: ys) c.pos + c.siz ≤ r.rut_p + total (inUse r) xs := by
  obtain ⟨us, vs, rfl⟩ := List.append_of_mem hc
  rw [List.append_assoc, List.cons_append] at hheap ⊢
  rw [Heap.newPos_north hheap hnorth, total_append, total_cons, if_pos huse]
  omega

theorem slot_north (hnorth : r.isNorth = true) (b : Box) : slot r b = b.pos + b.siz - 1 := by
  rw [slot, if_pos hnorth]

/-- The first sweep records where the boxes go. -/
theorem packSeekNorth_sought (hheap : Heap mat_p r bs) (hnorth : r.isNorth = true) :
    ∀ {xs : List Box} {lo fuel : ℕ} {s : Road}, bs = xs ++ ys → Tiles lo ys r.hat_p →
      ys.length < fuel → Sought r bs xs s →
        ∃ s', packSeekNorth r.hat_p fuel s lo (r.rut_p + total (inUse r) xs + 2) = .ok s' ∧
          Sought r bs bs s' := by
  induction ys with
  | nil =>
    rintro xs lo (_ | fuel) s rfl htiles hfuel hsought
    · exact absurd hfuel (Nat.not_lt_zero _)
    · obtain rfl : lo = r.hat_p := htiles
      rw [packSeekNorth, if_neg (Nat.lt_irrefl _)]
      exact ⟨s, rfl, by simpa using hsought⟩
  | cons b ys ih =>
    rintro xs lo (_ | fuel) s rfl htiles hfuel hsought
    · exact absurd hfuel (Nat.not_lt_zero _)
    obtain ⟨rfl, hrest⟩ := htiles
    have hb : b ∈ xs ++ b :: ys := by simp
    obtain ⟨hsiz, hhead, _, _, huse⟩ := Heap.box hheap hb
    have hbefore := hheap.tiles.around.1
    have hold : ∀ i < b.siz, s.loom (b.pos + i) = r.loom (b.pos + i) := by
      intro i hi
      refine hsought.frame _ fun c hc _ ↦ ?_
      have hle := hbefore c hc
      have hc' := (Heap.box hheap (List.mem_append_left _ hc)).1
      rw [slot_north hnorth]
      omega
    have hsiz_w : s.loom b.pos = b.siz := (hold 0 (by omega)).trans hhead
    have huse_w : s.loom (b.pos + 1) = r.loom (b.pos + 1) := hold 1 (by omega)
    have hlt : b.pos < r.hat_p := by
      have hle := hrest.le
      omega
    have hnew := Heap.newPos_north hheap hnorth
    have hsplit : xs ++ b :: ys = (xs ++ [b]) ++ ys := by simp
    have hmore : ∀ c, c ∈ xs ++ [b] ↔ c ∈ xs ∨ c = b := fun c ↦ by simp
    rw [packSeekNorth, if_pos hlt]
    simp only [hsiz_w, huse_w]
    cases hcase : inUse r b with
    | true =>
      have htotal : total (inUse r) (xs ++ [b]) = total (inUse r) xs + b.siz := by
        rw [total_append, total_cons, if_pos hcase]
        simp [total]
      rw [if_pos (huse.mp hcase)]
      have hput := hsought.record hcase hmore fun c hc ↦ by
        have hle := hbefore c hc
        have hc' := (Heap.box hheap (List.mem_append_left _ hc)).1
        rw [slot_north hnorth, slot_north hnorth]
        omega
      rw [slot_north hnorth, newPtr, Nat.add_sub_cancel, hnew] at hput
      have hnext := ih hsplit hrest (Nat.lt_of_succ_lt_succ hfuel) hput
      rw [htotal] at hnext
      rw [show r.rut_p + total (inUse r) xs + 2 + b.siz =
        r.rut_p + (total (inUse r) xs + b.siz) + 2 by omega]
      exact hnext
    | false =>
      have htotal : total (inUse r) (xs ++ [b]) = total (inUse r) xs := by
        rw [total_append, total_cons, if_neg (by simp [hcase])]
        simp [total]
      rw [if_neg (fun hne ↦ by simp [huse.mpr hne] at hcase)]
      have hnext := ih hsplit hrest (Nat.lt_of_succ_lt_succ hfuel) (hsought.skip hcase hmore)
      rw [htotal] at hnext
      exact hnext

theorem packSeek_north (hheap : Heap mat_p r bs) (hnorth : r.isNorth = true)
    (hfuel : bs.length < fuel) : ∃ r₁, packSeek fuel r = .ok r₁ ∧ Sought r bs bs r₁ := by
  have htiles := hheap.tiles
  rw [Road.low_north hnorth, Road.high_north hnorth] at htiles
  have hseek := packSeekNorth_sought hheap hnorth (List.nil_append bs).symm htiles hfuel
    (⟨rfl, nofun, fun _ _ ↦ rfl⟩ : Sought r bs [] r)
  rw [packSeek, if_pos hnorth]
  exact hseek

/-! ### The walk -/

/-- `u3a_rewritten()` reads the words that the first sweep has left. -/
theorem rewritten_north {s : Road} {reach : ℕ → Prop} {V : ℕ → ℕ → Prop} (hheap : Heap mat_p r bs)
    (hnorth : r.isNorth = true) (hsought : Sought r bs bs r₁)
    (hreach : ∀ p, reach p → p ∈ ptrsOf bs) (htouched : Touched V r₁ reach s) :
    ∀ b ∈ bs, s.loom b.pos = b.siz ∧
      (inUse r b = true → rewritten s (b.pos + 2) = newPtr r bs (b.pos + 2)) := by
  intro b hb
  obtain ⟨hsiz, hhead, _⟩ := Heap.box hheap hb
  have hsize : s.loom b.pos = b.siz := by
    rw [← hhead]
    refine (htouched.edge hheap hreach hb (.inl rfl)).trans (hsought.frame _ fun c hc _ heq ↦ ?_)
    have hcsiz : 6 ≤ c.siz := hheap.siz c hc
    rw [slot_north hnorth] at heq
    have hone := hheap.tiles.word_unique hb hc (by omega : 0 < b.siz) (by omega : c.siz - 1 < c.siz)
      (by omega)
    omega
  refine ⟨hsize, fun huse ↦ ?_⟩
  have hedge := htouched.edge hheap hreach hb (.inr (by omega : b.siz - 1 + 1 = b.siz))
  have hslot := hsought.records b hb huse
  rw [slot_north hnorth] at hslot
  unfold rewritten
  simp only [Nat.add_sub_cancel, hsize]
  rw [Nat.add_sub_assoc (by omega), hedge, ← Nat.add_sub_assoc (by omega), hslot]

theorem rewriteAll_north (hheap : Heap mat_p r bs) (hnorth : r.isNorth = true)
    (hsought : Sought r bs bs r₁) (hrooted : Rooted r bs roots) (hfuel : bs.length < fuel) :
    ∃ r₂, rewriteAll fuel r₁ roots = .ok r₂ ∧ Walked r bs roots r₁ r₂ ∧
      ∀ b ∈ bs, r₂.loom b.pos = b.siz ∧
        (inUse r b = true → rewritten r₂ (b.pos + 2) = newPtr r bs (b.pos + 2)) := by
  have hmem : ∀ p, Reaches r roots p → p ∈ ptrsOf bs := fun p hp ↦ hrooted.reaches_mem hp
  have hV : ∀ s, Touched (fun w v ↦ v = forwardNoun r bs (r.loom w)) r₁ (Reaches r roots) s →
      ∀ p, Reaches r roots p → rewrittenNoun s (r.loom (p + 1)) =
        forwardNoun r bs (r.loom (p + 1)) ∧
        rewrittenNoun s (r.loom (p + 2)) = forwardNoun r bs (r.loom (p + 2)) := by
    intro s hs p hp
    have hrewrites := rewritten_north hheap hnorth hsought hmem hs
    obtain ⟨hhed, htel⟩ := hrooted.cell p hp
    exact ⟨rewrittenNoun_eq hheap hhed fun b hb ↦ (hrewrites b hb).2,
      rewrittenNoun_eq hheap htel fun b hb ↦ (hrewrites b hb).2⟩
  obtain ⟨reached, r₂, hreached, hwalk, hrewrote⟩ := hrooted.rewriteAll hheap
    (hsought.words hheap fun c hc ↦ hc) hV ((ptrsOf_length_le bs).trans_lt hfuel)
  have htouched := hrewrote.touched (fun p hp ↦ (hreached p).mp hp) fun p hp ↦ (hreached p).mp hp
  exact ⟨r₂, hwalk, hrewrote.walked hsought hheap (fun c hc ↦ hc) hreached hmem,
    rewritten_north hheap hnorth hsought hmem htouched⟩

/-! ### The second sweep -/

/-- A box that is in use is copied down, or stays where it is. -/
theorem packBoxNorth_ok {s : Road} {box_w siz_w new_w : ℕ} (hsiz : 0 < siz_w) (hle : new_w ≤ box_w)
    (hslot : s.loom (box_w + siz_w - 1) = new_w + 2) :
    ∃ s', packBoxNorth s box_w siz_w (new_w + 2) = .ok s' ∧ s' = { s with loom := s'.loom } ∧
      (∀ i, i + 1 < siz_w → s'.loom (new_w + i) = s.loom (box_w + i)) ∧
      s'.loom (new_w + siz_w - 1) = siz_w ∧
      ∀ w, w < new_w ∨ new_w + siz_w ≤ w → s'.loom w = s.loom w := by
  unfold packBoxNorth
  rw [Nat.add_sub_cancel]
  simp only [hslot, ne_eq, not_true_eq_false, if_false]
  by_cases hlt : new_w < box_w
  · rw [if_pos hlt]
    refine ⟨_, rfl, rfl, fun i hi ↦ ?_, ?_, fun w hw ↦ ?_⟩
    · rw [Road.loom_put, Function.update_of_ne (by omega)]
      exact Copy.ascending_down hle (by omega)
    · rw [Road.loom_put, Function.update_self]
    · rw [Road.loom_put, Function.update_of_ne (by omega)]
      exact Copy.ascending_frame (by omega)
  · obtain rfl : new_w = box_w := by omega
    rw [if_neg hlt, if_pos rfl]
    refine ⟨_, rfl, rfl, fun i hi ↦ ?_, ?_, fun w hw ↦ ?_⟩
    · rw [Road.loom_put, Function.update_of_ne (by omega)]
    · rw [Road.loom_put, Function.update_self]
    · rw [Road.loom_put, Function.update_of_ne (by omega)]

/-- The second sweep moves the boxes. -/
theorem packMoveNorth_moved (hheap : Heap mat_p r bs) (hnorth : r.isNorth = true)
    (hwalked : Walked r bs roots r₁ r₂) (hsize : ∀ b ∈ bs, r₂.loom b.pos = b.siz)
    (hslot : ∀ b ∈ bs, inUse r b = true → r₂.loom (b.pos + b.siz - 1) = newPtr r bs (b.pos + 2)) :
    ∀ {xs : List Box} {lo fuel : ℕ} {s : Road}, bs = xs ++ ys →
      Tiles r.rut_p xs lo → Tiles lo ys r.hat_p → ys.length < fuel → Moved r bs roots r₂ xs s →
        (∀ w, lo ≤ w ∨ w < r.rut_p → s.loom w = r₂.loom w) →
          ∃ s', packMoveNorth r.hat_p fuel s lo (r.rut_p + total (inUse r) xs + 2) =
              .ok (s', r.rut_p + total (inUse r) bs + 2) ∧ Moved r bs roots r₂ bs s' ∧
            ∀ w, r.hat_p ≤ w ∨ w < r.rut_p → s'.loom w = r₂.loom w := by
  induction ys with
  | nil =>
    rintro xs lo (_ | fuel) s rfl hxs htiles hfuel hmoved hframe
    · exact absurd hfuel (Nat.not_lt_zero _)
    · obtain rfl : lo = r.hat_p := htiles
      rw [packMoveNorth, if_neg (Nat.lt_irrefl _), List.append_nil]
      exact ⟨s, rfl, by simpa using hmoved, hframe⟩
  | cons b ys ih =>
    rintro xs lo (_ | fuel) s rfl hxs htiles hfuel hmoved hframe
    · exact absurd hfuel (Nat.not_lt_zero _)
    obtain ⟨rfl, hrest⟩ := htiles
    have hb : b ∈ xs ++ b :: ys := by simp
    obtain ⟨hsiz, _, _, _, huse⟩ := Heap.box hheap hb
    have hnew := Heap.newPos_north hheap hnorth
    have htotal_le : r.rut_p + total (inUse r) xs ≤ b.pos := total_le hxs
    have hlt : b.pos < r.hat_p := by
      have hle := hrest.le
      omega
    have hsiz_w : s.loom b.pos = b.siz := (hframe _ (.inl (Nat.le_refl _))).trans (hsize b hb)
    have huse_w : s.loom (b.pos + 1) &&& 0x7fffffff = r.loom (b.pos + 1) := by
      rw [hframe _ (by omega)]
      exact hwalked.use b hb
    have hsplit : xs ++ b :: ys = (xs ++ [b]) ++ ys := by simp
    have hmore : ∀ c, c ∈ xs ++ [b] ↔ c ∈ xs ∨ c = b := fun c ↦ by simp
    have hxs' : Tiles r.rut_p (xs ++ [b]) (b.pos + b.siz) := Tiles.append_iff.mpr ⟨_, hxs, rfl, rfl⟩
    -- the boxes that have been moved are below where this one goes
    have hbelow : ∀ c ∈ xs, inUse r c = true → 6 ≤ c.siz ∧
        newPos r (xs ++ b :: ys) c.pos + c.siz ≤ r.rut_p + total (inUse r) xs := fun c hc hcuse ↦
      ⟨hheap.siz c (List.mem_append_left _ hc), Heap.newPos_below hheap hnorth hc hcuse⟩
    rw [packMoveNorth, if_pos hlt]
    simp only [hsiz_w, huse_w]
    -- the mark is taken away
    set s₁ := s.put (b.pos + 1) (r.loom (b.pos + 1)) with hs₁
    have hloom₁ : ∀ w, w ≠ b.pos + 1 → s₁.loom w = s.loom w :=
      fun w hw ↦ Function.update_of_ne hw ..
    have huse₁ : s₁.loom (b.pos + 1) = r.loom (b.pos + 1) := Function.update_self ..
    have hmoved₁ : Moved r (xs ++ b :: ys) roots r₂ xs s₁ := by
      refine hmoved.keep rfl fun c hc hcuse ↦ ?_
      obtain ⟨hcsiz, hle⟩ := hbelow c hc hcuse
      exact ⟨hcsiz, fun i hi ↦ hloom₁ _ (by omega)⟩
    rw [huse₁]
    cases hcase : inUse r b with
    | true =>
      have htotal : total (inUse r) (xs ++ [b]) = total (inUse r) xs + b.siz := by
        rw [total_append, total_cons, if_pos hcase]
        simp [total]
      have hslot₁ : s₁.loom (b.pos + b.siz - 1) = r.rut_p + total (inUse r) xs + 2 := by
        rw [hloom₁ _ (by omega), hframe _ (by omega), hslot b hb hcase, newPtr,
          Nat.add_sub_cancel, hnew]
      obtain ⟨s₂, hbox, hroad, hcopied, htail, hsame⟩ :=
        packBoxNorth_ok (by omega : 0 < b.siz) htotal_le hslot₁
      have hmoved₂ : Moved r (xs ++ b :: ys) roots r₂ (xs ++ [b]) s₂ := by
        refine (hmoved₁.keep hroad fun c hc hcuse ↦ ?_).more hmore ?_ ?_ fun i hlow hi ↦ ?_
        · obtain ⟨hcsiz, hle⟩ := hbelow c hc hcuse
          exact ⟨hcsiz, fun i hi ↦ hsame _ (by omega)⟩
        · rw [hnew]
          exact ⟨(hcopied 0 (by omega)).trans ((hloom₁ _ (by omega)).trans hsiz_w), htail⟩
        · rw [hnew, hcopied 1 (by omega), huse₁]
        · rw [hnew, hcopied i hi, hloom₁ _ (by omega), hframe _ (by omega)]
          exact hwalked.words b hb i hlow hi
      have hframe₂ : ∀ w, b.pos + b.siz ≤ w ∨ w < r.rut_p → s₂.loom w = r₂.loom w := by
        intro w hw
        rw [hsame w (by omega), hloom₁ w (by omega)]
        exact hframe w (by omega)
      have hnext := ih hsplit hxs' hrest (Nat.lt_of_succ_lt_succ hfuel) hmoved₂ hframe₂
      rw [htotal] at hnext
      rw [if_pos (huse.mp hcase), hbox, ok_bind,
        show r.rut_p + total (inUse r) xs + 2 + b.siz =
          r.rut_p + (total (inUse r) xs + b.siz) + 2 by omega]
      exact hnext
    | false =>
      have htotal : total (inUse r) (xs ++ [b]) = total (inUse r) xs := by
        rw [total_append, total_cons, if_neg (by simp [hcase])]
        simp [total]
      have hframe₁ : ∀ w, b.pos + b.siz ≤ w ∨ w < r.rut_p → s₁.loom w = r₂.loom w := by
        intro w hw
        have hge := hxs.le
        rw [hloom₁ w (by omega)]
        exact hframe w (by omega)
      have hnext :=
        ih hsplit hxs' hrest (Nat.lt_of_succ_lt_succ hfuel) (hmoved₁.skip hcase hmore) hframe₁
      rw [htotal] at hnext
      rw [if_neg (fun hne ↦ by simp [huse.mpr hne] at hcase)]
      exact hnext

theorem packed_north_tiles (hheap : Heap mat_p r bs) (hnorth : r.isNorth = true) :
    ∀ {xs : List Box}, bs = xs ++ ys → Tiles (r.rut_p + total (inUse r) xs)
      ((ys.filter (inUse r)).map fun b ↦ ⟨newPos r bs b.pos, b.siz, keptState b⟩)
        (r.rut_p + total (inUse r) bs) := by
  induction ys with
  | nil =>
    rintro xs rfl
    rw [List.append_nil]
    exact rfl
  | cons b ys ih =>
    rintro xs rfl
    have hsplit : xs ++ b :: ys = (xs ++ [b]) ++ ys := by simp
    have hnext := ih hsplit
    rw [total_append (inUse r) xs [b], total_cons] at hnext
    cases hcase : inUse r b with
    | true =>
      rw [List.filter_cons_of_pos hcase, List.map_cons]
      rw [if_pos hcase] at hnext
      refine ⟨Heap.newPos_north hheap hnorth, ?_⟩
      rw [Nat.add_assoc]
      exact hnext
    | false =>
      rw [List.filter_cons_of_neg (by simp [hcase])]
      rw [if_neg (by simp [hcase])] at hnext
      exact hnext

theorem packMove_north (hheap : Heap mat_p r bs) (hnorth : r.isNorth = true)
    (hwalked : Walked r bs roots r₁ r₂) (hsize : ∀ b ∈ bs, r₂.loom b.pos = b.siz)
    (hslot : ∀ b ∈ bs, inUse r b = true → r₂.loom (b.pos + b.siz - 1) = newPtr r bs (b.pos + 2))
    (hfuel : bs.length < fuel) : ∃ r', packMove fuel r₂ = .ok r' ∧ Packed r bs roots r' := by
  have htiles := hheap.tiles
  rw [Road.low_north hnorth, Road.high_north hnorth] at htiles
  obtain ⟨s, hmove, hmoved, hframe⟩ := packMoveNorth_moved hheap hnorth hwalked hsize hslot
    (List.nil_append bs).symm (rfl : Tiles r.rut_p [] r.rut_p) htiles hfuel
    (⟨rfl, nofun, nofun, nofun⟩ : Moved r bs roots r₂ [] r₂) fun _ _ ↦ rfl
  have hroad := hwalked.road
  have hrut : r₂.rut_p = r.rut_p := by rw [hroad]
  have hhat : r₂.hat_p = r.hat_p := by rw [hroad]
  have hcap : s.cap_p = r.cap_p := by rw [hmoved.road, hroad]
  have hnorth₂ : r₂.isNorth = true := by
    rw [hroad]
    exact hnorth
  have hle : r.rut_p + total (inUse r) bs ≤ r.hat_p := total_le htiles
  have hlt := Road.isNorth_iff.mp hnorth
  have hnorth' : ∀ fre_p, Road.isNorth { s with
      hat_p := r.rut_p + total (inUse r) bs, fre_p := fre_p, cel_p := 0 } = true := by
    intro fre_p
    refine Road.isNorth_iff.mpr ?_
    show r.rut_p + total (inUse r) bs < s.cap_p
    omega
  refine ⟨{ s with
    hat_p := r.rut_p + total (inUse r) bs
    fre_p := fun i_w ↦ if i_w < fboxNo then 0 else s.fre_p i_w
    cel_p := 0 }, ?_, hmoved.packed hheap hroad ((hnorth' _).trans hnorth.symm) ?_
      (fun sel hsel ↦ if_pos hsel) fun w hw ↦ ?_⟩
  · rw [packMove, packMoveBoxes, if_pos hnorth₂, hrut, hhat]
    have hzero : r.rut_p + 2 = r.rut_p + total (inUse r) [] + 2 := rfl
    rw [hzero, hmove, ok_bind]
    simp only [Nat.add_sub_cancel]
  · rw [Road.low_north (hnorth' _), Road.high_north (hnorth' _)]
    have hrut' : s.rut_p = r.rut_p := by rw [hmoved.road, hroad]
    show Tiles s.rut_p _ (r.rut_p + total (inUse r) bs)
    rw [hrut']
    exact packed_north_tiles hheap hnorth (List.nil_append bs).symm
  · rw [Road.low_north hnorth, Road.high_north hnorth] at hw
    rw [hframe w hw.symm]
    refine hwalked.outside w ?_
    rw [Road.low_north hnorth, Road.high_north hnorth]
    exact hw

/-- On a north road compaction does what it should. -/
theorem compacts_north (hheap : Heap mat_p r bs) (hnorth : r.isNorth = true)
    (hrooted : Rooted r bs roots) (hfuel : bs.length < fuel) :
    ∃ r₁ r₂ r', Compacts fuel r bs roots r₁ r₂ r' := by
  obtain ⟨r₁, hseek, hsought⟩ := packSeek_north hheap hnorth hfuel
  obtain ⟨r₂, hrewrite, hwalked, hrewrites⟩ := rewriteAll_north hheap hnorth hsought hrooted hfuel
  have hslot : ∀ b ∈ bs, inUse r b = true → r₂.loom (b.pos + b.siz - 1) =
      newPtr r bs (b.pos + 2) := by
    intro b hb huse
    have hsiz : 6 ≤ b.siz := hheap.siz b hb
    have hrecords := hsought.records b hb huse
    rw [slot_north hnorth] at hrecords
    rw [← hrecords, Nat.add_sub_assoc (by omega)]
    exact hwalked.edge b hb _ (.inr (by omega))
  obtain ⟨r', hmove, hpacked⟩ :=
    packMove_north hheap hnorth hwalked (fun b hb ↦ (hrewrites b hb).1) hslot hfuel
  exact ⟨r₁, r₂, r', hseek, hrewrite, hmove, hsought.records, fun b hb ↦ (hrewrites b hb).2,
    hpacked⟩

end

/-! ### Nouns -/

/-- The value of the words of an indirect atom, by how many there are. -/
def bufValue (loom : ℕ → ℕ) (buf : ℕ) : ℕ → ℕ
  | 0 => 0
  | i_w + 1 => bufValue loom buf i_w + loom (buf + i_w) * 2 ^ (32 * i_w)

/-- A word is a noun on the heap. Indirect atoms and cells are allocations, and `cell` says which of
them are cells. -/
inductive Denotes (r : Road) (bs : List Box) (cell : ℕ → Bool) : ℕ → Noun → Prop
  | cat {som : ℕ} (hcat : isCat som = true) : Denotes r bs cell som (.atom som)
  | pug {som len : ℕ} (hpug : isPug som = true) (hlive : (toOff som, len) ∈ livesOf bs)
      (hcell : cell (toOff som) = false) (hlen : 2 + r.loom (toOff som + 1) ≤ len) :
      Denotes r bs cell som (.atom (bufValue r.loom (toOff som + 2) (r.loom (toOff som + 1))))
  | pom {som len : ℕ} {h t : Noun} (hpom : isPom som = true) (hlive : (toOff som, len) ∈ livesOf bs)
      (hcell : cell (toOff som) = true) (hlen : 3 ≤ len)
      (hhed : Denotes r bs cell (r.loom (toOff som + 1)) h)
      (htel : Denotes r bs cell (r.loom (toOff som + 2)) t) : Denotes r bs cell som (.cell h t)

theorem bufValue_congr {loom loom' : ℕ → ℕ} {buf buf' len_w : ℕ}
    (hwords : ∀ i < len_w, loom' (buf' + i) = loom (buf + i)) :
    bufValue loom' buf' len_w = bufValue loom buf len_w := by
  induction len_w with
  | zero => rfl
  | succ len_w ih =>
    rw [bufValue, bufValue, ih fun i hi ↦ hwords i (Nat.lt_succ_of_lt hi),
      hwords len_w (Nat.lt_succ_self _)]

section

variable {mat_p : ℕ} {r r' : Road} {bs : List Box} {roots : List ℕ} {cell : ℕ → Bool} {som p : ℕ}
  {n : Noun} {b : Box}

theorem Denotes.inside (hdenotes : Denotes r bs cell som n) : Inside bs som := by
  intro hcat
  cases hdenotes with
  | cat hcat' => simp [hcat] at hcat'
  | pug _ hlive => exact List.mem_map_of_mem hlive
  | pom _ hlive => exact List.mem_map_of_mem hlive

/-- The cells that can be reached from nouns are cells. -/
theorem reaches_cell {nouns : List Noun} (hroots : List.Forall₂ (Denotes r bs cell) roots nouns)
    (hreaches : Reaches r roots p) : cell p = true ∧ Inside bs (r.loom (p + 1)) ∧
      Inside bs (r.loom (p + 2)) := by
  have hfields : ∀ {som n}, Denotes r bs cell som n → isPom som = true →
    ∃ h t, cell (toOff som) = true ∧
      Denotes r bs cell (r.loom (toOff som + 1)) h ∧
      Denotes r bs cell (r.loom (toOff som + 2)) t := by
    intro som n hdenotes hpom
    cases hdenotes with
    | cat hcat => simp [not_cat_of_pom hpom] at hcat
    | pug hpug =>
      have hlt := (isPug_iff.mp hpug).2
      have hge := (isPom_iff.mp hpom).1
      omega
    | pom _ _ hcell _ hhed htel => exact ⟨_, _, hcell, hhed, htel⟩
  -- what can be reached is a word that is a cell
  have hmem := hreaches.mem {p | ∃ som n, p ∈ cellRef som ∧ Denotes r bs cell som n} (fun q hq ↦ ?_)
    fun q ⟨som, n, hq, hdenotes⟩ q' hq' ↦ ?_
  · obtain ⟨som, n, hp, hdenotes⟩ := hmem
    obtain ⟨hpom, rfl⟩ := mem_cellRef.mp hp
    obtain ⟨h, t, hcell, hhed, htel⟩ := hfields hdenotes hpom
    exact ⟨hcell, hhed.inside, htel.inside⟩
  · obtain ⟨som, hsom, hq⟩ := List.mem_flatMap.mp hq
    obtain ⟨i, hi, rfl⟩ := List.mem_iff_getElem.mp hsom
    have hlen := hroots.length_eq
    exact ⟨_, nouns[i], hq, (List.forall₂_iff_get.mp hroots).2 i hi (hlen ▸ hi)⟩
  · obtain ⟨hpom, rfl⟩ := mem_cellRef.mp hq
    obtain ⟨h, t, _, hhed, htel⟩ := hfields hdenotes hpom
    rcases List.mem_append.mp hq' with hq' | hq'
    · exact ⟨_, h, hq', hhed⟩
    · exact ⟨_, t, hq', htel⟩

theorem rooted_of_denotes {nouns : List Noun}
    (hroots : List.Forall₂ (Denotes r bs cell) roots nouns) :
    Rooted r bs roots := by
  refine ⟨fun som hsom ↦ ?_, fun p hp ↦ (reaches_cell hroots hp).2⟩
  obtain ⟨i, hi, rfl⟩ := List.mem_iff_getElem.mp hsom
  exact ((List.forall₂_iff_get.mp hroots).2 i hi (hroots.length_eq ▸ hi)).inside

/-- The boxes that are in use go to different places. -/
theorem newPos_inj (hheap : Heap mat_p r bs) (hnorth : r.isNorth = true) {c : Box} (hb : b ∈ bs)
    (hc : c ∈ bs) (hbuse : inUse r b = true) (hcuse : inUse r c = true)
    (heq : newPos r bs b.pos = newPos r bs c.pos) : b = c := by
  obtain ⟨xs, ys, rfl⟩ := List.append_of_mem hb
  have hbnew := Heap.newPos_north hheap hnorth
  have hbsiz : 6 ≤ b.siz := hheap.siz b hb
  rcases List.mem_append.mp hc with hc | hc
  · have hcsiz : 6 ≤ c.siz := hheap.siz c (List.mem_append_left _ hc)
    have hle := Heap.newPos_below hheap hnorth hc hcuse
    omega
  · rcases List.mem_cons.mp hc with rfl | hc
    · rfl
    obtain ⟨us, vs, rfl⟩ := List.append_of_mem hc
    have hsplit : xs ++ b :: (us ++ c :: vs) = (xs ++ b :: us) ++ c :: vs := by simp
    rw [hsplit] at hheap heq
    have hle := Heap.newPos_below hheap hnorth (List.mem_append_right xs List.mem_cons_self) hbuse
    have hcnew := Heap.newPos_north hheap hnorth
    omega

/-- A box that is in use goes where pointers can point. -/
theorem newPos_lt (hheap : Heap mat_p r bs) (hnorth : r.isNorth = true) (hb : b ∈ bs) :
    newPos r bs b.pos + 2 < 2 ^ 30 := by
  have hhigh := hheap.high_le
  have hin := hheap.tiles.mem hb
  have hsiz : 6 ≤ b.siz := hheap.siz b hb
  obtain ⟨xs, ys, rfl⟩ := List.append_of_mem hb
  rw [Heap.newPos_north hheap hnorth]
  obtain ⟨mid, hxs, hpos, _⟩ := Tiles.append_iff.mp hheap.tiles
  have hle : r.low + total (inUse r) xs ≤ mid := total_le hxs
  rw [Road.low_north hnorth] at hle
  omega

/-- Which allocations are cells, when the boxes have moved. -/
def movedCell (r : Road) (bs : List Box) (cell : ℕ → Bool) (ptr : ℕ) : Bool :=
  bs.any fun b ↦ inUse r b && (cell (b.pos + 2) && decide (newPtr r bs (b.pos + 2) = ptr))

theorem movedCell_eq (hheap : Heap mat_p r bs) (hnorth : r.isNorth = true) (hb : b ∈ bs)
    (huse : inUse r b = true) :
    movedCell r bs cell (newPtr r bs (b.pos + 2)) = cell (b.pos + 2) := by
  rw [Bool.eq_iff_iff]
  simp only [movedCell, List.any_eq_true, Bool.and_eq_true, decide_eq_true_eq]
  constructor
  · rintro ⟨c, hc, hcuse, hcell, heq⟩
    simp only [newPtr, Nat.add_sub_cancel, Nat.add_right_cancel_iff] at heq
    obtain rfl := newPos_inj hheap hnorth hc hb hcuse huse heq
    exact hcell
  · exact fun hcell ↦ ⟨b, hb, huse, hcell, rfl⟩

theorem livesOf_packed (hheap : Heap mat_p r bs) {len : ℕ} (hb : b ∈ bs)
    (hstate : b.state = .live len) :
    (newPtr r bs (b.pos + 2), len) ∈ livesOf (packed r bs) := by
  have hkept : keptState b = .live len := by rw [keptState, hstate]
  refine mem_livesOf.mpr ⟨⟨newPos r bs b.pos, b.siz, keptState b⟩, ?_, hkept, ?_⟩
  · exact List.mem_map.mpr ⟨b, List.mem_filter.mpr ⟨hb, (Heap.live_inUse hheap hb hstate).1⟩, rfl⟩
  · rw [newPtr, Nat.add_sub_cancel]

/-- A noun is the noun that it was, when its pointers have been rewritten and its boxes have moved.
-/
theorem Denotes.forward (hheap : Heap mat_p r bs) (hnorth : r.isNorth = true)
    (hpacked : Packed r bs roots r') (hcells : ∀ p, Reaches r roots p → p ∈ ptrsOf bs ∧
    cell p = true) (hdenotes : Denotes r bs cell som n)
    (hreach : ∀ p ∈ cellRef som, Reaches r roots p) :
    Denotes r' (packed r bs) (movedCell r bs cell) (forwardNoun r bs som) n := by
  -- the box of an allocation, and its words
  have hbox : ∀ {ptr len}, (ptr, len) ∈ livesOf bs → ∃ b ∈ bs, b.state = .live len ∧
      ptr = b.pos + 2 ∧ len + 3 ≤ b.siz ∧ newPtr r bs ptr < 2 ^ 30 ∧
      ∀ i, i + 3 < b.siz → r'.loom (newPtr r bs ptr + i) = forwarded r bs roots (ptr + i) := by
    intro ptr len hlive
    obtain ⟨b, hb, hstate, hpos⟩ := mem_livesOf.mp hlive
    replace hstate : b.state = .live len := hstate
    replace hpos : ptr = b.pos + 2 := hpos
    obtain ⟨huse, hle⟩ := Heap.live_inUse hheap hb hstate
    have hnewPtr : newPtr r bs ptr = newPos r bs b.pos + 2 := by
      rw [newPtr, hpos, Nat.add_sub_cancel]
    refine ⟨b, hb, hstate, hpos, hle, hnewPtr ▸ newPos_lt hheap hnorth hb, fun i hi ↦ ?_⟩
    rw [hnewPtr, hpos, Nat.add_assoc, Nat.add_assoc, Nat.add_comm 2 i]
    exact hpacked.words b hb huse (i + 2) (Nat.le_add_left 2 i) hi
  induction hdenotes with
  | @cat som hcat =>
    have hsame : forwardNoun r bs som = som := by simp [forwardNoun, hcat]
    rw [hsame]
    exact .cat hcat
  | @pug som len hpug hlive hcell hlen =>
    obtain ⟨b, hb, hstate, hpos, hle, hlt, hwords⟩ := hbox hlive
    have hcat : isCat som = false := by
      rw [← Bool.not_eq_true, isCat_iff]
      exact Nat.not_lt.mpr (isPug_iff.mp hpug).1
    have hforward : forwardNoun r bs som = toPug (newPtr r bs (toOff som)) := by
      simp [forwardNoun, hcat, hpug]
    have hoff : toOff (forwardNoun r bs som) = newPtr r bs (toOff som) := by
      rw [hforward, toPug_eq hlt, toOff_eq]
      omega
    have hpug' : isPug (forwardNoun r bs som) = true := by
      rw [hforward, toPug_eq hlt, isPug_iff]
      omega
    -- the words of an atom are not rewritten
    have hatom : ∀ i, i + 3 < b.siz →
        r'.loom (newPtr r bs (toOff som) + i) = r.loom (toOff som + i) := by
      intro i hi
      rw [hwords i hi]
      refine if_neg ?_
      rintro ⟨p, hp, hw⟩
      obtain ⟨hptr, hpcell⟩ := hcells p hp
      obtain ⟨c, hc, _, hcsiz, hpc, _, hhed, htel⟩ := Heap.cell_words hheap hptr
      have hbc : b = c := by
        rcases hw with hw | hw
        · exact (hheap.tiles.word_unique hb hc (by omega : i + 2 < b.siz) (by omega : 3 < c.siz)
            (by omega)).1
        · exact (hheap.tiles.word_unique hb hc (by omega : i + 2 < b.siz) (by omega : 4 < c.siz)
            (by omega)).1
      rw [hpos, hbc, ← hpc, hpcell] at hcell
      exact absurd hcell (by decide)
    have hlen_w : r'.loom (newPtr r bs (toOff som) + 1) = r.loom (toOff som + 1) :=
      hatom 1 (by omega)
    have hvalue : bufValue r.loom (toOff som + 2) (r.loom (toOff som + 1)) =
        bufValue r'.loom (toOff (forwardNoun r bs som) + 2)
          (r'.loom (toOff (forwardNoun r bs som) + 1)) := by
      rw [hoff, hlen_w]
      refine (bufValue_congr fun i hi ↦ ?_).symm
      rw [Nat.add_assoc, Nat.add_assoc]
      exact hatom (2 + i) (by omega)
    rw [hvalue]
    have hlive' : (toOff (forwardNoun r bs som), len) ∈ livesOf (packed r bs) := by
      rw [hoff, hpos]
      exact livesOf_packed hheap hb hstate
    refine .pug hpug' hlive' ?_ ?_
    · rw [hoff, hpos, movedCell_eq hheap hnorth hb (Heap.live_inUse hheap hb hstate).1, ← hpos]
      exact hcell
    · rw [hoff, hlen_w]
      exact hlen
  | @pom som len h t hpom hlive hcell hlen hhed htel ihhed ihtel =>
    obtain ⟨b, hb, hstate, hpos, hle, hlt, hwords⟩ := hbox hlive
    have hcat := not_cat_of_pom hpom
    have hpug : isPug som = false := by
      rw [← Bool.not_eq_true, isPug_iff]
      have hge := (isPom_iff.mp hpom).1
      omega
    have hforward : forwardNoun r bs som = toPom (newPtr r bs (toOff som)) := by
      simp [forwardNoun, hcat, hpug]
    have hoff : toOff (forwardNoun r bs som) = newPtr r bs (toOff som) := by
      rw [hforward, toPom_eq hlt, toOff_eq]
      omega
    have hpom' : isPom (forwardNoun r bs som) = true := by
      rw [hforward, toPom_eq hlt, isPom_iff]
      omega
    have hp : Reaches r roots (toOff som) := hreach _ (mem_cellRef.mpr ⟨hpom, rfl⟩)
    have hhed' : r'.loom (newPtr r bs (toOff som) + 1) =
        forwardNoun r bs (r.loom (toOff som + 1)) := by
      rw [hwords 1 (by omega)]
      exact if_pos ⟨_, hp, .inl rfl⟩
    have htel' : r'.loom (newPtr r bs (toOff som) + 2) =
        forwardNoun r bs (r.loom (toOff som + 2)) := by
      rw [hwords 2 (by omega)]
      exact if_pos ⟨_, hp, .inr rfl⟩
    have hnext := hp.next
    have hlive' : (toOff (forwardNoun r bs som), len) ∈ livesOf (packed r bs) := by
      rw [hoff, hpos]
      exact livesOf_packed hheap hb hstate
    refine .pom hpom' hlive' ?_ hlen ?_ ?_
    · rw [hoff, hpos, movedCell_eq hheap hnorth hb (Heap.live_inUse hheap hb hstate).1, ← hpos]
      exact hcell
    · rw [hoff, hhed']
      exact ihhed fun q hq ↦ hnext q (List.mem_append_left _ hq)
    · rw [hoff, htel']
      exact ihtel fun q hq ↦ hnext q (List.mem_append_right _ hq)

/-- A road that is packed has the boxes that were in use next to each other from the rut to the hat,
in their order, each with its size, its use count and its words, and its roots are the nouns that
they were.
-/
theorem pack_north {nouns : List Noun} (hheap : Heap mat_p r bs) (hnorth : r.isNorth = true)
    (hroots : List.Forall₂ (Denotes r bs cell) roots nouns) {fuel : ℕ}
    (hfuel : bs.length < fuel) :
    ∃ r₁ r₂ r' cell', Compacts fuel r bs roots r₁ r₂ r' ∧
      List.Forall₂ (Denotes r' (packed r bs) cell') (roots.map (rewrittenNoun r₂)) nouns := by
  have hrooted := rooted_of_denotes hroots
  obtain ⟨r₁, r₂, r', hcompacts⟩ := compacts_north hheap hnorth hrooted hfuel
  refine ⟨r₁, r₂, r', movedCell r bs cell, hcompacts, ?_⟩
  rw [List.forall₂_map_left_iff]
  have hreach : ∀ som ∈ roots, ∀ p ∈ cellRef som, Reaches r roots p := fun som hsom p hp ↦
    ⟨p, List.mem_flatMap.mpr ⟨som, hsom, hp⟩, .refl⟩
  refine List.forall₂_iff_get.mpr ⟨hroots.length_eq, fun i hi hi' ↦ ?_⟩
  have hdenotes := (List.forall₂_iff_get.mp hroots).2 i hi hi'
  rw [rewrittenNoun_eq hheap hdenotes.inside hcompacts.rewrites]
  exact hdenotes.forward hheap hnorth hcompacts.packed
    (fun p hp ↦ ⟨hrooted.reaches_mem hp, (reaches_cell hroots hp).1⟩) (hreach _ (List.get_mem ..))

/-- A road with a free box before a cell, whose head and tail are the same indirect atom. -/
def holeRoad : Road :=
  { emptyRoad with
    hat_p := 19
    fre_p := fun sel ↦ if sel = 1 then 1 else 0
    loom := fun w ↦
      [0, 6, 0, 0, 0, 0, 6, 6, 1, 0, 0x8000000f, 0x8000000f, 6, 6, 2, 0, 1, 2 ^ 31, 6].getD w 0 }

/-- The boxes of the road. -/
def holeBoxes : List Box := [⟨1, 6, .free⟩, ⟨7, 6, .live 3⟩, ⟨13, 6, .live 3⟩]

theorem pack_north_hole : ∃ r₁ r₂ r' cell',
    Compacts 4 holeRoad holeBoxes [0xc0000009] r₁ r₂ r' ∧
      List.Forall₂ (Denotes r' (packed holeRoad holeBoxes) cell')
        ([0xc0000009].map (rewrittenNoun r₂)) [.cell (.atom (2 ^ 31)) (.atom (2 ^ 31))] := by
  have hheap : Heap 64 holeRoad holeBoxes := by
    refine ⟨⟨⟨rfl, rfl, rfl, rfl⟩, by decide, by simp [Box.Tagged, holeRoad, holeBoxes],
      by simp [holeRoad, holeBoxes], fun sel _ ↦ ?_, ⟨[], .refl _, .nil, rfl⟩, .refl _,
      by simp [livesOf,
      holeBoxes]⟩, by decide, by decide, by decide, by decide, by decide, by decide⟩
    by_cases hsel : sel = 1
    · subst hsel
      exact ⟨[1], .refl _, by simp, by simp [Linked, holeRoad]⟩
    · have hslot : boxSlot 6 = 1 := by decide
      have hnone : freeOn holeBoxes sel = [] := by simp [freeOn, holeBoxes, hslot, Ne.symm hsel]
      rw [hnone]
      exact ⟨[], .refl _, .nil, if_neg hsel⟩
  have hlive : (toOff 0x8000000f, 3) ∈ livesOf holeBoxes := by decide
  have hatom : Denotes holeRoad holeBoxes (fun p ↦ p = 9) 0x8000000f (.atom (2 ^ 31)) :=
    .pug (by decide) hlive (by decide) (by decide)
  have hlive' : (toOff 0xc0000009, 3) ∈ livesOf holeBoxes := by decide
  exact pack_north hheap (by decide) (.cons (.pom (by decide) hlive' (by decide) (by decide) hatom
    hatom) .nil) (by decide)

end

end Vere.Noun.Pack
