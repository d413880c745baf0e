import Vere.Noun.Pack

/-!
# Compaction of a south road

On a south road the boxes are swept from the rut down, and the new addresses are recorded in the
leading size words. The code does not do what it does on a north road: the sweep leaves out the last
box, the step to the next box is the size of that one even if it is free, boxes are copied up with
the lowest word first, and `u3a_rewritten()` takes the leading word for a size.

`south_compacts_iff` says when the road is packed in spite of that: when some words of it happen to
be the addresses that they should be. `south_single` is a road with one box, whose move ends in a
failed assertion.
-/

set_option autoImplicit false

namespace Vere.Noun.Pack

open Lib Lib.Visit Allocate Mark

/-! ### Where the code goes -/

/-- Each box that is in use is as large as the first of the free boxes that come right before it, if
there are any. `fst` is the size of the first free box since the last box in use. -/
def Matched (r : Road) : Option ℕ → List Box → Prop
  | _, [] => True
  | fst, b :: ds =>
    if inUse r b = true then fst.getD b.siz = b.siz ∧ Matched r none ds
    else Matched r (some (fst.getD b.siz)) ds

/-- What the sweeps have as the new address of the last box, from what they have for the first. -/
def lastAddr (r : Road) : ℕ → List Box → ℕ
  | n, [] => n
  | n, [_] => n
  | n, b :: c :: ds => lastAddr r (if inUse r b then n - c.siz else n) (c :: ds)

/-- The new addresses that the sweeps have for the boxes in use but the last. -/
def Upper (r : Road) (ok : Box → ℕ → Prop) : ℕ → List Box → Prop
  | _, [] => True
  | _, [_] => True
  | n, b :: c :: ds =>
    (inUse r b = true → ok b n) ∧ Upper r ok (if inUse r b then n - c.siz else n) (c :: ds)

/-- The word that `u3a_rewritten()` reads for a box, as far above it as its new address says, is the
new address, and is none that the sweep or the marks of the walk write. -/
def Stray (r : Road) (bs : List Box) (roots : List ℕ) : Prop :=
  ∀ b ∈ bs, inUse r b = true →
    r.loom (b.pos + newPtr r bs (b.pos + 2) - 1) = newPtr r bs (b.pos + 2) ∧
      (∀ c ∈ bs, inUse r c = true → b.pos + newPtr r bs (b.pos + 2) - 1 ≠ c.pos) ∧
        ∀ p, Reaches r roots p → b.pos + newPtr r bs (b.pos + 2) - 1 ≠ p - 2 + 1

/-- What has to happen for a heap that is not empty, whose lowest box is `low`. -/
structure Accident (r : Road) (bs : List Box) (roots : List ℕ) (low : Box) : Prop where
  use : inUse r low = true
  size : low.siz = newPtr r bs (low.pos + 2)
  sizes : Matched r none bs.reverse
  repeats : ∀ b ∈ bs, inUse r b = true → ∀ i, i + 1 < b.siz → newPos r bs b.pos - b.pos ≤ i →
    forwarded r bs roots (b.pos + 1 + i) =
      forwarded r bs roots (b.pos + 1 + (i - (newPos r bs b.pos - b.pos)))
  stray : Stray r bs roots

/-- When a south road is packed. The sweeps of an empty heap read a word below the rut, and one
above it.
-/
def FitsSouth (r : Road) (bs : List Box) (roots : List ℕ) : Prop :=
  match bs with
  | [] => r.loom (r.rut_p - 1) = 0 ∧ r.loom (r.rut_p + 1) = 0
  | low :: _ => Accident r bs roots low

section

variable {mat_p : ℕ} {r r₁ r₂ s : Road} {bs ds ys : List Box} {b c : Box} {roots : List ℕ}

/-- A box that is in use, and those that go above it. -/
theorem Heap.newPos_add (hheap : Heap mat_p r (ds ++ b :: ys)) (hsouth : r.isNorth = false)
    (huse : inUse r b = true) :
    newPos r (ds ++ b :: ys) b.pos + b.siz + total (inUse r) ys = r.rut_p ∧
      b.pos ≤ newPos r (ds ++ b :: ys) b.pos := by
  obtain ⟨mid, _, rfl, hys⟩ := Tiles.append_iff.mp hheap.tiles
  rw [Road.high_south hsouth] at hys
  have hle : b.pos + b.siz + total (inUse r) ys ≤ r.rut_p := total_le hys
  rw [Heap.newPos_south hheap hsouth, total_cons, if_pos huse]
  omega

/-- The boxes after a box go above it. -/
theorem Heap.newPos_above (hheap : Heap mat_p r (ds ++ b :: ys)) (hsouth : r.isNorth = false)
    (hc : c ∈ ys) : r.rut_p - total (inUse r) ys ≤ newPos r (ds ++ b :: ys) c.pos := by
  obtain ⟨us, vs, rfl⟩ := List.append_of_mem hc
  have hsplit : ds ++ b :: (us ++ c :: vs) = (ds ++ b :: us) ++ c :: vs := by simp
  rw [hsplit] at hheap ⊢
  rw [Heap.newPos_south hheap hsouth, total_append]
  omega

theorem Heap.total_above (hheap : Heap mat_p r (ds ++ b :: ys)) (hsouth : r.isNorth = false) :
    b.pos + b.siz + total (inUse r) ys ≤ r.rut_p := by
  obtain ⟨mid, _, rfl, hys⟩ := Tiles.append_iff.mp hheap.tiles
  rw [Road.high_south hsouth] at hys
  exact total_le hys

/-- The sweeps have the right addresses if and only if the sizes match. -/
theorem matched_iff (hheap : Heap mat_p r bs) (hsouth : r.isNorth = false) :
    ∀ {b : Box} {ys : List Box} {n : ℕ} {fst : Option ℕ}, bs = ds.reverse ++ b :: ys →
      n + fst.getD b.siz = r.rut_p - total (inUse r) ys + 2 →
        ((Upper r (fun c m ↦ m = newPtr r bs (c.pos + 2)) n (b :: ds) ∧
            ∀ low ∈ (b :: ds).getLast?, inUse r low = true →
              lastAddr r n (b :: ds) = newPtr r bs (low.pos + 2)) ↔
          Matched r fst (b :: ds)) := by
  induction ds with
  | nil =>
    rintro b ys n fst rfl hn
    rw [List.reverse_nil] at hheap ⊢
    simp only [Upper, List.getLast?_singleton, Option.mem_def, Option.some.injEq, forall_eq',
      lastAddr, true_and, Matched, and_true]
    cases hcase : inUse r b with
    | true =>
      have hnew := (Heap.newPos_add hheap hsouth hcase).1
      simp only [newPtr, Nat.add_sub_cancel, if_true, forall_const]
      omega
    | false => simp
  | cons c ds ih =>
    rintro b ys n fst rfl hn
    have hsplit : (c :: ds).reverse ++ b :: ys = ds.reverse ++ c :: (b :: ys) := by simp
    have hpos : b.pos = c.pos + c.siz := by
      have htiles := hheap.tiles
      rw [hsplit] at htiles
      exact htiles.next_pos
    simp only [List.getLast?_cons_cons, Upper, lastAddr]
    rw [Matched]
    cases hcase : inUse r b with
    | true =>
      obtain ⟨hnew, hge⟩ := Heap.newPos_add hheap hsouth hcase
      have hhead : n = newPtr r ((c :: ds).reverse ++ b :: ys) (b.pos + 2) ↔
          fst.getD b.siz = b.siz := by
        rw [newPtr, Nat.add_sub_cancel]
        omega
      simp only [if_true, forall_const]
      rw [and_assoc, hhead]
      refine and_congr_right fun hsiz ↦ ih hsplit ?_
      rw [total_cons, if_pos hcase]
      show n - c.siz + c.siz = _
      omega
    | false =>
      simp only [Bool.false_eq_true, if_false, false_imp_iff, true_and]
      refine ih hsplit ?_
      rw [total_cons, if_neg (by simp [hcase]), Nat.zero_add]
      exact hn

/-- If the last box is free, the sweeps end below where they should. -/
theorem lastAddr_free (hheap : Heap mat_p r bs) (hsouth : r.isNorth = false) :
    ∀ {b : Box} {ys : List Box} {n g : ℕ}, bs = ds.reverse ++ b :: ys → 6 ≤ g →
      n + g = r.rut_p - total (inUse r) ys + 2 →
        Upper r (fun c m ↦ m = newPtr r bs (c.pos + 2)) n (b :: ds) →
          ∀ low ∈ (b :: ds).getLast?, inUse r low = false →
            lastAddr r n (b :: ds) + 6 ≤ r.rut_p - total (inUse r) bs + 2 := by
  induction ds with
  | nil =>
    rintro b ys n g rfl hg hn _ low hlow hfree
    obtain rfl : b = low := by simpa using hlow
    rw [List.reverse_nil, List.nil_append, total_cons, if_neg (by simp [hfree]), Nat.zero_add]
    show n + 6 ≤ _
    omega
  | cons c ds ih =>
    rintro b ys n g rfl hg hn ⟨hhead, hrest⟩ low hlow hfree
    have hsplit : (c :: ds).reverse ++ b :: ys = ds.reverse ++ c :: (b :: ys) := by simp
    have hpos : b.pos = c.pos + c.siz := by
      have htiles := hheap.tiles
      rw [hsplit] at htiles
      exact htiles.next_pos
    have hcsiz : 6 ≤ c.siz := hheap.siz c (by simp)
    rw [List.getLast?_cons_cons] at hlow
    rw [lastAddr]
    cases hcase : inUse r b with
    | true =>
      obtain ⟨hnew, hge⟩ := Heap.newPos_add hheap hsouth hcase
      have hn' : n = newPtr r ((c :: ds).reverse ++ b :: ys) (b.pos + 2) := hhead hcase
      rw [newPtr, Nat.add_sub_cancel] at hn'
      rw [hcase] at hrest
      refine ih hsplit hcsiz ?_ hrest low hlow hfree
      rw [total_cons, if_pos hcase, if_pos rfl]
      omega
    | false =>
      rw [hcase] at hrest
      refine ih hsplit hg ?_ hrest low hlow hfree
      rw [total_cons, hcase, if_neg (by decide), if_neg (by decide), Nat.zero_add]
      exact hn

/-! ### The first sweep -/

theorem slot_south (hsouth : r.isNorth = false) (b : Box) : slot r b = b.pos := by
  rw [slot, if_neg (by simp [hsouth])]

variable {low : Box} {rest done : List Box} {fuel n : ℕ} {r' : Road}

/-- The first sweep writes its addresses to the boxes in use but the last. -/
theorem packSeekSouth_ok (hheap : Heap mat_p r bs) (hbs : bs = low :: rest)
    (hhat : r.hat_p = low.pos) :
    ∀ {b : Box} {ys : List Box} {n fuel : ℕ} {s : Road}, bs = ds.reverse ++ b :: ys →
    ds.length < fuel →
      s = { r with loom := s.loom } → (∀ w, (∀ c ∈ ys, inUse r c = true → w ≠ c.pos) →
      s.loom w = r.loom w) →
        ∃ s', packSeekSouth r.hat_p fuel s b.pos n = .ok s' ∧ s' = { r with loom := s'.loom } ∧
          Upper r (fun c m ↦ s'.loom c.pos = m) n (b :: ds) ∧
          (∀ c ∈ ys, s'.loom c.pos = s.loom c.pos) ∧
          ∀ w, (∀ c ∈ rest, inUse r c = true → w ≠ c.pos) → s'.loom w = r.loom w := by
  induction ds with
  | nil =>
    rintro b ys n (_ | fuel) s hsplit hfuel hroad hframe
    · exact absurd hfuel (Nat.not_lt_zero _)
    · obtain ⟨rfl, rfl⟩ : low = b ∧ rest = ys := by simpa using hbs.symm.trans hsplit
      rw [packSeekSouth, if_neg (by omega)]
      exact ⟨s, rfl, hroad, trivial, fun _ _ ↦ rfl, hframe⟩
  | cons c ds ih =>
    rintro b ys n (_ | fuel) s hsplit hfuel hroad hframe
    · exact absurd hfuel (Nat.not_lt_zero _)
    have hsplit' : bs = ds.reverse ++ c :: (b :: ys) := by simp [hsplit]
    have hb : b ∈ bs := by simp [hsplit]
    have hc : c ∈ bs := by simp [hsplit]
    have htiles := hheap.tiles
    rw [hsplit'] at htiles
    have hpos : b.pos = c.pos + c.siz := htiles.next_pos
    obtain ⟨hcsiz, _, hctail, _⟩ := Heap.box hheap hc
    obtain ⟨hsiz, _⟩ := Heap.box hheap hb
    have hlow : low.pos ≤ c.pos := by
      have hmem := hheap.tiles
      rw [hbs] at hmem hc
      rcases List.mem_cons.mp hc with rfl | hc
      · exact Nat.le_refl _
      · have htile : Tiles r.low ([] ++ low :: rest) r.high := hmem
        have hle := htile.around.2 c hc
        omega
    have hlt : r.hat_p < b.pos := by omega
    have hafter : ∀ d ∈ ys, b.pos + b.siz ≤ d.pos := by
      have htiles' := hheap.tiles
      rw [hsplit] at htiles'
      exact htiles'.around.2
    have hold : ∀ w, w < b.pos + b.siz → s.loom w = r.loom w := by
      intro w hw
      refine hframe w fun d hd _ ↦ ?_
      have hle := hafter d hd
      omega
    have hsiz_w : s.loom (b.pos - 1) = c.siz := by
      rw [hold _ (by omega), hpos]
      exact hctail
    have huse_w : s.loom (b.pos + 1) = r.loom (b.pos + 1) := hold _ (by omega)
    have hnext : b.pos - c.siz = c.pos := by omega
    rw [packSeekSouth, if_pos hlt]
    simp only [hsiz_w, huse_w, hnext]
    cases hcase : inUse r b with
    | true =>
      rw [if_pos (inUse_iff.mp hcase)]
      have hframe' : ∀ w, (∀ d ∈ b :: ys, inUse r d = true → w ≠ d.pos) →
          (s.put b.pos n).loom w = r.loom w := by
        intro w hw
        rw [Road.loom_put, Function.update_of_ne (hw b List.mem_cons_self hcase)]
        exact hframe w fun d hd ↦ hw d (List.mem_cons_of_mem _ hd)
      have hroad' : s.put b.pos n = { r with loom := (s.put b.pos n).loom } := by
        rw [hroad]
        rfl
      obtain ⟨s', hseek, hroad'', hupper, hkeep, hframe''⟩ :=
        ih hsplit' (Nat.lt_of_succ_lt_succ hfuel) hroad' hframe'
      refine ⟨s', hseek, hroad'', ⟨fun _ ↦ ?_, by rw [hcase]; exact hupper⟩, fun d hd ↦ ?_,
        hframe''⟩
      · show s'.loom b.pos = n
        rw [hkeep b List.mem_cons_self, Road.loom_put, Function.update_self]
      · have hle := hafter d hd
        rw [hkeep d (List.mem_cons_of_mem _ hd), Road.loom_put, Function.update_of_ne (by omega)]
    | false =>
      rw [if_neg fun hne ↦ by simp [inUse_iff.mpr hne] at hcase]
      have hframe' : ∀ w, (∀ d ∈ b :: ys, inUse r d = true → w ≠ d.pos) → s.loom w = r.loom w :=
        fun w hw ↦ hframe w fun d hd ↦ hw d (List.mem_cons_of_mem _ hd)
      obtain ⟨s', hseek, hroad'', hupper, hkeep, hframe''⟩ :=
        ih hsplit' (Nat.lt_of_succ_lt_succ hfuel) hroad hframe'
      exact ⟨s', hseek, hroad'',
        ⟨fun hcase' ↦ by simp [hcase] at hcase', by simpa [hcase] using hupper⟩,
        fun d hd ↦ hkeep d (List.mem_cons_of_mem _ hd), hframe''⟩

/-- The first sweep of a heap that is not empty. -/
theorem packSeek_south (hheap : Heap mat_p r bs) (hsouth : r.isNorth = false)
    (hbs : bs = low :: rest) (hfuel : bs.length < fuel) :
    ∃ top ds r₁, bs.reverse = top :: ds ∧ packSeek fuel r = .ok r₁ ∧
    r₁ = { r with loom := r₁.loom } ∧
      Upper r (fun c m ↦ r₁.loom c.pos = m) (r.rut_p + 2 - top.siz) (top :: ds) ∧
      ∀ w, (∀ c ∈ rest, inUse r c = true → w ≠ c.pos) → r₁.loom w = r.loom w := by
  obtain ⟨top, ds, hrev⟩ : ∃ top ds, bs.reverse = top :: ds :=
    List.exists_cons_of_ne_nil (by simp [hbs])
  have hsplit : bs = ds.reverse ++ top :: [] := by
    rw [← List.reverse_reverse bs, hrev, List.reverse_cons]
  have htop : top ∈ bs := by simp [hsplit]
  obtain ⟨_, _, htail, _⟩ := Heap.box hheap htop
  have htiles := hheap.tiles
  have hhat : r.hat_p = low.pos := by
    rw [hbs, Road.low_south hsouth] at htiles
    exact htiles.1.symm
  have hrut : top.pos + top.siz = r.rut_p := by
    rw [hsplit, Road.high_south hsouth] at htiles
    obtain ⟨mid, _, rfl, hend⟩ := Tiles.append_iff.mp htiles
    exact hend
  have hlen : ds.length < fuel := by
    have hlen := congrArg List.length hrev
    rw [List.length_reverse, List.length_cons] at hlen
    omega
  obtain ⟨r₁, hseek, hroad, hupper, _, hframe⟩ := packSeekSouth_ok hheap hbs hhat hsplit hlen
    (rfl : r = { r with loom := r.loom }) fun _ _ ↦ rfl
  refine ⟨top, ds, r₁, hrev, ?_, hroad, hupper, hframe⟩
  rw [packSeek, if_neg (by simp [hsouth])]
  have hsiz_w : r.loom (r.rut_p - 1) = top.siz := by rw [← hrut, htail]
  simp only [hsiz_w]
  rw [show r.rut_p - top.siz = top.pos by omega]
  exact hseek

/-! ### The walk -/

/-- The boxes that are in use go to different places. -/
theorem newPos_inj_south (hheap : Heap mat_p r bs) (hsouth : r.isNorth = false) (hb : b ∈ bs)
    (hc : c ∈ bs) (hbuse : inUse r b = true) (hcuse : inUse r c = true)
    (heq : newPos r bs b.pos = newPos r bs c.pos) : b = c := by
  have happart : ∀ {us vs : List Box} {d e : Box}, bs = us ++ d :: vs → e ∈ vs → inUse r d = true →
      6 ≤ d.siz → newPos r bs d.pos ≠ newPos r bs e.pos := by
    rintro us vs d e rfl he hduse hdsiz
    have hadd := (Heap.newPos_add hheap hsouth hduse).1
    have habove := Heap.newPos_above hheap hsouth he
    omega
  obtain ⟨xs, ys, hsplit⟩ := List.append_of_mem hb
  rw [hsplit] at hc
  rcases List.mem_append.mp hc with hc | hc
  · obtain ⟨us, vs, rfl⟩ := List.append_of_mem hc
    have hsplit' : bs = us ++ c :: (vs ++ b :: ys) := by simp [hsplit]
    have hne :=
      happart hsplit' (by simp : b ∈ vs ++ b :: ys) hcuse (hheap.siz c (by simp [hsplit']))
    exact absurd heq.symm hne
  · rcases List.mem_cons.mp hc with rfl | hc
    · rfl
    · exact absurd heq (happart hsplit hc hbuse (hheap.siz b hb))

theorem newPtr_south (hheap : Heap mat_p r bs) (hsouth : r.isNorth = false) (hb : b ∈ bs)
    (huse : inUse r b = true) : newPtr r bs (b.pos + 2) = newPos r bs b.pos + 2 ∧
      b.pos ≤ newPos r bs b.pos ∧ newPos r bs b.pos + b.siz ≤ r.rut_p ∧ r.rut_p ≤ 2 ^ 30 := by
  obtain ⟨xs, ys, rfl⟩ := List.append_of_mem hb
  obtain ⟨hadd, hge⟩ := Heap.newPos_add hheap hsouth huse
  have hhigh := hheap.high_le
  rw [Road.high_south hsouth] at hhigh
  rw [newPtr, Nat.add_sub_cancel]
  exact ⟨rfl, hge, by omega, hhigh⟩

/-- `u3a_rewritten()` of a box, when the leading word of the box is its new address. -/
theorem rewritten_south (hhead : s.loom b.pos = newPtr r bs (b.pos + 2)) :
    rewritten s (b.pos + 2) = s.loom (b.pos + newPtr r bs (b.pos + 2) - 1) := by
  unfold rewritten
  simp only [Nat.add_sub_cancel, hhead]

/-- What the walk may write, whatever `u3a_rewritten()` gives: a direct atom stays, and a pointer is
no direct atom. -/
def Kind (r : Road) (w v : ℕ) : Prop :=
  (isCat (r.loom w) = true → v = r.loom w) ∧ (isCat (r.loom w) = false → 2 ^ 31 ≤ v)

theorem rewrittenNoun_kind (r s : Road) (w : ℕ) : Kind r w (rewrittenNoun s (r.loom w)) := by
  unfold rewrittenNoun
  constructor
  · intro hcat
    rw [if_pos hcat]
  · intro hcat
    rw [if_neg (by simp [hcat])]
    dsimp only
    split_ifs
    · exact (by decide : 2 ^ 31 ≤ 0x80000000).trans Nat.right_le_or
    · exact (by decide : 2 ^ 31 ≤ 0xc0000000).trans Nat.right_le_or

theorem forwardNoun_kind (r : Road) (bs : List Box) (w : ℕ) :
    Kind r w (forwardNoun r bs (r.loom w)) := by
  unfold forwardNoun
  constructor
  · intro hcat
    rw [if_pos hcat]
  · intro hcat
    rw [if_neg (by simp [hcat])]
    split_ifs
    · exact (by decide : 2 ^ 31 ≤ 0x80000000).trans Nat.right_le_or
    · exact (by decide : 2 ^ 31 ≤ 0xc0000000).trans Nat.right_le_or

/-- The word that is read for a box is as it was before the walk, or it is no new address. -/
theorem stray_iff {reach : ℕ → Prop} {V : ℕ → ℕ → Prop} {w v : ℕ} (htouched : Touched V r₁ reach s)
    (hkind : ∀ w v, V w v → Kind r w v) (hreach : ∀ p, reach p → r₁.loom (p + 1) = r.loom (p + 1) ∧
      r₁.loom (p + 2) = r.loom (p + 2)) (hv : v < 2 ^ 31) (huse : ∀ p, reach p → w ≠ p - 2 + 1) :
    s.loom w = v ↔ r₁.loom w = v := by
  rcases htouched.word w with hsame | ⟨p, hp, hw, _⟩ | ⟨p, hp, hw, hV⟩
  · rw [hsame]
  · exact absurd hw (huse p hp)
  · have hword : r₁.loom w = r.loom w := by
      rcases hw with rfl | rfl
      · exact (hreach p hp).1
      · exact (hreach p hp).2
    obtain ⟨hcat, hptr⟩ := hkind _ _ hV
    rw [hword]
    cases hcase : isCat (r.loom w) with
    | true => rw [hcat hcase]
    | false =>
      have hge := hptr hcase
      have hge' : ¬r.loom w < 2 ^ 31 := fun hlt ↦ by simp [isCat_iff.mpr hlt] at hcase
      omega

/-- If the words are right, `u3a_rewritten()` is right in every state of the walk. -/
theorem rewritten_of_stray {V : ℕ → ℕ → Prop} (hheap : Heap mat_p r bs) (hsouth : r.isNorth = false)
    (hsought : Sought r bs done r₁) (hdone : ∀ c ∈ done, c ∈ bs)
    (hrecords : ∀ b ∈ bs, inUse r b = true → r₁.loom b.pos = newPtr r bs (b.pos + 2))
    (hmem : ∀ p, Reaches r roots p → p ∈ ptrsOf bs) (hstray : Stray r bs roots)
    (hkind : ∀ w v, V w v → Kind r w v) (htouched : Touched V r₁ (Reaches r roots) s) :
    ∀ b ∈ bs, inUse r b = true → rewritten s (b.pos + 2) = newPtr r bs (b.pos + 2) := by
  intro b hb huse
  obtain ⟨hnew, hge, hle, hrut⟩ := newPtr_south hheap hsouth hb huse
  have hsiz : 6 ≤ b.siz := hheap.siz b hb
  obtain ⟨hword, hpos, hmark⟩ := hstray b hb huse
  have hhead : s.loom b.pos = newPtr r bs (b.pos + 2) :=
    (htouched.edge hheap hmem hb (.inl rfl)).trans (hrecords b hb huse)
  rw [rewritten_south hhead, stray_iff htouched hkind (fun p hp ↦
    (hsought.words hheap hdone p (hmem p hp)).2) (by omega) hmark]
  refine (hsought.frame _ fun c hc hcuse ↦ ?_).trans hword
  rw [slot_south hsouth]
  exact hpos c (hdone c hc) hcuse

/-- If `u3a_rewritten()` is right after the walk, the words are right. -/
theorem stray_of_rewritten {reached : List ℕ} (hheap : Heap mat_p r bs) (hsouth : r.isNorth = false)
    (hsought : Sought r bs done r₁) (hdone : ∀ c ∈ done, c ∈ bs)
    (hrecords : ∀ b ∈ bs, inUse r b = true → r₁.loom b.pos = newPtr r bs (b.pos + 2))
    (hmem : ∀ p, Reaches r roots p → p ∈ ptrsOf bs)
    (hreached : ∀ p, p ∈ reached ↔ Reaches r roots p)
    (hrewrote : Rewrote (Kind r) r₁ reached reached r₂)
    (hrewrites : ∀ b ∈ bs, inUse r b = true → rewritten r₂ (b.pos + 2) = newPtr r bs (b.pos + 2)) :
    Stray r bs roots := by
  intro b hb huse
  obtain ⟨hnew, hge, hle, hrut⟩ := newPtr_south hheap hsouth hb huse
  have hsiz : 6 ≤ b.siz := hheap.siz b hb
  have htouched := hrewrote.touched (fun p hp ↦ (hreached p).mp hp) fun p hp ↦ (hreached p).mp hp
  have hhead : r₂.loom b.pos = newPtr r bs (b.pos + 2) :=
    (htouched.edge hheap hmem hb (.inl rfl)).trans (hrecords b hb huse)
  have hword := hrewrites b hb huse
  rw [rewritten_south hhead] at hword
  have hmark : ∀ p, Reaches r roots p → b.pos + newPtr r bs (b.pos + 2) - 1 ≠ p - 2 + 1 := by
    intro p hp heq
    have huse' := hrewrote.use p ((hreached p).mpr hp)
    rw [← heq, hword] at huse'
    omega
  rw [stray_iff htouched (fun _ _ hV ↦ hV) (fun p hp ↦ (hsought.words hheap hdone p (hmem p hp)).2)
    (by omega) hmark] at hword
  have hpos : ∀ c ∈ bs, inUse r c = true → b.pos + newPtr r bs (b.pos + 2) - 1 ≠ c.pos := by
    intro c hc hcuse heq
    rw [heq, hrecords c hc hcuse] at hword
    obtain ⟨hcnew, _⟩ := newPtr_south hheap hsouth hc hcuse
    obtain rfl := newPos_inj_south hheap hsouth hc hb hcuse huse (by omega)
    omega
  refine ⟨?_, hpos, hmark⟩
  rw [← hsought.frame _ fun c hc hcuse ↦ ?_, hword]
  rw [slot_south hsouth]
  exact hpos c (hdone c hc) hcuse

/-! ### The second sweep -/

/-- The first words of a box and its last are not rewritten. -/
theorem Heap.forwarded_edge (hheap : Heap mat_p r bs)
    (hmem : ∀ p, Reaches r roots p → p ∈ ptrsOf bs) (hb : b ∈ bs) {i : ℕ}
    (hi : i < 2 ∨ i + 1 = b.siz) (hlt : i < b.siz) :
    forwarded r bs roots (b.pos + i) = r.loom (b.pos + i) := by
  refine if_neg ?_
  rintro ⟨p, hp, hw⟩
  obtain ⟨c, hc, _, hcsiz, _, _, hhed, htel⟩ := Heap.cell_words hheap (hmem p hp)
  rcases hw with hw | hw
  · obtain ⟨rfl, hone⟩ := hheap.tiles.word_unique hb hc hlt (by omega) (hw.trans hhed)
    omega
  · obtain ⟨rfl, hone⟩ := hheap.tiles.word_unique hb hc hlt (by omega) (hw.trans htel)
    omega

/-- The words of a box after the walk, when the mark has been taken away. -/
theorem Walked.clean (hwalked : Walked r bs roots r₁ r₂) (hheap : Heap mat_p r bs)
    (hmem : ∀ p, Reaches r roots p → p ∈ ptrsOf bs)
    (hlast : ∀ b ∈ bs, r₁.loom (b.pos + b.siz - 1) = b.siz) (hb : b ∈ bs) {i : ℕ}
    (hi : i + 1 < b.siz) :
    Function.update r₂.loom (b.pos + 1) (r.loom (b.pos + 1)) (b.pos + 1 + i) =
      forwarded r bs roots (b.pos + 1 + i) := by
  obtain ⟨hsiz, _, htail, _⟩ := Heap.box hheap hb
  by_cases hzero : i = 0
  · subst hzero
    rw [Nat.add_zero, Function.update_self]
    exact (Heap.forwarded_edge hheap hmem hb (.inl (by decide)) (by omega)).symm
  rw [Function.update_of_ne (by omega), Nat.add_assoc]
  by_cases htop : i + 2 = b.siz
  · rw [Heap.forwarded_edge hheap hmem hb (.inr (by omega)) (by omega),
      hwalked.edge b hb _ (.inr (by omega)), show b.pos + (1 + i) = b.pos + b.siz - 1 by omega,
      hlast b hb, htail]
  · exact hwalked.words b hb (1 + i) (by omega) (by omega)

/-- The second sweep of a south road, when it is done with some boxes. A box that is moved by less
than its size repeats the words that it is moved by. -/
structure Slid (r : Road) (bs : List Box) (roots : List ℕ) (r₂ : Road) (done : List Box)
    (s : Road) :
    Prop where
  road : s = { r₂ with loom := s.loom }
  head : ∀ b ∈ done, inUse r b = true → s.loom (newPos r bs b.pos) = b.siz
  body : ∀ b ∈ done, inUse r b = true → ∀ i, i + 1 < b.siz →
    s.loom (newPos r bs b.pos + 1 + i) =
      if newPos r bs b.pos - b.pos = 0 ∨ i < newPos r bs b.pos - b.pos then
        forwarded r bs roots (b.pos + 1 + i)
      else s.loom (newPos r bs b.pos + 1 + (i - (newPos r bs b.pos - b.pos)))

/-- A box that is in use is copied up, or stays where it is. -/
theorem packBoxSouth_ok {box_w siz_w new_w : ℕ} (hle : box_w ≤ new_w)
    (hhead : s.loom box_w = new_w + 2) :
    ∃ s', packBoxSouth s box_w siz_w (new_w + 2) = .ok s' ∧ s' = { s with loom := s'.loom } ∧
      s'.loom new_w = siz_w ∧
      (∀ i, i + 1 < siz_w → s'.loom (new_w + 1 + i) =
        if new_w - box_w = 0 ∨ i < new_w - box_w then s.loom (box_w + 1 + i)
        else s'.loom (new_w + 1 + (i - (new_w - box_w)))) ∧
      ∀ w, w < new_w ∨ new_w + siz_w ≤ w ∧ w ≠ new_w → s'.loom w = s.loom w := by
  unfold packBoxSouth
  rw [Nat.add_sub_cancel]
  simp only [hhead, ne_eq, not_true_eq_false, if_false]
  by_cases hlt : box_w < new_w
  · rw [if_pos hlt]
    refine ⟨_, rfl, rfl, ?_, fun i hi ↦ ?_, fun w hw ↦ ?_⟩
    · rw [Road.loom_put, Function.update_self]
    · rw [Road.loom_put, Function.update_of_ne (by omega), Function.update_of_ne (by omega)]
      have hup : Copy.ascending (new_w + 1) (box_w + 1) (siz_w - 1) s.loom (new_w + 1 + i) =
          if i < new_w - box_w then s.loom (box_w + 1 + i)
          else Copy.ascending (new_w + 1) (box_w + 1) (siz_w - 1) s.loom
            (new_w + 1 + (i - (new_w - box_w))) :=
              Copy.ascending_up (by omega) (by omega) (by omega)
      have hne : ¬new_w - box_w = 0 := by omega
      simp only [hne, false_or]
      exact hup
    · rw [Road.loom_put, Function.update_of_ne (by omega)]
      exact Copy.ascending_frame (by omega)
  · obtain rfl : new_w = box_w := by omega
    rw [if_neg hlt, if_pos rfl]
    refine ⟨_, rfl, rfl, ?_, fun i hi ↦ ?_, fun w hw ↦ ?_⟩
    · rw [Road.loom_put, Function.update_self]
    · rw [Road.loom_put, if_pos (.inl (Nat.sub_self _)), Function.update_of_ne (by omega)]
    · rw [Road.loom_put, Function.update_of_ne (by omega)]

/-- A sweep over one box, when the addresses are right. -/
theorem packStepSouth_ok (hheap : Heap mat_p r (ds ++ b :: ys)) (hsouth : r.isNorth = false)
    (hwalked : Walked r (ds ++ b :: ys) roots r₁ r₂)
    (hmem : ∀ p, Reaches r roots p → p ∈ ptrsOf (ds ++ b :: ys))
    (hlast : ∀ c ∈ ds ++ b :: ys, r₁.loom (c.pos + c.siz - 1) = c.siz)
    (hslid : Slid r (ds ++ b :: ys) roots r₂ ys s)
    (hframe : ∀ w, w < b.pos + b.siz ∨ r.rut_p ≤ w → s.loom w = r₂.loom w) {n : ℕ}
    (hnew : inUse r b = true → n = newPtr r (ds ++ b :: ys) (b.pos + 2))
    (hhead : inUse r b = true → r₂.loom b.pos = n) :
    ∃ s', packStepSouth s b.pos b.siz n = .ok (s', inUse r b) ∧
      Slid r (ds ++ b :: ys) roots r₂ (b :: ys) s' ∧
      ∀ w, w < b.pos ∨ r.rut_p ≤ w → s'.loom w = r₂.loom w := by
  have hb : b ∈ ds ++ b :: ys := by simp
  obtain ⟨hsiz, _⟩ := Heap.box hheap hb
  have htotal := Heap.total_above hheap hsouth
  have huse_w : s.loom (b.pos + 1) &&& 0x7fffffff = r.loom (b.pos + 1) := by
    rw [hframe _ (by omega)]
    exact hwalked.use b hb
  -- the mark is taken away
  set s₁ := s.put (b.pos + 1) (r.loom (b.pos + 1)) with hs₁
  have hloom₁ : ∀ w, w ≠ b.pos + 1 → s₁.loom w = s.loom w := fun w hw ↦ Function.update_of_ne hw ..
  have huse₁ : s₁.loom (b.pos + 1) = r.loom (b.pos + 1) := Function.update_self ..
  have habove : ∀ c ∈ ys, b.pos + b.siz ≤ newPos r (ds ++ b :: ys) c.pos := by
    intro c hc
    have hle := Heap.newPos_above hheap hsouth hc
    omega
  unfold packStepSouth
  simp only [huse_w, ← hs₁, huse₁]
  cases hcase : inUse r b with
  | true =>
    obtain ⟨hadd, hge⟩ := Heap.newPos_add hheap hsouth hcase
    have hn := hnew hcase
    rw [newPtr, Nat.add_sub_cancel] at hn
    have hhead₁ : s₁.loom b.pos = newPos r (ds ++ b :: ys) b.pos + 2 := by
      rw [hloom₁ _ (by omega), hframe _ (by omega), hhead hcase, hn]
    obtain ⟨s₂, hbox, hroad, hsize, hcopied, hsame⟩ := @packBoxSouth_ok s₁ _ b.siz _ hge hhead₁
    -- the boxes that have been moved are above where this one goes
    have hkeep : ∀ c ∈ ys, inUse r c = true → ∀ i,
        s₂.loom (newPos r (ds ++ b :: ys) c.pos + i) =
          s.loom (newPos r (ds ++ b :: ys) c.pos + i) := by
      intro c hc _ i
      have hle := Heap.newPos_above hheap hsouth hc
      have hle' := habove c hc
      rw [hsame _ (by omega), hloom₁ _ (by omega)]
    rw [if_pos (inUse_iff.mp hcase), hn, hbox, ok_bind]
    refine ⟨s₂, rfl, ⟨?_, fun c hc hcuse ↦ ?_, fun c hc hcuse i hi ↦ ?_⟩, fun w hw ↦ ?_⟩
    · rw [hroad, hs₁, hslid.road]
      rfl
    · rcases List.mem_cons.mp hc with rfl | hc
      · exact hsize
      · exact (hkeep c hc hcuse 0).trans (hslid.head c hc hcuse)
    · rcases List.mem_cons.mp hc with rfl | hc
      · rw [hcopied i hi]
        refine if_congr Iff.rfl ?_ rfl
        rw [← hwalked.clean hheap hmem hlast hb hi]
        by_cases hzero : i = 0
        · subst hzero
          rw [Nat.add_zero, Function.update_self, huse₁]
        · rw [Function.update_of_ne (by omega), hloom₁ _ (by omega), hframe _ (by omega)]
      · have hkeep' : ∀ j, s₂.loom (newPos r (ds ++ b :: ys) c.pos + 1 + j) =
            s.loom (newPos r (ds ++ b :: ys) c.pos + 1 + j) := by
          intro j
          rw [Nat.add_assoc]
          exact hkeep c hc hcuse _
        rw [hkeep', hkeep']
        exact hslid.body c hc hcuse i hi
    · rw [hsame _ (by omega), hloom₁ _ (by omega)]
      exact hframe w (by omega)
  | false =>
    rw [if_neg fun hne ↦ by simp [inUse_iff.mpr hne] at hcase]
    have hkeep : ∀ c ∈ ys, inUse r c = true → ∀ i,
        s₁.loom (newPos r (ds ++ b :: ys) c.pos + i) =
          s.loom (newPos r (ds ++ b :: ys) c.pos + i) := by
      intro c hc _ i
      have hle := habove c hc
      exact hloom₁ _ (by omega)
    refine ⟨s₁, rfl, ⟨?_, fun c hc hcuse ↦ ?_, fun c hc hcuse i hi ↦ ?_⟩, fun w hw ↦ ?_⟩
    · rw [hs₁, hslid.road]
      rfl
    · rcases List.mem_cons.mp hc with rfl | hc
      · simp [hcase] at hcuse
      · exact (hkeep c hc hcuse 0).trans (hslid.head c hc hcuse)
    · rcases List.mem_cons.mp hc with rfl | hc
      · simp [hcase] at hcuse
      · have hkeep' : ∀ j, s₁.loom (newPos r (ds ++ b :: ys) c.pos + 1 + j) =
            s.loom (newPos r (ds ++ b :: ys) c.pos + 1 + j) := by
          intro j
          rw [Nat.add_assoc]
          exact hkeep c hc hcuse _
        rw [hkeep', hkeep']
        exact hslid.body c hc hcuse i hi
    · rw [hloom₁ _ (by omega)]
      exact hframe w (by omega)

/-- The second sweep comes to the lowest box. -/
theorem packMoveSouth_low (hheap : Heap mat_p r bs) (hsouth : r.isNorth = false)
    (hwalked : Walked r bs roots r₁ r₂) (hmem : ∀ p, Reaches r roots p → p ∈ ptrsOf bs)
    (hlast : ∀ c ∈ bs, r₁.loom (c.pos + c.siz - 1) = c.siz)
    (hrecords : ∀ c ∈ bs, inUse r c = true → r₁.loom c.pos = newPtr r bs (c.pos + 2))
    (hbs : bs = low :: rest) (hhat : r.hat_p = low.pos) :
    ∀ {b : Box} {ys : List Box} {n fuel : ℕ} {s : Road}, bs = ds.reverse ++ b :: ys →
    ds.length < fuel →
      Upper r (fun c m ↦ m = newPtr r bs (c.pos + 2)) n (b :: ds) → Slid r bs roots r₂ ys s →
        (∀ w, w < b.pos + b.siz ∨ r.rut_p ≤ w → s.loom w = r₂.loom w) →
          ∃ k s₀, packMoveSouth r.hat_p fuel s b.pos b.siz n =
              packMoveSouth r.hat_p (k + 1) s₀ low.pos low.siz (lastAddr r n (b :: ds)) ∧
            Slid r bs roots r₂ rest s₀ ∧
              ∀ w, w < low.pos + low.siz ∨ r.rut_p ≤ w → s₀.loom w = r₂.loom w := by
  induction ds with
  | nil =>
    rintro b ys n (_ | fuel) s hsplit hfuel hupper hslid hframe
    · exact absurd hfuel (Nat.not_lt_zero _)
    · obtain ⟨rfl, rfl⟩ : low = b ∧ rest = ys := by simpa using hbs.symm.trans hsplit
      exact ⟨fuel, s, rfl, hslid, hframe⟩
  | cons c ds ih =>
    rintro b ys n (_ | fuel) s hsplit hfuel ⟨hhead, hupper⟩ hslid hframe
    · exact absurd hfuel (Nat.not_lt_zero _)
    have hsplit' : bs = ds.reverse ++ c :: (b :: ys) := by simp [hsplit]
    have hb : b ∈ bs := by simp [hsplit]
    have hc : c ∈ bs := by simp [hsplit]
    have htiles := hheap.tiles
    rw [hsplit'] at htiles
    have hpos : b.pos = c.pos + c.siz := htiles.next_pos
    have hcsiz : 6 ≤ c.siz := hheap.siz c hc
    have hhead₂ : inUse r b = true → r₂.loom b.pos = n := by
      intro huse
      rw [hhead huse, ← hrecords b hb huse]
      exact hwalked.edge b hb 0 (.inl rfl)
    have hstep : ∃ s', packStepSouth s b.pos b.siz n = .ok (s', inUse r b) ∧
        Slid r bs roots r₂ (b :: ys) s' ∧ ∀ w, w < b.pos ∨ r.rut_p ≤ w → s'.loom w = r₂.loom w := by
      subst hsplit
      exact packStepSouth_ok hheap hsouth hwalked hmem hlast hslid hframe hhead hhead₂
    obtain ⟨s', hstep, hslid', hframe'⟩ := hstep
    have hlow : low.pos ≤ c.pos := by
      have hmem' := hheap.tiles
      rw [hbs] at hmem' hc
      rcases List.mem_cons.mp hc with rfl | hc
      · exact Nat.le_refl _
      · have htile : Tiles r.low ([] ++ low :: rest) r.high := hmem'
        have hle := htile.around.2 c hc
        omega
    have hlt : r.hat_p < b.pos := by omega
    have hsiz_w : s'.loom (b.pos - 1) = c.siz := by
      rw [hframe' _ (by omega), ← hlast c hc, hpos, Nat.add_sub_assoc (by omega)]
      exact hwalked.edge c hc _ (.inr (by omega))
    have hnext : b.pos - c.siz = c.pos := by omega
    have hframe'' : ∀ w, w < c.pos + c.siz ∨ r.rut_p ≤ w → s'.loom w = r₂.loom w := by
      rw [← hpos]
      exact hframe'
    obtain ⟨k, s₀, hmove, hlow⟩ := ih hsplit' (Nat.lt_of_succ_lt_succ hfuel) hupper hslid' hframe''
    refine ⟨k, s₀, ?_, hlow⟩
    rw [packMoveSouth, hstep, ok_bind]
    simp only [if_pos hlt, hsiz_w, hnext]
    exact hmove

/-- The second sweep when it has come to the lowest box. -/
theorem packMoveSouth_end {k : ℕ} {end_w siz_w : ℕ} :
    packMoveSouth end_w (k + 1) s end_w siz_w n =
      (packStepSouth s end_w siz_w n).map fun p ↦ (p.1, n) := by
  rw [packMoveSouth]
  cases packStepSouth s end_w siz_w n with
  | error fault => rfl
  | ok p =>
    rw [ok_bind]
    dsimp only
    rw [if_neg (Nat.lt_irrefl _), if_pos rfl]
    rfl

/-- The move of a box that is in use checks its leading word. -/
theorem packStepSouth_head {box_w siz_w : ℕ} {p : Road × Bool}
    (huse : s.loom (box_w + 1) &&& 0x7fffffff ≠ 0) (hstep : packStepSouth s box_w siz_w n = .ok p) :
    s.loom box_w = n := by
  by_contra hne
  have huse₁ : (s.put (box_w + 1) (s.loom (box_w + 1) &&& 0x7fffffff)).loom (box_w + 1) ≠ 0 := by
    rw [Road.loom_put, Function.update_self]
    exact huse
  have hhead₁ : (s.put (box_w + 1) (s.loom (box_w + 1) &&& 0x7fffffff)).loom box_w ≠ n := by
    rw [Road.loom_put, Function.update_of_ne (by omega)]
    exact hne
  rw [packStepSouth, if_pos huse₁, packBoxSouth, if_pos hhead₁] at hstep
  exact absurd hstep nofun

/-- The second sweep of a heap that is not empty ends well if and only if the lowest box is free or
the sweep has its new address. -/
theorem packMove_south (hheap : Heap mat_p r bs) (hsouth : r.isNorth = false)
    (hwalked : Walked r bs roots r₁ r₂) (hmem : ∀ p, Reaches r roots p → p ∈ ptrsOf bs)
    (hlast : ∀ c ∈ bs, r₁.loom (c.pos + c.siz - 1) = c.siz)
    (hrecords : ∀ c ∈ bs, inUse r c = true → r₁.loom c.pos = newPtr r bs (c.pos + 2)) {top : Box}
    (hbs : bs = low :: rest) (hrev : bs.reverse = top :: ds)
    (hupper : Upper r (fun c m ↦ m = newPtr r bs (c.pos + 2)) (r.rut_p + 2 - top.siz) (top :: ds))
    (hfuel : bs.length < fuel) :
    (∀ r', packMove fuel r₂ = .ok r' → inUse r low = true →
      lastAddr r (r.rut_p + 2 - top.siz) (top :: ds) = newPtr r bs (low.pos + 2)) ∧
    ((inUse r low = true → lastAddr r (r.rut_p + 2 - top.siz) (top :: ds) =
      newPtr r bs (low.pos + 2)) →
      ∃ s', packMove fuel r₂ = .ok { s' with
          hat_p := lastAddr r (r.rut_p + 2 - top.siz) (top :: ds) - 2
          fre_p := fun i_w ↦ if i_w < fboxNo then 0 else s'.fre_p i_w
          cel_p := 0 } ∧
        Slid r bs roots r₂ bs s' ∧ ∀ w, w < low.pos ∨ r.rut_p ≤ w → s'.loom w = r₂.loom w) := by
  have hsplit : bs = ds.reverse ++ top :: [] := by
    rw [← List.reverse_reverse bs, hrev, List.reverse_cons]
  have htop : top ∈ bs := by simp [hsplit]
  have hlow : low ∈ bs := by simp [hbs]
  obtain ⟨htopsiz, _⟩ := Heap.box hheap htop
  have htiles := hheap.tiles
  have hhat : r.hat_p = low.pos := by
    rw [hbs, Road.low_south hsouth] at htiles
    exact htiles.1.symm
  have hrut : top.pos + top.siz = r.rut_p := by
    rw [hsplit, Road.high_south hsouth] at htiles
    obtain ⟨mid, _, rfl, hend⟩ := Tiles.append_iff.mp htiles
    exact hend
  have hlen : ds.length < fuel := by
    have hlen := congrArg List.length hrev
    rw [List.length_reverse, List.length_cons] at hlen
    omega
  have hroad := hwalked.road
  have hsiz_w : r₂.loom (r.rut_p - 1) = top.siz := by
    rw [← hlast top htop, ← hrut, Nat.add_sub_assoc (by omega)]
    exact hwalked.edge top htop _ (.inr (by omega))
  obtain ⟨k, s₀, hmove, hslid, hframe⟩ :=
    packMoveSouth_low hheap hsouth hwalked hmem hlast hrecords hbs hhat
    hsplit hlen hupper (⟨rfl, nofun, nofun⟩ : Slid r bs roots r₂ [] r₂) fun _ _ ↦ rfl
  have hsouth₂ : ¬r₂.isNorth = true := by
    rw [hroad]
    exact fun hnorth ↦ Bool.false_ne_true (hsouth.symm.trans hnorth)
  have hrut₂ : r₂.rut_p = r.rut_p := by rw [hroad]
  have hhat₂ : r₂.hat_p = r.hat_p := by rw [hroad]
  set las := lastAddr r (r.rut_p + 2 - top.siz) (top :: ds) with hlas
  have hboxes : packMoveBoxes fuel r₂ = (packStepSouth s₀ low.pos low.siz las).map fun p ↦ (p.1,
      las) := by
    rw [packMoveBoxes, if_neg hsouth₂]
    simp only [hrut₂, hhat₂, hsiz_w]
    rw [show r.rut_p - top.siz = top.pos by omega, hmove, hhat, packMoveSouth_end]
  have huse_w : s₀.loom (low.pos + 1) &&& 0x7fffffff = r.loom (low.pos + 1) := by
    have hsiz : 6 ≤ low.siz := hheap.siz low hlow
    rw [hframe _ (by omega)]
    exact hwalked.use low hlow
  have hhead : inUse r low = true → r₂.loom low.pos = newPtr r bs (low.pos + 2) := by
    intro huse
    rw [← hrecords low hlow huse]
    exact hwalked.edge low hlow 0 (.inl rfl)
  constructor
  · intro r' hok huse
    cases hstep : packStepSouth s₀ low.pos low.siz las with
    | error fault =>
      rw [packMove, hboxes, hstep] at hok
      exact absurd hok nofun
    | ok p =>
      have huse' : s₀.loom (low.pos + 1) &&& 0x7fffffff ≠ 0 := by
        rw [huse_w]
        exact inUse_iff.mp huse
      have hsiz : 6 ≤ low.siz := hheap.siz low hlow
      rw [← packStepSouth_head huse' hstep, hframe _ (by omega), hhead huse]
  · intro haddr
    have hstep : ∃ s', packStepSouth s₀ low.pos low.siz las = .ok (s', inUse r low) ∧
        Slid r bs roots r₂ bs s' ∧ ∀ w, w < low.pos ∨ r.rut_p ≤ w → s'.loom w = r₂.loom w := by
      subst hbs
      exact @packStepSouth_ok _ _ _ _ _ [] _ _ _ hheap hsouth hwalked hmem hlast hslid
        hframe _ haddr
        fun huse ↦ (hhead huse).trans (haddr huse).symm
    obtain ⟨s', hstep, hslid', hframe'⟩ := hstep
    refine ⟨s', ?_, hslid', hframe'⟩
    rw [packMove, hboxes, hstep]
    rfl

/-- A box is a copy of what it was if and only if its words repeat by how far it is moved. -/
theorem Slid.copied_iff (hslid : Slid r bs roots r₂ bs s) (hb : b ∈ bs) (huse : inUse r b = true) :
    (∀ i, i + 1 < b.siz → s.loom (newPos r bs b.pos + 1 + i) =
      forwarded r bs roots (b.pos + 1 + i)) ↔
      ∀ i, i + 1 < b.siz → newPos r bs b.pos - b.pos ≤ i → forwarded r bs roots (b.pos + 1 + i) =
        forwarded r bs roots (b.pos + 1 + (i - (newPos r bs b.pos - b.pos))) := by
  have hbody := hslid.body b hb huse
  by_cases hzero : newPos r bs b.pos - b.pos = 0
  · refine iff_of_true (fun i hi ↦ ?_) fun i _ _ ↦ ?_
    · rw [hbody i hi, if_pos (.inl hzero)]
    · rw [hzero, Nat.sub_zero]
  · have hlt : ∀ i, i + 1 < b.siz ↔ i < b.siz - 1 := fun i ↦ by omega
    simp only [hlt] at hbody ⊢
    refine @Copy.repeated_iff _ _ (fun i ↦ forwarded r bs roots (b.pos + 1 + i))
      (fun i ↦ s.loom (newPos r bs b.pos + 1 + i)) _ (Nat.pos_of_ne_zero hzero) fun i hi ↦ ?_
    refine (hbody i hi).trans (if_congr ?_ rfl rfl)
    exact ⟨fun h ↦ h.resolve_left hzero, .inr⟩

/-- The boxes have been moved, if their words repeat. -/
theorem Slid.moved (hslid : Slid r bs roots r₂ bs s) (hheap : Heap mat_p r bs)
    (hmem : ∀ p, Reaches r roots p → p ∈ ptrsOf bs)
    (hrepeats : ∀ b ∈ bs, inUse r b = true → ∀ i, i + 1 < b.siz → newPos r bs b.pos - b.pos ≤ i →
      forwarded r bs roots (b.pos + 1 + i) =
        forwarded r bs roots (b.pos + 1 + (i - (newPos r bs b.pos - b.pos)))) :
    Moved r bs roots r₂ bs s := by
  have hcopied : ∀ b ∈ bs, inUse r b = true → ∀ i, 0 < i → i < b.siz →
      s.loom (newPos r bs b.pos + i) = forwarded r bs roots (b.pos + i) := by
    intro b hb huse i hpos hi
    have hcopy := (hslid.copied_iff hb huse).mpr (hrepeats b hb huse) (i - 1) (by omega)
    rw [show newPos r bs b.pos + 1 + (i - 1) = newPos r bs b.pos + i by omega,
      show b.pos + 1 + (i - 1) = b.pos + i by omega] at hcopy
    exact hcopy
  refine ⟨hslid.road, fun b hb huse ↦ ⟨hslid.head b hb huse, ?_⟩, fun b hb huse ↦ ?_,
    fun b hb huse i hlow hi ↦ hcopied b hb huse i (by omega) (by omega)⟩
  · obtain ⟨hsiz, _, htail, _⟩ := Heap.box hheap hb
    rw [Nat.add_sub_assoc (by omega), hcopied b hb huse _ (by omega) (by omega),
      Heap.forwarded_edge hheap hmem hb (.inr (by omega)) (by omega),
      ← Nat.add_sub_assoc (by omega), htail]
  · have hsiz : 6 ≤ b.siz := hheap.siz b hb
    rw [hcopied b hb huse 1 (by decide) (by omega),
      Heap.forwarded_edge hheap hmem hb (.inl (by decide)) (by omega)]

/-- A road that is packed has boxes whose words repeat. -/
theorem Slid.repeats (hslid : Slid r bs roots r₂ bs s) (hheap : Heap mat_p r bs)
    (hmem : ∀ p, Reaches r roots p → p ∈ ptrsOf bs) (hpacked : Packed r bs roots r')
    (hloom : r'.loom = s.loom) :
    ∀ b ∈ bs, inUse r b = true → ∀ i, i + 1 < b.siz → newPos r bs b.pos - b.pos ≤ i →
      forwarded r bs roots (b.pos + 1 + i) =
        forwarded r bs roots (b.pos + 1 + (i - (newPos r bs b.pos - b.pos))) := by
  intro b hb huse
  refine (hslid.copied_iff hb huse).mp fun i hi ↦ ?_
  obtain ⟨hsiz, _, htail, _⟩ := Heap.box hheap hb
  rw [← hloom]
  by_cases hzero : i = 0
  · subst hzero
    have hedge := Heap.forwarded_edge hheap hmem hb (.inl (by decide : 1 < 2)) (by omega)
    exact (hpacked.use b hb huse).trans hedge.symm
  by_cases hend : i + 2 = b.siz
  · have hbox : (⟨newPos r bs b.pos, b.siz, keptState b⟩ : Box) ∈ packed r bs :=
      List.mem_map.mpr ⟨b, List.mem_filter.mpr ⟨hb, huse⟩, rfl⟩
    have htail' : r'.loom (newPos r bs b.pos + b.siz - 1) = b.siz := (hpacked.heap.tagged _ hbox).2
    rw [show newPos r bs b.pos + 1 + i = newPos r bs b.pos + b.siz - 1 by omega, htail',
      Nat.add_assoc, Heap.forwarded_edge hheap hmem hb (.inr (by omega)) (by omega),
      show b.pos + (1 + i) = b.pos + b.siz - 1 by omega, htail]
  · rw [Nat.add_assoc, Nat.add_assoc]
    exact hpacked.words b hb huse (1 + i) (by omega) (by omega)

/-! ### Both sweeps -/

/-- The boxes of a road that is packed are next to each other. -/
theorem packed_south_tiles (hheap : Heap mat_p r bs) (hsouth : r.isNorth = false) :
    ∀ {xs : List Box}, bs = xs ++ ys → Tiles (r.rut_p - total (inUse r) ys)
      ((ys.filter (inUse r)).map fun b ↦ ⟨newPos r bs b.pos, b.siz, keptState b⟩) r.rut_p := by
  induction ys with
  | nil => exact fun _ ↦ rfl
  | cons b ys ih =>
    rintro xs rfl
    have hnext := ih (by simp : xs ++ b :: ys = (xs ++ [b]) ++ ys)
    cases hcase : inUse r b with
    | true =>
      have hadd := (Heap.newPos_add hheap hsouth hcase).1
      rw [List.filter_cons_of_pos hcase, List.map_cons]
      refine ⟨Heap.newPos_south hheap hsouth, ?_⟩
      rw [total_cons, if_pos hcase]
      show Tiles (r.rut_p - (b.siz + total (inUse r) ys) + b.siz) _ _
      rw [show r.rut_p - (b.siz + total (inUse r) ys) + b.siz =
        r.rut_p - total (inUse r) ys by omega]
      exact hnext
    | false =>
      rw [List.filter_cons_of_neg (by simp [hcase]), total_cons, if_neg (by simp [hcase]),
        Nat.zero_add]
      exact hnext

theorem Tiles.lo_unique {lo lo' hi : ℕ} {xs : List Box} (htiles : Tiles lo xs hi)
    (htiles' : Tiles lo' xs hi) :
    lo = lo' := by
  cases xs with
  | nil => exact Eq.trans htiles (Eq.symm htiles')
  | cons b xs => exact htiles.1.symm.trans htiles'.1

theorem Upper.imp {P Q : Box → ℕ → Prop} (himp : ∀ c ∈ ds.dropLast, inUse r c = true →
    ∀ m, P c m → Q c m) (hupper : Upper r P n ds) : Upper r Q n ds := by
  induction ds generalizing n with
  | nil => exact trivial
  | cons b ds ih =>
    cases ds with
    | nil => exact trivial
    | cons c ds =>
      rw [List.dropLast_cons_cons] at himp
      exact ⟨fun huse ↦ himp b List.mem_cons_self huse n (hupper.1 huse),
        ih (fun d hd ↦ himp d (List.mem_cons_of_mem _ hd)) hupper.2⟩

/-- What two conditions say together of the addresses of the boxes. -/
theorem Upper.meet {P Q : Box → ℕ → Prop} {R : Box → Prop} (hmeet : ∀ c m, P c m → Q c m → R c)
    (hP : Upper r P n ds) (hQ : Upper r Q n ds) : ∀ c ∈ ds.dropLast, inUse r c = true → R c := by
  induction ds generalizing n with
  | nil => exact fun c hc ↦ absurd hc List.not_mem_nil
  | cons b ds ih =>
    cases ds with
    | nil => exact fun c hc ↦ absurd hc List.not_mem_nil
    | cons d ds =>
      rw [List.dropLast_cons_cons]
      intro c hc huse
      rcases List.mem_cons.mp hc with rfl | hc
      · exact hmeet c n (hP.1 huse) (hQ.1 huse)
      · exact ih hP.2 hQ.2 c hc huse

/-- What the first sweep records is right but for the last box, if the addresses that it has are. -/
theorem sought_south (hsouth : r.isNorth = false) (hbs : bs = low :: rest)
    (hroad : r₁ = { r with loom := r₁.loom })
    (hrecords : ∀ c ∈ rest, inUse r c = true → r₁.loom c.pos = newPtr r bs (c.pos + 2))
    (hframe : ∀ w, (∀ c ∈ rest, inUse r c = true → w ≠ c.pos) → r₁.loom w = r.loom w)
    (hheap : Heap mat_p r bs) :
    Sought r bs rest r₁ ∧ r₁.loom low.pos = low.siz ∧ ∀ c ∈ bs, r₁.loom (c.pos + c.siz - 1) =
      c.siz := by
  have hrest : ∀ c ∈ rest, c ∈ bs := fun c hc ↦ hbs ▸ List.mem_cons_of_mem _ hc
  have hlow : low ∈ bs := hbs ▸ List.mem_cons_self
  refine ⟨⟨hroad, fun c hc huse ↦ ?_, fun w hw ↦ ?_⟩, ?_, fun c hc ↦ ?_⟩
  · rw [slot_south hsouth]
    exact hrecords c hc huse
  · refine hframe w fun c hc huse ↦ ?_
    rw [← slot_south hsouth c]
    exact hw c hc huse
  · rw [hframe _ fun c hc _ ↦ ?_]
    · exact (Heap.box hheap hlow).2.1
    · have htiles := hheap.tiles
      rw [hbs] at htiles
      have htile : Tiles r.low ([] ++ low :: rest) r.high := htiles
      have hle := htile.around.2 c hc
      have hsiz : 6 ≤ low.siz := hheap.siz low hlow
      omega
  · obtain ⟨hsiz, _, htail, _⟩ := Heap.box hheap hc
    rw [hframe _ fun d hd _ heq ↦ ?_]
    · exact htail
    · have hdsiz : 6 ≤ d.siz := hheap.siz d (hrest d hd)
      have hone := (hheap.tiles.word_unique hc (hrest d hd) (by omega : c.siz - 1 < c.siz)
        (by omega : 0 < d.siz) (by omega)).2
      omega

/-- The walk of a south road whose words are right. -/
theorem walked_south (hheap : Heap mat_p r bs) (hsouth : r.isNorth = false)
    (hrooted : Rooted r bs roots) (hsought : Sought r bs done r₁) (hdone : ∀ c ∈ done, c ∈ bs)
    (hrecords : ∀ b ∈ bs, inUse r b = true → r₁.loom b.pos = newPtr r bs (b.pos + 2))
    (hstray : Stray r bs roots) (hfuel : bs.length < fuel) :
    ∃ r₂, rewriteAll fuel r₁ roots = .ok r₂ ∧ Walked r bs roots r₁ r₂ ∧
      ∀ b ∈ bs, inUse r b = true → rewritten r₂ (b.pos + 2) = newPtr r bs (b.pos + 2) := by
  have hmem : ∀ p, Reaches r roots p → p ∈ ptrsOf bs := fun p hp ↦ hrooted.reaches_mem hp
  have hkind : ∀ w v, v = forwardNoun r bs (r.loom w) → Kind r w v := by
    rintro w v rfl
    exact forwardNoun_kind r bs w
  have hV : ∀ s, Touched (fun w v ↦ v = forwardNoun r bs (r.loom w)) r₁ (Reaches r roots) s →
      ∀ p, Reaches r roots p → rewrittenNoun s (r.loom (p + 1)) =
        forwardNoun r bs (r.loom (p + 1)) ∧
        rewrittenNoun s (r.loom (p + 2)) = forwardNoun r bs (r.loom (p + 2)) := by
    intro s hs p hp
    have hrewrites := rewritten_of_stray hheap hsouth hsought hdone hrecords hmem hstray hkind hs
    obtain ⟨hhed, htel⟩ := hrooted.cell p hp
    exact ⟨rewrittenNoun_eq hheap hhed hrewrites, rewrittenNoun_eq hheap htel hrewrites⟩
  obtain ⟨reached, r₂, hreached, hwalk, hrewrote⟩ :=
    hrooted.rewriteAll hheap (hsought.words hheap hdone) hV
    ((ptrsOf_length_le bs).trans_lt hfuel)
  have htouched := hrewrote.touched (fun p hp ↦ (hreached p).mp hp) fun p hp ↦ (hreached p).mp hp
  exact ⟨r₂, hwalk, hrewrote.walked hsought hheap hdone hreached hmem,
    rewritten_of_stray hheap hsouth hsought hdone hrecords hmem hstray hkind htouched⟩

/-- The words of a south road are right if all its pointers can be rewritten. -/
theorem stray_south (hheap : Heap mat_p r bs) (hsouth : r.isNorth = false)
    (hrooted : Rooted r bs roots) (hsought : Sought r bs done r₁) (hdone : ∀ c ∈ done, c ∈ bs)
    (hrecords : ∀ b ∈ bs, inUse r b = true → r₁.loom b.pos = newPtr r bs (b.pos + 2))
    (hfuel : bs.length < fuel) (hwalk : rewriteAll fuel r₁ roots = .ok r₂)
    (hrewrites : ∀ b ∈ bs, inUse r b = true → rewritten r₂ (b.pos + 2) = newPtr r bs (b.pos + 2)) :
    Stray r bs roots := by
  obtain ⟨reached, r₂', hreached, hwalk', hrewrote⟩ := hrooted.rewriteAll hheap
    (hsought.words hheap hdone) (fun s _ p _ ↦ ⟨rewrittenNoun_kind r s (p + 1),
    rewrittenNoun_kind r s (p + 2)⟩)
    ((ptrsOf_length_le bs).trans_lt hfuel)
  obtain rfl : r₂' = r₂ := by
    rw [hwalk] at hwalk'
    exact (Except.ok.inj hwalk').symm
  exact stray_of_rewritten hheap hsouth hsought hdone hrecords
    (fun p hp ↦ hrooted.reaches_mem hp) hreached
    hrewrote hrewrites

/-- The first box of the sweeps and the last, and what is between them. -/
theorem swept_south {top : Box} (hheap : Heap mat_p r bs) (hsouth : r.isNorth = false)
    (hbs : bs = low :: rest) (hrev : bs.reverse = top :: ds) :
    bs = ds.reverse ++ top :: [] ∧ (top :: ds).getLast? = some low ∧
    (∀ c ∈ (top :: ds).dropLast, c ∈ rest) ∧
      (∀ c ∈ rest, c ∈ (top :: ds).dropLast) ∧
        r.rut_p + 2 - top.siz + top.siz = r.rut_p - total (inUse r) [] + 2 := by
  have hsplit : bs = ds.reverse ++ top :: [] := by
    rw [← List.reverse_reverse bs, hrev, List.reverse_cons]
  have htop := (Heap.total_above (hsplit ▸ hheap) hsouth)
  have hdrop : (top :: ds).dropLast = rest.reverse := by
    rw [← hrev, hbs, List.reverse_cons, List.dropLast_concat]
  refine ⟨hsplit, ?_, fun c hc ↦ ?_, fun c hc ↦ ?_, ?_⟩
  · rw [← hrev, hbs, List.reverse_cons, List.getLast?_concat]
  · exact List.mem_reverse.mp (hdrop ▸ hc)
  · rw [hdrop]
    exact List.mem_reverse.mpr hc
  · have hzero : total (inUse r) [] = 0 := rfl
    omega

/-- The hat of a road that is packed. -/
theorem Packed.hat_south (hpacked : Packed r bs roots r') (hheap : Heap mat_p r bs)
    (hsouth : r.isNorth = false) : r'.hat_p = r.rut_p - total (inUse r) bs := by
  have hsouth' := hpacked.stays.isNorth.trans hsouth
  have htiles := hpacked.heap.tiles
  rw [Road.low_south hsouth', Road.high_south hsouth', hpacked.stays.rut] at htiles
  exact Tiles.lo_unique htiles (packed_south_tiles hheap hsouth (List.nil_append bs).symm)

theorem accident_of_compacts (hheap : Heap mat_p r bs) (hsouth : r.isNorth = false)
    (hrooted : Rooted r bs roots) (hfuel : bs.length < fuel) (hbs : bs = low :: rest)
    (hcompacts : Compacts fuel r bs roots r₁ r₂ r') : Accident r bs roots low := by
  have hmem : ∀ p, Reaches r roots p → p ∈ ptrsOf bs := fun p hp ↦ hrooted.reaches_mem hp
  have hrest : ∀ c ∈ rest, c ∈ bs := fun c hc ↦ hbs ▸ List.mem_cons_of_mem _ hc
  have hlow : low ∈ bs := hbs ▸ List.mem_cons_self
  have hrecords : ∀ c ∈ bs, inUse r c = true → r₁.loom c.pos = newPtr r bs (c.pos + 2) := by
    intro c hc huse
    have hrecord := hcompacts.records c hc huse
    rwa [slot_south hsouth] at hrecord
  obtain ⟨top, ds, r₁', hrev, hseek, hroad, hupper, hframe⟩ := packSeek_south hheap hsouth hbs hfuel
  obtain rfl : r₁' = r₁ := by
    rw [hcompacts.seek] at hseek
    exact (Except.ok.inj hseek).symm
  obtain ⟨hsplit, hgetLast, hdrop, _, hfirst⟩ := swept_south hheap hsouth hbs hrev
  have hupper' : Upper r (fun c m ↦ m = newPtr r bs (c.pos + 2)) (r.rut_p + 2 - top.siz)
    (top :: ds) :=
    hupper.imp fun c hc huse m hm ↦ hm.symm.trans (hrecords c (hrest c (hdrop c hc)) huse)
  obtain ⟨hsought, hsize, hlast⟩ :=
    sought_south hsouth hbs hroad (fun c hc ↦ hrecords c (hrest c hc)) hframe
    hheap
  have hstray := stray_south hheap hsouth hrooted hsought hrest hrecords hfuel hcompacts.rewrite
    hcompacts.rewrites
  obtain ⟨r₂', hwalk, hwalked, _⟩ :=
    walked_south hheap hsouth hrooted hsought hrest hrecords hstray hfuel
  obtain rfl : r₂' = r₂ := by
    rw [hcompacts.rewrite] at hwalk
    exact (Except.ok.inj hwalk).symm
  obtain ⟨haddr, hmove⟩ :=
    packMove_south hheap hsouth hwalked hmem hlast hrecords hbs hrev hupper' hfuel
  have haddr' := haddr r' hcompacts.move
  obtain ⟨s', hok, hslid, _⟩ := hmove haddr'
  obtain rfl := Except.ok.inj (hcompacts.move.symm.trans hok)
  have huse : inUse r low = true := by
    by_contra hfree
    have hhat := hcompacts.packed.hat_south hheap hsouth
    have hle :=
      lastAddr_free hheap hsouth hsplit (Heap.box hheap (by simp [hsplit] : top ∈ bs)).1 hfirst
      hupper' low hgetLast (by simpa using hfree)
    replace hhat : lastAddr r (r.rut_p + 2 - top.siz) (top :: ds) - 2 =
      r.rut_p - total (inUse r) bs := hhat
    omega
  have hmatched := (@matched_iff _ _ _ ds hheap hsouth top [] _ none hsplit hfirst).mp ⟨hupper',
    fun c hc _ ↦ ?_⟩
  · rw [← hrev] at hmatched
    exact ⟨huse, hsize.symm.trans (hrecords low hlow huse), hmatched,
      hslid.repeats hheap hmem hcompacts.packed rfl, hstray⟩
  · obtain rfl : low = c := Option.some.inj (hgetLast.symm.trans hc)
    exact haddr' huse

theorem compacts_of_accident (hheap : Heap mat_p r bs) (hsouth : r.isNorth = false)
    (hrooted : Rooted r bs roots) (hfuel : bs.length < fuel) (hbs : bs = low :: rest)
    (haccident : Accident r bs roots low) : ∃ r₁ r₂ r', Compacts fuel r bs roots r₁ r₂ r' := by
  have hmem : ∀ p, Reaches r roots p → p ∈ ptrsOf bs := fun p hp ↦ hrooted.reaches_mem hp
  have hrest : ∀ c ∈ rest, c ∈ bs := fun c hc ↦ hbs ▸ List.mem_cons_of_mem _ hc
  have hlow : low ∈ bs := hbs ▸ List.mem_cons_self
  obtain ⟨top, ds, r₁, hrev, hseek, hroad, hupper, hframe⟩ := packSeek_south hheap hsouth hbs hfuel
  obtain ⟨hsplit, hgetLast, _, hdrop, hfirst⟩ := swept_south hheap hsouth hbs hrev
  have hmatched := haccident.sizes
  rw [hrev] at hmatched
  obtain ⟨hupper', haddr⟩ :=
    (@matched_iff _ _ _ ds hheap hsouth top [] _ none hsplit hfirst).mpr hmatched
  have hupperRecords : ∀ c ∈ rest, inUse r c = true → r₁.loom c.pos = newPtr r bs (c.pos + 2) :=
    fun c hc ↦ hupper.meet (fun c m hm hm' ↦ hm.trans hm') hupper' c (hdrop c hc)
  obtain ⟨hsought, hsize, hlast⟩ := sought_south hsouth hbs hroad hupperRecords hframe hheap
  have hrecords : ∀ c ∈ bs, inUse r c = true → r₁.loom c.pos = newPtr r bs (c.pos + 2) := by
    intro c hc huse
    rw [hbs] at hc
    rcases List.mem_cons.mp hc with rfl | hc
    · exact hsize.trans haccident.size
    · exact hupperRecords c hc huse
  obtain ⟨r₂, hwalk, hwalked, hrewrites⟩ :=
    walked_south hheap hsouth hrooted hsought hrest hrecords haccident.stray hfuel
  have haddr' := haddr low hgetLast haccident.use
  obtain ⟨s', hmove, hslid, hframe'⟩ :=
    (packMove_south hheap hsouth hwalked hmem hlast hrecords hbs hrev hupper'
    hfuel).2 fun _ ↦ haddr'
  have hroad₂ := hwalked.road
  have hnew := Heap.newPos_south (hbs ▸ hheap : Heap mat_p r ([] ++ low :: rest)) hsouth
  rw [List.nil_append, ← hbs] at hnew
  have hhat : lastAddr r (r.rut_p + 2 - top.siz) (top :: ds) - 2 =
      r.rut_p - total (inUse r) bs := by
    rw [haddr', newPtr, Nat.add_sub_cancel, Nat.add_sub_cancel, hnew]
  have htiles := hheap.tiles
  have hhat_p : r.hat_p = low.pos := by
    rw [hbs, Road.low_south hsouth] at htiles
    exact htiles.1.symm
  have htotal : low.pos + total (inUse r) bs ≤ r.rut_p := by
    rw [Road.low_south hsouth, Road.high_south hsouth, hhat_p] at htiles
    exact total_le htiles
  have hcap : r.cap_p ≤ r.hat_p := by
    rw [← Nat.not_lt, ← Road.isNorth_iff, hsouth]
    decide
  have hsouth' : ∀ fre_p, Road.isNorth { s' with
      hat_p := lastAddr r (r.rut_p + 2 - top.siz) (top :: ds) - 2, fre_p := fre_p, cel_p := 0 } =
        false := by
    intro fre_p
    rw [← Bool.not_eq_true, Road.isNorth_iff, Nat.not_lt]
    show s'.cap_p ≤ lastAddr r (r.rut_p + 2 - top.siz) (top :: ds) - 2
    rw [hhat, hslid.road, hroad₂]
    show r.cap_p ≤ _
    omega
  refine ⟨r₁, r₂, _, hseek, hwalk, hmove, fun c hc huse ↦ ?_, hrewrites,
    (hslid.moved hheap hmem haccident.repeats).packed hheap hroad₂
      ((hsouth' _).trans hsouth.symm) ?_
      (fun sel hsel ↦ if_pos hsel) fun w hw ↦ ?_⟩
  · rw [slot_south hsouth]
    exact hrecords c hc huse
  · rw [Road.low_south (hsouth' _), Road.high_south (hsouth' _)]
    have hrut : s'.rut_p = r.rut_p := by rw [hslid.road, hroad₂]
    show Tiles (lastAddr r (r.rut_p + 2 - top.siz) (top :: ds) - 2) _ s'.rut_p
    rw [hhat, hrut]
    exact packed_south_tiles hheap hsouth (List.nil_append bs).symm
  · rw [hframe' w]
    · exact hwalked.outside w hw
    · rw [Road.low_south hsouth, Road.high_south hsouth, hhat_p] at hw
      exact hw

/-- The walk of roots that are atoms. -/
theorem rewriteAll_atoms (hroots : ∀ som ∈ roots, isPom som = false) :
    rewriteAll (fuel + 1) r roots = .ok r := by
  induction roots with
  | nil => rfl
  | cons som roots ih =>
    have hwalk : rewriteNoun (fuel + 1) r som = .ok r := by
      rw [rewriteNoun, if_pos (hroots som List.mem_cons_self)]
    rw [rewriteAll, hwalk, ok_bind, ih fun som hsom ↦ hroots som (List.mem_cons_of_mem _ hsom)]

/-- The second sweep of a heap that is empty, if the word below the rut is zero. -/
theorem packMove_empty {fuel : ℕ} (hsouth : r.isNorth = false) (hhat : r.hat_p = r.rut_p)
    (hsiz : r.loom (r.rut_p - 1) = 0) : packMove (fuel + 1) r =
      (packStepSouth r r.rut_p 0 (r.rut_p + 2)).map fun p ↦ { p.1 with
        hat_p := r.rut_p
        fre_p := fun i_w ↦ if i_w < fboxNo then 0 else p.1.fre_p i_w
        cel_p := 0 } := by
  have hnorth : ¬r.isNorth = true := by simp [hsouth]
  rw [packMove, packMoveBoxes, if_neg hnorth]
  simp only [hsiz, Nat.sub_zero, hhat]
  rw [packMoveSouth_end]
  cases packStepSouth r r.rut_p 0 (r.rut_p + 2) with
  | error fault => rfl
  | ok p => rfl

/-- The second sweep of a heap that is empty takes the word below the rut for the size of a box, and
the word above it for a use count. -/
theorem zero_of_packMove (hsouth : r.isNorth = false) (hhat : r.hat_p = r.rut_p)
    (hpos : 0 < r.rut_p) (hok : packMove (fuel + 1) r = .ok r')
    (houtside : ∀ w, r.rut_p ≤ w → r'.loom w = r.loom w) :
    r.loom (r.rut_p - 1) = 0 ∧ r.loom (r.rut_p + 1) = 0 := by
  by_cases hsiz : r.loom (r.rut_p - 1) = 0
  · refine ⟨hsiz, ?_⟩
    rw [packMove_empty hsouth hhat hsiz] at hok
    cases hstep : packStepSouth r r.rut_p 0 (r.rut_p + 2) with
    | error fault =>
      rw [hstep] at hok
      exact absurd hok nofun
    | ok p =>
      rw [hstep] at hok
      have hloom : ∀ w, r.rut_p ≤ w → p.1.loom w = r.loom w := by
        rw [← Except.ok.inj hok] at houtside
        exact houtside
      by_cases huse : r.loom (r.rut_p + 1) &&& 0x7fffffff = 0
      · have hfree : ¬(r.put (r.rut_p + 1) 0).loom (r.rut_p + 1) ≠ 0 := by
          rw [Road.loom_put, Function.update_self]
          exact fun hne ↦ hne rfl
        rw [packStepSouth, huse, if_neg hfree] at hstep
        rw [← hloom _ (Nat.le_succ _), ← Except.ok.inj hstep]
        exact Function.update_self ..
      · -- a box of no words would be written to
        have hhead := packStepSouth_head huse hstep
        have hlive : (r.put (r.rut_p + 1) (r.loom (r.rut_p + 1) &&& 0x7fffffff)).loom
            (r.rut_p + 1) ≠ 0 := by
          rw [Road.loom_put, Function.update_self]
          exact huse
        have hhead₁ : (r.put (r.rut_p + 1) (r.loom (r.rut_p + 1) &&& 0x7fffffff)).loom r.rut_p =
            r.rut_p + 2 := by
          rw [Road.loom_put, Function.update_of_ne (by omega)]
          exact hhead
        obtain ⟨s', hbox, _, hsize, _⟩ := @packBoxSouth_ok _ _ 0 _ (Nat.le_refl _) hhead₁
        rw [packStepSouth, if_pos hlive, hbox, ok_bind] at hstep
        have hsame := hloom _ (Nat.le_refl r.rut_p)
        rw [← Except.ok.inj hstep] at hsame
        replace hsame : s'.loom r.rut_p = r.loom r.rut_p := hsame
        omega
  · exfalso
    have hnorth : ¬r.isNorth = true := by simp [hsouth]
    rw [packMove, packMoveBoxes, if_neg hnorth] at hok
    dsimp only at hok
    rw [packMoveSouth] at hok
    cases hstep : packStepSouth r (r.rut_p - r.loom (r.rut_p - 1)) (r.loom (r.rut_p - 1))
        (r.rut_p + 2 - r.loom (r.rut_p - 1)) with
    | error fault =>
      rw [hstep] at hok
      exact absurd hok nofun
    | ok p =>
      rw [hstep, ok_bind] at hok
      dsimp only at hok
      rw [if_neg (by omega), if_neg (by omega)] at hok
      exact absurd hok nofun

/-- The sweeps of a heap that is empty. -/
theorem compacts_empty (hheap : Heap mat_p r []) (hsouth : r.isNorth = false)
    (hrooted : Rooted r [] roots) : (∃ r₁ r₂ r', Compacts (fuel + 1) r [] roots r₁ r₂ r') ↔
      r.loom (r.rut_p - 1) = 0 ∧ r.loom (r.rut_p + 1) = 0 := by
  have hatoms : ∀ som ∈ roots, isPom som = false := by
    intro som hsom
    rw [← Bool.not_eq_true]
    exact fun hpom ↦ List.not_mem_nil (hrooted.root som hsom (not_cat_of_pom hpom))
  have hhat : r.hat_p = r.rut_p := by
    have htiles := hheap.tiles
    rw [Road.low_south hsouth, Road.high_south hsouth] at htiles
    exact htiles
  have hnorth : ¬r.isNorth = true := by simp [hsouth]
  have hhigh : r.high = r.rut_p := Road.high_south hsouth
  have hlow : r.low = r.rut_p := (Road.low_south hsouth).trans hhat
  have hpos : 0 < r.rut_p := hlow ▸ hheap.pos
  have hseek : packSeek (fuel + 1) r = .ok r := by
    rw [packSeek, if_neg hnorth]
    dsimp only
    rw [packSeekSouth, if_neg (by omega)]
  have hwalk : rewriteAll (fuel + 1) r roots = .ok r := rewriteAll_atoms hatoms
  constructor
  · rintro ⟨r₁, r₂, r', hcompacts⟩
    obtain rfl := Except.ok.inj (hseek.symm.trans hcompacts.seek)
    obtain rfl := Except.ok.inj (hwalk.symm.trans hcompacts.rewrite)
    exact zero_of_packMove hsouth hhat hpos hcompacts.move fun w hw ↦
      hcompacts.packed.outside w (.inr (hhigh ▸ hw))
  · rintro ⟨hsiz, huse⟩
    have hstep : packStepSouth r r.rut_p 0 (r.rut_p + 2) = .ok (r, false) := by
      have hsame : r.put (r.rut_p + 1) (r.loom (r.rut_p + 1) &&& 0x7fffffff) = r := by
        rw [Road.put, huse, Nat.zero_and, ← huse, Function.update_eq_self]
      rw [packStepSouth, hsame, if_neg (fun hne ↦ hne huse)]
    have hmove := @packMove_empty r fuel hsouth hhat hsiz
    rw [hstep] at hmove
    have hsouth' : ∀ fre_p, Road.isNorth { r with hat_p := r.rut_p, fre_p := fre_p, cel_p := 0 } =
      false := by
      intro fre_p
      rw [← hhat]
      exact hsouth
    have hmoved : Moved r [] roots r [] r := ⟨rfl, by simp, by simp, by simp⟩
    refine ⟨r, r, _, hseek, hwalk, hmove, by simp, by simp,
      hmoved.packed hheap rfl ((hsouth' _).trans hsouth.symm) ?_ (fun sel hsel ↦ if_pos hsel)
        fun _ _ ↦ rfl⟩
    rw [Road.low_south (hsouth' _), Road.high_south (hsouth' _)]
    exact (rfl : Tiles r.rut_p [] r.rut_p)

/-- A south road is packed if and only if some of its words happen to be what they should be. -/
theorem south_compacts_iff (hheap : Heap mat_p r bs) (hsouth : r.isNorth = false)
    (hrooted : Rooted r bs roots) {fuel : ℕ} (hfuel : bs.length < fuel) :
    (∃ r₁ r₂ r', Compacts fuel r bs roots r₁ r₂ r') ↔ FitsSouth r bs roots := by
  cases bs with
  | nil =>
    obtain ⟨fuel, rfl⟩ := Nat.exists_eq_succ_of_ne_zero (Nat.ne_of_gt hfuel)
    exact compacts_empty hheap hsouth hrooted
  | cons low rest =>
    constructor
    · rintro ⟨r₁, r₂, r', hcompacts⟩
      exact accident_of_compacts hheap hsouth hrooted hfuel rfl hcompacts
    · exact compacts_of_accident hheap hsouth hrooted hfuel rfl

end

/-- A south road with one cell, whose size is its address. -/
def luckyRoad : Road :=
  { emptyRoad with
    cap_p := 1
    hat_p := 4
    rut_p := 10
    loom := fun w ↦ [0, 0, 0, 0, 6, 1, 0, 0, 0, 6].getD w 0 }

/-- The box of the road. -/
def luckyBoxes : List Box := [⟨4, 6, .live 3⟩]

theorem south_compacts_lucky :
    ∃ r₁ r₂ r', Compacts 2 luckyRoad luckyBoxes [0xc0000006] r₁ r₂ r' := by
  have hheap : Heap 1 luckyRoad luckyBoxes := by
    have hnone : ∀ sel, freeOn luckyBoxes sel = [] := fun sel ↦ by simp [freeOn, luckyBoxes]
    refine ⟨⟨⟨rfl, rfl⟩, by decide, by simp [Box.Tagged, luckyRoad, luckyBoxes],
      by simp [luckyRoad, luckyBoxes], fun sel _ ↦ ?_, ⟨[], .refl _, .nil, rfl⟩, .refl _,
      by simp [livesOf,
      luckyBoxes]⟩, by decide, by decide, by decide, by decide, by decide, by decide⟩
    rw [hnone]
    exact ⟨[], .refl _, .nil, rfl⟩
  have hreaches : ∀ p, Reaches luckyRoad [0xc0000006] p → p = 6 := by
    intro p hp
    refine hp.mem {p | p = 6} (fun q hq ↦ ?_) fun q hq q' hq' ↦ ?_
    · exact List.mem_singleton.mp hq
    · obtain rfl : q = 6 := hq
      exact absurd hq' List.not_mem_nil
  have hrooted : Rooted luckyRoad luckyBoxes [0xc0000006] := by
    refine ⟨fun som hsom ↦ ?_, fun p hp ↦ ?_⟩
    · obtain rfl := List.mem_singleton.mp hsom
      exact fun _ ↦ by decide
    · obtain rfl := hreaches p hp
      exact ⟨fun hcat ↦ absurd hcat (by decide), fun hcat ↦ absurd hcat (by decide)⟩
  refine (south_compacts_iff hheap (by decide) hrooted (by decide)).mpr
    ⟨by decide, by decide, ?_, ?_, ?_⟩
  · exact ⟨rfl, trivial⟩
  · intro b hb _ i _ _
    obtain rfl := List.mem_singleton.mp hb
    have hsame : newPos luckyRoad luckyBoxes 4 - 4 = 0 := by decide
    rw [hsame, Nat.sub_zero]
  · intro b hb _
    obtain rfl := List.mem_singleton.mp hb
    refine ⟨by decide, fun c hc _ ↦ ?_, fun p hp ↦ ?_⟩
    · obtain rfl := List.mem_singleton.mp hc
      decide
    · obtain rfl := hreaches p hp
      decide

/-- The first sweep leaves out the only box of a south road, `u3a_rewritten()` gives its size for
its address, and its move ends in a failed assertion. -/
theorem south_single : ∃ r, Run Call.Fits r [(60, 3)] ∧ (∃ bs, BoxInvariant r [(60, 3)] bs) ∧
    r.isNorth = false ∧ ∃ r₁ r₂, packSeek 30 r = .ok r₁ ∧ rewriteAll 30 r₁ [0xc000003c] = .ok r₂ ∧
      rewritten r₂ 60 = 6 ∧ packMove 30 r₂ = .error .assertion ∧
        ∀ bs, ¬∃ r₁ r₂ r', Compacts 30 r bs [0xc000003c] r₁ r₂ r' := by
  obtain ⟨r, hstep, hsouth, r₁, hseek, r₂, hwalk, hword, hmove⟩ :
      ∃ r, (Call.walloc 3).step 30 { emptyRoad with cap_p := 1, hat_p := 64, rut_p := 64 } [] =
          .ok (r, [(60, 3)]) ∧ r.isNorth = false ∧
        ∃ r₁, packSeek 30 r = .ok r₁ ∧ ∃ r₂, rewriteAll 30 r₁ [0xc000003c] = .ok r₂ ∧
          rewritten r₂ 60 = 6 ∧ packMove 30 r₂ = .error .assertion :=
    ⟨_, rfl, rfl, _, rfl, _, rfl, rfl, rfl⟩
  have hempty : Road.Empty { emptyRoad with cap_p := 1, hat_p := 64, rut_p := 64 } :=
    ⟨rfl, by decide, by decide, by decide, fun _ _ ↦ rfl, rfl⟩
  have hrun : Run Call.Fits r [(60, 3)] :=
    .call 30 (.walloc 3) (.empty hempty) (by decide : 3 < 2 ^ 32) (by decide : 3 + 3 < 2 ^ 32) hstep
  obtain ⟨bs, hrep, hsettled, hlives⟩ := hrun.settles
  refine ⟨r, hrun, ⟨bs, hrep.boxInvariant hsettled hlives⟩, hsouth, r₁, r₂, hseek, hwalk, hword,
    hmove, ?_⟩
  rintro bs' ⟨r₁', r₂', r', hcompacts⟩
  obtain rfl := Except.ok.inj (hseek.symm.trans hcompacts.seek)
  obtain rfl := Except.ok.inj (hwalk.symm.trans hcompacts.rewrite)
  exact absurd (hmove.symm.trans hcompacts.move) nofun

end Vere.Noun.Pack
