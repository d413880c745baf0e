import Vere.Noun.Mark

/-!
# Mark and sweep

`u3a_idle()` and `u3a_sweep()` of `pkg/noun/allocate.c`, after the roots of a road have been marked.
A mark leaves a use count that is negative as a signed word: the first sets it to minus one, and the
later ones count down. So the sweep can tell the boxes that were marked from the leaks.

`mark_sweep` says what comes of it: what is live and what has leaked add up to the heap without the
free lists, nothing has leaked if and only if every allocation can be reached, and then each use
count is the number of references. A root that is a pointer must not be to a cell:
`mark_sweep_pointer` is what happens otherwise.
-/

set_option autoImplicit false

namespace Vere.Noun.Mark

open Lib Lib.Visit Allocate

/-! ### The sweep -/

/-- The loop of `u3a_idle()` over a free list. -/
def idleList : ℕ → Road → ℕ → Option ℕ
  | 0, _, _ => none
  | fuel + 1, r, fre_p =>
    if fre_p = 0 then some 0
    else do
      let rest_w ← idleList fuel r (r.loom (fre_p + 3))
      some (r.loom fre_p + rest_w)

/-- The loop of `u3a_idle()` over the first free lists. -/
def idleLoop (fuel : ℕ) (r : Road) : ℕ → Option ℕ
  | 0 => some 0
  | i_w + 1 => do
    let fre_w ← idleLoop fuel r i_w
    let list_w ← idleList fuel r (r.fre_p i_w)
    some (fre_w + list_w)

/-- `u3a_idle()`: measure free lists. -/
def idle (fuel : ℕ) (r : Road) : Option ℕ := idleLoop fuel r fboxNo

/-- The loop of `u3a_sweep()`, with what it has counted as live and as leaked. -/
def sweepLoop : ℕ → Road → ℕ → ℕ → ℕ → ℕ → Except Fault (Road × ℕ × ℕ)
  | 0, _, _, _, _, _ => .error .steps
  | fuel + 1, r, box, end_p, pos_w, leq_w =>
    if box < end_p then
      let use_w := r.loom (box + 1)
      let siz_w := r.loom box
      if 0 < use_w ∧ use_w < 0x80000000 then do
        let r ← boxAttach (r.put (box + 1) 0) box
        sweepLoop fuel r (box + r.loom box) end_p pos_w (leq_w + siz_w)
      else if 0x80000000 ≤ use_w then
        sweepLoop fuel (r.put (box + 1) (2 ^ 32 - use_w)) (box + siz_w) end_p (pos_w + siz_w) leq_w
      else sweepLoop fuel r (box + siz_w) end_p pos_w leq_w
    else .ok (r, pos_w, leq_w)

/-- `u3a_sweep()` before its assertions: the words that the free lists leave, and those that are
live and that have leaked. -/
def sweepCount (fuel : ℕ) (r : Road) : Except Fault (Road × ℕ × ℕ × ℕ) :=
  match idle fuel r with
  | none => .error .steps
  | some fre_w => do
    let neg_w := r.high - r.low - fre_w
    let (r, pos_w, leq_w) ← sweepLoop fuel r r.low r.high 0 0
    .ok (r, neg_w, pos_w, leq_w)

/-- `u3a_sweep()`: sweep a fully marked road. -/
def sweep (fuel : ℕ) (r : Road) : Except Fault (Road × ℕ) := do
  let (r, neg_w, pos_w, leq_w) ← sweepCount fuel r
  if pos_w + leq_w ≠ neg_w then .error .assertion
  else if leq_w ≠ 0 then .error .assertion
  else .ok (r, neg_w)

/-- A root: a noun, or a pointer to what is no noun. -/
inductive Root
  | noun (som : ℕ) : Root
  | ptr (ptr_v : ℕ) : Root
  deriving DecidableEq, Repr

/-- Mark a root. -/
def markRoot (mat_p fuel : ℕ) (r : Road) : Root → Option (Road × ℕ)
  | .noun som => markNoun mat_p fuel r som
  | .ptr ptr_v => some (markPtr r ptr_v)

/-! ### Sizes of boxes -/

/-- The total size of the boxes of a kind. -/
def total (kind : Box → Bool) (bs : List Box) : ℕ := ((bs.filter kind).map Box.siz).sum

section

variable {kind kind' : Box → Bool} {b : Box} {bs : List Box} {lo hi : ℕ}

theorem total_cons (kind : Box → Bool) (b : Box) (bs : List Box) :
    total kind (b :: bs) = (if kind b then b.siz else 0) + total kind bs := by
  unfold total
  rw [List.filter_cons]
  split_ifs with hkind
  · rw [List.map_cons, List.sum_cons]
  · rw [Nat.zero_add]

theorem total_congr (hkind : ∀ b ∈ bs, kind b = kind' b) : total kind bs = total kind' bs := by
  rw [total, List.filter_congr hkind, total]

/-- Two kinds, when no box is of both. -/
theorem total_or (hnot : ∀ b ∈ bs, kind b = true → kind' b = false) :
    total (fun b ↦ kind b || kind' b) bs = total kind bs + total kind' bs := by
  induction bs with
  | nil => rfl
  | cons b bs ih =>
    have hb := hnot b List.mem_cons_self
    rw [total_cons, total_cons, total_cons, ih fun c hc ↦ hnot c (List.mem_cons_of_mem _ hc)]
    cases hkind : kind b with
    | true =>
      rw [hb hkind]
      simp only [Bool.or_false, if_true, Bool.false_eq_true, if_false]
      omega
    | false =>
      simp only [Bool.false_or, Bool.false_eq_true, if_false]
      omega

theorem total_eq_zero (hsiz : ∀ b ∈ bs, 0 < b.siz) :
    total kind bs = 0 ↔ ∀ b ∈ bs, kind b = false := by
  induction bs with
  | nil => simp [total]
  | cons b bs ih =>
    have hb := hsiz b List.mem_cons_self
    rw [total_cons, List.forall_mem_cons, ← ih fun c hc ↦ hsiz c (List.mem_cons_of_mem _ hc)]
    cases kind b with
    | true =>
      simp only [if_true, Bool.true_eq_false, false_and, iff_false]
      omega
    | false => simp

theorem Tiles.total (htiles : Tiles lo bs hi) : Mark.total (fun _ ↦ true) bs = hi - lo := by
  induction bs generalizing lo with
  | nil =>
    obtain rfl : lo = hi := htiles
    rw [Nat.sub_self]
    rfl
  | cons b bs ih =>
    obtain ⟨rfl, hrest⟩ := htiles
    have hle := Tiles.le hrest
    rw [total_cons, ih hrest, if_pos rfl]
    omega

end

/-! ### Measuring the free lists -/

variable {fuel : ℕ}

section

variable {r : Road} {bs : List Box}

theorem idleList_eq {hed : ℕ} {l : List ℕ} (hlen : l.length < fuel)
    (hchained : Chained 0 (fun p ↦ r.loom (p + 3)) hed l) :
    idleList fuel r hed = some (l.map r.loom).sum := by
  induction fuel generalizing hed l with
  | zero => exact absurd hlen (Nat.not_lt_zero _)
  | succ fuel ih =>
    cases l with
    | nil => exact if_pos hchained
    | cons p l =>
      obtain ⟨rfl, hne, hrest⟩ := hchained
      rw [idleList, if_neg hne, ih (Nat.lt_of_succ_lt_succ hlen) hrest]
      rfl

/-- A free box of a slot. -/
def freeIn (sel : ℕ) (b : Box) : Bool := b.state = .free ∧ boxSlot b.siz = sel

theorem freeOn_sum (hhead : ∀ b ∈ bs, r.loom b.pos = b.siz) (sel : ℕ) :
    ((freeOn bs sel).map r.loom).sum = total (freeIn sel) bs := by
  unfold freeOn total
  rw [List.map_map]
  refine congrArg List.sum (List.map_congr_left fun b hb ↦ ?_)
  exact hhead b (List.mem_filter.mp hb).1

theorem idle_eq (hhead : ∀ b ∈ bs, r.loom b.pos = b.siz) (hfuel : bs.length < fuel)
    (hfre : ∀ sel < fboxNo, ∃ l, l.Perm (freeOn bs sel) ∧
      Chained 0 (fun p ↦ r.loom (p + 3)) (r.fre_p sel) l) :
    idle fuel r = some (total (fun b ↦ b.state = .free) bs) := by
  have hloop : ∀ count ≤ fboxNo, idleLoop fuel r count =
      some (total (fun b ↦ b.state = .free ∧ boxSlot b.siz < count) bs) := by
    intro count hle
    induction count with
    | zero => simp [idleLoop, total]
    | succ count ih =>
      obtain ⟨l, hperm, hchained⟩ := hfre count (by omega)
      have hlen : l.length < fuel := by
        rw [hperm.length_eq, freeOn, List.length_map]
        exact (List.length_filter_le ..).trans_lt hfuel
      have hsum : (l.map r.loom).sum = total (freeIn count) bs := by
        rw [(hperm.map _).sum_nat, freeOn_sum hhead]
      rw [idleLoop, ih (by omega), idleList_eq hlen hchained, hsum]
      show some _ = some _
      rw [← total_or]
      · refine congrArg some (total_congr fun b _ ↦ ?_)
        rw [freeIn, ← Bool.decide_or, decide_eq_decide, Nat.lt_succ_iff_lt_or_eq]
        tauto
      · intro b _ hlt
        simp only [decide_eq_true_eq] at hlt
        simp only [freeIn, decide_eq_false_iff_not]
        omega
  rw [idle, hloop fboxNo (Nat.le_refl _)]
  refine congrArg some (total_congr fun b _ ↦ ?_)
  simp [boxSlot_lt]

end

/-! ### The loop -/

section

variable {r : Road} {bs : List Box} {b : Box} {lo hi : ℕ}

/-- A box that has leaked: its use count is positive as a signed word. -/
def leaked (r : Road) (b : Box) : Bool :=
  0 < r.loom (b.pos + 1) ∧ r.loom (b.pos + 1) < 0x80000000

/-- A box that was marked: its use count is negative as a signed word. -/
def marked (r : Road) (b : Box) : Bool := 0x80000000 ≤ r.loom (b.pos + 1)

/-- The words that the sweep reads of the boxes that it has still to come to. -/
structure Ahead (r s : Road) (bs : List Box) : Prop where
  head : ∀ b ∈ bs, s.loom b.pos = b.siz
  use : ∀ b ∈ bs, s.loom (b.pos + 1) = r.loom (b.pos + 1)
  siz : ∀ b ∈ bs, minimum ≤ b.siz

/-- Writes to words that the sweep does not read. -/
theorem Ahead.of_eq {s s' : Road} (hahead : Ahead r s bs)
    (hloom : ∀ b ∈ bs, s'.loom b.pos = s.loom b.pos ∧ s'.loom (b.pos + 1) = s.loom (b.pos + 1)) :
    Ahead r s' bs :=
  ⟨fun b hb ↦ (hloom b hb).1.trans (hahead.head b hb),
    fun b hb ↦ (hloom b hb).2.trans (hahead.use b hb), hahead.siz⟩

/-- The sweep attaches a leak. It writes links, of the leak and of the first box of the free list.
-/
theorem boxAttach_leak {s : Road} {all : List Box} (hall : Tiles lo all hi)
    (hsiz : ∀ c ∈ all, minimum ≤ c.siz) (hlo : 0 < lo) (hb : b ∈ all)
    (hsize : s.loom b.pos = b.siz)
    (hfre : ∀ sel < fboxNo, s.fre_p sel = 0 ∨ ∃ c ∈ all, s.fre_p sel = c.pos) :
    ∃ s', boxAttach s b.pos = .ok s' ∧
      (∀ sel < fboxNo, s'.fre_p sel = 0 ∨ ∃ c ∈ all, s'.fre_p sel = c.pos) ∧
      ∀ c ∈ all, s'.loom c.pos = s.loom c.pos ∧ s'.loom (c.pos + 1) = s.loom (c.pos + 1) := by
  have hb' : 6 ≤ b.siz := hsiz b hb
  have hpos := (hall.mem hb).1
  -- the words that are read are not links
  have hlink : ∀ c ∈ all, ∀ d ∈ all, c.pos ≠ d.pos + 2 ∧ c.pos + 1 ≠ d.pos + 2 ∧
      c.pos ≠ d.pos + 3 ∧ c.pos + 1 ≠ d.pos + 3 := by
    intro c hc d hd
    have hc' : 6 ≤ c.siz := hsiz c hc
    have hd' : 6 ≤ d.siz := hsiz d hd
    rcases hall.apart hc hd with rfl | hapart <;> omega
  unfold boxAttach
  rw [if_neg (by omega)]
  refine ⟨_, rfl, fun sel hsel ↦ ?_, fun c hc ↦ ?_⟩
  · have hset : ∀ (fre_p : ℕ → ℕ) (i : ℕ), fre_p sel = s.fre_p sel →
        Function.update fre_p i b.pos sel = 0 ∨ ∃ c ∈ all, Function.update fre_p i b.pos sel =
          c.pos := by
      intro fre_p i heq
      rw [Function.update_apply]
      split_ifs
      · exact .inr ⟨b, hb, rfl⟩
      · rw [heq]
        exact hfre sel hsel
    refine hset _ _ ?_
    split_ifs <;> rfl
  · have hself := hlink c hc b hb
    rcases hfre (boxSlot (s.loom b.pos)) (boxSlot_lt _) with hnull | ⟨d, hd, hhead⟩
    · simp only [hnull, ne_eq, not_true_eq_false, if_false, Road.loom_put]
      rw [Function.update_of_ne hself.2.2.1, Function.update_of_ne hself.1,
        Function.update_of_ne hself.2.2.2, Function.update_of_ne hself.2.1]
      exact ⟨rfl, rfl⟩
    · have hother := hlink c hc d hd
      have hne : d.pos ≠ 0 := by
        have hdpos := (hall.mem hd).1
        omega
      simp only [hhead, ne_eq, hne, not_false_eq_true, if_true, Road.loom_put]
      rw [Function.update_of_ne hother.1, Function.update_of_ne hself.2.2.1,
        Function.update_of_ne hself.1,
        Function.update_of_ne hother.2.1, Function.update_of_ne hself.2.2.2,
          Function.update_of_ne hself.2.1]
      exact ⟨rfl, rfl⟩

/-- The loop counts what is marked and what has leaked. -/
theorem sweepLoop_counts {all : List Box} {lo' : ℕ} (hall : Tiles lo' all hi) (hlo : 0 < lo')
    (hallsiz : ∀ c ∈ all, minimum ≤ c.siz) {s : Road} (pos_w leq_w : ℕ) (hsub : ∀ c ∈ bs, c ∈ all)
    (htiles : Tiles lo bs hi) (hfuel : bs.length < fuel) (hahead : Ahead r s bs)
    (hfre : ∀ sel < fboxNo, s.fre_p sel = 0 ∨ ∃ c ∈ all, s.fre_p sel = c.pos) :
    ∃ s', sweepLoop fuel s lo hi pos_w leq_w =
      .ok (s', pos_w + total (marked r) bs, leq_w + total (leaked r) bs) := by
  induction fuel generalizing s lo bs pos_w leq_w with
  | zero => exact absurd hfuel (Nat.not_lt_zero _)
  | succ fuel ih =>
    cases bs with
    | nil =>
      obtain rfl : lo = hi := htiles
      exact ⟨s, if_neg (Nat.lt_irrefl _)⟩
    | cons b bs =>
      obtain ⟨rfl, hrest⟩ := htiles
      have hsiz : 6 ≤ b.siz := hahead.siz b List.mem_cons_self
      have hle := Tiles.le hrest
      have hhead := hahead.head b List.mem_cons_self
      have huse := hahead.use b List.mem_cons_self
      have hsub' : ∀ c ∈ bs, c ∈ all := fun c hc ↦ hsub c (List.mem_cons_of_mem _ hc)
      have hahead' : Ahead r s bs := ⟨fun c hc ↦ hahead.head c (List.mem_cons_of_mem _ hc),
        fun c hc ↦ hahead.use c (List.mem_cons_of_mem _ hc),
        fun c hc ↦ hahead.siz c (List.mem_cons_of_mem _ hc)⟩
      have hput : ∀ v, ∀ c ∈ bs, (s.put (b.pos + 1) v).loom c.pos = s.loom c.pos ∧
          (s.put (b.pos + 1) v).loom (c.pos + 1) = s.loom (c.pos + 1) := by
        intro v c hc
        have hafter := (Tiles.mem hrest hc).1
        rw [Road.loom_put, Function.update_of_ne (by omega), Function.update_of_ne (by omega)]
        exact ⟨rfl, rfl⟩
      have hfuel' := Nat.lt_of_succ_lt_succ hfuel
      rw [sweepLoop, if_pos (by omega), hhead, huse, total_cons, total_cons, leaked, marked]
      by_cases hleak : 0 < r.loom (b.pos + 1) ∧ r.loom (b.pos + 1) < 0x80000000
      · have hhead' : (s.put (b.pos + 1) 0).loom b.pos = b.siz := by
          rw [Road.loom_put, Function.update_of_ne (by omega), hhead]
        obtain ⟨s', hattach, hfre', hloom⟩ :=
          boxAttach_leak hall hallsiz hlo (hsub b List.mem_cons_self)
          hhead' hfre
        obtain ⟨s'', hloop⟩ := ih pos_w (leq_w + b.siz) hsub' hrest hfuel'
          ((hahead'.of_eq (hput 0)).of_eq fun c hc ↦ hloom c (hsub' c hc)) hfre'
        have hsize : s'.loom b.pos = b.siz := (hloom b (hsub b List.mem_cons_self)).1.trans hhead'
        refine ⟨s'', ?_⟩
        rw [if_pos hleak, hattach, if_neg (by simp; omega), if_pos (by simpa using hleak)]
        simp only [ok_bind, hsize, hloop, Nat.zero_add, Nat.add_assoc]
      · rw [if_neg hleak]
        by_cases hmark : 0x80000000 ≤ r.loom (b.pos + 1)
        · obtain ⟨s', hloop⟩ :=
            ih (pos_w + b.siz) leq_w hsub' hrest hfuel' (hahead'.of_eq (hput _)) hfre
          refine ⟨s', ?_⟩
          rw [if_pos hmark, hloop, if_pos (by simpa using hmark), if_neg (by simpa using hleak)]
          simp only [Nat.zero_add, Nat.add_assoc]
        · obtain ⟨s', hloop⟩ := ih pos_w leq_w hsub' hrest hfuel' hahead' hfre
          refine ⟨s', ?_⟩
          rw [if_neg hmark, hloop, if_neg (by simpa using hmark), if_neg (by simpa using hleak)]
          simp only [Nat.zero_add]

/-- The road of a sweep that finds no leaks. -/
def swept (r : Road) (bs : List Box) : Road :=
  { r with
    loom := fun w ↦ if ∃ b ∈ bs, marked r b ∧ w = b.pos + 1 then 2 ^ 32 - r.loom w else r.loom w }

/-- Without leaks, the loop only changes the use counts of what is marked. -/
theorem sweepLoop_swept (pos_w leq_w : ℕ) (htiles : Tiles lo bs hi) (hfuel : bs.length < fuel)
    (hahead : Ahead r r bs) (hleak : ∀ b ∈ bs, leaked r b = false) :
    sweepLoop fuel r lo hi pos_w leq_w = .ok (swept r bs, pos_w + total (marked r) bs, leq_w) := by
  induction fuel generalizing r lo bs pos_w with
  | zero => exact absurd hfuel (Nat.not_lt_zero _)
  | succ fuel ih =>
    cases bs with
    | nil =>
      obtain rfl : lo = hi := htiles
      have hswept : swept r [] = r := by simp [swept]
      rw [hswept]
      exact if_neg (Nat.lt_irrefl _)
    | cons b bs =>
      obtain ⟨rfl, hrest⟩ := htiles
      have hsiz : 6 ≤ b.siz := hahead.siz b List.mem_cons_self
      have hle := Tiles.le hrest
      have hhead := hahead.head b List.mem_cons_self
      have hleak' : ∀ c ∈ bs, leaked r c = false := fun c hc ↦ hleak c (List.mem_cons_of_mem _ hc)
      have hleakb := hleak b List.mem_cons_self
      simp only [leaked, decide_eq_false_iff_not] at hleakb
      have hahead' : Ahead r r bs := ⟨fun c hc ↦ hahead.head c (List.mem_cons_of_mem _ hc),
        fun _ _ ↦ rfl, fun c hc ↦ hahead.siz c (List.mem_cons_of_mem _ hc)⟩
      have hfuel' := Nat.lt_of_succ_lt_succ hfuel
      rw [sweepLoop, if_pos (by omega), hhead, if_neg hleakb, total_cons]
      by_cases hmark : 0x80000000 ≤ r.loom (b.pos + 1)
      · set s := r.put (b.pos + 1) (2 ^ 32 - r.loom (b.pos + 1)) with hs
        have hword : ∀ c ∈ bs, s.loom c.pos = r.loom c.pos ∧
            s.loom (c.pos + 1) = r.loom (c.pos + 1) := by
          intro c hc
          have hafter := (Tiles.mem hrest hc).1
          rw [hs, Road.loom_put, Function.update_of_ne (by omega), Function.update_of_ne (by omega)]
          exact ⟨rfl, rfl⟩
        have hmarks : ∀ c ∈ bs, marked s c = marked r c := fun c hc ↦ by
          rw [marked, (hword c hc).2, marked]
        have hswept : swept s bs = swept r (b :: bs) := by
          show Road.mk .. = Road.mk ..
          congr 1
          funext w
          have hsw : s.loom w = if w = b.pos + 1 then
              2 ^ 32 - r.loom (b.pos + 1) else r.loom w := by
            rw [hs, Road.loom_put, Function.update_apply]
          have hexists : (∃ c ∈ bs, marked s c = true ∧ w = c.pos + 1) ↔
              ∃ c ∈ bs, marked r c = true ∧ w = c.pos + 1 := by
            constructor
            · rintro ⟨c, hc, hmarkc, rfl⟩
              exact ⟨c, hc, hmarks c hc ▸ hmarkc, rfl⟩
            · rintro ⟨c, hc, hmarkc, rfl⟩
              exact ⟨c, hc, (hmarks c hc).trans hmarkc, rfl⟩
          have hmarkb : marked r b = true := by simpa [marked] using hmark
          simp only [hexists, hsw, List.mem_cons, exists_eq_or_imp, hmarkb, true_and]
          by_cases hw : w = b.pos + 1
          · have hnot : ¬∃ c ∈ bs, marked r c = true ∧ w = c.pos + 1 := by
              rintro ⟨c, hc, _, hwc⟩
              have hafter := (Tiles.mem hrest hc).1
              omega
            rw [if_neg hnot, if_pos hw, if_pos (.inl hw), hw]
          · simp only [hw, false_or, if_false]
        rw [if_pos hmark, ih (pos_w + b.siz) hrest hfuel'
          ⟨fun c hc ↦ (hword c hc).1.trans (hahead'.head c hc), fun _ _ ↦ rfl, hahead'.siz⟩
          (fun c hc ↦ by rw [leaked, (hword c hc).2]; exact hleak' c hc), hswept,
          total_congr hmarks, if_pos (by simpa [marked] using hmark)]
        rw [Nat.add_assoc]
      · have hmarkb : marked r b = false := by simpa [marked] using hmark
        have hswept : swept r bs = swept r (b :: bs) := by
          simp [swept, hmarkb]
        rw [if_neg hmark, ih pos_w hrest hfuel' hahead' hleak', hswept, if_neg (by simp [hmarkb]),
          Nat.zero_add]

end

/-! ### Marks -/

section

variable {siz_w use_w : ℕ}

theorem markUse_neg (hneg : 0x80000000 < use_w) : markUse use_w siz_w = (use_w - 1, 0) := by
  rw [markUse, if_neg (by omega), if_neg (by omega), if_pos hneg]

theorem markUse_first (hpos : 0 < use_w) (hlt : use_w < 0x80000000) :
    markUse use_w siz_w = (0xffffffff, siz_w) := by
  rw [markUse, if_neg (by omega), if_neg (by omega), if_neg (by omega)]

/-- A mark leaves a negative use count. -/
theorem changed_mark_neg (hpos : 0 < use_w) (hlt : use_w < 0x80000000) (count : ℕ) :
    0x80000000 ≤ changed markUse siz_w (count + 1) use_w ∧
      changed markUse siz_w (count + 1) use_w < 2 ^ 32 := by
  induction count with
  | zero =>
    rw [changed_succ]
    show 0x80000000 ≤ (markUse use_w siz_w).1 ∧ (markUse use_w siz_w).1 < 2 ^ 32
    rw [markUse_first hpos hlt]
    exact (by decide : 0x80000000 ≤ 0xffffffff ∧ 0xffffffff < 2 ^ 32)
  | succ count ih =>
    rw [changed_succ]
    by_cases hlast : changed markUse siz_w (count + 1) use_w = 0x80000000
    · rw [hlast, markUse, if_neg (by decide), if_pos rfl]
      exact (by decide : 0x80000000 ≤ 0xffffffff ∧ 0xffffffff < 2 ^ 32)
    · rw [markUse_neg (by omega)]
      show 0x80000000 ≤ _ - 1 ∧ _ - 1 < 2 ^ 32
      omega

/-- The use count after some marks. -/
theorem changed_mark (hpos : 0 < use_w) (hlt : use_w < 0x80000000) {count : ℕ}
    (hcount : count + 1 ≤ 2 ^ 31) :
    changed markUse siz_w (count + 1) use_w = 2 ^ 32 - (count + 1) := by
  induction count with
  | zero =>
    rw [changed_succ]
    exact congrArg Prod.fst (markUse_first hpos hlt)
  | succ count ih =>
    rw [changed_succ, ih (by omega), markUse_neg (by omega)]
    show 2 ^ 32 - (count + 1) - 1 = _
    omega

theorem markUse_once (hsiz : siz_w ≠ 0 ∧ siz_w ≠ 0xffffffff) (hpos : 0 < use_w)
    (hlt : use_w < 0x80000000) :
    Once markUse (fun new_w ↦ new_w = 0 ∨ new_w = 0xffffffff) siz_w use_w := by
  refine ⟨?_, by simpa using hsiz, fun count ↦ ?_⟩
  · rw [markUse_first hpos hlt]
  · obtain ⟨hge, _⟩ := @changed_mark_neg siz_w use_w hpos hlt count
    by_cases hlast : changed markUse siz_w (count + 1) use_w = 0x80000000
    · rw [hlast]
      rfl
    · rw [markUse_neg (by omega)]
      rfl

end

/-- What a root refers to. -/
def Root.refs (r : Road) : Root → List ℕ
  | .noun som => Mark.refs r som
  | .ptr ptr_v => [ptr_v]

/-- A root is a noun, or a pointer to a box that is no cell. -/
def Root.Legal (r : Road) (ptrs : List ℕ) (cell : ℕ → Bool) : Root → Prop
  | .noun som => IsNoun r ptrs cell som
  | .ptr ptr_v => ptr_v ∈ ptrs ∧ cell ptr_v = false

section

variable {mat_p : ℕ} {r : Road} {bs : List Box} {cell : ℕ → Bool} {log : List ℕ}

theorem Root.Legal.refs_mem {ptrs : List ℕ} {root : Root} (hlegal : root.Legal r ptrs cell) :
    ∀ p ∈ root.refs r, p ∈ ptrs := by
  cases root with
  | noun som => exact IsNoun.refs_mem hlegal
  | ptr p =>
    intro q hq
    obtain rfl := List.mem_singleton.mp hq
    exact hlegal.1

/-- Marking a pointer to a box that is no cell. -/
theorem Heap.markPtr_tours (hheap : Heap mat_p r bs) {p : ℕ} (hp : p ∈ ptrsOf bs)
    (hcell : cell p = false) (hlog : ∀ q ∈ log, q ∈ ptrsOf bs) :
    Tours markUse r cell (· ≤ 2 ^ 31) log [p] (some (markPtr (logged markUse r log) p)) := by
  obtain ⟨hsiz, _, hpos, hlt⟩ := hheap.words hp
  have hnext : next r cell p = [] := by simp [next, hcell]
  rw [markPtr, hheap.boxes.visit_logged hlog hp]
  by_cases hseen : p ∈ log
  · obtain ⟨count, hcount⟩ := Nat.exists_eq_succ_of_ne_zero (List.count_pos_iff.mpr hseen).ne'
    refine ⟨[], _, .pass hseen .done, rfl, fun hlim ↦ ?_⟩
    have hle : (p :: log).count p ≤ 2 ^ 31 := hlim p
    rw [List.count_cons_self, hcount] at hle
    rw [hcount, changed_mark hpos hlt (by omega), markUse_neg (by omega)]
    rfl
  · have hzero : log.count p = 0 := List.count_eq_zero_of_not_mem hseen
    refine ⟨[p], r.loom (p - 2), .enter hseen ?_, ?_, fun _ ↦ ?_⟩
    · rw [hnext]
      exact .done
    · rw [hzero]
      show some (_, (markUse (r.loom (p - 2 + 1)) (r.loom (p - 2))).2) = _
      rw [markUse_first hpos hlt]
      simp [arrivals, hnext]
    · simp [sizes]

/-- The marks of some roots come to what the roots refer to. -/
theorem Heap.markAll_tours (hheap : Heap mat_p r bs) (hcells : Cells r (ptrsOf bs) cell)
    {roots : List Root} (hroots : ∀ root ∈ roots, root.Legal r (ptrsOf bs) cell)
    (hfuel : (ptrsOf bs).length < fuel) :
    Tours markUse r cell (· ≤ 2 ^ 31) [] (roots.flatMap (Root.refs r))
      (sumAll (markRoot mat_p fuel) r roots) := by
  have honce : ∀ p ∈ ptrsOf bs, Once markUse (fun new_w ↦ decide (new_w = 0 ∨ new_w = 0xffffffff))
      (r.loom (p - 2)) (r.loom (p - 2 + 1)) := by
    intro p hp
    obtain ⟨hsiz, hle, hpos, hlt⟩ := hheap.words hp
    exact markUse_once ⟨by omega, by omega⟩ hpos hlt
  have hmark : ∀ root ∈ roots, ∀ log, (∀ q ∈ log, q ∈ ptrsOf bs) →
      Tours markUse r cell (· ≤ 2 ^ 31) log (root.refs r)
        (markRoot mat_p fuel (logged markUse r log) root) := by
    intro root hroot log hlog
    have hlegal := hroots root hroot
    cases root with
    | noun som =>
      obtain ⟨news, hvisits, hwalk⟩ :=
        walkNoun_tours hheap.boxes hcells rfl honce fuel 0 hlegal hlog
        ((unseen_le _ log).trans_lt hfuel)
      exact ⟨news, _, hvisits, hwalk, fun _ ↦ Nat.zero_add _⟩
    | ptr p => exact hheap.markPtr_tours hlegal.1 hlegal.2 hlog
  exact sumAll_tours (markRoot mat_p fuel) (fun i j hij hj ↦ hij.trans hj) hcells
    (fun root hroot ↦ (hroots root hroot).refs_mem) hmark [] nofun

/-- Without cells on the cell list, a box is an allocation or it is free. -/
theorem Heap.live_or_free (hheap : Heap mat_p r bs) (hcel : r.cel_p = 0) {b : Box} (hb : b ∈ bs) :
    (b.pos + 2 ∈ ptrsOf bs) ∨ (b.state = .free ∧ r.loom (b.pos + 1) = 0) := by
  rcases hheap.state b hb with ⟨len, hstate, _⟩ | hfree | ⟨hstate, _⟩
  · exact .inl (mem_ptrsOf.mpr ⟨b, hb, ⟨len, hstate⟩, rfl⟩)
  · exact .inr hfree
  · obtain ⟨l, hperm, _, hchained⟩ := hheap.cel
    rw [hcel] at hchained
    have hmem : b.pos ∈ l := hperm.mem_iff.mpr (mem_cellsOf.mpr ⟨b, hb, hstate, rfl⟩)
    cases l with
    | nil => exact absurd hmem List.not_mem_nil
    | cons q l => exact absurd hchained.1.symm hchained.2.1

/-- A mark changes no word of a box but its use count. -/
theorem Heap.loom_marked (hheap : Heap mat_p r bs) (hlog : ∀ q ∈ log, q ∈ ptrsOf bs) {b : Box}
    (hb : b ∈ bs) {i : ℕ} (hi : i < 6) (hne : i ≠ 1) :
    (logged markUse r log).loom (b.pos + i) = r.loom (b.pos + i) := by
  refine loom_logged fun hmem ↦ ?_
  obtain ⟨c, hc, _, hpos⟩ := mem_ptrsOf.mp (hlog _ hmem)
  have hb' : 6 ≤ b.siz := hheap.siz b hb
  have hc' : 6 ≤ c.siz := hheap.siz c hc
  rcases hheap.tiles.apart hb hc with rfl | hapart <;> omega

/-- A box that is an allocation is marked if the log has it, and has leaked otherwise. -/
theorem Heap.use_marked (hheap : Heap mat_p r bs) {b : Box} (hmem : b.pos + 2 ∈ ptrsOf bs) :
    (marked (logged markUse r log) b = true ↔ b.pos + 2 ∈ log) ∧
      (leaked (logged markUse r log) b = true ↔ b.pos + 2 ∉ log) := by
  obtain ⟨_, _, hpos, hlt⟩ := hheap.words hmem
  have huse : (logged markUse r log).loom (b.pos + 2 - 2 + 1) =
    changed markUse (r.loom (b.pos + 2 - 2))
      (log.count (b.pos + 2)) (r.loom (b.pos + 2 - 2 + 1)) :=
        use_logged (hheap.boxes.range _ hmem).1
  rw [Nat.add_sub_cancel] at huse hpos hlt
  simp only [marked, leaked, huse, decide_eq_true_eq]
  by_cases hseen : b.pos + 2 ∈ log
  · obtain ⟨count, hcount⟩ := Nat.exists_eq_succ_of_ne_zero (List.count_pos_iff.mpr hseen).ne'
    obtain ⟨hge, _⟩ := @changed_mark_neg (r.loom b.pos) _ hpos hlt count
    rw [hcount, Nat.succ_eq_add_one]
    simp only [hseen, not_true_eq_false, iff_true, iff_false]
    omega
  · rw [List.count_eq_zero_of_not_mem hseen]
    simp only [hseen, not_false_eq_true, iff_true, iff_false]
    show ¬0x80000000 ≤ r.loom (b.pos + 1) ∧ 0 < r.loom (b.pos + 1) ∧ r.loom (b.pos + 1) < 0x80000000
    omega

/-- The use count of a free box is zero after marks. -/
theorem Heap.use_free (hheap : Heap mat_p r bs) (hcel : r.cel_p = 0)
    (hlog : ∀ q ∈ log, q ∈ ptrsOf bs) {b : Box} (hb : b ∈ bs) (hnot : b.pos + 2 ∉ ptrsOf bs) :
    (logged markUse r log).loom (b.pos + 1) = 0 := by
  have hnotin : b.pos + 1 + 1 ∉ log := fun hmem ↦ hnot (hlog _ hmem)
  rw [loom_logged hnotin]
  exact ((hheap.live_or_free hcel hb).resolve_left hnot).2

/-- The sweep after marks. -/
theorem Heap.sweepCount_marked (hheap : Heap mat_p r bs) (hcel : r.cel_p = 0)
    (hlog : ∀ q ∈ log, q ∈ ptrsOf bs) (hfuel : bs.length < fuel) :
    ∃ r' pos_w leq_w, sweepCount fuel (logged markUse r log) =
      .ok (r', pos_w + leq_w, pos_w, leq_w) ∧
      (leq_w = 0 ↔ ∀ p ∈ ptrsOf bs, p ∈ log) ∧
      (leq_w = 0 → r' = swept (logged markUse r log) bs) := by
  set s := logged markUse r log with hs
  have hhead : ∀ b ∈ bs, s.loom b.pos = b.siz := fun b hb ↦
    (hheap.loom_marked hlog hb (i := 0) (by decide) (by decide)).trans (hheap.tagged b hb).1
  have hidle : idle fuel s = some (total (fun b ↦ b.state = .free) bs) := by
    refine idle_eq hhead hfuel fun sel hsel ↦ ?_
    obtain ⟨l, hperm, _, hlinked⟩ := hheap.fre sel hsel
    refine ⟨l, hperm, hlinked.chained.congr fun q hq ↦ ?_⟩
    obtain ⟨c, hc, _, _, rfl⟩ := mem_freeOn.mp (hperm.mem_iff.mp hq)
    exact hheap.loom_marked hlog hc (i := 3) (by decide) (by decide)
  have hahead : Ahead s s bs := ⟨hhead, fun _ _ ↦ rfl, hheap.siz⟩
  have hfre : ∀ sel < fboxNo, s.fre_p sel = 0 ∨ ∃ c ∈ bs, s.fre_p sel = c.pos := by
    intro sel hsel
    obtain ⟨l, hperm, _, hlinked⟩ := hheap.fre sel hsel
    cases l with
    | nil => exact .inl hlinked
    | cons q l =>
      obtain ⟨c, hc, _, _, hpos⟩ := mem_freeOn.mp (hperm.mem_iff.mp List.mem_cons_self)
      exact .inr ⟨c, hc, hlinked.1.trans hpos.symm⟩
  obtain ⟨s', hloop⟩ := sweepLoop_counts hheap.tiles hheap.pos hheap.siz 0 0
      (fun _ h ↦ h) hheap.tiles hfuel
    hahead hfre
  have hsizpos : ∀ b ∈ bs, 0 < b.siz := fun b hb ↦ (by decide : 0 < 6).trans_le (hheap.siz b hb)
  have hdead : ∀ b ∈ bs, b.pos + 2 ∉ ptrsOf bs → marked s b = false ∧ leaked s b = false := by
    intro b hb hnot
    simp [marked, leaked, hs, hheap.use_free hcel hlog hb hnot]
  -- what is not free is marked or has leaked
  have hkinds : ∀ b ∈ bs, (marked s b || leaked s b) = !decide (b.state = .free) := by
    intro b hb
    by_cases hmem : b.pos + 2 ∈ ptrsOf bs
    · obtain ⟨hmark, hleak⟩ : (marked s b = true ↔ b.pos + 2 ∈ log) ∧
          (leaked s b = true ↔ b.pos + 2 ∉ log) := hheap.use_marked hmem
      have hnot : b.state ≠ .free := by
        intro hfree
        obtain ⟨_, _, hpos, _⟩ := hheap.words hmem
        rw [Nat.add_sub_cancel] at hpos
        rcases hheap.state b hb with ⟨len, hstate, _⟩ | ⟨_, huse⟩ | ⟨hstate, _⟩
        · simp [hfree] at hstate
        · omega
        · simp [hfree] at hstate
      simp only [hnot, decide_false, Bool.not_false, Bool.or_eq_true, hmark, hleak]
      exact Decidable.em _
    · obtain ⟨hmark, hleak⟩ := hdead b hb hmem
      simp [hmark, hleak, ((hheap.live_or_free hcel hb).resolve_left hmem).1]
  have hdisjoint : ∀ b ∈ bs, marked s b = true → leaked s b = false := by
    intro b _ hmark
    simp only [marked, decide_eq_true_eq] at hmark
    simp only [leaked, decide_eq_false_iff_not]
    omega
  have hsum : s.high - s.low - total (fun b ↦ b.state = .free) bs =
      total (marked s) bs + total (leaked s) bs := by
    have hall := Tiles.total hheap.tiles
    have hkind : total (fun _ ↦ true) bs =
        total (fun b ↦ decide (b.state = .free) || (marked s b || leaked s b)) bs :=
      total_congr fun b hb ↦ by rw [hkinds b hb]; simp
    rw [hkind, total_or (fun b hb hfree ↦ by rw [hkinds b hb, hfree]; rfl),
      total_or hdisjoint] at hall
    rw [show s.low = r.low from rfl, show s.high = r.high from rfl]
    omega
  have hleaks : total (leaked s) bs = 0 ↔ ∀ b ∈ bs, leaked s b = false := total_eq_zero hsizpos
  refine ⟨s', total (marked s) bs, total (leaked s) bs, ?_, hleaks.trans ?_, fun hnone ↦ ?_⟩
  · unfold sweepCount
    rw [hidle]
    dsimp only
    rw [hsum, show s.low = r.low from rfl, show s.high = r.high from rfl, hloop, ok_bind]
    simp only [Nat.zero_add]
  · constructor
    · intro hnone p hp
      obtain ⟨b, hb, _, rfl⟩ := mem_ptrsOf.mp hp
      by_contra hnot
      have hleak := (hheap.use_marked hp).2.mpr hnot
      rw [hnone b hb] at hleak
      exact Bool.false_ne_true hleak
    · intro hseen b hb
      by_cases hmem : b.pos + 2 ∈ ptrsOf bs
      · by_contra hleak
        exact (hheap.use_marked hmem).2.mp (Bool.of_not_eq_false hleak) (hseen _ hmem)
      · exact (hdead b hb hmem).2
  · have hswept := sweepLoop_swept 0 0 hheap.tiles hfuel hahead (hleaks.mp hnone)
    rw [hloop] at hswept
    exact congrArg Prod.fst (Except.ok.inj hswept)

/-- A road with the use counts that a list of references says. -/
def counted (r : Road) (ptrs references : List ℕ) : Road :=
  { r with loom := fun w ↦ if w + 1 ∈ ptrs then references.count (w + 1) else r.loom w }

/-- When there are no leaks, the sweep leaves the number of marks. -/
theorem Heap.swept_marked (hheap : Heap mat_p r bs) (hcel : r.cel_p = 0)
    (hlog : ∀ q ∈ log, q ∈ ptrsOf bs) (hseen : ∀ p ∈ ptrsOf bs, p ∈ log)
      (hlim : ∀ p, log.count p ≤ 2 ^ 31) :
    swept (logged markUse r log) bs = counted r (ptrsOf bs) log := by
  show Road.mk .. = Road.mk ..
  congr 1
  funext w
  by_cases hw : w + 1 ∈ ptrsOf bs
  · obtain ⟨_, _, hpos, hlt⟩ := hheap.words hw
    have hlow := (hheap.boxes.range _ hw).1
    obtain ⟨b, hb, _, hwb⟩ := mem_ptrsOf.mp hw
    obtain rfl : w = b.pos + 1 := by omega
    have hmark := (hheap.use_marked hw).1.mpr (hseen _ hw)
    have huse : (logged markUse r log).loom (b.pos + 1 + 1 - 2 + 1) = changed markUse _ _ _ :=
      use_logged hlow
    obtain ⟨count, hcount⟩ :=
      Nat.exists_eq_succ_of_ne_zero (List.count_pos_iff.mpr (hseen _ hw)).ne'
    have hle := hlim (b.pos + 1 + 1)
    rw [hcount] at hle
    rw [show b.pos + 1 + 1 - 2 + 1 = b.pos + 1 by omega, hcount, Nat.succ_eq_add_one] at huse
    rw [show b.pos + 1 + 1 - 2 + 1 = b.pos + 1 by omega] at hpos hlt
    rw [changed_mark hpos hlt hle] at huse
    rw [if_pos ⟨b, hb, hmark, rfl⟩, if_pos hw, huse, hcount]
    omega
  · have hnot : ¬∃ b ∈ bs, marked (logged markUse r log) b = true ∧ w = b.pos + 1 := by
      rintro ⟨b, hb, hmark, rfl⟩
      rw [marked, hheap.use_free hcel hlog hb hw] at hmark
      exact absurd hmark (by decide)
    rw [if_neg hnot, if_neg hw]
    exact loom_logged fun hmem ↦ hw (hlog _ hmem)

/-- Mark and sweep: after the roots have been marked, what is live and what has leaked add up to the
heap without the free lists. Nothing has leaked exactly if every allocation can be reached from the
roots; then the use counts are the numbers of references, and nothing else has changed. -/
theorem mark_sweep (hheap : Heap mat_p r bs) (hcel : r.cel_p = 0)
    (hcells : Cells r (ptrsOf bs) cell) {roots : List Root}
    (hroots : ∀ root ∈ roots, root.Legal r (ptrsOf bs) cell) {fuel : ℕ} (hfuel : bs.length < fuel) :
    ∃ reached r₁ siz_w r₂ neg_w pos_w leq_w, reached.Nodup ∧
      (∀ p, p ∈ reached ↔ Reached (next r cell) (roots.flatMap (Root.refs r)) p) ∧
      sumAll (markRoot mat_p fuel) r roots = some (r₁, siz_w) ∧
      sweepCount fuel r₁ = .ok (r₂, neg_w, pos_w, leq_w) ∧ pos_w + leq_w = neg_w ∧
      (leq_w = 0 ↔ ∀ p ∈ ptrsOf bs, p ∈ reached) ∧
      ((∀ p, (arrivals (next r cell) (roots.flatMap (Root.refs r)) reached).count p ≤ 2 ^ 31) →
        siz_w = sizes r reached ∧ (leq_w = 0 → sweep fuel r₁ = .ok (counted r (ptrsOf bs)
          (arrivals (next r cell) (roots.flatMap (Root.refs r)) reached), neg_w))) := by
  have hlen : (ptrsOf bs).length < fuel := by
    rw [ptrsOf, List.length_map]
    exact (List.length_filterMap_le ..).trans_lt hfuel
  obtain ⟨reached, siz_w, hvisits, hmarks, hsiz⟩ := hheap.markAll_tours hcells hroots hlen
  have hseen : seenIn [] = ∅ := by
    ext p
    simp
  rw [hseen] at hvisits
  rw [List.append_nil] at hmarks hsiz
  -- the log of the marks
  set log := arrivals (next r cell) (roots.flatMap (Root.refs r)) reached with hlogdef
  have has : ∀ p ∈ roots.flatMap (Root.refs r), p ∈ ptrsOf bs := by
    intro p hp
    obtain ⟨root, hroot, hmem⟩ := List.mem_flatMap.mp hp
    exact (hroots root hroot).refs_mem p hmem
  have hlog : ∀ q ∈ log, q ∈ ptrsOf bs := hcells.arrivals_mem has hvisits
  have hmem : ∀ p, p ∈ log ↔ p ∈ reached := fun p ↦
    ⟨fun hp ↦ (hvisits.of_arrived p hp).resolve_left (Set.notMem_empty p), hvisits.arrived p⟩
  obtain ⟨r', pos_w, leq_w, hsweep, hleak, hswept⟩ := hheap.sweepCount_marked hcel hlog hfuel
  simp only [hmem] at hleak
  refine ⟨reached, _, siz_w, r', _, pos_w, leq_w, hvisits.fresh.1, fun p ↦
    hvisits.mem_iff, hmarks, hsweep,
    rfl, hleak, fun hlim ↦ ⟨hsiz hlim, fun hnone ↦ ?_⟩⟩
  have hall : ∀ p ∈ ptrsOf bs, p ∈ log := fun p hp ↦ (hmem p).mpr (hleak.mp hnone p hp)
  rw [sweep, hsweep, ok_bind]
  dsimp only
  rw [if_neg (by simp), if_neg (by simp [hnone]), hswept hnone,
    hheap.swept_marked hcel hlog hall hlim]

/-- The boxes of `pairRoad`. -/
def pairBoxes : List Box := [⟨1, 6, .live 3⟩, ⟨7, 6, .live 3⟩]

/-- The roots of `pairRoad` are its cell, and the atom once more. -/
theorem mark_sweep_pair :
    ∃ reached r₁ siz_w r₂ neg_w pos_w leq_w, reached.Nodup ∧
      (∀ p, p ∈ reached ↔ Reached (next pairRoad fun p ↦ p = 3)
        ([.noun 0xc0000003, .ptr 9].flatMap (Root.refs pairRoad)) p) ∧
      sumAll (markRoot 64 3) pairRoad [.noun 0xc0000003, .ptr 9] = some (r₁, siz_w) ∧
      sweepCount 3 r₁ = .ok (r₂, neg_w, pos_w, leq_w) ∧ pos_w + leq_w = neg_w ∧
      (leq_w = 0 ↔ ∀ p ∈ ptrsOf pairBoxes, p ∈ reached) ∧
      ((∀ p, (arrivals (next pairRoad fun p ↦ p = 3)
          ([.noun 0xc0000003, .ptr 9].flatMap (Root.refs pairRoad)) reached).count p ≤ 2 ^ 31) →
        siz_w = sizes pairRoad reached ∧
          (leq_w = 0 → sweep 3 r₁ = .ok (counted pairRoad (ptrsOf pairBoxes)
          (arrivals (next pairRoad fun p ↦ p = 3)
            ([.noun 0xc0000003, .ptr 9].flatMap (Root.refs pairRoad)) reached), neg_w))) := by
  refine mark_sweep pairRoad_heap rfl (by decide) (fun root hroot ↦ ?_) (by decide)
  rcases List.mem_cons.mp hroot with rfl | hroot
  · exact (by decide : IsNoun pairRoad (ptrsOf pairBoxes) (fun p ↦ p = 3) 0xc0000003)
  · obtain rfl := List.mem_singleton.mp hroot
    exact ⟨by decide, by decide⟩

/-- A pointer to the cell before the cell itself: the cell has been seen, and the atom has leaked.
-/
theorem mark_sweep_pointer :
    Heap 64 pairRoad pairBoxes ∧ pairRoad.cel_p = 0 ∧
    Cells pairRoad (ptrsOf pairBoxes) (fun p ↦ p = 3) ∧
      3 ∈ ptrsOf pairBoxes ∧ IsNoun pairRoad (ptrsOf pairBoxes) (fun p ↦ p = 3) 0xc0000003 ∧
      (∀ p ∈ ptrsOf pairBoxes, Reached (next pairRoad fun p ↦ p = 3)
        ([.ptr 3, .noun 0xc0000003].flatMap (Root.refs pairRoad)) p) ∧
      ∃ r₁ siz_w r₂, sumAll (markRoot 64 3) pairRoad [.ptr 3, .noun 0xc0000003] = some (r₁, siz_w) ∧
        sweepCount 3 r₁ = .ok (r₂, 12, 6, 6) ∧ sweep 3 r₁ = .error .assertion := by
  refine ⟨pairRoad_heap, rfl, by decide, by decide, by decide, fun p hp ↦ ?_, _, _, _, rfl,
    rfl, rfl⟩
  have hroot : 3 ∈ [Root.ptr 3, .noun 0xc0000003].flatMap (Root.refs pairRoad) := by decide
  rcases List.mem_cons.mp hp with rfl | hp
  · exact ⟨3, hroot, .refl⟩
  · obtain rfl := List.mem_singleton.mp hp
    have hedge : 9 ∈ next pairRoad (fun p ↦ p = 3) 3 := by decide
    exact ⟨3, hroot, .single hedge⟩

end

end Vere.Noun.Mark
