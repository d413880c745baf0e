import Vere.Noun.AllocateHeap

/-!
# The calls of the allocator

Freeing, allocating and trimming are sequences of the edits of boxes: each keeps a heap, and changes
the allocations as it should.
-/

set_option autoImplicit false

namespace Vere.Noun.Allocate

/-! ### Freeing -/

/-- A box that no call is working on. -/
def Box.Settled (b : Box) : Prop := b.state ≠ .held ∧ ∀ use, b.state ≠ .raw use

variable {b a : Box} {xs ys bs : List Box} {len ald alp siz sel : ℕ} {r r' : Road} {l₁ l₂ : List ℕ}

theorem Box.Ok.tagged {loom : ℕ → ℕ} (hok : b.Ok loom) (hraw : ∀ use, b.state ≠ .raw use) :
    b.Tagged loom := by
  obtain ⟨pos, siz, state⟩ := b
  cases state with
  | live len => exact hok.2.1
  | free => exact hok.2.1
  | cell => exact hok.2.1
  | held => exact hok.2.1
  | raw use => exact absurd rfl (hraw use)

/-- The use count tells whether a box is free. -/
theorem Box.Ok.use_eq_zero_iff {loom : ℕ → ℕ} (hok : b.Ok loom) (hsettled : b.Settled) :
    loom (b.pos + 1) = 0 ↔ b.state = .free := by
  obtain ⟨pos, siz, state⟩ := b
  cases state with
  | live len => simpa using (show loom (pos + 1) ≠ 0 from fun hzero ↦ by simp [hok.2.2.1] at hzero)
  | free => simpa using hok.2.2
  | cell => simpa using (show loom (pos + 1) ≠ 0 from fun hzero ↦ by simp [hok.2.2] at hzero)
  | held => exact absurd rfl hsettled.1
  | raw use => exact absurd rfl (hsettled.2 use)

theorem livesOf_cons_ne (bs : List Box) (hne : ∀ len, b.state ≠ .live len) :
    livesOf (b :: bs) = livesOf bs := by
  obtain ⟨pos, siz, state⟩ := b
  cases state <;> simp_all [livesOf]

/-- The allocations of a heap, without one of the boxes that are not allocations. -/
theorem livesOf_middle (hne : ∀ len, b.state ≠ .live len) :
    livesOf (xs ++ b :: ys) = livesOf (xs ++ ys) := by
  rw [livesOf_append, livesOf_append, livesOf_cons_ne ys hne]

theorem livesOf_cons_self (bs : List Box) (hstate : b.state = .live len) :
    livesOf (b :: bs) = (b.pos + 2, len) :: livesOf bs := by
  simp [livesOf, hstate]

theorem off_held {p n : ℕ} : (⟨p, n, .held⟩ : Box).Off := ⟨by simp, by simp⟩

/-- Two held boxes next to each other become one. -/
theorem Rep.merge (hrep : Rep r (xs ++ a :: b :: ys)) (ha : a.state = .held)
    (hb : b.state = .held) :
    ∃ r', boxMake r a.pos (a.siz + b.siz) 0 = .ok r' ∧ Keeps r r' ∧ r'.cel_p = r.cel_p ∧
      Rep r' (xs ++ ⟨a.pos, a.siz + b.siz, .held⟩ :: ys) ∧ Same (livesOf (xs ++ ys)) r r' := by
  have hsiz := hrep.siz_le (b := a) (by simp)
  rw [show xs ++ a :: b :: ys = xs ++ [a, b] ++ ys by simp] at hrep
  have hmin : minimum ≤ a.siz + b.siz := by
    show 6 ≤ a.siz + b.siz
    omega
  obtain ⟨r', hmake, hkeeps, hcel, hrep', hsame⟩ := hrep.make (by simp [Box.Off, ha, hb])
    ⟨a.pos, a.siz + b.siz, .held⟩ off_held hmin 0
    (fun lo hi ⟨hlo, hpos, hhi⟩ ↦ ⟨hlo.symm, by rw [← hhi, ← hlo, Nat.add_assoc]⟩)
    fun loom htagged huse ↦ ⟨hmin, htagged, huse⟩
  exact ⟨r', hmake, hkeeps, hcel, by simpa using hrep', hsame⟩

theorem Tiles.next_pos {lo hi : ℕ} (htiles : Tiles lo (xs ++ a :: b :: ys) hi) :
    b.pos = a.pos + a.siz := by
  obtain ⟨mid, _, rfl, hpos, _⟩ := Tiles.append_iff.mp htiles
  exact hpos

/-- Coalescing with the box below. -/
theorem Rep.freeBelow (hrep : Rep r (xs ++ a :: b :: ys)) (ha : a.Settled) (hb : b.state = .held) :
    ∃ r' c zs, boxFreeBelow r b.pos = .ok (r', c.pos) ∧ Keeps r r' ∧ r'.cel_p = r.cel_p ∧
      c.state = .held ∧ Rep r' (zs ++ c :: ys) ∧ c.pos + c.siz = b.pos + b.siz ∧
      livesOf zs = livesOf (xs ++ [a]) ∧ cellsOf zs = cellsOf (xs ++ [a]) ∧
      (∀ d ∈ zs, d ∈ xs ++ [a]) ∧
      Same (livesOf (xs ++ a :: ys)) r r' := by
  have hmem : a ∈ xs ++ a :: b :: ys := by simp
  have hpos := hrep.tiles.next_pos
  have hsiz := hrep.siz_le hmem
  have htail := ((hrep.ok a hmem).tagged ha.2).2
  have hlaz : r.loom (b.pos - 1) = a.siz := by rw [hpos, htail]
  have hpox : b.pos - a.siz = a.pos := by omega
  have huse := (hrep.ok a hmem).use_eq_zero_iff ha
  unfold boxFreeBelow
  simp only [hlaz, hpox]
  by_cases hfree : a.state = .free
  · rw [if_pos (huse.mpr hfree)]
    obtain ⟨r₁, hdetach, hkeeps₁, hcel₁, hrep₁, hsame₁⟩ := hrep.detach hfree
    have hhead := ((hrep₁.ok b (by simp)).tagged (by simp [hb])).1
    obtain ⟨r₂, hmake, hkeeps₂, hcel₂, hrep₂, hsame₂⟩ := hrep₁.merge rfl hb
    rw [livesOf_middle (b := b) (by simp [hb])] at hsame₁
    refine ⟨r₂, ⟨a.pos, a.siz + b.siz, .held⟩, xs, ?_, hkeeps₁.trans hkeeps₂,
      hcel₂.trans hcel₁, rfl, hrep₂, ?_, ?_, ?_, ?_, ?_⟩
    · simp only [hdetach, ok_bind, hhead]
      rw [hmake]
      rfl
    · show a.pos + (a.siz + b.siz) = b.pos + b.siz
      omega
    · rw [livesOf_append, livesOf_cons_ne [] (by simp [hfree])]
      simp [livesOf]
    · exact (cellsOf_append xs [a]).symm ▸ by
        rw [cellsOf_cons_ne [] (by simp [hfree])]; simp [cellsOf]
    · exact fun d hd ↦ by simp [hd]
    · rw [livesOf_middle (b := a) (by simp [hfree])]
      exact hsame₁.trans hsame₂
  · rw [if_neg (mt huse.mp hfree)]
    exact ⟨r, b, xs ++ [a], rfl, .refl r, rfl, hb, by simpa using hrep, rfl, rfl, rfl,
      fun d hd ↦ hd, .refl _ r⟩

/-- Coalescing with the box above. -/
theorem Rep.freeAbove (hrep : Rep r (xs ++ a :: b :: ys)) (ha : a.state = .held) (hb : b.Settled) :
    ∃ r' c zs, boxFreeAbove r a.pos = .ok r' ∧ Keeps r r' ∧ r'.cel_p = r.cel_p ∧
      c.state = .held ∧ c.pos = a.pos ∧ Rep r' (xs ++ c :: zs) ∧
      livesOf zs = livesOf (b :: ys) ∧ cellsOf zs = cellsOf (b :: ys) ∧ (∀ d ∈ zs, d ∈ b :: ys) ∧
      Same (livesOf (xs ++ b :: ys)) r r' := by
  have hmem : b ∈ xs ++ a :: b :: ys := by simp
  have hpos := hrep.tiles.next_pos
  have hhead := ((hrep.ok a (by simp)).tagged (by simp [ha])).1
  have huse := (hrep.ok b hmem).use_eq_zero_iff hb
  unfold boxFreeAbove
  simp only [hhead, ← hpos]
  by_cases hfree : b.state = .free
  · rw [if_pos (huse.mpr hfree)]
    rw [show xs ++ a :: b :: ys = (xs ++ [a]) ++ b :: ys by simp] at hrep
    obtain ⟨r₁, hdetach, hkeeps₁, hcel₁, hrep₁, hsame₁⟩ := hrep.detach hfree
    have hheada := ((hrep₁.ok a (by simp)).tagged (by simp [ha])).1
    have hheadb := ((hrep₁.ok ⟨b.pos, b.siz, .held⟩ (by simp)).tagged (by simp)).1
    rw [show (xs ++ [a]) ++ ⟨b.pos, b.siz, .held⟩ :: ys = xs ++ a :: ⟨b.pos, b.siz, .held⟩ :: ys by
      simp] at hrep₁
    obtain ⟨r₂, hmake, hkeeps₂, hcel₂, hrep₂, hsame₂⟩ := hrep₁.merge ha rfl
    rw [List.append_assoc, List.singleton_append, livesOf_middle (b := a) (by simp [ha])] at hsame₁
    refine ⟨r₂, ⟨a.pos, a.siz + b.siz, .held⟩, ys, ?_, hkeeps₁.trans hkeeps₂,
      hcel₂.trans hcel₁, rfl, rfl, hrep₂, ?_, ?_, ?_, ?_⟩
    · simp only [hdetach, ok_bind, hheada, hheadb]
      exact hmake
    · exact (livesOf_cons_ne ys (by simp [hfree])).symm
    · exact (cellsOf_cons_ne ys (by simp [hfree])).symm
    · exact fun d hd ↦ by simp [hd]
    · rw [livesOf_middle (b := b) (by simp [hfree])]
      exact hsame₁.trans hsame₂
  · rw [if_neg (mt huse.mp hfree)]
    exact ⟨r, a, b :: ys, rfl, .refl r, rfl, ha, rfl, hrep, rfl, rfl, fun d hd ↦ hd, .refl _ r⟩

theorem Rep.pos_eq_low_iff (hrep : Rep r (xs ++ b :: ys)) : b.pos = r.low ↔ xs = [] := by
  obtain ⟨mid, hxs, hpos, _⟩ := Tiles.append_iff.mp hrep.tiles
  cases xs with
  | nil => simpa [hpos] using (show r.low = mid from hxs).symm
  | cons a xs =>
    have hsiz := hrep.siz_le (b := a) (by simp)
    have hle := hxs.2.le
    simp only [reduceCtorEq, iff_false]
    omega

theorem Rep.end_eq_high_iff (hrep : Rep r (xs ++ b :: ys)) : b.pos + b.siz = r.high ↔ ys = [] := by
  obtain ⟨mid, _, hpos, hys⟩ := Tiles.append_iff.mp hrep.tiles
  cases ys with
  | nil => simpa [hpos] using (show mid + b.siz = r.high from hys)
  | cons a ys =>
    have hsiz := hrep.siz_le (b := a) (by simp)
    have hle := hys.2.le
    simp only [reduceCtorEq, iff_false]
    omega

/-- A call that keeps the road, other than the hat. -/
structure Stays (r r' : Road) : Prop where
  home : r'.home = r.home
  cap : r'.cap_p = r.cap_p
  rut : r'.rut_p = r.rut_p
  isNorth : r'.isNorth = r.isNorth

theorem Stays.refl (r : Road) : Stays r r := ⟨rfl, rfl, rfl, rfl⟩

theorem Stays.trans {r'' : Road} (hfirst : Stays r r') (hlast : Stays r' r'') : Stays r r'' :=
  ⟨hlast.home.trans hfirst.home, hlast.cap.trans hfirst.cap, hlast.rut.trans hfirst.rut,
    hlast.isNorth.trans hfirst.isNorth⟩

theorem Keeps.stays (hkeeps : Keeps r r') : Stays r r' :=
  ⟨hkeeps.home, hkeeps.cap, hkeeps.rut, hkeeps.isNorth⟩

/-- What is left of a heap when a box is given back. -/
structure Freed (bs : List Box) (r r' : Road) (bs' : List Box) : Prop where
  stays : Stays r r'
  cel : r'.cel_p = r.cel_p
  rep : Rep r' bs'
  settled : ∀ c ∈ bs', c.Settled
  lives : livesOf bs' = livesOf bs
  cells : cellsOf bs' = cellsOf bs

theorem settled_free {p n : ℕ} : (⟨p, n, .free⟩ : Box).Settled := ⟨by simp, by simp⟩

/-- A held box is put on its free list. -/
theorem Rep.attachFreed (hrep : Rep r (xs ++ b :: ys)) (hstate : b.state = .held)
    (hsettled : ∀ c ∈ xs ++ ys, c.Settled) :
    ∃ r' bs, boxAttach r b.pos = .ok r' ∧ Keeps r r' ∧ Freed (xs ++ ys) r r' bs ∧
      Same (livesOf (xs ++ ys)) r r' := by
  obtain ⟨r', hattach, hkeeps, hcel, hrep', hsame⟩ := hrep.attach hstate
  refine ⟨r', _, hattach, hkeeps, ⟨hkeeps.stays, hcel, hrep', ?_, ?_, ?_⟩, hsame⟩
  · intro c hc
    rcases List.mem_append.mp hc with hc | hc
    · exact hsettled c (by simp [hc])
    · rcases List.mem_cons.mp hc with rfl | hc
      · exact settled_free
      · exact hsettled c (by simp [hc])
  · rw [livesOf_append, livesOf_append, livesOf_cons_ne ys (by simp)]
  · rw [cellsOf_append, cellsOf_append, cellsOf_cons_ne ys (by simp)]

/-- `_box_free()` on a north road, once the use count is zero. -/
theorem Rep.freeNorth (hrep : Rep r (xs ++ b :: ys)) (hnorth : r.isNorth = true)
    (hstate : b.state = .held) (hsettled : ∀ c ∈ xs ++ ys, c.Settled) :
    ∃ r' bs, ((if b.pos ≠ r.rut_p then boxFreeBelow r b.pos else .ok (r, b.pos)) >>= fun (r, box) ↦
      boxFreeNorth r box) = .ok r' ∧ Freed (xs ++ ys) r r' bs ∧ Same (livesOf (xs ++ ys)) r r' := by
  have hlow := hrep.pos_eq_low_iff
  rw [Road.low_north hnorth] at hlow
  obtain ⟨r₁, c, zs, hbelow, hkeeps₁, hcel₁, hc, hrep₁, hlives₁, hcells₁, hsub₁, hsame₁⟩ :
      ∃ r₁ c zs, (if b.pos ≠ r.rut_p then boxFreeBelow r b.pos else .ok (r, b.pos)) =
        .ok (r₁, c.pos) ∧ Keeps r r₁ ∧ r₁.cel_p = r.cel_p ∧ c.state = .held ∧
        Rep r₁ (zs ++ c :: ys) ∧ livesOf zs = livesOf xs ∧ cellsOf zs = cellsOf xs ∧
        (∀ d ∈ zs, d ∈ xs) ∧ Same (livesOf (xs ++ ys)) r r₁ := by
    by_cases hnil : xs = []
    · subst hnil
      rw [if_neg (not_not.mpr (hlow.mpr rfl))]
      exact ⟨r, b, [], rfl, .refl r, rfl, hstate, hrep, rfl, rfl, fun d hd ↦ hd, .refl _ r⟩
    · rw [if_pos (mt hlow.mp hnil)]
      obtain ⟨xs', a, rfl⟩ := List.eq_nil_or_concat xs |>.resolve_left hnil
      rw [List.concat_eq_append] at hrep hsettled ⊢
      rw [List.append_assoc] at hrep
      obtain ⟨r₁, c, zs, hbelow, hkeeps, hcel, hc, hrep₁, _, hlives, hcells, hsub, hsame⟩ :=
        hrep.freeBelow (hsettled a (by simp)) hstate
      rw [List.append_assoc]
      exact ⟨r₁, c, zs, hbelow, hkeeps, hcel, hc, hrep₁, hlives, hcells, hsub, hsame⟩
  have hnorth₁ : r₁.isNorth = true := hkeeps₁.isNorth.trans hnorth
  have hhead := ((hrep₁.ok c (by simp)).tagged (by simp [hc])).1
  have hend := hrep₁.end_eq_high_iff
  rw [Road.high_north hnorth₁] at hend
  have hoff : c.Off := by simp [Box.Off, hc]
  have hsettled₁ : ∀ d ∈ zs ++ ys, d.Settled := by
    intro d hd
    rcases List.mem_append.mp hd with hd | hd
    · exact hsettled d (by simp [hsub₁ d hd])
    · exact hsettled d (by simp [hd])
  rw [hbelow, ok_bind]
  simp only [boxFreeNorth, hhead]
  by_cases hlast : ys = []
  · subst hlast
    rw [if_pos (hend.mpr rfl)]
    obtain ⟨hrep₂, hnorth₂⟩ := hrep₁.dropNorth hnorth₁ hoff
    exact ⟨_, zs, rfl, ⟨⟨hkeeps₁.home, hkeeps₁.cap, hkeeps₁.rut, hnorth₂.trans hnorth.symm⟩, hcel₁,
      hrep₂, by simpa using hsettled₁, by simpa using hlives₁, by simpa using hcells₁⟩, hsame₁⟩
  · rw [if_neg (mt hend.mp hlast)]
    obtain ⟨n, ys', rfl⟩ := List.exists_cons_of_ne_nil hlast
    obtain ⟨r₂, d, ws, habove, hkeeps₂, hcel₂, hd, hpos, hrep₂, hlives₂, hcells₂, hsub₂, hsame₂⟩ :=
      hrep₁.freeAbove hc (hsettled n (by simp))
    have hsettled₂ : ∀ e ∈ zs ++ ws, e.Settled := by
      intro e he
      rcases List.mem_append.mp he with he | he
      · exact hsettled₁ e (by simp [he])
      · exact hsettled₁ e (List.mem_append_right zs (hsub₂ e he))
    obtain ⟨r₃, bs, hattach, hkeeps₃, hfreed, hsame₃⟩ := hrep₂.attachFreed hd hsettled₂
    rw [hpos] at hattach
    simp only [habove, ok_bind]
    have hlives : livesOf (zs ++ ws) = livesOf (xs ++ n :: ys') := by
      rw [livesOf_append, livesOf_append, hlives₁, hlives₂]
    have hcells : cellsOf (zs ++ ws) = cellsOf (xs ++ n :: ys') := by
      rw [cellsOf_append, cellsOf_append, hcells₁, hcells₂]
    rw [livesOf_append, hlives₁, ← livesOf_append] at hsame₂
    rw [hlives] at hsame₃
    exact ⟨r₃, bs, hattach, ⟨hkeeps₁.stays.trans (hkeeps₂.stays.trans hfreed.stays),
      hfreed.cel.trans (hcel₂.trans hcel₁), hfreed.rep, hfreed.settled, hfreed.lives.trans hlives,
      hfreed.cells.trans hcells⟩, hsame₁.trans (hsame₂.trans hsame₃)⟩

/-- `_box_free()` on a south road, once the use count is zero. -/
theorem Rep.freeSouth (hrep : Rep r (xs ++ b :: ys)) (hsouth : r.isNorth = false)
    (hstate : b.state = .held) (hsettled : ∀ c ∈ xs ++ ys, c.Settled) :
    ∃ r' bs, ((if b.pos + r.loom b.pos ≠ r.rut_p then boxFreeAbove r b.pos else .ok r) >>= fun r ↦
      boxFreeSouth r b.pos) = .ok r' ∧ Freed (xs ++ ys) r r' bs ∧
      Same (livesOf (xs ++ ys)) r r' := by
  have hend := hrep.end_eq_high_iff
  rw [Road.high_south hsouth] at hend
  have hhead := ((hrep.ok b (by simp)).tagged (by simp [hstate])).1
  rw [hhead]
  obtain ⟨r₁, c, zs, habove, hkeeps₁, hcel₁, hc, hpos, hrep₁, hlives₁, hcells₁, hsub₁, hsame₁⟩ :
      ∃ r₁ c zs, (if b.pos + b.siz ≠ r.rut_p then boxFreeAbove r b.pos else .ok r) = .ok r₁ ∧
        Keeps r r₁ ∧ r₁.cel_p = r.cel_p ∧ c.state = .held ∧ c.pos = b.pos ∧
        Rep r₁ (xs ++ c :: zs) ∧ livesOf zs = livesOf ys ∧ cellsOf zs = cellsOf ys ∧
        (∀ d ∈ zs, d ∈ ys) ∧ Same (livesOf (xs ++ ys)) r r₁ := by
    by_cases hnil : ys = []
    · subst hnil
      rw [if_neg (not_not.mpr (hend.mpr rfl))]
      exact ⟨r, b, [], rfl, .refl r, rfl, hstate, rfl, hrep, rfl, rfl, fun d hd ↦ hd, .refl _ r⟩
    · rw [if_pos (mt hend.mp hnil)]
      obtain ⟨a, ys', rfl⟩ := List.exists_cons_of_ne_nil hnil
      obtain ⟨r₁, c, zs, habove, hkeeps, hcel, hc, hpos, hrep₁, hlives, hcells, hsub, hsame⟩ :=
        hrep.freeAbove hstate (hsettled a (by simp))
      exact ⟨r₁, c, zs, habove, hkeeps, hcel, hc, hpos, hrep₁, hlives, hcells, hsub, hsame⟩
  have hsouth₁ : r₁.isNorth = false := hkeeps₁.isNorth.trans hsouth
  have hhead₁ := ((hrep₁.ok c (by simp)).tagged (by simp [hc])).1
  have hlow := hrep₁.pos_eq_low_iff
  rw [Road.low_south hsouth₁] at hlow
  have hoff : c.Off := by simp [Box.Off, hc]
  have hsettled₁ : ∀ d ∈ xs ++ zs, d.Settled := by
    intro d hd
    rcases List.mem_append.mp hd with hd | hd
    · exact hsettled d (by simp [hd])
    · exact hsettled d (by simp [hsub₁ d hd])
  rw [habove, ok_bind, ← hpos]
  simp only [boxFreeSouth, hhead₁]
  by_cases hfirst : xs = []
  · subst hfirst
    rw [if_pos (hlow.mpr rfl)]
    obtain ⟨hrep₂, hsouth₂⟩ := hrep₁.dropSouth hsouth₁ hoff
    exact ⟨_, zs, rfl, ⟨⟨hkeeps₁.home, hkeeps₁.cap, hkeeps₁.rut, hsouth₂.trans hsouth.symm⟩, hcel₁,
      hrep₂, by simpa using hsettled₁, by simpa using hlives₁, by simpa using hcells₁⟩, hsame₁⟩
  · rw [if_neg (mt hlow.mp hfirst)]
    obtain ⟨xs', a, rfl⟩ := List.eq_nil_or_concat xs |>.resolve_left hfirst
    rw [List.concat_eq_append] at hrep₁ hsettled₁ hsame₁ ⊢
    rw [List.append_assoc] at hrep₁
    obtain ⟨r₂, d, ws, hbelow, hkeeps₂, hcel₂, hd, hrep₂, _, hlives₂, hcells₂, hsub₂, hsame₂⟩ :=
      hrep₁.freeBelow (hsettled₁ a (by simp)) hc
    have hsettled₂ : ∀ e ∈ ws ++ zs, e.Settled := by
      intro e he
      rcases List.mem_append.mp he with he | he
      · exact hsettled₁ e (List.mem_append_left zs (hsub₂ e he))
      · exact hsettled₁ e (by simp [he])
    obtain ⟨r₃, bs, hattach, hkeeps₃, hfreed, hsame₃⟩ := hrep₂.attachFreed hd hsettled₂
    simp only [hbelow, ok_bind]
    have hlives : livesOf (ws ++ zs) = livesOf (xs' ++ [a] ++ ys) := by
      rw [livesOf_append, livesOf_append, hlives₁, hlives₂]
    have hcells : cellsOf (ws ++ zs) = cellsOf (xs' ++ [a] ++ ys) := by
      rw [cellsOf_append, cellsOf_append, hcells₁, hcells₂]
    rw [List.append_cons, livesOf_append, hlives₁, ← livesOf_append] at hsame₂
    rw [hlives] at hsame₃
    exact ⟨r₃, bs, hattach, ⟨hkeeps₁.stays.trans (hkeeps₂.stays.trans hfreed.stays),
      hfreed.cel.trans (hcel₂.trans hcel₁), hfreed.rep, hfreed.settled, hfreed.lives.trans hlives,
      hfreed.cells.trans hcells⟩, hsame₁.trans (hsame₂.trans hsame₃)⟩

/-- Writing a word of a box does not change the other allocations. -/
theorem Rep.same_put (hrep : Rep r (xs ++ b :: ys)) {i v : ℕ} (hi : i < b.siz) :
    Same (livesOf (xs ++ ys)) r (r.put (b.pos + i) v) := by
  refine hrep.same (fun c hc ↦ ?_) fun c hc _ j _ hj ↦ ?_
  · rcases List.mem_append.mp hc with hc | hc <;> simp [hc]
  · obtain ⟨hbefore, hafter⟩ := hrep.tiles.around
    have hne : c.pos + j ≠ b.pos + i := by
      rcases List.mem_append.mp hc with hc | hc
      · have hle := hbefore c hc
        omega
      · have hle := hafter c hc
        omega
    exact Function.update_of_ne hne ..

/-- `_box_free()` gives an allocation back to the heap. -/
theorem Rep.free (hrep : Rep r (xs ++ b :: ys)) (hstate : b.state = .live len)
    (hsettled : ∀ c ∈ xs ++ ys, c.Settled) :
    ∃ r' bs, boxFree r b.pos = .ok r' ∧ Freed (xs ++ ys) r r' bs ∧
    Same (livesOf (xs ++ ys)) r r' := by
  have hb : b ∈ xs ++ b :: ys := by simp
  have hsiz := hrep.siz_le hb
  have hlive := (hrep.ok b hb).2
  rw [hstate] at hlive
  obtain ⟨⟨hhead, htail⟩, huse, _⟩ := hlive
  -- the use count becomes zero
  have hrep₀ : Rep (r.put (b.pos + 1) 0) (xs ++ ⟨b.pos, b.siz, .held⟩ :: ys) := by
    rw [show xs ++ b :: ys = xs ++ [b] ++ ys by simp] at hrep
    have hreplaced := hrep.replace [⟨b.pos, b.siz, .held⟩] (r.put (b.pos + 1) 0).loom
      (by simp [Box.Off, hstate]) (by simpa using off_held)
        (fun lo hi ⟨hlo, hhi⟩ ↦ ⟨hlo, hhi⟩) ?_ ?_
    · rw [List.append_assoc] at hreplaced
      exact hreplaced
    · simp only [List.mem_singleton, forall_eq]
      have hne : b.pos + b.siz - 1 ≠ b.pos + 1 := by omega
      refine ⟨hsiz, ⟨?_, ?_⟩, Function.update_self ..⟩
      · exact (Function.update_of_ne (by simp) ..).trans hhead
      · exact (Function.update_of_ne hne ..).trans htail
    · intro w hw
      have hout := hw b (by simp)
      exact Function.update_of_ne (by omega) ..
  have hzero : (r.put (b.pos + 1) 0).loom (b.pos + 1) = 0 := Function.update_self ..
  have hsame₀ : Same (livesOf (xs ++ ys)) r (r.put (b.pos + 1) 0) := hrep.same_put (by omega)
  unfold boxFree
  rw [if_neg (by omega), huse]
  simp only [Nat.sub_self, hzero, ne_eq, not_true_eq_false, if_false]
  cases hnorth : (r.put (b.pos + 1) 0).isNorth with
  | true =>
    obtain ⟨r', bs, hfree, hfreed, hsame⟩ := hrep₀.freeNorth hnorth rfl hsettled
    exact ⟨r', bs, hfree, ⟨⟨hfreed.stays.home, hfreed.stays.cap, hfreed.stays.rut,
      hfreed.stays.isNorth⟩, hfreed.cel, hfreed.rep, hfreed.settled, hfreed.lives, hfreed.cells⟩,
      hsame₀.trans hsame⟩
  | false =>
    obtain ⟨r', bs, hfree, hfreed, hsame⟩ := hrep₀.freeSouth hnorth rfl hsettled
    exact ⟨r', bs, hfree, ⟨⟨hfreed.stays.home, hfreed.stays.cap, hfreed.stays.rut,
      hfreed.stays.isNorth⟩, hfreed.cel, hfreed.rep, hfreed.settled, hfreed.lives, hfreed.cells⟩,
      hsame₀.trans hsame⟩

/-- What a call does to the allocations. -/
structure Kept (r r' : Road) (lives : List (ℕ × ℕ)) (bs' : List Box) : Prop where
  stays : Stays r r'
  rep : Rep r' bs'
  settled : ∀ c ∈ bs', c.Settled
  lives : (livesOf bs').Perm lives

/-- `u3a_reflux()` gives cells back to the heap. -/
theorem Rep.reflux_loop (hrep : Rep r bs) (hsettled : ∀ c ∈ bs, c.Settled) (left : ℕ) :
    ∃ r' bs', refluxLoop left r = .ok r' ∧ Kept r r' (livesOf bs) bs' ∧
      (cellsOf bs').length = (cellsOf bs).length - left ∧ Same (livesOf bs) r r' := by
  induction left generalizing r bs with
  | zero => exact ⟨r, bs, rfl, ⟨.refl r, hrep, hsettled, .refl _⟩, rfl, .refl _ r⟩
  | succ left ih =>
    by_cases hnull : r.cel_p = 0
    · have hnone : cellsOf bs = [] := by
        obtain ⟨l, hperm, hchained⟩ := hrep.cel
        cases l with
        | nil => exact hperm.symm.eq_nil
        | cons q l =>
          obtain ⟨hhed, hne, _⟩ := hchained
          exact absurd (hhed.symm.trans hnull) hne
      refine ⟨r, bs, by rw [refluxLoop, if_pos hnull], ⟨.refl r, hrep, hsettled, .refl _⟩, ?_,
        .refl _ r⟩
      simp [hnone]
    · obtain ⟨xs, b, ys, rfl, hstate, hpos, _, hpop⟩ := hrep.popCell hnull
      have hsettled' : ∀ c ∈ xs ++ ys, c.Settled := by
        intro c hc
        rcases List.mem_append.mp hc with hc | hc <;> exact hsettled c (by simp [hc])
      obtain ⟨r₁, bs₁, hfree, hfreed, hsame₁⟩ := (hpop 0 (by decide)).free rfl hsettled'
      obtain ⟨r₂, bs₂, hloop, hkept, hcells, hsame₂⟩ := ih hfreed.rep hfreed.settled
      have hlives : livesOf (xs ++ b :: ys) = livesOf (xs ++ ys) :=
        livesOf_middle (by simp [hstate])
      rw [hfreed.lives] at hsame₂
      refine ⟨r₂, bs₂, ?_, ⟨?_, hkept.rep, hkept.settled, ?_⟩, ?_,
        hlives ▸ Same.trans hsame₁ hsame₂⟩
      · rw [refluxLoop, if_neg hnull, ← hpos]
        rw [← hpos] at hfree
        rw [hfree, ok_bind, hloop]
      · exact Stays.trans ⟨hfreed.stays.home, hfreed.stays.cap, hfreed.stays.rut,
          hfreed.stays.isNorth⟩ hkept.stays
      · refine hkept.lives.trans ?_
        rw [hfreed.lives, livesOf_append, livesOf_append, livesOf_cons_ne ys (by simp [hstate])]
      · rw [hcells, hfreed.cells, cellsOf_append, cellsOf_append, cellsOf_cons_self ys hstate]
        simp
        omega

/-! ### Allocating -/

theorem meAlignPad_one {pos : ℕ} (hlt : pos < 2 ^ 32) : meAlignPad pos 1 0 = 0 := by
  have hand : pos &&& (2 ^ 32 - 1) = pos := by
    rw [Nat.and_two_pow_sub_one_eq_mod, Nat.mod_eq_of_lt hlt]
  unfold meAlignPad
  dsimp only
  have hoff : (pos + (1 + 2 ^ 32 - (0 + 1)) % 2 ^ 32) % 2 ^ 32 = pos := by omega
  rw [hoff, Nat.sub_self, Nat.sub_zero, hand]
  omega

theorem meAlignDap_one {pos : ℕ} (hlt : pos < 2 ^ 32) : meAlignDap pos 1 0 = 0 := by
  have hand : pos &&& (2 ^ 32 - 1) = pos := by
    rw [Nat.and_two_pow_sub_one_eq_mod, Nat.mod_eq_of_lt hlt]
  unfold meAlignDap
  dsimp only
  have hoff : (pos + 2 ^ 32 - 0) % 2 ^ 32 = pos := by omega
  rw [hoff, Nat.sub_self, Nat.sub_zero, hand]
  omega

/-- `_box_make()` makes an allocation of a box on no list. -/
theorem Rep.makeLive (hrep : Rep r (xs ++ b :: ys)) (hoff : b.Off) (hlen : len + 3 ≤ b.siz) :
    ∃ r', boxMake r b.pos b.siz 1 = .ok r' ∧ Keeps r r' ∧ r'.cel_p = r.cel_p ∧
      Rep r' (xs ++ ⟨b.pos, b.siz, .live len⟩ :: ys) ∧ Same (livesOf (xs ++ ys)) r r' := by
  have hsiz : minimum ≤ b.siz := hrep.siz_le (by simp)
  rw [show xs ++ b :: ys = xs ++ [b] ++ ys by simp] at hrep
  obtain ⟨r', hmake, hkeeps, hcel, hrep', hsame⟩ := hrep.make (by simpa using hoff)
    ⟨b.pos, b.siz, .live len⟩ ⟨by simp, by simp⟩ hsiz 1
    (fun lo hi ⟨hlo, hhi⟩ ↦ ⟨hlo.symm, by rw [← hhi, hlo]⟩)
    fun loom htagged huse ↦ ⟨hsiz, htagged, huse, hlen⟩
  rw [List.append_assoc] at hrep'
  exact ⟨r', hmake, hkeeps, hcel, hrep', hsame⟩

/-- Where a heap has one more allocation. -/
theorem kept_of_live (hstays : Stays r r') (hrep : Rep r' (xs ++ ⟨b.pos, b.siz, .live len⟩ :: ys))
    (hsettled : ∀ c ∈ xs ++ ys, c.Settled) :
    Kept r r' ((b.pos + 2, len) :: livesOf (xs ++ ys)) (xs ++ ⟨b.pos, b.siz, .live len⟩ :: ys) := by
  refine ⟨hstays, hrep, fun c hc ↦ ?_, ?_⟩
  · rcases List.mem_append.mp hc with hc | hc
    · exact hsettled c (by simp [hc])
    · rcases List.mem_cons.mp hc with rfl | hc
      · exact ⟨by simp, by simp⟩
      · exact hsettled c (by simp [hc])
  · rw [livesOf_append, livesOf_append,
      livesOf_cons_self (b := ⟨b.pos, b.siz, .live len⟩) ys rfl]
    exact List.perm_middle

/-- The padding of a box on the hat. -/
def hatPad (r : Road) (siz ald alp : ℕ) : ℕ :=
  if r.isNorth then meAlignPad r.hat_p ald alp
    else meAlignDap ((r.hat_p + 2 ^ 32 - siz) % 2 ^ 32) ald alp

/-- Where a box on the hat is. -/
def hatBox (r : Road) (siz : ℕ) : ℕ := if r.isNorth then r.hat_p else r.hat_p - siz

/-- The hat has room for a box. -/
def HatRoom (r : Road) (siz : ℕ) : Prop :=
  siz < if r.isNorth then r.cap_p - r.hat_p else r.hat_p - r.cap_p

instance (r : Road) (siz : ℕ) : Decidable (HatRoom r siz) := Nat.decLt ..

/-- `_ca_box_make_hat()` has no room, or makes an allocation. -/
theorem Rep.makeHat (hrep : Rep r bs) (hsettled : ∀ c ∈ bs, c.Settled) {z : ℕ}
    (hz : siz + hatPad r siz ald alp = z) (hmin : minimum ≤ siz) (hlen : len + 3 ≤ z)
    (hword : z < 2 ^ 32) :
    (¬HatRoom r z ∧ caBoxMakeHat r siz ald alp 1 = .ok none) ∨
      (HatRoom r z ∧ ∃ r' bs', caBoxMakeHat r siz ald alp 1 = .ok (some (r', hatBox r z)) ∧
        Kept r r' ((hatBox r z + 2, len) :: livesOf bs) bs' ∧ Same (livesOf bs) r r' ∧
        r'.loom (hatBox r z) = z) := by
  have hcap := hrep.cap_le
  have hrut := hrep.rut_le
  have hminz : minimum ≤ z := by omega
  unfold HatRoom caBoxMakeHat hatBox
  unfold hatPad at hz
  cases hnorth : r.isNorth with
  | true =>
    have hhat := Road.isNorth_iff.mp hnorth
    rw [hnorth, if_pos rfl] at hz
    rw [if_pos rfl, if_pos rfl, if_pos rfl]
    dsimp only
    rw [hz, Nat.mod_eq_of_lt hword]
    by_cases hroom : r.cap_p - r.hat_p ≤ z
    · exact .inl ⟨by omega, if_pos hroom⟩
    · refine .inr ⟨by omega, ?_⟩
      rw [if_neg hroom]
      have hgrown := hrep.growNorth hnorth hminz (by omega)
      obtain ⟨r', hmake, hkeeps, _, hrep', hsame⟩ := hgrown.makeLive off_raw hlen
      have hnorth' : Road.isNorth { r with hat_p := r.hat_p + z } = true :=
        Road.isNorth_iff.mpr (by show r.hat_p + z < r.cap_p; omega)
      have hkept := kept_of_live (r := r) (b := ⟨r.hat_p, z, .held⟩)
        ⟨hkeeps.home, hkeeps.cap, hkeeps.rut, by rw [hkeeps.isNorth, hnorth', hnorth]⟩ hrep'
        (by simpa using hsettled)
      rw [List.append_nil] at hkept hsame
      exact ⟨r', _, by rw [hmake]; rfl, hkept, hsame,
        (hrep'.ok ⟨r.hat_p, z, .live len⟩ (by simp)).2.1.1⟩
  | false =>
    have hhat := Road.isNorth_eq_false.mp hnorth
    have hhatle : r.hat_p ≤ 2 ^ 30 := by
      have hle := hrep.tiles.le
      rw [Road.low_south hnorth, Road.high_south hnorth] at hle
      omega
    rw [hnorth, if_neg Bool.false_ne_true] at hz
    rw [if_neg Bool.false_ne_true, if_neg Bool.false_ne_true, if_neg Bool.false_ne_true]
    dsimp only
    rw [hz, Nat.mod_eq_of_lt hword]
    by_cases hroom : r.hat_p - r.cap_p ≤ z
    · exact .inl ⟨by omega, if_pos hroom⟩
    · refine .inr ⟨by omega, ?_⟩
      rw [if_neg hroom]
      have hpos : ((r.hat_p + 2 ^ 32 - siz) % 2 ^ 32 + 2 ^ 32 -
          meAlignDap ((r.hat_p + 2 ^ 32 - siz) % 2 ^ 32) ald alp) % 2 ^ 32 = r.hat_p - z := by
        generalize meAlignDap ((r.hat_p + 2 ^ 32 - siz) % 2 ^ 32) ald alp = pad at hz
        omega
      rw [hpos]
      have hgrown := hrep.growSouth hnorth hminz (by omega)
      obtain ⟨r', hmake, hkeeps, _, hrep', hsame⟩ :=
        (show Rep _ ([] ++ _ :: bs) from hgrown).makeLive off_raw hlen
      have hsouth' : Road.isNorth { r with hat_p := r.hat_p - z } = false :=
        Road.isNorth_eq_false.mpr (by show r.cap_p ≤ r.hat_p - z; omega)
      have hstays : Stays r r' :=
        ⟨hkeeps.home, hkeeps.cap, hkeeps.rut, by rw [hkeeps.isNorth, hsouth', hnorth]⟩
      have hkept := kept_of_live (b := ⟨r.hat_p - z, z, .held⟩) hstays hrep'
        (by simpa using hsettled)
      exact ⟨r', _, by rw [hmake]; rfl, hkept, hsame,
        (hrep'.ok ⟨r.hat_p - z, z, .live len⟩ (by simp)).2.1.1⟩

/-- A box on no list is cut in two. -/
theorem Rep.cut (hrep : Rep r (xs ++ b :: ys)) (hoff : b.Off) {k : ℕ} (hleft : minimum ≤ k)
    (hright : minimum ≤ b.siz - k) :
    Rep r (xs ++ ⟨b.pos, k, .raw (r.loom (b.pos + 1))⟩ ::
      ⟨b.pos + k, b.siz - k, .raw (r.loom (b.pos + k + 1))⟩ :: ys) := by
  have hmin : 0 < minimum := by decide
  rw [show xs ++ b :: ys = xs ++ [b] ++ ys by simp] at hrep
  have hcut := hrep.replace [⟨b.pos, k, .raw (r.loom (b.pos + 1))⟩,
    ⟨b.pos + k, b.siz - k, .raw (r.loom (b.pos + k + 1))⟩] r.loom (by simpa using hoff)
    (by simp [Box.Off]) ?_ ?_ fun w _ ↦ rfl
  · rw [List.append_assoc] at hcut
    exact hcut
  · rintro lo hi ⟨hlo, hhi⟩
    refine ⟨hlo, by rw [← hlo], ?_⟩
    show lo + k + (b.siz - k) = hi
    rw [← (show lo + b.siz = hi from hhi)]
    omega
  · intro c hc
    rcases List.mem_cons.mp hc with rfl | hc
    · exact ⟨hleft, rfl⟩
    · obtain rfl := List.mem_singleton.mp hc
      exact ⟨hright, rfl⟩

/-- The second of two boxes on no list is made and put on its free list. -/
theorem Rep.chop (hrep : Rep r (xs ++ a :: b :: ys)) (hoff : b.Off) :
    ∃ r₁ r₂, boxMake r b.pos b.siz 0 = .ok r₁ ∧ boxAttach r₁ b.pos = .ok r₂ ∧ Keeps r r₂ ∧
      r₂.cel_p = r.cel_p ∧ Rep r₂ (xs ++ a :: ⟨b.pos, b.siz, .free⟩ :: ys) ∧
      Same (livesOf (xs ++ a :: ys)) r r₂ := by
  have hsiz : minimum ≤ b.siz := hrep.siz_le (by simp)
  rw [show xs ++ a :: b :: ys = (xs ++ [a]) ++ [b] ++ ys by simp] at hrep
  obtain ⟨r₁, hmake, hkeeps₁, hcel₁, hrep₁, hsame₁⟩ := hrep.make (by simpa using hoff)
    ⟨b.pos, b.siz, .held⟩ off_held hsiz 0
    (fun lo hi ⟨hlo, hhi⟩ ↦ ⟨hlo.symm, by rw [← hhi, hlo]⟩)
    fun loom htagged huse ↦ ⟨hsiz, htagged, huse⟩
  rw [List.append_assoc] at hrep₁
  obtain ⟨r₂, hattach, hkeeps₂, hcel₂, hrep₂, hsame₂⟩ := hrep₁.attach rfl
  rw [List.append_assoc] at hsame₁ hsame₂ hrep₂
  exact ⟨r₁, r₂, hmake, hattach, hkeeps₁.trans hkeeps₂, hcel₂.trans hcel₁, hrep₂,
    hsame₁.trans hsame₂⟩

/-- The use count of a held box becomes one. -/
theorem Rep.use (hrep : Rep r (xs ++ b :: ys)) (hstate : b.state = .held) (hlen : len + 3 ≤ b.siz) :
    Rep (r.put (b.pos + 1) 1) (xs ++ ⟨b.pos, b.siz, .live len⟩ :: ys) ∧
      Same (livesOf (xs ++ ys)) r (r.put (b.pos + 1) 1) := by
  have hb : b ∈ xs ++ b :: ys := by simp
  have hsame := hrep.same_put (i := 1) (v := 1) (by have hsiz := hrep.siz_le hb; omega)
  have hsiz := hrep.siz_le hb
  have hheld := (hrep.ok b hb).2
  rw [hstate] at hheld
  obtain ⟨⟨hhead, htail⟩, _⟩ := hheld
  rw [show xs ++ b :: ys = xs ++ [b] ++ ys by simp] at hrep
  have hused := hrep.replace [⟨b.pos, b.siz, .live len⟩] (r.put (b.pos + 1) 1).loom
    (by simp [Box.Off, hstate]) (by simp [Box.Off]) (fun lo hi ⟨hlo, hhi⟩ ↦ ⟨hlo, hhi⟩) ?_ ?_
  · rw [List.append_assoc] at hused
    exact ⟨hused, hsame⟩
  · simp only [List.mem_singleton, forall_eq]
    have hne : b.pos + b.siz - 1 ≠ b.pos + 1 := by omega
    refine ⟨hsiz, ⟨?_, ?_⟩, Function.update_self .., hlen⟩
    · exact (Function.update_of_ne (by simp) ..).trans hhead
    · exact (Function.update_of_ne hne ..).trans htail
  · intro w hw
    have hout := hw b (by simp)
    exact Function.update_of_ne (by omega) ..

/-- Where a search of a free list is: the boxes passed, and the link that is read next. -/
def passed (sel : ℕ) (l : List ℕ) : Ref :=
  match l.getLast? with
  | none => .fre sel
  | some p => .nex p

/-- The link that is read next leads to the next box of the list. -/
theorem get_passed
    (hlinked : Lib.Linked 0 (fun p ↦ r.loom (p + 2)) (fun p ↦ r.loom (p + 3)) 0 (r.fre_p sel)
      (l₁ ++ l₂)) : r.get (passed sel l₁) = l₂.headD 0 := by
  rcases List.eq_nil_or_concat l₁ with rfl | ⟨l, p, rfl⟩
  · exact hlinked.head_eq
  · rw [List.concat_eq_append] at hlinked ⊢
    rw [passed, List.getLast?_concat]
    rw [List.append_assoc] at hlinked
    exact hlinked.nex_eq.1

/-- The links that `_ca_willoc()` writes take a box off its list. -/
theorem detached_passed {box : ℕ}
    (hlinked : Lib.Linked 0 (fun p ↦ r.loom (p + 2)) (fun p ↦ r.loom (p + 3)) 0 (r.fre_p sel)
      (l₁ ++ box :: l₂)) (hslot : boxSlot (r.loom box) = sel) :
    Detached r ((if r.loom (box + 3) ≠ 0 then r.put (r.loom (box + 3) + 2) (r.loom (box + 2))
      else r).set (r.loom (box + 3)) (passed sel l₁)) box := by
  have hpre := hlinked.pre_eq.1
  generalize hnex : r.loom (box + 3) = nex
  rcases List.eq_nil_or_concat l₁ with rfl | ⟨l, p, rfl⟩
  · -- the first of the list
    have hzero : r.loom (box + 2) = 0 := hpre
    subst hslot
    by_cases hnull : nex = 0
    · rw [if_neg (not_not.mpr hnull)]
      refine ⟨⟨rfl, rfl, rfl, rfl⟩, rfl, ?_, fun w ↦ ?_⟩
      · rw [if_pos hzero, hnex]
        rfl
      · rw [if_neg (by simp [hzero]), if_neg (by simp [hnex, hnull])]
        rfl
    · rw [if_pos hnull]
      refine ⟨⟨rfl, rfl, rfl, rfl⟩, rfl, ?_, fun w ↦ ?_⟩
      · rw [if_pos hzero, hnex]
        rfl
      · rw [if_neg (by simp [hzero]), hnex]
        simp only [ne_eq, hnull, not_false_eq_true, true_and]
        exact Function.update_apply ..
  · -- after another box
    rw [List.concat_eq_append] at hlinked hpre ⊢
    have hp : r.loom (box + 2) = p := by rw [hpre, List.getLastD_concat]
    have hne : p ≠ 0 := hlinked.ne_null (by simp)
    have hpassed : passed sel (l ++ [p]) = .nex p := by rw [passed, List.getLast?_concat]
    rw [hpassed, hp]
    by_cases hnull : nex = 0
    · rw [if_neg (not_not.mpr hnull)]
      refine ⟨⟨rfl, rfl, rfl, rfl⟩, rfl, ?_, fun w ↦ ?_⟩
      · rw [if_neg (hp ▸ hne)]
        rfl
      · rw [hp, hnex]
        simp only [ne_eq, hne, hnull, not_false_eq_true, true_and, not_true_eq_false, false_and,
          if_false]
        exact Function.update_apply ..
    · rw [if_pos hnull]
      refine ⟨⟨rfl, rfl, rfl, rfl⟩, rfl, ?_, fun w ↦ ?_⟩
      · rw [if_neg (hp ▸ hne)]
        rfl
      · rw [hp, hnex]
        simp only [ne_eq, hne, hnull, not_false_eq_true, true_and, Road.set, Road.loom_put,
          Function.update_apply]

theorem Rep.end_le_loom (hrep : Rep r bs) (hb : b ∈ bs) : b.pos + b.siz ≤ 2 ^ 30 := by
  have hcap := hrep.cap_le
  have hrut := hrep.rut_le
  have hle := (hrep.tiles.mem hb).2
  cases hnorth : r.isNorth with
  | true =>
    have hhat := Road.isNorth_iff.mp hnorth
    rw [Road.high_north hnorth] at hle
    omega
  | false =>
    rw [Road.high_south hnorth] at hle
    omega

/-- The size of an allocation of `siz` words in a free box of `old` words: another box is chopped
off if there is room for one. -/
def takenSize (siz old : ℕ) : ℕ := if siz + minimum ≤ old then siz else old

/-- `_ca_willoc()` makes an allocation of a free box of adequate size. -/
theorem Rep.take (hrep : Rep r bs) (hsettled : ∀ c ∈ bs, c.Settled) {box : ℕ}
    (hperm : (l₁ ++ box :: l₂).Perm (freeOn bs sel))
    (hlinked : Lib.Linked 0 (fun p ↦ r.loom (p + 2)) (fun p ↦ r.loom (p + 3)) 0 (r.fre_p sel)
      (l₁ ++ box :: l₂)) (hmin : minimum ≤ siz) (hlen : len + 3 ≤ takenSize siz (r.loom box))
    (hfits : siz ≤ r.loom box) :
    ∃ r' bs', caWillocTake r (passed sel l₁) siz = .ok (r', box + 2) ∧
      Kept r r' ((box + 2, len) :: livesOf bs) bs' ∧ Same (livesOf bs) r r' ∧
      r'.loom box = takenSize siz (r.loom box) := by
  obtain ⟨b, hb, hstate, hslot, rfl⟩ := mem_freeOn.mp (hperm.mem_iff.mp (by simp : box ∈ _))
  have hhead := ((hrep.ok b hb).tagged (by simp [hstate])).1
  have hhigh := hrep.end_le_loom hb
  obtain ⟨xs, ys, rfl⟩ := List.append_of_mem hb
  have hsettled' : ∀ c ∈ xs ++ ys, c.Settled := by
    intro c hc
    rcases List.mem_append.mp hc with hc | hc <;> exact hsettled c (by simp [hc])
  have hlives : livesOf (xs ++ b :: ys) = livesOf (xs ++ ys) := by
    rw [livesOf_append, livesOf_append, livesOf_cons_ne ys (by simp [hstate])]
  obtain ⟨hagrees, hunlink⟩ := hrep.unlink hstate
  have hdetached := detached_passed hlinked (hhead ▸ hslot)
  have hget : r.get (passed sel l₁) = b.pos := get_passed hlinked
  unfold caWillocTake
  simp only [hget]
  rw [if_neg fun hbad ↦ hbad.2 (hagrees.forth hbad.1),
    if_neg fun hbad ↦ hbad.2 (hagrees.back hbad.1)]
  generalize Road.set _ _ _ = r₁ at hdetached ⊢
  obtain ⟨hrep₁, hsame₁⟩ := hunlink r₁ hdetached
  have hheld := (hrep₁.ok ⟨b.pos, b.siz, .held⟩ (by simp)).2
  have hhead₁ : r₁.loom b.pos = b.siz := hheld.1.1
  have huse₁ : r₁.loom (b.pos + 1) = 0 := hheld.2
  have hmin' : minimum = 6 := rfl
  have hstays := hdetached.keeps.stays
  simp only [hhead₁]
  rw [hhead] at hfits hlen ⊢
  rw [hlives]
  unfold takenSize at hlen ⊢
  rw [Nat.mod_eq_of_lt (by omega)]
  by_cases hroom : siz + minimum ≤ b.siz
  · rw [if_pos hroom] at hlen ⊢
    rw [if_pos hroom]
    have hcut := hrep₁.cut off_held hmin (k := siz) (by
      show minimum ≤ b.siz - siz
      omega)
    obtain ⟨r₂, r₃, hmake₂, hattach, hkeeps₃, _, hrep₃, hsame₃⟩ := hcut.chop off_raw
    obtain ⟨r₄, hmake₄, hkeeps₄, _, hrep₄, hsame₄⟩ := hrep₃.makeLive off_raw hlen
    rw [livesOf_middle (by simp)] at hsame₃ hsame₄
    have hsettled₄ : ∀ c ∈ xs ++ ⟨b.pos + siz, b.siz - siz, .free⟩ :: ys, c.Settled := by
      intro c hc
      rcases List.mem_append.mp hc with hc | hc
      · exact hsettled' c (by simp [hc])
      · rcases List.mem_cons.mp hc with rfl | hc
        · exact settled_free
        · exact hsettled' c (by simp [hc])
    have hkept := kept_of_live (b := ⟨b.pos, siz, .held⟩)
      (hstays.trans (hkeeps₃.stays.trans hkeeps₄.stays)) hrep₄ hsettled₄
    refine ⟨r₄, _, ?_, ⟨hkept.stays, hkept.rep, hkept.settled, hkept.lives.trans (.of_eq ?_)⟩,
      hsame₁.trans (hsame₃.trans hsame₄), (hrep₄.ok ⟨b.pos, siz, .live len⟩ (by simp)).2.1.1⟩
    · simp only [hmake₂, ok_bind, hattach, hmake₄]
    · rw [livesOf_middle (by simp)]
  · rw [if_neg hroom] at hlen ⊢
    rw [if_neg hroom, if_neg (not_not.mpr huse₁)]
    obtain ⟨hrep₂, hsame₂⟩ := hrep₁.use rfl hlen
    have hstays₂ : Stays r (r₁.put (b.pos + 1) 1) :=
      ⟨hstays.home, hstays.cap, hstays.rut, hstays.isNorth⟩
    exact ⟨_, _, rfl, kept_of_live (b := b) hstays₂ hrep₂ hsettled', hsame₁.trans hsame₂,
      (hrep₂.ok ⟨b.pos, b.siz, .live len⟩ (by simp)).2.1.1⟩

/-- What a call that allocates does: it returns an allocation, or there is no room for one. -/
def Allocates (r : Road) (len : ℕ) (lives : List (ℕ × ℕ)) :
    Except Fault (Road × ℕ) → Prop
  | .ok (r', p) => ∃ bs', Kept r r' ((p, len) :: lives) bs'
  | .error e => e ≠ .assertion

theorem Allocates.trans {r₁ : Road} {lives lives₁ : List (ℕ × ℕ)} {res : Except Fault (Road × ℕ)}
    (hstays : Stays r r₁) (hlives : lives₁.Perm lives) (halloc : Allocates r₁ len lives₁ res) :
    Allocates r len lives res := by
  cases res with
  | error e => exact halloc
  | ok res =>
    obtain ⟨bs', hkept⟩ := halloc
    exact ⟨bs', hstays.trans hkept.stays, hkept.rep, hkept.settled,
      hkept.lives.trans (hlives.cons (res.2, len))⟩

theorem caWillocSize_eq (hlen : len + 3 < 2 ^ 32) : caWillocSize len = max minimum (len + 3) := by
  have hmin : minimum < 2 ^ 32 := by decide
  rw [caWillocSize, Nat.mod_eq_of_lt (max_lt hmin hlen)]

theorem caWillocSlot_lt (len : ℕ) : caWillocSlot len < fboxNo := by
  have hlt := boxSlot_lt (caWillocSize len)
  unfold caWillocSlot
  dsimp only
  split_ifs with hmid
  · unfold fboxNo at *
    omega
  · exact hlt

/-- A phase of an alignment: what it is padded by, upwards and downwards. -/
structure Phase (ald alp : ℕ) : Prop where
  pad : ∀ pos < 2 ^ 32, meAlignPad pos ald alp < ald
  dap : ∀ pos < 2 ^ 32, meAlignDap pos ald alp < ald
  zero : ∀ pos < 2 ^ 32, meAlignDap pos ald alp ≤ pos →
    meAlignPad (pos - meAlignDap pos ald alp) ald alp = 0

theorem phase_one : Phase 1 0 where
  pad := by
    intro pos hlt
    rw [meAlignPad_one hlt]
    decide
  dap := by
    intro pos hlt
    rw [meAlignDap_one hlt]
    decide
  zero := fun pos hlt _ ↦ meAlignPad_one (by omega)

/-- There is room for a box, with the padding of its place: in a free box on the lists from `sel`
on, or on the hat. -/
def Ready (r : Road) (bs : List Box) (siz ald alp sel : ℕ) : Prop :=
  (∃ b ∈ bs, b.state = .free ∧ sel ≤ boxSlot b.siz ∧ siz + meAlignPad b.pos ald alp ≤ b.siz) ∨
    HatRoom r (siz + hatPad r siz ald alp)

/-- An allocation of the whole of a box, which has room for the padding of its place. -/
structure Takes (r : Road) (siz ald alp : ℕ) (lives : List (ℕ × ℕ)) (r' : Road) (bs' : List Box)
    (pos z : ℕ) : Prop where
  head : r'.loom pos = z
  fits : siz + meAlignPad pos ald alp ≤ z
  kept : Kept r r' ((pos + 2, z - 3) :: lives) bs'
  same : Same lives r r'

theorem takenSize_ge {old : ℕ} (hle : siz ≤ old) : siz ≤ takenSize siz old := by
  unfold takenSize
  split_ifs <;> omega

theorem Rep.hat_lt (hrep : Rep r bs) : r.hat_p < 2 ^ 32 := by
  have hcap := hrep.cap_le
  have hrut := hrep.rut_le
  have hle := hrep.tiles.le
  cases hnorth : r.isNorth with
  | true =>
    have hhat := Road.isNorth_iff.mp hnorth
    omega
  | false =>
    rw [Road.low_south hnorth, Road.high_south hnorth] at hle
    omega

theorem Phase.hatPad_lt (hphase : Phase ald alp) (hrep : Rep r bs) :
    hatPad r siz ald alp < ald := by
  unfold hatPad
  split_ifs with hnorth
  · exact hphase.pad _ hrep.hat_lt
  · exact hphase.dap _ (Nat.mod_lt _ (by decide))

/-- A box on the hat has the padding of where it is: on a south road it is where there is none. -/
theorem Phase.hatBox_pad (hphase : Phase ald alp) (hrep : Rep r bs)
    (hroom : HatRoom r (siz + hatPad r siz ald alp)) :
    meAlignPad (hatBox r (siz + hatPad r siz ald alp)) ald alp ≤ hatPad r siz ald alp := by
  have hhat := hrep.hat_lt
  unfold HatRoom at hroom
  unfold hatBox
  unfold hatPad at hroom ⊢
  cases hnorth : r.isNorth with
  | true =>
    rw [if_pos rfl, if_pos rfl]
  | false =>
    simp only [hnorth, Bool.false_eq_true, if_false] at hroom ⊢
    have hwrap : (r.hat_p + 2 ^ 32 - siz) % 2 ^ 32 = r.hat_p - siz := by omega
    rw [hwrap] at hroom ⊢
    have hzero := hphase.zero (r.hat_p - siz) (by omega) (by omega)
    rw [← Nat.sub_sub, hzero]
    exact Nat.zero_le _

/-- A search of `_ca_willoc()`, over the free lists from some place on and then the hat: it makes an
allocation, or there is no room and it starts again in the next phase. -/
theorem Rep.pass (reclaim : Road → Except Fault Road) (hphase : Phase ald alp)
    (hlen : len + 3 < 2 ^ 32) (hword : caWillocSize len + ald ≤ 2 ^ 32) (hrep : Rep r bs)
    (hsettled : ∀ c ∈ bs, c.Settled) (hsel : sel < fboxNo) (hperm : (l₁ ++ l₂).Perm (freeOn bs sel))
    (hlinked : Lib.Linked 0 (fun p ↦ r.loom (p + 2)) (fun p ↦ r.loom (p + 3)) 0 (r.fre_p sel)
      (l₁ ++ l₂)) :
    ∃ steps, (∀ fuel < steps, caWillocScan reclaim len ald fuel r alp sel (passed sel l₁) =
      .error .steps) ∧
      ((∃ r' bs' pos z, Takes r (caWillocSize len) ald alp (livesOf bs) r' bs' pos z ∧
          ∀ more, caWillocScan reclaim len ald (more + steps) r alp sel (passed sel l₁) = .ok (r',
          pos + 2)) ∨
        ((∀ p ∈ l₂, r.loom p < caWillocSize len + meAlignPad p ald alp) ∧
          ¬Ready r bs (caWillocSize len) ald alp (sel + 1) ∧
          ∀ more, caWillocScan reclaim len ald (more + steps) r alp sel (passed sel l₁) = do
            let r ← if r.cel_p ≠ 0 then reflux r else reclaim r
            caWillocScan reclaim len ald more r ((alp + 2) % ald) (caWillocSlot len)
              (.fre (caWillocSlot len)))) := by
  have hmin : minimum ≤ caWillocSize len := caWillocSize_eq hlen ▸ le_max_left ..
  have hmin' : 6 ≤ caWillocSize len := hmin
  have hzero : ∀ sel pfr_p, ∀ fuel < 1, caWillocScan reclaim len ald fuel r alp sel pfr_p =
      .error .steps := by
    intro sel pfr_p fuel hfuel
    obtain rfl : fuel = 0 := by omega
    rfl
  -- a step to another place
  have hstep : ∀ {sel sel' pfr_p pfr_p'} {steps : ℕ}, (∀ fuel, caWillocScan reclaim len ald
    (fuel + 1) r alp sel
      pfr_p = caWillocScan reclaim len ald fuel r alp sel' pfr_p') →
      (∀ fuel < steps, caWillocScan reclaim len ald fuel r alp sel' pfr_p' = .error .steps) →
        ∀ fuel < steps + 1, caWillocScan reclaim len ald fuel r alp sel pfr_p = .error .steps := by
    intro sel sel' pfr_p pfr_p' steps hnext hfew fuel hfuel
    cases fuel with
    | zero => rfl
    | succ fuel => rw [hnext, hfew fuel (by omega)]
  obtain ⟨left, hleft⟩ : ∃ left, left = fboxNo - sel := ⟨_, rfl⟩
  induction left generalizing sel l₁ l₂ with
  | zero => omega
  | succ left ihleft =>
    induction l₂ generalizing l₁ with
    | nil =>
      have hget : r.get (passed sel l₁) = 0 := get_passed hlinked
      by_cases hlast : sel < fboxNo - 1
      · obtain ⟨l, hperm', hlinked'⟩ := hrep.fre (sel + 1) (by omega)
        rw [← List.nil_append l] at hperm' hlinked'
        have hnext : ∀ fuel, caWillocScan reclaim len ald (fuel + 1) r alp sel (passed sel l₁) =
            caWillocScan reclaim len ald fuel r alp (sel + 1) (passed (sel + 1) []) := by
          intro fuel
          rw [caWillocScan, if_pos hget, if_pos hlast]
          rfl
        obtain ⟨steps, hfew, htakes | ⟨hsmall, hready, hagain⟩⟩ :=
          ihleft (by omega) hperm' hlinked' (by omega)
        · obtain ⟨r', bs', pos, z, htakes, hscan⟩ := htakes
          exact ⟨steps + 1, hstep hnext hfew,
            .inl ⟨r', bs', pos, z, htakes, fun more ↦ (hnext _).trans (hscan more)⟩⟩
        · refine ⟨steps + 1, hstep hnext hfew,
            .inr ⟨by simp, ?_, fun more ↦ (hnext _).trans (hagain more)⟩⟩
          rintro (⟨b, hb, hstate, hslot, hfits⟩ | hroom)
          · rcases Nat.eq_or_lt_of_le hslot with hslot | hslot
            · have hmem := hperm'.mem_iff.mpr (mem_freeOn.mpr ⟨b, hb, hstate, hslot.symm, rfl⟩)
              have hhead := ((hrep.ok b hb).tagged (by simp [hstate])).1
              have hlt := hsmall b.pos hmem
              omega
            · exact hready (.inl ⟨b, hb, hstate, hslot, hfits⟩)
          · exact hready (.inr hroom)
      · have hpad : hatPad r (caWillocSize len) ald alp < ald := hphase.hatPad_lt hrep
        have hroomy : caWillocSize len + hatPad r (caWillocSize len) ald alp - 3 + 3 ≤
            caWillocSize len + hatPad r (caWillocSize len) ald alp := by omega
        refine ⟨1, hzero _ _, ?_⟩
        rcases hrep.makeHat hsettled rfl hmin hroomy (by omega) with
          ⟨hroom, hnone⟩ | ⟨hroom, r', bs', hsome, hkept, hsame, hz⟩
        · refine .inr ⟨by simp, ?_, fun more ↦ ?_⟩
          · rintro (⟨b, hb, hstate, hslot, hfits⟩ | hroom')
            · have hlt := boxSlot_lt b.siz
              omega
            · exact hroom hroom'
          · rw [caWillocScan, if_pos hget, if_neg hlast, hnone, ok_bind]
        · refine .inl ⟨r', bs', _, _, ⟨hz, ?_, hkept, hsame⟩, fun more ↦ ?_⟩
          · exact Nat.add_le_add_left (hphase.hatBox_pad hrep hroom) _
          · rw [caWillocScan, if_pos hget, if_neg hlast, hsome, ok_bind]
    | cons box l₂ ihlist =>
      have hbox : r.get (passed sel l₁) = box := get_passed hlinked
      obtain ⟨b, hb, hstate, _, hpos⟩ := mem_freeOn.mp (hperm.mem_iff.mp (by simp : box ∈ _))
      have hne : r.get (passed sel l₁) ≠ 0 := by rw [hbox]; exact hpos ▸ hrep.pos_ne_zero hb
      have hpad : meAlignPad box ald alp < ald := by
        have hhigh := hrep.end_le_loom hb
        exact hphase.pad _ (by omega)
      have hassert : ¬(ald = 1 ∧ meAlignPad box ald alp ≠ 0) := by omega
      have hscan : ∀ fuel, caWillocScan reclaim len ald (fuel + 1) r alp sel (passed sel l₁) =
          if r.loom box < caWillocSize len + meAlignPad box ald alp then
            caWillocScan reclaim len ald fuel r alp sel (.nex box)
          else caWillocTake r (passed sel l₁) (caWillocSize len + meAlignPad box ald alp) := by
        intro fuel
        rw [caWillocScan, if_neg hne]
        simp only [hbox, if_neg hassert]
        rw [Nat.mod_eq_of_lt (show caWillocSize len + meAlignPad box ald alp < 2 ^ 32 by omega)]
      by_cases hsmall : r.loom box < caWillocSize len + meAlignPad box ald alp
      · rw [show l₁ ++ box :: l₂ = l₁ ++ [box] ++ l₂ by simp] at hperm hlinked
        have hnext : ∀ fuel, caWillocScan reclaim len ald (fuel + 1) r alp sel (passed sel l₁) =
            caWillocScan reclaim len ald fuel r alp sel (passed sel (l₁ ++ [box])) := by
          intro fuel
          rw [hscan, if_pos hsmall, show Ref.nex box = passed sel (l₁ ++ [box]) by
            rw [passed, List.getLast?_concat]]
        obtain ⟨steps, hfew, htakes | ⟨hothers, hready, hagain⟩⟩ := ihlist hperm hlinked
        · obtain ⟨r', bs', pos, z, htakes, hends⟩ := htakes
          exact ⟨steps + 1, hstep hnext hfew,
            .inl ⟨r', bs', pos, z, htakes, fun more ↦ (hnext _).trans (hends more)⟩⟩
        · exact ⟨steps + 1, hstep hnext hfew,
            .inr ⟨List.forall_mem_cons.mpr ⟨hsmall, hothers⟩, hready,
            fun more ↦ (hnext _).trans (hagain more)⟩⟩
      · have hadequate : caWillocSize len + meAlignPad box ald alp ≤ r.loom box :=
          Nat.not_lt.mp hsmall
        have hge := takenSize_ge hadequate
        obtain ⟨r', bs', htake, hkept, hsame, hz⟩ := hrep.take hsettled hperm hlinked
          (by omega : minimum ≤ caWillocSize len + meAlignPad box ald alp)
          (Nat.le_of_eq (Nat.sub_add_cancel (by omega : 3 ≤ takenSize _ (r.loom box)))) hadequate
        refine ⟨1, hzero _ _, .inl ⟨r', bs', box, _, ⟨hz, hge, hkept, hsame⟩, fun more ↦ ?_⟩⟩
        rw [hscan, if_neg hsmall, htake]

/-- Where there is room, the search makes an allocation in the phase that it starts with. -/
theorem Rep.scan_ready (reclaim : Road → Except Fault Road) (hphase : Phase ald alp)
    (hlen : len + 3 < 2 ^ 32) (hword : caWillocSize len + ald ≤ 2 ^ 32) (hrep : Rep r bs)
    (hsettled : ∀ c ∈ bs, c.Settled)
    (hready : Ready r bs (caWillocSize len) ald alp (caWillocSlot len)) :
    ∃ steps r' bs' pos z, Takes r (caWillocSize len) ald alp (livesOf bs) r' bs' pos z ∧
      ∀ fuel, caWillocScan reclaim len ald fuel r alp (caWillocSlot len) (.fre (caWillocSlot len)) =
        if fuel < steps then .error .steps else .ok (r', pos + 2) := by
  obtain ⟨l, hperm, hlinked⟩ := hrep.fre (caWillocSlot len) (caWillocSlot_lt len)
  rw [← List.nil_append l] at hperm hlinked
  obtain ⟨steps, hfew, ⟨r', bs', pos, z, htakes, hends⟩ | ⟨hsmall, hnone, -⟩⟩ :=
    hrep.pass reclaim hphase hlen hword hsettled (caWillocSlot_lt len) hperm hlinked
  · refine ⟨steps, r', bs', pos, z, htakes, fun fuel ↦ ?_⟩
    split_ifs with hfuel
    · exact hfew fuel hfuel
    · obtain ⟨more, rfl⟩ := Nat.exists_eq_add_of_le' (Nat.not_lt.mp hfuel)
      exact hends more
  · rcases hready with ⟨b, hb, hstate, hslot, hfits⟩ | hroom
    · rcases Nat.eq_or_lt_of_le hslot with hslot | hslot
      · have hmem := hperm.mem_iff.mpr (mem_freeOn.mpr ⟨b, hb, hstate, hslot.symm, rfl⟩)
        have hhead := ((hrep.ok b hb).tagged (by simp [hstate])).1
        have hlt := hsmall b.pos hmem
        omega
      · exact absurd (.inl ⟨b, hb, hstate, hslot, hfits⟩) hnone
    · exact absurd (.inr hroom) hnone

/-- An allocation can be taken for a shorter one. -/
theorem Rep.shorten {len' : ℕ} (hrep : Rep r (xs ++ b :: ys)) (hstate : b.state = .live len)
    (hle : len' ≤ len) : Rep r (xs ++ ⟨b.pos, b.siz, .live len'⟩ :: ys) := by
  have hb : b ∈ xs ++ b :: ys := by simp
  have hlive := hrep.ok b hb
  rw [Box.Ok, hstate] at hlive
  obtain ⟨hsiz, htagged, huse, hlen⟩ := hlive
  rw [show xs ++ b :: ys = xs ++ [b] ++ ys by simp] at hrep
  have hshort := hrep.replace [⟨b.pos, b.siz, .live len'⟩] r.loom (by simp [Box.Off, hstate])
    (by simp [Box.Off]) (fun lo hi h ↦ ⟨h.1, h.2⟩) ?_ fun w _ ↦ rfl
  · rw [List.append_assoc] at hshort
    exact hshort
  · simp only [List.mem_singleton, forall_eq]
    exact ⟨hsiz, htagged, huse, by show len' + 3 ≤ b.siz; omega⟩

/-- What was found is an allocation of the length that was asked for. -/
theorem Takes.allocates {pos z : ℕ} {lives : List (ℕ × ℕ)} {bs' : List Box} (hlen : len + 3 ≤ siz)
    (htakes : Takes r siz ald alp lives r' bs' pos z) :
    Allocates r len lives (.ok (r', pos + 2)) := by
  obtain ⟨-, hfits, hkept, -⟩ := htakes
  obtain ⟨b, hb, hstate, hpos⟩ := mem_livesOf.mp (hkept.lives.mem_iff.mpr List.mem_cons_self)
  replace hstate : b.state = .live (z - 3) := hstate
  obtain rfl : pos = b.pos := Nat.add_right_cancel hpos
  obtain ⟨xs, ys, rfl⟩ := List.append_of_mem hb
  have hsettled : ∀ c ∈ xs ++ ys, c.Settled := by
    intro c hc
    rcases List.mem_append.mp hc with hc | hc <;> exact hkept.settled c (by simp [hc])
  have hkept' :=
    kept_of_live hkept.stays (hkept.rep.shorten hstate (by omega : len ≤ z - 3)) hsettled
  refine ⟨_, hkept'.stays, hkept'.rep, hkept'.settled, hkept'.lives.trans ?_⟩
  have hlives := hkept.lives
  rw [livesOf_append, livesOf_cons_self ys hstate] at hlives
  rw [livesOf_append]
  exact (List.perm_middle.symm.trans hlives).cons_inv.cons _

/-- `u3a_walloc()` makes an allocation, or bails, and with enough fuel comes to an end. -/
theorem Rep.walloc_run (hlen : len + 3 < 2 ^ 32) (hrep : Rep r bs)
    (hsettled : ∀ c ∈ bs, c.Settled) :
    ∃ need, ∀ fuel, Allocates r len (livesOf bs) (Allocate.walloc fuel r len) ∧
      (need ≤ fuel → Allocate.walloc fuel r len ≠ .error .steps) := by
  have hsize := caWillocSize_eq hlen
  have hword : caWillocSize len + 1 ≤ 2 ^ 32 := hsize ▸ max_lt (by decide) hlen
  obtain ⟨cells, hcells⟩ : ∃ cells, cells = (cellsOf bs).length := ⟨_, rfl⟩
  induction cells using Nat.strongRecOn generalizing r bs with
  | _ cells ih =>
    obtain ⟨l, hperm, hlinked⟩ := hrep.fre (caWillocSlot len) (caWillocSlot_lt len)
    rw [← List.nil_append l] at hperm hlinked
    obtain ⟨steps, hfew, hpass⟩ :=
      hrep.pass caReclaimHalf phase_one hlen hword hsettled (caWillocSlot_lt len) hperm hlinked
    -- the last step of the search, by the fuel that is left
    have hrun : ∀ next : ℕ → Except Fault (Road × ℕ),
        (∀ more, Allocate.walloc (more + steps) r len = next more) →
        (∃ need, ∀ more, Allocates r len (livesOf bs) (next more) ∧
        (need ≤ more → next more ≠ .error .steps)) →
        ∃ need, ∀ fuel, Allocates r len (livesOf bs) (Allocate.walloc fuel r len) ∧
          (need ≤ fuel → Allocate.walloc fuel r len ≠ .error .steps) := by
      rintro next hnext ⟨need, hneed⟩
      refine ⟨need + steps, fun fuel ↦ ?_⟩
      by_cases hfuel : fuel < steps
      · rw [show Allocate.walloc fuel r len = .error .steps from hfew fuel hfuel]
        exact ⟨by simp [Allocates], fun hle ↦ absurd hfuel (by omega)⟩
      · obtain ⟨more, rfl⟩ := Nat.exists_eq_add_of_le' (Nat.not_lt.mp hfuel)
        rw [hnext]
        exact ⟨(hneed more).1, fun hle ↦ (hneed more).2 (by omega)⟩
    rcases hpass with ⟨r', bs', pos, z, htakes, hends⟩ | ⟨-, -, hagain⟩
    · exact hrun (fun _ ↦ .ok (r', pos + 2)) hends
        ⟨0, fun _ ↦ ⟨htakes.allocates (hsize ▸ le_max_right ..), by simp⟩⟩
    · by_cases hcel : r.cel_p = 0
      · refine hrun (fun _ ↦ .error .meme) (fun more ↦ (hagain more).trans ?_)
          ⟨0, fun _ ↦ ⟨by simp [Allocates], by simp⟩⟩
        simp [hcel, caReclaimHalf, bind, Except.bind]
      · obtain ⟨r₁, bs₁, hreflux, hkept, hless, -⟩ := hrep.reflux_loop hsettled 1024
        have hreflux' : reflux r = .ok r₁ := hreflux
        obtain ⟨cels, hcels, hchained⟩ := hrep.cel
        have hsome : cels ≠ [] := by
          rintro rfl
          exact hcel hchained.head_eq
        have hpos := List.length_pos_iff.mpr hsome
        have hlength := hcels.length_eq
        obtain ⟨need, hneed⟩ := ih _ (by omega) hkept.rep hkept.settled rfl
        refine hrun (fun more ↦ Allocate.walloc more r₁ len) (fun more ↦ (hagain more).trans ?_)
          ⟨need, fun more ↦ ⟨.trans hkept.stays hkept.lives (hneed more).1, (hneed more).2⟩⟩
        simp only [ne_eq, hcel, not_false_eq_true, if_true, hreflux', ok_bind]
        rfl

/-- `u3a_walloc()` makes an allocation, or bails. -/
theorem Rep.walloc (hrep : Rep r bs) (hsettled : ∀ c ∈ bs, c.Settled) (fuel : ℕ)
    (hlen : len + 3 < 2 ^ 32) : Allocates r len (livesOf bs) (walloc fuel r len) := by
  obtain ⟨need, hneed⟩ := hrep.walloc_run hlen hsettled
  exact (hneed fuel).1

/-- With enough fuel `u3a_walloc()` comes to an end. -/
theorem Rep.walloc_ends (hlen : len + 3 < 2 ^ 32) (hrep : Rep r bs)
    (hsettled : ∀ c ∈ bs, c.Settled) :
    ∃ need, ∀ fuel, need ≤ fuel → Allocate.walloc fuel r len ≠ .error .steps := by
  obtain ⟨need, hneed⟩ := hrep.walloc_run hlen hsettled
  exact ⟨need, fun fuel ↦ (hneed fuel).2⟩

/-! ### Trimming -/

/-- `u3a_wtrim()` shortens an allocation. -/
theorem Rep.trim {r : Road} {xs ys : List Box} {b : Box} {old len : ℕ}
    (hrep : Rep r (xs ++ b :: ys)) (hstate : b.state = .live old)
    (hsettled : ∀ c ∈ xs ++ ys, c.Settled) (hlen : len < old → minimum ≤ old - len → 3 ≤ len) :
    ∃ r' bs', wtrim r (b.pos + 2) old len = .ok r' ∧
      Kept r r' ((b.pos + 2, min old len) :: livesOf (xs ++ ys)) bs' := by
  have hb : b ∈ xs ++ b :: ys := by simp
  have hlive := hrep.ok b hb
  rw [Box.Ok, hstate] at hlive
  obtain ⟨_, ⟨hhead, _⟩, huse, holdlen⟩ := hlive
  have hmin : minimum = 6 := rfl
  unfold wtrim
  by_cases htrim : len < old ∧ minimum ≤ old - len
  · have hthree := hlen htrim.1 htrim.2
    have hbox : b.pos + 2 - 2 = b.pos := by omega
    have hasz : b.pos + 2 + len + 1 - b.pos = len + 3 := by omega
    have hend : b.pos + 2 + len + 1 = b.pos + (len + 3) := by omega
    rw [if_pos htrim, Nat.min_eq_right (by omega), hbox]
    dsimp only
    rw [hasz, hend, hhead]
    have hcut := hrep.cut (by simp [Box.Off, hstate]) (k := len + 3) (by omega) (by omega)
    obtain ⟨r₁, r₂, hmake, hattach, hkeeps, _, hrep₂, _⟩ := hcut.chop off_raw
    have hraw : r₂.loom (b.pos + 1) = 1 :=
      ((hrep₂.ok ⟨b.pos, len + 3, .raw _⟩ (by simp)).2).trans huse
    -- the size words of what is kept
    have hput : Rep ((r₂.put b.pos (len + 3)).put (b.pos + (len + 3) - 1) (len + 3))
        (xs ++ ⟨b.pos, len + 3, .live len⟩ :: ⟨b.pos + (len + 3), b.siz - (len + 3),
        .free⟩ :: ys) := by
      rw [← List.singleton_append, ← List.append_assoc] at hrep₂
      have hkept := hrep₂.replace [⟨b.pos, len + 3, .live len⟩]
        ((r₂.put b.pos (len + 3)).put (b.pos + (len + 3) - 1) (len + 3)).loom
        (by simp [Box.Off]) (by simp [Box.Off]) (fun lo hi h ↦ ⟨h.1, h.2⟩) ?_ ?_
      · rw [List.append_assoc] at hkept
        exact hkept
      · simp only [List.mem_singleton, forall_eq]
        refine ⟨by show 6 ≤ len + 3; omega, ⟨?_, Function.update_self ..⟩, ?_, Nat.le_refl _⟩
        · exact (Function.update_of_ne (show b.pos ≠ b.pos + (len + 3) - 1 by omega) ..).trans
            (Function.update_self ..)
        · exact (Function.update_of_ne (show b.pos + 1 ≠ b.pos + (len + 3) - 1 by omega) ..).trans
            ((Function.update_of_ne (by simp) ..).trans hraw)
      · intro w hw
        have hout : w < b.pos ∨ b.pos + (len + 3) ≤ w := hw _ (List.mem_singleton_self _)
        exact (Function.update_of_ne (by omega) ..).trans (Function.update_of_ne (by omega) ..)
    have hsettled' : ∀ c ∈ xs ++ ⟨b.pos + (len + 3), b.siz - (len + 3),
        .free⟩ :: ys, c.Settled := by
      intro c hc
      rcases List.mem_append.mp hc with hc | hc
      · exact hsettled c (by simp [hc])
      · rcases List.mem_cons.mp hc with rfl | hc
        · exact settled_free
        · exact hsettled c (by simp [hc])
    have hstays : Stays r ((r₂.put b.pos (len + 3)).put (b.pos + (len + 3) - 1) (len + 3)) :=
      ⟨hkeeps.home, hkeeps.cap, hkeeps.rut, hkeeps.isNorth⟩
    have hkept := kept_of_live (b := ⟨b.pos, len + 3, .held⟩) hstays hput hsettled'
    refine ⟨_, _, ?_, hkept.stays, hkept.rep, hkept.settled, hkept.lives.trans (.of_eq ?_)⟩
    · rw [hmake, ok_bind, hattach, ok_bind]
    · rw [livesOf_append, livesOf_append, livesOf_cons_ne ys (by simp)]
  · rw [if_neg htrim]
    exact ⟨r, _, rfl, kept_of_live (b := b) (.refl r)
      (hrep.shorten hstate (Nat.min_le_left old len)) hsettled⟩

end Vere.Noun.Allocate
