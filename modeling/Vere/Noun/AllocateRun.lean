import Vere.Noun.AllocateCalls

/-!
# Runs of the allocator

`BoxInvariant` is what holds of a road between calls, and `run_boxInvariant` says that it holds
after every sequence of calls. Two kinds of calls are left out: an allocation whose box would not
fit in a word, and a trim to less than the minimum box. `run_short` is a run with a call of the
first kind.
-/

set_option autoImplicit false

namespace Vere.Noun.Allocate

open Lib

/-! ### Cells -/

theorem settled_cell {p n : ℕ} : (⟨p, n, .cell⟩ : Box).Settled := ⟨by simp, by simp⟩

variable {b : Box} {r : Road} {xs ys bs : List Box} {len : ℕ} {live : List (ℕ × ℕ)}

/-- A box of `u3a_cellblock()` goes on the cell list. -/
theorem Rep.cellBox {cel : ℕ} (hrep : Rep { r with cel_p := cel } (xs ++ b :: ys)) (hoff : b.Off)
    (hsiz : b.siz = minimum) :
    Rep { cellblockBox r b.pos cel with cel_p := b.pos } (xs ++ ⟨b.pos, b.siz, .cell⟩ :: ys) := by
  have hlen : 3 + 3 ≤ b.siz := by
    rw [hsiz]
    decide
  obtain ⟨r', hmake, _, _, hrep', _⟩ := hrep.makeLive hoff hlen
  rw [hsiz, boxMake, if_neg (by decide)] at hmake
  obtain rfl := Except.ok.inj hmake
  exact hrep'.pushCell rfl

theorem Rep.cellblock_north (left : ℕ) (r : Road) (hat cel : ℕ) {use : ℕ}
    (hsettled : ∀ c ∈ bs, c.Settled) (hrep : Rep { r with cel_p := cel }
      (bs ++ [⟨hat, (left + 1) * minimum, .raw use⟩])) :
    ∃ s box bs', cellblockNorth (left + 1) r hat cel = (s, box) ∧ Keeps r s ∧ box ≠ 0 ∧
      Rep { s with cel_p := box } bs' ∧ (∀ c ∈ bs', c.Settled) ∧ livesOf bs' = livesOf bs := by
  induction left generalizing r bs hat cel use with
  | zero =>
    have hcell := hrep.cellBox off_raw (by simp)
    refine ⟨_, _, _, rfl, ⟨rfl, rfl, rfl, rfl⟩,
      hrep.pos_ne_zero (List.mem_append_right bs (List.mem_singleton_self _)), hcell, ?_, ?_⟩
    · intro c hc
      rcases List.mem_append.mp hc with hc | hc
      · exact hsettled c hc
      · obtain rfl := List.mem_singleton.mp hc
        exact settled_cell
    · rw [livesOf_append, livesOf_cons_ne [] (by simp)]
      simp [livesOf]
  | succ left ih =>
    have hrest : (left + 1 + 1) * minimum - minimum = (left + 1) * minimum := by
      rw [Nat.add_mul (left + 1) 1, Nat.one_mul, Nat.add_sub_cancel]
    have hcut := hrep.cut off_raw (k := minimum) (Nat.le_refl _)
      (hrest ▸ Nat.le_mul_of_pos_left minimum (Nat.succ_pos left))
    have hcell := hcut.cellBox off_raw rfl
    simp only [hrest] at hcell
    rw [← List.singleton_append, ← List.append_assoc] at hcell
    have hsettled' : ∀ c ∈ bs ++ [⟨hat, minimum, .cell⟩], c.Settled := by
      intro c hc
      rcases List.mem_append.mp hc with hc | hc
      · exact hsettled c hc
      · obtain rfl := List.mem_singleton.mp hc
        exact settled_cell
    obtain ⟨s, box, bs', hloop, hkeeps, hne, hrep', hsettled'', hlives⟩ := ih _ _ _ hsettled' hcell
    refine ⟨s, box, bs', hloop, ⟨hkeeps.home, hkeeps.cap, hkeeps.hat, hkeeps.rut⟩, hne, hrep',
      hsettled'', hlives.trans ?_⟩
    rw [livesOf_append, livesOf_cons_ne [] (by simp)]
    simp [livesOf]

theorem Rep.cellblock_south (left : ℕ) (r : Road) (hat cel : ℕ) {use : ℕ}
    (hsettled : ∀ c ∈ bs, c.Settled) (hhat : (left + 1) * minimum ≤ hat)
    (hrep : Rep { r with cel_p := cel }
      (⟨hat - (left + 1) * minimum, (left + 1) * minimum, .raw use⟩ :: bs)) :
    ∃ s box bs', cellblockSouth (left + 1) r hat cel = (s, box) ∧ Keeps r s ∧ box ≠ 0 ∧
      Rep { s with cel_p := box } bs' ∧ (∀ c ∈ bs', c.Settled) ∧ livesOf bs' = livesOf bs := by
  induction left generalizing r bs hat cel use with
  | zero =>
    rw [Nat.zero_add, Nat.one_mul] at hrep
    have hcell := (show Rep _ ([] ++ _ :: bs) from hrep).cellBox off_raw rfl
    refine ⟨_, _, _, rfl, ⟨rfl, rfl, rfl, rfl⟩, hrep.pos_ne_zero (List.mem_cons_self ..),
      hcell, ?_, ?_⟩
    · intro c hc
      rcases List.mem_cons.mp hc with rfl | hc
      · exact settled_cell
      · exact hsettled c hc
    · exact livesOf_cons_ne bs (by simp)
  | succ left ih =>
    have hsplit : (left + 1 + 1) * minimum = (left + 1) * minimum + minimum := by
      rw [Nat.add_mul (left + 1) 1, Nat.one_mul]
    have htop : (left + 1 + 1) * minimum - (left + 1) * minimum = minimum := by
      rw [hsplit, Nat.add_sub_cancel_left]
    have hcut := (show Rep _ ([] ++ _ :: bs) from hrep).cut off_raw (k := (left + 1) * minimum)
      (Nat.le_mul_of_pos_left minimum (Nat.succ_pos left)) (Nat.le_of_eq htop.symm)
    have hpos : hat - (left + 1 + 1) * minimum + (left + 1) * minimum = hat - minimum := by omega
    have hlow : hat - (left + 1 + 1) * minimum = hat - minimum - (left + 1) * minimum := by omega
    simp only [hpos, htop, List.nil_append] at hcut
    rw [hlow, ← List.singleton_append] at hcut
    have hcell := hcut.cellBox off_raw rfl
    have hsettled' : ∀ c ∈ ⟨hat - minimum, minimum, .cell⟩ :: bs, c.Settled := by
      intro c hc
      rcases List.mem_cons.mp hc with rfl | hc
      · exact settled_cell
      · exact hsettled c hc
    obtain ⟨s, box, bs', hloop, hkeeps, hne, hrep', hsettled'', hlives⟩ :=
      ih _ _ _ hsettled' (by omega) hcell
    exact ⟨s, box, bs', hloop, ⟨hkeeps.home, hkeeps.cap, hkeeps.hat, hkeeps.rut⟩, hne, hrep',
      hsettled'', hlives.trans (livesOf_cons_ne bs (by simp))⟩

theorem Rep.cellblock (hrep : Rep r bs) (hsettled : ∀ c ∈ bs, c.Settled) (left : ℕ) :
    cellblock r (left + 1) = none ∨ ∃ r' bs', cellblock r (left + 1) = some r' ∧ r'.cel_p ≠ 0 ∧
      Kept r r' (livesOf bs) bs' := by
  have hsiz : minimum ≤ (left + 1) * minimum :=
    Nat.le_mul_of_pos_left minimum (Nat.succ_pos left)
  unfold Allocate.cellblock
  cases hnorth : r.isNorth with
  | true =>
    rw [if_pos rfl]
    by_cases hroom : r.cap_p ≤ r.hat_p + (left + 1) * minimum + 2 ^ 12
    · exact .inl (if_pos hroom)
    · right
      rw [if_neg hroom]
      have hnorth' : Road.isNorth { r with hat_p := r.hat_p + (left + 1) * minimum } = true :=
        Road.isNorth_iff.mpr (by show r.hat_p + (left + 1) * minimum < r.cap_p; omega)
      obtain ⟨s, box, bs', hloop, hkeeps, hne, hrep', hsettled', hlives⟩ :=
        Rep.cellblock_north left { r with hat_p := r.hat_p + (left + 1) * minimum } r.hat_p r.cel_p
          hsettled (hrep.growNorth hnorth hsiz (by omega))
      refine ⟨{ s with cel_p := box }, bs', by rw [hloop], hne,
        ⟨hkeeps.home, hkeeps.cap, hkeeps.rut, ?_⟩, hrep', hsettled', .of_eq hlives⟩
      exact hkeeps.isNorth.trans (hnorth'.trans hnorth.symm)
  | false =>
    rw [if_neg (by simp)]
    by_cases hroom : r.hat_p ≤ r.cap_p + (left + 1) * minimum + 2 ^ 12
    · exact .inl (if_pos hroom)
    · right
      rw [if_neg hroom]
      have hsouth' : Road.isNorth { r with hat_p := r.hat_p - (left + 1) * minimum } = false :=
        Road.isNorth_eq_false.mpr (by show r.cap_p ≤ r.hat_p - (left + 1) * minimum; omega)
      obtain ⟨s, box, bs', hloop, hkeeps, hne, hrep', hsettled', hlives⟩ :=
        Rep.cellblock_south left { r with hat_p := r.hat_p - (left + 1) * minimum } r.hat_p r.cel_p
          hsettled (by omega) (hrep.growSouth hnorth hsiz (by omega))
      refine ⟨{ s with cel_p := box }, bs', by rw [hloop], hne,
        ⟨hkeeps.home, hkeeps.cap, hkeeps.rut, ?_⟩, hrep', hsettled', .of_eq hlives⟩
      exact hkeeps.isNorth.trans (hsouth'.trans hnorth.symm)

theorem settled_others (hsettled : ∀ c ∈ xs ++ b :: ys, c.Settled) : ∀ c ∈ xs ++ ys, c.Settled := by
  intro c hc
  rcases List.mem_append.mp hc with hc | hc <;> exact hsettled c (by simp [hc])

/-- `u3a_celloc()` with a cell on the cell list makes an allocation of the first. -/
theorem Rep.cellocPop (hrep : Rep r bs) (hsettled : ∀ c ∈ bs, c.Settled) (hne : r.cel_p ≠ 0) :
    Allocates r 3 (livesOf bs) (.ok (cellocPop r)) := by
  obtain ⟨xs, b, ys, rfl, hstate, hpos, huse, hpop⟩ := hrep.popCell hne
  -- the use count of a cell on the list is one already
  have hput : r.put (r.cel_p + 1) 1 = r := by
    have hself : Function.update r.loom (r.cel_p + 1) 1 = r.loom := by
      rw [Function.update_eq_self_iff, ← hpos, huse]
    rw [Road.put, hself]
  have hcelloc : Allocate.cellocPop r = ({ r with cel_p := r.loom (r.cel_p + 3) }, b.pos + 2) := by
    unfold Allocate.cellocPop
    dsimp only
    rw [hput, ← hpos]
  have hstays : Stays r { r with cel_p := r.loom (r.cel_p + 3) } := ⟨rfl, rfl, rfl, rfl⟩
  rw [hcelloc, livesOf_middle (b := b) (by simp [hstate])]
  exact ⟨_, kept_of_live (b := b) hstays (hpop 3 (by decide)) (settled_others hsettled)⟩

theorem Rep.celloc (hrep : Rep r bs) (hsettled : ∀ c ∈ bs, c.Settled) (fuel : ℕ) :
    Allocates r 3 (livesOf bs) (celloc fuel r) := by
  have hwalloc : Allocates r 3 (livesOf bs) (Allocate.walloc fuel r 3) :=
    hrep.walloc hsettled fuel (by decide)
  unfold Allocate.celloc
  by_cases hnull : r.cel_p = 0
  · rw [if_pos hnull]
    by_cases hhome : r.home = true
    · rw [if_pos hhome]
      exact hwalloc
    · rw [if_neg hhome]
      rcases hrep.cellblock hsettled 4095 with hnone | ⟨r', bs', hsome, hne, hkept⟩
      · rw [show Allocate.cellblock r 4096 = none from hnone]
        exact hwalloc
      · rw [show Allocate.cellblock r 4096 = some r' from hsome]
        exact .trans hkept.stays hkept.lives (hkept.rep.cellocPop hkept.settled hne)
  · rw [if_neg hnull]
    exact hrep.cellocPop hsettled hnull

theorem exists_live {p : ℕ} (hmem : (p, len) ∈ livesOf bs) :
    ∃ xs b ys, bs = xs ++ b :: ys ∧ b.state = .live len ∧ p = b.pos + 2 := by
  obtain ⟨b, hb, hstate, hpos⟩ := mem_livesOf.mp hmem
  obtain ⟨xs, ys, rfl⟩ := List.append_of_mem hb
  exact ⟨xs, b, ys, rfl, hstate, hpos⟩

theorem Rep.wfree (hrep : Rep r (xs ++ b :: ys)) (hsettled : ∀ c ∈ xs ++ b :: ys, c.Settled)
    (hstate : b.state = .live len) :
    ∃ r' bs', wfree r (b.pos + 2) = .ok r' ∧ Kept r r' (livesOf (xs ++ ys)) bs' := by
  obtain ⟨r', bs', hfree, hfreed, _⟩ := hrep.free hstate (settled_others hsettled)
  refine ⟨r', bs', ?_, hfreed.stays, hfreed.rep, hfreed.settled, .of_eq hfreed.lives⟩
  rw [Allocate.wfree, Nat.add_sub_cancel]
  exact hfree

theorem Rep.cfree (hrep : Rep r (xs ++ b :: ys)) (hsettled : ∀ c ∈ xs ++ b :: ys, c.Settled)
    (hstate : b.state = .live len) :
    ∃ r' bs', cfree r (b.pos + 2) = .ok r' ∧ Kept r r' (livesOf (xs ++ ys)) bs' := by
  unfold Allocate.cfree
  by_cases hhome : r.home = true
  · rw [if_pos hhome]
    exact hrep.wfree hsettled hstate
  · rw [if_neg hhome]
    dsimp only
    rw [Nat.add_sub_cancel]
    refine ⟨_, _, rfl, ⟨rfl, rfl, rfl, rfl⟩, hrep.pushCell hstate, ?_, .of_eq ?_⟩
    · intro c hc
      rcases List.mem_append.mp hc with hc | hc
      · exact hsettled c (by simp [hc])
      · rcases List.mem_cons.mp hc with rfl | hc
        · exact settled_cell
        · exact hsettled c (by simp [hc])
    · exact livesOf_middle (by simp)

theorem Rep.poke {i : ℕ} (hrep : Rep r (xs ++ b :: ys)) (hstate : b.state = .live len)
    (hi : i < len) (v : ℕ) : Rep (r.put (b.pos + 2 + i) v) (xs ++ b :: ys) := by
  have hlive := hrep.ok b (by simp)
  rw [Box.Ok, hstate] at hlive
  obtain ⟨hsiz, ⟨hhead, htail⟩, huse, hlen⟩ := hlive
  rw [show xs ++ b :: ys = xs ++ [b] ++ ys by simp] at hrep ⊢
  refine hrep.replace [b] (r.put (b.pos + 2 + i) v).loom (by simp [Box.Off, hstate])
    (by simp [Box.Off, hstate]) (fun lo hi htiles ↦ htiles) ?_ fun w hw ↦ ?_
  · simp only [List.mem_singleton, forall_eq]
    rw [Box.Ok, hstate]
    have hne : b.pos + b.siz - 1 ≠ b.pos + 2 + i := by omega
    refine ⟨hsiz, ⟨?_, ?_⟩, ?_, hlen⟩
    · exact (Function.update_of_ne (by omega) ..).trans hhead
    · exact (Function.update_of_ne hne ..).trans htail
    · exact (Function.update_of_ne (by omega) ..).trans huse
  · have hout := hw b (by simp)
    exact Function.update_of_ne (by omega) ..

/-! ### Runs -/

/-- A call to the allocator, or a write to a word of an allocation. -/
inductive Call
  | walloc (len_w : ℕ) : Call
  | wfree (tox : ℕ) : Call
  | wtrim (tox old_w len_w : ℕ) : Call
  | celloc : Call
  | cfree (cel : ℕ) : Call
  | reflux : Call
  | poke (tox i_w v : ℕ) : Call

/-- The calls that the allocations allow: a pointer that is given back, trimmed or written to is
that of an allocation, a trim says the length of the allocation, and a write stays inside it. -/
def Call.Legal (live : List (ℕ × ℕ)) : Call → Prop
  | .walloc len_w => len_w < 2 ^ 32
  | .wfree tox => ∃ len, (tox, len) ∈ live
  | .wtrim tox old_w len_w => (tox, old_w) ∈ live ∧ len_w < 2 ^ 32
  | .celloc => True
  | .cfree cel => ∃ len, (cel, len) ∈ live
  | .reflux => True
  | .poke tox i_w _ => ∃ len, (tox, len) ∈ live ∧ i_w < len

/-- The calls whose boxes have a size: the size of a new box is a word, and what a trim leaves of a
box is not below the minimum. -/
def Call.Fits : Call → Prop
  | .walloc len_w => len_w + 3 < 2 ^ 32
  | .wtrim _ old_w len_w => len_w < old_w → minimum ≤ old_w - len_w → 3 ≤ len_w
  | _ => True

/-- The allocations without the one at a pointer. -/
def without (live : List (ℕ × ℕ)) (tox : ℕ) : List (ℕ × ℕ) := live.filter fun a ↦ a.1 ≠ tox

/-- A call, and what becomes of the allocations. -/
def Call.step (fuel : ℕ) (r : Road) (live : List (ℕ × ℕ)) :
    Call → Except Fault (Road × List (ℕ × ℕ))
  | .walloc len_w => do
    let (r, tox) ← Allocate.walloc fuel r len_w
    .ok (r, (tox, len_w) :: live)
  | .wfree tox => do
    let r ← Allocate.wfree r tox
    .ok (r, without live tox)
  | .wtrim tox old_w len_w => do
    let r ← Allocate.wtrim r tox old_w len_w
    .ok (r, (tox, min old_w len_w) :: without live tox)
  | .celloc => do
    let (r, cel) ← Allocate.celloc fuel r
    .ok (r, (cel, 3) :: live)
  | .cfree cel => do
    let r ← Allocate.cfree r cel
    .ok (r, without live cel)
  | .reflux => do
    let r ← Allocate.reflux r
    .ok (r, live)
  | .poke tox i_w v => .ok (r.put (tox + i_w) v, live)

/-- A road with nothing on its heap. -/
structure Road.Empty (r : Road) : Prop where
  hat : r.hat_p = r.rut_p
  pos : 0 < r.rut_p
  cap_le : r.cap_p ≤ 2 ^ 30
  rut_le : r.rut_p ≤ 2 ^ 30
  fre : ∀ sel < fboxNo, r.fre_p sel = 0
  cel : r.cel_p = 0

/-- The roads and allocations that calls lead to from an empty road, where every call is legal and
meets a condition. -/
inductive Run (cond : Call → Prop) : Road → List (ℕ × ℕ) → Prop
  | empty {r : Road} (hempty : r.Empty) : Run cond r []
  | call {r r' : Road} {live live' : List (ℕ × ℕ)} (fuel : ℕ) (call : Call) (hrun : Run cond r live)
      (hlegal : call.Legal live) (hcond : cond call)
      (hstep : call.step fuel r live = .ok (r', live')) : Run cond r' live'

/-- The boxes of a road: they tile the heap, both size words of each are right, and each is an
allocation that is long enough, with a use count, or has none and is on the free list for its size
or on the cell list. A list holds its boxes once, and the allocations are apart. -/
structure BoxInvariant (r : Road) (live : List (ℕ × ℕ)) (bs : List Box) : Prop where
  tiles : Tiles r.low bs r.high
  nodup : (bs.map Box.pos).Nodup
  tagged : ∀ b ∈ bs, b.Tagged r.loom
  state : ∀ b ∈ bs, (∃ len, b.state = .live len ∧ r.loom (b.pos + 1) ≠ 0 ∧ len + 3 ≤ b.siz) ∨
    (b.state = .free ∧ r.loom (b.pos + 1) = 0) ∨ (b.state = .cell ∧ minimum ≤ b.siz)
  fre : ∀ sel < fboxNo, ∃ l, l.Perm (freeOn bs sel) ∧ l.Nodup ∧
    Linked 0 (fun p ↦ r.loom (p + 2)) (fun p ↦ r.loom (p + 3)) 0 (r.fre_p sel) l
  cel : ∃ l, l.Perm (cellsOf bs) ∧ l.Nodup ∧ Chained 0 (fun p ↦ r.loom (p + 3)) r.cel_p l
  lives : live.Perm (livesOf bs)
  apart : live.Pairwise fun a c ↦ a.1 + a.2 ≤ c.1 ∨ c.1 + c.2 ≤ a.1

theorem Rep.empty (hempty : r.Empty) : Rep r [] := by
  have hlow : r.low = r.rut_p := by
    unfold Road.low
    split_ifs
    · rfl
    · exact hempty.hat
  have hhigh : r.high = r.rut_p := by
    unfold Road.high
    split_ifs
    · exact hempty.hat
    · rfl
  refine ⟨hlow ▸ hempty.pos, hempty.cap_le, hempty.rut_le, hlow.trans hhigh.symm, by simp, ?_, ?_⟩
  · exact fun sel hsel ↦ ⟨[], .refl _, hempty.fre sel hsel⟩
  · exact ⟨[], .refl _, hempty.cel⟩

/-- Allocations are words of their boxes. -/
theorem lives_apart {lo hi : ℕ} (htiles : Tiles lo bs hi)
    (hlive : ∀ b ∈ bs, ∀ len, b.state = .live len → len + 3 ≤ b.siz) :
    (livesOf bs).Pairwise fun a c ↦ a.1 + a.2 ≤ c.1 ∨ c.1 + c.2 ≤ a.1 := by
  induction bs generalizing lo with
  | nil => exact .nil
  | cons b bs ih =>
    obtain ⟨rfl, hrest⟩ := htiles
    have htail := ih hrest fun c hc ↦ hlive c (by simp [hc])
    by_cases hstate : ∃ len, b.state = .live len
    · obtain ⟨len, hstate⟩ := hstate
      rw [livesOf_cons_self bs hstate, List.pairwise_cons]
      refine ⟨fun a ha ↦ .inl ?_, htail⟩
      obtain ⟨xs, c, ys, rfl, _, hpos⟩ := exists_live (p := a.1) (by exact ha)
      have hafter := (hrest.mem (b := c) (by simp)).1
      have hlen := hlive b (by simp) len hstate
      show b.pos + 2 + len ≤ a.1
      omega
    · rw [livesOf_cons_ne bs (by simpa using hstate)]
      exact htail

/-- What holds between calls is the invariant of the boxes. -/
theorem Rep.boxInvariant (hrep : Rep r bs) (hsettled : ∀ c ∈ bs, c.Settled)
    (hlives : live.Perm (livesOf bs)) : BoxInvariant r live bs := by
  have hlive : ∀ b ∈ bs, ∀ len, b.state = .live len → len + 3 ≤ b.siz := by
    intro b hb len hstate
    have hok := (hrep.ok b hb).2
    rw [hstate] at hok
    exact hok.2.2
  refine ⟨hrep.tiles, hrep.nodup, fun b hb ↦ (hrep.ok b hb).tagged (hsettled b hb).2, fun b hb ↦ ?_,
    fun sel hsel ↦ ?_, ?_, hlives, ?_⟩
  · have hok := (hrep.ok b hb).2
    cases hstate : b.state with
    | live len =>
      rw [hstate] at hok
      exact .inl ⟨len, rfl, by simp [hok.2.1], hok.2.2⟩
    | free =>
      rw [hstate] at hok
      exact .inr (.inl ⟨rfl, hok.2⟩)
    | cell => exact .inr (.inr ⟨rfl, hrep.siz_le hb⟩)
    | held => exact absurd hstate (hsettled b hb).1
    | raw use => exact absurd hstate ((hsettled b hb).2 use)
  · obtain ⟨l, hperm, hlinked⟩ := hrep.fre sel hsel
    exact ⟨l, hperm, hperm.nodup_iff.mpr (hrep.freeOn_nodup sel), hlinked⟩
  · obtain ⟨l, hperm, hchained⟩ := hrep.cel
    refine ⟨l, hperm, hperm.nodup_iff.mpr ?_, hchained⟩
    exact hrep.nodup.sublist (List.filter_sublist.map Box.pos)
  · refine (hlives.pairwise_iff ?_).mpr (lives_apart hrep.tiles hlive)
    exact fun hor ↦ hor.symm

/-- A heap between calls, with the allocations that it has. -/
def Settles (r : Road) (live : List (ℕ × ℕ)) : Prop :=
  ∃ bs, Rep r bs ∧ (∀ c ∈ bs, c.Settled) ∧ live.Perm (livesOf bs)

/-- What a call should do: it leaves a heap, or it bails, but no assertion fails. -/
def Returns : Except Fault (Road × List (ℕ × ℕ)) → Prop
  | .ok (r, live) => Settles r live
  | .error e => e ≠ .assertion

theorem Kept.settles {r' : Road} {lives : List (ℕ × ℕ)} {bs' : List Box}
    (hkept : Kept r r' lives bs') (hlives : live.Perm lives) : Settles r' live :=
  ⟨bs', hkept.rep, hkept.settled, hlives.trans hkept.lives.symm⟩

theorem Allocates.returns {lives : List (ℕ × ℕ)} {res : Except Fault (Road × ℕ)}
    (halloc : Allocates r len lives res) (hlives : live.Perm lives) :
    Returns (res >>= fun (r, tox) ↦ .ok (r, (tox, len) :: live)) := by
  cases res with
  | error e => exact halloc
  | ok res =>
    obtain ⟨bs', hkept⟩ := halloc
    exact hkept.settles (hlives.cons (res.2, len))

/-- The allocations without the one of a box are those of the other boxes. -/
theorem Rep.without_perm (hrep : Rep r (xs ++ b :: ys))
    (hlives : live.Perm (livesOf (xs ++ b :: ys))) (hstate : b.state = .live len) :
    (without live (b.pos + 2)).Perm (livesOf (xs ++ ys)) := by
  refine (hlives.filter _).trans (.of_eq ?_)
  have hother : ∀ a ∈ livesOf (xs ++ ys), a.1 ≠ b.pos + 2 := by
    intro a ha heq
    obtain ⟨us, c, vs, hsplit, _, hpos⟩ := exists_live (p := a.1) (by exact ha)
    have hc : c ∈ xs ++ ys := by
      rw [hsplit]
      simp
    have hsiz := hrep.siz_le (b := b) (by simp)
    obtain ⟨hbefore, hafter⟩ := hrep.tiles.around
    rcases List.mem_append.mp hc with hc | hc
    · have hle := hbefore c hc
      have hsiz' := hrep.siz_le (b := c) (by simp [hc])
      omega
    · have hle := hafter c hc
      omega
  rw [livesOf_append, livesOf_cons_self ys hstate, List.filter_append,
    List.filter_cons_of_neg (by simp), ← List.filter_append, ← livesOf_append, List.filter_eq_self]
  exact fun a ha ↦ by simpa using hother a ha

/-- A legal call that fits leaves a heap, or bails. -/
theorem Call.step_returns (hsettles : Settles r live) (fuel : ℕ) {call : Call}
    (hlegal : call.Legal live) (hfits : call.Fits) : Returns (call.step fuel r live) := by
  obtain ⟨bs, hrep, hsettled, hlives⟩ := hsettles
  cases call with
  | walloc len => exact (hrep.walloc hsettled fuel hfits).returns hlives
  | celloc => exact (hrep.celloc hsettled fuel).returns hlives
  | reflux =>
    obtain ⟨r', bs', hreflux, hkept, _⟩ := hrep.reflux_loop hsettled 1024
    simp only [Call.step, Allocate.reflux, hreflux, ok_bind]
    exact hkept.settles hlives
  | wfree tox =>
    obtain ⟨len, hmem⟩ := hlegal
    obtain ⟨xs, b, ys, rfl, hstate, rfl⟩ := exists_live (hlives.mem_iff.mp hmem)
    obtain ⟨r', bs', hfree, hkept⟩ := hrep.wfree hsettled hstate
    simp only [Call.step, hfree, ok_bind]
    exact hkept.settles (hrep.without_perm hlives hstate)
  | cfree cel =>
    obtain ⟨len, hmem⟩ := hlegal
    obtain ⟨xs, b, ys, rfl, hstate, rfl⟩ := exists_live (hlives.mem_iff.mp hmem)
    obtain ⟨r', bs', hfree, hkept⟩ := hrep.cfree hsettled hstate
    simp only [Call.step, hfree, ok_bind]
    exact hkept.settles (hrep.without_perm hlives hstate)
  | wtrim tox old len =>
    obtain ⟨xs, b, ys, rfl, hstate, rfl⟩ := exists_live (hlives.mem_iff.mp hlegal.1)
    obtain ⟨r', bs', htrim, hkept⟩ := hrep.trim hstate (settled_others hsettled) hfits
    simp only [Call.step, htrim, ok_bind]
    exact hkept.settles ((hrep.without_perm hlives hstate).cons _)
  | poke tox i v =>
    obtain ⟨len, hmem, hi⟩ := hlegal
    obtain ⟨xs, b, ys, rfl, hstate, rfl⟩ := exists_live (hlives.mem_iff.mp hmem)
    exact ⟨_, hrep.poke hstate hi v, hsettled, hlives⟩

theorem Run.settles (hrun : Run Call.Fits r live) : Settles r live := by
  induction hrun with
  | empty hempty => exact ⟨[], Rep.empty hempty, by simp, .refl _⟩
  | call fuel _ _ hlegal hcond hstep ih =>
    have hreturns := Call.step_returns ih fuel hlegal hcond
    rw [hstep] at hreturns
    exact hreturns

/-- Every run of legal calls that fit keeps the invariant of the boxes, and in no such call does an
assertion of the allocator fail. -/
theorem run_boxInvariant {r : Road} {live : List (ℕ × ℕ)} (hrun : Run Call.Fits r live) :
    (∃ bs, BoxInvariant r live bs) ∧
      ∀ fuel (call : Call), call.Legal live → call.Fits →
        call.step fuel r live ≠ .error .assertion := by
  have hsettles := hrun.settles
  constructor
  · obtain ⟨bs, hrep, hsettled, hlives⟩ := hsettles
    exact ⟨bs, hrep.boxInvariant hsettled hlives⟩
  · intro fuel call hlegal hfits hfail
    have hreturns := Call.step_returns hsettles fuel hlegal hfits
    rw [hfail] at hreturns
    exact hreturns rfl

/-- A road of 64 words with nothing on it. -/
def emptyRoad : Road :=
  { home := true, cap_p := 64, hat_p := 1, rut_p := 1, fre_p := fun _ ↦ 0, cel_p := 0,
    loom := fun _ ↦ 0 }

theorem emptyRoad_empty : emptyRoad.Empty :=
  ⟨rfl, by decide, by decide, by decide, fun _ _ ↦ rfl, rfl⟩

/-- Two allocations on a road, the first of which is freed. -/
theorem run_boxInvariant_freed :
    ∃ r, Run Call.Fits r [(10, 3)] ∧ ((∃ bs, BoxInvariant r [(10, 3)] bs) ∧
      ∀ fuel (call : Call), call.Legal [(10, 3)] → call.Fits →
        call.step fuel r [(10, 3)] ≠ .error .assertion) := by
  obtain ⟨r₁, hwalloc, r₂, hcelloc, r₃, hwfree⟩ :
      ∃ r₁, (Call.walloc 4).step 30 emptyRoad [] = .ok (r₁, [(3, 4)]) ∧
        ∃ r₂, Call.celloc.step 30 r₁ [(3, 4)] = .ok (r₂, [(10, 3), (3, 4)]) ∧
          ∃ r₃, (Call.wfree 3).step 30 r₂ [(10, 3), (3, 4)] = .ok (r₃, [(10, 3)]) :=
    ⟨_, rfl, _, rfl, _, rfl⟩
  have hfirst : Run Call.Fits r₁ [(3, 4)] :=
    .call 30 (.walloc 4) (.empty emptyRoad_empty) (by decide : 4 < 2 ^ 32)
      (by decide : 4 + 3 < 2 ^ 32) hwalloc
  have hsecond : Run Call.Fits r₂ [(10, 3), (3, 4)] :=
    .call 30 .celloc hfirst trivial trivial hcelloc
  have hthird : Run Call.Fits r₃ [(10, 3)] :=
    .call 30 (.wfree 3) hsecond ⟨4, by simp⟩ trivial hwfree
  exact ⟨r₃, hthird, run_boxInvariant hthird⟩

/-- `u3a_walloc()` of a length whose box does not fit in a word: the size of the box wraps to one,
and the free box of another allocation is given for it. -/
theorem run_short : ∃ r live, Run (fun _ ↦ True) r live ∧ ¬∃ bs, BoxInvariant r live bs := by
  obtain ⟨r₁, hfst, r₂, hsnd, r₃, hfree, r, hstep, hrut, hhat, hcap⟩ :
      ∃ r₁, (Call.walloc 3).step 30 emptyRoad [] = .ok (r₁, [(3, 3)]) ∧
        ∃ r₂, (Call.walloc 3).step 30 r₁ [(3, 3)] = .ok (r₂, [(9, 3), (3, 3)]) ∧
        ∃ r₃, (Call.wfree 3).step 30 r₂ [(9, 3), (3, 3)] = .ok (r₃, [(9, 3)]) ∧
        ∃ r, (Call.walloc (2 ^ 32 - 2)).step 30 r₃ [(9, 3)] = .ok (r, [(3, 2 ^ 32 - 2), (9, 3)]) ∧
        r.rut_p = 1 ∧ r.hat_p = 13 ∧ r.cap_p = 64 :=
    ⟨_, rfl, _, rfl, _, rfl, _, rfl, rfl, rfl, rfl⟩
  have hfirst : Run (fun _ ↦ True) r₁ [(3, 3)] :=
    .call 30 (.walloc 3) (.empty emptyRoad_empty) (by decide : 3 < 2 ^ 32) trivial hfst
  have hsecond : Run (fun _ ↦ True) r₂ [(9, 3), (3, 3)] :=
    .call 30 (.walloc 3) hfirst (by decide : 3 < 2 ^ 32) trivial hsnd
  have hthird : Run (fun _ ↦ True) r₃ [(9, 3)] :=
    .call 30 (.wfree 3) hsecond ⟨3, by simp⟩ trivial hfree
  have hrun : Run (fun _ ↦ True) r [(3, 2 ^ 32 - 2), (9, 3)] :=
    .call 30 (.walloc (2 ^ 32 - 2)) hthird (by decide : 2 ^ 32 - 2 < 2 ^ 32) trivial hstep
  refine ⟨r, _, hrun, ?_⟩
  rintro ⟨bs, hinv⟩
  obtain ⟨xs, b, ys, rfl, hstate, _⟩ :=
    exists_live (hinv.lives.mem_iff.mp List.mem_cons_self)
  have hhigh := (hinv.tiles.mem (b := b) (by simp)).2
  rw [Road.high_north (Road.isNorth_iff.mpr (by omega)), hhat] at hhigh
  rcases hinv.state b (by simp) with ⟨len, hlive, _, hlen⟩ | ⟨hfree, _⟩ | ⟨hcell, _⟩
  · rw [hstate, State.live.injEq] at hlive
    omega
  · simp [hstate] at hfree
  · simp [hstate] at hcell

end Vere.Noun.Allocate
