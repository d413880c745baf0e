import Vere.Noun.AllocateRun

/-!
# Aligned allocation

`u3a_malloc()`, `u3a_realloc()` and `u3a_free()` of `pkg/noun/allocate.c`: storage measured in
bytes, at a multiple of four words. The padding is computed when a box is searched for, and again
from the pointer to its words; a word before the storage keeps it.

The search starts again after the cell list has been dumped, and its alignment phase is moved once
more then. The padding that is computed in the end is that of the first phase, so that a box that
was found in the other one can be two words short. `malloc_serves` says that the storage is what was
asked for where no cells have to be dumped, and `malloc_short` is a call where it is not.
-/

set_option autoImplicit false

namespace Vere.Noun.Allocate

/-! ### The calls -/

/-- The words for a number of bytes: `len_i` is 64 bits wide, and `len_w` is 32. -/
def lenWords (len_i : ℕ) : ℕ := (((len_i + 3) % 2 ^ 64) >>> 2) % 2 ^ 32

/-- `u3a_malloc()`: aligned storage measured in bytes. `reclaim` is `_ca_reclaim_half()`, which
trims the memoization cache. -/
def malloc (reclaim : Road → Except Fault Road) (fuel : ℕ) (r : Road) (len_i : ℕ) :
    Except Fault (Road × ℕ) := do
  let len_w := lenWords len_i
  let (r, ptr_p) ← caWilloc reclaim fuel r ((len_w + 1) % 2 ^ 32) 4 3
  let pad_w := meAlignPad ptr_p 4 3
  let out_w := ptr_p + pad_w + 1
  .ok (r.put (out_w - 1) pad_w, out_w)

/-- `u3a_free()`: free for aligned malloc. -/
def free (r : Road) (tox_v : Option ℕ) : Except Fault Road :=
  match tox_v with
  | none => .ok r
  | some tox_w =>
    let pad_w := r.loom (tox_w - 1)
    let org_w := tox_w - (pad_w + 1)
    wfree r org_w

/-- The loop of `u3a_realloc()`, by the number of words that it copies. -/
def reallocCopy (old_w new_w : ℕ) : ℕ → Road → Road
  | 0, r => r
  | i_w + 1, r =>
    let r := reallocCopy old_w new_w i_w r
    r.put (new_w + i_w) (r.loom (old_w + i_w))

/-- `u3a_realloc()`: aligned realloc in bytes. -/
def realloc (reclaim : Road → Except Fault Road) (fuel : ℕ) (r : Road) (lag_v : Option ℕ)
    (len_i : ℕ) :
    Except Fault (Road × ℕ) :=
  match lag_v with
  | none => malloc reclaim fuel r len_i
  | some lag_w => do
    let len_w := lenWords len_i
    let pad_w := r.loom (lag_w - 1)
    let org_w := lag_w - (pad_w + 1)
    let tiz_w := min (r.loom (org_w - 2)) len_w
    let (r, new_w) ← malloc reclaim fuel r len_i
    let r := reallocCopy lag_w new_w tiz_w r
    let r ← wfree r org_w
    .ok (r, new_w)

/-! ### Padding -/

theorem and_align {x : ℕ} (hlt : x < 2 ^ 32) : x &&& (2 ^ 32 - 1 - (4 - 1)) = x - x % 4 := by
  have hmask : 2 ^ 32 - 1 - (4 - 1) = (2 ^ 30 - 1) <<< 2 := by decide
  have hshift : x - x % 4 = (x >>> 2) <<< 2 := by
    rw [Nat.shiftLeft_eq, Nat.shiftRight_eq_div_pow]
    omega
  rw [hmask, hshift]
  refine Nat.eq_of_testBit_eq fun i ↦ ?_
  simp only [Nat.testBit_and, Nat.testBit_shiftLeft, Nat.testBit_shiftRight,
    Nat.testBit_two_pow_sub_one]
  by_cases hlow : i < 2
  · simp [Nat.not_le.mpr hlow]
  · have hi : 2 + (i - 2) = i := by omega
    by_cases hhigh : i - 2 < 30
    · simp [hi, hhigh, Nat.not_lt.mp hlow]
    · have hzero : x.testBit i = false :=
        Nat.testBit_lt_two_pow (hlt.trans_le (Nat.pow_le_pow_right (by decide) (by omega)))
      simp [hi, hzero]

/-- The padding depends on the residue of the position. -/
theorem meAlignPad_four {pos alp : ℕ} (hlt : pos < 2 ^ 32) (halp : alp = 1 ∨ alp = 3) :
    meAlignPad pos 4 alp = (alp + 4 - pos % 4) % 4 := by
  unfold meAlignPad
  dsimp only
  rw [and_align (Nat.mod_lt _ (by decide))]
  rcases halp with rfl | rfl <;> omega

theorem meAlignDap_four {pos : ℕ} (hlt : pos < 2 ^ 32) : meAlignDap pos 4 1 = (pos + 3) % 4 := by
  unfold meAlignDap
  dsimp only
  rw [and_align (Nat.mod_lt _ (by decide))]
  omega

/-- The phase that the search starts with. -/
theorem phase_four : Phase 4 1 where
  pad := by
    intro pos hlt
    rw [meAlignPad_four hlt (.inl rfl)]
    exact Nat.mod_lt _ (by decide)
  dap := by
    intro pos hlt
    rw [meAlignDap_four hlt]
    exact Nat.mod_lt _ (by decide)
  zero := by
    intro pos hlt hle
    rw [meAlignDap_four hlt] at hle ⊢
    rw [meAlignPad_four (by omega) (.inl rfl)]
    omega

/-- The padding from the pointer is that of the first phase. -/
theorem meAlignPad_ptr {pos : ℕ} (hlt : pos + 2 < 2 ^ 32) :
    meAlignPad (pos + 2) 4 3 = meAlignPad pos 4 1 := by
  rw [meAlignPad_four hlt (.inr rfl), meAlignPad_four (by omega) (.inl rfl)]
  omega

/-! ### Aligned pointers -/

/-- A pointer to some bytes: it is a multiple of four words, the word before it leads to the words
of an allocation, and the bytes are before the size word that ends the box. -/
def Aligned (r : Road) (bs : List Box) (ptr len_i : ℕ) : Prop :=
  ptr % 4 = 0 ∧ ∃ b ∈ bs, (∃ len, b.state = .live len) ∧ ptr - (r.loom (ptr - 1) + 1) = b.pos + 2 ∧
    4 * ptr + len_i ≤ 4 * (b.pos + b.siz - 1)

/-- A call of `u3a_malloc()` gave storage as it should: for its bytes, so that `u3a_free()` takes it
back, and so that `u3a_realloc()` moves to it what any other pointer has. -/
structure Serves (reclaim : Road → Except Fault Road) (fuel : ℕ) (r : Road) (bs : List Box)
    (len_i : ℕ) (r' : Road) (new : ℕ) : Prop where
  malloc : ∃ bs', Rep r' bs' ∧ (∀ c ∈ bs', c.Settled) ∧ Aligned r' bs' new len_i
  free : ∃ r₂ bs₂, free r' (some new) = .ok r₂ ∧ Rep r₂ bs₂ ∧ ∀ c ∈ bs₂, c.Settled
  realloc : ∀ lag old_i, Aligned r bs lag old_i → ∃ r₂ bs₂,
    realloc reclaim fuel r (some lag) len_i = .ok (r₂, new) ∧ Rep r₂ bs₂ ∧ (∀ c ∈ bs₂, c.Settled) ∧
      Aligned r₂ bs₂ new len_i ∧ ∀ i, 4 * i < min old_i len_i → r₂.loom (new + i) = r.loom (lag + i)

/-- No cells have to be dumped: a free box that is searched, or the hat, has room for the words and
for the padding of its place. -/
def Roomy (r : Road) (bs : List Box) (len_i : ℕ) : Prop :=
  let len_w := (lenWords len_i + 1) % 2 ^ 32
  Ready r bs (caWillocSize len_w) 4 1 (caWillocSlot len_w)

/-- A box whose whole size is the length of its allocation. -/
def Box.full (b : Box) : Box :=
  match b.state with
  | .live _ => ⟨b.pos, b.siz, .live (b.siz - 3)⟩
  | _ => b

theorem Box.full_eq (b : Box) : b.full.pos = b.pos ∧ b.full.siz = b.siz ∧
    ((∃ len, b.state = .live len ∧ b.full.state = .live (b.siz - 3)) ∨
      ((∀ len, b.state ≠ .live len) ∧ b.full = b)) := by
  obtain ⟨pos, siz, state⟩ := b
  cases state with
  | live len => exact ⟨rfl, rfl, .inl ⟨len, rfl, rfl⟩⟩
  | free => exact ⟨rfl, rfl, .inr ⟨by simp, rfl⟩⟩
  | cell => exact ⟨rfl, rfl, .inr ⟨by simp, rfl⟩⟩
  | held => exact ⟨rfl, rfl, .inr ⟨by simp, rfl⟩⟩
  | raw use => exact ⟨rfl, rfl, .inr ⟨by simp, rfl⟩⟩

theorem Tiles.full {lo hi : ℕ} {bs : List Box} (htiles : Tiles lo bs hi) :
    Tiles lo (bs.map Box.full) hi := by
  induction bs generalizing lo with
  | nil => exact htiles
  | cons b bs ih =>
    obtain ⟨hpos, hsiz, _⟩ := b.full_eq
    exact ⟨hpos.trans htiles.1, hsiz.symm ▸ ih htiles.2⟩

theorem freeOn_full (bs : List Box) (sel : ℕ) : freeOn (bs.map Box.full) sel = freeOn bs sel := by
  induction bs with
  | nil => rfl
  | cons b bs ih =>
    obtain ⟨_, _, ⟨len, hlive, hfull⟩ | ⟨_, hfull⟩⟩ := b.full_eq
    · rw [List.map_cons, freeOn_cons_ne _ (by simp [hfull]), freeOn_cons_ne _ (by simp [hlive]), ih]
    · rw [List.map_cons, hfull]
      show freeOn ([b] ++ bs.map Box.full) sel = freeOn ([b] ++ bs) sel
      rw [freeOn_append, freeOn_append, ih]

theorem cellsOf_full (bs : List Box) : cellsOf (bs.map Box.full) = cellsOf bs := by
  induction bs with
  | nil => rfl
  | cons b bs ih =>
    obtain ⟨_, _, ⟨len, hlive, hfull⟩ | ⟨_, hfull⟩⟩ := b.full_eq
    · rw [List.map_cons, cellsOf_cons_ne _ (by simp [hfull]),
        cellsOf_cons_ne _ (by simp [hlive]), ih]
    · rw [List.map_cons, hfull]
      show cellsOf ([b] ++ bs.map Box.full) = cellsOf ([b] ++ bs)
      rw [cellsOf_append, cellsOf_append, ih]

theorem Rep.full {r : Road} {bs : List Box} (hrep : Rep r bs) : Rep r (bs.map Box.full) := by
  refine ⟨hrep.pos, hrep.cap_le, hrep.rut_le, hrep.tiles.full, fun c hc ↦ ?_, fun sel hsel ↦ ?_, ?_⟩
  · obtain ⟨b, hb, rfl⟩ := List.mem_map.mp hc
    have hok := hrep.ok b hb
    obtain ⟨hpos, hsiz, ⟨len, hlive, hfull⟩ | ⟨_, hfull⟩⟩ := b.full_eq
    · have hmin := hrep.siz_le hb
      rw [Box.Ok, hlive] at hok
      rw [Box.Ok, Box.Tagged, hfull, hpos, hsiz]
      exact ⟨hok.1, hok.2.1, hok.2.2.1, by omega⟩
    · rw [hfull]
      exact hok
  · rw [freeOn_full]
    exact hrep.fre sel hsel
  · rw [cellsOf_full]
    exact hrep.cel

theorem settled_full {bs : List Box} (hsettled : ∀ c ∈ bs, c.Settled) :
    ∀ c ∈ bs.map Box.full, c.Settled := by
  intro c hc
  obtain ⟨b, hb, rfl⟩ := List.mem_map.mp hc
  obtain ⟨_, _, ⟨len, hlive, hfull⟩ | ⟨_, hfull⟩⟩ := b.full_eq
  · exact ⟨by simp [hfull], by simp [hfull]⟩
  · rw [hfull]
    exact hsettled b hb

/-- An aligned pointer leads to an allocation of the whole of its box. -/
theorem Aligned.full {r : Road} {bs : List Box} {ptr len_i : ℕ}
    (haligned : Aligned r bs ptr len_i) :
    ∃ org len, (org, len) ∈ livesOf (bs.map Box.full) ∧ 0 < org ∧
    ptr - (r.loom (ptr - 1) + 1) = org ∧
      4 * ptr + len_i ≤ 4 * (org + len) := by
  obtain ⟨_, b, hb, ⟨len, hstate⟩, hrecovers, hroom⟩ := haligned
  obtain ⟨hpos, hsiz, ⟨_, _, hfull⟩ | ⟨hdead, _⟩⟩ := b.full_eq
  · refine ⟨b.pos + 2, b.siz - 3, mem_livesOf.mpr ⟨b.full, List.mem_map_of_mem hb, hfull,
      ?_⟩, by omega, hrecovers, by omega⟩
    rw [hpos]
  · exact absurd hstate (hdead len)

/-! ### Allocating -/

theorem lenWords_eq {len_i : ℕ} (hlen : len_i ≤ 2 ^ 32) : lenWords len_i = (len_i + 3) / 4 := by
  unfold lenWords
  rw [Nat.shiftRight_eq_div_pow, Nat.mod_eq_of_lt (by omega : len_i + 3 < 2 ^ 64)]
  exact Nat.mod_eq_of_lt (by omega)

/-- What `u3a_malloc()` leaves: an allocation of the whole of the box that was found, and its
padding in the word before the pointer. -/
structure Malloced (r : Road) (bs : List Box) (len_i : ℕ) (r' : Road) (bs' : List Box)
    (new pos z : ℕ) : Prop where
  new_eq : new = pos + 2 + meAlignPad pos 4 1 + 1
  pad : r'.loom (new - 1) = meAlignPad pos 4 1
  fits : max minimum (lenWords len_i + 4) + meAlignPad pos 4 1 ≤ z
  mem : ⟨pos, z, .live (z - 3)⟩ ∈ bs'
  rep : Rep r' bs'
  settled : ∀ c ∈ bs', c.Settled
  lives : (livesOf bs').Perm ((pos + 2, z - 3) :: livesOf bs)
  same : Same (livesOf bs) r r'

theorem roomy_full {r : Road} {bs : List Box} {len_i : ℕ} (hroomy : Roomy r bs len_i) :
    Roomy r (bs.map Box.full) len_i := by
  rcases hroomy with ⟨b, hb, hstate, hfits⟩ | hroom
  · refine .inl ⟨b, List.mem_map.mpr ⟨b, hb, ?_⟩, hstate, hfits⟩
    simp only [Box.full, hstate]
  · exact .inr hroom

/-- Where no cells have to be dumped, `u3a_malloc()` returns with enough fuel. -/
theorem Rep.malloced {r : Road} {bs : List Box} (hrep : Rep r bs) (hsettled : ∀ c ∈ bs, c.Settled)
    (reclaim : Road → Except Fault Road) {len_i : ℕ} (hlen : len_i ≤ 2 ^ 32)
    (hroomy : Roomy r bs len_i) :
    ∃ steps r' new bs' pos z, Malloced r bs len_i r' bs' new pos z ∧
      ∀ fuel, malloc reclaim fuel r len_i = if fuel < steps then
        .error .steps else .ok (r', new) := by
  have hwords := lenWords_eq hlen
  have hmod : (lenWords len_i + 1) % 2 ^ 32 = lenWords len_i + 1 := by omega
  have hsize : caWillocSize (lenWords len_i + 1) = max minimum (lenWords len_i + 4) :=
    caWillocSize_eq (by omega)
  have hmin : minimum = 6 := rfl
  unfold Roomy at hroomy
  rw [hmod] at hroomy
  obtain ⟨steps, r₁, bs₁, pos, z, ⟨hz, hfits, hkept, hsame⟩, hscan⟩ :=
    hrep.scan_ready reclaim phase_four (by omega) (by omega) hsettled hroomy
  rw [hsize] at hfits
  obtain ⟨b, hb, hstate, hpos⟩ := mem_livesOf.mp (hkept.lives.mem_iff.mpr List.mem_cons_self)
  replace hstate : b.state = .live (z - 3) := hstate
  replace hpos : pos + 2 = b.pos + 2 := hpos
  have htagged := ((hkept.rep.ok b hb).tagged (by simp [hstate])).1
  obtain rfl : pos = b.pos := by omega
  obtain rfl : z = b.siz := hz.symm.trans htagged
  have hend := hkept.rep.end_le_loom hb
  have hlt : b.pos + 2 < 2 ^ 32 := by omega
  have hpad : meAlignPad b.pos 4 1 = (1 + 4 - b.pos % 4) % 4 :=
    meAlignPad_four (by omega) (.inl rfl)
  -- the word before the pointer is one of the allocation
  have hin : meAlignPad b.pos 4 1 < b.siz - 3 := by omega
  obtain ⟨xs, ys, rfl⟩ := List.append_of_mem hb
  refine ⟨steps, _, b.pos + 2 + meAlignPad b.pos 4 1 + 1, _, b.pos, b.siz,
    ⟨rfl, ?_, hfits, ?_, hkept.rep.poke hstate hin (meAlignPad b.pos 4 1), hkept.settled,
    hkept.lives, ?_⟩, fun fuel ↦ ?_⟩
  · rw [Nat.add_sub_cancel, Road.loom_put, Function.update_self]
  · exact hstate ▸ hb
  · refine hsame.trans ?_
    have hlives := hkept.lives
    rw [livesOf_append, livesOf_cons_self ys hstate] at hlives
    have hothers := (List.perm_middle.symm.trans hlives).cons_inv
    rw [← livesOf_append] at hothers
    rw [Nat.add_assoc]
    exact (hkept.rep.same_put (by omega)).mono fun a ha ↦ hothers.mem_iff.mpr ha
  · unfold malloc
    dsimp only
    rw [hmod, show caWilloc reclaim fuel r (lenWords len_i + 1) 4 3 = _ from hscan fuel]
    split_ifs
    · rfl
    · rw [ok_bind]
      simp only [meAlignPad_ptr hlt, Nat.add_sub_cancel]

section

variable {r r' : Road} {bs bs' : List Box} {fuel len_i new pos z : ℕ}

theorem Malloced.end_le (hmalloced : Malloced r bs len_i r' bs' new pos z) : pos + z ≤ 2 ^ 30 :=
  hmalloced.rep.end_le_loom hmalloced.mem

theorem Malloced.recovers (hmalloced : Malloced r bs len_i r' bs' new pos z) :
    new % 4 = 0 ∧ new - (r'.loom (new - 1) + 1) = pos + 2 := by
  have hend := hmalloced.end_le
  have hpad : meAlignPad pos 4 1 = (1 + 4 - pos % 4) % 4 := meAlignPad_four (by omega) (.inl rfl)
  rw [hmalloced.pad, hmalloced.new_eq]
  omega

/-- The bytes fit in the box. -/
theorem Malloced.room (hlen : len_i ≤ 2 ^ 32) (hmalloced : Malloced r bs len_i r' bs' new pos z) :
    4 * new + len_i ≤ 4 * (pos + z - 1) := by
  have hfits := hmalloced.fits
  have hwords := lenWords_eq hlen
  have hmin : minimum = 6 := rfl
  rw [hmalloced.new_eq]
  omega

theorem Malloced.aligned (hlen : len_i ≤ 2 ^ 32)
    (hmalloced : Malloced r bs len_i r' bs' new pos z) :
    Aligned r' bs' new len_i :=
  ⟨hmalloced.recovers.1, _, hmalloced.mem, ⟨_, rfl⟩, hmalloced.recovers.2, hmalloced.room hlen⟩

/-- `u3a_free()` takes back what `u3a_malloc()` gave. -/
theorem Malloced.frees (hmalloced : Malloced r bs len_i r' bs' new pos z) :
    ∃ r₂ bs₂, free r' (some new) = .ok r₂ ∧ Rep r₂ bs₂ ∧ ∀ c ∈ bs₂, c.Settled := by
  obtain ⟨xs, ys, hsplit⟩ := List.append_of_mem hmalloced.mem
  have hrep := hmalloced.rep
  have hsettled := hmalloced.settled
  rw [hsplit] at hrep hsettled
  obtain ⟨r₂, bs₂, hfree, hkept⟩ := hrep.wfree hsettled rfl
  refine ⟨r₂, bs₂, ?_, hkept.rep, hkept.settled⟩
  simp only [free, hmalloced.recovers.2]
  exact hfree

/-- The allocation is apart from those before. -/
theorem Malloced.apart (hmalloced : Malloced r bs len_i r' bs' new pos z) {a : ℕ × ℕ}
    (ha : a ∈ livesOf bs) : pos + 2 + (z - 3) ≤ a.1 ∨ a.1 + a.2 ≤ pos + 2 := by
  have hlive : ∀ b ∈ bs', ∀ len, b.state = .live len → len + 3 ≤ b.siz := by
    intro b hb len hstate
    have hok := (hmalloced.rep.ok b hb).2
    rw [hstate] at hok
    exact hok.2.2
  have hpairs := (hmalloced.lives.pairwise_iff (fun hor ↦ hor.symm)).mp
    (lives_apart hmalloced.rep.tiles hlive)
  exact (List.pairwise_cons.mp hpairs).1 a ha

/-- The loop of `u3a_realloc()` writes words of one allocation. -/
theorem Rep.copy {xs ys : List Box} {b : Box} {len k : ℕ} (hrep : Rep r (xs ++ b :: ys))
    (hstate : b.state = .live len) (old count : ℕ) (hcount : k + count ≤ len) :
    Rep (reallocCopy old (b.pos + 2 + k) count r) (xs ++ b :: ys) ∧
      (∀ w, w < b.pos + 2 + k ∨ b.pos + 2 + k + count ≤ w →
        (reallocCopy old (b.pos + 2 + k) count r).loom w = r.loom w) ∧
      ∀ i < count, old + i < b.pos + 2 + k ∨ b.pos + 2 + k + count ≤ old + i →
        (reallocCopy old (b.pos + 2 + k) count r).loom (b.pos + 2 + k + i) = r.loom (old + i) := by
  induction count with
  | zero => exact ⟨hrep, fun _ _ ↦ rfl, fun i hi ↦ absurd hi (Nat.not_lt_zero _)⟩
  | succ count ih =>
    obtain ⟨hrep', hframe, hcopied⟩ := ih (by omega)
    have hloom : ∀ w, (reallocCopy old (b.pos + 2 + k) (count + 1) r).loom w =
        if w = b.pos + 2 + k + count then
          (reallocCopy old (b.pos + 2 + k) count r).loom (old + count)
        else (reallocCopy old (b.pos + 2 + k) count r).loom w := fun w ↦ Function.update_apply ..
    refine ⟨?_, fun w hw ↦ ?_, fun i hi hout ↦ ?_⟩
    · rw [reallocCopy, Nat.add_assoc (b.pos + 2)]
      exact hrep'.poke hstate (by omega) _
    · rw [hloom, if_neg (by omega)]
      exact hframe w (by omega)
    · rw [hloom]
      by_cases hlast : i = count
      · subst hlast
        rw [if_pos rfl]
        exact hframe (old + i) (by omega)
      · rw [if_neg (by omega)]
        exact hcopied i (by omega) (by omega)

/-- `u3a_realloc()` moves what a pointer has to the storage. -/
theorem Malloced.reallocs {reclaim : Road → Except Fault Road} (hlen : len_i ≤ 2 ^ 32)
    (hmalloc : malloc reclaim fuel r len_i = .ok (r', new)) (hrep : Rep r bs)
    (hmalloced : Malloced r (bs.map Box.full) len_i r' bs' new pos z) {lag old_i : ℕ}
    (haligned : Aligned r bs lag old_i) :
    ∃ r₂ bs₂, realloc reclaim fuel r (some lag) len_i = .ok (r₂, new) ∧ Rep r₂ bs₂ ∧
      (∀ c ∈ bs₂, c.Settled) ∧ Aligned r₂ bs₂ new len_i ∧
        ∀ i, 4 * i < min old_i len_i → r₂.loom (new + i) = r.loom (lag + i) := by
  have hend := hmalloced.end_le
  have hwords := lenWords_eq hlen
  have hroom := hmalloced.room hlen
  have hnew := hmalloced.new_eq
  obtain ⟨hphase, hrecovers⟩ := hmalloced.recovers
  obtain ⟨org, len, hmem, horg, hback, holdroom⟩ := haligned.full
  have hapart := hmalloced.apart hmem
  replace hapart : pos + 2 + (z - 3) ≤ org ∨ org + len ≤ pos + 2 := hapart
  -- the size of the old box
  have hsiz : len < r.loom (org - 2) := by
    obtain ⟨b, hb, hstate, hpos⟩ := mem_livesOf.mp hmem
    have hok := (hrep.full.ok b hb).2
    replace hpos : org = b.pos + 2 := hpos
    rw [hstate] at hok
    rw [hpos, Nat.add_sub_cancel, hok.1.1]
    exact (Nat.lt_add_of_pos_right (by decide)).trans_le hok.2.2
  set tiz := min (r.loom (org - 2)) (lenWords len_i) with htiz
  obtain ⟨xs, ys, hsplit⟩ := List.append_of_mem hmalloced.mem
  have hrep' := hmalloced.rep
  rw [hsplit] at hrep'
  obtain ⟨hcopyrep, hframe, hcopied⟩ := hrep'.copy (k := meAlignPad pos 4 1 + 1) rfl lag tiz
    (by show _ ≤ z - 3; omega)
  have hpos : pos + 2 + (meAlignPad pos 4 1 + 1) = new := by omega
  rw [← hsplit] at hcopyrep
  simp only [hpos] at hcopyrep hframe hcopied
  -- the old box is freed
  have hmem' : (org, len) ∈ livesOf bs' := hmalloced.lives.mem_iff.mpr (List.mem_cons_of_mem _ hmem)
  obtain ⟨us, c, vs, rfl, hcstate, hcpos⟩ := exists_live hmem'
  obtain ⟨r₂, bs₂, hfree, hfreed, hsame⟩ := hcopyrep.free hcstate (settled_others hmalloced.settled)
  have hrealloc : realloc reclaim fuel r (some lag) len_i = .ok (r₂, new) := by
    have hbox : org - 2 = c.pos := by rw [hcpos, Nat.add_sub_cancel]
    simp only [realloc, hback, hmalloc, ok_bind, Allocate.wfree]
    rw [← htiz, hbox, hfree, ok_bind]
  -- the new allocation is another one
  have hother : (pos + 2, z - 3) ∈ livesOf (us ++ vs) := by
    have hnewmem : (pos + 2, z - 3) ∈ livesOf (us ++ c :: vs) :=
      hmalloced.lives.mem_iff.mpr List.mem_cons_self
    obtain ⟨d, hd, hdstate, hdpos⟩ := mem_livesOf.mp hnewmem
    replace hdpos : pos + 2 = d.pos + 2 := hdpos
    refine mem_livesOf.mpr ⟨d, ?_, hdstate, hdpos⟩
    have hdc : d ≠ c := by
      rintro rfl
      have hmin : minimum = 6 := rfl
      have hfits := hmalloced.fits
      omega
    simp only [List.mem_append, List.mem_cons] at hd ⊢
    rcases hd with hd | rfl | hd
    · exact .inl hd
    · exact absurd rfl hdc
    · exact .inr hd
  have hkeep : ∀ i < z - 3, r₂.loom (pos + 2 + i) =
    (reallocCopy lag new tiz r').loom (pos + 2 + i) :=
    hsame _ hother
  obtain ⟨d, hd, hdstate, hdpos⟩ := mem_livesOf.mp (hfreed.lives.symm ▸ hother)
  replace hdstate : d.state = .live (z - 3) := hdstate
  replace hdpos : pos + 2 = d.pos + 2 := hdpos
  have hdsiz : z ≤ d.siz := by
    have hok := (hfreed.rep.ok d hd).2
    rw [hdstate] at hok
    have hmin : minimum = 6 := rfl
    have hfits := hmalloced.fits
    have hle := hok.2.2
    omega
  have hpad := hmalloced.pad
  have hpad₂ : r₂.loom (new - 1) = r'.loom (new - 1) := by
    rw [show new - 1 = pos + 2 + meAlignPad pos 4 1 by omega, hkeep _ (by omega)]
    exact hframe _ (by omega)
  refine ⟨r₂, bs₂, hrealloc, hfreed.rep, hfreed.settled,
    ⟨hphase, d, hd, ⟨_, hdstate⟩, by rw [hpad₂, hrecovers, hdpos], by omega⟩, fun i hi ↦ ?_⟩
  have hiold : 4 * i < old_i := (Nat.lt_min.mp hi).1
  have hinew : 4 * i < len_i := (Nat.lt_min.mp hi).2
  have hitiz : i < tiz := by
    rw [htiz, Nat.lt_min]
    omega
  have hlag : org ≤ lag := by omega
  have hin : lag + i = org + (lag - org + i) := by omega
  calc r₂.loom (new + i) = (reallocCopy lag new tiz r').loom (new + i) := by
        rw [show new + i = pos + 2 + (meAlignPad pos 4 1 + 1 + i) by omega]
        exact hkeep _ (by omega)
    _ = r'.loom (lag + i) := hcopied i hitiz (by omega)
    _ = r.loom (lag + i) := by
        rw [hin]
        exact hmalloced.same _ hmem _ (by show _ < len; omega)

end

/-- Where no cells have to be dumped, `u3a_malloc()` gives storage for its bytes if and only if
there are no more than a 32-bit word counts, whatever `_ca_reclaim_half()` would do, and with enough
fuel it returns. -/
theorem malloc_serves {r : Road} {bs : List Box} (hrep : Rep r bs) (hsettled : ∀ c ∈ bs, c.Settled)
    (reclaim : Road → Except Fault Road) (len_i : ℕ) :
    (∀ fuel r' new, Serves reclaim fuel r bs len_i r' new → len_i ≤ 2 ^ 32) ∧
      (len_i ≤ 2 ^ 32 → Roomy r bs len_i → ∃ steps r' new, ∀ fuel,
        (fuel < steps → malloc reclaim fuel r len_i = .error .steps) ∧
        (steps ≤ fuel → malloc reclaim fuel r len_i = .ok (r', new) ∧
          Serves reclaim fuel r bs len_i r' new)) := by
  constructor
  · intro fuel r' new hserves
    obtain ⟨bs₂, hrep₂, _, _, b, hb, _, _, hroom⟩ := hserves.malloc
    have hend := hrep₂.end_le_loom hb
    omega
  · intro hlen hroomy
    obtain ⟨steps, r', new, bs', pos, z, hmalloced, hmalloc⟩ :=
      hrep.full.malloced (settled_full hsettled) reclaim hlen (roomy_full hroomy)
    refine ⟨steps, r', new, fun fuel ↦ ⟨fun hfuel ↦ (hmalloc fuel).trans (if_pos hfuel),
      fun hfuel ↦ ?_⟩⟩
    have hok : malloc reclaim fuel r len_i = .ok (r', new) :=
      (hmalloc fuel).trans (if_neg (Nat.not_lt.mpr hfuel))
    exact ⟨hok, ⟨bs', hmalloced.rep, hmalloced.settled, hmalloced.aligned hlen⟩, hmalloced.frees,
      fun lag old_i haligned ↦ hmalloced.reallocs hlen hok hrep haligned⟩

/-- Storage for ten bytes on a road with nothing on it. -/
theorem malloc_serves_empty :
    ∃ steps r' new, ∀ fuel, (fuel < steps → malloc caReclaimHalf fuel emptyRoad 10 =
      .error .steps) ∧
      (steps ≤ fuel → malloc caReclaimHalf fuel emptyRoad 10 = .ok (r', new) ∧
        Serves caReclaimHalf fuel emptyRoad [] 10 r' new) :=
  (malloc_serves (.empty emptyRoad_empty) (by simp) caReclaimHalf 10).2 (by decide)
    (.inr (by decide))

/-- A road of 16 words with nothing on it. -/
def shortRoad : Road :=
  { home := false, cap_p := 16, hat_p := 3, rut_p := 3, fre_p := fun _ ↦ 0, cel_p := 0,
    loom := fun _ ↦ 0 }

/-- Two cells are made and freed, and fill the heap: `u3a_malloc()` dumps them, and finds a box of
twelve words in the other phase, so that the last of the eight words are its size word and the word
after. -/
theorem malloc_short :
    ∃ r r', Run Call.Fits r [] ∧ malloc caReclaimHalf 60 r 32 = .ok (r', 8) ∧
      r'.loom 3 = 12 ∧ r'.loom 14 = 12 ∧
        ¬∃ bs', Rep r' bs' ∧ (∀ c ∈ bs', c.Settled) ∧ Aligned r' bs' 8 32 := by
  obtain ⟨r₁, hfirst, r₂, hsecond, r₃, hthird, r₄, hfourth, r₅, hmalloc, hhead, htail, hpad⟩ :
      ∃ r₁, Call.celloc.step 30 shortRoad [] = .ok (r₁, [(5, 3)]) ∧
        ∃ r₂, Call.celloc.step 30 r₁ [(5, 3)] = .ok (r₂, [(11, 3), (5, 3)]) ∧
          ∃ r₃, (Call.cfree 5).step 30 r₂ [(11, 3), (5, 3)] = .ok (r₃, [(11, 3)]) ∧
            ∃ r₄, (Call.cfree 11).step 30 r₃ [(11, 3)] = .ok (r₄, []) ∧
              ∃ r₅, malloc caReclaimHalf 60 r₄ 32 = .ok (r₅, 8) ∧
                r₅.loom 3 = 12 ∧ r₅.loom 14 = 12 ∧ r₅.loom 7 = 2 :=
    ⟨_, rfl, _, rfl, _, rfl, _, rfl, _,
      rfl, by decide +kernel, by decide +kernel, by decide +kernel⟩
  have hempty : shortRoad.Empty := ⟨rfl, by decide, by decide, by decide, fun _ _ ↦ rfl, rfl⟩
  have hrun₁ : Run Call.Fits r₁ [(5, 3)] := .call 30 .celloc (.empty hempty) trivial trivial hfirst
  have hrun₂ : Run Call.Fits r₂ [(11, 3), (5, 3)] := .call 30 .celloc hrun₁ trivial trivial hsecond
  have hrun₃ : Run Call.Fits r₃ [(11, 3)] := .call 30 (.cfree 5) hrun₂ ⟨3, by simp⟩ trivial hthird
  have hrun₄ : Run Call.Fits r₄ [] := .call 30 (.cfree 11) hrun₃ ⟨3, by simp⟩ trivial hfourth
  refine ⟨r₄, r₅, hrun₄, hmalloc, hhead, htail, ?_⟩
  rintro ⟨bs, hrep, _, _, b, hb, ⟨len, hstate⟩, hrecovers, hroom⟩
  have htagged := ((hrep.ok b hb).tagged (by simp [hstate])).1
  rw [show 8 - 1 = 7 from rfl, hpad] at hrecovers
  have hpos : b.pos = 3 := by omega
  rw [hpos, hhead] at htagged
  omega

end Vere.Noun.Allocate
