import Vere.Noun.AllocateRun
import Vere.Noun.TakeWash

/-!
# Copying to a road

`u3a_walloc()` of the allocator is an allocator of copies (`roadAllocator`). With any such
allocator, `u3a_take()` returns a copy, unless there is no room in the middle of it, and
`u3a_wash()` leaves mugs only (`take_copies`).
-/

set_option autoImplicit false

namespace Vere.Noun.Take

open Shared (Ref Arm)

/-! ### The allocator of a road -/

/-- The road of the allocator, with the bounds of a road. -/
def withBounds (pool : Allocate.Road) (rod_u : Road) : Allocate.Road :=
  { pool with cap_p := rod_u.cap_p, hat_p := rod_u.hat_p, rut_p := rod_u.rut_p }

variable {north : Bool} {rod_u : Road} {bs : List Allocate.Box} {r pool : Allocate.Road}

theorem Road.Bounded.allocates (hbounded : rod_u.Bounded north) (pool : Allocate.Road) :
    (withBounds pool rod_u).isNorth = north :=
  hbounded.isNorth

/-- The boxes in use are allocations. -/
def Allocated (pool : Allocate.Road) (rod_u : Road) (north : Bool) (live : ℕ → Prop) : Prop :=
  (withBounds pool rod_u).isNorth = north ∧ ∃ bs, Allocate.Rep (withBounds pool rod_u) bs ∧
    (∀ c ∈ bs, c.Settled) ∧
    ∀ off, live off → ∃ len, (off, len) ∈ Allocate.livesOf bs

/-- Allocations are in the heap of the road. -/
theorem heaped_of_live {off len : ℕ} (hbounded : rod_u.Bounded north) (hr : r = withBounds r rod_u)
    (hrep : Allocate.Rep r bs) (hlive : (off, len) ∈ Allocate.livesOf bs) :
    rod_u.Heaped north off := by
  obtain ⟨xs, b, ys, rfl, _, rfl⟩ := Allocate.exists_live hlive
  obtain ⟨hlow, hhigh⟩ := hrep.tiles.mem (List.mem_append_right xs List.mem_cons_self)
  have hmin : 6 ≤ b.siz := hrep.siz_le (List.mem_append_right xs List.mem_cons_self)
  have hnorth : r.isNorth = north := by
    rw [hr]
    exact hbounded.allocates r
  have hrut : r.rut_p = rod_u.rut_p := by rw [hr]; rfl
  have hhat : r.hat_p = rod_u.hat_p := by rw [hr]; rfl
  cases north with
  | true =>
    rw [Allocate.Road.low_north hnorth, hrut] at hlow
    rw [Allocate.Road.high_north hnorth, hhat] at hhigh
    show rod_u.rut_p ≤ b.pos + 2 ∧ b.pos + 2 < rod_u.hat_p
    omega
  | false =>
    rw [Allocate.Road.low_south hnorth, hhat] at hlow
    rw [Allocate.Road.high_south hnorth, hrut] at hhigh
    show rod_u.hat_p ≤ b.pos + 2 ∧ b.pos + 2 < rod_u.rut_p
    omega

/-- No two allocations are at one place. -/
theorem lives_nodup (hrep : Allocate.Rep r bs) : ((Allocate.livesOf bs).map Prod.fst).Nodup := by
  have hpos : (bs.map Allocate.Box.pos).Nodup := hrep.nodup
  clear hrep
  induction bs with
  | nil => exact .nil
  | cons b bs ih =>
    obtain ⟨hnot, hrest⟩ := List.nodup_cons.mp hpos
    by_cases hstate : ∃ len, b.state = .live len
    · obtain ⟨len, hstate⟩ := hstate
      rw [Allocate.livesOf_cons_self bs hstate, List.map_cons]
      refine List.nodup_cons.mpr ⟨fun hmem ↦ ?_, ih hrest⟩
      obtain ⟨⟨p, len'⟩, hlive, hp⟩ := List.mem_map.mp hmem
      obtain ⟨xs, c, ys, rfl, _, rfl⟩ := Allocate.exists_live hlive
      obtain heq : c.pos = b.pos := Nat.add_right_cancel hp
      exact hnot (heq ▸ List.mem_map_of_mem (List.mem_append_right xs List.mem_cons_self))
    · rw [Allocate.livesOf_cons_ne bs fun len h ↦ hstate ⟨len, h⟩]
      exact ih hrest

/-- The bounds after an allocation. -/
theorem Road.Bounded.grown (hbounded : rod_u.Bounded north)
    (hstays : Allocate.Stays (withBounds pool rod_u) r) (hrep : Allocate.Rep r bs) :
    { rod_u with hat_p := r.hat_p }.Bounded north := by
  have hnorth : r.isNorth = north := hstays.isNorth.trans (hbounded.allocates pool)
  have hcap : r.cap_p = rod_u.cap_p := hstays.cap
  have hrut : r.rut_p = rod_u.rut_p := hstays.rut
  have hle := hrep.tiles.le
  cases north with
  | true =>
    obtain ⟨_, _, hmat, hpos, hend⟩ := hbounded
    rw [Allocate.Road.low_north hnorth, Allocate.Road.high_north hnorth, hrut] at hle
    have hhat := Allocate.Road.isNorth_iff.mp hnorth
    rw [hcap] at hhat
    exact ⟨hle, hhat, hmat, hpos, hend⟩
  | false =>
    obtain ⟨hmat, _, _, hpos, hend⟩ := hbounded
    rw [Allocate.Road.low_south hnorth, Allocate.Road.high_south hnorth, hrut] at hle
    have hhat := Allocate.Road.isNorth_eq_false.mp hnorth
    rw [hcap] at hhat
    exact ⟨hmat, hhat, hle, hpos, hend⟩

theorem Road.Bounded.cap_le (hbounded : rod_u.Bounded north) : rod_u.cap_p ≤ 2 ^ 30 := by
  cases north with
  | true =>
    obtain ⟨_, _, hmat, _, hend⟩ := hbounded
    exact hmat.trans hend
  | false =>
    obtain ⟨_, hcap, hhat, _, hend⟩ := hbounded
    exact (hcap.trans hhat).trans hend

/-- The heap does not depend on the stack. -/
theorem rep_stacked {cap_p : ℕ} (hrep : Allocate.Rep (withBounds pool rod_u) bs)
    (hnorth : (withBounds pool { rod_u with cap_p := cap_p }).isNorth =
      (withBounds pool rod_u).isNorth)
    (hcap : cap_p ≤ 2 ^ 30) : Allocate.Rep (withBounds pool { rod_u with cap_p := cap_p }) bs := by
  have hlow : (withBounds pool { rod_u with cap_p := cap_p }).low =
    (withBounds pool rod_u).low := by
    rw [Allocate.Road.low, Allocate.Road.low, hnorth]
    rfl
  have hhigh : (withBounds pool { rod_u with cap_p := cap_p }).high =
    (withBounds pool rod_u).high := by
    rw [Allocate.Road.high, Allocate.Road.high, hnorth]
    rfl
  refine ⟨?_, hcap, hrep.rut_le, ?_, hrep.ok, hrep.fre, hrep.cel⟩
  · rw [hlow]
    exact hrep.pos
  · rw [hlow, hhigh]
    exact hrep.tiles

/-- `u3a_walloc()` of a road. -/
def roadAllocator (fuel : ℕ) : Allocator where
  Pool := Allocate.Road
  walloc pool rod_u len_w :=
    match Allocate.walloc fuel (withBounds pool rod_u) len_w with
    | .ok (r, tox) => some (r, r.hat_p, tox)
    | .error _ => none
  Holds := Allocated
  walloc_holds {pool pool'} {rod_u north live len_w hat_p off} hbounded hholds hlen hwalloc := by
    obtain ⟨_, bs, hrep, hsettled, hlive⟩ := hholds
    have halloc := hrep.walloc hsettled fuel hlen
    cases hres : Allocate.walloc fuel (withBounds pool rod_u) len_w with
    | error _ =>
      rw [hres] at hwalloc
      cases hwalloc
    | ok res =>
      obtain ⟨r, tox⟩ := res
      rw [hres] at hwalloc halloc
      obtain ⟨rfl, rfl, rfl⟩ : r = pool' ∧ r.hat_p = hat_p ∧ tox = off := by simpa using hwalloc
      obtain ⟨bs', hstays, hrep', hsettled', hlives⟩ := halloc
      have hgrown := hbounded.grown hstays hrep'
      have hr : r = withBounds r { rod_u with hat_p := r.hat_p } := by
        show r = { r with cap_p := rod_u.cap_p, hat_p := r.hat_p, rut_p := rod_u.rut_p }
        rw [← show r.cap_p = rod_u.cap_p from hstays.cap,
          ← show r.rut_p = rod_u.rut_p from hstays.rut]
      have hold : ∀ b, live b → ∃ len, (b, len) ∈ Allocate.livesOf bs' := by
        intro b hb
        obtain ⟨len, hmem⟩ := hlive b hb
        exact ⟨len, hlives.symm.subset (List.mem_cons_of_mem _ hmem)⟩
      have hnew : (tox, len_w) ∈ Allocate.livesOf bs' := hlives.symm.subset List.mem_cons_self
      refine ⟨hgrown, fun b hb ↦ ?_, heaped_of_live hgrown hr hrep' hnew, fun hused ↦
        ?_, hgrown.allocates r, bs', ?_,
        hsettled', ?_⟩
      · obtain ⟨len, hmem⟩ := hold b hb
        exact heaped_of_live hgrown hr hrep' hmem
      · obtain ⟨len, hmem⟩ := hlive tox hused
        have hnodup := (hlives.map Prod.fst).nodup_iff.mp (lives_nodup hrep')
        exact (List.nodup_cons.mp hnodup).1 (List.mem_map.mpr ⟨(tox, len), hmem, rfl⟩)
      · rw [← hr]
        exact hrep'
      · rintro b (hb | rfl)
        · exact hold b hb
        · exact ⟨len_w, hnew⟩
  holds_mono {pool rod_u north live live' cap_p} hholds hbounded hsub := by
    obtain ⟨hnorth, bs, hrep, hsettled, hlive⟩ := hholds
    have hnorth' : (withBounds pool { rod_u with cap_p := cap_p }).isNorth = north :=
      hbounded.allocates pool
    exact ⟨hnorth', bs, rep_stacked hrep (hnorth'.trans hnorth.symm) hbounded.cap_le, hsettled,
      fun off hoff ↦ hlive off (hsub off hoff)⟩

/-! ### Copies -/

theorem take_eq {A : Allocator} {s : Loom A} (hbounded : s.rod_u.Bounded north) (fuel : ℕ)
    (veb : Ref) : take fuel veb s = takeFrom north fuel fuel veb s := by
  show (do
    let pro ← takeNext s.rod_u.isNorth fuel veb
    takeLoop s.rod_u.isNorth fuel pro : M A Ref) s = _
  rw [hbounded.isNorth]
  rfl

/-- A noun is copied out of an inner road, unless the copy bails in the middle for want of room.
Washing the noun that was copied leaves the mugs of nouns, and none of its boxes with a reference to
its copy. -/
theorem take_copies {A : Allocator} {s : Loom A} {north : Bool} {veb : Ref} {n : Noun}
    (hash : Noun → ℕ) (hready : Ready s.rod_u north s.heap) (hpile : s.pil_u = [])
    (hholds : A.Holds s.pool s.rod_u north fun off ↦ s.heap off ≠ none ∧ s.rod_u.Heaped north off)
    (hmugs : Mugged hash s.heap) (hden : Denotes s.heap veb n) :
    (∃ why s' more extra, Halts s.rod_u north s.heap [] [] s veb n why s' more extra ∧
        ∃ need, ∀ fuel, need ≤ fuel → take fuel veb s = .error why s') ∨
      ∃ pro s' news, (∃ need, ∀ fuel, need ≤ fuel → take fuel veb s = .ok pro s') ∧
        Copied s s' north veb pro news ∧
        ∀ fuel, n.size ≤ fuel → ∃ dogs, wash fuel veb s' = .ok ()
          { s' with heap := blanked s'.heap dogs } ∧
          (∀ off ∈ dogs, s.rod_u.isJunior north off = true) ∧
          Mugged hash (blanked s'.heap dogs) := by
  rcases take_runs hready hden (hready.taking hpile hholds) with
    ⟨why, s', more, extra, hhalts, need, hstops⟩ | ⟨pro, s', more, hleads, htaking, hpile', hmoves,
      -, hparts⟩
  · refine .inl ⟨why, s', more, extra, hhalts, need, fun fuel hfuel ↦ ?_⟩
    rw [take_eq hready.bounded]
    exact hstops fuel fuel hfuel hfuel
  · rw [List.append_nil] at htaking hmoves
    rw [hpile] at hpile'
    refine .inr ⟨pro, s', more.map Copy.new, ?_, htaking.copied hready hpile' hden hmoves,
      fun fuel hfuel ↦ ?_⟩
    · obtain ⟨need, hends⟩ := hleads.done hpile'
      refine ⟨need, fun fuel hfuel ↦ ?_⟩
      rw [take_eq hready.bounded]
      exact hends fuel fuel hfuel hfuel
    · exact htaking.washed hash hready hpile' hden hmoves hparts hmugs hfuel

/-- The boxes of an atom, and of a cell that has it twice, above the stack of the road. -/
def pairHeap : Heap := fun off ↦
  if off = 70 then some ⟨2, 1, .atom [5, 1]⟩ else if off = 80 then some
    ⟨1, 0, .cell (.pug 70) (.pug 70)⟩ else none

/-- A road of 64 words with nothing on it, and with the nouns of an inner road. -/
def pairLoom : Loom (roadAllocator 30) where
  rod_u := ⟨64, 1, 100, 1⟩
  pool := Allocate.emptyRoad
  heap := pairHeap
  pil_u := []

theorem pairHeap_cases {off : ℕ} {box : Box} (hbox : pairHeap off = some box) :
    off = 70 ∧ box = ⟨2, 1, .atom [5, 1]⟩ ∨ off = 80 ∧ box = ⟨1, 0, .cell (.pug 70) (.pug 70)⟩ := by
  unfold pairHeap at hbox
  split_ifs at hbox with hatom hcell
  · exact .inl ⟨hatom, (Option.some.inj hbox).symm⟩
  · exact .inr ⟨hcell, (Option.some.inj hbox).symm⟩

theorem pair_atom : Denotes pairHeap (.pug 70) (.atom (valueOf [5, 1])) :=
    .pug (show pairHeap 70 = _ from rfl)

theorem pair_cell : Denotes pairHeap (.pom 80)
    (.cell (.atom (valueOf [5, 1])) (.atom (valueOf [5, 1]))) :=
  .pom (show pairHeap 80 = _ from rfl) pair_atom pair_atom

theorem pair_ready : Ready pairLoom.rod_u true pairLoom.heap where
  bounded := (by decide : 1 ≤ 1 ∧ 1 < 64 ∧ 64 ≤ 100 ∧ 0 < 1 ∧ 100 ≤ 2 ^ 30)
  nouns off box hbox := by
    rcases pairHeap_cases hbox with ⟨rfl, rfl⟩ | ⟨rfl, rfl⟩
    · exact ⟨_, pair_atom⟩
    · exact ⟨_, pair_cell⟩
  placed off box hbox := by
    rcases pairHeap_cases hbox with ⟨rfl, rfl⟩ | ⟨rfl, rfl⟩ <;> exact .inr (.inr (by decide))
  used off box hbox hheaped := by
    obtain ⟨hlow, hhigh⟩ : 1 ≤ off ∧ off < 1 := hheaped
    omega
  mugs off box hbox _ := by
    rcases pairHeap_cases hbox with ⟨rfl, rfl⟩ | ⟨rfl, rfl⟩ <;> decide
  lengths off use_w mug_w buf_w hbox := by
    rcases pairHeap_cases hbox with ⟨_, hbox⟩ | ⟨_, hbox⟩
    · cases hbox
      decide
    · cases hbox
  outward off box hbox hjunior := by
    rcases pairHeap_cases hbox with ⟨rfl, rfl⟩ | ⟨rfl, rfl⟩ <;> exact absurd hjunior (by decide)

theorem pair_mugged :
    Mugged (fun n ↦ if n = .atom (valueOf [5, 1]) then 1 else 7) pairLoom.heap := by
  intro off box n hbox hden
  rcases pairHeap_cases hbox with ⟨rfl, rfl⟩ | ⟨rfl, rfl⟩
  · refine .inr ?_
    rw [hden.unique pair_atom]
    rfl
  · exact .inl rfl

theorem pair_holds : (roadAllocator 30).Holds pairLoom.pool pairLoom.rod_u true
    fun off ↦ pairLoom.heap off ≠ none ∧ pairLoom.rod_u.Heaped true off := by
  refine ⟨rfl, [], Allocate.Rep.empty Allocate.emptyRoad_empty, nofun, fun off hlive ↦ ?_⟩
  obtain ⟨hlow, hhigh⟩ : 1 ≤ off ∧ off < 1 := hlive.2
  omega

theorem roadAllocator_walloc {fuel len_w off : ℕ}
    (hwalloc : Allocate.walloc fuel (withBounds pool rod_u) len_w = .ok (r, off)) :
    (roadAllocator fuel).walloc pool rod_u len_w = some (r, r.hat_p, off) := by
  unfold roadAllocator
  dsimp only
  rw [hwalloc]

/-- The pair after its frame has been pushed. -/
def pairPushed : Loom (roadAllocator 30) :=
  { pairLoom with rod_u := ⟨62, 1, 100, 1⟩, pil_u := [⟨none, 80⟩] }

/-- The pair after its atom has been copied as the head. -/
def pairHead (pool : Allocate.Road) : Loom (roadAllocator 30) where
  rod_u := ⟨62, pool.hat_p, 100, 1⟩
  pool := pool
  heap := Function.update (Function.update pairHeap 3 (some ⟨1, 1, .atom [5, 1]⟩)) 70
    (some ⟨2, (Ref.pug 3).word, .atom [5, 1]⟩)
  pil_u := [⟨some (.pug 3), 80⟩]

/-- The pair after the copy of its atom has been gained as the tail. -/
def pairTail (pool : Allocate.Road) : Loom (roadAllocator 30) :=
  { pairHead pool with heap := Function.update (pairHead pool).heap 3 (some ⟨2, 1, .atom [5, 1]⟩) }

/-- There is room on the road for the pair. -/
theorem pair_takes :
    ∃ pro s', ∃ need, ∀ fuel, need ≤ fuel → take fuel (.pom 80) pairLoom = .ok pro s' := by
  obtain ⟨r₁, hatom, r₂, off, hcell⟩ :
      ∃ r₁, Allocate.walloc 30 (withBounds Allocate.emptyRoad ⟨62, 1, 100, 1⟩) 4 = .ok (r₁, 3) ∧
        ∃ r₂ off, Allocate.walloc 30 (withBounds r₁ ⟨62, r₁.hat_p, 100, 1⟩) 3 = .ok (r₂, off) :=
    ⟨_, rfl, _, _, rfl⟩
  have hpush : ∀ f, takeNext true (f + 1) (.pom 80) pairLoom =
    takeNext true f (.pug 70) pairPushed :=
    fun f ↦ rfl
  -- the atom is copied as the head, and its copy is gained as the tail
  rcases takeAtom_eq (show pairPushed.heap 70 = some ⟨2, 1, .atom [5, 1]⟩ from rfl) rfl with
    ⟨hnone, -⟩ | ⟨pool, hat_p, new, hwalloc, hhead⟩
  · exact absurd ((roadAllocator_walloc hatom).symm.trans hnone) nofun
  cases (roadAllocator_walloc hatom).symm.trans hwalloc
  have hleads := leads_of_head hpush (leads_of_ok fun f ↦ hhead)
  have hshared : (pairHead r₁).heap 70 = some ⟨2, (Ref.pug 3).word, .atom [5, 1]⟩ := rfl
  have htail : ∀ f, takeNext true (f + 1) (.pug 70) (pairHead r₁) = .ok (.pug 3) (pairTail r₁) :=
    fun f ↦
    takeNext_copied rfl rfl rfl hshared (by decide) (refOf_pug (by decide)) rfl rfl f
  replace hleads : Leads true (fun f g ↦ takeFrom true f g (.pom 80) pairLoom) (.pug 3)
      (pairTail r₁) := by
    refine hleads.next (fun g ↦ ?_) (leads_of_ok htail)
    exact @takeLoop_head _ true _ _ 80 1 0 (.pug 70) (.pug 70) [] rfl rfl g
  -- the cell
  have hpair : (pairTail r₁).heap 80 = some ⟨1, 0, .cell (.pug 70) (.pug 70)⟩ := rfl
  rcases takeCell_eq (.pug 3) (.pug 3) hpair with ⟨hnone, -⟩ | ⟨pool, hat_p, new, hwalloc, hnew⟩
  · exact absurd ((roadAllocator_walloc hcell).symm.trans hnone) nofun
  cases (roadAllocator_walloc hcell).symm.trans hwalloc
  replace hleads := hleads.step fun g ↦ (takeLoop_tail rfl g).trans ((Shared.bind_ok hnew _).trans
    (Shared.bind_ok rfl _))
  obtain ⟨need, hneed⟩ := hleads.done rfl
  exact ⟨.pom off, _, need, fun fuel hfuel ↦
    (take_eq pair_ready.bounded fuel _).trans (hneed fuel fuel hfuel hfuel)⟩

/-- A cell that has an atom twice, from an inner road. -/
theorem take_copies_pair :
    ∃ pro s' news, (∃ need, ∀ fuel, need ≤ fuel → take fuel (.pom 80) pairLoom = .ok pro s') ∧
    Copied pairLoom s' true (.pom 80) pro news ∧
    ∀ fuel, 3 ≤ fuel → ∃ dogs, wash fuel (.pom 80) s' =
      .ok () { s' with heap := blanked s'.heap dogs } ∧
      (∀ off ∈ dogs, pairLoom.rod_u.isJunior true off = true) ∧
      Mugged (fun n ↦ if n = .atom (valueOf [5, 1]) then 1 else 7) (blanked s'.heap dogs) := by
  refine (take_copies _ pair_ready rfl pair_holds pair_mugged pair_cell).resolve_left ?_
  rintro ⟨why, s', more, extra, -, need, hstops⟩
  obtain ⟨pro, s'', need', htakes⟩ := pair_takes
  have hstop := hstops (need + need') (Nat.le_add_right _ _)
  rw [htakes (need + need') (Nat.le_add_left _ _)] at hstop
  cases hstop

end Vere.Noun.Take
