import Vere.King.AmesQueue

/-!
# Packets that wait for lanes

`_ames_try_forward()` and `_ames_lane_scry_cb()` of `pkg/vere/io/ames.c`, in any order. A packet
without a lane is kept and a scry asks for its lanes. The list has the packets whose scry has not
been answered, `foq_d` counts them, and every packet has one end (`Forwards.Good`).

That holds in every state of a run, but a packet of another version than 0 stops the node when it
has lanes, or when its scry fails (`forwards_stop`). `forwards_iff` says that this is all that can
go wrong.
-/

set_option autoImplicit false

namespace Vere.King.Ames

open Lib.Results

/-! ### Runs -/

/-- A packet whose scry has not been answered, by its number. -/
structure Waiting where
  place : ℕ
  ptr : ℕ
  pac_u : Panc

/-- How a packet ends. -/
inductive Fate
  | forwarded
  | injected
  | dropped
  deriving DecidableEq

/-- A node, with the number of packets that it was to forward, those that wait, and how the others
ended. -/
structure Forwards where
  sam_u : Sam
  offered : ℕ
  waits : List Waiting
  ends : List (ℕ × Fate)

/-- A packet is to be forwarded, the scry of a waiting packet is answered, and the version, the
flags and the cache change. -/
inductive ForwardEvent
  | offer (now ptr : ℕ) (lan_u : Lane) (hed_u : Head) (bod_u : Body)
  | answer (index now : ℕ) (nun : Noun)
  | tune (ver_y : ℕ) (fit_o see_o : Bool) (lax_p : ℕ → Option (Noun × ℕ))

/-- What becomes of a packet at once. -/
def offerFate (sam_u : Sam) (now who : ℕ) : Option Fate :=
  match sam_u.fromCache now who with
  | none => if 1000 < sam_u.foq_d then some .dropped else none
  | some las => if las = .nul then some .dropped else some .forwarded

/-- What becomes of a packet when its scry is answered. -/
def answerFate (nun : Noun) : Fate :=
  match scryLanes nun with
  | none => .injected
  | some las => if las = .nul then .dropped else .forwarded

/-- One event. -/
def forwardStep (fow : Forwards) : ForwardEvent → Except Crash Forwards
  | .offer now ptr lan_u hed_u bod_u => do
    let r ← tryForward fow.sam_u now ptr lan_u hed_u bod_u
    match offerFate fow.sam_u now bod_u.rec_d with
    | none => .ok { fow with
        sam_u := r.sam_u, offered := fow.offered + 1
        waits := ⟨fow.offered, ptr, ⟨lan_u, hed_u, bod_u⟩⟩ :: fow.waits }
    | some fate => .ok { fow with
        sam_u := r.sam_u, offered := fow.offered + 1, ends := (fow.offered, fate) :: fow.ends }
  | .answer index now nun =>
    match fow.waits[index]? with
    | none => .error .wild
    | some wait => do
      let r ← laneScryCb fow.sam_u now wait.ptr nun
      .ok { fow with
        sam_u := r.sam_u, waits := fow.waits.eraseIdx index
        ends := (wait.place, answerFate nun) :: fow.ends }
  | .tune ver_y fit_o see_o lax_p =>
    .ok { fow with
      sam_u := { fow.sam_u with ver_y := ver_y, fit_o := fit_o, see_o := see_o, lax_p := lax_p } }

/-- A node that is live and has not heard a packet. -/
def Forwards.begin (sam_u : Sam) : Forwards :=
  ⟨{ sam_u with liv_o := true, lax_p := fun _ ↦ none, pac_u := 0, mem := fun _ ↦ none, foq_d := 0 },
    0, [], []⟩

/-- Packets are for other ships than galaxies and are kept at a new address, a scry is answered
once, and answers and cached lanes are lists of lanes. -/
def ForwardEvent.Legal (fow : Forwards) : ForwardEvent → Prop
  | .offer _ ptr _ _ bod_u => galaxy bod_u.rec_d = false ∧ ptr ≠ 0 ∧ fow.sam_u.mem ptr = none
  | .answer index _ nun =>
    index < fow.waits.length ∧ ∀ las, scryLanes nun = some las → ∃ lans, Lanes las lans
  | .tune _ _ _ lax_p => ∀ who las den, lax_p who = some (las, den) → ∃ lans, Lanes las lans

/-- The bounds of the fields of a header and a body. -/
local instance neZeroVersion : NeZero 8 := ⟨by decide⟩

/-- A packet that goes out is of version 0. -/
def ForwardEvent.Safe (fow : Forwards) : ForwardEvent → Prop
  | .offer now _ _ hed_u bod_u =>
    ∀ las, fow.sam_u.fromCache now bod_u.rec_d = some las → las ≠ .nul → hed_u.ver_y = 0
  | .answer index _ nun =>
    ∀ wait, fow.waits[index]? = some wait → wait.pac_u.hed_u.ver_y = 0 ∨ scryLanes nun = some .nul
  | .tune _ _ _ _ => True

/-- What the node does with a packet: it is sent once on each of its lanes, or injected, or nothing.
-/
def Fate.Shows (sam_u : Sam) (las : Option Noun) : Option Fate → Result → Prop
  | some .forwarded, r => r.put = [] ∧
    ∀ noun lans, las = some noun → Lanes noun lans →
    r.out.map Pact.dest = lans.filterMap (destOf sam_u)
  | some .injected, r => r.out = [] ∧ r.put.length = 1
  | some .dropped, r => r.out = [] ∧ r.put = []
  | none, r => r.out = [] ∧ r.put = []

/-- The list has the packets that wait, they are counted, every packet waits or has ended once, and
can be freed; and what the node does next with a packet shows how it ends. -/
structure Forwards.Good (fow : Forwards) : Prop where
  queue : Queue fow.sam_u (fow.waits.map Waiting.ptr)
  kept : ∀ wait ∈ fow.waits, fow.sam_u.packet wait.ptr = some wait.pac_u
  count : fow.sam_u.foq_d = fow.waits.length
  bound : fow.waits.length ≤ 1001
  once : (fow.waits.map Waiting.place ++ fow.ends.map Prod.fst).Perm (List.range fow.offered)
  free : ∀ wait ∈ fow.waits, ∃ sam_u, pancFree fow.sam_u wait.ptr = .ok sam_u
  offers : ∀ now ptr lan_u hed_u bod_u r, galaxy bod_u.rec_d = false → ptr ≠ 0 →
    fow.sam_u.mem ptr = none →
    tryForward fow.sam_u now ptr lan_u hed_u bod_u = .ok r →
    Fate.Shows fow.sam_u (fow.sam_u.fromCache now bod_u.rec_d)
      (offerFate fow.sam_u now bod_u.rec_d) r
  answers : ∀ wait ∈ fow.waits, ∀ now nun r, laneScryCb fow.sam_u now wait.ptr nun = .ok r →
    Fate.Shows fow.sam_u (scryLanes nun) (some (answerFate nun)) r

/-! ### One packet -/

variable {sam_u sam' : Sam} {ptr now : ℕ} {l l₁ l₂ : List ℕ} {pac_u : Panc} {r : Result}
  {fow fow' : Forwards}

/-- The list is another, the other packets are kept, and the node is as it was. -/
structure Leaves (sam_u sam' : Sam) (ptr : ℕ) (l : List ℕ) : Prop where
  queue : Queue sam' l
  packet : ∀ p ≠ ptr, sam'.packet p = sam_u.packet p
  liv : sam'.liv_o = sam_u.liv_o
  dest : destOf sam' = destOf sam_u

/-- A packet that is freed leaves the others. -/
theorem pancFree_leaves (hqueue : Queue sam_u (l₁ ++ ptr :: l₂))
    (hfree : pancFree sam_u ptr = .ok sam') :
    Leaves sam_u sam' ptr (l₁ ++ l₂) ∧ sam'.foq_d = sam_u.foq_d ∧ sam'.lax_p = sam_u.lax_p := by
  obtain ⟨last, hok, hlinking, hqueue', hpacket⟩ := pancFree_ok hqueue
  obtain rfl := Except.ok.inj (hok.symm.trans hfree)
  refine ⟨⟨hqueue', hpacket, hlinking.liv, hlinking.dest⟩, ?_, ?_⟩
  · rw [hlinking]
  · rw [hlinking]

theorem forward_leaves {las : Noun} (hqueue : Queue sam_u (l₁ ++ ptr :: l₂))
    (hliv : sam_u.liv_o = true) (hpacket : sam_u.packet ptr = some pac_u)
    (hforward : forward sam_u ptr las = .ok r) :
    Leaves sam_u r.sam_u ptr (l₁ ++ l₂) ∧ r.sam_u.foq_d = sam_u.foq_d ∧
    r.sam_u.lax_p = sam_u.lax_p ∧
      pac_u.hed_u.ver_y = 0 ∧ r.put = [] ∧
      ∀ lans, Lanes las lans → r.out.map Pact.dest = lans.filterMap (destOf sam_u) := by
  have hver : pac_u.hed_u.ver_y = 0 := by
    by_contra hver
    rw [forward_version hpacket hver] at hforward
    cases hforward
  have hsent : ∀ lans, Lanes las lans → r.out.map Pact.dest = lans.filterMap (destOf sam_u) := by
    intro lans hlanes
    obtain ⟨r', hok, hout⟩ := forward_ok hliv hqueue hpacket hver hlanes
    obtain rfl := Except.ok.inj (hok.symm.trans hforward)
    exact hout
  rw [forward_eq hpacket] at hforward
  obtain ⟨pac, -, hforward⟩ := bind_eq_ok hforward
  obtain ⟨out, -, hforward⟩ := bind_eq_ok hforward
  obtain ⟨sam', hfree, hforward⟩ := bind_eq_ok hforward
  obtain rfl := Except.ok.inj hforward
  obtain ⟨hleaves, hfoq, hlax⟩ := pancFree_leaves hqueue hfree
  exact ⟨hleaves, hfoq, hlax, hver, rfl, hsent⟩

theorem tryForward_leaves {lan_u : Lane} {hed_u : Head} {bod_u : Body} (hqueue : Queue sam_u l)
    (hliv : sam_u.liv_o = true) (hstar : galaxy bod_u.rec_d = false) (hptr : ptr ≠ 0)
    (hnew : sam_u.mem ptr = none)
    (htry : tryForward sam_u now ptr lan_u hed_u bod_u = .ok r) :
    r.sam_u.lax_p = sam_u.lax_p ∧
      Fate.Shows sam_u (sam_u.fromCache now bod_u.rec_d) (offerFate sam_u now bod_u.rec_d) r ∧
      ((offerFate sam_u now bod_u.rec_d = none ∧ sam_u.foq_d ≤ 1000 ∧
        Leaves sam_u r.sam_u ptr (ptr :: l) ∧
          r.sam_u.packet ptr = some ⟨lan_u, hed_u, bod_u⟩ ∧
          r.sam_u.foq_d = (sam_u.foq_d + 1) % 2 ^ 64) ∨
        (∃ fate, offerFate sam_u now bod_u.rec_d = some fate) ∧ Leaves sam_u r.sam_u ptr l ∧
          r.sam_u.foq_d = sam_u.foq_d ∧
          ∀ las, sam_u.fromCache now bod_u.rec_d = some las → las ≠ .nul → hed_u.ver_y = 0) := by
  obtain ⟨sam', hpush, hlinking, hqueue', hpacket, hother⟩ :=
    pancPush_ok ⟨lan_u, hed_u, bod_u⟩ hqueue hnew hptr
  have hfoq : sam'.foq_d = sam_u.foq_d := by rw [hlinking]
  have hlax : sam'.lax_p = sam_u.lax_p := by rw [hlinking]
  have hsame : Leaves sam_u sam_u ptr l := ⟨hqueue, fun _ _ ↦ rfl, rfl, rfl⟩
  unfold tryForward at htry
  dsimp only at htry
  rw [hpush, if_neg (by rw [hstar]; decide)] at htry
  unfold offerFate
  cases hcache : sam_u.fromCache now bod_u.rec_d with
  | none =>
    rw [hcache] at htry
    dsimp only at htry ⊢
    by_cases hfull : 1000 < sam_u.foq_d
    · rw [if_pos hfull] at htry ⊢
      obtain rfl := Except.ok.inj htry
      exact ⟨rfl, ⟨rfl, rfl⟩, .inr ⟨⟨_, rfl⟩, hsame, rfl, nofun⟩⟩
    · rw [if_neg hfull] at htry ⊢
      obtain rfl := Except.ok.inj htry
      refine ⟨hlax, ⟨rfl, rfl⟩,
        .inl ⟨rfl, not_lt.mp hfull, ⟨hqueue'.congr rfl rfl, hother, hlinking.liv, ?_⟩, hpacket, ?_⟩⟩
      · exact hlinking.dest
      · rw [← hfoq]
  | some las =>
    rw [hcache] at htry
    dsimp only at htry ⊢
    by_cases hnul : las = .nul
    · rw [if_pos hnul] at htry ⊢
      obtain rfl := Except.ok.inj htry
      refine ⟨rfl, ⟨rfl, rfl⟩, .inr ⟨⟨_, rfl⟩, hsame, rfl, ?_⟩⟩
      rintro las' ⟨⟩ hne
      exact absurd hnul hne
    · rw [if_neg hnul] at htry ⊢
      obtain ⟨hleaves, hfoq', hlax', hver, hput, hout⟩ :=
        @forward_leaves sam' ptr [] l _ _ las hqueue' (hlinking.liv.trans hliv) hpacket htry
      refine ⟨hlax'.trans hlax, ⟨hput, ?_⟩,
        .inr ⟨⟨_, rfl⟩, ⟨hleaves.queue, fun p hp ↦ ?_, ?_, ?_⟩, ?_, fun _ _ _ ↦ hver⟩⟩
      · rintro las' lans ⟨⟩ hlanes
        rw [hout lans hlanes, hlinking.dest]
      · rw [hleaves.packet p hp, hother p hp]
      · rw [hleaves.liv, hlinking.liv]
      · rw [hleaves.dest, hlinking.dest]
      · rw [hfoq', hfoq]

theorem laneScryCb_leaves {nun : Noun} (hqueue : Queue sam_u (l₁ ++ ptr :: l₂))
    (hliv : sam_u.liv_o = true)
    (hpacket : sam_u.packet ptr = some pac_u) (hanswer : laneScryCb sam_u now ptr nun = .ok r) :
    Leaves sam_u r.sam_u ptr (l₁ ++ l₂) ∧ r.sam_u.foq_d = (sam_u.foq_d + 2 ^ 64 - 1) % 2 ^ 64 ∧
      Fate.Shows sam_u (scryLanes nun) (some (answerFate nun)) r ∧
      (pac_u.hed_u.ver_y = 0 ∨ scryLanes nun = some .nul) ∧
      ∀ who las den, r.sam_u.lax_p who = some (las, den) →
        sam_u.lax_p who = some (las, den) ∨ scryLanes nun = some las := by
  obtain ⟨node, hnode, rfl⟩ := packet_eq_some hpacket
  unfold laneScryCb at hanswer
  rw [hnode] at hanswer
  dsimp only at hanswer
  unfold answerFate
  cases hlanes : scryLanes nun with
  | none =>
    rw [hlanes] at hanswer
    obtain ⟨pac, hpac, hanswer⟩ := bind_eq_ok hanswer
    obtain ⟨sam', hfree, hanswer⟩ := bind_eq_ok hanswer
    obtain rfl := Except.ok.inj hanswer
    have hver : node.pac_u.hed_u.ver_y = 0 := by
      by_contra hver
      rw [(serializePacket_eq node.pac_u false).2 hver] at hpac
      cases hpac
    obtain ⟨hleaves, hfoq, hlax⟩ :=
      @pancFree_leaves _ _ _ l₁ l₂ (by exact hqueue.congr rfl rfl) hfree
    refine ⟨⟨hleaves.queue, hleaves.packet, hleaves.liv, hleaves.dest⟩, hfoq, ⟨rfl, rfl⟩,
      .inl hver, ?_⟩
    intro who las den hcache
    rw [hlax] at hcache
    exact .inl hcache
  | some las =>
    rw [hlanes] at hanswer
    have hcached : ∀ lax_p, lax_p = ({ sam_u with
          foq_d := (sam_u.foq_d + 2 ^ 64 - 1) % 2 ^ 64
          saw_d := 0 }.intoCache now node.pac_u.bod_u.rec_d las).lax_p →
        ∀ who las' den, lax_p who = some (las', den) →
          sam_u.lax_p who = some (las', den) ∨ some las = some las' := by
      rintro _ rfl who las' den hcache
      unfold Sam.intoCache at hcache
      dsimp only at hcache
      split at hcache
      · exact .inr (congrArg some (Prod.mk.inj (Option.some.inj hcache)).1)
      · exact .inl hcache
    have hqueue' : Queue ({ sam_u with
        foq_d := (sam_u.foq_d + 2 ^ 64 - 1) % 2 ^ 64
        saw_d := 0 }.intoCache now node.pac_u.bod_u.rec_d las)
        (l₁ ++ ptr :: l₂) := hqueue.congr rfl rfl
    unfold scryAnswered at hanswer
    dsimp only at hanswer ⊢
    by_cases hnul : las = .nul
    · rw [if_pos hnul] at hanswer ⊢
      obtain ⟨sam', hfree, hanswer⟩ := bind_eq_ok hanswer
      obtain rfl := Except.ok.inj hanswer
      obtain ⟨hleaves, hfoq, hlax⟩ := pancFree_leaves hqueue' hfree
      refine ⟨⟨hleaves.queue, hleaves.packet, hleaves.liv, hleaves.dest⟩, hfoq, ⟨rfl, rfl⟩,
        .inr (by rw [hnul]), ?_⟩
      exact hcached _ hlax
    · rw [if_neg hnul] at hanswer ⊢
      obtain ⟨hleaves, hfoq, hlax, hver, hput, hout⟩ := forward_leaves hqueue' hliv hpacket hanswer
      refine ⟨⟨hleaves.queue, hleaves.packet, hleaves.liv, hleaves.dest⟩, hfoq, ⟨hput, ?_⟩,
        .inl hver, hcached _ hlax⟩
      rintro las' lans ⟨⟩ hlanes'
      exact hout lans hlanes'

/-! ### Every packet -/

/-- What the steps of a run keep. -/
structure Forwards.Inv (fow : Forwards) : Prop where
  queue : Queue fow.sam_u (fow.waits.map Waiting.ptr)
  kept : ∀ wait ∈ fow.waits, fow.sam_u.packet wait.ptr = some wait.pac_u
  count : fow.sam_u.foq_d = fow.waits.length
  bound : fow.waits.length ≤ 1001
  once : (fow.waits.map Waiting.place ++ fow.ends.map Prod.fst).Perm (List.range fow.offered)
  liv : fow.sam_u.liv_o = true
  lists : ∀ who las den, fow.sam_u.lax_p who = some (las, den) → ∃ lans, Lanes las lans

theorem Forwards.begin_inv (sam_u : Sam) : (Forwards.begin sam_u).Inv := by
  refine ⟨⟨rfl, .nil, fun p ↦ ?_⟩, nofun, rfl, Nat.zero_le _, .refl _, rfl, nofun⟩
  exact iff_of_false (not_not.mpr rfl) List.not_mem_nil

/-- A packet that waits, and the others. -/
theorem Forwards.Inv.split (hinv : fow.Inv) {wait : Waiting} {w₁ w₂ : List Waiting}
    (hwaits : fow.waits = w₁ ++ wait :: w₂) :
    Queue fow.sam_u (w₁.map Waiting.ptr ++ wait.ptr :: w₂.map Waiting.ptr) ∧
      fow.sam_u.packet wait.ptr = some wait.pac_u := by
  have hqueue := hinv.queue
  rw [hwaits, List.map_append, List.map_cons] at hqueue
  exact ⟨hqueue, hinv.kept wait (by rw [hwaits]; simp)⟩

theorem Forwards.Inv.good (hinv : fow.Inv) : fow.Good := by
  refine ⟨hinv.queue, hinv.kept, hinv.count, hinv.bound, hinv.once, fun wait hwait ↦ ?_, ?_, ?_⟩
  · obtain ⟨w₁, w₂, hwaits⟩ := List.append_of_mem hwait
    obtain ⟨sam', hfree, -⟩ := pancFree_ok (hinv.split hwaits).1
    exact ⟨sam', hfree⟩
  · intro now ptr lan_u hed_u bod_u r hstar hptr hnew htry
    exact (tryForward_leaves hinv.queue hinv.liv hstar hptr hnew htry).2.1
  · intro wait hwait now nun r hanswer
    obtain ⟨w₁, w₂, hwaits⟩ := List.append_of_mem hwait
    obtain ⟨hqueue, hpacket⟩ := hinv.split hwaits
    exact (laneScryCb_leaves hqueue hinv.liv hpacket hanswer).2.2.1

theorem range_succ_perm {places : List ℕ} {n : ℕ} (hperm : places.Perm (List.range n)) :
    (n :: places).Perm (List.range (n + 1)) := by
  rw [List.range_succ]
  exact (hperm.cons n).trans (List.perm_append_singleton n _).symm

/-- A step that succeeds keeps the invariant, and what goes out is of version 0. -/
theorem Forwards.Inv.step (hinv : fow.Inv) {event : ForwardEvent} (hlegal : event.Legal fow)
    (hstep : forwardStep fow event = .ok fow') : fow'.Inv ∧ event.Safe fow := by
  cases event with
  | offer now ptr lan_u hed_u bod_u =>
    obtain ⟨hstar, hptr, hnew⟩ := hlegal
    obtain ⟨r, htry, hstep⟩ := bind_eq_ok hstep
    obtain ⟨hlax, _, hcases⟩ := tryForward_leaves hinv.queue hinv.liv hstar hptr hnew htry
    have hne : ∀ wait ∈ fow.waits, wait.ptr ≠ ptr := by
      rintro wait hwait rfl
      have hkept := hinv.kept wait hwait
      rw [Sam.packet, hnew] at hkept
      cases hkept
    rcases hcases with ⟨hfate, hroom, hleaves, hpacket, hfoq⟩ | ⟨⟨fate, hfate⟩, hleaves, hfoq, hver⟩
    · rw [hfate] at hstep
      obtain rfl := Except.ok.inj hstep
      refine ⟨⟨hleaves.queue, fun wait hwait ↦ ?_, ?_, ?_, ?_, ?_, ?_⟩, ?_⟩
      · rcases List.mem_cons.mp hwait with rfl | hwait
        · exact hpacket
        · exact (hleaves.packet _ (hne wait hwait)).trans (hinv.kept wait hwait)
      · have hcount := hinv.count
        show r.sam_u.foq_d = fow.waits.length + 1
        omega
      · have hcount := hinv.count
        show fow.waits.length + 1 ≤ 1001
        omega
      · exact range_succ_perm hinv.once
      · exact hleaves.liv.trans hinv.liv
      · intro who las den hcache
        exact hinv.lists who las den (hlax ▸ hcache)
      · intro las hcache
        unfold offerFate at hfate
        rw [hcache] at hfate
        dsimp only at hfate
        split at hfate <;> cases hfate
    · rw [hfate] at hstep
      obtain rfl := Except.ok.inj hstep
      refine ⟨⟨hleaves.queue, fun wait hwait ↦ ?_, hfoq.trans hinv.count, hinv.bound, ?_, ?_,
        ?_⟩, hver⟩
      · exact (hleaves.packet _ (hne wait hwait)).trans (hinv.kept wait hwait)
      · exact List.perm_middle.trans (range_succ_perm hinv.once)
      · exact hleaves.liv.trans hinv.liv
      · intro who las den hcache
        exact hinv.lists who las den (hlax ▸ hcache)
  | answer index now nun =>
    obtain ⟨hindex, hlist⟩ := hlegal
    rw [forwardStep, List.getElem?_eq_getElem hindex] at hstep
    obtain ⟨r, hanswer, hstep⟩ := bind_eq_ok hstep
    obtain rfl := Except.ok.inj hstep
    obtain ⟨w₁, wait, w₂, hwaits, hrest, hget⟩ : ∃ w₁ wait w₂, fow.waits = w₁ ++ wait :: w₂ ∧
        fow.waits.eraseIdx index = w₁ ++ w₂ ∧ fow.waits[index] = wait := by
      refine ⟨fow.waits.take index, _, fow.waits.drop (index + 1), ?_,
        List.eraseIdx_eq_take_drop_succ _ _, rfl⟩
      rw [← List.drop_eq_getElem_cons hindex, List.take_append_drop]
    rw [hget] at hanswer ⊢
    rw [hrest]
    obtain ⟨hqueue, hpacket⟩ := hinv.split hwaits
    obtain ⟨hleaves, hfoq, -, hver, hcached⟩ := laneScryCb_leaves hqueue hinv.liv hpacket hanswer
    have hcount := hinv.count
    have hbound := hinv.bound
    have hlength : fow.waits.length = (w₁ ++ w₂).length + 1 := by
      rw [hwaits, List.length_append, List.length_cons, List.length_append]
      rfl
    have hnodup : wait.ptr ∉ (w₁ ++ w₂).map Waiting.ptr := by
      have hnodup := List.nodup_middle.mp hqueue.nodup
      rw [List.map_append]
      exact (List.nodup_cons.mp hnodup).1
    refine ⟨⟨?_, fun other hother ↦ ?_, ?_, ?_, ?_, hleaves.liv.trans hinv.liv, ?_⟩, ?_⟩
    · show Queue r.sam_u ((w₁ ++ w₂).map Waiting.ptr)
      rw [List.map_append]
      exact hleaves.queue
    · have hne : other.ptr ≠ wait.ptr := fun heq ↦ hnodup (heq ▸ List.mem_map_of_mem hother)
      refine (hleaves.packet _ hne).trans (hinv.kept other ?_)
      rw [hwaits]
      exact List.perm_middle.symm.subset (List.mem_cons_of_mem _ hother)
    · show r.sam_u.foq_d = (w₁ ++ w₂).length
      omega
    · show (w₁ ++ w₂).length ≤ 1001
      omega
    · refine List.Perm.trans ?_ hinv.once
      rw [hwaits]
      simp only [List.map_append, List.map_cons, List.append_assoc, List.cons_append]
      exact List.perm_middle.append_left _
    · intro who las den hcache
      rcases hcached who las den hcache with hcache | hlas
      · exact hinv.lists who las den hcache
      · exact hlist las hlas
    · intro other hother
      rw [List.getElem?_eq_getElem hindex, hget] at hother
      obtain rfl := Option.some.inj hother
      exact hver
  | tune ver_y fit_o see_o lax_p =>
    obtain rfl := Except.ok.inj hstep
    exact ⟨⟨hinv.queue.congr rfl rfl, hinv.kept, hinv.count, hinv.bound, hinv.once, hinv.liv,
      hlegal⟩, trivial⟩

/-- A step whose packet goes out in version 0 succeeds. -/
theorem Forwards.Inv.step_ok (hinv : fow.Inv) {event : ForwardEvent} (hlegal : event.Legal fow)
    (hsafe : event.Safe fow) : ∃ fow', forwardStep fow event = .ok fow' := by
  cases event with
  | offer now ptr lan_u hed_u bod_u =>
    obtain ⟨hstar, hptr, hnew⟩ := hlegal
    obtain ⟨r, htry, -⟩ :=
      (tryForward_iff ⟨hinv.liv, _, hinv.queue⟩ hinv.lists hnew hptr).mpr ⟨hstar, hsafe⟩
    unfold forwardStep
    dsimp only
    rw [htry]
    cases offerFate fow.sam_u now bod_u.rec_d with
    | none => exact ⟨_, rfl⟩
    | some fate => exact ⟨_, rfl⟩
  | answer index now nun =>
    obtain ⟨hindex, hlist⟩ := hlegal
    have hpacket := hinv.kept _ (List.getElem_mem hindex)
    have hkept : fow.sam_u.mem fow.waits[index].ptr ≠ none := by
      intro hnone
      rw [Sam.packet, hnone] at hpacket
      cases hpacket
    have hmeets : AnswerMeets fow.sam_u fow.waits[index].ptr nun := by
      intro pac_u hpac
      obtain rfl := Option.some.inj (hpacket.symm.trans hpac)
      exact hsafe _ (List.getElem?_eq_getElem hindex)
    have hwell : AnswersWell fow.sam_u now fow.waits[index].ptr nun :=
      (answer_iff ⟨hinv.liv, _, hinv.queue⟩ hkept hlist).mpr hmeets
    obtain ⟨r, hanswer, -⟩ := hwell
    rw [forwardStep, List.getElem?_eq_getElem hindex]
    dsimp only
    rw [hanswer]
    exact ⟨_, rfl⟩
  | tune ver_y fit_o see_o lax_p => exact ⟨_, rfl⟩

/-- Every state that a node reaches is good; and it reaches one at every step if and only if every
packet that goes out is of version 0. -/
theorem forwards_iff (sam_u : Sam) (events : List ForwardEvent)
    (hlegal : Every forwardStep (fun fow event ↦ event.Legal fow) (.begin sam_u) events) :
    (∀ front fow, front <+: events → front.foldlM forwardStep (.begin sam_u) = .ok fow → fow.Good) ∧
      ((∀ front, front <+: events → ∃ fow, front.foldlM forwardStep (.begin sam_u) = .ok fow ∧
      fow.Good) ↔
        Every forwardStep (fun fow event ↦ event.Safe fow) (.begin sam_u) events) := by
  constructor
  · intro front fow hprefix hrun
    refine (run_keeps ?_ (Forwards.begin_inv sam_u) hlegal hprefix hrun).good
    intro fow event fow' hinv hlegal hstep
    exact (hinv.step hlegal hstep).1
  · refine run_good_iff (fun _ hinv ↦ hinv.good) ?_ ?_ (Forwards.begin_inv sam_u) hlegal
    · intro fow event hinv hlegal hsafe
      obtain ⟨fow', hstep⟩ := hinv.step_ok hlegal hsafe
      exact ⟨fow', hstep, (hinv.step hlegal hstep).1⟩
    · intro fow event fow' hinv hlegal hstep _
      exact (hinv.step hlegal hstep).2

/-- Ships have 2 bits for their size, and 4 for their life. -/
local instance neZeroSize : NeZero 4 := ⟨by decide⟩

@[inherit_doc neZeroSize]
local instance neZeroLife : NeZero 16 := ⟨by decide⟩

/-- The sum of a packet has values. -/
local instance neZeroSum : NeZero (2 ^ 20) := ⟨by decide⟩

/-- A packet that a node is to forward to the ship 0x20200, and the answer to its scry: one lane. -/
def forwardEvents (ver_y : Fin 8) : List ForwardEvent :=
  [.offer 0 1 ⟨0x0a000001, 0x3039⟩ ⟨true, ver_y, 1, 1, 393320, false⟩
    ⟨0x10100, 0x20200, 1, 2, [171], 0, 393320⟩,
    .answer 0 0 (.cell .nul (.cell .nul (.cell (.cell (.atom 1) (.atom 0x30390a000001)) .nul)))]

theorem forwardEvents_legal (ver_y : Fin 8) (fit_o : Bool) :
    Every forwardStep (fun fow event ↦ event.Legal fow) (.begin { relayNode with fit_o := fit_o })
      (forwardEvents ver_y) := by
  refine ⟨⟨rfl, by decide, rfl⟩, fun fow hstep ↦ ⟨⟨?_, ?_⟩, fun _ _ ↦ trivial⟩⟩
  · obtain rfl := Except.ok.inj hstep
    exact Nat.zero_lt_one
  · rintro las ⟨⟩
    exact ⟨_, .cons trivial .nil⟩

/-- A packet of version 0 goes out. -/
theorem forwards_iff_one :
    ∃ fow, (forwardEvents 0).foldlM forwardStep (.begin relayNode) = .ok fow ∧ fow.Good := by
  refine (forwards_iff relayNode (forwardEvents 0) (forwardEvents_legal 0 true)).2.mpr ?_ _
    (List.prefix_refl _)
  refine ⟨nofun, fun fow hstep ↦ ⟨?_, fun _ _ ↦ trivial⟩⟩
  obtain rfl := Except.ok.inj hstep
  rintro wait ⟨⟩
  exact .inl rfl

/-- A packet of version 1 stops the node when it has a lane, where versions are not filtered. -/
theorem forwards_stop :
    Every forwardStep (fun fow event ↦ event.Legal fow) (.begin { relayNode with fit_o := false })
      (forwardEvents 1) ∧
    (forwardEvents 1).foldlM forwardStep (.begin { relayNode with fit_o := false }) =
      .error .assert :=
  ⟨forwardEvents_legal 1 false, rfl⟩

end Vere.King.Ames
