import Vere.King.AmesRelay
import Vere.Lib.Linked

/-!
# What a datagram can do to a node

The packets that wait for a scry are a doubly linked list (`Queue`), in every state that a node can
reach (`reachable_steady`), so that the assertion of `_ames_panc_free()` holds. What can fail are
the two ends of the way out: `_ames_etch_head()` asserts the version, and `_ames_try_forward()`
passes the lane of a galaxy where a list of lanes is expected. `relay_steps` says when a step ends
normally and sends what it should.
-/

set_option autoImplicit false

namespace Vere.King.Ames

open Lib.Bytes Lib.Results
open Noun.Murmur (murmur3)

variable {hash : ℕ → List UInt8 → ℕ} {sam_u sam' : Sam} {ptr : ℕ} {l l₁ l₂ : List ℕ}

/-! ### The packets that wait -/

/-- The link back of a packet. -/
def Sam.pre (sam_u : Sam) (p : ℕ) : ℕ := ((sam_u.mem p).map Node.pre_u).getD 0

/-- The link forward of a packet. -/
def Sam.nex (sam_u : Sam) (p : ℕ) : ℕ := ((sam_u.mem p).map Node.nex_u).getD 0

/-- The packet at an address. -/
def Sam.packet (sam_u : Sam) (p : ℕ) : Option Panc := (sam_u.mem p).map Node.pac_u

/-- The packets that are kept are a list. -/
structure Queue (sam_u : Sam) (l : List ℕ) : Prop where
  linked : Lib.Linked 0 sam_u.pre sam_u.nex 0 sam_u.pac_u l
  nodup : l.Nodup
  mem : ∀ p, sam_u.packet p ≠ none ↔ p ∈ l

/-- A state with other links and packets only. -/
def Linking (sam_u sam' : Sam) : Prop :=
  sam' = { sam_u with mem := sam'.mem, pac_u := sam'.pac_u }

theorem relink_ok {f : Node → Node} (hmem : sam_u.packet ptr ≠ none) :
    ∃ node, sam_u.mem ptr = some node ∧ sam_u.relink ptr f =
      .ok (sam_u.set ptr (some (f node))) := by
  unfold Sam.packet at hmem
  unfold Sam.relink
  cases hnode : sam_u.mem ptr with
  | none => simp [hnode] at hmem
  | some node => exact ⟨node, rfl, rfl⟩

theorem pre_set (sam_u : Sam) (ptr p : ℕ) (node : Option Node) :
    (sam_u.set ptr node).pre p = if p = ptr then (node.map Node.pre_u).getD 0 else sam_u.pre p := by
  unfold Sam.pre
  rw [mem_set]
  split <;> rfl

theorem nex_set (sam_u : Sam) (ptr p : ℕ) (node : Option Node) :
    (sam_u.set ptr node).nex p = if p = ptr then (node.map Node.nex_u).getD 0 else sam_u.nex p := by
  unfold Sam.nex
  rw [mem_set]
  split <;> rfl

theorem packet_set (sam_u : Sam) (ptr p : ℕ) (node : Option Node) :
    (sam_u.set ptr node).packet p = if p = ptr then node.map Node.pac_u else sam_u.packet p := by
  unfold Sam.packet
  rw [mem_set]
  split <;> rfl

/-- The next packet links back. -/
theorem linkBack_ok (sam_u : Sam) (node : Node)
    (hmem : node.nex_u ≠ 0 → sam_u.packet node.nex_u ≠ none) :
    ∃ sam', sam_u.linkBack node = .ok sam' ∧ Linking sam_u sam' ∧ sam'.pac_u = sam_u.pac_u ∧
      (∀ p, sam'.pre p = if p = node.nex_u ∧ node.nex_u ≠ 0 then node.pre_u else sam_u.pre p) ∧
      (∀ p, sam'.nex p = sam_u.nex p) ∧ ∀ p, sam'.packet p = sam_u.packet p := by
  unfold Sam.linkBack
  split
  · next hzero => exact ⟨sam_u, rfl, rfl, rfl, fun p ↦ by simp [hzero], fun _ ↦ rfl, fun _ ↦ rfl⟩
  · next hzero =>
    obtain ⟨nex, hnex, hrelink⟩ := relink_ok (f := fun nex ↦ { nex with pre_u := node.pre_u })
      (hmem hzero)
    refine ⟨_, hrelink, rfl, rfl, fun p ↦ ?_, fun p ↦ ?_, fun p ↦ ?_⟩
    · rw [pre_set]
      simp [hzero]
    · rw [nex_set]
      split
      · next hp => simp [Sam.nex, hp, hnex]
      · rfl
    · rw [packet_set]
      split
      · next hp => simp [Sam.packet, hp, hnex]
      · rfl

/-- The packet before, or the list, links to the next one. -/
theorem linkForth_ok (sam_u : Sam) (ptr : ℕ) (node : Node)
    (hmem : node.pre_u ≠ 0 → sam_u.packet node.pre_u ≠ none)
    (hhead : node.pre_u = 0 → ptr = sam_u.pac_u) :
    ∃ sam', sam_u.linkForth ptr node = .ok sam' ∧ Linking sam_u sam' ∧
      sam'.pac_u = (if node.pre_u = 0 then node.nex_u else sam_u.pac_u) ∧
      (∀ p, sam'.pre p = sam_u.pre p) ∧
      (∀ p, sam'.nex p = if p = node.pre_u ∧ node.pre_u ≠ 0 then node.nex_u else sam_u.nex p) ∧
      ∀ p, sam'.packet p = sam_u.packet p := by
  unfold Sam.linkForth
  by_cases hzero : node.pre_u = 0
  · rw [if_pos hzero, if_pos (hhead hzero)]
    refine ⟨_, rfl, rfl, (if_pos hzero).symm, fun _ ↦ rfl, fun p ↦ ?_, fun _ ↦ rfl⟩
    rw [if_neg (by simp [hzero])]
    rfl
  · rw [if_neg hzero]
    obtain ⟨pre, hpre, hrelink⟩ := relink_ok (f := fun pre ↦ { pre with nex_u := node.nex_u })
      (hmem hzero)
    refine ⟨_, hrelink, rfl, (if_neg hzero).symm, fun p ↦ ?_, fun p ↦ ?_, fun p ↦ ?_⟩
    · rw [pre_set]
      split
      · next hp => simp [Sam.pre, hp, hpre]
      · rfl
    · rw [nex_set]
      simp [hzero]
    · rw [packet_set]
      split
      · next hp => simp [Sam.packet, hp, hpre]
      · rfl

theorem Linking.trans {sam₁ sam₂ sam₃ : Sam} (h : Linking sam₁ sam₂) (h' : Linking sam₂ sam₃) :
    Linking sam₁ sam₃ := by
  unfold Linking at *
  rw [h', h]

theorem linking_set (sam_u : Sam) (ptr : ℕ) (node : Option Node) :
    Linking sam_u (sam_u.set ptr node) := rfl

theorem pancFree_ok (hqueue : Queue sam_u (l₁ ++ ptr :: l₂)) :
    ∃ sam', pancFree sam_u ptr = .ok sam' ∧ Linking sam_u sam' ∧ Queue sam' (l₁ ++ l₂) ∧
      ∀ p, p ≠ ptr → sam'.packet p = sam_u.packet p := by
  obtain ⟨hlinked, hnodup, hmem⟩ := hqueue
  have hptr : ptr ∈ l₁ ++ ptr :: l₂ := by simp
  obtain ⟨node, hnode⟩ : ∃ node, sam_u.mem ptr = some node := by
    have hsome := (hmem ptr).mpr hptr
    cases hnode : sam_u.mem ptr with
    | none => simp [Sam.packet, hnode] at hsome
    | some node => exact ⟨node, rfl⟩
  have hnex : node.nex_u = sam_u.nex ptr := by simp [Sam.nex, hnode]
  have hpre : node.pre_u = sam_u.pre ptr := by simp [Sam.pre, hnode]
  have hzero : 0 ∉ l₁ ++ ptr :: l₂ := fun h ↦ hlinked.ne_null h rfl
  have hnexMem : node.nex_u ≠ 0 → node.nex_u ∈ l₂ := by
    rw [hnex, hlinked.nex_eq.1]
    cases l₂ with
    | nil => simp
    | cons q l₂ => simp
  have hpreMem : node.pre_u ≠ 0 → node.pre_u ∈ l₁ := by
    rw [hpre, hlinked.pre_eq.1]
    cases l₁ with
    | nil => simp
    | cons q l₁ => exact fun _ ↦ by rw [List.getLastD_cons]; exact List.getLastD_mem_cons
  have hpreNil : node.pre_u = 0 → l₁ = [] := by
    rw [hpre, hlinked.pre_eq.1]
    cases l₁ with
    | nil => simp
    | cons q l₁ =>
      rw [List.getLastD_cons]
      intro h
      have hlast : l₁.getLastD q ∈ q :: l₁ := List.getLastD_mem_cons
      rw [h] at hlast
      exact absurd (List.mem_append_left (ptr :: l₂) hlast) hzero
  obtain ⟨sam₁, hback, hlink₁, hpac₁, hpre₁, hnex₁, hpacket₁⟩ :=
    linkBack_ok sam_u node fun h ↦ (hmem _).mpr (by simp [hnexMem h])
  obtain ⟨sam₂, hforth, hlink₂, hpac₂, hpre₂, hnex₂, hpacket₂⟩ :=
    linkForth_ok sam₁ ptr node
      (fun h ↦ by rw [hpacket₁]; exact (hmem _).mpr (by simp [hpreMem h]))
      (fun h ↦ by
        rw [hpac₁, hlinked.head_eq, hpreNil h]
        rfl)
  refine ⟨sam₂.set ptr none, ?_, (hlink₁.trans hlink₂).trans (linking_set _ _ _), ?_, ?_⟩
  · unfold pancFree
    rw [hnode]
    show (sam_u.linkBack node >>= _) = _
    rw [hback]
    show (sam₁.linkForth ptr node >>= _) = _
    rw [hforth]
    rfl
  · have hnotptr : ∀ q ∈ l₁ ++ l₂, q ≠ ptr := by
      rintro q hq rfl
      rw [List.nodup_middle] at hnodup
      exact (List.nodup_cons.mp hnodup).1 hq
    have hnexPtr : node.nex_u ≠ 0 → node.nex_u ≠ ptr := fun h ↦
      hnotptr _ (List.mem_append_right _ (hnexMem h))
    have hprePtr : node.pre_u ≠ 0 → node.pre_u ≠ ptr := fun h ↦
      hnotptr _ (List.mem_append_left _ (hpreMem h))
    have hunlink : Lib.Linked 0 (sam₂.set ptr none).pre (sam₂.set ptr none).nex 0
        (if l₁ = [] then sam_u.nex ptr else sam_u.pac_u) (l₁ ++ l₂) := by
      refine hlinked.unlink (List.nodup_cons.mpr ⟨hzero, hnodup⟩) ?_ ?_ ?_ ?_
      · intro q hq hne
        rw [pre_set, if_neg (hnotptr q hq), hpre₂, hpre₁, if_neg (by rw [hnex]; tauto)]
      · intro q hq hne
        rw [nex_set, if_neg (hnotptr q hq), hnex₂, hnex₁, if_neg (by rw [hpre]; tauto)]
      · intro h
        rw [← hnex] at h ⊢
        rw [pre_set, if_neg (hnexPtr h), hpre₂, hpre₁, if_pos ⟨rfl, h⟩, hpre]
      · intro hne
        have h : node.pre_u ≠ 0 := fun h ↦ hne (hpreNil h)
        rw [← hpre, nex_set, if_neg (hprePtr h), hnex₂, if_pos ⟨rfl, h⟩, hnex]
    have hhead : (sam₂.set ptr none).pac_u = if l₁ = [] then sam_u.nex ptr else sam_u.pac_u := by
      show sam₂.pac_u = _
      rw [hpac₂, hpac₁, hnex]
      by_cases hnil : l₁ = []
      · have h : node.pre_u = 0 := by rw [hpre, hlinked.pre_eq.1, hnil]; rfl
        rw [if_pos h, if_pos hnil]
      · rw [if_neg (fun h ↦ hnil (hpreNil h)), if_neg hnil]
    refine ⟨hhead ▸ hunlink, ?_, fun p ↦ ?_⟩
    · rw [List.nodup_middle] at hnodup
      exact (List.nodup_cons.mp hnodup).2
    · rw [packet_set]
      split
      · next hp =>
        subst hp
        simp only [Option.map_none, ne_eq, not_true_eq_false, false_iff]
        exact fun h ↦ hnotptr p h rfl
      · next hp =>
        rw [hpacket₂, hpacket₁, hmem]
        simp [hp]
  · intro p hp
    rw [packet_set, if_neg hp, hpacket₂, hpacket₁]

theorem pancPush_ok (pac_u : Panc) (hqueue : Queue sam_u l) (hnew : sam_u.mem ptr = none)
    (hptr : ptr ≠ 0) :
    ∃ sam', pancPush sam_u ptr pac_u = .ok sam' ∧ Linking sam_u sam' ∧ Queue sam' (ptr :: l) ∧
      sam'.packet ptr = some pac_u ∧ ∀ p, p ≠ ptr → sam'.packet p = sam_u.packet p := by
  obtain ⟨hlinked, hnodup, hmem⟩ := hqueue
  have hfresh : ptr ∉ l := by
    rw [← hmem]
    simp [Sam.packet, hnew]
  have hother : ∀ q ∈ l, q ≠ ptr := by
    rintro q hq rfl
    exact hfresh hq
  have hfirst : sam_u.pac_u ≠ 0 → sam_u.pac_u ∈ l := by
    rw [hlinked.head_eq]
    cases l with
    | nil => simp
    | cons q l => simp
  -- the old head links back to the new one as a next packet does
  obtain ⟨sam₁, hhead, hlink₁, -, hpre₁, hnex₁, hpacket₁⟩ :=
    linkBack_ok sam_u ⟨pac_u, ptr, sam_u.pac_u⟩ fun h ↦ (hmem _).mpr (hfirst h)
  refine ⟨{ sam₁.set ptr (some ⟨pac_u, 0, sam_u.pac_u⟩) with pac_u := ptr }, ?_, ?_,
    ⟨?_, ?_, ?_⟩, ?_, ?_⟩
  · show (sam_u.linkBack ⟨pac_u, ptr, sam_u.pac_u⟩ >>= _) = _
    rw [hhead]
    rfl
  · unfold Linking at hlink₁ ⊢
    rw [hlink₁]
    rfl
  · refine hlinked.push hnodup hptr ?_ ?_ ?_ ?_ ?_
    · intro q hq hne
      show (sam₁.set ptr _).pre q = _
      rw [pre_set, if_neg (hother q hq), hpre₁, if_neg (fun h ↦ hne h.1)]
    · intro q hq
      show (sam₁.set ptr _).nex q = _
      rw [nex_set, if_neg (hother q hq), hnex₁]
    · intro h
      show (sam₁.set ptr _).pre _ = _
      rw [pre_set, if_neg (hother _ (hfirst h)), hpre₁, if_pos ⟨rfl, h⟩]
    · show (sam₁.set ptr _).pre _ = _
      rw [pre_set, if_pos rfl]
      rfl
    · show (sam₁.set ptr _).nex _ = _
      rw [nex_set, if_pos rfl]
      rfl
  · exact List.nodup_cons.mpr ⟨hfresh, hnodup⟩
  · intro p
    show (sam₁.set ptr _).packet p ≠ none ↔ _
    rw [packet_set]
    split
    · next hp => simp [hp]
    · next hp =>
      rw [hpacket₁, hmem]
      simp [hp]
  · show (sam₁.set ptr _).packet ptr = _
    rw [packet_set, if_pos rfl]
    rfl
  · intro p hp
    show (sam₁.set ptr _).packet p = _
    rw [packet_set, if_neg hp, hpacket₁]

/-! ### Lanes -/

/-- A lane as it is typed: a galaxy, or an address. An atom is a bogus lane, which is skipped. -/
def IsLane : Noun → Prop
  | .atom _ => True
  | .cell (.atom 0) (.atom gax) => gax < 256
  | .cell (.atom 1) _ => True
  | .cell _ _ => False

/-- A list of lanes. -/
inductive Lanes : Noun → List Noun → Prop
  | nil : Lanes .nul []
  | cons {lan t : Noun} {lans : List Noun} (hlan : IsLane lan) (ht : Lanes t lans) :
      Lanes (.cell lan t) (lan :: lans)

/-- Where an address leads: nowhere without a port, nor outside when the node is local. -/
def destAddr (sam_u : Sam) (val : Noun) : Option Dest :=
  let lan_u := decodeLane val
  let lan_u := if lan_u.pip_w = 0 then { lan_u with pip_w := 0x7f000001 } else lan_u
  if lan_u.por_s = 0 ∨ ¬ sam_u.net ∧ lan_u.pip_w ≠ 0x7f000001 then none else some (.lane lan_u)

/-- Where a lane leads: to a galaxy other than the node, or to an address. -/
def destOf (sam_u : Sam) : Noun → Option Dest
  | .cell (.atom 0) (.atom gax) => if gax = sam_u.who_d then none else some (.czar gax)
  | .cell (.atom 1) val => destAddr sam_u val
  | _ => none

/-- A lane of a list is sent on, if it leads somewhere. -/
theorem forwardLane_eq {lan : Noun} (hliv : sam_u.liv_o = true) (hlan : IsLane lan) (pac : ℕ) :
    forwardLane sam_u lan pac = .ok ((destOf sam_u lan).toList.map fun dest ↦
      ⟨dest, bytesOf pac⟩) := by
  unfold IsLane at hlan
  split at hlan
  · rfl
  · next gax =>
    have hmod : gax % 2 ^ 128 = gax := Nat.mod_eq_of_lt (hlan.trans (by decide))
    simp only [forwardLane, if_true, hmod, destOf]
    split
    · rfl
    · simp [efSend, hliv, hlan]
  · next val =>
    have hone : (Noun.atom 1 = Noun.atom 0) = False := by simp
    simp only [forwardLane, efSend, hliv, destOf, destAddr, hone, not_true_eq_false, if_true,
      if_false]
    generalize (if (decodeLane val).pip_w = 0 then
      ({ decodeLane val with pip_w := 0x7f000001 } : Lane) else decodeLane val) = lan_u
    by_cases hport : lan_u.por_s = 0
    · simp [hport]
    · by_cases hremote : ¬ sam_u.net ∧ lan_u.pip_w ≠ 0x7f000001
      · rw [if_pos hremote, if_pos (Or.inr hremote)]
        rfl
      · rw [if_neg hremote, if_neg hport, if_neg (by tauto)]
        rfl
  · exact hlan.elim

theorem forwardLanes_eq {las : Noun} {lans : List Noun} (hliv : sam_u.liv_o = true)
    (hlanes : Lanes las lans) (pac : ℕ) : forwardLanes sam_u pac las =
      .ok ((lans.filterMap (destOf sam_u)).map fun dest ↦ ⟨dest, bytesOf pac⟩) := by
  induction hlanes with
  | nil => rfl
  | @cons lan t lans hlan ht ih =>
    rw [forwardLanes, forwardLane_eq hliv hlan, ih, List.filterMap_cons]
    cases destOf sam_u lan <;> rfl

/-- Only the version stops a packet from being written. -/
theorem serializePacket_eq (pac_u : Panc) (dop_o : Bool) :
    (pac_u.hed_u.ver_y = 0 → ∃ pac, serializePacket pac_u dop_o = .ok pac) ∧
      (pac_u.hed_u.ver_y ≠ 0 → serializePacket pac_u dop_o = .error .assert) := by
  have hver : (pac_u.stamp dop_o).hed_u.ver_y = pac_u.hed_u.ver_y := by
    unfold Panc.stamp
    split <;> rfl
  constructor
  · intro hzero
    simp [serializePacket, etchPack, etchHead, hver, hzero, bind, Except.bind]
  · intro hzero
    simp [serializePacket, etchPack, etchHead, hver, hzero, bind, Except.bind]

/-! ### One step -/

theorem packet_eq_some {pac_u : Panc} (h : sam_u.packet ptr = some pac_u) :
    ∃ node, sam_u.mem ptr = some node ∧ node.pac_u = pac_u := by
  unfold Sam.packet at h
  cases hnode : sam_u.mem ptr with
  | none => simp [hnode] at h
  | some node => exact ⟨node, rfl, by simpa [hnode] using h⟩

/-- A packet that is kept is freed. -/
theorem free_ok (hqueue : Queue sam_u l) (hkept : sam_u.packet ptr ≠ none) :
    ∃ sam' l', pancFree sam_u ptr = .ok sam' ∧ Linking sam_u sam' ∧ Queue sam' l' := by
  obtain ⟨l₁, l₂, rfl⟩ := List.append_of_mem ((hqueue.mem ptr).mp hkept)
  obtain ⟨sam', hfree, hlinking, hqueue, -⟩ := pancFree_ok hqueue
  exact ⟨sam', l₁ ++ l₂, hfree, hlinking, hqueue⟩

section Forward

variable {pac_u : Panc} {las : Noun}

theorem forward_eq (hpacket : sam_u.packet ptr = some pac_u) :
    forward sam_u ptr las = (do
      let pac ← serializePacket pac_u true
      let out ← forwardLanes sam_u pac las
      let sam_u ← pancFree sam_u ptr
      .ok ⟨sam_u, out, []⟩) := by
  obtain ⟨node, hnode, rfl⟩ := packet_eq_some hpacket
  unfold forward
  rw [hnode]

/-- A packet of version 0 goes out on a list of lanes. -/
theorem forward_ok {lans : List Noun} (hliv : sam_u.liv_o = true) (hqueue : Queue sam_u l)
    (hpacket : sam_u.packet ptr = some pac_u) (hver : pac_u.hed_u.ver_y = 0)
    (hlanes : Lanes las lans) :
    ∃ r, forward sam_u ptr las = .ok r ∧ r.out.map Pact.dest = lans.filterMap (destOf sam_u) := by
  obtain ⟨pac, hpac⟩ := (serializePacket_eq pac_u true).1 hver
  obtain ⟨sam', l', hfree, -, -⟩ := free_ok hqueue (by rw [hpacket]; nofun)
  rw [forward_eq hpacket, hpac]
  show ∃ r, (forwardLanes sam_u pac las >>= _) = .ok r ∧ _
  rw [forwardLanes_eq hliv hlanes]
  show ∃ r, (pancFree sam_u ptr >>= _) = .ok r ∧ _
  rw [hfree]
  refine ⟨_, rfl, ?_⟩
  simp [List.map_map, Function.comp_def]

theorem forward_version (hpacket : sam_u.packet ptr = some pac_u) (hver : pac_u.hed_u.ver_y ≠ 0) :
    forward sam_u ptr las = .error .assert := by
  rw [forward_eq hpacket, (serializePacket_eq pac_u true).2 hver]
  rfl

/-- The lane of a galaxy in the place of a list: nothing is sent, or the walk bails at the galaxy.
-/
theorem forward_galaxy {gax : ℕ} {r : Result} (hpacket : sam_u.packet ptr = some pac_u)
    (h : forward sam_u ptr (.cell (.atom 0) (.atom gax)) = .ok r) : r.out = [] := by
  rw [forward_eq hpacket] at h
  obtain ⟨pac, -, h⟩ := bind_eq_ok h
  obtain ⟨out, hout, h⟩ := bind_eq_ok h
  obtain ⟨sam', -, h⟩ := bind_eq_ok h
  cases h
  obtain ⟨first, hfirst, hout⟩ := bind_eq_ok hout
  obtain ⟨more, hmore, hout⟩ := bind_eq_ok hout
  cases hout
  cases hfirst
  unfold forwardLanes at hmore
  split at hmore
  · cases hmore
    rfl
  · cases hmore

/-- Whatever a packet is forwarded on, the others are a list afterwards. -/
theorem forward_queue {r : Result} (hqueue : Queue sam_u l)
    (hpacket : sam_u.packet ptr = some pac_u) (h : forward sam_u ptr las = .ok r) :
    Linking sam_u r.sam_u ∧ ∃ l', Queue r.sam_u l' := by
  rw [forward_eq hpacket] at h
  obtain ⟨pac, -, h⟩ := bind_eq_ok h
  obtain ⟨out, -, h⟩ := bind_eq_ok h
  obtain ⟨sam', hfree, h⟩ := bind_eq_ok h
  cases h
  obtain ⟨sam₁, l', hfree₁, hlinking, hqueue⟩ := free_ok hqueue (by rw [hpacket]; nofun)
  cases hfree.symm.trans hfree₁
  exact ⟨hlinking, l', hqueue⟩

end Forward

/-- A node that receives, with a list of packets that wait. -/
def Steady (sam_u : Sam) : Prop := sam_u.liv_o = true ∧ ∃ l, Queue sam_u l

theorem Linking.liv (h : Linking sam_u sam') : sam'.liv_o = sam_u.liv_o := by
  rw [h]

theorem Linking.dest (h : Linking sam_u sam') : destOf sam' = destOf sam_u := by
  rw [h]
  rfl

theorem steady_forward {pac_u : Panc} {las : Noun} {r : Result} (hsteady : Steady sam_u)
    (hpacket : sam_u.packet ptr = some pac_u) (h : forward sam_u ptr las = .ok r) :
    Steady r.sam_u := by
  obtain ⟨hliv, l, hqueue⟩ := hsteady
  obtain ⟨hlinking, hqueue⟩ := forward_queue hqueue hpacket h
  exact ⟨hlinking.liv.trans hliv, hqueue⟩

theorem steady_push (pac_u : Panc) (hsteady : Steady sam_u) (hnew : sam_u.mem ptr = none)
    (hptr : ptr ≠ 0) :
    ∃ sam', pancPush sam_u ptr pac_u = .ok sam' ∧ Linking sam_u sam' ∧ Steady sam' ∧
      sam'.packet ptr = some pac_u := by
  obtain ⟨hliv, l, hqueue⟩ := hsteady
  obtain ⟨sam', hpush, hlinking, hqueue, hpacket, -⟩ := pancPush_ok pac_u hqueue hnew hptr
  exact ⟨sam', hpush, hlinking, ⟨hlinking.liv.trans hliv, _, hqueue⟩, hpacket⟩

theorem steady_free (hsteady : Steady sam_u) (hkept : sam_u.packet ptr ≠ none) :
    ∃ sam', pancFree sam_u ptr = .ok sam' ∧ Steady sam' := by
  obtain ⟨hliv, l, hqueue⟩ := hsteady
  obtain ⟨sam', l', hfree, hlinking, hqueue⟩ := free_ok hqueue hkept
  exact ⟨sam', hfree, hlinking.liv.trans hliv, l', hqueue⟩

/-- The other fields are not read by the list. -/
theorem Queue.congr (hqueue : Queue sam_u l) (hmem : sam'.mem = sam_u.mem)
    (hpac : sam'.pac_u = sam_u.pac_u) :
    Queue sam' l := by
  obtain ⟨hlinked, hnodup, hpackets⟩ := hqueue
  have hpre : sam'.pre = sam_u.pre := by
    unfold Sam.pre
    rw [hmem]
  have hnex : sam'.nex = sam_u.nex := by
    unfold Sam.nex
    rw [hmem]
  have hpacket : sam'.packet = sam_u.packet := by
    unfold Sam.packet
    rw [hmem]
  refine ⟨?_, hnodup, ?_⟩
  · rw [hpre, hnex, hpac]
    exact hlinked
  · rw [hpacket]
    exact hpackets

theorem steady_congr (hsteady : Steady sam_u) (hmem : sam'.mem = sam_u.mem)
    (hpac : sam'.pac_u = sam_u.pac_u) (hliv : sam'.liv_o = sam_u.liv_o) : Steady sam' := by
  obtain ⟨hlive, l, hqueue⟩ := hsteady
  exact ⟨hliv.trans hlive, l, hqueue.congr hmem hpac⟩

section Steps

variable {now : ℕ} {lan_u : Lane} {hed_u : Head} {bod_u : Body} {r : Result}

theorem tryForward_cases (hsteady : Steady sam_u) (hnew : sam_u.mem ptr = none) (hptr : ptr ≠ 0) :
    ∃ sam', Linking sam_u sam' ∧ Steady sam' ∧ sam'.packet ptr = some ⟨lan_u, hed_u, bod_u⟩ ∧
      tryForward sam_u now ptr lan_u hed_u bod_u =
        if galaxy bod_u.rec_d then forward sam' ptr (.cell (.atom 0) (.atom bod_u.rec_d))
        else match sam_u.fromCache now bod_u.rec_d with
          | none =>
            if 1000 < sam_u.foq_d then .ok ⟨sam_u, [], []⟩
            else .ok ⟨{ sam' with foq_d := (sam'.foq_d + 1) % 2 ^ 64 }, [], []⟩
          | some las => if las = .nul then .ok ⟨sam_u, [], []⟩ else forward sam' ptr las := by
  obtain ⟨sam', hpush, hlinking, hsteady', hpacket⟩ :=
    steady_push ⟨lan_u, hed_u, bod_u⟩ hsteady hnew hptr
  refine ⟨sam', hlinking, hsteady', hpacket, ?_⟩
  unfold tryForward
  dsimp only
  rw [hpush]
  rfl

/-- A node that receives still does. -/
theorem hear_steady {hun_y : List UInt8} (hsteady : Steady sam_u) (hnew : sam_u.mem ptr = none)
    (hptr : ptr ≠ 0) (h : hear hash sam_u now ptr lan_u hun_y = .ok r) : Steady r.sam_u := by
  unfold hear at h
  split at h
  · cases h
    exact hsteady
  · next hed_u bod_u haccept =>
    split at h
    · obtain ⟨sam', -, hsteady', hpacket, htry⟩ := tryForward_cases hsteady hnew hptr
      rw [htry] at h
      split at h
      · exact steady_forward hsteady' hpacket h
      · split at h
        · split at h
          · cases h
            exact hsteady
          · cases h
            exact steady_congr hsteady' rfl rfl rfl
        · split at h
          · cases h
            exact hsteady
          · exact steady_forward hsteady' hpacket h
    · cases h
      exact hsteady

theorem laneScryCb_cases {nun : Noun} {pac_u : Panc} (hsteady : Steady sam_u)
    (hpacket : sam_u.packet ptr = some pac_u) :
    (scryLanes nun = none ∧ ∃ sam', Steady sam' ∧
      laneScryCb sam_u now ptr nun = (serializePacket pac_u false).map fun pac ↦
        ⟨sam', [], [(pac_u.ore_u, pac)]⟩) ∨
    (scryLanes nun = some .nul ∧ ∃ sam', Steady sam' ∧
    laneScryCb sam_u now ptr nun = .ok ⟨sam', [], []⟩) ∨
    ∃ las sam', scryLanes nun = some las ∧ las ≠ .nul ∧ Steady sam' ∧ destOf sam' = destOf sam_u ∧
      sam'.packet ptr = some pac_u ∧ laneScryCb sam_u now ptr nun = forward sam' ptr las := by
  obtain ⟨node, hnode, rfl⟩ := packet_eq_some hpacket
  have hkept : sam_u.packet ptr ≠ none := by
    rw [hpacket]
    nofun
  unfold laneScryCb
  rw [hnode]
  dsimp only
  cases hlanes : scryLanes nun with
  | none =>
    have hsteady₁ : Steady { sam_u with
        foq_d := (sam_u.foq_d + 2 ^ 64 - 1) % 2 ^ 64, saw_d := (sam_u.saw_d + 1) % 2 ^ 64
        see_o := if 5 < (sam_u.saw_d + 1) % 2 ^ 64 then false else sam_u.see_o } :=
      steady_congr hsteady rfl rfl rfl
    obtain ⟨sam', hfree, hsteady'⟩ := steady_free hsteady₁ hkept
    refine Or.inl ⟨rfl, sam', hsteady', ?_⟩
    show (serializePacket node.pac_u false >>= fun pac ↦ (pancFree _ ptr >>= _)) = _
    rw [hfree]
    cases serializePacket node.pac_u false <;> rfl
  | some las =>
    have hsteady₁ : Steady ({ sam_u with
        foq_d := (sam_u.foq_d + 2 ^ 64 - 1) % 2 ^ 64,
          saw_d := 0 }.intoCache now node.pac_u.bod_u.rec_d las) :=
      steady_congr hsteady rfl rfl rfl
    by_cases hnul : las = .nul
    · subst hnul
      obtain ⟨sam', hfree, hsteady'⟩ := steady_free hsteady₁ hkept
      refine Or.inr (Or.inl ⟨rfl, sam', hsteady', ?_⟩)
      show (pancFree _ ptr >>= _) = _
      rw [hfree]
      rfl
    · refine Or.inr (Or.inr ⟨las, _, rfl, hnul, hsteady₁, rfl, hpacket, ?_⟩)
      exact if_neg hnul

theorem laneScryCb_steady {nun : Noun} (hsteady : Steady sam_u) (hkept : sam_u.mem ptr ≠ none)
    (h : laneScryCb sam_u now ptr nun = .ok r) : Steady r.sam_u := by
  obtain ⟨pac_u, hpacket⟩ : ∃ pac_u, sam_u.packet ptr = some pac_u := by
    cases hnode : sam_u.mem ptr with
    | none => exact absurd hnode hkept
    | some node => exact ⟨node.pac_u, by rw [Sam.packet, hnode]; rfl⟩
  obtain ⟨-, sam', hsteady', hcb⟩ | ⟨-, sam', hsteady', hcb⟩ |
    ⟨las, sam', -, -, hsteady', -, hpacket', hcb⟩ :=
    laneScryCb_cases hsteady hpacket
  · rw [hcb] at h
    cases hpac : serializePacket pac_u false with
    | error e =>
      rw [hpac] at h
      cases h
    | ok pac =>
      rw [hpac] at h
      cases h
      exact hsteady'
  · rw [hcb] at h
    cases h
    exact hsteady'
  · rw [hcb] at h
    exact steady_forward hsteady' hpacket' h

end Steps

/-! ### Whole runs -/

/-- The states of a node. It starts without packets; it hears datagrams, and scries are answered, as
long as nothing fails; and its version, its flags and its cache change. -/
inductive Reachable (hash : ℕ → List UInt8 → ℕ) : Sam → Prop
  | start {sam_u : Sam} (hliv : sam_u.liv_o = true) (hpac : sam_u.pac_u = 0)
    (hmem : ∀ p, sam_u.mem p = none) :
      Reachable hash sam_u
  | heard {sam_u : Sam} {now ptr : ℕ} {lan_u : Lane} {hun_y : List UInt8} {r : Result}
      (hreach : Reachable hash sam_u) (hnew : sam_u.mem ptr = none) (hptr : ptr ≠ 0)
      (hstep : hear hash sam_u now ptr lan_u hun_y = .ok r) : Reachable hash r.sam_u
  | answered {sam_u : Sam} {now ptr : ℕ} {nun : Noun} {r : Result} (hreach : Reachable hash sam_u)
      (hkept : sam_u.mem ptr ≠ none)
      (hstep : laneScryCb sam_u now ptr nun = .ok r) : Reachable hash r.sam_u
  | tuned {sam_u : Sam} (ver_y : ℕ) (fit_o see_o : Bool) (lax_p : ℕ → Option (Noun × ℕ))
      (hreach : Reachable hash sam_u) :
      Reachable hash { sam_u with ver_y := ver_y, fit_o := fit_o, see_o := see_o, lax_p := lax_p }

/-- The packets that wait are a list, in every state of a run. -/
theorem reachable_steady (hreach : Reachable hash sam_u) : Steady sam_u := by
  induction hreach with
  | start hliv hpac hmem =>
    refine ⟨hliv, [], hpac, List.nodup_nil, fun p ↦ ?_⟩
    simp [Sam.packet, hmem]
  | heard _ hnew hptr hstep ih => exact hear_steady ih hnew hptr hstep
  | answered _ hkept hstep ih => exact laneScryCb_steady ih hkept hstep
  | tuned _ _ _ _ _ ih => exact steady_congr ih rfl rfl rfl

/-- A datagram ends normally. If it is forwarded, it goes out to the galaxy that it is for, or on
the lanes of the cache. -/
def HearsWell (hash : ℕ → List UInt8 → ℕ) (sam_u : Sam) (now ptr : ℕ) (lan_u : Lane)
    (hun_y : List UInt8) : Prop :=
  ∃ r, hear hash sam_u now ptr lan_u hun_y = .ok r ∧
    ∀ hed_u bod_u, accept hash sam_u hun_y = some (hed_u, bod_u) → sam_u.see_o = true →
      bod_u.rec_d ≠ sam_u.who_d →
      (galaxy bod_u.rec_d = true → r.out.map Pact.dest = [.czar bod_u.rec_d]) ∧
      (galaxy bod_u.rec_d = false → ∀ las lans, sam_u.fromCache now bod_u.rec_d = some las →
      Lanes las lans →
        r.out.map Pact.dest = lans.filterMap (destOf sam_u))

/-- The version of a header is a number below 8. -/
local instance neZeroHeader : NeZero 8 := ⟨by decide⟩

/-- A datagram that is forwarded is not for a galaxy, and of version 0 where there are lanes for it.
-/
def HearMeets (hash : ℕ → List UInt8 → ℕ) (sam_u : Sam) (now : ℕ) (hun_y : List UInt8) : Prop :=
  ∀ hed_u bod_u, accept hash sam_u hun_y = some (hed_u, bod_u) → sam_u.see_o = true →
    bod_u.rec_d ≠ sam_u.who_d → galaxy bod_u.rec_d = false ∧
      ∀ las, sam_u.fromCache now bod_u.rec_d = some las → las ≠ .nul → hed_u.ver_y = 0

/-- An answer ends normally, and the packet goes out on its lanes. -/
def AnswersWell (sam_u : Sam) (now ptr : ℕ) (nun : Noun) : Prop :=
  ∃ r, laneScryCb sam_u now ptr nun = .ok r ∧ ∀ las lans, scryLanes nun = some las →
    Lanes las lans →
    r.out.map Pact.dest = lans.filterMap (destOf sam_u)

/-- The packet that waits is of version 0, or there are no lanes for it. -/
def AnswerMeets (sam_u : Sam) (ptr : ℕ) (nun : Noun) : Prop :=
  ∀ pac_u, sam_u.packet ptr = some pac_u → pac_u.hed_u.ver_y = 0 ∨ scryLanes nun = some .nul

theorem lanes_of_cache {now who : ℕ} {las : Noun}
    (hlists : ∀ who las den, sam_u.lax_p who = some (las, den) → ∃ lans, Lanes las lans)
    (hcache : sam_u.fromCache now who = some las) : ∃ lans, Lanes las lans := by
  unfold Sam.fromCache at hcache
  split at hcache
  · next las' den hlax =>
    split at hcache
    · cases hcache
      exact hlists _ _ _ hlax
    · cases hcache
  · cases hcache

theorem lanes_unique {las : Noun} {lans lans' : List Noun} (h : Lanes las lans)
    (h' : Lanes las lans') :
    lans' = lans := by
  induction h generalizing lans' with
  | nil =>
    cases h'
    rfl
  | cons _ _ ih =>
    cases h' with
    | cons _ ht => rw [ih ht]

/-- When a packet for another ship is forwarded as it should be. -/
theorem tryForward_iff {now : ℕ} {lan_u : Lane} {hed_u : Head} {bod_u : Body}
    (hsteady : Steady sam_u) (hlists : ∀ who las den, sam_u.lax_p who = some (las, den) →
    ∃ lans, Lanes las lans) (hnew : sam_u.mem ptr = none) (hptr : ptr ≠ 0) :
    (∃ r, tryForward sam_u now ptr lan_u hed_u bod_u = .ok r ∧
      (galaxy bod_u.rec_d = true → r.out.map Pact.dest = [.czar bod_u.rec_d]) ∧
      (galaxy bod_u.rec_d = false → ∀ las lans, sam_u.fromCache now bod_u.rec_d = some las →
      Lanes las lans →
        r.out.map Pact.dest = lans.filterMap (destOf sam_u))) ↔
    galaxy bod_u.rec_d = false ∧
      ∀ las, sam_u.fromCache now bod_u.rec_d = some las → las ≠ .nul → hed_u.ver_y = 0 := by
  obtain ⟨sam', hlinking, ⟨hliv, l, hqueue⟩, hpacket, htry⟩ := tryForward_cases hsteady hnew hptr
  rw [htry]
  cases hgalaxy : galaxy bod_u.rec_d with
  | true =>
    refine iff_of_false ?_ nofun
    rintro ⟨r, hforward, hout, -⟩
    have hsent := hout rfl
    rw [forward_galaxy hpacket hforward] at hsent
    cases hsent
  | false =>
    rw [if_neg (by simp)]
    cases hcache : sam_u.fromCache now bod_u.rec_d with
    | none =>
      refine iff_of_true ?_ ⟨rfl, nofun⟩
      dsimp only
      split
      · exact ⟨_, rfl, nofun, nofun⟩
      · exact ⟨_, rfl, nofun, nofun⟩
    | some las =>
      obtain ⟨lans, hlanes⟩ := lanes_of_cache hlists hcache
      dsimp only
      by_cases hnul : las = .nul
      · rw [if_pos hnul]
        refine iff_of_true ⟨_, rfl, nofun, ?_⟩ ⟨rfl, ?_⟩
        · rintro - las' lans' ⟨⟩ hlanes'
          rw [hnul] at hlanes'
          cases hlanes'
          rfl
        · rintro las' ⟨⟩ hne
          exact absurd hnul hne
      · rw [if_neg hnul]
        by_cases hver : hed_u.ver_y = 0
        · obtain ⟨r, hforward, hout⟩ := forward_ok hliv hqueue hpacket hver hlanes
          refine iff_of_true ⟨r, hforward, nofun, ?_⟩ ⟨rfl, fun _ _ _ ↦ hver⟩
          rintro - las' lans' ⟨⟩ hlanes'
          rw [hout, lanes_unique hlanes hlanes', hlinking.dest]
        · refine iff_of_false ?_ fun h ↦ hver (h.2 las rfl hnul)
          rintro ⟨r, hforward, -⟩
          rw [forward_version hpacket hver] at hforward
          cases hforward

theorem hear_iff {now : ℕ} {lan_u : Lane} {hun_y : List UInt8} (hsteady : Steady sam_u)
    (hlists : ∀ who las den, sam_u.lax_p who = some (las, den) → ∃ lans, Lanes las lans)
    (hnew : sam_u.mem ptr = none) (hptr : ptr ≠ 0) :
    HearsWell hash sam_u now ptr lan_u hun_y ↔ HearMeets hash sam_u now hun_y := by
  unfold HearsWell HearMeets hear
  cases haccept : accept hash sam_u hun_y with
  | none => exact iff_of_true ⟨_, rfl, nofun⟩ nofun
  | some packet =>
    obtain ⟨hed_u, bod_u⟩ := packet
    dsimp only
    by_cases hfwd : sam_u.see_o = true ∧ bod_u.rec_d ≠ sam_u.who_d
    · rw [if_pos hfwd]
      constructor
      · rintro ⟨r, htry, hout⟩ hed bod ⟨⟩ - -
        exact (tryForward_iff hsteady hlists hnew hptr).mp ⟨r, htry, hout _ _ rfl hfwd.1 hfwd.2⟩
      · intro hmeets
        obtain ⟨r, htry, hout⟩ :=
          (tryForward_iff hsteady hlists hnew hptr).mpr (hmeets hed_u bod_u rfl hfwd.1 hfwd.2)
        refine ⟨r, htry, ?_⟩
        rintro hed bod ⟨⟩ - -
        exact hout
    · rw [if_neg hfwd]
      refine iff_of_true ⟨_, rfl, ?_⟩ ?_
      · rintro hed bod ⟨⟩ hsee hrec
        exact absurd ⟨hsee, hrec⟩ hfwd
      · rintro hed bod ⟨⟩ hsee hrec
        exact absurd ⟨hsee, hrec⟩ hfwd

theorem answer_iff {now : ℕ} {nun : Noun} (hsteady : Steady sam_u) (hkept : sam_u.mem ptr ≠ none)
    (hlist : ∀ las, scryLanes nun = some las → ∃ lans, Lanes las lans) :
    AnswersWell sam_u now ptr nun ↔ AnswerMeets sam_u ptr nun := by
  obtain ⟨pac_u, hpacket⟩ : ∃ pac_u, sam_u.packet ptr = some pac_u := by
    cases hnode : sam_u.mem ptr with
    | none => exact absurd hnode hkept
    | some node => exact ⟨node.pac_u, by rw [Sam.packet, hnode]; rfl⟩
  unfold AnswersWell AnswerMeets
  rw [hpacket]
  obtain ⟨hnone, sam', -, hcb⟩ | ⟨hnul, sam', -, hcb⟩ |
    ⟨las, sam', hlas, hne, ⟨hliv, l, hqueue⟩, hdest, hpacket', hcb⟩ :=
      laneScryCb_cases hsteady hpacket
  · rw [hcb, hnone]
    by_cases hver : pac_u.hed_u.ver_y = 0
    · obtain ⟨pac, hpac⟩ := (serializePacket_eq pac_u false).1 hver
      rw [hpac]
      refine iff_of_true ⟨_, rfl, nofun⟩ ?_
      rintro _ ⟨⟩
      exact Or.inl hver
    · rw [(serializePacket_eq pac_u false).2 hver]
      refine iff_of_false ?_ ?_
      · rintro ⟨r, hr, -⟩
        cases hr
      · intro h
        obtain h | h := h pac_u rfl
        · exact hver h
        · cases h
  · rw [hcb, hnul]
    refine iff_of_true ⟨_, rfl, ?_⟩ fun _ _ ↦ Or.inr rfl
    rintro las lans ⟨⟩ hlanes
    cases hlanes
    rfl
  · obtain ⟨lans, hlanes⟩ := hlist las hlas
    rw [hcb, hlas]
    by_cases hver : pac_u.hed_u.ver_y = 0
    · obtain ⟨r, hforward, hout⟩ := forward_ok hliv hqueue hpacket' hver hlanes
      refine iff_of_true ⟨r, hforward, ?_⟩ ?_
      · rintro las' lans' ⟨⟩ hlanes'
        rw [hout, lanes_unique hlanes hlanes', hdest]
      · rintro _ ⟨⟩
        exact Or.inl hver
    · refine iff_of_false ?_ ?_
      · rintro ⟨r, hforward, -⟩
        rw [forward_version hpacket' hver] at hforward
        cases hforward
      · intro h
        obtain h | h := h pac_u rfl
        · exact hver h
        · exact hne (Option.some.inj h)

/-- In every state of a run, a datagram ends normally and goes out on its lanes exactly if it is not
to be forwarded to a galaxy, nor of another version than 0 when there are lanes for it; and an
answer to a scry exactly if the packet is of version 0 or there are no lanes for it. -/
theorem relay_steps (hreach : Reachable hash sam_u)
    (hlists : ∀ who las den, sam_u.lax_p who = some (las, den) → ∃ lans, Lanes las lans) :
    (∀ now ptr lan_u hun_y, sam_u.mem ptr = none → ptr ≠ 0 →
      (HearsWell hash sam_u now ptr lan_u hun_y ↔ HearMeets hash sam_u now hun_y)) ∧
    ∀ now ptr nun, sam_u.mem ptr ≠ none → (∀ las, scryLanes nun = some las →
    ∃ lans, Lanes las lans) →
      (AnswersWell sam_u now ptr nun ↔ AnswerMeets sam_u ptr nun) :=
  ⟨fun _ _ _ _ hnew hptr ↦ hear_iff (reachable_steady hreach) hlists hnew hptr,
    fun _ _ _ hkept hlist ↦ answer_iff (reachable_steady hreach) hkept hlist⟩

/-- The packet from 0x10100 to 0x20200 goes out on the lane of the cache. -/
theorem relay_steps_ab :
    HearsWell murmur3 relayNode 0 1 ⟨0x0a000001, 0x3039⟩
      [128, 66, 3, 176, 33, 0, 1, 1, 0, 0, 2, 2, 0, 171] := by
  have hreach : Reachable murmur3 relayNode := .start rfl rfl fun _ ↦ rfl
  have hlists : ∀ who las den, relayNode.lax_p who = some (las, den) → ∃ lans, Lanes las lans := by
    intro who las den hlax
    simp only [relayNode] at hlax
    split at hlax
    · cases hlax
      exact ⟨_, .cons trivial .nil⟩
    · cases hlax
  refine ((relay_steps hreach hlists).1 0 1 _ _ rfl (by decide)).mpr ?_
  have haccept : accept murmur3 relayNode [128, 66, 3, 176, 33, 0, 1, 1, 0, 0, 2, 2, 0, 171] =
      some (⟨true, 0, 1, 1, 393320, false⟩, ⟨0x10100, 0x20200, 1, 2, [171], 0, 393320⟩) := by
    decide +kernel
  intro hed_u bod_u h _ _
  cases haccept.symm.trans h
  exact ⟨rfl, fun _ _ _ ↦ rfl⟩

/-- A packet for the galaxy 5 bails, and a packet of version 1 fails the assertion, where versions
are not filtered. -/
theorem relay_stops :
    hear murmur3 relayNode 0 1 ⟨0x0a000001, 0x3039⟩
      [128, 208, 254, 187, 33, 0, 1, 1, 0, 5, 0, 171] =
      .error .bail ∧
    hear murmur3 { relayNode with fit_o := false } 0 1 ⟨0x0a000001, 0x3039⟩
      [144, 66, 3, 176, 33, 0, 1, 1, 0, 0, 2, 2, 0, 171] = .error .assert :=
  ⟨rfl, rfl⟩

end Vere.King.Ames
