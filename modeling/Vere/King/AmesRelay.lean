import Vere.King.AmesPacket
import Vere.Lib.Results
import Mathlib.Logic.Relation

/-!
# Packets along relays

`Relays` is one relay: a node hears a datagram, and sends bytes for it, at once or when the scry for
its lanes is answered. These are the bytes of the packet with its origin set, less the zeros at
their end (`relays_eq`). So the next node reads the same packet if and only if the datagram does not
end in a zero, and the origin that the first relay sets is never changed afterwards
(`relay_preserves`).
-/

set_option autoImplicit false

namespace Vere.King.Ames

open Lib.Bytes Lib.Results
open Noun.Murmur (murmur3)

variable {hash : ℕ → List UInt8 → ℕ}

/-! ### What is sent -/

theorem efSend_bytes {sam_u : Sam} {lan : Noun} {pac : ℕ} {out : List Pact}
    (h : efSend sam_u lan pac = .ok out) : ∀ pact ∈ out, pact.hun_y = bytesOf pac := by
  unfold efSend at h
  dsimp only at h
  repeat' split at h
  all_goals cases h
  all_goals simp

theorem forwardLane_bytes {sam_u : Sam} {lan : Noun} {pac : ℕ} {out : List Pact}
    (h : forwardLane sam_u lan pac = .ok out) : ∀ pact ∈ out, pact.hun_y = bytesOf pac := by
  unfold forwardLane at h
  split at h
  · cases h
    simp
  · split at h
    · split at h
      · cases h
      · split at h
        · cases h
          simp
        · exact efSend_bytes h
    · exact efSend_bytes h

theorem forwardLanes_bytes {sam_u : Sam} {las : Noun} {pac : ℕ} {out : List Pact}
    (h : forwardLanes sam_u pac las = .ok out) : ∀ pact ∈ out, pact.hun_y = bytesOf pac := by
  induction las generalizing out with
  | atom a =>
    unfold forwardLanes at h
    split at h
    · cases h
      simp
    · cases h
  | cell lan t _ ih =>
    obtain ⟨first, hfirst, h⟩ := bind_eq_ok h
    obtain ⟨more, hmore, h⟩ := bind_eq_ok h
    cases h
    intro pact hpact
    obtain hpact | hpact := List.mem_append.mp hpact
    · exact forwardLane_bytes hfirst pact hpact
    · exact ih hmore pact hpact

variable {ptr : ℕ} {r : Result}

/-- Everything that is sent for a packet is its bytes, through the atom. -/
theorem forward_bytes {sam_u : Sam} {las : Noun} {node : Node} (h : forward sam_u ptr las = .ok r)
    (hnode : sam_u.mem ptr = some node) :
    ∃ pac_y, etchPack (node.pac_u.stamp true).hed_u (node.pac_u.stamp true).bod_u = .ok pac_y ∧
      ∀ pact ∈ r.out, pact.hun_y = bytesOf (value pac_y) := by
  unfold forward at h
  rw [hnode] at h
  obtain ⟨pac, hpac, h⟩ := bind_eq_ok h
  obtain ⟨out, hout, h⟩ := bind_eq_ok h
  obtain ⟨sam', -, h⟩ := bind_eq_ok h
  cases h
  obtain ⟨pac_y, hetch, hvalue⟩ := bind_eq_ok hpac
  cases hvalue
  exact ⟨pac_y, hetch, forwardLanes_bytes hout⟩

/-! ### One relay -/

/-- A node hears a datagram from a lane, and sends bytes for it. A datagram fits into the buffer of
`_ames_alloc()`, and a new packet is at an address that is not in use. -/
inductive Relays (hash : ℕ → List UInt8 → ℕ) (lan_u : Lane) (hun_y out_y : List UInt8) : Prop
  /-- The lanes are known. -/
  | now {sam_u : Sam} {now ptr : ℕ} {r : Result} {pact : Pact} (hsize : hun_y.length ≤ 2048)
      (hnew : sam_u.mem ptr = none) (hhear : hear hash sam_u now ptr lan_u hun_y = .ok r)
      (hpact : pact ∈ r.out)
      (hbytes : pact.hun_y = out_y)
  /-- The lanes are scried for, and the packet is still kept when the answer comes. -/
  | later {sam_u sam' : Sam} {now now' ptr : ℕ} {nun : Noun} {r r' : Result} {node node' : Node}
  {pact : Pact}
      (hsize : hun_y.length ≤ 2048) (hnew : sam_u.mem ptr = none)
      (hhear : hear hash sam_u now ptr lan_u hun_y = .ok r) (hkept : r.sam_u.mem ptr = some node)
      (hstill : sam'.mem ptr = some node') (hsame : node'.pac_u = node.pac_u)
      (hanswer : laneScryCb sam' now' ptr nun = .ok r') (hpact : pact ∈ r'.out)
      (hbytes : pact.hun_y = out_y)

theorem mem_set (sam_u : Sam) (ptr p : ℕ) (node : Option Node) :
    (sam_u.set ptr node).mem p = if p = ptr then node else sam_u.mem p := rfl

/-- A new packet is in the memory. -/
theorem pancPush_mem {sam_u sam' : Sam} {pac_u : Panc} (h : pancPush sam_u ptr pac_u = .ok sam') :
    ∃ node, sam'.mem ptr = some node ∧ node.pac_u = pac_u := by
  unfold pancPush at h
  obtain ⟨mid, hmid, h⟩ := bind_eq_ok h
  cases h
  exact ⟨⟨pac_u, 0, sam_u.pac_u⟩, by simp [mem_set], rfl⟩

theorem pancFree_mem {sam_u sam' : Sam} (h : pancFree sam_u ptr = .ok sam') :
    sam'.mem ptr = none := by
  unfold pancFree at h
  cases hnode : sam_u.mem ptr with
  | none =>
    rw [hnode] at h
    cases h
  | some node =>
    rw [hnode] at h
    obtain ⟨mid, -, h⟩ := bind_eq_ok h
    obtain ⟨mid', -, h⟩ := bind_eq_ok h
    cases h
    simp [mem_set]

theorem forward_mem {sam_u : Sam} {las : Noun} (h : forward sam_u ptr las = .ok r) :
    r.sam_u.mem ptr = none := by
  unfold forward at h
  cases hnode : sam_u.mem ptr with
  | none =>
    rw [hnode] at h
    cases h
  | some node =>
    rw [hnode] at h
    obtain ⟨pac, -, h⟩ := bind_eq_ok h
    obtain ⟨out, -, h⟩ := bind_eq_ok h
    obtain ⟨sam', hfree, h⟩ := bind_eq_ok h
    cases h
    exact pancFree_mem hfree

theorem tryForward_spec {sam_u : Sam} {now : ℕ} {lan_u : Lane} {hed_u : Head} {bod_u : Body}
    (hnew : sam_u.mem ptr = none) (h : tryForward sam_u now ptr lan_u hed_u bod_u = .ok r) :
    (∀ pact ∈ r.out, ∃ pac_y, etchPack ((Panc.mk lan_u hed_u bod_u).stamp true).hed_u
      ((Panc.mk lan_u hed_u bod_u).stamp true).bod_u = .ok pac_y ∧
      pact.hun_y = bytesOf (value pac_y)) ∧
    ∀ node, r.sam_u.mem ptr = some node → node.pac_u = ⟨lan_u, hed_u, bod_u⟩ := by
  have hforward : ∀ {sam' : Sam} {las : Noun}, pancPush sam_u ptr ⟨lan_u, hed_u, bod_u⟩ = .ok sam' →
      forward sam' ptr las = .ok r →
      (∀ pact ∈ r.out, ∃ pac_y, etchPack ((Panc.mk lan_u hed_u bod_u).stamp true).hed_u
        ((Panc.mk lan_u hed_u bod_u).stamp true).bod_u = .ok pac_y ∧
        pact.hun_y = bytesOf (value pac_y)) ∧
      ∀ node, r.sam_u.mem ptr = some node → node.pac_u = ⟨lan_u, hed_u, bod_u⟩ := by
    intro sam' las hpush hforward
    obtain ⟨node, hnode, hpac⟩ := pancPush_mem hpush
    obtain ⟨pac_y, hetch, hbytes⟩ := forward_bytes hforward hnode
    rw [hpac] at hetch
    refine ⟨fun pact hpact ↦ ⟨pac_y, hetch, hbytes pact hpact⟩, fun node hkept ↦ ?_⟩
    rw [forward_mem hforward] at hkept
    cases hkept
  unfold tryForward at h
  dsimp only at h
  split at h
  · obtain ⟨sam', hpush, h⟩ := bind_eq_ok h
    exact hforward hpush h
  · split at h
    · split at h
      · cases h
        refine ⟨by simp, fun node hkept ↦ ?_⟩
        rw [hnew] at hkept
        cases hkept
      · obtain ⟨sam', hpush, h⟩ := bind_eq_ok h
        obtain ⟨node, hnode, hpac⟩ := pancPush_mem hpush
        cases h
        refine ⟨by simp, fun node' hkept ↦ ?_⟩
        cases hnode.symm.trans hkept
        exact hpac
    · split at h
      · cases h
        refine ⟨by simp, fun node hkept ↦ ?_⟩
        rw [hnew] at hkept
        cases hkept
      · obtain ⟨sam', hpush, h⟩ := bind_eq_ok h
        exact hforward hpush h

/-- A packet is not changed by what is outside of it. -/
theorem laneScryCb_bytes {sam_u : Sam} {now : ℕ} {nun : Noun} {node : Node}
    (hnode : sam_u.mem ptr = some node) (h : laneScryCb sam_u now ptr nun = .ok r) :
    ∀ pact ∈ r.out, ∃ pac_y, etchPack (node.pac_u.stamp true).hed_u (node.pac_u.stamp true).bod_u =
      .ok pac_y ∧
      pact.hun_y = bytesOf (value pac_y) := by
  unfold laneScryCb at h
  rw [hnode] at h
  dsimp only at h
  split at h
  · obtain ⟨pac, -, h⟩ := bind_eq_ok h
    obtain ⟨sam', -, h⟩ := bind_eq_ok h
    cases h
    simp
  · unfold scryAnswered at h
    dsimp only at h
    split at h
    · obtain ⟨sam', -, h⟩ := bind_eq_ok h
      cases h
      simp
    · intro pact hpact
      obtain ⟨pac_y, hetch, hbytes⟩ := forward_bytes h hnode
      exact ⟨pac_y, hetch, hbytes pact hpact⟩

theorem sound_stamp (pac_u : Panc) {gob_y : List UInt8}
    (hsound : Sound hash pac_u.hed_u pac_u.bod_u gob_y) (dop_o : Bool) :
    Sound hash (pac_u.stamp dop_o).hed_u (pac_u.stamp dop_o).bod_u gob_y := by
  unfold Panc.stamp
  split
  · obtain ⟨hsim, hlong, hsize, hbody, hmug, -⟩ := hsound
    refine ⟨hsim, hlong, hsize, ?_, hmug, ?_⟩
    · show { pac_u.bod_u with rog_d := pac_u.ore_u.toChub } = _
      rw [hbody]
      rfl
    · show pac_u.ore_u.toChub < 256 ^ 6
      have hpip : pac_u.ore_u.pip_w.toNat < 2 ^ 32 := pac_u.ore_u.pip_w.toNat_lt
      have hpor := pac_u.ore_u.por_s.toNat_lt
      unfold Lane.toChub
      rw [Nat.xor_comm, xor_shiftLeft hpip]
      omega
  · exact hsound

/-- The bytes that a relay sends are those of the packet that it heard, with its origin set and
without the zeros at their end. -/
theorem relays_eq {lan_u : Lane} {hun_y out_y : List UInt8} (h : Relays hash lan_u hun_y out_y) :
    ∃ sam_u hed_u bod_u pac_y, accept hash sam_u hun_y = some (hed_u, bod_u) ∧ hun_y.length ≤ 2048 ∧
      etchPack ((Panc.mk lan_u hed_u bod_u).stamp true).hed_u
        ((Panc.mk lan_u hed_u bod_u).stamp true).bod_u =
        .ok pac_y ∧ out_y = bytesOf (value pac_y) := by
  -- what a node hears and does not drop or inject is forwarded or kept
  have hheard : ∀ {sam_u : Sam} {now ptr : ℕ} {r : Result}, sam_u.mem ptr = none →
      hear hash sam_u now ptr lan_u hun_y = .ok r → (r.out ≠ [] ∨ r.sam_u.mem ptr ≠ none) →
      ∃ hed_u bod_u, accept hash sam_u hun_y = some (hed_u, bod_u) ∧
        tryForward sam_u now ptr lan_u hed_u bod_u = .ok r := by
    intro sam_u now ptr r hnew hhear hsome
    unfold hear at hhear
    split at hhear
    · cases hhear
      simp [hnew] at hsome
    · next hed_u bod_u haccept =>
      split at hhear
      · exact ⟨hed_u, bod_u, haccept, hhear⟩
      · cases hhear
        simp [hnew] at hsome
  cases h with
  | now hsize hnew hhear hpact hbytes =>
    obtain ⟨hed_u, bod_u, haccept, htry⟩ := hheard hnew hhear (Or.inl (List.ne_nil_of_mem hpact))
    obtain ⟨pac_y, hetch, hsent⟩ := (tryForward_spec hnew htry).1 _ hpact
    exact ⟨_, hed_u, bod_u, pac_y, haccept, hsize, hetch, hbytes.symm.trans hsent⟩
  | later hsize hnew hhear hkept hstill hsame hanswer hpact hbytes =>
    obtain ⟨hed_u, bod_u, haccept, htry⟩ := hheard hnew hhear (Or.inr (by rw [hkept]; nofun))
    obtain ⟨pac_y, hetch, hsent⟩ := laneScryCb_bytes hstill hanswer _ hpact
    rw [hsame, (tryForward_spec hnew htry).2 _ hkept] at hetch
    exact ⟨_, hed_u, bod_u, pac_y, haccept, hsize, hetch, hbytes.symm.trans hsent⟩

/-- What is read does not depend on who reads it. -/
theorem accept_unique {sam_u sam' : Sam} {hun_y : List UInt8} {hed_u hed' : Head}
    {bod_u bod' : Body} (h : accept hash sam_u hun_y = some (hed_u, bod_u))
    (h' : accept hash sam' hun_y = some (hed', bod')) :
    hed' = hed_u ∧ bod' = bod_u := by
  obtain ⟨-, -, -, rfl, hbody, -⟩ := accept_eq_some.mp h
  obtain ⟨-, -, -, rfl, hbody', -⟩ := accept_eq_some.mp h'
  exact ⟨rfl, Option.some.inj (hbody'.symm.trans hbody)⟩

section Relay

variable {lan_u : Lane} {hun_y out_y : List UInt8} {sam_u hop : Sam} {hed_u hed' : Head}
  {bod_u bod' : Body}

theorem relays_sound (h : Relays hash lan_u hun_y out_y)
    (haccept : accept hash sam_u hun_y = some (hed_u, bod_u)) :
    ∃ gob_y pac_y, Sound hash ((Panc.mk lan_u hed_u bod_u).stamp true).hed_u
        ((Panc.mk lan_u hed_u bod_u).stamp true).bod_u gob_y ∧ gob_y <:+ hun_y ∧
      etchPack ((Panc.mk lan_u hed_u bod_u).stamp true).hed_u
        ((Panc.mk lan_u hed_u bod_u).stamp true).bod_u =
        .ok pac_y ∧ out_y = bytesOf (value pac_y) := by
  obtain ⟨sam', hed', bod', pac_y, haccept', hsize, hetch, hout⟩ := relays_eq h
  obtain ⟨rfl, rfl⟩ := accept_unique haccept haccept'
  obtain ⟨gob_y, hsound, hsuffix⟩ := sound_of_accept (by omega) haccept
  exact ⟨gob_y, pac_y, sound_stamp ⟨lan_u, hed', bod'⟩ hsound true, hsuffix, hetch, hout⟩

/-- Whoever reads what a relay sends reads the header and the origin that it set, and the ships and
life ticks that it heard. -/
theorem relays_part (h : Relays hash lan_u hun_y out_y)
    (haccept : accept hash sam_u hun_y = some (hed_u, bod_u))
    (hnext : accept hash hop out_y = some (hed', bod')) :
    hed' = ((Panc.mk lan_u hed_u bod_u).stamp true).hed_u ∧
      bod'.rog_d = ((Panc.mk lan_u hed_u bod_u).stamp true).bod_u.rog_d ∧
      bod'.sen_d = bod_u.sen_d := by
  obtain ⟨gob_y, pac_y, hsound, -, hetch, rfl⟩ := relays_sound h haccept
  rw [exists_zeros pac_y] at hetch
  obtain ⟨hhead, hsen, -, -, -, hrog, -⟩ := accept_part hsound hetch hnext
  refine ⟨hhead, hrog, hsen.trans ?_⟩
  unfold Panc.stamp
  split <;> rfl

/-- The sender, the receiver, the life ticks and the content of a packet. -/
def Body.Same (bod_u bod' : Body) : Prop :=
  bod'.sen_d = bod_u.sen_d ∧ bod'.rec_d = bod_u.rec_d ∧ bod'.sic_y = bod_u.sic_y ∧
    bod'.ric_y = bod_u.ric_y ∧ bod'.con_y = bod_u.con_y

theorem same_stamp (pac_u : Panc) : pac_u.bod_u.Same (pac_u.stamp true).bod_u := by
  unfold Panc.stamp
  split <;> exact ⟨rfl, rfl, rfl, rfl, rfl⟩

theorem stamp_ver (pac_u : Panc) : (pac_u.stamp true).hed_u.ver_y = pac_u.hed_u.ver_y := by
  unfold Panc.stamp
  split <;> rfl

theorem stamp_rel (pac_u : Panc) :
    (pac_u.stamp true).hed_u.rel_o = (pac_u.hed_u.rel_o || !galaxy pac_u.bod_u.sen_d) := by
  unfold Panc.stamp
  cases hrel : pac_u.hed_u.rel_o <;> cases hgalaxy : galaxy pac_u.bod_u.sen_d <;> simp_all

theorem stamp_rog (pac_u : Panc) : (pac_u.stamp true).bod_u.rog_d =
    if pac_u.hed_u.rel_o || galaxy pac_u.bod_u.sen_d then
      pac_u.bod_u.rog_d else pac_u.ore_u.toChub := by
  unfold Panc.stamp
  split <;> simp_all

theorem getLast_of_suffix {α : Type} {back all : List α} (hsuffix : back <:+ all)
    (hback : back ≠ []) :
    all.getLast? = back.getLast? := by
  obtain ⟨front, rfl⟩ := hsuffix
  exact List.getLast?_append_of_ne_nil front hback

/-- The next node reads the same packet if and only if the datagram does not end in a zero. -/
theorem relays_iff (h : Relays hash lan_u hun_y out_y)
    (haccept : accept hash sam_u hun_y = some (hed_u, bod_u))
    (hver : hop.fit_o = true → hop.ver_y = hed_u.ver_y.val) :
    (∃ hed' bod', accept hash hop out_y = some (hed', bod') ∧ bod_u.Same bod') ↔
    hun_y.getLast? ≠ some 0 := by
  obtain ⟨gob_y, pac_y, hsound, hsuffix, hetch, rfl⟩ := relays_sound h haccept
  have hne : gob_y ≠ [] := by
    rintro rfl
    exact absurd hsound.long (by simp)
  obtain ⟨hed_y, -, hpac⟩ := etchPack_eq hsound hetch
  have hlast : hun_y.getLast? = pac_y.getLast? := by
    rw [getLast_of_suffix hsuffix hne, hpac, ← List.append_assoc]
    exact (List.getLast?_append_of_ne_nil _ hne).symm
  have hsame := same_stamp ⟨lan_u, hed_u, bod_u⟩
  rw [hlast]
  constructor
  · rintro ⟨hed', bod', hnext, hsame'⟩ hzero
    have hshort := length_bytesOf_lt hzero
    have hlength := congrArg List.length (exists_zeros pac_y)
    rw [exists_zeros pac_y] at hetch
    obtain ⟨-, -, -, -, -, -, hcon⟩ := accept_part hsound hetch hnext
    rw [hsame'.2.2.2.2, hsame.2.2.2.2] at hcon
    rw [List.length_append] at hlength
    have hback : bod_u.con_y.length + _ = bod_u.con_y.length := hcon
    omega
  · intro hlast
    rw [bytesOf_value hlast]
    refine ⟨_, _, accept_etchPack hsound hetch ?_, hsame⟩
    rw [stamp_ver]
    exact hver

/-- A datagram whose origin is set, or whose sender is a galaxy, is relayed with the origin that it
has. -/
theorem relays_settled (h : Relays hash lan_u hun_y out_y)
    (haccept : accept hash sam_u hun_y = some (hed_u, bod_u))
    (hsettled : hed_u.rel_o = true ∨ galaxy bod_u.sen_d = true)
    (hnext : accept hash hop out_y = some (hed', bod')) :
    hed'.rel_o = hed_u.rel_o ∧ bod'.rog_d = bod_u.rog_d ∧ bod'.sen_d = bod_u.sen_d := by
  obtain ⟨rfl, hrog, hsen⟩ := relays_part h haccept hnext
  have hstamp : (Panc.mk lan_u hed_u bod_u).stamp true = ⟨lan_u, hed_u, bod_u⟩ := by
    unfold Panc.stamp
    rw [if_neg]
    rintro ⟨-, hrel, hgalaxy⟩
    obtain hset | hset := hsettled
    · exact hrel hset
    · exact hgalaxy hset
  rw [hstamp] at hrog ⊢
  exact ⟨rfl, hrog, hsen⟩

/-- Relays one after the other. -/
def Chain (hash : ℕ → List UInt8 → ℕ) : List UInt8 → List UInt8 → Prop :=
  Relation.ReflTransGen fun near_y far_y ↦ ∃ lan_u, Relays hash lan_u near_y far_y

/-- Relays do not change an origin. -/
theorem chain_settled {far_y : List UInt8} {rel_o : Bool} {rog_d sen_d : ℕ}
    (hchain : Chain hash out_y far_y) (hsettled : rel_o = true ∨ galaxy sen_d = true)
    (hfirst : ∀ {hop hed' bod'}, accept hash hop out_y = some (hed', bod') →
      hed'.rel_o = rel_o ∧ bod'.rog_d = rog_d ∧ bod'.sen_d = sen_d) :
    ∀ {hop hed' bod'}, accept hash hop far_y = some (hed', bod') →
      hed'.rel_o = rel_o ∧ bod'.rog_d = rog_d ∧ bod'.sen_d = sen_d := by
  induction hchain with
  | refl => exact hfirst
  | tail _ hrelays ih =>
    intro hop hed' bod' hnext
    obtain ⟨lan_u, hrelays⟩ := hrelays
    obtain ⟨sam_u, hed_u, bod_u, -, haccept, -⟩ := relays_eq hrelays
    obtain ⟨hrel, hrog, hsen⟩ := ih haccept
    have hset : hed_u.rel_o = true ∨ galaxy bod_u.sen_d = true := by
      rw [hrel, hsen]
      exact hsettled
    obtain ⟨hrel', hrog', hsen'⟩ := relays_settled hrelays haccept hset hnext
    exact ⟨hrel'.trans hrel, hrog'.trans hrog, hsen'.trans hsen⟩

/-- What a relay sends is accepted by the next node, and read as the same packet, exactly if the
datagram does not end in a zero. Along further relays, the origin is that of the datagram, or else
the lane that the first relay heard it from, unless its sender is a galaxy. -/
theorem relay_preserves (h : Relays hash lan_u hun_y out_y)
    (haccept : accept hash sam_u hun_y = some (hed_u, bod_u)) :
    (∀ hop : Sam, (hop.fit_o = true → hop.ver_y = hed_u.ver_y.val) →
      ((∃ hed' bod', accept hash hop out_y = some (hed', bod') ∧ bod_u.Same bod') ↔
        hun_y.getLast? ≠ some 0)) ∧
    ∀ far_y hop hed' bod', Chain hash out_y far_y → accept hash hop far_y = some (hed', bod') →
      hed'.rel_o = (hed_u.rel_o || !galaxy bod_u.sen_d) ∧
        bod'.rog_d = if hed_u.rel_o || galaxy bod_u.sen_d then bod_u.rog_d else lan_u.toChub := by
  refine ⟨fun hop hver ↦ relays_iff h haccept hver, fun far_y hop hed' bod' hchain hfar ↦ ?_⟩
  have hsettled : (hed_u.rel_o || !galaxy bod_u.sen_d) = true ∨ galaxy bod_u.sen_d = true := by
    cases hed_u.rel_o <;> cases galaxy bod_u.sen_d <;> simp
  have hfirst : ∀ {hop hed' bod'}, accept hash hop out_y = some (hed', bod') →
      hed'.rel_o = (hed_u.rel_o || !galaxy bod_u.sen_d) ∧
        bod'.rog_d = (if hed_u.rel_o || galaxy bod_u.sen_d then bod_u.rog_d else lan_u.toChub) ∧
        bod'.sen_d = bod_u.sen_d := by
    intro hop hed' bod' hnext
    obtain ⟨rfl, hrog, hsen⟩ := relays_part h haccept hnext
    exact ⟨stamp_rel _, hrog.trans (stamp_rog _), hsen⟩
  obtain ⟨hrel, hrog, -⟩ := chain_settled hchain hsettled hfirst hfar
  exact ⟨hrel, hrog⟩

end Relay

/-! ### A datagram that is lost -/

/-- A node with one lane in its cache, for the ship 0x20200. -/
def relayNode : Sam where
  net := true
  who_d := 0x30300
  liv_o := true
  ver_y := 0
  fit_o := true
  see_o := true
  lax_p who := if who = 0x20200 then some (.cell (.cell (.atom 1) (.atom 0x30390a000001)) (.atom 0),
    0) else none
  pac_u := 0
  mem _ := none
  foq_d := 0
  saw_d := 0

/-- The bytes that a node sends at once for a datagram. -/
def sentFor (hash : ℕ → List UInt8 → ℕ) (sam_u : Sam) (lan_u : Lane) (hun_y : List UInt8) :
    Option (List (List UInt8)) :=
  (hear hash sam_u 0 1 lan_u hun_y).toOption.map fun r ↦ r.out.map Pact.hun_y

theorem relays_of_sentFor (sam_u : Sam) {lan_u : Lane} {hun_y out_y : List UInt8}
    (hsize : hun_y.length ≤ 2048) (hnew : sam_u.mem 1 = none)
    (hsent : sentFor hash sam_u lan_u hun_y = some [out_y]) :
    Relays hash lan_u hun_y out_y := by
  unfold sentFor at hsent
  cases hhear : hear hash sam_u 0 1 lan_u hun_y with
  | error e =>
    rw [hhear] at hsent
    cases hsent
  | ok r =>
    rw [hhear] at hsent
    obtain ⟨pact, hpact, hbytes⟩ : ∃ pact ∈ r.out, pact.hun_y = out_y := by
      have hmem : out_y ∈ r.out.map Pact.hun_y := by
        rw [show r.out.map Pact.hun_y = [out_y] from Option.some.inj hsent]
        exact List.mem_singleton_self out_y
      exact List.mem_map.mp hmem
    exact .now hsize hnew hhear hpact hbytes

/-- The packet from 0x10100 to 0x20200 with the content `ab`, and its origin after a relay. -/
theorem relay_preserves_ab :
    (∃ hed' bod', accept murmur3 relayNode
      [128, 66, 3, 48, 1, 0, 0, 10, 57, 48, 33, 0, 1, 1, 0, 0, 2, 2, 0, 171] = some (hed', bod') ∧
      Body.Same ⟨0x10100, 0x20200, 1, 2, [171], 0, 393320⟩ bod') := by
  have hrelays : Relays murmur3 ⟨0x0a000001, 0x3039⟩ [128, 66, 3, 176, 33, 0, 1, 1, 0, 0, 2,
    2, 0, 171]
      [128, 66, 3, 48, 1, 0, 0, 10, 57, 48, 33, 0, 1, 1, 0, 0, 2, 2, 0, 171] :=
    relays_of_sentFor relayNode (by decide) rfl (by decide +kernel)
  have haccept : accept murmur3 relayNode [128, 66, 3, 176, 33, 0, 1, 1, 0, 0, 2, 2, 0, 171] =
      some (⟨true, 0, 1, 1, 393320, false⟩, ⟨0x10100, 0x20200, 1, 2, [171], 0, 393320⟩) := by
    decide +kernel
  exact ((relay_preserves hrelays haccept).1 relayNode fun _ ↦ rfl).mpr (by decide)

/-- The same packet with the content `ab 00` loses its last byte: the next node drops it, for its
mug. -/
theorem relay_loses_zero :
    Relays murmur3 ⟨0x0a000001, 0x3039⟩ [128, 218, 230, 137, 33, 0, 1, 1, 0, 0, 2, 2, 0, 171, 0]
      [128, 218, 230, 9, 1, 0, 0, 10, 57, 48, 33, 0, 1, 1, 0, 0, 2, 2, 0, 171] ∧
    accept murmur3 relayNode [128, 218, 230, 9, 1, 0, 0, 10, 57, 48, 33, 0, 1, 1, 0, 0, 2, 2, 0,
    171] = none :=
  ⟨relays_of_sentFor relayNode (by decide) rfl (by decide +kernel), by decide +kernel⟩

end Vere.King.Ames
