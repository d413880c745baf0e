import Vere.Noun.NockAssemble
import Vere.Noun.NockBurn

/-!
# Bytes as ops

`Faithful` says that a machine runs the ops of the compiler: what it fetches, where its skips lead,
and which ops it finds for a formula. The machine on bytes does (`byteMachine_faithful`), so that
nothing below has to look at bytes.
-/

set_option autoImplicit false

namespace Vere.Noun.Nock

open Lib.Results

/-! ### Machines that run ops -/

theorem step_eq {C W : Type} {env : Env W} {mac : Machine C} {s : State C W} {instr : Instr}
    {code : C} (hfetch : mac.fetch s.code = some (instr, code)) :
    step env mac s = exec env mac { s with code := code } instr := by
  unfold step
  rw [hfetch]

/-- A formula whose program can be assembled: its ops fit into the loom, and their indices into two
bytes. -/
structure Fits (fol : Noun) (ops : List Op) : Prop where
  comp : comp fol true true = .ok ops
  cells : ops.length ≤ cells
  few : Few ops

/-- A machine that reads code as ops. -/
structure Faithful {C : Type} (mac : Machine C) (Codes : C → List Op → Prop) : Prop where
  halt : ∀ {c}, Codes c [] → ∃ c', mac.fetch c = some (.bare .halt, c')
  fetch : ∀ {c o rest}, Codes c (o :: rest) → ∃ v dist inx c', o.view = some v ∧
    mac.fetch c = some (v.instr o.cod dist inx, c') ∧ Codes c' rest ∧
    Codes (mac.skip c' (dist v.sip)) (rest.drop v.sip)
  find : ∀ {fol c}, mac.find fol = .ok c → ∃ ops, comp fol true true = .ok ops ∧ Codes c ops
  fits : ∀ {fol ops}, Fits fol ops → ∃ c, mac.find fol = .ok c ∧ Codes c ops
  crash : ∀ {fol e}, mac.find fol = .error e → comp fol true true = .error e ∨
    ∃ ops, comp fol true true = .ok ops ∧ (e = .bail ∨ ¬Few ops)

/-- A place in a program reads as the ops from an index on. -/
def Reads (place : Place) (ops : List Op) : Prop :=
  ∃ all off i, Layout place.pog all off ∧ i ≤ all.length ∧ place.ip = off i ∧ ops = all.drop i

theorem byteMachine_fetch {place : Place} {o : Op} {rest : List Op}
    (hreads : Reads place (o :: rest)) :
    ∃ v dist inx place', o.view = some v ∧
      byteMachine.fetch place = some (v.instr o.cod dist inx, place') ∧ Reads place' rest ∧
      Reads (byteMachine.skip place' (dist v.sip)) (rest.drop v.sip) := by
  obtain ⟨all, off, i, hlayout, hi, hip, hops⟩ := hreads
  have hlength : i < all.length := by
    by_contra hge
    rw [List.drop_eq_nil_of_le (by omega)] at hops
    cases hops
  rw [List.drop_eq_getElem_cons hlength] at hops
  obtain ⟨ho, hrest⟩ := List.cons.inj hops
  obtain ⟨v, hview, -, hsip, dist, hdist, hfetch⟩ :=
    hlayout.read i o (List.getElem?_eq_some_iff.mpr ⟨hlength, ho.symm⟩)
  refine ⟨v, dist, v.inx (all.drop (i + 1)), { place with ip := off (i + 1) }, hview, ?_, ?_, ?_⟩
  · show (place.pog.fetch place.ip).map _ = _
    rw [hip, hfetch]
    rfl
  · exact ⟨all, off, i + 1, hlayout, hlength, rfl, hrest⟩
  · refine ⟨all, off, i + 1 + v.sip, hlayout, hsip, hdist, ?_⟩
    rw [hrest, List.drop_drop]

theorem byteMachine_halt {place : Place} (hreads : Reads place []) :
    ∃ place', byteMachine.fetch place = some (.bare .halt, place') := by
  obtain ⟨all, off, i, hlayout, hi, hip, hops⟩ := hreads
  have hlength : i = all.length := by
    have hle := List.drop_eq_nil_iff.mp hops.symm
    omega
  refine ⟨{ place with ip := place.pog.ops.length }, ?_⟩
  show (place.pog.fetch place.ip).map _ = _
  rw [hip, hlength, hlayout.halt]
  rfl

variable {fol : Noun}

/-- The program of a formula that is compiled and measured. -/
theorem bite_eq {ops : List Op} (hcomp : comp fol true true = .ok ops)
    (hcells : ops.length ≤ cells) :
    bite fol = progFromOps ops.reverse := by
  rw [bite, hcomp]
  show (if cells < ops.length then _ else _) = _
  rw [if_neg (by omega)]

theorem byteMachine_find {place : Place} (hfind : byteMachine.find fol = .ok place) :
    ∃ ops, comp fol true true = .ok ops ∧ Reads place ops := by
  obtain ⟨pog, hpog, rfl⟩ := map_eq_ok hfind
  obtain ⟨ops, hcomp, hbite⟩ := bind_eq_ok hpog
  have hcells : ops.length ≤ cells := by
    by_contra hlarge
    rw [if_pos (by omega)] at hbite
    cases hbite
  rw [if_neg (by omega)] at hbite
  obtain ⟨m, hmelt, -⟩ := bind_eq_ok hbite
  obtain ⟨pog', off, hpog', -, hlayout⟩ :=
    layout_of_melt (compiled_linked (compiled_of_comp hcomp)) hmelt hcells
  cases hpog'.symm.trans hbite
  exact ⟨ops, hcomp, ops, off, 0, hlayout, Nat.zero_le _, hlayout.first.symm, rfl⟩

theorem byteMachine_fits {ops : List Op} (hfits : Fits fol ops) :
    ∃ place, byteMachine.find fol = .ok place ∧ Reads place ops := by
  obtain ⟨hcomp, hcells, hfew⟩ := hfits
  have hlinked := compiled_linked (compiled_of_comp hcomp)
  obtain ⟨m, hmelt⟩ := melt_ok hlinked hfew
  obtain ⟨pog, off, hpog, -, hlayout⟩ := layout_of_melt hlinked hmelt hcells
  refine ⟨⟨fol, pog, 0⟩, ?_, ops, off, 0, hlayout, Nat.zero_le _, hlayout.first.symm, rfl⟩
  show (bite fol).map _ = _
  rw [bite_eq hcomp hcells, hpog]
  rfl

theorem byteMachine_crash {e : Crash} (hfind : byteMachine.find fol = .error e) :
    comp fol true true = .error e ∨
      ∃ ops, comp fol true true = .ok ops ∧ (e = .bail ∨ ¬Few ops) := by
  have hmap : (bite fol).map (fun pog ↦ (⟨fol, pog, 0⟩ : Place)) = .error e := hfind
  cases hcomp : comp fol true true with
  | error e' =>
    left
    rw [bite, hcomp] at hmap
    cases hmap
    rfl
  | ok ops =>
    refine Or.inr ⟨ops, rfl, ?_⟩
    by_cases hcells : ops.length ≤ cells
    · right
      intro hfew
      obtain ⟨place, hplace, -⟩ := byteMachine_fits ⟨hcomp, hcells, hfew⟩
      cases hplace.symm.trans hfind
    · left
      have hbail : bite fol = .error .bail := by
        rw [bite, hcomp]
        exact if_pos (by omega)
      rw [hbail] at hmap
      cases hmap
      rfl

/-- The machine on bytes runs the ops of the compiler. -/
theorem byteMachine_faithful : Faithful byteMachine Reads where
  halt := byteMachine_halt
  fetch := byteMachine_fetch
  find := byteMachine_find
  fits := byteMachine_fits
  crash := byteMachine_crash

end Vere.Noun.Nock
