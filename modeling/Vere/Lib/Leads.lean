import Mathlib.Logic.Relation

/-!
# What a run leads to

`Leads R P Q`: from every state of `P`, steps of `R` lead to a state of `Q`. A run is put together
from its parts with `Leads.trans`, `Leads.step` and `Leads.or`.
-/

set_option autoImplicit false

namespace Vere.Lib

variable {σ : Type} {R : σ → σ → Prop} {P P' Q Q' S : σ → Prop}

/-- From every state of `P`, steps lead to a state of `Q`. -/
def Leads (R : σ → σ → Prop) (P Q : σ → Prop) : Prop :=
  ∀ s, P s → ∃ s', Relation.ReflTransGen R s s' ∧ Q s'

theorem Leads.of_imp (himp : ∀ s, P s → Q s) : Leads R P Q :=
  fun s hs ↦ ⟨s, .refl, himp s hs⟩

theorem Leads.step (hstep : ∀ s, P s → ∃ s', R s s' ∧ Q s') : Leads R P Q := by
  intro s hs
  obtain ⟨s', hrun, hs'⟩ := hstep s hs
  exact ⟨s', .single hrun, hs'⟩

theorem Leads.trans (hleft : Leads R P Q) (hright : Leads R Q S) : Leads R P S := by
  intro s hs
  obtain ⟨s', hrun, hs'⟩ := hleft s hs
  obtain ⟨s'', hrun', hs''⟩ := hright s' hs'
  exact ⟨s'', hrun.trans hrun', hs''⟩

theorem Leads.or (hleft : Leads R P S) (hright : Leads R Q S) : Leads R (fun s ↦ P s ∨ Q s) S :=
  fun s hs ↦ hs.elim (hleft s) (hright s)

theorem Leads.mono (hleads : Leads R P Q) (himp : ∀ s, Q s → Q' s) : Leads R P Q' :=
  hleads.trans (.of_imp himp)

end Vere.Lib
