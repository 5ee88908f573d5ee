import Mathlib.Computability.StateTransition

/-!
# Simulation by several steps

A transition function `f` simulates a relation `r` if it does whatever `r` does in one step, in
one or more of its own. It then follows every run of `r` (`Simulates.reaches`). As `f` has but
one way to go, it does nothing else as long as `r` goes on (`Simulates.reaches_back`).
-/

namespace StateTransition

open Relation

variable {σ τ : Type*}

/-- Every step of `r` is one or more steps of `f`. -/
def Simulates (r : σ → σ → Prop) (f : τ → Option τ) (R : σ → τ → Prop) : Prop :=
  ∀ s s' t, R s t → r s s' → ∃ t', Reaches₁ f t t' ∧ R s' t'

variable {r : σ → σ → Prop} {f : τ → Option τ} {R : σ → τ → Prop} {s s' : σ} {t u : τ}

namespace Simulates

theorem reaches (h : Simulates r f R) (hst : R s t) (hrun : ReflTransGen r s s') :
    ∃ t', Reaches f t t' ∧ R s' t' := by
  induction hrun with
  | refl => exact ⟨t, ReflTransGen.refl, hst⟩
  | tail _ hstep ih =>
    obtain ⟨t', hreaches, ht'⟩ := ih
    obtain ⟨t'', hmore, ht''⟩ := h _ _ _ ht' hstep
    exact ⟨t'', hreaches.trans hmore.to_reflTransGen, ht''⟩

/-- What `f` reaches leads on to a state of a run of `r`, unless `r` ends before. -/
theorem reaches_back (h : Simulates r f R) (hst : R s t) (hrun : Reaches f t u) :
    (∃ s' t', ReflTransGen r s s' ∧ Reaches f u t' ∧ R s' t') ∨
      ∃ s', ReflTransGen r s s' ∧ ∀ s'', ¬r s' s'' := by
  induction hrun with
  | refl => exact Or.inl ⟨s, t, ReflTransGen.refl, ReflTransGen.refl, hst⟩
  | tail _ hstep ih =>
    rcases ih with ⟨s', t', hs', ht', hR⟩ | hend
    · rcases reflTransGen_iff_eq_or_transGen.1 ht' with rfl | hmore
      · by_cases hnext : ∃ s'', r s' s''
        · obtain ⟨s'', hs''⟩ := hnext
          obtain ⟨t'', hmore, hR'⟩ := h _ _ _ hR hs''
          exact Or.inl ⟨s'', t'', hs'.tail hs'', reaches₁_fwd hmore hstep, hR'⟩
        · exact Or.inr ⟨s', hs', not_exists.1 hnext⟩
      · exact Or.inl ⟨s', t', hs', reaches₁_fwd hmore hstep, hR⟩
    · exact Or.inr hend

end Simulates

end StateTransition
