import Mathlib

/-! Runs of a system with labelled steps, of which each meets a condition, and simulations of them
by another system. -/

namespace LibHotStuff.Transition

variable {σ ε τ : Type*}

/-- `s'` is reached from `s` by steps that all meet `cond` in the state they are taken in. -/
def Reaches (step : σ → ε → Option σ) (cond : σ → ε → Prop) : σ → σ → Prop :=
  Relation.ReflTransGen fun s s' => ∃ e, cond s e ∧ step s e = some s'

variable {step : σ → ε → Option σ} {cond cond' : σ → ε → Prop}

theorem Reaches.mono (h : ∀ s e, cond s e → cond' s e) {s s' : σ} (hr : Reaches step cond s s') :
    Reaches step cond' s s' :=
  Relation.ReflTransGen.mono (fun _ _ ⟨e, hc, hs⟩ => ⟨e, h _ _ hc, hs⟩) _ _ hr

/-- What holds at the start and is preserved by each step holds in every state reached. -/
theorem Reaches.invariant {inv : σ → Prop} {s s' : σ} (hr : Reaches step cond s s')
    (h0 : inv s)
    (hstep : ∀ s e s', inv s → cond s e → step s e = some s' → inv s') : inv s' := by
  induction hr with
  | refl => exact h0
  | tail _ hlast ih =>
    obtain ⟨e, hc, hs⟩ := hlast
    exact hstep _ e _ ih hc hs

/-- When each step is matched by steps of another system, so is a run. -/
theorem Reaches.simulated {next : τ → τ → Prop} {sim : σ → τ → Prop} {s s' : σ} {t : τ}
    (hr : Reaches step cond s s') (h0 : sim s t)
    (hstep : ∀ s e s' t, sim s t → cond s e → step s e = some s' →
      ∃ t', Relation.ReflTransGen next t t' ∧ sim s' t') :
    ∃ t', Relation.ReflTransGen next t t' ∧ sim s' t' := by
  induction hr with
  | refl => exact ⟨t, .refl, h0⟩
  | tail _ hlast ih =>
    obtain ⟨e, hc, hs⟩ := hlast
    obtain ⟨t₁, hr₁, hsim⟩ := ih
    obtain ⟨t₂, hr₂, hsim₂⟩ := hstep _ e _ _ hsim hc hs
    exact ⟨t₂, hr₁.trans hr₂, hsim₂⟩

/-- Runs through a list of labels, as long as each step meets the condition. -/
def runBy (step : σ → ε → Option σ) (cond : σ → ε → Prop) [∀ s e, Decidable (cond s e)] :
    σ → List ε → Option σ
  | s, [] => some s
  | s, e :: es => if cond s e then (step s e).bind fun s => runBy step cond s es else none

theorem runBy_reaches [∀ s e, Decidable (cond s e)] {es : List ε} {s s' : σ}
    (h : runBy step cond s es = some s') : Reaches step cond s s' := by
  induction es generalizing s with
  | nil =>
    rw [← Option.some.inj h]
    exact .refl
  | cons e es ih =>
    rw [runBy] at h
    split at h
    · rename_i hc
      obtain ⟨s₁, hs, hrun⟩ := Option.bind_eq_some_iff.mp h
      exact .head ⟨e, hc, hs⟩ (ih hrun)
    · cases h

/-- What is seen of the end of a run is seen of a state that is reached. -/
theorem runBy_map_reaches [∀ s e, Decidable (cond s e)] {ω : Type*} {f : σ → ω} {es : List ε}
    {s : σ} {y : ω} (h : (runBy step cond s es).map f = some y) :
    ∃ s', Reaches step cond s s' ∧ f s' = y := by
  obtain ⟨s', hrun, hf⟩ := Option.map_eq_some_iff.mp h
  exact ⟨s', runBy_reaches hrun, hf⟩

end LibHotStuff.Transition
