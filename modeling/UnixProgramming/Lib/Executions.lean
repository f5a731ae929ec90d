import Mathlib.Logic.Relation
import Mathlib.Tactic.Common

/-!
# Executions of a deterministic machine

In every state a machine stops, faults or steps to one next state. An execution halts
when it reaches a state that stops. Since the next state is unique, whatever an execution
has passed through decides how it goes on: it does not halt after it has entered a set of
states from which it always returns to that set.
-/

namespace UnixProgramming

variable {σ φ : Type*} {step : σ → Option (Except φ σ)} {s s' s₁ s₂ : σ} {f : φ}

/-- The step from a state to the next one. -/
def Next (step : σ → Option (Except φ σ)) (s s' : σ) : Prop := step s = some (.ok s')

/-- Any number of steps. -/
def Executes (step : σ → Option (Except φ σ)) : σ → σ → Prop := Relation.ReflTransGen (Next step)

/-- At least one step. -/
def Proceeds (step : σ → Option (Except φ σ)) : σ → σ → Prop := Relation.TransGen (Next step)

/-- The execution reaches a state that stops. -/
def HaltsIn (step : σ → Option (Except φ σ)) (s s' : σ) : Prop :=
  Executes step s s' ∧ step s' = none

/-- The execution reaches a state that faults. -/
def FaultsWith (step : σ → Option (Except φ σ)) (s : σ) (f : φ) : Prop :=
  ∃ s', Executes step s s' ∧ step s' = some (.error f)

/-- No step at all is an execution. Executions compose, -/
theorem Executes.refl (s : σ) : Executes step s s := Relation.ReflTransGen.refl

/-- one after the other, -/
theorem Executes.trans (hfirst : Executes step s s₁) (hrest : Executes step s₁ s') :
    Executes step s s' := Relation.ReflTransGen.trans hfirst hrest

/-- with one step before them, -/
theorem Executes.head (hstep : Next step s s₁) (hrest : Executes step s₁ s') :
    Executes step s s' := Relation.ReflTransGen.head hstep hrest

/-- or with that step alone. -/
theorem Executes.single (hstep : Next step s s') : Executes step s s' :=
  Relation.ReflTransGen.single hstep

/-- One step after an execution makes it an execution of at least one step, whatever came
before. -/
theorem Executes.proceeds (hexec : Executes step s s₁) (hstep : Next step s₁ s') :
    Proceeds step s s' := Relation.TransGen.tail' hexec hstep

/-- The next state is unique. -/
theorem next_rightUnique : Relator.RightUnique (Next step) := by
  intro s s₁ s₂ h₁ h₂
  simpa using Option.some.inj (h₁.symm.trans h₂)

/-- An execution that passes through `s₁` halts where the rest of it halts. -/
theorem Executes.haltsIn_iff (hexec : Executes step s s₁) :
    HaltsIn step s s' ↔ HaltsIn step s₁ s' := by
  constructor
  · rintro ⟨hexec', hstop⟩
    obtain hrest | hback :=
      Relation.ReflTransGen.total_of_right_unique next_rightUnique hexec hexec'
    · exact ⟨hrest, hstop⟩
    · obtain rfl | ⟨s₂, hstep, _⟩ := Relation.ReflTransGen.cases_head hback
      · exact ⟨.refl _, hstop⟩
      · exact absurd (hstop.symm.trans hstep) (by simp)
  · exact fun hhalts => ⟨hexec.trans hhalts.1, hhalts.2⟩

/-- An execution that faults does not halt. -/
theorem FaultsWith.not_haltsIn (hfaults : FaultsWith step s f) : ¬HaltsIn step s s' := by
  obtain ⟨s₁, hexec, hfault⟩ := hfaults
  intro hhalts
  obtain ⟨hrest, hstop⟩ := hexec.haltsIn_iff.mp hhalts
  obtain rfl | ⟨s₂, hstep, _⟩ := Relation.ReflTransGen.cases_head hrest
  · exact absurd (hstop.symm.trans hfault) (by simp)
  · exact absurd (hfault.symm.trans hstep) (by simp)

/-- Neither does one that comes to fault. -/
theorem Executes.not_halts (hexec : Executes step s s₁) (hfaults : FaultsWith step s₁ f) :
    ¬∃ s', HaltsIn step s s' := by
  rintro ⟨s', hhalts⟩
  exact hfaults.not_haltsIn (hexec.haltsIn_iff.mp hhalts)

/-- A state that halts has no infinite execution. -/
theorem HaltsIn.acc (hhalts : HaltsIn step s s') : Acc (Function.swap (Next step)) s := by
  obtain ⟨hexec, hstop⟩ := hhalts
  induction hexec using Relation.ReflTransGen.head_induction_on with
  | refl =>
    refine ⟨_, fun t hstep => ?_⟩
    exact absurd (hstop.symm.trans hstep) (by simp)
  | head hstep _ ih =>
    refine ⟨_, fun t hstep' => ?_⟩
    rwa [next_rightUnique hstep' hstep]

/-- The loop rule: an execution that always returns to a set of states never halts. -/
theorem not_haltsIn_of_returns {I : σ → Prop}
    (hreturns : ∀ s, I s → ∃ s₁, Proceeds step s s₁ ∧ I s₁) (hs : I s) : ¬HaltsIn step s s' := by
  intro hhalts
  have hacc := hhalts.acc.transGen
  clear hhalts
  induction hacc with
  | intro s _ ih =>
    obtain ⟨s₁, hproceeds, hs₁⟩ := hreturns s hs
    exact ih s₁ (Relation.transGen_swap.mpr hproceeds) hs₁

end UnixProgramming
