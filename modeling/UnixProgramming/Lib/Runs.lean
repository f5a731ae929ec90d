import Mathlib.Logic.Relation
import Mathlib.Tactic.Common

/-!
# Runs of a labelled step relation

A component is given by an initial state and a relation `Step s l s'`. A run
carries its history, newest step first, so that a condition can speak of the
state in which each step was taken. The rules below turn one step lemma into a
statement about every state that a run passes through.
-/

namespace UnixProgramming

variable {State Label : Type*}

/-- The runs from `init`, with the history of states and labels before each step. -/
inductive Run (init : State) (Step : State → Label → State → Prop) :
    List (State × Label) → State → Prop
  | start : Run init Step [] init
  | step {history : List (State × Label)} {s s' : State} {l : Label} :
      Run init Step history s → Step s l s' → Run init Step ((s, l) :: history) s'

/-- A state is reachable when some run ends in it. -/
def Reachable (init : State) (Step : State → Label → State → Prop) (s : State) : Prop :=
  ∃ history, Run init Step history s

/-- Every step of a history meets a condition on its label and the state before it. -/
def EachStep (C : State → Label → Prop) (history : List (State × Label)) : Prop :=
  ∀ x ∈ history, C x.1 x.2

/-- A property holds in the last state of a run and in every state before it. -/
def Throughout (P : State → Prop) (history : List (State × Label)) (s : State) : Prop :=
  P s ∧ ∀ x ∈ history, P x.1

/-- Each state of a run is related to the next one. -/
def Successive (R : State → State → Prop) : List (State × Label) → State → Prop
  | [], _ => True
  | (s, _) :: history, s' => R s s' ∧ Successive R history s

variable {init : State} {Step : State → Label → State → Prop}
variable {P J : State → Prop} {C : State → Label → Prop}
variable {history : List (State × Label)} {s s' : State} {l : Label}

/-- A condition on all steps of a history, by the form of the history: no step, -/
@[simp] theorem eachStep_nil : EachStep C [] := by
  simp [EachStep]

/-- or a last step and the steps before it. -/
@[simp] theorem eachStep_cons :
    EachStep C ((s, l) :: history) ↔ C s l ∧ EachStep C history := by
  simp [EachStep]

/-- A property of all states of a run holds of its last state, -/
@[simp] theorem throughout_nil : Throughout P ([] : List (State × Label)) s ↔ P s := by
  simp [Throughout]

/-- and of the states before the last step. -/
@[simp] theorem throughout_cons :
    Throughout P ((s, l) :: history) s' ↔ P s' ∧ Throughout P history s := by
  simp [Throughout]

/-- The initial state is reachable, by the empty run. -/
theorem reachable_init : Reachable init Step init :=
  ⟨[], .start⟩

/-- A step from a reachable state leads to a reachable state. -/
theorem Reachable.step (hreach : Reachable init Step s) (hstep : Step s l s') :
    Reachable init Step s' := by
  obtain ⟨history, hrun⟩ := hreach
  exact ⟨(s, l) :: history, hrun.step hstep⟩

/-- The invariant rule, for steps that meet a condition: what holds initially and
is kept by every such step holds throughout every run made of such steps. -/
theorem Run.throughout_of_step (hinit : P init)
    (hkeep : ∀ s l s', P s → C s l → Step s l s' → P s')
    (hrun : Run init Step history s) (hcond : EachStep C history) :
    Throughout P history s := by
  induction hrun with
  | start => simpa using hinit
  | step _ hstep ih =>
    rw [eachStep_cons] at hcond
    have hbefore := ih hcond.2
    exact throughout_cons.mpr ⟨hkeep _ _ _ hbefore.1 hcond.1 hstep, hbefore⟩

/-- What relates the states before and after every step that meets a condition relates the
successive states of every run made of such steps. -/
theorem Run.successive_of_step {R : State → State → Prop}
    (hkeep : ∀ s l s', C s l → Step s l s' → R s s') (hrun : Run init Step history s)
    (hcond : EachStep C history) : Successive R history s := by
  induction hrun with
  | start => trivial
  | step _ hstep ih =>
    rw [eachStep_cons] at hcond
    exact ⟨hkeep _ _ _ hcond.1 hstep, ih hcond.2⟩

/-- A transitive relation between successive states relates the initial state to all. -/
theorem Run.throughout_of_successive {R : State → State → Prop} (hrefl : ∀ s, R s s)
    (htrans : ∀ s s' s'', R s s' → R s' s'' → R s s'') (hrun : Run init Step history s)
    (hsuccessive : Successive R history s) : Throughout (R init) history s := by
  induction hrun with
  | start => simpa using hrefl init
  | step _ _ ih =>
    have hbefore := ih hsuccessive.2
    exact throughout_cons.mpr ⟨htrans _ _ _ hbefore.1 hsuccessive.1, hbefore⟩

/-- What comes before a step of a run is a run, and the step was taken in its last state. -/
theorem Run.before {later earlier : List (State × Label)} {s₀ : State}
    (hrun : Run init Step (later ++ (s₀, l) :: earlier) s) :
    Run init Step earlier s₀ ∧ ∃ s₁, Step s₀ l s₁ := by
  induction later generalizing s with
  | nil =>
    cases hrun with
    | step hrun hstep => exact ⟨hrun, _, hstep⟩
  | cons x later ih =>
    cases hrun with
    | step hrun _ => exact ih hrun

/-- The invariant rule without a condition on the steps. -/
theorem Reachable.invariant (hinit : P init)
    (hkeep : ∀ s l s', P s → Step s l s' → P s') (hreach : Reachable init Step s) : P s := by
  obtain ⟨history, hrun⟩ := hreach
  induction hrun with
  | start => exact hinit
  | step _ hstep ih => exact hkeep _ _ _ ih hstep

/-- The exact rule, with an auxiliary invariant `J`: where each step keeps the property
precisely when it meets the condition, a run keeps it throughout precisely when all of
its steps do. -/
theorem Run.throughout_iff (hinit : J init ∧ P init)
    (hexact : ∀ s l s', J s → P s → Step s l s' → (P s' ↔ C s l) ∧ (P s' → J s'))
    (hrun : Run init Step history s) :
    Throughout P history s ↔ EachStep C history := by
  have haux : (Throughout P history s → J s) ∧ (Throughout P history s ↔ EachStep C history) := by
    induction hrun with
    | start => simpa [hinit.1] using hinit.2
    | @step history s s' l hrun hstep ih =>
      obtain ⟨hJ, hiff⟩ := ih
      rw [throughout_cons, eachStep_cons]
      refine ⟨fun h => ?_, fun h => ?_, fun h => ?_⟩
      · exact (hexact s l s' (hJ h.2) h.2.1 hstep).2 h.1
      · exact ⟨(hexact s l s' (hJ h.2) h.2.1 hstep).1.mp h.1, hiff.mp h.2⟩
      · have hbefore := hiff.mpr h.2
        exact ⟨(hexact s l s' (hJ hbefore) hbefore.1 hstep).1.mpr h.1, hbefore⟩
  exact haux.2

/-- The final rule, with an invariant `J`: where a step ends in the property precisely when
it starts in the property and meets the condition, a run ends in it, and has it throughout,
precisely when all of its steps meet the condition. -/
theorem Run.iff_eachStep (hinit : J init ∧ P init)
    (hexact : ∀ s l s', J s → Step s l s' → J s' ∧ (P s' ↔ P s ∧ C s l))
    (hrun : Run init Step history s) :
    (P s ↔ EachStep C history) ∧ (Throughout P history s ↔ EachStep C history) := by
  have haux : J s ∧ (P s ↔ EachStep C history) ∧
      (Throughout P history s ↔ EachStep C history) := by
    induction hrun with
    | start => simpa using hinit
    | @step history s s' l _ hstep ih =>
      obtain ⟨hbefore, hfinal, hthroughout⟩ := ih
      obtain ⟨hafter, hiff⟩ := hexact s l s' hbefore hstep
      have hlast : P s' ↔ EachStep C ((s, l) :: history) := by
        rw [hiff, eachStep_cons, hfinal, and_comm]
      refine ⟨hafter, hlast, ?_⟩
      rw [throughout_cons, hlast, hthroughout, eachStep_cons]
      exact ⟨fun h => h.1, fun h => ⟨h, h.2⟩⟩
  exact haux.2

/-- The projection rule: when a kept step can be taken in a related state of a second
system and a dropped step goes unnoticed there, the second system has the run that is
left when the dropped steps are removed. -/
theorem Run.project {State' : Type*} {init' : State'} {Step' : State' → Label → State' → Prop}
    {R : State → State' → Prop} {keep : Label → Bool} (hinit : R init init')
    (hkept : ∀ s t l s', R s t → keep l = true → C s l → Step s l s' →
      ∃ t', Step' t l t' ∧ R s' t')
    (hdropped : ∀ s t l s', R s t → keep l = false → Step s l s' → R s' t)
    (hrun : Run init Step history s) (hcond : EachStep C history) :
    ∃ history' t, Run init' Step' history' t ∧
      history'.map Prod.snd = (history.map Prod.snd).filter keep ∧ R s t := by
  induction hrun with
  | start => exact ⟨[], init', .start, rfl, hinit⟩
  | @step history s s' l _ hstep ih =>
    rw [eachStep_cons] at hcond
    obtain ⟨history', t, hrun', hlabels, hrel⟩ := ih hcond.2
    cases hkeep : keep l with
    | true =>
      obtain ⟨t', hstep', hrel'⟩ := hkept s t l s' hrel hkeep hcond.1 hstep
      exact ⟨(t, l) :: history', t', hrun'.step hstep', by simp [hlabels, hkeep], hrel'⟩
    | false =>
      exact ⟨history', t, hrun', by simp [hlabels, hkeep], hdropped s t l s' hrel hkeep hstep⟩

/-- Where part of a label determines the step, runs with the same parts are the same. -/
theorem Run.eq_of_labels {Part : Type*} (part : Label → Part)
    (hdet : ∀ s l₁ l₂ s₁ s₂, part l₁ = part l₂ → Step s l₁ s₁ → Step s l₂ s₂ → l₁ = l₂ ∧ s₁ = s₂)
    {history₁ history₂ : List (State × Label)} {s₁ s₂ : State} (hrun₁ : Run init Step history₁ s₁)
    (hrun₂ : Run init Step history₂ s₂)
    (hparts : (history₁.map fun x => part x.2) = history₂.map fun x => part x.2) :
    history₁ = history₂ ∧ s₁ = s₂ := by
  induction hrun₁ generalizing history₂ s₂ with
  | start =>
    cases hrun₂ with
    | start => exact ⟨rfl, rfl⟩
    | step => cases hparts
  | step _ hstep₁ ih =>
    cases hrun₂ with
    | start => cases hparts
    | step hrun₂ hstep₂ =>
      simp only [List.map_cons, List.cons.injEq] at hparts
      obtain ⟨rfl, rfl⟩ := ih hrun₂ hparts.2
      obtain ⟨rfl, rfl⟩ := hdet _ _ _ _ _ hparts.1 hstep₁ hstep₂
      exact ⟨rfl, rfl⟩

/-- The progress rule: where every step that meets a condition lowers a rank, a run made of
such steps is no longer than the rank that it uses up. -/
theorem Run.length_le_of_rank {rank : State → ℕ}
    (hlower : ∀ s l s', C s l → Step s l s' → rank s' < rank s)
    (hrun : Run init Step history s) (hcond : EachStep C history) :
    history.length + rank s ≤ rank init := by
  induction hrun with
  | start => simp
  | step _ hstep ih =>
    rw [eachStep_cons] at hcond
    have hbefore := ih hcond.2
    have hstep := hlower _ _ _ hcond.1 hstep
    simp only [List.length_cons]
    omega

/-- The steps that meet a condition. -/
def Under (C : State → Label → Prop) (Step : State → Label → State → Prop) :
    State → Label → State → Prop := fun s l s' => C s l ∧ Step s l s'

/-- A run of steps that meet a condition is a run whose steps meet it. -/
theorem Run.of_under (hrun : Run init (Under C Step) history s) :
    Run init Step history s ∧ EachStep C history := by
  induction hrun with
  | start => exact ⟨.start, eachStep_nil⟩
  | step _ hstep ih => exact ⟨ih.1.step hstep.2, eachStep_cons.mpr ⟨hstep.1, ih.2⟩⟩

/-- Some steps lead from one state to the other. -/
def Leads (Step : State → Label → State → Prop) : State → State → Prop :=
  Relation.ReflTransGen fun s s' => ∃ l, Step s l s'

/-- One step leads on, whatever its label is, -/
theorem Leads.single (hstep : Step s l s') : Leads Step s s' :=
  Relation.ReflTransGen.single (Exists.intro l hstep)

/-- and what it leads to leads further. -/
theorem Leads.trans {s'' : State} (hfirst : Leads Step s s'') (hrest : Leads Step s'' s') :
    Leads Step s s' := Relation.ReflTransGen.trans hfirst hrest

/-- What a reachable state leads to is reachable. -/
theorem Leads.reachable (hleads : Leads Step s s') (hreach : Reachable init Step s) :
    Reachable init Step s' := by
  induction hleads with
  | refl => exact hreach
  | tail _ hstep ih => exact ih.step hstep.choose_spec

/-- A run that goes on from a reachable state ends in a reachable state. -/
theorem Reachable.run {s₀ : State} (hreach : Reachable init Step s₀)
    (hrun : Run s₀ Step history s) : Reachable init Step s := by
  induction hrun with
  | start => exact hreach
  | step _ hstep ih => exact ih.step hstep

end UnixProgramming
