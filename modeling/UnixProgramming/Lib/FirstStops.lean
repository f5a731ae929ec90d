import Mathlib.Logic.Relation
import Mathlib.Tactic.Common

/-!
# Running to the first stop

A deterministic system steps from state to state, each step with an event, until it ends.
Some events are reported, and some states are waited for; `FirstStop` is the first step after
which there is either. `Settles` speaks of a computation that runs the system on a budget:
with enough of it, the result does not change any more.
-/

namespace UnixProgramming

variable {σ ε τ : Type*} {step : σ → Option (ε × σ)} {report report' : ε → Option τ}
variable {arrived arrived' : σ → Prop} {c c' c'' : σ} {e : ε} {o o' : Option τ} {t : τ}

/-- The first later stop: at a reported event, or where a state is arrived at. -/
inductive FirstStop (step : σ → Option (ε × σ)) (report : ε → Option τ) (arrived : σ → Prop) :
    σ → Option τ → σ → Prop
  | reported {c c' : σ} {e : ε} {t : τ} : step c = some (e, c') → report e = some t →
      FirstStop step report arrived c (some t) c'
  | arrives {c c' : σ} {e : ε} : step c = some (e, c') → report e = none → arrived c' →
      FirstStop step report arrived c none c'
  | later {c c₁ c' : σ} {e : ε} {o : Option τ} : step c = some (e, c₁) → report e = none →
      ¬arrived c₁ → FirstStop step report arrived c₁ o c' → FirstStop step report arrived c o c'

/-- The system ends, and there is no stop before that. -/
inductive EndsFirst (step : σ → Option (ε × σ)) (report : ε → Option τ) (arrived : σ → Prop) :
    σ → Prop
  | here {c : σ} : step c = none → EndsFirst step report arrived c
  | later {c c₁ : σ} {e : ε} : step c = some (e, c₁) → report e = none → ¬arrived c₁ →
      EndsFirst step report arrived c₁ → EndsFirst step report arrived c

/-- A stop is reached, -/
theorem FirstStop.reaches (hfirst : FirstStop step report arrived c o c') :
    Relation.ReflTransGen (fun c c' => ∃ e, step c = some (e, c')) c c' := by
  induction hfirst with
  | reported hstep _ => exact .single ⟨_, hstep⟩
  | arrives hstep _ _ => exact .single ⟨_, hstep⟩
  | later hstep _ _ _ ih => exact .head ⟨_, hstep⟩ ih

/-- and unless it is one of an event, its state is waited for. -/
theorem FirstStop.arrived_at (hfirst : FirstStop step report arrived c none c') : arrived c' := by
  generalize ho : (none : Option τ) = o at hfirst
  induction hfirst with
  | reported => cases ho
  | arrives _ _ harrived => exact harrived
  | later _ _ _ _ ih => exact ih ho

/-- The first stop is unique. -/
theorem FirstStop.unique (hfirst : FirstStop step report arrived c o c')
    (hfirst' : FirstStop step report arrived c o' c'') : o = o' ∧ c' = c'' := by
  induction hfirst with
  | reported hstep hreport =>
    cases hfirst' with
    | reported hstep' hreport' =>
      obtain ⟨rfl, rfl⟩ := Prod.mk.inj (Option.some.inj (hstep.symm.trans hstep'))
      exact ⟨hreport.symm.trans hreport', rfl⟩
    | arrives hstep' hreport' | later hstep' hreport' =>
      obtain ⟨rfl, rfl⟩ := Prod.mk.inj (Option.some.inj (hstep.symm.trans hstep'))
      simp [hreport] at hreport'
  | arrives hstep hreport harrived =>
    cases hfirst' with
    | reported hstep' hreport' =>
      obtain ⟨rfl, rfl⟩ := Prod.mk.inj (Option.some.inj (hstep.symm.trans hstep'))
      simp [hreport] at hreport'
    | arrives hstep' =>
      obtain ⟨rfl, rfl⟩ := Prod.mk.inj (Option.some.inj (hstep.symm.trans hstep'))
      exact ⟨rfl, rfl⟩
    | later hstep' _ hnot =>
      obtain ⟨rfl, rfl⟩ := Prod.mk.inj (Option.some.inj (hstep.symm.trans hstep'))
      exact absurd harrived hnot
  | later hstep hreport hnot _ ih =>
    cases hfirst' with
    | reported hstep' hreport' =>
      obtain ⟨rfl, rfl⟩ := Prod.mk.inj (Option.some.inj (hstep.symm.trans hstep'))
      simp [hreport] at hreport'
    | arrives hstep' _ harrived =>
      obtain ⟨rfl, rfl⟩ := Prod.mk.inj (Option.some.inj (hstep.symm.trans hstep'))
      exact absurd harrived hnot
    | later hstep' _ _ hrest =>
      obtain ⟨rfl, rfl⟩ := Prod.mk.inj (Option.some.inj (hstep.symm.trans hstep'))
      exact ih hrest

/-- The first stop depends on what is waited for in the states that are reached only. -/
theorem FirstStop.congr (hfirst : FirstStop step report arrived c o c')
    (hiff : ∀ c₁, Relation.ReflTransGen (fun c c' => ∃ e, step c = some (e, c')) c c₁ →
      (arrived c₁ ↔ arrived' c₁)) : FirstStop step report arrived' c o c' := by
  induction hfirst with
  | reported hstep hreport => exact .reported hstep hreport
  | arrives hstep hreport harrived =>
    exact .arrives hstep hreport ((hiff _ (.single ⟨_, hstep⟩)).mp harrived)
  | later hstep hreport hnot _ ih =>
    refine .later hstep hreport (mt (hiff _ (.single ⟨_, hstep⟩)).mpr hnot) (ih ?_)
    exact fun c₂ hreach => hiff c₂ (.head ⟨_, hstep⟩ hreach)

/-- So does the end before any stop. -/
theorem EndsFirst.congr (hends : EndsFirst step report arrived c)
    (hiff : ∀ c₁, Relation.ReflTransGen (fun c c' => ∃ e, step c = some (e, c')) c c₁ →
      (arrived c₁ ↔ arrived' c₁)) : EndsFirst step report arrived' c := by
  induction hends with
  | here hend => exact .here hend
  | later hstep hreport hnot _ ih =>
    refine .later hstep hreport (mt (hiff _ (.single ⟨_, hstep⟩)).mpr hnot) (ih ?_)
    exact fun c₂ hreach => hiff c₂ (.head ⟨_, hstep⟩ hreach)

/-- Waiting for fewer states leaves the first stop where it is, if its state is still waited
for. -/
theorem FirstStop.fewer (hfirst : FirstStop step report arrived c o c')
    (hfewer : ∀ c₁, arrived' c₁ → arrived c₁) (hstill : o = none → arrived' c') :
    FirstStop step report arrived' c o c' := by
  induction hfirst with
  | reported hstep hreport => exact .reported hstep hreport
  | arrives hstep hreport _ => exact .arrives hstep hreport (hstill rfl)
  | later hstep hreport hnot _ ih => exact .later hstep hreport (mt (hfewer _) hnot) (ih hstill)

/-- Waiting for more states, there is still a first stop. -/
theorem FirstStop.exists_more (hfirst : FirstStop step report arrived c o c')
    (hmore : ∀ c₁, arrived c₁ → arrived' c₁) :
    ∃ o' c'', FirstStop step report arrived' c o' c'' := by
  induction hfirst with
  | reported hstep hreport => exact ⟨_, _, .reported hstep hreport⟩
  | arrives hstep hreport harrived => exact ⟨_, _, .arrives hstep hreport (hmore _ harrived)⟩
  | @later c c₁ c' e o hstep hreport _ _ ih =>
    by_cases harrived : arrived' c₁
    · exact ⟨_, _, .arrives hstep hreport harrived⟩
    · obtain ⟨o', c'', hrest⟩ := ih
      exact ⟨o', c'', .later hstep hreport harrived hrest⟩

section Settles

universe u

variable {η : Type*} {α β : Type u} {f g : ℕ → Except η α} {r : Except η α} {a : α}

/-- With enough budget, the computation has this result. -/
def Settles (f : ℕ → Except η α) (r : Except η α) : Prop := ∃ n, ∀ m, n ≤ m → f m = r

theorem Settles.of_forall (hall : ∀ n, f n = r) : Settles f r := ⟨0, fun m _ => hall m⟩

/-- A computation that keeps its results when it is granted more settles on each of them. -/
theorem Settles.eq_of_ok (hmono : ∀ n m a, n ≤ m → f n = .ok a → f m = .ok a)
    (hsettles : Settles f r) {n : ℕ} (hok : f n = .ok a) : r = .ok a := by
  obtain ⟨k, hk⟩ := hsettles
  rw [← hk (max n k) (by omega)]
  exact hmono n (max n k) a (by omega) hok

/-- One unit of the budget is used up. -/
theorem Settles.of_succ (hsucc : ∀ n, f (n + 1) = g n) (hsettles : Settles g r) : Settles f r := by
  obtain ⟨n, hn⟩ := hsettles
  refine ⟨n + 1, fun m hm => ?_⟩
  obtain ⟨m, rfl⟩ : ∃ k, m = k + 1 := ⟨m - 1, by omega⟩
  rw [hsucc]
  exact hn m (by omega)

/-- A sequence settles when its parts do, -/
theorem Settles.bind {h : ℕ → α → Except η β} {r : Except η β} (hfirst : Settles f (.ok a))
    (hrest : Settles (fun n => h n a) r) : Settles (fun n => f n >>= h n) r := by
  obtain ⟨n, hn⟩ := hfirst
  obtain ⟨n', hn'⟩ := hrest
  refine ⟨max n n', fun m hm => ?_⟩
  have hleft := hn m (by omega)
  have hright := hn' m (by omega)
  simp only [hleft]
  exact hright

/-- and fails when its first part does. -/
theorem Settles.bind_error {h : ℕ → α → Except η β} {e : η} (hfirst : Settles f (.error e)) :
    Settles (fun n => f n >>= h n) (.error e) := by
  obtain ⟨n, hn⟩ := hfirst
  refine ⟨n, fun m hm => ?_⟩
  simp only [hn m hm]
  rfl

end Settles

end UnixProgramming
