import Mathlib.Tactic.Common

/-!
# Mutexes

A mutex has an owner or is free, and every thread stands inside or outside of its critical
sections. Where a step of a thread takes the mutex only when it is free and gives it back only
from the inside, the owner is always the one thread inside.
-/

namespace UnixProgramming

variable {T : Type*}

/-- What a step of thread `t` may do to a mutex, with whether `t` is inside before and after:
nothing, take it, or give it back. -/
inductive MutexUse (t : T) : Option T → Bool → Option T → Bool → Prop
  | keep {owner : Option T} {inside : Bool} : MutexUse t owner inside owner inside
  | take : MutexUse t none false (some t) true
  | give {owner : Option T} : MutexUse t owner true none false

/-- The owner of a mutex is the only thread that is inside. -/
def Excludes (owner : Option T) (inside : T → Bool) : Prop :=
  ∀ t, owner = some t ↔ inside t = true

variable {owner owner' : Option T} {inside inside' : T → Bool} {t t' : T}

/-- Initially the mutex is free, and all threads are outside. -/
theorem excludes_init (houtside : ∀ t, inside t = false) : Excludes none inside := by
  intro t
  simp [houtside t]

/-- No two threads are inside. -/
theorem Excludes.unique (hexcl : Excludes owner inside) (ht : inside t = true)
    (ht' : inside t' = true) : t = t' := by
  have howner := (hexcl t).mpr ht
  rw [(hexcl t').mpr ht'] at howner
  exact (Option.some.inj howner).symm

/-- While one thread is inside, the others are outside. -/
theorem Excludes.outside (hexcl : Excludes owner inside) (ht : inside t = true) (hne : t' ≠ t) :
    inside t' = false := by
  by_contra hinside
  exact hne (hexcl.unique (by simpa using hinside) ht)

/-- While the mutex is free, all threads are outside. -/
theorem Excludes.outside_of_free (hexcl : Excludes none inside) (t : T) : inside t = false := by
  by_contra hinside
  exact absurd ((hexcl t).mpr (by simpa using hinside)) (by simp)

/-- A step of one thread that uses the mutex as it should keeps the threads apart. -/
theorem Excludes.step (hexcl : Excludes owner inside)
    (huse : MutexUse t owner (inside t) owner' (inside' t))
    (hothers : ∀ t' ≠ t, inside' t' = inside t') : Excludes owner' inside' := by
  intro u
  generalize hbefore : inside t = before, hafter : inside' t = after at huse
  cases huse with
  | keep =>
    by_cases hu : u = t
    · rw [hexcl u, hu, hbefore, hafter]
    · rw [hexcl u, hothers u hu]
  | take =>
    by_cases hu : u = t
    · simp [hu, hafter]
    · simp [hothers u hu, hexcl.outside_of_free u, Ne.symm hu]
  | give =>
    by_cases hu : u = t
    · simp [hu, hafter]
    · simp [hothers u hu, hexcl.outside hbefore hu]

end UnixProgramming
