import Mathlib.Data.List.FinRange

/-!
# Loops that can fail and loops that search

Inversion rules for `Except` computations that return, the loop rules for
`foldlM` (what every pass keeps holds after the loop, and a loop body that
returns more often makes the loop return more often), and the meaning of a
search for the first index with a property. A traversal returns when every element
does, and otherwise fails with the error of one of them. `Simulates` compares two
computations step by step, and `FailsWith` says which errors one can end with.
-/

namespace UnixProgramming

universe u

variable {ε : Type*} {α β : Type u}

/-- A sequence returns exactly when both of its parts do. -/
theorem bind_eq_ok {x : Except ε α} {f : α → Except ε β} {b : β} :
    (x >>= f) = .ok b ↔ ∃ a, x = .ok a ∧ f a = .ok b := by
  cases x <;> simp [bind, Except.bind]

/-- A part that returned goes on with its result. -/
theorem ok_bind (a : α) (f : α → Except ε β) : (Except.ok a >>= f) = f a := rfl

/-- A part that failed ends the sequence. -/
theorem error_bind (e : ε) (f : α → Except ε β) : (Except.error e >>= f) = .error e := rfl

@[simp] theorem pure_eq_ok {a b : α} : (pure a : Except ε α) = .ok b ↔ a = b := by
  simp [pure, Except.pure]

/-- A computation that is seen to return has a result. -/
theorem exists_ok_of_isSome {x : Except ε α} (hsome : x.toOption.isSome = true) :
    ∃ a, x = .ok a := by
  cases x with
  | error e => simp [Except.toOption] at hsome
  | ok a => exact ⟨a, rfl⟩

/-- A `foldlM` over a nonempty list returns through the state after its first element. -/
theorem foldlM_cons_eq_ok {f : β → α → Except ε β} {x : α} {xs : List α} {b c : β} :
    (x :: xs).foldlM f b = .ok c ↔ ∃ b', f b x = .ok b' ∧ xs.foldlM f b' = .ok c := by
  rw [List.foldlM_cons, bind_eq_ok]

/-- A loop over one more index has one more pass at its end. -/
theorem foldlM_range_succ_eq_ok {f : β → ℕ → Except ε β} {n : ℕ} {b b' : β} :
    (List.range (n + 1)).foldlM f b = .ok b' ↔
      ∃ b₁, (List.range n).foldlM f b = .ok b₁ ∧ f b₁ n = .ok b' := by
  rw [List.range_succ, List.foldlM_append, bind_eq_ok]
  simp only [List.foldlM_cons, List.foldlM_nil, bind_pure]

/-- The loop rule: a relation to the initial state that every pass keeps holds
between the initial state and the state after the loop. -/
theorem foldlM_invariant {f : β → α → Except ε β} {P : β → Prop} {xs : List α} {b c : β}
    (hkeep : ∀ x ∈ xs, ∀ b b', P b → f b x = .ok b' → P b') (hinit : P b)
    (hloop : xs.foldlM f b = .ok c) : P c := by
  induction xs generalizing b with
  | nil => simp_all
  | cons x xs ih =>
    obtain ⟨b', hpass, hrest⟩ := foldlM_cons_eq_ok.mp hloop
    exact ih (fun y hy => hkeep y (List.mem_cons_of_mem x hy))
      (hkeep x List.mem_cons_self b b' hinit hpass) hrest

/-- A loop keeps its result when its body is replaced by one that agrees wherever
the first one returns. -/
theorem foldlM_mono {f g : β → α → Except ε β} {xs : List α} {b c : β}
    (hle : ∀ b x b', f b x = .ok b' → g b x = .ok b') (hloop : xs.foldlM f b = .ok c) :
    xs.foldlM g b = .ok c := by
  induction xs generalizing b with
  | nil => simpa using hloop
  | cons x xs ih =>
    obtain ⟨b', hpass, hrest⟩ := foldlM_cons_eq_ok.mp hloop
    exact foldlM_cons_eq_ok.mpr ⟨b', hle b x b' hpass, ih hrest⟩

/-- The simulation rule: when every pass of one loop is matched by a pass of the other,
the other loop returns too, in a related state. -/
theorem foldlM_simulates {γ : Type u} {f : β → α → Except ε β} {g : γ → α → Except ε γ}
    {R : β → γ → Prop} {xs : List α} {b b' : β} {c : γ}
    (hpass : ∀ b c x b', R b c → f b x = .ok b' → ∃ c', g c x = .ok c' ∧ R b' c')
    (hinit : R b c) (hloop : xs.foldlM f b = .ok b') : ∃ c', xs.foldlM g c = .ok c' ∧ R b' c' := by
  induction xs generalizing b c with
  | nil =>
    obtain rfl : b = b' := pure_eq_ok.mp hloop
    exact ⟨c, rfl, hinit⟩
  | cons x xs ih =>
    obtain ⟨b₁, hb, hrest⟩ := foldlM_cons_eq_ok.mp hloop
    obtain ⟨c₁, hc, hrel⟩ := hpass b c x b₁ hinit hb
    obtain ⟨c', hloop', hrel'⟩ := ih hrel hrest
    exact ⟨c', foldlM_cons_eq_ok.mpr ⟨c₁, hc, hloop'⟩, hrel'⟩

/-- The simulation rule for a counting loop, with a relation that depends on the number of
passes made. -/
theorem foldlM_range_simulates {β γ : Type} {f : β → ℕ → Except ε β} {g : γ → ℕ → Except ε γ}
    {R : ℕ → β → γ → Prop} {n : ℕ} {b b' : β} {c : γ}
    (hpass : ∀ i < n, ∀ b c b', R i b c → f b i = .ok b' → ∃ c', g c i = .ok c' ∧ R (i + 1) b' c')
    (hinit : R 0 b c) (hloop : (List.range n).foldlM f b = .ok b') :
    ∃ c', (List.range n).foldlM g c = .ok c' ∧ R n b' c' := by
  induction n generalizing b' with
  | zero =>
    obtain rfl : b = b' := pure_eq_ok.mp hloop
    exact ⟨c, rfl, hinit⟩
  | succ n ih =>
    rw [List.range_succ, List.foldlM_append] at hloop
    obtain ⟨b₁, hb, hlast⟩ := bind_eq_ok.mp hloop
    obtain ⟨b₂, hfb, hdone⟩ := foldlM_cons_eq_ok.mp hlast
    obtain rfl : b₂ = b' := pure_eq_ok.mp hdone
    obtain ⟨c₁, hc, hrel⟩ := ih (fun i hi => hpass i (Nat.lt_succ_of_lt hi)) hb
    obtain ⟨c₂, hgc, hrel'⟩ := hpass n (Nat.lt_succ_self n) b₁ c₁ b₂ hrel hfb
    refine ⟨c₂, ?_, hrel'⟩
    rw [List.range_succ, List.foldlM_append, hc]
    exact foldlM_cons_eq_ok.mpr ⟨c₂, hgc, rfl⟩

/-- Wherever the first computation returns, so does the second, with a related result. -/
def Simulates {γ : Type u} (R : α → γ → Prop) (x : Except ε α) (y : Except ε γ) : Prop :=
  ∀ a, x = .ok a → ∃ c, y = .ok c ∧ R a c

theorem Simulates.pure {γ : Type u} {R : α → γ → Prop} {a : α} {c : γ} (hrel : R a c) :
    Simulates R (pure a : Except ε α) (pure c) :=
  fun _ hok => ⟨c, rfl, pure_eq_ok.mp hok ▸ hrel⟩

/-- Sequences are compared part by part. -/
theorem Simulates.bind {γ δ : Type u} {R : α → γ → Prop} {S : β → δ → Prop} {x : Except ε α}
    {y : Except ε γ} {f : α → Except ε β} {g : γ → Except ε δ} (hfirst : Simulates R x y)
    (hrest : ∀ a c, R a c → Simulates S (f a) (g c)) : Simulates S (x >>= f) (y >>= g) := by
  intro b hok
  obtain ⟨a, hx, hf⟩ := bind_eq_ok.mp hok
  obtain ⟨c, hy, hrel⟩ := hfirst a hx
  obtain ⟨d, hg, hrel'⟩ := hrest a c hrel b hf
  exact ⟨d, bind_eq_ok.mpr ⟨c, hy, hg⟩, hrel'⟩

/-- Every error of the computation has the property. -/
def FailsWith (P : ε → Prop) (x : Except ε α) : Prop := ∀ e, x = .error e → P e

theorem FailsWith.ok {P : ε → Prop} {a : α} : FailsWith P (.ok a) := fun _ herror => by cases herror

theorem FailsWith.error {P : ε → Prop} {e : ε} (he : P e) :
    FailsWith P (.error e : Except ε α) := by
  intro _ herror
  cases herror
  exact he

/-- A sequence fails in one of its parts. -/
theorem FailsWith.bind {P : ε → Prop} {x : Except ε α} {f : α → Except ε β} (hfirst : FailsWith P x)
    (hrest : ∀ a, x = .ok a → FailsWith P (f a)) : FailsWith P (x >>= f) := by
  cases x with
  | error e => exact .error (hfirst e rfl)
  | ok a => exact hrest a rfl

/-- A loop fails in one of its passes. -/
theorem FailsWith.foldlM {P : ε → Prop} {f : β → α → Except ε β} {xs : List α} {b : β}
    (hpass : ∀ b x, FailsWith P (f b x)) : FailsWith P (xs.foldlM f b) := by
  induction xs generalizing b with
  | nil => exact .ok
  | cons x xs ih =>
    rw [List.foldlM_cons]
    exact .bind (hpass b x) fun b' _ => ih

/-- Traversals with the same outcome for every element have the same outcome. -/
theorem mapM_congr {f g : α → Except ε β} {xs : List α} (heq : ∀ x ∈ xs, f x = g x) :
    xs.mapM f = xs.mapM g := by
  induction xs with
  | nil => rfl
  | cons x xs ih =>
    rw [List.mapM_cons, List.mapM_cons, heq x List.mem_cons_self,
      ih fun y hy => heq y (List.mem_cons_of_mem x hy)]

/-- A traversal whose elements all succeed collects their results. -/
theorem mapM_eq_ok {f : α → Except ε β} {g : α → β} {xs : List α}
    (hok : ∀ x ∈ xs, f x = .ok (g x)) : xs.mapM f = .ok (xs.map g) := by
  induction xs with
  | nil => rfl
  | cons x xs ih =>
    rw [List.mapM_cons, hok x List.mem_cons_self, ih fun y hy => hok y (List.mem_cons_of_mem x hy)]
    rfl

/-- The entry of a table in the list of its rows, one behind the other. -/
theorem getElem?_flatten_rows {γ : Type*} {f : ℕ → ℕ → γ} {rows cols i j : ℕ} (hi : i < rows)
    (hj : j < cols) :
    ((List.range rows).map fun i => (List.range cols).map (f i)).flatten[i * cols + j]? =
      some (f i j) := by
  induction rows generalizing f i with
  | zero => exact absurd hi (Nat.not_lt_zero i)
  | succ rows ih =>
    rw [List.range_succ_eq_map, List.map_cons, List.flatten_cons, List.map_map]
    have hrow : ((List.range cols).map (f 0)).length = cols := by simp
    cases i with
    | zero => rw [List.getElem?_append_left (by omega)]; simp [hj]
    | succ i =>
      have hindex : (i + 1) * cols + j = cols + (i * cols + j) := by
        rw [Nat.add_mul]
        omega
      rw [List.getElem?_append_right (by omega), hrow, hindex, Nat.add_sub_cancel_left]
      exact ih (Nat.lt_of_succ_lt_succ hi)

/-- A traversal returns exactly when every element does. -/
theorem exists_mapM_eq_ok {f : α → Except ε β} {xs : List α} :
    (∃ ys, xs.mapM f = .ok ys) ↔ ∀ x ∈ xs, ∃ y, f x = .ok y := by
  induction xs with
  | nil => simp
  | cons x xs ih =>
    simp only [List.mapM_cons, bind_eq_ok, pure_eq_ok, List.forall_mem_cons, ← ih]
    constructor
    · rintro ⟨_, y, hy, ys, hys, rfl⟩
      exact ⟨⟨y, hy⟩, ys, hys⟩
    · rintro ⟨⟨y, hy⟩, ys, hys⟩
      exact ⟨_, y, hy, ys, hys, rfl⟩

/-- A traversal collects as many results as there are elements. -/
theorem length_of_mapM_eq_ok {f : α → Except ε β} {xs : List α} {ys : List β}
    (hok : xs.mapM f = .ok ys) : ys.length = xs.length := by
  induction xs generalizing ys with
  | nil =>
    obtain rfl : [] = ys := Except.ok.inj hok
    rfl
  | cons x xs ih =>
    simp only [List.mapM_cons, bind_eq_ok, pure_eq_ok] at hok
    obtain ⟨y, -, ys, hys, rfl⟩ := hok
    simp [ih hys]

/-- What holds of every result holds of all that are collected. -/
theorem forall_of_mapM_eq_ok {f : α → Except ε β} {P : β → Prop} {xs : List α}
    {ys : List β} (hok : xs.mapM f = .ok ys) (hP : ∀ x ∈ xs, ∀ y, f x = .ok y → P y) :
    ∀ y ∈ ys, P y := by
  induction xs generalizing ys with
  | nil =>
    obtain rfl : [] = ys := Except.ok.inj hok
    simp
  | cons x xs ih =>
    simp only [List.mapM_cons, bind_eq_ok, pure_eq_ok] at hok
    obtain ⟨y, hy, ys, hys, rfl⟩ := hok
    exact List.forall_mem_cons.mpr ⟨hP x List.mem_cons_self y hy,
      ih hys fun x hx => hP x (List.mem_cons_of_mem _ hx)⟩

/-- Traversals with the same results have the same outcome for every element. -/
theorem eq_of_mapM_eq_ok {f g : α → Except ε β} {xs : List α} {ys : List β}
    (hf : xs.mapM f = .ok ys) (hg : xs.mapM g = .ok ys) : ∀ x ∈ xs, f x = g x := by
  induction xs generalizing ys with
  | nil => simp
  | cons x xs ih =>
    simp only [List.mapM_cons, bind_eq_ok, pure_eq_ok] at hf hg
    obtain ⟨y, hy, ys', hys, rfl⟩ := hf
    obtain ⟨y', hy', ys'', hys', heq⟩ := hg
    obtain ⟨rfl, rfl⟩ := List.cons.inj heq
    exact List.forall_mem_cons.mpr ⟨hy.trans hy'.symm, ih hys hys'⟩

/-- A traversal that fails does so with the error of one of its elements. -/
theorem exists_of_mapM_eq_error {f : α → Except ε β} {xs : List α} {e : ε}
    (herror : xs.mapM f = .error e) : ∃ x ∈ xs, f x = .error e := by
  induction xs with
  | nil => simp [pure, Except.pure] at herror
  | cons x xs ih =>
    rw [List.mapM_cons] at herror
    cases hx : f x with
    | error e' => simp_all [bind, Except.bind]
    | ok y =>
      cases hxs : xs.mapM f with
      | error e' => simp_all [bind, Except.bind]
      | ok ys => simp [hx, hxs, bind, Except.bind, pure, Except.pure] at herror

/-- A search over the indices `0, …, n - 1` finds the first one with the property. -/
theorem find?_finRange_eq_some {n : ℕ} {p : Fin n → Bool} {i : Fin n} :
    (List.finRange n).find? p = some i ↔ p i = true ∧ ∀ j < i, p j = false := by
  rw [List.find?_eq_some_iff_getElem]
  constructor
  · rintro ⟨hi, k, hk, hget, hbefore⟩
    have hki : k = i.val := by simpa [Fin.ext_iff] using hget
    refine ⟨hi, fun j hj => ?_⟩
    have hjk : j.val < k := by omega
    simpa using hbefore j hjk
  · rintro ⟨hi, hbefore⟩
    refine ⟨hi, i, by simp, by simp, fun j hj => ?_⟩
    simpa using hbefore ⟨j, hj.trans i.isLt⟩ hj

end UnixProgramming
