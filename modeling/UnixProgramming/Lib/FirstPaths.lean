import Mathlib.Order.Defs.LinearOrder
import Mathlib.Data.Set.Insert
import Mathlib.Logic.Relation

/-!
# Depth-first search and first paths

A graph is given by a partial function from a vertex and a label to the next vertex. A
depth-first search that tries the labels in their order reaches every vertex along the
simple path to it that comes first in the lexicographic order. The rules below follow
the loop of such a search over the labels of one vertex: `Tried` is its invariant and
`Exhausted` what a search without success leaves; `Searched.cons_iff` says which paths
the search goes along.
-/

namespace UnixProgramming

variable {V L : Type*} {next : V → L → Option V} {A B M M' : Set V} {T : Set L}
variable {u v n t : V} {d : L} {ds : List L}

/-- The labels lead from one vertex to another through distinct vertices outside of a set. -/
inductive SimplePath (next : V → L → Option V) : Set V → V → List L → V → Prop
  | nil {A : Set V} {v : V} : v ∉ A → SimplePath next A v [] v
  | cons {A : Set V} {v n u : V} {d : L} {ds : List L} : v ∉ A → next v d = some n →
      SimplePath next (insert v A) n ds u → SimplePath next A v (d :: ds) u

/-- What lies in `M` and not in `A` has all of its next vertices in `M`. -/
def ClosedOff (next : V → L → Option V) (A M : Set V) : Prop :=
  ∀ u ∈ M, u ∉ A → ∀ d w, next u d = some w → w ∈ M

/-- What a search from `v` that avoids `A` leaves when it does not succeed: the marked
vertices `M` are those of `A` and all that can be reached. -/
structure Exhausted (next : V → L → Option V) (A : Set V) (v : V) (M : Set V) : Prop where
  subset : A ⊆ M
  mem : v ∈ M
  sound : ∀ u ∈ M, u ∉ A → ∃ ds, SimplePath next A v ds u
  closed : ClosedOff next A M

/-- The invariant of the loop over the labels at `v`: those in `T` have been tried, and what
can be reached through them has been marked. -/
structure Tried (next : V → L → Option V) (A : Set V) (v : V) (T : Set L) (M : Set V) :
    Prop where
  subset : insert v A ⊆ M
  sound : ∀ u ∈ M, u ∉ insert v A → ∃ d ∈ T, ∃ ds, SimplePath next A v (d :: ds) u
  closed : ClosedOff next (insert v A) M
  covered : ∀ d ∈ T, ∀ n, next v d = some n → n ∈ M

/-! ## Simple paths -/

theorem SimplePath.head_notMem (hpath : SimplePath next A v ds u) : v ∉ A := by
  cases hpath with
  | nil hv | cons hv => exact hv

theorem SimplePath.last_notMem (hpath : SimplePath next A v ds u) : u ∉ A := by
  induction hpath with
  | nil hv => exact hv
  | cons _ _ _ ih => exact fun hu => ih (Set.mem_insert_of_mem _ hu)

/-- A path that avoids a set avoids its subsets. -/
theorem SimplePath.anti (hpath : SimplePath next B v ds u) (hsub : A ⊆ B) :
    SimplePath next A v ds u := by
  induction hpath generalizing A with
  | nil hv => exact .nil fun h => hv (hsub h)
  | cons hv hnext _ ih =>
    exact .cons (fun h => hv (hsub h)) hnext (ih (Set.insert_subset_insert hsub))

/-- A path that starts in a closed set stays in it, -/
theorem SimplePath.mem_of_closedOff (hpath : SimplePath next A v ds u)
    (hclosed : ClosedOff next A M) (hv : v ∈ M) : u ∈ M := by
  induction hpath with
  | nil => exact hv
  | @cons A v n u d ds hv' hnext _ ih =>
    refine ih (fun x hx hx' => hclosed x hx fun h => hx' (Set.mem_insert_of_mem v h)) ?_
    exact hclosed v hv hv' d n hnext

/-- so that one that ends outside of it avoids it. -/
theorem SimplePath.avoid (hpath : SimplePath next A v ds u) (hclosed : ClosedOff next A M)
    (hu : u ∉ M) : SimplePath next M v ds u := by
  induction hpath generalizing M with
  | nil => exact .nil hu
  | @cons A v n u d ds hv hnext hrest ih =>
    have hv' : v ∉ M := fun h => hu ((SimplePath.cons hv hnext hrest).mem_of_closedOff hclosed h)
    refine .cons hv' hnext (ih ?_ fun h => ?_)
    · rintro x (rfl | hx) hx' e w hw
      · exact absurd (Set.mem_insert x A) hx'
      · exact .inr (hclosed x hx (fun h => hx' (Set.mem_insert_of_mem v h)) e w hw)
    · obtain rfl | h := h
      · exact hrest.last_notMem (Set.mem_insert u A)
      · exact hu h

/-! ## The loop over the labels -/

/-- Before the loop, `v` is marked. -/
theorem Tried.start : Tried next A v ∅ (insert v A) where
  subset := subset_rfl
  sound _ hu hu' := absurd hu hu'
  closed _ hu hu' := absurd hu hu'
  covered _ hd := absurd hd (Set.notMem_empty _)

/-- A label that leads nowhere, or to a marked vertex, is skipped. -/
theorem Tried.skip (htried : Tried next A v T M) (hmem : ∀ n, next v d = some n → n ∈ M) :
    Tried next A v (insert d T) M where
  subset := htried.subset
  sound u hu hu' := by
    obtain ⟨p, hp, hpath⟩ := htried.sound u hu hu'
    exact ⟨p, Set.mem_insert_of_mem d hp, hpath⟩
  closed := htried.closed
  covered := by
    rintro p (rfl | hp)
    · exact hmem
    · exact htried.covered p hp

/-- A label that leads to another vertex is followed, and what the search from there leaves
is marked. -/
theorem Tried.follow (htried : Tried next A v T M) (hv : v ∉ A) (hnext : next v d = some n)
    (hdone : Exhausted next M n M') : Tried next A v (insert d T) M' where
  subset := htried.subset.trans hdone.subset
  sound u hu hu' := by
    by_cases hM : u ∈ M
    · obtain ⟨p, hp, hpath⟩ := htried.sound u hM hu'
      exact ⟨p, Set.mem_insert_of_mem d hp, hpath⟩
    · obtain ⟨ds, hpath⟩ := hdone.sound u hu hM
      exact ⟨d, Set.mem_insert d T, ds, .cons hv hnext (hpath.anti htried.subset)⟩
  closed u hu hu' e w hw := by
    by_cases hM : u ∈ M
    · exact hdone.subset (htried.closed u hM hu' e w hw)
    · exact hdone.closed u hu hM e w hw
  covered := by
    rintro p (rfl | hp) m hm
    · obtain rfl : n = m := Option.some.inj (hnext.symm.trans hm)
      exact hdone.mem
    · exact hdone.subset (htried.covered p hp m hm)

/-- After the loop, the search from `v` has been exhausted. -/
theorem Tried.exhausted (htried : Tried next A v T M) (hv : v ∉ A) (hall : ∀ d, d ∈ T) :
    Exhausted next A v M where
  subset := (Set.subset_insert v A).trans htried.subset
  mem := htried.subset (Set.mem_insert v A)
  sound u hu hu' := by
    by_cases huv : u = v
    · subst huv
      exact ⟨[], .nil hu'⟩
    · obtain ⟨d, _, ds, hpath⟩ := htried.sound u hu (by simp [huv, hu'])
      exact ⟨d :: ds, hpath⟩
  closed u hu hu' d w hw := by
    by_cases huv : u = v
    · exact htried.covered d (hall d) w (huv ▸ hw)
    · exact htried.closed u hu (by simp [huv, hu']) d w hw

/-- An exhausted search that had nothing to avoid has marked every vertex that can be reached. -/
theorem Exhausted.mem_of_reaches (hdone : Exhausted next ∅ v M)
    (hreach : Relation.ReflTransGen (fun a b => ∃ d, next a d = some b) v u) : u ∈ M := by
  induction hreach with
  | refl => exact hdone.mem
  | tail _ hstep ih =>
    obtain ⟨d, hnext⟩ := hstep
    exact hdone.closed _ ih (Set.notMem_empty _) d _ hnext

/-! ## First paths -/

section FirstPaths

variable [LinearOrder L]

/-- The paths of a depth-first search for `t` that tries the labels in their order: no path to
its last vertex comes before it, and none to `t`. -/
def Searched (next : V → L → Option V) (t : V) (A : Set V) (v : V) (ds : List L) : Prop :=
  (∃ u, SimplePath next A v ds u ∧
      ∀ ds', SimplePath next A v ds' u → ¬List.Lex (· < ·) ds' ds) ∧
    ∀ es, SimplePath next A v es t → ¬List.Lex (· < ·) es ds

/-- The search begins with the empty path. -/
theorem Searched.nil (hv : v ∉ A) : Searched next t A v ([] : List L) :=
  ⟨⟨v, .nil hv, fun _ _ => List.not_lex_nil⟩, fun _ _ => List.not_lex_nil⟩

/-- The search does not go on from `t`. -/
theorem not_searched_cons_self (ht : t ∉ A) : ¬Searched next t A t (d :: ds) :=
  fun hsearched => hsearched.2 [] (.nil ht) .nil

theorem not_lex_cons_self {ds' : List L} :
    ¬List.Lex (· < ·) (d :: ds') (d :: ds) ↔ ¬List.Lex (· < ·) ds' ds := by
  rw [List.cons_lex_cons_iff]
  simp

/-- While the labels below `d` have been tried, a path from `v` to an unmarked vertex begins
with a later label, or with `d`, after which it avoids what is marked. -/
theorem Tried.cons_cases (htried : Tried next A v T M) (hbelow : ∀ p < d, p ∈ T)
    (hnext : next v d = some n) (hu : u ∉ M) (hpath : SimplePath next A v ds u) :
    ∃ p ds', ds = p :: ds' ∧ (d < p ∨ p = d ∧ SimplePath next M n ds' u) := by
  cases hpath with
  | nil => exact absurd (htried.subset (Set.mem_insert u A)) hu
  | @cons _ _ m _ p ds' hv hm hrest =>
    refine ⟨p, ds', rfl, ?_⟩
    obtain hlt | rfl | hlt := lt_trichotomy p d
    · have hmem := htried.covered p (hbelow p hlt) m hm
      exact absurd (hrest.mem_of_closedOff htried.closed hmem) hu
    · obtain rfl : n = m := Option.some.inj (hnext.symm.trans hm)
      exact .inr ⟨rfl, hrest.avoid htried.closed hu⟩
    · exact .inl hlt

/-- A path along `d` precedes all others to the same unmarked vertex when its part after `d`
precedes all others. -/
theorem Tried.first_cons (htried : Tried next A v T M) (hbelow : ∀ p < d, p ∈ T)
    (hnext : next v d = some n) (hu : u ∉ M)
    (hfirst : ∀ ds', SimplePath next M n ds' u → ¬List.Lex (· < ·) ds' ds) (es : List L)
    (hpath : SimplePath next A v es u) : ¬List.Lex (· < ·) es (d :: ds) := by
  obtain ⟨p, ds', rfl, hcases⟩ := htried.cons_cases hbelow hnext hu hpath
  rw [List.cons_lex_cons_iff]
  rintro (hlt | ⟨rfl, hlex⟩)
  · obtain hlt' | ⟨rfl, -⟩ := hcases
    · exact lt_asymm hlt hlt'
    · exact lt_irrefl _ hlt
  · obtain hlt' | ⟨-, hrest⟩ := hcases
    · exact lt_irrefl _ hlt'
    · exact hfirst ds' hrest hlex

/-- After the labels below `d`, the search goes along `d` exactly when this leads to a vertex
that is not marked, and then as a search from there that avoids the marked ones. -/
theorem Searched.cons_iff (htried : Tried next A v T M) (hv : v ∉ A) (htarget : t ∉ M)
    (hbelow : ∀ p, p ∈ T ↔ p < d) :
    Searched next t A v (d :: ds) ↔ ∃ n, next v d = some n ∧ n ∉ M ∧ Searched next t M n ds := by
  have hbelow' : ∀ p < d, p ∈ T := fun p hp => (hbelow p).mpr hp
  constructor
  · rintro ⟨⟨u, hpath, hfirst⟩, hbefore⟩
    have hu : u ∉ M := by
      intro hmem
      cases hpath with
      | cons _ _ hrest =>
        obtain ⟨p, hp, ds', hpath'⟩ := htried.sound u hmem hrest.last_notMem
        exact hfirst _ hpath' (.rel ((hbelow p).mp hp))
    cases hpath with
    | @cons _ _ n _ _ _ _ hnext hrest =>
      have hrest' := hrest.avoid htried.closed hu
      have hextend : ∀ {ds' : List L} {w : V}, SimplePath next M n ds' w →
          SimplePath next A v (d :: ds') w :=
        fun hpath' => .cons hv hnext (hpath'.anti htried.subset)
      refine ⟨n, hnext, hrest'.head_notMem, ⟨u, hrest', fun ds' hpath' => ?_⟩, fun es hpath' => ?_⟩
      · exact not_lex_cons_self.mp (hfirst _ (hextend hpath'))
      · exact not_lex_cons_self.mp (hbefore _ (hextend hpath'))
  · rintro ⟨n, hnext, _, ⟨u, hpath, hfirst⟩, hbefore⟩
    exact ⟨⟨u, .cons hv hnext (hpath.anti htried.subset),
      htried.first_cons hbelow' hnext hpath.last_notMem hfirst⟩,
      htried.first_cons hbelow' hnext htarget hbefore⟩

/-- A path on which no smaller label leads to another vertex, and which does not go on
from `t`. -/
inductive Greedy (next : V → L → Option V) (t : V) : Set V → V → List L → Prop
  | nil {A : Set V} {v : V} : v ∉ A → Greedy next t A v []
  | cons {A : Set V} {v n : V} {d : L} {ds : List L} : v ∉ A → v ≠ t → next v d = some n →
      (∀ p < d, ∀ m, next v p = some m → m ∈ insert v A) →
      Greedy next t (insert v A) n ds → Greedy next t A v (d :: ds)

/-- A greedy path is simple, and no other one to its last vertex or to `t` precedes it. -/
theorem Greedy.exists_first (hgreedy : Greedy next t A v ds) :
    ∃ u, SimplePath next A v ds u ∧
      ∀ ds' w, SimplePath next A v ds' w → w = u ∨ w = t → ¬List.Lex (· < ·) ds' ds := by
  induction hgreedy with
  | @nil A v hv => exact ⟨v, .nil hv, fun _ _ _ _ => List.not_lex_nil⟩
  | @cons A v n d ds hv hne hnext hsmaller _ ih =>
    obtain ⟨u, hpath, hfirst⟩ := ih
    refine ⟨u, .cons hv hnext hpath, fun ds' w hpath' hw => ?_⟩
    cases hpath' with
    | nil =>
      obtain rfl | rfl := hw
      · exact absurd (Set.mem_insert _ A) hpath.last_notMem
      · exact absurd rfl hne
    | @cons _ _ m _ p ds' _ hm hrest =>
      rw [List.cons_lex_cons_iff]
      rintro (hlt | ⟨rfl, hlex⟩)
      · exact absurd (hsmaller p hlt m hm) hrest.head_notMem
      · obtain rfl : n = m := Option.some.inj (hnext.symm.trans hm)
        exact hfirst _ w hrest hw hlex

/-- The search goes along a greedy path. -/
theorem Greedy.searched (hgreedy : Greedy next t A v ds) : Searched next t A v ds := by
  obtain ⟨u, hpath, hfirst⟩ := hgreedy.exists_first
  exact ⟨⟨u, hpath, fun ds' hpath' => hfirst ds' u hpath' (.inl rfl)⟩,
    fun es hpath' => hfirst es t hpath' (.inr rfl)⟩

end FirstPaths

end UnixProgramming
