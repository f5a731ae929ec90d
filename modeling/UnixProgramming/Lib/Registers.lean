import Mathlib.Data.List.Nodup
import Mathlib.Tactic.Common

/-!
# Registers

A register hands out numbers in ascending order and never twice. Each of its rows has a number
and a value, and no value has two rows.
-/

namespace UnixProgramming

/-- The next number, and the rows in the order in which they were entered. -/
@[ext] structure Register (α : Type*) where
  next : ℕ
  rows : List (ℕ × α)
  ascending : rows.Pairwise fun row row' => row.1 < row'.1
  below : ∀ row ∈ rows, row.1 < next
  distinct : (rows.map Prod.snd).Nodup

namespace Register

variable {α : Type*}

/-- A register without rows. -/
def empty : Register α := ⟨0, [], .nil, by simp, .nil⟩

/-- A row with the next number, unless the value has one. -/
def enter [DecidableEq α] (r : Register α) (a : α) : Register α :=
  if hmem : a ∈ r.rows.map Prod.snd then r
  else
    { next := r.next + 1
      rows := r.rows ++ [(r.next, a)]
      ascending := List.pairwise_append.mpr ⟨r.ascending, List.pairwise_singleton _ _,
        fun row hrow row' hrow' => by
          obtain rfl := List.mem_singleton.mp hrow'
          exact r.below row hrow⟩
      below := fun row hrow => by
        rcases List.mem_append.mp hrow with hrow | hrow
        · exact Nat.lt_succ_of_lt (r.below row hrow)
        · obtain rfl := List.mem_singleton.mp hrow
          exact Nat.lt_succ_self _
      distinct := by
        rw [List.map_append, List.nodup_append']
        refine ⟨r.distinct, List.nodup_singleton a, fun b hb hb' => hmem ?_⟩
        obtain rfl : b = a := List.mem_singleton.mp hb'
        exact hb }

/-- The rows without the one that has a number. -/
def remove (r : Register α) (k : ℕ) : Register α where
  next := r.next
  rows := r.rows.filter (·.1 ≠ k)
  ascending := r.ascending.filter _
  below row hrow := r.below row (List.mem_of_mem_filter hrow)
  distinct := r.distinct.sublist (List.filter_sublist.map Prod.snd)

variable {r : Register α} {a : α} {k : ℕ}

theorem enter_of_mem [DecidableEq α] (hmem : a ∈ r.rows.map Prod.snd) : r.enter a = r :=
  dif_pos hmem

/-- A value without a row gets the next number. -/
theorem enter_of_notMem [DecidableEq α] (hnot : a ∉ r.rows.map Prod.snd) :
    (r.enter a).next = r.next + 1 ∧ (r.enter a).rows = r.rows ++ [(r.next, a)] := by
  rw [enter, dif_neg hnot]
  exact ⟨rfl, rfl⟩

/-- Without a row of the number nothing is removed. -/
theorem remove_of_absent (habsent : ∀ row ∈ r.rows, row.1 ≠ k) : r.remove k = r := by
  refine Register.ext rfl ?_
  exact List.filter_eq_self.mpr fun row hrow => decide_eq_true (habsent row hrow)

end Register

end UnixProgramming
