import Mathlib.Data.Finset.Basic
import Mathlib.Logic.Function.Basic

/-!
# Allocated blocks and the roots that own them

A ledger of a heap: the blocks in use, the address that the next allocation returns,
and the block that each root refers to. A root can adopt a new block and release the
one it has, and a block can be used for a while without a root. A sound ledger has no
dangling and no shared root; it is exact when no block in use is without a root, which
a lost block ends for good.
-/

namespace UnixProgramming

/-- The blocks in use, the next address, and the block of each root. -/
@[ext] structure Ledger (ι : Type*) where
  live : Finset ℕ
  next : ℕ
  root : ι → Option ℕ

namespace Ledger

variable {ι : Type*}

/-- A new block that no root refers to. -/
def lose (l : Ledger ι) : Ledger ι where
  live := insert l.next l.live
  next := l.next + 1
  root := l.root

/-- A new block that is freed again. -/
def borrow (l : Ledger ι) : Ledger ι where
  live := (insert l.next l.live).erase l.next
  next := l.next + 1
  root := l.root

/-- Nothing in use is at or after the next address, every root refers to a block in use,
and no two roots to the same one. -/
structure Sound (l : Ledger ι) : Prop where
  fresh : ∀ a ∈ l.live, a < l.next
  live : ∀ i a, l.root i = some a → a ∈ l.live
  unshared : ∀ i j a, l.root i = some a → l.root j = some a → i = j

/-- The blocks in use are those that the roots refer to, one for each root with a block. -/
structure Exact (l : Ledger ι) : Prop where
  live_iff : ∀ a, a ∈ l.live ↔ ∃ i, l.root i = some a
  unshared : ∀ i j a, l.root i = some a → l.root j = some a → i = j

variable {l l' : Ledger ι} {i : ι} {a : ℕ}

/-- The next address is not in use. -/
theorem Sound.next_notMem (hsound : l.Sound) : l.next ∉ l.live :=
  fun hmem => (hsound.fresh _ hmem).false

/-- Borrowing a block only moves the next address. -/
theorem Sound.borrow_live (hsound : l.Sound) : l.borrow.live = l.live :=
  Finset.erase_insert hsound.next_notMem

/-- A sound ledger is exact when every block in use has a root. -/
theorem Sound.exact_iff (hsound : l.Sound) : l.Exact ↔ ∀ a ∈ l.live, ∃ i, l.root i = some a := by
  constructor
  · exact fun hexact a ha => (hexact.live_iff a).mp ha
  · intro howned
    refine ⟨fun a => ⟨howned a, ?_⟩, hsound.unshared⟩
    rintro ⟨i, hi⟩
    exact hsound.live i a hi

/-- What is in use below the old next address is below the new one. -/
theorem Sound.fresh_insert (hsound : l.Sound) : ∀ a ∈ insert l.next l.live, a < l.next + 1 := by
  intro a ha
  obtain rfl | ha := Finset.mem_insert.mp ha
  · exact Nat.lt_succ_self _
  · exact (hsound.fresh a ha).trans (Nat.lt_succ_self _)

theorem Sound.lose (hsound : l.Sound) : l.lose.Sound where
  fresh := hsound.fresh_insert
  live i a hi := Finset.mem_insert_of_mem (hsound.live i a hi)
  unshared := hsound.unshared

theorem Sound.borrow (hsound : l.Sound) : l.borrow.Sound where
  fresh a ha := (hsound.fresh a (hsound.borrow_live ▸ ha)).trans (Nat.lt_succ_self _)
  live i a hi := hsound.borrow_live ▸ hsound.live i a hi
  unshared := hsound.unshared

/-- A lost block has no root. -/
theorem Sound.not_exact_lose (hsound : l.Sound) : ¬l.lose.Exact := by
  intro hexact
  obtain ⟨i, hi⟩ := (hexact.live_iff l.next).mp (Finset.mem_insert_self _ _)
  exact hsound.next_notMem (hsound.live i _ hi)

variable [DecidableEq ι]

/-- A new block for a root. -/
def adopt (l : Ledger ι) (i : ι) : Ledger ι where
  live := insert l.next l.live
  next := l.next + 1
  root := Function.update l.root i (some l.next)

/-- The block of a root is freed and the root cleared. -/
def release (l : Ledger ι) (i : ι) (a : ℕ) : Ledger ι where
  live := l.live.erase a
  next := l.next
  root := Function.update l.root i none

/-- The changes that lose no block. -/
inductive Transfer (l : Ledger ι) : Ledger ι → Prop
  | keep : Transfer l l
  | borrow : Transfer l l.borrow
  | adopt {i : ι} : l.root i = none → Transfer l (l.adopt i)
  | release {i : ι} {a : ℕ} : l.root i = some a → Transfer l (l.release i a)

/-- The root that adopts the new block is the only one that refers to it. -/
theorem Sound.adopt (hsound : l.Sound) (i : ι) : (l.adopt i).Sound where
  fresh := hsound.fresh_insert
  live j a hj := by
    by_cases hji : j = i
    · obtain rfl : l.next = a := by simpa [Ledger.adopt, hji] using hj
      exact Finset.mem_insert_self _ _
    · simp only [Ledger.adopt, ne_eq, hji, not_false_eq_true, Function.update_of_ne] at hj
      exact Finset.mem_insert_of_mem (hsound.live j a hj)
  unshared j k a hj hk := by
    have hold : ∀ m, l.root m ≠ some l.next :=
      fun m hm => hsound.next_notMem (hsound.live m _ hm)
    by_cases hji : j = i <;> by_cases hki : k = i
    · rw [hji, hki]
    · simp only [Ledger.adopt, hji, Function.update_self, Option.some.injEq, ne_eq, hki,
        not_false_eq_true, Function.update_of_ne] at hj hk
      exact absurd (hj ▸ hk) (hold k)
    · simp only [Ledger.adopt, hki, Function.update_self, Option.some.injEq, ne_eq, hji,
        not_false_eq_true, Function.update_of_ne] at hj hk
      exact absurd (hk ▸ hj) (hold j)
    · simp only [Ledger.adopt, ne_eq, hji, hki, not_false_eq_true, Function.update_of_ne] at hj hk
      exact hsound.unshared j k a hj hk

/-- The other roots do not refer to the block that is freed. -/
theorem Sound.release (hsound : l.Sound) (hroot : l.root i = some a) :
    (l.release i a).Sound where
  fresh b hb := hsound.fresh b (Finset.mem_of_mem_erase hb)
  live j b hj := by
    by_cases hji : j = i
    · simp [Ledger.release, hji] at hj
    · simp only [Ledger.release, ne_eq, hji, not_false_eq_true, Function.update_of_ne] at hj
      refine Finset.mem_erase.mpr ⟨?_, hsound.live j b hj⟩
      rintro rfl
      exact hji (hsound.unshared j i b hj hroot)
  unshared j k b hj hk := by
    by_cases hji : j = i
    · simp [Ledger.release, hji] at hj
    · by_cases hki : k = i
      · simp [Ledger.release, hki] at hk
      · simp only [Ledger.release, ne_eq, hji, hki, not_false_eq_true,
          Function.update_of_ne] at hj hk
        exact hsound.unshared j k b hj hk

/-- A transfer keeps a ledger sound. -/
theorem Sound.transfer (hsound : l.Sound) (htransfer : Transfer l l') : l'.Sound := by
  cases htransfer with
  | keep => exact hsound
  | borrow => exact hsound.borrow
  | adopt => exact hsound.adopt _
  | release hroot => exact hsound.release hroot

/-- A transfer neither loses a block nor recovers a lost one. -/
theorem Sound.transfer_exact_iff (hsound : l.Sound) (htransfer : Transfer l l') :
    l'.Exact ↔ l.Exact := by
  rw [(hsound.transfer htransfer).exact_iff, hsound.exact_iff]
  cases htransfer with
  | keep => exact Iff.rfl
  | borrow => rw [hsound.borrow_live]; exact Iff.rfl
  | @adopt i hnone =>
    have hother : ∀ a ∈ l.live, (∃ j, (l.adopt i).root j = some a) ↔ ∃ j, l.root j = some a := by
      refine fun a ha => exists_congr fun j => ?_
      by_cases hji : j = i
      · have hnext : l.next ≠ a := fun h => hsound.next_notMem (h ▸ ha)
        simp [Ledger.adopt, hji, hnone, hnext]
      · simp [Ledger.adopt, hji]
    have hnew : ∃ j, (l.adopt i).root j = some l.next := ⟨i, Function.update_self ..⟩
    simp only [Ledger.adopt, Finset.forall_mem_insert]
    exact ⟨fun h a ha => (hother a ha).mp (h.2 a ha),
      fun h => ⟨hnew, fun a ha => (hother a ha).mpr (h a ha)⟩⟩
  | @release i b hroot =>
    have hother : ∀ a, a ≠ b →
        ((∃ j, (l.release i b).root j = some a) ↔ ∃ j, l.root j = some a) := by
      refine fun a hab => exists_congr fun j => ?_
      by_cases hji : j = i
      · simp [Ledger.release, hji, hroot, hab.symm]
      · simp [Ledger.release, hji]
    constructor
    · intro h a ha
      by_cases hab : a = b
      · exact ⟨i, hab ▸ hroot⟩
      · exact (hother a hab).mp (h a (Finset.mem_erase.mpr ⟨hab, ha⟩))
    · intro h a ha
      obtain ⟨hab, ha⟩ := Finset.mem_erase.mp ha
      exact (hother a hab).mpr (h a ha)

end Ledger

end UnixProgramming
