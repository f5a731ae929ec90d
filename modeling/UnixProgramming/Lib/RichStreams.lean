import Mathlib.Algebra.Ring.Nat
import Mathlib.Data.Nat.Log
import Mathlib.Data.Nat.Pairing
import Mathlib.Data.Stream.Init
import Mathlib.Logic.Encodable.Basic
import Mathlib.Data.Countable.Basic
import Mathlib.Logic.Equiv.List

/-!
# Streams in which every finite pattern occurs

A loop that rejects random values until a suitable pattern comes along ends on these
streams. They exist over every countable type: the patterns are listed, each of them
infinitely often, and the `e`-th one is written at the position `2 ^ e`.
-/

namespace UnixProgramming

variable {α : Type*}

/-- Every finite pattern occurs in the stream. -/
def Rich (s : Stream' α) : Prop :=
  ∀ pattern : List α, ∃ n, ∀ i (hi : i < pattern.length), s.get (n + i) = pattern[i]

/-- The stream that contains the patterns of a sequence, with `a` between them. -/
def patternStream (a : α) (patterns : ℕ → List α) : Stream' α :=
  fun n => (patterns (Nat.unpair (Nat.log 2 n)).1).getD (n - 2 ^ Nat.log 2 n) a

/-- A pattern of the sequence is written behind every power of two whose exponent encodes
its number, if it is short enough. -/
theorem patternStream_get {a : α} {patterns : ℕ → List α} {k m i : ℕ}
    (hi : i < (patterns k).length) (hlen : (patterns k).length ≤ 2 ^ Nat.pair k m) :
    (patternStream a patterns).get (2 ^ Nat.pair k m + i) = (patterns k)[i] := by
  have hlog : Nat.log 2 (2 ^ Nat.pair k m + i) = Nat.pair k m := by
    apply Nat.log_eq_of_pow_le_of_lt_pow
    · omega
    · rw [Nat.pow_succ]
      omega
  change (patterns (Nat.unpair (Nat.log 2 _)).1).getD (_ - 2 ^ Nat.log 2 _) a = _
  rw [hlog, Nat.unpair_pair, Nat.add_sub_cancel_left]
  simp [List.getD, hi]

/-- There is a rich stream over every countable type, since the finite patterns over it can be
listed. -/
theorem exists_rich (α : Type*) [Countable α] [Nonempty α] : ∃ s : Stream' α, Rich s := by
  obtain ⟨patterns, hpatterns⟩ := exists_surjective_nat (List α)
  obtain ⟨a⟩ := ‹Nonempty α›
  refine ⟨patternStream a patterns, fun pattern => ?_⟩
  obtain ⟨k, rfl⟩ := hpatterns pattern
  refine ⟨2 ^ Nat.pair k (patterns k).length, fun i hi => patternStream_get hi ?_⟩
  have hpair : (patterns k).length ≤ Nat.pair k (patterns k).length := Nat.right_le_pair _ _
  exact hpair.trans Nat.lt_two_pow_self.le

end UnixProgramming
