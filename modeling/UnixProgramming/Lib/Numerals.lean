import Mathlib.Tactic.IntervalCases
import Mathlib.Tactic.Common

/-!
# Numerals

Numbers as digits in a base up to sixteen, the most significant digit first, and the value of
such digits. The digits of a number are the ones that `Nat.toDigits` writes.
-/

namespace UnixProgramming

/-- `isxdigit`. -/
def isXDigit (c : Char) : Bool :=
  c.isDigit || ('a' ≤ c && c ≤ 'f') || ('A' ≤ c && c ≤ 'F')

/-- The value of a digit. -/
def digitValue (c : Char) : ℕ :=
  if c.isDigit then c.toNat - '0'.toNat
  else if 'a' ≤ c ∧ c ≤ 'f' then c.toNat - 'a'.toNat + 10
  else c.toNat - 'A'.toNat + 10

/-- The value of digits. -/
def numeralValue (base : ℕ) (digits : List Char) : ℕ :=
  digits.foldl (fun n c => base * n + digitValue c) 0

variable {base n : ℕ} {digits rest : List Char} {c : Char}

/-- Up to fifteen, the digit for a value has that value, -/
theorem digitValue_digitChar (hn : n < 16) : digitValue n.digitChar = n := by
  interval_cases n <;> rfl

/-- and is a hexadecimal digit. -/
theorem isXDigit_digitChar (hn : n < 16) : isXDigit n.digitChar = true := by
  interval_cases n <;> rfl

/-- Decimal digits are hexadecimal digits as well. -/
theorem isXDigit_of_isDigit (hc : c.isDigit = true) : isXDigit c = true := by
  simp [isXDigit, hc]

theorem numeralValue_append_singleton (digits : List Char) (c : Char) :
    numeralValue base (digits ++ [c]) = base * numeralValue base digits + digitValue c := by
  simp [numeralValue, List.foldl_append]

/-- Induction on the digits of a number, of which the last one is added in each step. -/
theorem toDigits_induction {motive : ℕ → List Char → Prop} (hbase : 1 < base)
    (single : ∀ n < base, motive n [n.digitChar])
    (append : ∀ n digits, base ≤ n → motive (n / base) digits →
      motive n (digits ++ [(n % base).digitChar])) (n : ℕ) : motive n (Nat.toDigits base n) := by
  induction n using Nat.strong_induction_on with
  | _ n ih =>
    by_cases hn : n < base
    · rw [Nat.toDigits_of_lt_base hn]
      exact single n hn
    · rw [Nat.toDigits_of_base_le hbase (by omega)]
      exact append n _ (by omega) (ih _ (Nat.div_lt_self (by omega) hbase))

/-- A number is the value of its digits. -/
theorem numeralValue_toDigits (hbase : 1 < base) (hle : base ≤ 16) (n : ℕ) :
    numeralValue base (Nat.toDigits base n) = n := by
  induction n using toDigits_induction hbase with
  | single n hn => simp [numeralValue, digitValue_digitChar (show n < 16 by omega)]
  | append n digits hn ih =>
    have hmod := Nat.mod_lt n (show base > 0 by omega)
    rw [numeralValue_append_singleton, ih, digitValue_digitChar (by omega)]
    exact Nat.div_add_mod n base

/-- The digits of a number are hexadecimal digits, -/
theorem isXDigit_of_mem_toDigits (hbase : 1 < base) (hle : base ≤ 16) :
    ∀ c ∈ Nat.toDigits base n, isXDigit c = true := by
  have hall : ∀ k < base, isXDigit k.digitChar = true := fun k hk => isXDigit_digitChar (by omega)
  have hdigits := @toDigits_induction base (fun _ digits => ∀ c ∈ digits, isXDigit c = true) hbase
  refine hdigits (fun n hn => by simpa using hall n hn) (fun n digits hn ih c hc => ?_) n
  rcases List.mem_append.mp hc with hc | hc
  · exact ih c hc
  · exact List.mem_singleton.mp hc ▸ hall _ (Nat.mod_lt n (by omega))

/-- and there is at least one. -/
theorem toDigits_ne_nil (base n : ℕ) : Nat.toDigits base n ≠ [] := by
  have hpos := @Nat.length_toDigits_pos base n
  exact List.ne_nil_of_length_pos hpos

/-- Blanks and signs come before the digits. -/
theorem le_toNat_of_isXDigit (hc : isXDigit c = true) : '0'.toNat ≤ c.toNat := by
  simp only [isXDigit, Char.isDigit, Bool.or_eq_true, Bool.and_eq_true, decide_eq_true_eq] at hc
  rcases hc with (⟨hlow, -⟩ | ⟨hlow, -⟩) | ⟨hlow, -⟩
  · exact hlow
  · exact le_trans (by decide) hlow
  · exact le_trans (by decide) hlow

/-- Characters of a kind in front of others are read to their end. -/
theorem span_append {p : Char → Bool} (hdigits : ∀ c ∈ digits, p c = true)
    (hrest : ∀ c, rest.head? = some c → p c = false) :
    (digits ++ rest).takeWhile p = digits ∧ (digits ++ rest).dropWhile p = rest := by
  rw [List.takeWhile_append_of_pos hdigits, List.dropWhile_append_of_pos hdigits]
  cases rest with
  | nil => simp
  | cons c rest => simp [hrest c rfl]

/-- The binary digit of a bit. -/
def bitChar (b : Bool) : Char := if b then '1' else '0'

theorem digitValue_bitChar (b : Bool) : digitValue (bitChar b) = b.toNat := by
  cases b <;> rfl

/-- The lowest bits of a number are its binary digits. -/
theorem numeralValue_bits (x n : ℕ) :
    numeralValue 2 ((List.range n).map fun i => bitChar (x.testBit (n - 1 - i))) = x % 2 ^ n := by
  induction n generalizing x with
  | zero => simp [numeralValue, Nat.mod_one]
  | succ n ih =>
    have hshift : ∀ i ∈ List.range n,
        bitChar (x.testBit (n + 1 - 1 - i)) = bitChar ((x / 2).testBit (n - 1 - i)) := by
      intro i hi
      have hlt := List.mem_range.mp hi
      have hsucc : n + 1 - 1 - i = n - 1 - i + 1 := by omega
      rw [hsucc, Nat.testBit_succ]
    have hlast : (x.testBit 0).toNat = x % 2 := by
      rw [Nat.testBit_zero]
      cases Nat.mod_two_eq_zero_or_one x with
      | inl h => rw [h]; rfl
      | inr h => rw [h]; rfl
    rw [List.range_succ, List.map_append, List.map_singleton, numeralValue_append_singleton,
      List.map_congr_left hshift, ih, digitValue_bitChar, Nat.add_sub_cancel, Nat.sub_self, hlast,
      Nat.pow_succ', Nat.mod_mul, Nat.add_comm]

end UnixProgramming
