import UnixProgramming.Lib.Numerals
import UnixProgramming.Libsolver.Load

/-!
# Numbers as text

What `%d` prints is what `%d` reads, for every number that a `long` can hold.
-/

namespace UnixProgramming.Libsolver

variable {i : ℤ} {blanks digits rest : List Char}

/-- `printf` with `%d`. -/
def decimal (i : ℤ) : List Char :=
  if i < 0 then '-' :: Nat.toDigits 10 i.natAbs else Nat.toDigits 10 i.natAbs

/-- The value of decimal digits is that of a numeral. -/
theorem digitsValue_eq (hdigits : ∀ c ∈ digits, c.isDigit = true) :
    digitsValue digits = (numeralValue 10 digits : ℤ) := by
  induction digits using List.reverseRecOn with
  | nil => rfl
  | append_singleton digits c ih =>
    have hc : digitValue c = c.toNat - '0'.toNat := if_pos (hdigits c (by simp))
    have hvalue := ih fun d hd => hdigits d (List.mem_append_left _ hd)
    rw [numeralValue_append_singleton, hc]
    simp only [digitsValue, List.foldl_append, List.foldl_cons, List.foldl_nil] at hvalue ⊢
    rw [hvalue]
    push_cast
    rfl

/-- Digits are neither spaces nor signs. -/
theorem scanSign_digit {c : Char} (hc : isXDigit c = true) (text : List Char) :
    isSpace c = false ∧ scanSign (c :: text) = (false, c :: text) := by
  have hlow := le_toNat_of_isXDigit hc
  have hne : ∀ d : Char, d.toNat < '0'.toNat → c ≠ d := by
    rintro d hd rfl
    omega
  refine ⟨?_, ?_⟩
  · simp only [isSpace, hne ' ' (by decide), decide_false, Bool.false_or, Bool.and_eq_false_imp,
      decide_eq_true_eq, decide_eq_false_iff_not]
    have hzero : '0'.toNat = 48 := rfl
    omega
  · unfold scanSign
    split
    · next heq => exact absurd (List.cons.inj heq).1 (hne '-' (by decide))
    · next heq => exact absurd (List.cons.inj heq).1 (hne '+' (by decide))
    · rfl

/-- Spaces end a number. -/
theorem isSpace_ends {ch : Char} (hch : isSpace ch = true) :
    isXDigit ch = false ∧ ch ≠ 'x' ∧ ch ≠ 'X' ∧ ch.isDigit = false := by
  have hhigh : ch.toNat < '0'.toNat := by
    have hzero : '0'.toNat = 48 := rfl
    have hblank : ' '.toNat = 32 := rfl
    simp only [isSpace, Bool.or_eq_true, decide_eq_true_eq, Bool.and_eq_true] at hch
    rcases hch with rfl | hch <;> omega
  have hdigit : isXDigit ch = false := by
    by_contra hdigit
    have hlow := le_toNat_of_isXDigit (by simpa using hdigit)
    omega
  have hne : ∀ c : Char, '0'.toNat ≤ c.toNat → ch ≠ c := by
    rintro c hc rfl
    omega
  refine ⟨hdigit, hne 'x' (by decide), hne 'X' (by decide), ?_⟩
  simpa using mt isXDigit_of_isDigit (by simp [hdigit])

/-- Blanks in front of a numeral are skipped, and no sign is read from it. -/
theorem scanSign_blanks (hblanks : ∀ c ∈ blanks, isSpace c = true) (hne : digits ≠ [])
    (hdigits : ∀ c ∈ digits, isXDigit c = true) :
    scanSign ((blanks ++ (digits ++ rest)).dropWhile isSpace) = (false, digits ++ rest) := by
  obtain ⟨c, tail, rfl⟩ := List.exists_cons_of_ne_nil hne
  obtain ⟨hspace, hsign⟩ := scanSign_digit (hdigits c List.mem_cons_self) (tail ++ rest)
  rw [List.dropWhile_append_of_pos hblanks, List.cons_append,
    List.dropWhile_cons_of_neg (by simp [hspace])]
  exact hsign

/-- `%d` reads what it prints. -/
theorem scanInt_decimal (hblanks : ∀ c ∈ blanks, isSpace c = true) (hlow : -2 ^ 63 ≤ i)
    (hhigh : i < 2 ^ 63) (hrest : ∀ c, rest.head? = some c → c.isDigit = false) :
    scanInt (blanks ++ (decimal i ++ rest)) = some (BitVec.ofInt 32 i, rest) := by
  have hdigits : ∀ c ∈ Nat.toDigits 10 i.natAbs, c.isDigit = true := fun c hc =>
    Nat.isDigit_of_mem_toDigits (by omega) le_rfl hc
  have hxdigits : ∀ c ∈ Nat.toDigits 10 i.natAbs, isXDigit c = true := fun c hc =>
    isXDigit_of_isDigit (hdigits c hc)
  have hne := toDigits_ne_nil 10 i.natAbs
  have hvalue : digitsValue (Nat.toDigits 10 i.natAbs) = i.natAbs := by
    rw [digitsValue_eq hdigits, numeralValue_toDigits (by omega) (by omega)]
  obtain ⟨htake, hdrop⟩ := span_append hdigits hrest
  by_cases hneg : i < 0
  · have hscan : scanSign ((blanks ++ (decimal i ++ rest)).dropWhile isSpace) =
        (true, Nat.toDigits 10 i.natAbs ++ rest) := by
      rw [List.dropWhile_append_of_pos hblanks, decimal, if_pos hneg]
      rfl
    simp only [scanInt, hscan, htake, hdrop, if_neg hne, if_true, hvalue]
    rw [if_pos (by omega), show -(i.natAbs : ℤ) = i by omega]
  · have hscan := @scanSign_blanks blanks _ rest hblanks hne hxdigits
    simp only [scanInt, decimal, if_neg hneg, hscan, htake, hdrop, if_neg hne, hvalue,
      Bool.false_eq_true, if_false]
    rw [if_pos (by omega), show (i.natAbs : ℤ) = i by omega]

end UnixProgramming.Libsolver
