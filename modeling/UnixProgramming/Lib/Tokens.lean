import UnixProgramming.Lib.CStrings

/-!
# Tokens

One call of `strtok_r`, over an arbitrary alphabet: separators are skipped, and the token
is what stands in front of the next separator. The rest of the string, without that
separator, is what the next call continues with. The first word of a line is a token between
blanks.
-/

namespace UnixProgramming

variable {α : Type*}

/-- `strtok_r`: the next token of a string and what is left behind it. -/
def strtok (isSep : α → Bool) (s : List α) : Option (List α × List α) :=
  match s.dropWhile isSep with
  | [] => none
  | s => some (s.takeWhile fun c => !isSep c, (s.dropWhile fun c => !isSep c).drop 1)

variable {isSep : α → Bool} {s token rest : List α} {c : α}

/-- A token stands at the first character that does not separate. -/
theorem strtok_eq_some (htoken : strtok isSep s = some (token, rest)) :
    s.dropWhile isSep ≠ [] ∧ token = (s.dropWhile isSep).takeWhile fun c => !isSep c := by
  rw [strtok] at htoken
  split at htoken
  · simp at htoken
  · next hne =>
    simp only [Option.some.injEq, Prod.mk.injEq] at htoken
    exact ⟨hne, htoken.1.symm⟩

/-- It is not empty, -/
theorem strtok_ne_nil (htoken : strtok isSep s = some (token, rest)) : token ≠ [] := by
  obtain ⟨hne, rfl⟩ := strtok_eq_some htoken
  have hhead := List.head_dropWhile_not isSep hne
  cases hs : s.dropWhile isSep with
  | nil => exact absurd hs hne
  | cons c tail =>
    have hc : isSep c = false := by simpa [hs] using hhead
    simp [hc]

/-- has no separator in it, -/
theorem strtok_not_sep (htoken : strtok isSep s = some (token, rest)) (hc : c ∈ token) :
    isSep c = false := by
  obtain ⟨-, rfl⟩ := strtok_eq_some htoken
  simpa using List.mem_takeWhile_imp hc

/-- and is a part of the string. -/
theorem strtok_sublist (htoken : strtok isSep s = some (token, rest)) : token.Sublist s := by
  obtain ⟨-, rfl⟩ := strtok_eq_some htoken
  exact (List.takeWhile_sublist _).trans (List.dropWhile_sublist _)

/-- A word without separators is the first token of the string it begins. -/
theorem strtok_append (hne : token ≠ []) (hfree : ∀ c ∈ token, isSep c = false)
    (hnext : ∀ c, rest.head? = some c → isSep c = true) :
    strtok isSep (token ++ rest) = some (token, rest.drop 1) := by
  obtain ⟨c, tail, rfl⟩ := List.exists_cons_of_ne_nil hne
  have hskip : (c :: tail ++ rest).dropWhile isSep = c :: (tail ++ rest) := by simp [hfree c]
  have htake : ∀ d ∈ c :: tail, (fun d => !isSep d) d = true := by
    intro d hd
    simp [hfree d hd]
  rw [strtok, hskip]
  simp only [← List.cons_append, List.takeWhile_append_of_pos htake,
    List.dropWhile_append_of_pos htake]
  cases rest with
  | nil => simp
  | cons d rest => simp [hnext d rfl]

/-! ## Words -/

/-- The end of a string. -/
def nul : Char := Char.ofNat 0

/-- The blanks between words, `" \t\r\n"`. -/
def isBlank (c : Char) : Bool := c = ' ' || c = '\t' || c = '\r' || c = '\n'

/-- The first word of a line that was read into a buffer. -/
def firstWord (line : List Char) : Option (List Char) :=
  (strtok isBlank (cstring nul line)).map Prod.fst

/-- A string without blanks that is not empty. -/
def IsWord (word : List Char) : Prop := word ≠ [] ∧ ∀ c ∈ word, isBlank c = false ∧ c ≠ nul

variable {line word front tail : List Char}

/-- The first word is a word, -/
theorem isWord_of_firstWord (hword : firstWord line = some word) : IsWord word := by
  obtain ⟨⟨word, rest⟩, htok, rfl⟩ := Option.map_eq_some_iff.mp hword
  refine ⟨strtok_ne_nil htok, fun c hc => ⟨strtok_not_sep htok hc, ?_⟩⟩
  rintro rfl
  exact nul_notMem_cstring nul _ ((strtok_sublist htok).subset hc)

/-- which is no longer than the line, -/
theorem length_firstWord_le (hword : firstWord line = some word) : word.length ≤ line.length := by
  obtain ⟨⟨word, rest⟩, htok, rfl⟩ := Option.map_eq_some_iff.mp hword
  exact (strtok_sublist htok).length_le.trans (cstring_prefix_self _ _).length_le

/-- it stands at the beginning of the line or the line is longer, -/
theorem firstWord_head (hword : firstWord line = some word) :
    word.head? = line.head? ∨ word.length < line.length := by
  obtain ⟨⟨word, rest⟩, htok, rfl⟩ := Option.map_eq_some_iff.mp hword
  obtain ⟨hne, rfl⟩ := strtok_eq_some htok
  have hline : (cstring nul line).length ≤ line.length := (cstring_prefix_self _ _).length_le
  cases hs : cstring nul line with
  | nil => simp [hs] at hne
  | cons c s =>
    have hhead : line.head? = some c := by
      obtain ⟨tail, htail⟩ := hs ▸ cstring_prefix_self nul line
      rw [← htail]
      rfl
    by_cases hc : isBlank c = true
    · refine .inr (lt_of_lt_of_le ?_ hline)
      have hdrop : (s.dropWhile isBlank).length ≤ s.length := (List.dropWhile_sublist _).length_le
      have htake :=
        (List.takeWhile_prefix (fun c => !isBlank c) (l := s.dropWhile isBlank)).length_le
      simp only [hs, List.dropWhile_cons_of_pos hc, List.length_cons]
      omega
    · exact .inl (by simp [hhead, hc])

/-- and every word is read from a line that has blanks around it. -/
theorem firstWord_append (hword : IsWord word) (hfront : ∀ c ∈ front, isBlank c = true)
    (htail : ∀ c ∈ tail, isBlank c = true) : firstWord (front ++ (word ++ tail)) = some word := by
  have hblank : ∀ c, isBlank c = true → c ≠ nul := by
    rintro c hc rfl
    simp [isBlank, nul] at hc
  have hfree : nul ∉ front ++ (word ++ tail) := by
    simp only [List.mem_append, not_or]
    exact ⟨fun hmem => hblank _ (hfront _ hmem) rfl, fun hmem => (hword.2 _ hmem).2 rfl,
      fun hmem => hblank _ (htail _ hmem) rfl⟩
  have hskip : strtok isBlank (front ++ (word ++ tail)) = strtok isBlank (word ++ tail) := by
    rw [strtok, List.dropWhile_append_of_pos hfront, strtok]
  have hnext : ∀ c, tail.head? = some c → isBlank c = true := fun c hc =>
    htail c (List.mem_of_mem_head? hc)
  rw [firstWord, cstring_eq_self hfree, hskip,
    strtok_append hword.1 (fun c hc => (hword.2 c hc).1) hnext]
  rfl

end UnixProgramming
