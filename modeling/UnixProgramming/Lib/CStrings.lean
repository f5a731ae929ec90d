import Mathlib.Data.List.DropRight
import Mathlib.Tactic.Common

/-!
# C strings

A C string is the list of the characters before its terminator, and a buffer is
the list of all its characters. The functions of `string.h` and `fgets` that the
programs rely on are stated over an arbitrary alphabet, with the special
characters as parameters. Shell patterns are matched here as well.
-/

namespace UnixProgramming

variable {α : Type*} [DecidableEq α]

/-- The string at the start of a buffer, up to the first terminator. -/
def cstring (nul : α) (buffer : List α) : List α := buffer.takeWhile (· ≠ nul)

/-- The string is the first part of its buffer. -/
theorem cstring_prefix_self (nul : α) (buffer : List α) : cstring nul buffer <+: buffer :=
  List.takeWhile_prefix _

/-- Characters that are no terminators are read before the string behind them. -/
theorem cstring_append_left {nul : α} {s : List α} (hfree : nul ∉ s) (rest : List α) :
    cstring nul (s ++ rest) = s ++ cstring nul rest := by
  apply List.takeWhile_append_of_pos
  exact fun c hc => decide_eq_true (fun heq => hfree (heq ▸ hc))

/-- A string without terminators is read back from a buffer that goes on with one. -/
theorem cstring_append {nul : α} {s rest : List α} (hfree : nul ∉ s)
    (hnext : ∀ c, rest.head? = some c → c = nul) : cstring nul (s ++ rest) = s := by
  rw [cstring_append_left hfree]
  cases rest with
  | nil => simp [cstring]
  | cons c rest => simp [cstring, hnext c rfl]

/-- Behind a terminator nothing is read. -/
theorem cstring_append_of_mem {nul : α} {s : List α} (hmem : nul ∈ s) (rest : List α) :
    cstring nul (s ++ rest) = cstring nul s := by
  obtain ⟨t, tail, rfl, hfree⟩ := List.eq_append_cons_of_mem hmem
  rw [List.append_assoc, List.cons_append, cstring_append hfree (by simp),
    cstring_append hfree (by simp)]

/-- There is no terminator in the string of a buffer. -/
theorem nul_notMem_cstring (nul : α) (buffer : List α) : nul ∉ cstring nul buffer := by
  intro hmem
  simpa using List.mem_takeWhile_imp hmem

/-- A buffer without terminators is one string. -/
theorem cstring_eq_self {nul : α} {s : List α} (hfree : nul ∉ s) : cstring nul s = s := by
  rw [cstring, List.takeWhile_eq_self_iff]
  exact fun c hc => decide_eq_true (fun heq => hfree (heq ▸ hc))

/-- The part of a string up to and including its last separator, as `strrchr`
finds it. It is empty when there is no separator. -/
def throughLast (sep : α) (s : List α) : List α := s.rdropWhile (· ≠ sep)

/-- The part of a string behind its last separator. -/
def afterLast (sep : α) (s : List α) : List α := s.rtakeWhile (· ≠ sep)

theorem prefix_throughLast (sep : α) (s : List α) : throughLast sep s <+: s :=
  List.rdropWhile_prefix _ _

theorem afterLast_suffix (sep : α) (s : List α) : afterLast sep s <:+ s :=
  List.rtakeWhile_suffix _ _

/-- Without a separator there is nothing up to the last one. -/
theorem throughLast_eq_nil_iff {sep : α} {s : List α} : throughLast sep s = [] ↔ sep ∉ s := by
  rw [throughLast, List.rdropWhile_eq_nil_iff]
  simp only [decide_eq_true_eq]
  exact ⟨fun h hmem => h sep hmem rfl, fun h c hc heq => h (heq ▸ hc)⟩

/-! ## Reading lines -/

/-- One `fgets`: the characters up to and including a newline, `limit` at most,
and the rest of the stream. -/
def readLine (newline : α) : ℕ → List α → List α × List α
  | 0, text => ([], text)
  | _ + 1, [] => ([], [])
  | limit + 1, c :: text =>
    if c = newline then ([c], text) else
      let (line, rest) := readLine newline limit text
      (c :: line, rest)

/-- Repeated `fgets` until the stream is empty, with one unit of fuel per call. -/
def readLines (newline : α) (limit : ℕ) : ℕ → List α → List (List α)
  | 0, _ => []
  | fuel + 1, text =>
    if text = [] then [] else
      let (line, rest) := readLine newline limit text
      line :: readLines newline limit fuel rest

variable {newline : α} {limit fuel : ℕ} {line text : List α}

/-- A line that fits is read up to its newline. -/
theorem readLine_newline (hfree : newline ∉ line) (hfits : line.length < limit) :
    readLine newline limit (line ++ newline :: text) = (line ++ [newline], text) := by
  induction line generalizing limit with
  | nil =>
    cases limit with
    | zero => simp at hfits
    | succ limit => simp [readLine]
  | cons c line ih =>
    cases limit with
    | zero => simp at hfits
    | succ limit =>
      simp only [List.length_cons, Nat.add_lt_add_iff_right] at hfits
      simp only [List.mem_cons, not_or] at hfree
      simp only [List.cons_append, readLine, if_neg (Ne.symm hfree.1), ih hfree.2 hfits]

/-- A last line without newline is read to the end of the stream. -/
theorem readLine_end (hfree : newline ∉ line) (hfits : line.length ≤ limit) :
    readLine newline limit line = (line, []) := by
  induction line generalizing limit with
  | nil => cases limit <;> rfl
  | cons c line ih =>
    cases limit with
    | zero => simp at hfits
    | succ limit =>
      simp only [List.length_cons, Nat.add_le_add_iff_right] at hfits
      simp only [List.mem_cons, not_or] at hfree
      simp only [readLine, if_neg (Ne.symm hfree.1), ih hfree.2 hfits]

/-- A line that fills the buffer is read without its newline. -/
theorem readLine_full (hfree : newline ∉ line) (hfull : line.length = limit) :
    readLine newline limit (line ++ text) = (line, text) := by
  subst hfull
  induction line with
  | nil => rfl
  | cons c line ih =>
    simp only [List.mem_cons, not_or] at hfree
    simp only [List.length_cons, List.cons_append, readLine, if_neg (Ne.symm hfree.1), ih hfree.2]

/-- What is typed to have a text read as one line. The newline is left out where it would not
be read with the text. -/
def typed (newline : α) (limit : ℕ) (text : List α) : List α :=
  text ++ if text.length < limit then [newline] else []

theorem readLine_typed {rest : List α} (hfree : newline ∉ line) (hfits : line.length ≤ limit) :
    readLine newline limit (typed newline limit line ++ rest) =
      (typed newline limit line, rest) := by
  by_cases hlen : line.length < limit
  · simpa [typed, hlen] using readLine_newline hfree hlen
  · simpa [typed, hlen] using readLine_full hfree (by omega)

/-- No more than the limit is read. -/
theorem length_readLine_le (newline : α) (limit : ℕ) (text : List α) :
    (readLine newline limit text).1.length ≤ limit := by
  induction limit generalizing text with
  | zero => simp [readLine]
  | succ limit ih =>
    cases text with
    | nil => simp [readLine]
    | cons c text =>
      simp only [readLine]
      split
      · simp
      · simpa using ih text

/-- Lines that fit are read back one by one, and reading goes on behind them. -/
theorem readLines_newlines {lines : List (List α)}
    (hlines : ∀ line ∈ lines, newline ∉ line ∧ line.length < limit)
    (hfuel : (lines.flatMap (· ++ [newline]) ++ text).length ≤ fuel) :
    ∃ fuel', text.length ≤ fuel' ∧
      readLines newline limit fuel (lines.flatMap (· ++ [newline]) ++ text) =
        lines.map (· ++ [newline]) ++ readLines newline limit fuel' text := by
  induction lines generalizing fuel with
  | nil => exact ⟨fuel, hfuel, rfl⟩
  | cons line lines ih =>
    obtain ⟨hfree, hfits⟩ := hlines line List.mem_cons_self
    have hsplit : (line :: lines).flatMap (· ++ [newline]) ++ text =
        line ++ newline :: (lines.flatMap (· ++ [newline]) ++ text) := by simp
    rw [hsplit] at hfuel ⊢
    cases fuel with
    | zero => simp at hfuel
    | succ fuel =>
      obtain ⟨fuel', hfuel', hread⟩ := ih (fun l hl => hlines l (List.mem_cons_of_mem line hl))
        (show (lines.flatMap (· ++ [newline]) ++ text).length ≤ fuel by
          simp only [List.length_append, List.length_cons] at hfuel ⊢
          omega)
      refine ⟨fuel', hfuel', ?_⟩
      rw [readLines, if_neg (by simp), readLine_newline hfree hfits]
      simp only [hread, List.map_cons, List.cons_append]

/-- A last line without newline is the last one read. -/
theorem readLines_end (hline : line ≠ []) (hfree : newline ∉ line)
    (hfits : line.length ≤ limit) (hfuel : line.length ≤ fuel) :
    readLines newline limit fuel line = [line] := by
  cases fuel with
  | zero => exact absurd (List.eq_nil_of_length_eq_zero (by omega)) hline
  | succ fuel => cases fuel <;> simp [readLines, hline, readLine_end hfree hfits]

/-- The first line begins with the first character. -/
theorem readLines_cons (hlimit : 0 < limit) (hfuel : 0 < fuel) (c : α) (text : List α) :
    ∃ line lines, readLines newline limit fuel (c :: text) = (c :: line) :: lines := by
  cases limit with
  | zero => omega
  | succ limit =>
    cases fuel with
    | zero => omega
    | succ fuel =>
      by_cases hc : c = newline
      · exact ⟨_, _, by simp [readLines, readLine, hc]; exact ⟨rfl, rfl⟩⟩
      · exact ⟨_, _, by simp [readLines, readLine, hc]; exact ⟨rfl, rfl⟩⟩

/-! ## Shell patterns -/

/-- Whether a pattern matches a name: the `star` stands for any characters, every
other character for itself. -/
def globMatches (star : α) : List α → List α → Bool
  | [], name => name.isEmpty
  | c :: rule, name =>
    if c = star then name.tails.any (globMatches star rule) else
      match name with
      | [] => false
      | d :: name => c = d && globMatches star rule name

end UnixProgramming
