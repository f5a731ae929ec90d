import UnixProgramming.Logger.Config
import Mathlib.Data.List.Infix

/-!
# Names and rules

`handle_filename`, `compare_blacklist` and `compare_read`. The comparison of a
name with a rule never misses: a name that a rule matches as a shell pattern is
reported, and so is every initial part of such a name.
-/

namespace UnixProgramming.Logger

/-- `strcpy` into a static buffer: the string and its terminator replace the start. -/
def strcpy (buffer s : List Char) : List Char := s ++ '\x00' :: buffer.drop (s.length + 1)

/-- `strncpy` of the first characters of a longer string: no terminator is stored. -/
def strncpy (buffer s : List Char) : List Char := s ++ buffer.drop s.length

/-- `handle_filename`: the returned string and the static buffer `only_filename`
afterwards. `last_part` is overwritten by every call before it is read. -/
def handleFilename (onlyFilename filename : List Char) (extension : ℕ) :
    List Char × List Char :=
  let lastPart := afterLast '/' filename
  if extension = 1 then (lastPart, onlyFilename) else
    let onlyFilename :=
      match throughLast '.' lastPart with
      | [] => strcpy onlyFilename lastPart
      | c :: stem => strncpy onlyFilename (c :: stem).dropLast
    (cstring '\x00' onlyFilename, onlyFilename)

/-- The comparison loop: what is left of the name and of the rule when it stops, at
the end of the name, at a `*` of the rule or at the first difference. -/
def advance : List Char → List Char → List Char × List Char
  | c :: filename, d :: path =>
    if d ≠ '*' ∧ c = d then advance filename path else (c :: filename, d :: path)
  | filename, path => (filename, path)

/-- One pass of `compare_blacklist`, for the rule `path`. An empty rule has no last
character. -/
def compareRule (filename path : List Char) : Bool :=
  let (filenameLeft, pathLeft) := advance filename path
  if pathLeft.head? = some '*' ∨ filenameLeft = [] then true
  else if path.getLast? = some '*' ∧ path.dropLast <:+: filename then true
  else if ['.', '/'] <+: path ∧ (handleFilename [] filename 1).1 = path.drop 2 then true
  else false

/-- `compare_blacklist`, with `none` for the NULL list. -/
def compareBlacklist (filename : List Char) : Option (List (List Char)) → Bool
  | none => false
  | some blacklist => blacklist.any (compareRule filename)

/-- `compare_read`. -/
def compareRead (content : List Char) (blacklist : List (List Char)) : Bool :=
  blacklist.any fun keyword => keyword <:+: content

/-- A name is listed when a rule matches it, exactly or as a shell pattern. -/
def Listed (blacklist : Option (List (List Char))) (name : List Char) : Prop :=
  ∃ rules, blacklist = some rules ∧ ∃ rule ∈ rules, globMatches '*' rule name = true

variable {filename path name : List Char} {blacklist : Option (List (List Char))}

/-- On an initial part of a matching name the comparison loop stops at a star or at
the end of the name. -/
theorem advance_of_globMatches (hmatch : globMatches '*' path name = true)
    (hpart : filename <+: name) :
    (advance filename path).2.head? = some '*' ∨ (advance filename path).1 = [] := by
  induction path generalizing filename name with
  | nil =>
    have hname : name = [] := by simpa [globMatches] using hmatch
    have hnil : filename = [] := by simpa [hname] using hpart
    simp [hnil, advance]
  | cons d path ih =>
    cases filename with
    | nil => simp [advance]
    | cons c filename =>
      by_cases hstar : d = '*'
      · simp [advance, hstar]
      · obtain ⟨rest, rfl⟩ := hpart
        simp only [List.cons_append, globMatches, if_neg hstar, Bool.and_eq_true,
          decide_eq_true_eq] at hmatch
        rw [advance, if_pos ⟨hstar, hmatch.1.symm⟩]
        exact ih hmatch.2 (List.prefix_append filename rest)

/-- No rule is missed: the rule that matches a name reports its initial parts. -/
theorem compareRule_of_globMatches (hmatch : globMatches '*' path name = true)
    (hpart : filename <+: name) : compareRule filename path = true := by
  have hstop := advance_of_globMatches hmatch hpart
  simp only [compareRule]
  rw [if_pos hstop]

/-- Every initial part of a listed name is reported. -/
theorem compareBlacklist_of_listed (hlisted : Listed blacklist name) (hpart : filename <+: name) :
    compareBlacklist filename blacklist = true := by
  obtain ⟨rules, rfl, rule, hrule, hmatch⟩ := hlisted
  rw [compareBlacklist, List.any_eq_true]
  exact ⟨rule, hrule, compareRule_of_globMatches hmatch hpart⟩

end UnixProgramming.Logger
