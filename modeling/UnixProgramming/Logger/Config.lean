import UnixProgramming.Lib.CStrings

/-!
# Reading a blacklist

`check_blacklist` reads the configuration line by line and collects what stands
between two markers. A configuration is a list of sections in any order. Reading
a rendered configuration gives back the rules of a section exactly when it has
one: for an empty or absent section the array that is terminated is still NULL.
-/

namespace UnixProgramming.Logger

/-- Why a call does not return: it goes through a NULL pointer, it reads or writes outside
of an array, or it ends the process by `exit(EXIT_FAILURE)`. -/
inductive Fault
  | nullPointer
  | outOfBounds
  | exit
  deriving DecidableEq, Repr

/-- The most characters that one `fgets` stores into `line[256]`. -/
def lineLimit : ℕ := 255

/-- A line as `check_blacklist` compares it: a C string without its final newline. -/
def stripNewline (line : List Char) : List Char :=
  let line := cstring '\x00' line
  if line.getLast? = some '\n' then line.dropLast else line

/-- The reading loop over the stripped lines, with `in_blacklist` and the array so far. -/
def collect (beginMarker endMarker : List Char) :
    Bool → List (List Char) → List (List Char) → List (List Char)
  | _, blacklist, [] => blacklist
  | inBlacklist, blacklist, line :: lines =>
    if line = beginMarker then collect beginMarker endMarker true blacklist lines
    else if line = endMarker then blacklist
    else if inBlacklist then
      collect beginMarker endMarker inBlacklist (blacklist ++ [line]) lines
    else collect beginMarker endMarker inBlacklist blacklist lines

/-- `check_blacklist`, on the text of the file or `none` when it cannot be opened.
The array is NULL until a first line is recorded, and it is terminated after the
loop in any case. -/
def checkBlacklist (file : Option (List Char)) (beginMarker endMarker : List Char) :
    Except Fault (Option (List (List Char))) :=
  match file with
  | none => .ok none
  | some text =>
    let lines := (readLines '\n' lineLimit text.length text).map stripNewline
    match collect beginMarker endMarker false [] lines with
    | [] => .error .nullPointer
    | rule :: blacklist => .ok (some (rule :: blacklist))

/-! ## Configurations -/

/-- The hijacked functions that have a blacklist. -/
inductive Api
  | fopen
  | fread
  | fwrite
  | connect
  | getaddrinfo
  deriving DecidableEq, Repr

/-- The name of a function in its markers. -/
def Api.name : Api → List Char
  | .fopen => "open".toList
  | .fread => "read".toList
  | .fwrite => "write".toList
  | .connect => "connect".toList
  | .getaddrinfo => "getaddrinfo".toList

/-- The line that begins a section. -/
def Api.beginMarker (a : Api) : List Char := "BEGIN ".toList ++ a.name ++ "-blacklist".toList

/-- The line that ends a section. -/
def Api.endMarker (a : Api) : List Char := "END ".toList ++ a.name ++ "-blacklist".toList

/-- A line that begins or ends some section. -/
def IsMarker (line : List Char) : Prop := ∃ a : Api, line = a.beginMarker ∨ line = a.endMarker

/-- A rule: one line of text that fits into the line buffer and is no marker. -/
structure Rule where
  text : List Char
  nonempty : text ≠ []
  short : text.length ≤ 253
  noNewline : '\n' ∉ text
  noNul : '\x00' ∉ text
  notMarker : ¬ IsMarker text

/-- A configuration: sections in any order, one at most for each function. -/
structure Config where
  sections : List (Api × List Rule)
  distinct : (sections.map Prod.fst).Nodup

/-- The rules for a function, none when its section is absent. -/
def rulesOf (sections : List (Api × List Rule)) (a : Api) : List Rule :=
  sections.flatMap fun s => if s.1 = a then s.2 else []

/-- The lines of one section. -/
def sectionLines (s : Api × List Rule) : List (List Char) :=
  s.1.beginMarker :: s.2.map Rule.text ++ [s.1.endMarker]

/-- The text of a list of lines, with or without a newline behind the last one. -/
def renderLines (finalNewline : Bool) : List (List Char) → List Char
  | [] => []
  | [line] => if finalNewline then line ++ ['\n'] else line
  | line :: lines => line ++ ['\n'] ++ renderLines finalNewline lines

/-- The text of a configuration file. -/
def Config.render (c : Config) (finalNewline : Bool) : List Char :=
  renderLines finalNewline (c.sections.flatMap sectionLines)

/-- What `check_blacklist` returns for the section of a function. -/
def Config.read (c : Config) (finalNewline : Bool) (a : Api) :
    Except Fault (Option (List (List Char))) :=
  checkBlacklist (some (c.render finalNewline)) a.beginMarker a.endMarker

/-! ## The lines that are read -/

/-- A line that `fgets` and the stripping give back unchanged. -/
structure PlainLine (line : List Char) : Prop where
  nonempty : line ≠ []
  short : line.length < lineLimit
  noNewline : '\n' ∉ line
  noNul : '\x00' ∉ line

/-- Markers are plain lines. -/
theorem plainLine_marker (a : Api) : PlainLine a.beginMarker ∧ PlainLine a.endMarker := by
  cases a <;> refine ⟨⟨?_, ?_, ?_, ?_⟩, ⟨?_, ?_, ?_, ?_⟩⟩ <;> decide

/-- Rules are plain lines. -/
theorem Rule.plainLine (rule : Rule) : PlainLine rule.text where
  nonempty := rule.nonempty
  short := by
    have := rule.short
    unfold lineLimit
    omega
  noNewline := rule.noNewline
  noNul := rule.noNul

/-- All lines of a section are plain. -/
theorem plainLine_of_mem_sectionLines {s : Api × List Rule} {line : List Char}
    (hline : line ∈ sectionLines s) : PlainLine line := by
  simp only [sectionLines, List.cons_append, List.mem_cons, List.mem_append, List.mem_map,
    List.not_mem_nil, or_false] at hline
  obtain rfl | ⟨rule, -, rfl⟩ | rfl := hline
  · exact (plainLine_marker s.1).1
  · exact rule.plainLine
  · exact (plainLine_marker s.1).2

/-- The newline behind a plain line is removed. -/
theorem stripNewline_newline {line : List Char} (hplain : PlainLine line) :
    stripNewline (line ++ ['\n']) = line := by
  have hstring : cstring '\x00' (line ++ ['\n']) = line ++ ['\n'] :=
    cstring_eq_self (by simpa using hplain.noNul)
  simp [stripNewline, hstring]

/-- A plain line without newline is left as it is. -/
theorem stripNewline_plain {line : List Char} (hplain : PlainLine line) :
    stripNewline line = line := by
  have hstring : cstring '\x00' line = line := cstring_eq_self hplain.noNul
  have hlast : line.getLast? ≠ some '\n' :=
    fun hlast => hplain.noNewline (List.mem_of_getLast? hlast)
  simp [stripNewline, hstring, hlast]

/-- A rendered text is its lines but the last, each with a newline, and the last one. -/
theorem renderLines_append (finalNewline : Bool) (lines : List (List Char)) (last : List Char) :
    renderLines finalNewline (lines ++ [last]) =
      lines.flatMap (· ++ ['\n']) ++ renderLines finalNewline [last] := by
  induction lines with
  | nil => rfl
  | cons line lines ih =>
    have hunfold : renderLines finalNewline (line :: (lines ++ [last])) =
        line ++ ['\n'] ++ renderLines finalNewline (lines ++ [last]) := by
      cases lines <;> rfl
    simp [hunfold, ih]

/-- Reading the last line of a text, which ends with a newline or not. -/
theorem readLines_last {last : List Char} (hplain : PlainLine last) (finalNewline : Bool)
    {fuel : ℕ} (hfuel : (renderLines finalNewline [last]).length ≤ fuel) :
    (readLines '\n' lineLimit fuel (renderLines finalNewline [last])).map stripNewline =
      [last] := by
  cases finalNewline with
  | false =>
    simp only [renderLines, Bool.false_eq_true, if_false] at hfuel ⊢
    rw [readLines_end hplain.nonempty hplain.noNewline (Nat.le_of_lt hplain.short) hfuel]
    simp [stripNewline_plain hplain]
  | true =>
    simp only [renderLines, if_true] at hfuel ⊢
    have hline : readLine '\n' lineLimit (last ++ ['\n']) = (last ++ ['\n'], []) :=
      readLine_newline hplain.noNewline hplain.short
    cases fuel with
    | zero => simp at hfuel
    | succ fuel =>
      have hend : readLines '\n' lineLimit fuel [] = [] := by cases fuel <;> simp [readLines]
      simp [readLines, hline, hend, stripNewline_newline hplain]

/-- The lines of a rendered text of plain lines are those lines. -/
theorem readLines_renderLines {lines : List (List Char)} (hplain : ∀ line ∈ lines, PlainLine line)
    (finalNewline : Bool) :
    (readLines '\n' lineLimit (renderLines finalNewline lines).length
      (renderLines finalNewline lines)).map stripNewline = lines := by
  induction lines using List.reverseRecOn with
  | nil => rfl
  | append_singleton lines last =>
    have hinit : ∀ line ∈ lines, PlainLine line := fun l hl => hplain l (by simp [hl])
    rw [renderLines_append]
    obtain ⟨fuel, hfuel, hread⟩ := readLines_newlines
      (fun line hline => ⟨(hinit line hline).noNewline, (hinit line hline).short⟩)
      (Nat.le_refl (lines.flatMap (· ++ ['\n']) ++ renderLines finalNewline [last]).length)
    have hstrip : (lines.map (· ++ ['\n'])).map stripNewline = lines := by
      rw [List.map_map]
      conv_rhs => rw [← List.map_id lines]
      exact List.map_congr_left fun line hline => stripNewline_newline (hinit line hline)
    rw [hread, List.map_append, hstrip, readLines_last (hplain last (by simp)) finalNewline hfuel]

/-! ## The rules that are collected -/

section Collect

variable {a b : Api} {blacklist lines : List (List Char)}

/-- The markers of different functions differ. -/
theorem beginMarker_inj (heq : b.beginMarker = a.beginMarker) : b = a := by
  revert heq
  cases a <;> cases b <;> decide

/-- The end markers of different functions differ. -/
theorem endMarker_inj (heq : b.endMarker = a.endMarker) : b = a := by
  revert heq
  cases a <;> cases b <;> decide

/-- No line both begins and ends a section. -/
theorem beginMarker_ne_endMarker (a b : Api) : a.beginMarker ≠ b.endMarker := by
  cases a <;> cases b <;> decide

/-- Outside of its section the loop skips every line that is not one of its markers. -/
theorem collect_skip {skipped : List (List Char)}
    (hskip : ∀ line ∈ skipped, line ≠ a.beginMarker ∧ line ≠ a.endMarker) :
    collect a.beginMarker a.endMarker false blacklist (skipped ++ lines) =
      collect a.beginMarker a.endMarker false blacklist lines := by
  induction skipped with
  | nil => rfl
  | cons line skipped ih =>
    obtain ⟨hbegin, hend⟩ := hskip line List.mem_cons_self
    rw [List.cons_append, collect, if_neg hbegin, if_neg hend, if_neg Bool.false_ne_true]
    exact ih fun l hl => hskip l (List.mem_cons_of_mem line hl)

/-- A rule is no marker of any function. -/
theorem Rule.ne_marker (rule : Rule) (a : Api) :
    rule.text ≠ a.beginMarker ∧ rule.text ≠ a.endMarker :=
  ⟨fun heq => rule.notMarker ⟨a, .inl heq⟩, fun heq => rule.notMarker ⟨a, .inr heq⟩⟩

/-- Inside its section the loop records the rules and leaves at the end marker. -/
theorem collect_rules (rules : List Rule) :
    collect a.beginMarker a.endMarker true blacklist
        (rules.map Rule.text ++ a.endMarker :: lines) =
      blacklist ++ rules.map Rule.text := by
  induction rules generalizing blacklist with
  | nil =>
    simp only [List.map_nil, List.nil_append, List.append_nil]
    rw [collect, if_neg (beginMarker_ne_endMarker a a).symm, if_pos rfl]
  | cons rule rules ih =>
    obtain ⟨hbegin, hend⟩ := rule.ne_marker a
    rw [List.map_cons, List.cons_append, collect, if_neg hbegin, if_neg hend, if_pos rfl, ih]
    simp

/-- The section of another function is skipped. -/
theorem collect_otherSection {s : Api × List Rule} (hother : s.1 ≠ a) :
    collect a.beginMarker a.endMarker false blacklist (sectionLines s ++ lines) =
      collect a.beginMarker a.endMarker false blacklist lines := by
  apply collect_skip
  intro line hline
  simp only [sectionLines, List.cons_append, List.mem_cons, List.mem_append, List.mem_map,
    List.not_mem_nil, or_false] at hline
  obtain rfl | ⟨rule, -, rfl⟩ | rfl := hline
  · exact ⟨fun heq => hother (beginMarker_inj heq), beginMarker_ne_endMarker s.1 a⟩
  · exact rule.ne_marker a
  · exact ⟨(beginMarker_ne_endMarker a s.1).symm, fun heq => hother (endMarker_inj heq)⟩

/-- Without its section a function has no rules. -/
theorem rulesOf_absent {sections : List (Api × List Rule)} (habsent : a ∉ sections.map Prod.fst) :
    rulesOf sections a = [] := by
  rw [rulesOf, List.flatMap_eq_nil_iff]
  intro s hs
  exact if_neg fun heq => habsent (List.mem_map.mpr ⟨s, hs, heq⟩)

/-- The loop collects exactly the rules of its section. -/
theorem collect_sections {sections : List (Api × List Rule)}
    (hdistinct : (sections.map Prod.fst).Nodup) :
    collect a.beginMarker a.endMarker false [] (sections.flatMap sectionLines) =
      (rulesOf sections a).map Rule.text := by
  induction sections with
  | nil => rfl
  | cons s sections ih =>
    simp only [List.map_cons, List.nodup_cons] at hdistinct
    rw [List.flatMap_cons]
    by_cases hsection : s.1 = a
    · subst hsection
      have hrules : rulesOf (s :: sections) s.1 = s.2 := by
        have := rulesOf_absent hdistinct.1
        simp only [rulesOf] at this
        simp [rulesOf, this]
      rw [hrules, sectionLines, List.cons_append, List.cons_append, collect, if_pos rfl,
        List.append_assoc]
      exact collect_rules s.2
    · have hrules : rulesOf (s :: sections) a = rulesOf sections a := by
        simp [rulesOf, hsection]
      rw [hrules, collect_otherSection hsection, ih hdistinct.2]

end Collect

/-! ## The round trip -/

/-- The round trip for one function: its rules come back, in order. -/
def RoundTrips (c : Config) (finalNewline : Bool) (a : Api) : Prop :=
  c.read finalNewline a = .ok (some ((rulesOf c.sections a).map Rule.text))

/-- What is read from a rendered configuration depends on the rules of the section only. -/
theorem Config.read_eq (c : Config) (finalNewline : Bool) (a : Api) :
    c.read finalNewline a =
      match (rulesOf c.sections a).map Rule.text with
      | [] => .error .nullPointer
      | rule :: blacklist => .ok (some (rule :: blacklist)) := by
  have hplain : ∀ line ∈ c.sections.flatMap sectionLines, PlainLine line := by
    intro line hline
    obtain ⟨s, -, hs⟩ := List.mem_flatMap.mp hline
    exact plainLine_of_mem_sectionLines hs
  simp only [Config.read, checkBlacklist, Config.render, readLines_renderLines hplain,
    collect_sections c.distinct]

/-- A rendered configuration gives a section back exactly when the section has a
rule. An empty or absent section makes the reader write through a NULL pointer. -/
theorem roundTrips_iff (c : Config) (finalNewline : Bool) (a : Api) :
    RoundTrips c finalNewline a ↔ rulesOf c.sections a ≠ [] := by
  rw [RoundTrips, c.read_eq]
  cases rulesOf c.sections a with
  | nil => simp
  | cons rule rules => simp

/-- A configuration with one open rule and an empty read section. -/
def openOnly : Config where
  sections := [(.fopen, [⟨"/bin/*".toList, by decide, by decide, by decide, by decide, by
    rintro ⟨a, ha⟩
    revert ha
    cases a <;> decide⟩]), (.fread, [])]
  distinct := by decide

/-- The open rule of `openOnly` is read back. -/
example : openOnly.read true .fopen = .ok (some ["/bin/*".toList]) := by decide

/-- Reading the empty section of a configuration crashes. -/
theorem not_roundTrips_empty :
    ¬ ∀ (c : Config) (finalNewline : Bool) (a : Api), RoundTrips c finalNewline a := by
  intro hall
  have hempty : openOnly.read true .fread = .error .nullPointer := by decide
  have hread := hall openOnly true .fread
  rw [RoundTrips, hempty] at hread
  cases hread

end UnixProgramming.Logger
