import UnixProgramming.Lib.Loops
import UnixProgramming.Logger.Config
import Mathlib.Data.List.Infix

/-!
# The command line of the logger

`parse_args` tests every word after the program name in a fixed order. A documented
command line comes back from it exactly when its configuration, its command and its
arguments pass the right tests: the condition follows the words behind the command.
-/

namespace UnixProgramming.Logger

/-- A word of the command line. -/
abbrev Word := List Char

/-- `ARGS`. The arrays are lists of the entries stored so far. -/
structure Args where
  configFile : Word
  config : List Word
  outputFile : Option Word
  soPath : Option Word
  command : Option Word
  args : List Word
  deriving DecidableEq, Repr

/-- The entries of `arg_check` and of `N_config`. -/
def maxArgs : ℕ := 512

/-- Whether a word contains `config.txt`. -/
def namesConfig (word : Word) : Bool := "config.txt".toList <:+: word

/-- The test for the command. -/
def isCommand (word : Word) : Bool := "./".toList <+: word && !namesConfig word

/-- The test for a word that starts an option. -/
def isOption (word : Word) : Bool := word.head? = some '-'

/-- Store into `arg_check`. -/
def Args.store (a : Args) (word : Word) : Except Fault Args :=
  if a.args.length < maxArgs then .ok { a with args := a.args ++ [word] }
  else .error .outOfBounds

/-- Store into `N_config`, and keep the first one as the configuration file. -/
def Args.storeConfig (a : Args) (word : Word) : Except Fault Args :=
  if a.config.length < maxArgs then
    .ok { a with
      configFile := if a.config = [] then word else a.configFile
      config := a.config ++ [word] }
  else .error .outOfBounds

/-- The loop of `parse_args`, with `find_command`. -/
def parseLoop (findCommand : Bool) (a : Args) : List Word → Except Fault Args
  | [] => .ok a
  | word :: rest =>
    if isCommand word then parseLoop true { a with command := some word } rest
    else if !isOption word && findCommand then do
      let a ← a.store word
      parseLoop false a rest
    else if namesConfig word then do
      let a ← a.storeConfig word
      parseLoop findCommand a rest
    else if "-o".toList <+: word then
      match rest with
      | [] => .ok { a with outputFile := none }
      | next :: rest => parseLoop findCommand { a with outputFile := some next } rest
    else if "-p".toList <+: word then
      match rest with
      | [] => .ok { a with soPath := none }
      | next :: rest => parseLoop findCommand { a with soPath := some next } rest
    else
      match rest with
      | [] => a.store word
      | next :: rest' =>
        if isOption word && !isOption next then do
          let a ← a.store (word ++ ' ' :: next)
          parseLoop findCommand a rest'
        else do
          let a ← a.store word
          parseLoop findCommand a (next :: rest')

/-- `parse_args`. -/
def parseArgs (argv : List Word) : Except Fault Args :=
  parseLoop false ⟨"config.txt".toList, [], none, some "./logger.so".toList, none, []⟩ argv.tail

/-! ## Command lines -/

/-- A command line of the documented form, after the program name. -/
structure CommandLine where
  configFile : Word
  outputFile : Option Word
  soPath : Option Word
  command : Word
  args : List Word
  nonempty : ∀ word ∈ args, word ≠ []

/-- The words of an option with its value, if it is given. -/
def optionWords (option : Word) : Option Word → List Word
  | none => []
  | some value => [option, value]

/-- The words of a command line. -/
def CommandLine.words (l : CommandLine) : List Word :=
  l.configFile :: optionWords "-o".toList l.outputFile ++ optionWords "-p".toList l.soPath ++
    l.command :: l.args

/-- Words joined by single spaces. -/
def joinWords : List Word → List Char
  | [] => []
  | [word] => word
  | word :: rest => word ++ ' ' :: joinWords rest

/-- A command line comes back: every part is found, the arguments joined by spaces are
the same, and the array of arguments has room for its terminator. -/
def RecoversLine (program : Word) (l : CommandLine) : Prop :=
  ∃ a, parseArgs (program :: l.words) = .ok a ∧ a.configFile = l.configFile ∧
    a.outputFile = l.outputFile ∧ a.soPath = some (l.soPath.getD "./logger.so".toList) ∧
    a.command = some l.command ∧ a.args.length < maxArgs ∧ joinWords a.args = joinWords l.args

/-- The entries for the words behind the command, `none` when some word is not taken as
an argument: it looks like a command, it starts with `-o` or `-p`, or it contains
`config.txt` without being the first word that is no option. The value behind an
option is not tested. -/
def groupArgs (findCommand : Bool) : List Word → Option (List Word)
  | [] => some []
  | word :: rest =>
    if isCommand word then none
    else if !isOption word && findCommand then (groupArgs false rest).map (word :: ·)
    else if namesConfig word then none
    else if "-o".toList <+: word then none
    else if "-p".toList <+: word then none
    else
      match rest with
      | [] => some [word]
      | next :: rest' =>
        if isOption word && !isOption next then
          (groupArgs findCommand rest').map ((word ++ ' ' :: next) :: ·)
        else (groupArgs findCommand (next :: rest')).map (word :: ·)

/-- The configuration file contains `config.txt`, the command is a path to a program
that does not, and the words behind it are fewer than 512 entries of arguments. -/
def Documented (l : CommandLine) : Prop :=
  namesConfig l.configFile = true ∧ isCommand l.command = true ∧
    ∃ entries, groupArgs true l.args = some entries ∧ entries.length < maxArgs

variable {findCommand : Bool} {a result : Args} {word : Word} {words entries : List Word}

/-! ## Storing -/

/-- Storing an entry succeeds while there is room. -/
theorem store_eq_ok : a.store word = .ok result ↔
    a.args.length < maxArgs ∧ result = { a with args := a.args ++ [word] } := by
  unfold Args.store
  split
  · rename_i hroom
    simp [hroom, eq_comm]
  · rename_i hfull
    simp [hfull]

/-- Storing one entry and then a list of entries. -/
theorem store_entries_iff {P : Args → Prop}
    (hrest : ∀ b : Args, b.args.length ≤ maxArgs → (P b ↔
      b.args.length + entries.length ≤ maxArgs ∧ result = { b with args := b.args ++ entries })) :
    (∃ b, a.store word = .ok b ∧ P b) ↔
      a.args.length + (word :: entries).length ≤ maxArgs ∧
        result = { a with args := a.args ++ word :: entries } := by
  have hlength : (a.args ++ [word]).length = a.args.length + 1 := by simp
  simp only [store_eq_ok, List.length_cons]
  constructor
  · rintro ⟨b, ⟨hroom, rfl⟩, hb⟩
    obtain ⟨hentries, rfl⟩ := (hrest _ (by simp only [hlength]; omega)).mp hb
    simp only [hlength] at hentries
    exact ⟨by omega, by simp⟩
  · rintro ⟨hroom, rfl⟩
    refine ⟨{ a with args := a.args ++ [word] }, ⟨by omega, rfl⟩, ?_⟩
    rw [hrest _ (by simp only [hlength]; omega)]
    exact ⟨by simp only [hlength]; omega, by simp⟩

/-- Storing into `N_config` leaves the arguments alone. -/
theorem args_storeConfig {b : Args} (hstore : a.storeConfig word = .ok b) : b.args = a.args := by
  unfold Args.storeConfig at hstore
  split at hstore
  · rw [← Except.ok.inj hstore]
  · cases hstore

/-- The configuration file and the command that were found pass their tests. -/
structure Named (a : Args) : Prop where
  configFile : namesConfig a.configFile = true
  command : ∀ word, a.command = some word → isCommand word = true

/-- Storing an argument keeps the names. -/
theorem Named.store {b : Args} (hnamed : Named a) (hstore : a.store word = .ok b) : Named b := by
  obtain ⟨-, rfl⟩ := store_eq_ok.mp hstore
  exact ⟨hnamed.configFile, hnamed.command⟩

/-- Storing a word with `config.txt` keeps the names. -/
theorem Named.storeConfig {b : Args} (hnamed : Named a) (hword : namesConfig word = true)
    (hstore : a.storeConfig word = .ok b) : Named b := by
  unfold Args.storeConfig at hstore
  split at hstore
  · rw [← Except.ok.inj hstore]
    refine ⟨?_, hnamed.command⟩
    dsimp only
    split
    · exact hword
    · exact hnamed.configFile
  · cases hstore

/-! ## The weight of words -/

/-- The characters of a list of words, with one more for each word. -/
def weight : List Word → ℕ
  | [] => 0
  | word :: words => word.length + 1 + weight words

@[simp] theorem weight_nil : weight [] = 0 := rfl

@[simp] theorem weight_cons (word : Word) (words : List Word) :
    weight (word :: words) = word.length + 1 + weight words := rfl

@[simp] theorem weight_append (left right : List Word) :
    weight (left ++ right) = weight left + weight right := by
  induction left with
  | nil => simp
  | cons word left ih => simp [ih, Nat.add_assoc]

/-- Storing into `arg_check` adds the weight of the entry. -/
theorem weight_store {b : Args} (hstore : a.store word = .ok b) :
    weight b.args = weight a.args + (word.length + 1) := by
  obtain ⟨-, rfl⟩ := store_eq_ok.mp hstore
  simp

theorem joinWords_cons (word : Word) (words : List Word) :
    joinWords (word :: words) = if words = [] then word else word ++ ' ' :: joinWords words := by
  cases words <;> rfl

/-- Joining words that are not empty gives something. -/
theorem joinWords_ne_nil (hwords : words ≠ []) (hnonempty : ∀ word ∈ words, word ≠ []) :
    joinWords words ≠ [] := by
  cases words with
  | nil => exact absurd rfl hwords
  | cons word words =>
    rw [joinWords_cons]
    split
    · exact hnonempty word List.mem_cons_self
    · simp

/-- The weight of words is the length of what joining them gives, and one for the end. -/
theorem weight_eq (words : List Word) :
    weight words = (joinWords words).length + if words = [] then 0 else 1 := by
  induction words with
  | nil => rfl
  | cons word words ih =>
    rw [weight_cons, ih, joinWords_cons]
    by_cases hrest : words = []
    · simp [hrest, joinWords]
    · simp only [hrest, if_false, List.length_append, List.length_cons, reduceCtorEq]
      omega

/-! ## One pass of the loop -/

/-- The first words are stored as one entry, and the loop goes on with the others. -/
structure Taken (findCommand : Bool) (words : List Word) (entry : Word) (next : Bool)
    (rest : List Word) : Prop where
  nonempty : words ≠ []
  parse : ∀ a, parseLoop findCommand a words = a.store entry >>= (parseLoop next · rest)
  group : groupArgs findCommand words = (groupArgs next rest).map (entry :: ·)
  join : joinWords words = joinWords (entry :: rest)

/-- The first word is no argument. When the pass returns, the loop goes on with fewer
words, and no argument was stored. -/
structure Lost (findCommand : Bool) (words : List Word) : Prop where
  parse : ∀ a result, parseLoop findCommand a words = .ok result →
    ∃ next b rest, parseLoop next b rest = .ok result ∧ weight rest < weight words ∧
      b.args = a.args ∧ (Named a → Named b)
  group : groupArgs findCommand words = none

/-- Storing an entry loses no weight. -/
theorem Taken.weight_eq {entry : Word} {next : Bool} {rest : List Word}
    (htaken : Taken findCommand words entry next rest) :
    weight words = entry.length + 1 + weight rest := by
  rw [← weight_cons, Logger.weight_eq, Logger.weight_eq, htaken.join]
  simp [htaken.nonempty]

/-- An option whose value is no argument is lost, and its value with it. -/
theorem Lost.of_value {rest : List Word} (setValue : Args → Option Word → Args)
    (hparse : ∀ a, parseLoop findCommand a (word :: rest) =
      match rest with
      | [] => .ok (setValue a none)
      | value :: rest => parseLoop findCommand (setValue a (some value)) rest)
    (hgroup : groupArgs findCommand (word :: rest) = none)
    (hargs : ∀ a value, (setValue a value).args = a.args)
    (hnamed : ∀ a value, Named a → Named (setValue a value)) :
    Lost findCommand (word :: rest) := by
  refine ⟨fun a result hok => ?_, hgroup⟩
  rw [hparse] at hok
  cases rest with
  | nil =>
    exact ⟨findCommand, _, [], hok, by rw [weight_cons]; omega, hargs a none, hnamed a none⟩
  | cons value rest =>
    exact ⟨_, _, _, hok, by rw [weight_cons, weight_cons]; omega, hargs a (some value),
      hnamed a (some value)⟩

/-- A word that passes the first five tests is stored, together with the next one if this is
the value of an option. -/
theorem exists_taken {rest : List Word} (hcommand : ¬isCommand word = true)
    (hplain : ¬(!isOption word && findCommand) = true) (hconfig : ¬namesConfig word = true)
    (houtput : ¬"-o".toList <+: word) (hpath : ¬"-p".toList <+: word) :
    ∃ entry next left, Taken findCommand (word :: rest) entry next left := by
  cases rest with
  | nil =>
    refine ⟨word, findCommand, [], List.cons_ne_nil _ _, fun a => ?_, ?_, rfl⟩
    · conv_lhs => unfold parseLoop
      rw [if_neg hcommand, if_neg hplain, if_neg hconfig, if_neg houtput, if_neg hpath]
      cases a.store word <;> rfl
    · conv_lhs => unfold groupArgs
      rw [if_neg hcommand, if_neg hplain, if_neg hconfig, if_neg houtput, if_neg hpath]
      rfl
  | cons value rest =>
    -- an option takes the next word with it unless that is an option, too
    by_cases hvalue : (isOption word && !isOption value) = true
    · refine ⟨word ++ ' ' :: value, findCommand, rest, List.cons_ne_nil _ _, fun a => ?_, ?_, ?_⟩
      · conv_lhs => unfold parseLoop
        rw [if_neg hcommand, if_neg hplain, if_neg hconfig, if_neg houtput, if_neg hpath]
        simp only [if_pos hvalue]
      · conv_lhs => unfold groupArgs
        rw [if_neg hcommand, if_neg hplain, if_neg hconfig, if_neg houtput, if_neg hpath]
        simp only [if_pos hvalue]
      · simp only [joinWords_cons, reduceCtorEq, if_false]
        by_cases hrest : rest = [] <;> simp [hrest]
    · refine ⟨word, findCommand, value :: rest, List.cons_ne_nil _ _, fun a => ?_, ?_, rfl⟩
      · conv_lhs => unfold parseLoop
        rw [if_neg hcommand, if_neg hplain, if_neg hconfig, if_neg houtput, if_neg hpath]
        simp only [if_neg hvalue]
      · conv_lhs => unfold groupArgs
        rw [if_neg hcommand, if_neg hplain, if_neg hconfig, if_neg houtput, if_neg hpath]
        simp only [if_neg hvalue]

/-- Every pass stores an entry or loses a word. The cases are the tests of `parse_args`
in their order. -/
theorem taken_or_lost (findCommand : Bool) (word : Word) (rest : List Word) :
    (∃ entry next left, Taken findCommand (word :: rest) entry next left) ∨
      Lost findCommand (word :: rest) := by
  by_cases hcommand : isCommand word = true
  · right
    refine ⟨fun a result hok => ?_, by unfold groupArgs; rw [if_pos hcommand]⟩
    unfold parseLoop at hok
    rw [if_pos hcommand] at hok
    refine ⟨_, _, _, hok, by rw [weight_cons]; omega, rfl, fun hnamed => ?_⟩
    exact ⟨hnamed.configFile, fun w hw => Option.some.inj hw ▸ hcommand⟩
  by_cases hplain : (!isOption word && findCommand) = true
  · left
    refine ⟨word, false, rest, List.cons_ne_nil _ _, fun a => ?_, ?_, rfl⟩
    · conv_lhs => unfold parseLoop
      rw [if_neg hcommand, if_pos hplain]
    · conv_lhs => unfold groupArgs
      rw [if_neg hcommand, if_pos hplain]
  by_cases hconfig : namesConfig word = true
  · right
    refine ⟨fun a result hok => ?_,
      by unfold groupArgs; rw [if_neg hcommand, if_neg hplain, if_pos hconfig]⟩
    unfold parseLoop at hok
    rw [if_neg hcommand, if_neg hplain, if_pos hconfig, bind_eq_ok] at hok
    obtain ⟨b, hstore, hok⟩ := hok
    exact ⟨_, b, _, hok, by rw [weight_cons]; omega, args_storeConfig hstore,
      fun hnamed => hnamed.storeConfig hconfig hstore⟩
  by_cases houtput : "-o".toList <+: word
  · right
    refine .of_value (fun a value => { a with outputFile := value }) (fun a => ?_) ?_
      (fun _ _ => rfl) fun _ _ hnamed => ⟨hnamed.configFile, hnamed.command⟩
    · conv_lhs => unfold parseLoop
      rw [if_neg hcommand, if_neg hplain, if_neg hconfig, if_pos houtput]
    · unfold groupArgs
      rw [if_neg hcommand, if_neg hplain, if_neg hconfig, if_pos houtput]
  by_cases hpath : "-p".toList <+: word
  · right
    refine .of_value (fun a value => { a with soPath := value }) (fun a => ?_) ?_
      (fun _ _ => rfl) fun _ _ hnamed => ⟨hnamed.configFile, hnamed.command⟩
    · conv_lhs => unfold parseLoop
      rw [if_neg hcommand, if_neg hplain, if_neg hconfig, if_neg houtput, if_pos hpath]
    · unfold groupArgs
      rw [if_neg hcommand, if_neg hplain, if_neg hconfig, if_neg houtput, if_pos hpath]
  · exact .inl (exists_taken hcommand hplain hconfig houtput hpath)

/-- Induction over the passes of the loop. -/
@[elab_as_elim]
theorem passes_induction {motive : Bool → List Word → Prop}
    (nil : ∀ findCommand, motive findCommand [])
    (taken : ∀ findCommand words entry next rest, Taken findCommand words entry next rest →
      motive next rest → motive findCommand words)
    (lost : ∀ findCommand words, Lost findCommand words →
      (∀ next rest, weight rest < weight words → motive next rest) → motive findCommand words)
    (findCommand : Bool) (words : List Word) : motive findCommand words := by
  induction hweight : weight words using Nat.strong_induction_on generalizing findCommand words with
  | _ size ih =>
    subst hweight
    cases words with
    | nil => exact nil findCommand
    | cons word words =>
      rcases taken_or_lost findCommand word words with ⟨entry, next, rest, htaken⟩ | hlost
      · refine taken _ _ _ _ _ htaken (ih _ ?_ next rest rfl)
        rw [htaken.weight_eq]
        omega
      · exact lost _ _ hlost fun next rest hlt => ih _ hlt next rest rfl

/-! ## The whole loop -/

/-- Words that form entries are stored as these entries, while there is room. -/
theorem parseLoop_entries (hentries : groupArgs findCommand words = some entries)
    (hroom : a.args.length ≤ maxArgs) :
    parseLoop findCommand a words = .ok result ↔
      a.args.length + entries.length ≤ maxArgs ∧
        result = { a with args := a.args ++ entries } := by
  induction findCommand, words using passes_induction generalizing a entries with
  | nil findCommand =>
    obtain rfl : [] = entries := Option.some.inj hentries
    simp only [parseLoop, Except.ok.injEq, List.length_nil, List.append_nil, Nat.add_zero,
      hroom, true_and]
    exact eq_comm
  | taken findCommand words entry next rest htaken ih =>
    rw [htaken.group, Option.map_eq_some_iff] at hentries
    obtain ⟨tail, htail, rfl⟩ := hentries
    rw [htaken.parse, bind_eq_ok]
    exact store_entries_iff fun b hb => ih htail hb
  | lost findCommand words hlost _ =>
    rw [hlost.group] at hentries
    cases hentries

/-- No more is stored than there was, and when nothing is lost the words form entries. -/
theorem parseLoop_weight (hok : parseLoop findCommand a words = .ok result) :
    weight result.args ≤ weight a.args + weight words ∧
      (weight result.args = weight a.args + weight words →
        (groupArgs findCommand words).isSome = true) := by
  induction findCommand, words using passes_induction generalizing a with
  | nil findCommand =>
    obtain rfl : a = result := Except.ok.inj hok
    simp [groupArgs]
  | taken findCommand words entry next rest htaken ih =>
    rw [htaken.parse, bind_eq_ok] at hok
    obtain ⟨b, hstore, hok⟩ := hok
    obtain ⟨hle, hkept⟩ := ih hok
    rw [weight_store hstore] at hle hkept
    rw [htaken.weight_eq, htaken.group, Option.isSome_map]
    exact ⟨by omega, fun heq => hkept (by omega)⟩
  | lost findCommand words hlost ih =>
    obtain ⟨next, b, rest, hrest, hlt, hargs, -⟩ := hlost.parse a result hok
    have hle := (ih next rest hlt hrest).1
    rw [hargs] at hle
    exact ⟨by omega, fun heq => by omega⟩

/-- The loop keeps the names. -/
theorem Named.parseLoop (hnamed : Named a) (hok : parseLoop findCommand a words = .ok result) :
    Named result := by
  induction findCommand, words using passes_induction generalizing a with
  | nil findCommand =>
    obtain rfl : a = result := Except.ok.inj hok
    exact hnamed
  | taken findCommand words entry next rest htaken ih =>
    rw [htaken.parse, bind_eq_ok] at hok
    obtain ⟨b, hstore, hok⟩ := hok
    exact ih (hnamed.store hstore) hok
  | lost findCommand words hlost ih =>
    obtain ⟨next, b, rest, hrest, hlt, -, hkeeps⟩ := hlost.parse a result hok
    exact ih next rest hlt (hkeeps hnamed) hrest

/-- Joining entries gives the joined words. -/
theorem joinWords_groupArgs (hentries : groupArgs findCommand words = some entries) :
    joinWords entries = joinWords words ∧ (entries = [] ↔ words = []) := by
  induction findCommand, words using passes_induction generalizing entries with
  | nil findCommand =>
    obtain rfl : [] = entries := Option.some.inj hentries
    exact ⟨rfl, Iff.rfl⟩
  | taken findCommand words entry next rest htaken ih =>
    rw [htaken.group, Option.map_eq_some_iff] at hentries
    obtain ⟨tail, htail, rfl⟩ := hentries
    obtain ⟨hjoin, hnil⟩ := ih htail
    rw [htaken.join, joinWords_cons, joinWords_cons, hjoin]
    simp [hnil, htaken.nonempty]
  | lost findCommand words hlost _ =>
    rw [hlost.group] at hentries
    cases hentries

/-! ## The round trip -/

/-- `-o` with its value sets the output file. -/
theorem parseLoop_output (value : Option Word) (rest : List Word) :
    parseLoop false a (optionWords "-o".toList value ++ rest) =
      parseLoop false { a with outputFile := value.or a.outputFile } rest := by
  cases value with
  | none => rfl
  | some value =>
    rw [optionWords, List.cons_append, List.cons_append, List.nil_append]
    conv_lhs => unfold parseLoop
    rw [if_neg (by decide), if_neg (by decide), if_neg (by decide), if_pos (by decide)]
    rfl

/-- `-p` with its value sets the shared object. -/
theorem parseLoop_path (value : Option Word) (rest : List Word) :
    parseLoop false a (optionWords "-p".toList value ++ rest) =
      parseLoop false { a with soPath := value.or a.soPath } rest := by
  cases value with
  | none => rfl
  | some value =>
    rw [optionWords, List.cons_append, List.cons_append, List.nil_append]
    conv_lhs => unfold parseLoop
    rw [if_neg (by decide), if_neg (by decide), if_neg (by decide), if_neg (by decide),
      if_pos (by decide)]
    rfl

/-- The words before the arguments are read as documented when they pass their tests. -/
theorem parseArgs_words {program : Word} {l : CommandLine}
    (hconfig : namesConfig l.configFile = true) (hcommand : isCommand l.command = true) :
    parseArgs (program :: l.words) =
      parseLoop true ⟨l.configFile, [l.configFile], l.outputFile,
        some (l.soPath.getD "./logger.so".toList), some l.command, []⟩ l.args := by
  have hnotCommand : ¬ isCommand l.configFile = true := by simp [isCommand, hconfig]
  rw [parseArgs, List.tail_cons, CommandLine.words, List.cons_append, List.cons_append]
  conv_lhs => unfold parseLoop
  rw [if_neg hnotCommand, if_neg (by simp), if_pos hconfig]
  have hstore : Args.storeConfig
      ⟨"config.txt".toList, [], none, some "./logger.so".toList, none, []⟩ l.configFile =
        .ok ⟨l.configFile, [l.configFile], none, some "./logger.so".toList, none, []⟩ := rfl
  rw [hstore]
  show parseLoop false _ _ = _
  rw [List.append_assoc, parseLoop_output, parseLoop_path]
  conv_lhs => unfold parseLoop
  rw [if_pos hcommand]
  cases l.outputFile <;> cases l.soPath <;> rfl

/-- A documented command line comes back exactly when its configuration file and its
command pass their tests and the words behind the command form fewer than 512 entries. -/
theorem recoversLine_iff (program : Word) (l : CommandLine) :
    RecoversLine program l ↔ Documented l := by
  constructor
  · rintro ⟨a, hok, hconfig, -, -, hcommand, hroom, hjoin⟩
    have hnamed : Named a := by
      apply Named.parseLoop (a := _) _ hok
      exact ⟨by decide, fun word hword => by cases hword⟩
    have hconfig' : namesConfig l.configFile = true := hconfig ▸ hnamed.configFile
    have hcommand' : isCommand l.command = true := hnamed.command _ hcommand
    refine ⟨hconfig', hcommand', ?_⟩
    rw [parseArgs_words hconfig' hcommand'] at hok
    have hweight : weight a.args = weight l.args := by
      have hle := (parseLoop_weight hok).1
      rw [weight_nil, Nat.zero_add] at hle
      rw [weight_eq, weight_eq l.args, hjoin] at hle ⊢
      by_cases hempty : l.args = []
      · simp only [hempty, joinWords, List.length_nil, if_true] at hle ⊢
        omega
      · have hlost : a.args ≠ [] := by
          intro hnil
          rw [hnil] at hjoin
          exact joinWords_ne_nil hempty l.nonempty hjoin.symm
        simp [hempty, hlost]
    obtain ⟨entries, hentries⟩ := Option.isSome_iff_exists.mp
      ((parseLoop_weight hok).2 (by rw [weight_nil, Nat.zero_add]; exact hweight))
    obtain ⟨-, hresult⟩ := (parseLoop_entries hentries (Nat.zero_le _)).mp hok
    refine ⟨entries, hentries, ?_⟩
    rw [hresult] at hroom
    exact hroom
  · rintro ⟨hconfig, hcommand, entries, hentries, hroom⟩
    have hok := (parseLoop_entries (a := ⟨l.configFile, [l.configFile], l.outputFile,
      some (l.soPath.getD "./logger.so".toList), some l.command, []⟩) hentries (Nat.zero_le _)).mpr
        ⟨by simpa using Nat.le_of_lt hroom, rfl⟩
    exact ⟨_, (parseArgs_words hconfig hcommand).trans hok, rfl, rfl, rfl, rfl, hroom,
      (joinWords_groupArgs hentries).1⟩

/-- `logger config.txt ./prog x my_config.txt`. -/
def mentioningLine : CommandLine where
  configFile := "config.txt".toList
  outputFile := none
  soPath := none
  command := "./prog".toList
  args := ["x".toList, "my_config.txt".toList]
  nonempty := by decide

/-- The argument that contains `config.txt` is dropped. -/
theorem not_recoversLine_mentioning :
    ¬ ∀ (program : Word) (l : CommandLine), RecoversLine program l := by
  intro hall
  obtain ⟨a, hok, -, -, -, -, -, hjoin⟩ := hall "./logger".toList mentioningLine
  have hparse : (parseArgs ("./logger".toList :: mentioningLine.words)).toOption.map Args.args =
      some ["x".toList] := by decide +kernel
  rw [hok] at hparse
  have hargs : a.args = ["x".toList] := Option.some.inj hparse
  rw [hargs] at hjoin
  revert hjoin
  decide

end UnixProgramming.Logger
