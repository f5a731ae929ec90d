import UnixProgramming.Logger.Arguments
import UnixProgramming.Logger.Memory

/-!
# The sizes of the buffers

The remaining functions over arrays of the sizes that the source gives them: the array of
rules that `check_blacklist` grows by one cell for every rule, the copies that
`handle_symbolic_link` allocates, and the two texts of 256 characters. For every input of
one of the functions this file says whether all of its accesses stay inside. The rules that
`check_blacklist` records are those that it returns over lists, by
`checkBlacklist_of_collectIn`.
-/

namespace UnixProgramming.Logger

/-! ## The configuration -/

/-- The size of `line`. -/
def lineSize : ℕ := 256

/-- A terminator in the place of a newline at `line[strlen(line) - 1]`. -/
def dropNewlineIn (line : Buffer Char lineSize) (s : List Char) :
    Except Fault (Buffer Char lineSize) := do
  let last ← access s.getLast?
  if last = '\n' then access (line.store (s.length - 1) '\x00') else pure line

/-- One `fgets` into `line`, and the line without its newline. -/
def stripNewlineIn (line : Buffer Char lineSize) (text : List Char) :
    Except Fault (Buffer Char lineSize × List Char) := do
  let line ← access (line.strcpy '\x00' text)
  let s ← access (line.string '\x00')
  let line ← dropNewlineIn line s
  let s ← access (line.string '\x00')
  pure (line, s)

/-- The reading loop of `check_blacklist`: the rules that are recorded. -/
def collectIn (beginMarker endMarker : List Char) : Buffer Char lineSize → Bool →
    List (List Char) → List (List Char) → Except Fault (List (List Char))
  | _, _, blacklist, [] => .ok blacklist
  | line, inBlacklist, blacklist, text :: texts => do
    let (line, s) ← stripNewlineIn line text
    if s = beginMarker then collectIn beginMarker endMarker line true blacklist texts
    else if s = endMarker then pure blacklist
    else if inBlacklist then
      collectIn beginMarker endMarker line inBlacklist (blacklist ++ [s]) texts
    else collectIn beginMarker endMarker line inBlacklist blacklist texts

/-- `blacklist[record] = NULL`, on the array that was reallocated for every rule. -/
def terminate : List (List Char) → Except Fault (List (Option (List Char)))
  | [] => .error .nullPointer
  | rule :: rules => do
    let blacklist : Buffer (Option (List Char)) (rules.length + 1) :=
      ⟨(rule :: rules).map some, by simp⟩
    let blacklist ← access (blacklist.store (rules.length + 1) none)
    pure blacklist.cells

/-- `check_blacklist`, with the content that `line` has before the first `fgets`. Before the NULL is
stored, the array holds what `checkBlacklist` returns, see `checkBlacklist_of_collectIn`. -/
def checkBlacklistIn (fresh : ℕ → Char) (file : Option (List Char))
    (beginMarker endMarker : List Char) : Except Fault (Option (List (Option (List Char)))) :=
  match file with
  | none => .ok none
  | some text => do
    let rules ← collectIn beginMarker endMarker (.ofFn fresh lineSize) false []
      (readLines '\n' lineLimit text.length text)
    let blacklist ← terminate rules
    pure (some blacklist)

/-! ## The other functions -/

/-- `realname`: a copy of a text in as many bytes, and the terminator behind it. -/
def copyName (fresh : ℕ → Char) (text : List Char) : Except Fault Path := do
  let realname ← access ((Buffer.ofFn fresh text.length).strncpy text)
  let realname ← access (realname.store text.length '\x00')
  pure realname.cells

/-- `handle_symbolic_link`. The text of a link is first read into `buf`, of `st_size + 1` bytes or
of `PATH_MAX`. -/
def handleSymbolicLinkIn (fresh : ℕ → Char) (u : Unspecified) (stat : LinkStat)
    (filename : CString) : Except Fault Path :=
  match stat with
  | .missing => if u.staleLink then .error .exit else copyName fresh filename.chars
  | .other => copyName fresh filename.chars
  | .link target stSize => do
    let bufsiz := if stSize = 0 then pathMax else stSize + 1
    let buf ← access ((Buffer.ofFn fresh bufsiz).strncpy (target.take bufsiz))
    copyName fresh (buf.cells.take (target.take bufsiz).length)

/-- The size of `config_file` and of `command`. -/
def textSize : ℕ := 256

/-- The text `config_file` that the wrappers assemble, with the value of `SOLVER_CONFIG`. -/
def assembleConfigFile (solverConfig : Option CString) :
    Except Fault (Buffer Char textSize) := do
  let configFile ← access ((Buffer.filled '\x00' textSize).strcat '\x00' "./".toList)
  match solverConfig with
  | none => .error .nullPointer
  | some name => access (configFile.strcat '\x00' name.chars)

/-- The string of a word in memory. -/
def wordString (word : Word) : List Char := cstring '\x00' word

/-- The loop that adds the arguments, on the entries of `arg_check` up to NULL. -/
def appendArgs : Buffer Char textSize → List (Option Word) → Except Fault (Buffer Char textSize)
  | _, [] => .error .outOfBounds
  | command, none :: _ => .ok command
  | command, some word :: entries => do
    let command ← access (command.strcat '\x00' [' '])
    let command ← access (command.strcat '\x00' (wordString word))
    appendArgs command entries

/-- `arg_check`: the entries that were stored, and NULLs up to its size. -/
def argCheck (a : Args) : List (Option Word) :=
  a.args.map some ++ List.replicate (maxArgs - a.args.length) none

/-- The redirection that is added when there is an output file. -/
def appendOutput (command : Buffer Char textSize) :
    Option Word → Except Fault (Buffer Char textSize)
  | none => .ok command
  | some file => do
    let command ← access (command.strcat '\x00' " 2> ".toList)
    access (command.strcat '\x00' (wordString file))

/-- The text `command` that `main` assembles. -/
def assembleCommand (a : Args) : Except Fault (Buffer Char textSize) :=
  match a.command with
  | none => .error .nullPointer
  | some word => do
    let command ← access ((Buffer.filled '\x00' textSize).strcat '\x00' (wordString word))
    let command ← appendOutput command a.outputFile
    appendArgs command (argCheck a)

/-- `main` up to the assembled command. An entry that `parse_args` stores behind `arg_check` or
`N_config` is a fault. With no value for `LD_PRELOAD`, `setenv` ends the process before the
command is assembled. -/
def commandSite (argv : List CString) : Except Fault Unit := do
  let a ← parseArgs (argv.map CString.chars)
  if a.soPath.isSome then (assembleCommand a).map fun _ => () else .ok ()

/-! ## All functions -/

/-- A call of one of the functions, with everything that it reads. -/
inductive Site
  | checkBlacklist (file : Option (List Char)) (beginMarker endMarker : List Char)
  | handleSymbolicLink (u : Unspecified) (stat : LinkStat) (filename : CString)
  | compareBlacklist (st : Statics) (filename : CString)
      (blacklist : Option (List (Option CString)))
  | handleFilename (st : Statics) (filename : CString) (extension : ℕ)
  | configFile (solverConfig : Option CString)
  | command (argv : List CString)

/-- How a call ends. -/
def Site.run (fresh : ℕ → Char) : Site → Except Fault Unit
  | .checkBlacklist file beginMarker endMarker =>
    (checkBlacklistIn fresh file beginMarker endMarker).map fun _ => ()
  | .handleSymbolicLink u stat filename =>
    (handleSymbolicLinkIn fresh u stat filename).map fun _ => ()
  | .compareBlacklist st filename blacklist =>
    (compareBlacklistIn fresh st filename blacklist).map fun _ => ()
  | .handleFilename st filename extension =>
    (handleFilenameIn st filename extension).map fun _ => ()
  | .configFile solverConfig => (assembleConfigFile solverConfig).map fun _ => ()
  | .command argv => commandSite argv

/-- All accesses of a call stay inside: it returns, or it ends the process itself. -/
def Site.Inside (fresh : ℕ → Char) (site : Site) : Prop := FailsWith (· = .exit) (site.run fresh)

/-- The strings of a redirection. -/
def outputStrings : Option Word → List (List Char)
  | none => []
  | some file => [" 2> ".toList, wordString file]

/-- The strings of the arguments. -/
def argStrings (args : List Word) : List (List Char) :=
  args.flatMap fun arg => [[' '], wordString arg]

/-- The text that a command is assembled to. -/
def commandText (a : Args) (word : Word) : List Char :=
  (wordString word :: (outputStrings a.outputFile ++ argStrings a.args)).flatten

/-- The inputs for which all accesses of a call stay inside. -/
def Site.Fits : Site → Prop
  | .checkBlacklist file _ _ => file = none
  | .handleSymbolicLink u stat _ => stat = .missing ∧ u.staleLink = true
  | .compareBlacklist _ filename blacklist =>
    ∀ array, blacklist = some array → ArrayInside filename array
  | .handleFilename _ filename _ => LastPartFits filename
  | .configFile solverConfig => ∃ name, solverConfig = some name ∧ name.chars.length ≤ 253
  | .command argv => ∃ a, parseArgs (argv.map CString.chars) = .ok a ∧ (a.soPath.isSome →
    ∃ word, a.command = some word ∧ (commandText a word).length ≤ 255 ∧ a.args.length < maxArgs)

variable {fresh : ℕ → Char} {α : Type}

/-! ## Faults -/

/-- A call that does not end the process itself stays inside exactly when it returns. -/
theorem failsWith_exit_iff {x : Except Fault α} (hmemory : FailsWith (· ≠ .exit) x) :
    FailsWith (· = .exit) x ↔ ∃ a, x = .ok a := by
  cases x with
  | error fault =>
    have hfault := hmemory fault rfl
    exact iff_of_false (fun hexit => hfault (hexit fault rfl)) (by simp)
  | ok a => exact iff_of_true .ok ⟨a, rfl⟩

/-- A fault that is not the end of the process itself is an access outside. -/
theorem not_failsWith_exit {fault : Fault} (hfault : fault ≠ .exit) :
    ¬FailsWith (· = .exit) (.error fault : Except Fault α) :=
  fun hexit => hfault (hexit fault rfl)

/-- An access ends in no other way than by returning or by falling outside. -/
theorem failsWith_access (found : Option α) : FailsWith (· ≠ .exit) (access found) := by
  cases found with
  | none => exact .error (by simp)
  | some a => exact .ok

/-- What a call returns does not matter for its faults. -/
theorem failsWith_map_iff {P : Fault → Prop} {β : Type} {x : Except Fault α} {f : α → β} :
    FailsWith P (x.map f) ↔ FailsWith P x := by
  cases x with
  | error fault => exact ⟨fun h => .error (h fault rfl), fun h => .error (h fault rfl)⟩
  | ok a => exact ⟨fun _ => .ok, fun _ => .ok⟩

/-! ## The configuration -/

/-- The terminating NULL of a list of rules has no room, or no array. -/
theorem terminate_error (rules : List (List Char)) :
    ∃ fault, terminate rules = .error fault ∧ fault ≠ .exit := by
  cases rules with
  | nil => exact ⟨.nullPointer, rfl, by simp⟩
  | cons rule rules =>
    refine ⟨.outOfBounds, ?_, by simp⟩
    rw [terminate, Buffer.store_eq_none _ _ (Nat.le_refl _)]
    rfl

/-- The reading loop fails by an access only. -/
theorem failsWith_collectIn (beginMarker endMarker : List Char) (line : Buffer Char lineSize)
    (inBlacklist : Bool) (blacklist texts : List (List Char)) :
    FailsWith (· ≠ .exit)
      (collectIn beginMarker endMarker line inBlacklist blacklist texts) := by
  induction texts generalizing line inBlacklist blacklist with
  | nil => exact .ok
  | cons text texts ih =>
    have hdrop (line : Buffer Char lineSize) (s : List Char) :
        FailsWith (· ≠ .exit) (dropNewlineIn line s) := by
      refine .bind (failsWith_access _) fun last _ => ?_
      split
      · exact failsWith_access _
      · exact .ok
    have hstrip : FailsWith (· ≠ .exit) (stripNewlineIn line text) :=
      .bind (failsWith_access _) fun _ _ => .bind (failsWith_access _) fun s _ =>
        .bind (hdrop _ s) fun _ _ => .bind (failsWith_access _) fun _ _ => .ok
    rw [collectIn]
    refine .bind hstrip fun (line, s) _ => ?_
    dsimp only
    split
    · exact ih _ _ _
    split
    · exact .ok
    split
    · exact ih _ _ _
    · exact ih _ _ _

/-- The line that `check_blacklist` compares is the stripped one. -/
theorem stripNewlineIn_eq {line line' : Buffer Char lineSize} {text s : List Char}
    (hstrip : stripNewlineIn line text = .ok (line', s)) : s = stripNewline text := by
  simp only [stripNewlineIn, dropNewlineIn, bind_eq_ok, access_eq_ok, pure_eq_ok] at hstrip
  obtain ⟨line₁, hcopy, t, ht, line₂, ⟨last, hlast, hdrop⟩, s', hs', heq⟩ := hstrip
  obtain ⟨rfl, rfl⟩ := Prod.mk.inj heq
  have hcells := (Buffer.strcpy_eq_some_iff.mp hcopy).2
  have hread : t = cstring '\x00' text := by
    rw [Buffer.string, hcells, if_pos (by simp), Option.some.injEq] at ht
    rw [← ht]
    by_cases hmem : '\x00' ∈ text
    · exact cstring_append_of_mem hmem _
    · rw [cstring_append hmem (by simp), cstring_eq_self hmem]
  simp only [stripNewline, ← hread, hlast, Option.some.injEq]
  by_cases hnewline : last = '\n'
  · rw [if_pos hnewline] at hdrop ⊢
    obtain ⟨hfree, rest, hstart⟩ := Buffer.string_eq_some_iff.mp ht
    have hlength : t.length - 1 < lineSize := by
      have := congrArg List.length hstart
      rw [line₁.length_eq, List.length_append, List.length_cons] at this
      omega
    obtain ⟨b, hb, hstored⟩ := line₁.exists_store '\x00' hlength
    obtain rfl := Option.some.inj ((access_eq_ok.mp hdrop).symm.trans hb)
    have htake : line₁.cells.take (t.length - 1) = t.dropLast := by
      rw [hstart, List.take_append_of_le_length (by omega), List.dropLast_eq_take]
    rw [htake] at hstored
    have hstring := Buffer.string_eq_some_iff.mpr
      ⟨fun hmem => hfree (List.dropLast_subset _ hmem), _, hstored⟩
    exact Option.some.inj (hs'.symm.trans hstring)
  · rw [if_neg hnewline] at hdrop ⊢
    obtain rfl := pure_eq_ok.mp hdrop
    exact Option.some.inj (hs'.symm.trans ht)

/-- Where the reading loop returns, it has recorded the rules that the one on lists collects. -/
theorem collectIn_eq {beginMarker endMarker : List Char} {line : Buffer Char lineSize}
    {inBlacklist : Bool} {blacklist texts rules : List (List Char)}
    (hloop : collectIn beginMarker endMarker line inBlacklist blacklist texts = .ok rules) :
    rules = collect beginMarker endMarker inBlacklist blacklist (texts.map stripNewline) := by
  induction texts generalizing line inBlacklist blacklist with
  | nil => exact (Except.ok.inj hloop).symm
  | cons text texts ih =>
    rw [collectIn, bind_eq_ok] at hloop
    obtain ⟨⟨line', s⟩, hstrip, hloop⟩ := hloop
    obtain rfl := stripNewlineIn_eq hstrip
    dsimp only at hloop
    rw [List.map_cons, collect]
    split at hloop
    · rw [if_pos ‹_›]
      exact ih hloop
    rw [if_neg ‹_›]
    split at hloop
    · rw [if_pos ‹_›]
      exact (pure_eq_ok.mp hloop).symm
    rw [if_neg ‹_›]
    split at hloop
    · rw [if_pos ‹_›]
      exact ih hloop
    · rw [if_neg ‹_›]
      exact ih hloop

/-- The recorded rules are those that the function on lists returns. -/
theorem checkBlacklist_of_collectIn {text rule beginMarker endMarker : List Char}
    {rules : List (List Char)}
    (hloop : collectIn beginMarker endMarker (.ofFn fresh lineSize) false []
      (readLines '\n' lineLimit text.length text) = .ok (rule :: rules)) :
    checkBlacklist (some text) beginMarker endMarker = .ok (some (rule :: rules)) := by
  simp only [checkBlacklist, ← collectIn_eq hloop]

/-- An opened configuration is not read without an access outside. -/
theorem checkBlacklist_inside_iff (file : Option (List Char)) (beginMarker endMarker : List Char) :
    FailsWith (· = .exit) (checkBlacklistIn fresh file beginMarker endMarker) ↔ file = none := by
  cases file with
  | none => exact iff_of_true .ok rfl
  | some text =>
    refine iff_of_false (fun hexit => ?_) (Option.some_ne_none text)
    rw [checkBlacklistIn] at hexit
    cases hrules : collectIn beginMarker endMarker (.ofFn fresh lineSize) false []
        (readLines '\n' lineLimit text.length text) with
    | error fault =>
      rw [hrules] at hexit
      exact failsWith_collectIn _ _ _ _ _ _ fault hrules (hexit fault rfl)
    | ok rules =>
      obtain ⟨fault, hterminate, hfault⟩ := terminate_error rules
      rw [hrules, ok_bind, hterminate] at hexit
      exact hfault (hexit fault rfl)

/-! ## Links -/

/-- The terminator of a copied name falls outside. -/
theorem copyName_error (text : List Char) : copyName fresh text = .error .outOfBounds := by
  obtain ⟨b, hb, -⟩ := (Buffer.ofFn fresh text.length).exists_strncpy (s := text) (Nat.le_refl _)
  rw [copyName, hb, access_some, ok_bind, Buffer.store_eq_none _ _ (Nat.le_refl _)]
  rfl

/-- The name that is copied is the one that the function on lists returns. -/
theorem handleSymbolicLinkIn_eq (u : Unspecified) (stat : LinkStat) (filename : CString) :
    handleSymbolicLinkIn fresh u stat filename =
      handleSymbolicLink u stat filename.chars >>= copyName fresh := by
  cases stat with
  | missing =>
    rw [handleSymbolicLinkIn, handleSymbolicLink]
    split <;> rfl
  | other => rfl
  | link target stSize =>
    obtain ⟨b, hb, hcells⟩ := (Buffer.ofFn fresh (if stSize = 0 then pathMax else stSize + 1)
      ).exists_strncpy (List.length_take_le _ target)
    simp only [handleSymbolicLinkIn, handleSymbolicLink, hb, access_some, ok_bind]
    rw [hcells, List.take_left]

/-- A name that is there is not looked up without an access outside. -/
theorem handleSymbolicLink_inside_iff (u : Unspecified) (stat : LinkStat) (filename : CString) :
    FailsWith (· = .exit) (handleSymbolicLinkIn fresh u stat filename) ↔
      stat = .missing ∧ u.staleLink = true := by
  have hlook : (stat = .missing ∧ u.staleLink = true ∧
      handleSymbolicLink u stat filename.chars = .error .exit) ∨
      ¬(stat = .missing ∧ u.staleLink = true) ∧
        ∃ name, handleSymbolicLink u stat filename.chars = .ok name := by
    cases stat <;> cases hstale : u.staleLink <;> simp [handleSymbolicLink, hstale]
  rw [handleSymbolicLinkIn_eq]
  obtain ⟨hmissing, hstale, hexit⟩ | ⟨hthere, name, hname⟩ := hlook
  · rw [hexit]
    exact iff_of_true (.error rfl) ⟨hmissing, hstale⟩
  · rw [hname, ok_bind, copyName_error]
    exact iff_of_false (not_failsWith_exit (by decide)) hthere

/-! ## Texts -/

variable {command : Buffer Char textSize} {a : Args} {word : Word}

/-- No terminator is in the strings of a command. -/
theorem nul_notMem_commandStrings {s : List Char}
    (hs : s ∈ wordString word :: (outputStrings a.outputFile ++ argStrings a.args)) :
    '\x00' ∉ s := by
  have hword (word : Word) : '\x00' ∉ wordString word :=
    fun hmem => by simpa using List.mem_takeWhile_imp hmem
  rw [List.mem_cons, List.mem_append] at hs
  obtain rfl | hs | hs := hs
  · exact hword word
  · cases hfile : a.outputFile with
    | none => simp [hfile, outputStrings] at hs
    | some file =>
      simp only [hfile, outputStrings, List.mem_cons, List.not_mem_nil, or_false] at hs
      obtain rfl | rfl := hs
      · decide
      · exact hword file
  · simp only [argStrings, List.mem_flatMap, List.mem_cons, List.not_mem_nil, or_false] at hs
    obtain ⟨arg, -, rfl | rfl⟩ := hs
    · decide
    · exact hword arg

/-- The redirection adds its strings. -/
theorem appendOutput_eq (command : Buffer Char textSize) (outputFile : Option Word) :
    appendOutput command outputFile =
      access (command.strcatAll '\x00' (outputStrings outputFile)) := by
  cases outputFile with
  | none => rfl
  | some file =>
    simp only [appendOutput, outputStrings, Buffer.strcatAll, access_bind]
    exact congrArg _ (funext fun b => (bind_pure _).symm)

/-- The loop over the arguments adds their strings, and needs a NULL behind the last one. -/
theorem appendArgs_eq (command : Buffer Char textSize) (args : List Word) (k : ℕ) :
    appendArgs command (args.map some ++ List.replicate k none) =
      access (command.strcatAll '\x00' (argStrings args)) >>=
        fun b => if 0 < k then .ok b else .error .outOfBounds := by
  induction args generalizing command with
  | nil => cases k <;> rfl
  | cons arg args ih =>
    simp only [argStrings] at ih
    simp only [List.map_cons, List.cons_append, appendArgs, ih, argStrings, List.flatMap_cons,
      List.nil_append, Buffer.strcatAll, access_bind, bind_assoc]

/-- A command is assembled by adding its strings, and needs a NULL behind the arguments. -/
theorem assembleCommand_eq (hcommand : a.command = some word) :
    assembleCommand a = access ((Buffer.filled '\x00' textSize).strcatAll '\x00'
        (wordString word :: (outputStrings a.outputFile ++ argStrings a.args))) >>=
      fun b => if 0 < maxArgs - a.args.length then .ok b else .error .outOfBounds := by
  simp only [assembleCommand, hcommand, argCheck, appendArgs_eq, appendOutput_eq,
    Buffer.strcatAll, Buffer.strcatAll_append, access_bind, bind_assoc]

/-- The command is assembled exactly when there is one, its text fits, and the arguments leave
room for a NULL. -/
theorem assembleCommand_returns_iff :
    (∃ b, assembleCommand a = .ok b) ↔ ∃ word, a.command = some word ∧
      (commandText a word).length ≤ 255 ∧ a.args.length < maxArgs := by
  cases hcommand : a.command with
  | none => simp [assembleCommand, hcommand]
  | some word =>
    have hroom : ((Buffer.filled '\x00' textSize).strcatAll '\x00'
        (wordString word :: (outputStrings a.outputFile ++ argStrings a.args))).isSome ↔
        (commandText a word).length < textSize :=
      Buffer.strcatAll_isSome_iff (Buffer.string_filled '\x00' (by decide))
        fun s hs => nul_notMem_commandStrings hs
    rw [assembleCommand_eq hcommand]
    have hsize : (commandText a word).length < textSize ↔ (commandText a word).length ≤ 255 :=
      Nat.lt_succ_iff
    have hnull : a.args.length < maxArgs ↔ 0 < maxArgs - a.args.length := Nat.sub_pos_iff_lt.symm
    simp only [Option.some.injEq, exists_eq_left', ← hsize, ← hroom, hnull]
    cases (Buffer.filled '\x00' textSize).strcatAll '\x00'
      (wordString word :: (outputStrings a.outputFile ++ argStrings a.args)) with
    | none => simp [error_bind]
    | some b => by_cases hnull : 0 < maxArgs - a.args.length <;> simp [ok_bind, hnull]

/-- Assembling a command fails by an access only. -/
theorem failsWith_assembleCommand (a : Args) : FailsWith (· ≠ .exit) (assembleCommand a) := by
  cases hcommand : a.command with
  | none =>
    rw [assembleCommand, hcommand]
    exact .error (by simp)
  | some word =>
    rw [assembleCommand_eq hcommand]
    refine .bind (failsWith_access _) fun b _ => ?_
    split
    · exact .ok
    · exact .error (by simp)

/-- The name of the configuration is assembled exactly when `SOLVER_CONFIG` is set to at most
253 characters. -/
theorem assembleConfigFile_returns_iff {solverConfig : Option CString} :
    (∃ b, assembleConfigFile solverConfig = .ok b) ↔
      ∃ name, solverConfig = some name ∧ name.chars.length ≤ 253 := by
  obtain ⟨b, hb, hstring⟩ := Buffer.exists_strcat (s := "./".toList)
    (Buffer.string_filled '\x00' (show 0 < textSize by decide)) (by decide) (by decide)
  rw [assembleConfigFile, hb, access_some, ok_bind]
  cases solverConfig with
  | none => simp
  | some name =>
    simp only [access_eq_ok, Option.some.injEq, exists_eq_left']
    constructor
    · rintro ⟨b', hb'⟩
      have hlength := ((Buffer.strcat_eq_some_iff hstring).mp hb').1
      simp only [List.nil_append, List.length_append, textSize] at hlength
      have htwo : "./".toList.length = 2 := by decide
      omega
    · intro hlength
      have hfits : ([] ++ "./".toList ++ name.chars).length < textSize := by
        simp only [List.nil_append, List.length_append, textSize]
        have htwo : "./".toList.length = 2 := by decide
        omega
      obtain ⟨b', hb', -⟩ := Buffer.exists_strcat hstring name.noNul hfits
      exact ⟨b', hb'⟩

/-- Assembling the name of the configuration fails by an access only. -/
theorem failsWith_assembleConfigFile (solverConfig : Option CString) :
    FailsWith (· ≠ .exit) (assembleConfigFile solverConfig) := by
  refine .bind (failsWith_access _) fun b _ => ?_
  cases solverConfig with
  | none => exact .error (by simp)
  | some name => exact failsWith_access _

/-! ## All functions -/

/-- The comparison with an array of rules stays inside exactly when the array does. -/
theorem compareBlacklist_inside_iff (st : Statics) (filename : CString)
    (array : List (Option CString)) :
    FailsWith (· = .exit) (compareBlacklistIn fresh st filename (some array)) ↔
      ArrayInside filename array := by
  rw [compareBlacklistIn]
  by_cases hinside : ArrayInside filename array
  · obtain ⟨st', hcall⟩ := compareArray_eq fresh st hinside
    exact iff_of_true (hcall ▸ .ok) hinside
  · rw [compareArray_error fresh st hinside]
    exact iff_of_false (not_failsWith_exit (by decide)) hinside

/-- The last component of a name is copied inside exactly when it fits. -/
theorem handleFilename_inside_iff (st : Statics) (filename : CString) (extension : ℕ) :
    FailsWith (· = .exit) (handleFilenameIn st filename extension) ↔ LastPartFits filename := by
  by_cases hfits : LastPartFits filename
  · refine iff_of_true ?_ hfits
    by_cases hextension : extension = 1
    · obtain ⟨b, st', hcall, -⟩ := handleFilenameIn_one st hfits
      rw [hextension, hcall]
      exact .ok
    · obtain ⟨st', hcall, -⟩ := handleFilenameIn_name st hfits hextension
      rw [hcall]
      exact .ok
  · rw [handleFilenameIn_long hfits]
    exact iff_of_false (not_failsWith_exit (by decide)) hfits

/-- Storing an entry fails for want of room only. -/
theorem failsWith_store (a : Args) (word : Word) : FailsWith (· = .outOfBounds) (a.store word) := by
  unfold Args.store
  split
  · exact .ok
  · exact .error rfl

/-- So does storing the name of a configuration. -/
theorem failsWith_storeConfig (a : Args) (word : Word) :
    FailsWith (· = .outOfBounds) (a.storeConfig word) := by
  unfold Args.storeConfig
  split
  · exact .ok
  · exact .error rfl

/-- The loop of `parse_args` fails only by storing an entry behind one of its two arrays. -/
theorem failsWith_parseLoop (findCommand : Bool) (a : Args) (words : List Word) :
    FailsWith (· = .outOfBounds) (parseLoop findCommand a words) := by
  fun_induction parseLoop findCommand a words with
  | case1 | case5 | case7 => exact .ok
  | case2 _ _ _ _ _ ih => exact ih
  | case3 findCommand a word rest _ _ ih => exact .bind (failsWith_store a word) fun b _ => ih b
  | case4 findCommand a word rest _ _ _ ih =>
    exact .bind (failsWith_storeConfig a word) fun b _ => ih b
  | case6 | case8 =>
    rename_i ih
    exact ih
  | case9 => exact failsWith_store _ _
  | case10 | case11 =>
    rename_i ih
    exact .bind (failsWith_store _ _) fun b _ => ih b

/-- The command is assembled inside exactly when the words can be stored and their text fits. -/
theorem command_inside_iff (argv : List CString) :
    FailsWith (· = .exit) (commandSite argv) ↔ (Site.command argv).Fits := by
  rw [commandSite, Site.Fits]
  cases hparse : parseArgs (argv.map CString.chars) with
  | error fault =>
    -- the words overrun one of the two arrays of `parse_args`
    have hfault : fault ≠ .exit := by
      rw [failsWith_parseLoop _ _ _ fault hparse]
      decide
    exact iff_of_false (not_failsWith_exit hfault) (by simp)
  | ok a =>
    simp only [ok_bind, Except.ok.injEq, exists_eq_left']
    by_cases hpath : a.soPath.isSome
    · rw [if_pos hpath, failsWith_map_iff, failsWith_exit_iff (failsWith_assembleCommand a),
        assembleCommand_returns_iff]
      exact ⟨fun hword _ => hword, fun hword => hword hpath⟩
    · rw [if_neg hpath]
      exact iff_of_true .ok fun hsome => absurd hsome hpath

/-- For every call of one of the functions: all its accesses stay inside exactly when its inputs
fit. -/
theorem inside_iff (fresh : ℕ → Char) (site : Site) : site.Inside fresh ↔ site.Fits := by
  cases site with
  | checkBlacklist file beginMarker endMarker =>
    exact failsWith_map_iff.trans (checkBlacklist_inside_iff file beginMarker endMarker)
  | handleSymbolicLink u stat filename =>
    exact failsWith_map_iff.trans (handleSymbolicLink_inside_iff u stat filename)
  | compareBlacklist st filename blacklist =>
    refine failsWith_map_iff.trans ?_
    cases blacklist with
    | none => exact iff_of_true .ok (by simp [Site.Fits])
    | some array =>
      rw [compareBlacklist_inside_iff]
      simp [Site.Fits]
  | handleFilename st filename extension =>
    exact failsWith_map_iff.trans (handleFilename_inside_iff st filename extension)
  | configFile solverConfig =>
    refine failsWith_map_iff.trans ?_
    rw [failsWith_exit_iff (failsWith_assembleConfigFile solverConfig),
      assembleConfigFile_returns_iff]
    rfl
  | command argv => exact command_inside_iff argv

/-- Every opened configuration writes behind the array of rules. -/
theorem not_inside_config : ¬∀ (fresh : ℕ → Char) (site : Site), site.Inside fresh := by
  intro hall
  have hinside := hall (fun _ => 'x') (.checkBlacklist
    (some "BEGIN open-blacklist\n/etc/*\nEND open-blacklist\n".toList)
    Api.fopen.beginMarker Api.fopen.endMarker)
  rw [Site.Inside, Site.run, failsWith_map_iff, checkBlacklist_inside_iff] at hinside
  cases hinside

end UnixProgramming.Logger
