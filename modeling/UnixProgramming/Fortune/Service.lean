import Mathlib.Algebra.Ring.Nat
import UnixProgramming.Lib.Runs
import UnixProgramming.Lib.Tokens

/-!
# The fortune service

`main` reads commands. A name that passes the checks of `read_fortune` is copied into the
global array `fortune`, and a new thread shows the file of that name. The thread asks for the
owner of the file and opens it in two separate calls, each of which reads `fortune` again,
while `main` may already be copying the next name into it.
-/

namespace UnixProgramming.Fortune

/-- A string of the program. -/
abbrev Text := List Char

/-- `PATH_MAX`. -/
def pathMax : ℕ := 4096

/-- The answers of the file system, which does not change while the service runs. -/
structure Files where
  realpath : Text → Option Text
  access : Text → Bool
  owner : Text → Option ℕ
  readable : Text → Bool
  realpath_fits : ∀ path fn, realpath path = some fn → fn.length < pathMax ∧ nul ∉ fn

/-- What the service is started with: `base` is the resolved path of the fortunes. -/
structure Config where
  files : Files
  base : Text
  myuid : ℕ

/-- Where `main` stands. In `copy`, `strncpy` has written the first `i` characters. -/
inductive MainPc
  | command
  | copy (fn : Text) (i : ℕ)
  | create
  | quit

/-- Where `show_fortune` stands, with what the kernel has read of `fortune` so far. -/
inductive ThreadPc
  | stat (path : Text)
  | check (uid : ℕ)
  | openFile (path : Text)
  | done

/-- The state of the process, with the input that is still to be read. -/
structure State where
  fortune : ℕ → Char
  stdin : Text
  main : MainPc
  threads : List ThreadPc

/-- The service before the first command. -/
def State.init (stdin : Text) : State := ⟨fun _ => nul, stdin, .command, []⟩

/-- What can be observed of a step. -/
inductive Event
  | internal
  | input
  | stored
  | statted (path : Text)
  | opened (path : Text)
  | refused (path : Text)

/-- The character at a place of a string that is padded with terminators. -/
def cell (s : Text) (i : ℕ) : Char := (s[i]?).getD nul

/-- `fortune%03d`. -/
def randomName (n : ℕ) : Text :=
  ['f', 'o', 'r', 't', 'u', 'n', 'e'] ++ (Nat.toDigits 10 n).leftpad 3 '0'

variable (cfg : Config)

/-- `read_fortune` up to the copy. -/
def readFortune (fname : Option Text) : MainPc :=
  match fname with
  | none => .command
  | some [] => .command
  | some fname =>
    match cfg.files.realpath ((cfg.base ++ ['/'] ++ fname).take (2 * pathMax - 1)) with
    | none => .command
    | some fn =>
      if fn.take cfg.base.length ≠ cfg.base then .command
      else if cfg.files.access fn = false then .command
      else .copy fn 0

/-- A command, from its line to what `main` does next. Listing the fortunes changes nothing.
There may be no fortune to choose from. -/
inductive Command : Text → MainPc → Prop
  | eof : Command [] .quit
  | list {rest : Text} : Command ('L' :: rest) .command
  | random {rest : Text} (n : ℕ) : n < 2 ^ 31 →
      Command ('R' :: rest) (readFortune cfg (some (randomName n)))
  | noRandom {rest : Text} : Command ('R' :: rest) .command
  | quit {rest : Text} : Command ('Q' :: rest) .quit
  | name {c : Char} {rest : Text} : c ≠ 'L' → c ≠ 'R' → c ≠ 'Q' →
      Command (c :: rest) (readFortune cfg (firstWord (c :: rest)))

/-- One step of `show_fortune` while `fortune` holds some characters. -/
inductive ThreadStep (fortune : ℕ → Char) : ThreadPc → Event → ThreadPc → Prop
  | statRead {path : Text} : fortune path.length ≠ nul →
      ThreadStep fortune (.stat path) .internal (.stat (path ++ [fortune path.length]))
  | statted {path : Text} {uid : ℕ} : fortune path.length = nul →
      cfg.files.owner path = some uid →
      ThreadStep fortune (.stat path) (.statted path) (.check uid)
  | statError {path : Text} : fortune path.length = nul → cfg.files.owner path = none →
      ThreadStep fortune (.stat path) (.statted path) .done
  | isProtected {uid : ℕ} : uid ≠ cfg.myuid → ThreadStep fortune (.check uid) .internal .done
  | own {uid : ℕ} : uid = cfg.myuid → ThreadStep fortune (.check uid) .internal (.openFile [])
  | openRead {path : Text} : fortune path.length ≠ nul →
      ThreadStep fortune (.openFile path) .internal (.openFile (path ++ [fortune path.length]))
  | opened {path : Text} : fortune path.length = nul → cfg.files.readable path = true →
      ThreadStep fortune (.openFile path) (.opened path) .done
  | openError {path : Text} : fortune path.length = nul → cfg.files.readable path = false →
      ThreadStep fortune (.openFile path) (.refused path) .done

/-- A step of the process, which ends when `main` returns. -/
inductive Step : State → Event → State → Prop
  | command {s : State} {pc : MainPc} : s.main = .command →
      Command cfg (readLine '\n' (pathMax - 1) s.stdin).1 pc →
      Step s .input { s with stdin := (readLine '\n' (pathMax - 1) s.stdin).2, main := pc }
  | copy {s : State} {fn : Text} {i : ℕ} : s.main = .copy fn i → i < pathMax →
      Step s .stored
        { s with fortune := Function.update s.fortune i (cell fn i), main := .copy fn (i + 1) }
  | copied {s : State} {fn : Text} {i : ℕ} : s.main = .copy fn i → ¬i < pathMax →
      Step s .internal { s with main := .create }
  | create {s : State} : s.main = .create →
      Step s .internal { s with main := .command, threads := s.threads ++ [.stat []] }
  | notCreated {s : State} : s.main = .create → Step s .internal { s with main := .command }
  | thread {s : State} {i : ℕ} {pc pc' : ThreadPc} {e : Event} : s.main ≠ .quit →
      s.threads[i]? = some pc → ThreadStep cfg s.fortune pc e pc' →
      Step s e { s with threads := s.threads.set i pc' }

/-! ## Paths that pass the checks -/

/-- A name that can be given to `read_fortune`: a word that fits into a line, behind a blank if
the line would be another command. -/
def Askable (name : Text) : Prop :=
  IsWord name ∧ name.length < pathMax - 1 ∨
    IsWord name ∧ name.length < pathMax ∧
      name.head? ≠ some 'L' ∧ name.head? ≠ some 'R' ∧ name.head? ≠ some 'Q'

/-- A path that `read_fortune` copies. -/
def Checked (fn : Text) : Prop :=
  ∃ name, Askable name ∧
    cfg.files.realpath ((cfg.base ++ ['/'] ++ name).take (2 * pathMax - 1)) = some fn ∧
    fn.take cfg.base.length = cfg.base ∧ cfg.files.access fn = true

/-- Every character of the path, with its terminator, is one of a checked path. -/
def Woven (path : Text) : Prop :=
  nul ∉ path ∧ ∀ i ≤ path.length, ∃ fn, Checked cfg fn ∧ cell fn i = cell path i

end UnixProgramming.Fortune
