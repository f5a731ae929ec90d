import UnixProgramming.Lib.Tokens
import UnixProgramming.Libsolver.Numbers
import UnixProgramming.Sdb.Debugger

/-!
# The command line

`main` of `sdb.c`. Every line is read into the same static buffer, where the words of the
commands are compared with its beginning one after another. Operands are read with `sscanf` from
the buffer, behind the end of a short line as well, into locals that keep whatever they hold when
no number is read. `readelf` is run anew for a line that begins with its name, which changes
nothing, and the line is then an unknown command.
-/

namespace UnixProgramming.Sdb

open Libsolver (isSpace scanSign scanInt)

/-- A string of the program. -/
abbrev Text := List Char

/-- `BUFFER_SIZE`. -/
def bufferSize : ℕ := 256

/-! ## Operands -/

/-- The mark `0x`, of which the zero counts as a digit. -/
def skipMark : Text → Text
  | '0' :: 'x' :: text => '0' :: text
  | '0' :: 'X' :: text => '0' :: text
  | text => text

/-- `sscanf` with `%lx`. A number that does not fit becomes the largest one. -/
def scanHex (text : Text) : Option (BitVec 64 × Text) :=
  let (negative, text) := scanSign (text.dropWhile isSpace)
  let text := skipMark text
  let digits := text.takeWhile isXDigit
  if digits = [] then none
  else
    let n := numeralValue 16 digits
    let long := if n < 2 ^ 64 then (if negative then -BitVec.ofNat 64 n else BitVec.ofNat 64 n)
      else BitVec.allOnes 64
    some (long, text.dropWhile isXDigit)

/-- What the uninitialised locals of one pass of the loop hold. -/
structure Locals where
  addr : Addr
  value : Word
  lenByte : BitVec 32
  id : BitVec 32

/-- `sscanf` with `"%lx %lx %d"`. -/
def scanPatch (locals : Locals) (text : Text) : Addr × Word × BitVec 32 :=
  match scanHex text with
  | none => (locals.addr, locals.value, locals.lenByte)
  | some (addr, text) =>
    match scanHex text with
    | none => (addr, locals.value, locals.lenByte)
    | some (value, text) => (addr, value, ((scanInt text).map Prod.fst).getD locals.lenByte)

/-! ## Lines -/

/-- `fgets` into `command`: the line, its terminator, and what was behind it before. -/
def stored (command line : Text) : Text := line ++ nul :: command.drop (line.length + 1)

/-- `strncmp` with a word and its length. -/
def begins (command word : Text) : Bool := word.isPrefixOf command

/-- The string `command + n`. -/
def operand (command : Text) (n : ℕ) : Text := cstring nul (command.drop n)

/-- What a line asks for. -/
inductive Request
  | resume (cmd : Resume)
  | infoReg
  | brk (addr : Addr)
  | infoBreak
  | delete (id : BitVec 32)
  | patch (addr : Addr) (value : Word) (lenByte : BitVec 32)
  | help
  | unknown
  deriving DecidableEq

/-- The comparisons of the second loop of `main`, behind the one with `q`. -/
def request (locals : Locals) (command : Text) : Request :=
  if begins command ['s', 'i'] then .resume .si
  else if begins command ['c', 'o', 'n', 't'] then .resume .cont
  else if begins command ['i', 'n', 'f', 'o', ' ', 'r', 'e', 'g'] then .infoReg
  else if begins command ['b', 'r', 'e', 'a', 'k'] then
    .brk (((scanHex (operand command 6)).map Prod.fst).getD locals.addr)
  else if begins command ['i', 'n', 'f', 'o', ' ', 'b', 'r', 'e', 'a', 'k'] then .infoBreak
  else if begins command ['d', 'e', 'l', 'e', 't', 'e'] then
    .delete (((scanInt (operand command 7)).map Prod.fst).getD locals.id)
  else if begins command ['s', 'y', 's', 'c', 'a', 'l', 'l'] then .resume .syscall
  else if begins command ['p', 'a', 't', 'c', 'h'] then
    let (addr, value, lenByte) := scanPatch locals (operand command 6)
    .patch addr value lenByte
  else if begins command ['h', 'e', 'l', 'p'] then .help
  else .unknown

/-! ## The loops -/

variable {γ δ : Type}

/-- What `main` prints. -/
inductive Message (γ : Type)
  | loadFirst
  | loaded (path : Text) (entry : Addr)
  | output (out : Output)
  | registers (regs : Regs γ)
  | numAddress
  | breakpoint (id : ℕ) (addr : Addr)
  | noBreakpoints
  | commands
  | unknown

/-- Why `main` does not come to `q`. -/
inductive Abort
  /-- `fgets` returns a null pointer at the end of the input, and it is compared. -/
  | noInput
  /-- The program cannot be read or executed. -/
  | notLoaded
  /-- A patch of more than eight bytes shifts its value by all of its bits. -/
  | shiftedOut
  /-- A command does not come back to the prompt. -/
  | halted (h : Halt)

/-- `print_breakpoints`. -/
def printBreakpoints (s : Session γ δ) : List (Message γ) :=
  if s.numBreakpoints = 0 then []
  else
    let active := (List.range s.numBreakpoints).filter fun i => (s.breakpoints i).active
    if active = [] then [.noBreakpoints]
    else .numAddress :: active.map fun i => .breakpoint (s.breakpoints i).id (s.breakpoints i).addr

/-- The lines and the session of a command. -/
def answer (r : Except Halt (List Output × Session γ δ)) :
    Except Abort (List (Message γ) × Session γ δ) :=
  match r with
  | .error h => .error (.halted h)
  | .ok (out, s) => .ok (out.map .output, s)

/-- The branch of a line in the second loop of `main`. -/
def serve (P : Program γ δ) (steps : ℕ) (s : Session γ δ) :
    Request → Except Abort (List (Message γ) × Session γ δ)
  | .resume cmd => answer (perform P steps s (.resume cmd))
  | .infoReg => .ok ([.registers s.core.regs], s)
  | .brk addr => answer (setBreakpoints s addr)
  | .infoBreak => .ok (printBreakpoints s, s)
  | .delete id => answer (deleteBreakpoint s id.toInt)
  | .patch addr value lenByte =>
    if lenByte.toInt ≤ 8 then answer (.ok (patchMemory s addr value lenByte.toInt.toNat))
    else .error .shiftedOut
  | .help => .ok ([.commands], s)
  | .unknown => .ok ([.unknown], s)

/-- The second loop of `main`, over the lines that are still to be read. The locals of each pass
hold something else. -/
def serveLines (P : Program γ δ) (steps : ℕ) : List Text → (ℕ → Locals) → Text → Session γ δ →
    Except Abort (List (Message γ) × Session γ δ)
  | [], _, _, _ => .error .noInput
  | line :: lines, locals, command, s =>
    let command := stored command line
    if begins command ['q'] then .ok ([], s)
    else do
      let (out, s) ← serve P steps s (request (locals 0) command)
      let (rest, s) ← serveLines P steps lines (fun i => locals (i + 1)) command s
      pure (out ++ rest, s)

/-- A program that can be executed: the memory and the registers at its entry point, and the
rest of its state. -/
structure Image (γ δ : Type) where
  mem : ByteMemory 64
  regs : Regs γ
  data : δ

/-- `load_program`, with the programs that there are. -/
def loadProgram (images : Text → Option (Image γ δ)) (path : Text) :
    Except Abort (List (Message γ) × Session γ δ) :=
  match images path with
  | none => .error .notLoaded
  | some image =>
    .ok ([.loaded path image.regs.rip], Session.load image.mem image.regs image.data)

/-- `sscanf` with `%s` into `program_path`, which is empty before. -/
def scanPath (text : Text) : Text := (text.dropWhile isSpace).takeWhile fun c => !isSpace c

/-- The first loop of `main`, and the second one behind it. -/
def loadLines (P : Program γ δ) (images : Text → Option (Image γ δ)) (steps : ℕ) :
    List Text → (ℕ → Locals) → Text → Except Abort (List (Message γ) × Session γ δ)
  | [], _, _ => .error .noInput
  | line :: lines, locals, command => do
    let command := stored command line
    if begins command ['l', 'o', 'a', 'd'] then
      let path := scanPath (operand command 5)
      let (out, s) ← loadProgram images path
      let (rest, s) ← serveLines P steps lines locals command s
      pure (out ++ (if path = [] then [.loadFirst] else []) ++ rest, s)
    else
      let (rest, s) ← loadLines P images steps lines locals command
      pure (.loadFirst :: rest, s)

/-- `main` without an argument, with what is typed. The static buffer holds zeros. -/
def main (P : Program γ δ) (images : Text → Option (Image γ δ)) (steps : ℕ) (locals : ℕ → Locals)
    (stdin : Text) : Except Abort (List (Message γ) × Session γ δ) :=
  loadLines P images steps (readLines '\n' (bufferSize - 1) stdin.length stdin) locals
    (List.replicate bufferSize nul)

end UnixProgramming.Sdb
