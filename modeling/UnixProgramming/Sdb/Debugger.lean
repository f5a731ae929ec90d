import UnixProgramming.Lib.Loops
import UnixProgramming.Lib.Runs
import UnixProgramming.Sdb.Tracee

/-!
# The debugger

`set_breakpoints` to `patch_memory`, with the globals of `sdb.c` and the traced
process in one session. A command either comes back to the prompt with the lines it
prints or stops with a `Halt`; every path on which the tracee exits ends the debugger
as well. The disassembly that commands print is left out: it changes nothing.
-/

namespace UnixProgramming.Sdb

/-- `bp_t`. -/
structure Bp where
  id : ℕ
  addr : Addr
  originalCode : Word
  int3Code : Word
  active : Bool
  ignoreRipEqualBreak : Bool

/-- A zero-initialised `bp_t`. -/
def Bp.zero : Bp := ⟨0, 0, 0, 0, false, false⟩

/-- `MAX_BREAKPOINTS`. -/
def maxBreakpoints : ℕ := 10

/-- The traced process and the globals of the debugger. -/
structure Session (γ δ : Type) where
  mem : ByteMemory 64
  core : Core γ δ
  stop : Stop
  breakpoints : ℕ → Bp
  numBreakpoints : ℕ
  bpAgain : Bool
  whichBp : ℕ
  preOrigRax : Word
  enter : Bool

/-- The lines that the commands print. -/
inductive Output
  | alreadySet (addr : Addr)
  | set (addr : Addr)
  | doesNotExist (id : ℤ)
  | deleted (id : ℤ)
  | hit (addr : Addr)
  | enterSyscall (number : Word) (addr : Addr)
  | leaveSyscall (number result : Word) (addr : Addr)
  | patched (addr : Addr)
  deriving DecidableEq

/-- The commands that let the tracee run. -/
inductive Resume
  | si
  | cont
  | syscall
  deriving DecidableEq

/-- The commands of the debugger that act on the tracee. A patch has at least one and at
most eight bytes. -/
inductive Command
  | brk (addr : Addr)
  | delete (id : ℤ)
  | patch (addr : Addr) (value : Word) (len : ℕ) (hlen : 1 ≤ len ∧ len ≤ 8)
  | resume (cmd : Resume)

variable {γ δ : Type}

/-- The session after a program is loaded: the tracee is stopped before its first
instruction, and there are no breakpoints. -/
def Session.load (mem : ByteMemory 64) (regs : Regs γ) (data : δ) : Session γ δ where
  mem := mem
  core := ⟨regs, data, false, []⟩
  stop := .loaded
  breakpoints := fun _ => .zero
  numBreakpoints := 0
  bpAgain := false
  whichBp := 0
  preOrigRax := 0
  enter := true

/-- `rip` of the stopped tracee. -/
def Session.rip (s : Session γ δ) : Addr := s.core.regs.rip

/-- `PTRACE_SETREGS` with another `rip`. -/
def Session.setRip (s : Session γ δ) (rip : Addr) : Session γ δ :=
  { s with core := s.core.setRip rip }

/-- `PTRACE_POKETEXT`. -/
def Session.poke (s : Session γ δ) (a : Addr) (v : Word) : Session γ δ :=
  { s with mem := s.mem.poke (n := 8) a v }

/-- Read a word, replace its lowest byte and write it back. -/
def Session.pokeLow (s : Session γ δ) (a : Addr) (v : Word) : Session γ δ :=
  s.poke a (withLow (s.mem.peek a 8) v)

/-- Assign an entry of `breakpoints`. -/
def Session.setBp (s : Session γ δ) (i : ℕ) (b : Bp) : Session γ δ :=
  { s with breakpoints := Function.update s.breakpoints i b }

/-- Put back the original byte of a breakpoint. -/
def Session.restoreOriginal (s : Session γ δ) (i : ℕ) : Session γ δ :=
  s.pokeLow (s.breakpoints i).addr (s.breakpoints i).originalCode

/-- Put back the `int3` of a breakpoint. -/
def Session.plantAgain (s : Session γ δ) (i : ℕ) : Session γ δ :=
  s.pokeLow (s.breakpoints i).addr (s.breakpoints i).int3Code

/-- The first active breakpoint at an address. -/
def Session.activeAt (s : Session γ δ) (a : Addr) : Option ℕ :=
  (List.range s.numBreakpoints).find? fun i =>
    (s.breakpoints i).active && (s.breakpoints i).addr = a

/-- A `ptrace` request that resumes the tracee, and `waitpid`. -/
def Session.run (P : Program γ δ) (mode : Mode) (steps : ℕ) (s : Session γ δ) :
    Except Halt (Session γ δ) := do
  let (stop, core) ← P.resume s.mem mode steps s.core
  pure { s with core, stop }

/-- `set_breakpoints`. -/
def setBreakpoints (s : Session γ δ) (currAddr : Addr) :
    Except Halt (List Output × Session γ δ) :=
  if (s.activeAt currAddr).isSome then .ok ([.alreadySet currAddr], s)
  else
    let data := s.mem.peek currAddr 8
    let dataTrap := withLow data int3
    let s' := s.poke currAddr dataTrap
    if s.numBreakpoints ≥ maxBreakpoints then .error .outOfBounds
    else
      let b : Bp :=
        { id := s.numBreakpoints
          addr := currAddr
          originalCode := data
          int3Code := dataTrap
          active := true
          ignoreRipEqualBreak := s.rip = currAddr }
      .ok ([.set currAddr],
        { s'.setBp s.numBreakpoints b with numBreakpoints := s.numBreakpoints + 1 })

/-- `delete_breakpoint`. The saved word is written back before the breakpoint is seen to
be inactive. -/
def deleteBreakpoint (s : Session γ δ) (id : ℤ) : Except Halt (List Output × Session γ δ) :=
  if id ≥ s.numBreakpoints then .ok ([.doesNotExist id], s)
  else if id < 0 then .error .outOfBounds
  else
    let b := s.breakpoints id.toNat
    let s := s.poke b.addr b.originalCode
    if b.active = false then .ok ([.doesNotExist id], s)
    else .ok ([.deleted id], s.setBp id.toNat { b with active := false })

/-- The tracee stands on the breakpoint with the next number. -/
def Session.atNext (s : Session γ δ) (i : ℕ) : Bool :=
  s.rip = (s.breakpoints (i + 1)).addr && (s.breakpoints (i + 1)).active &&
    (i + 1 < s.numBreakpoints)

/-- `handle_breakpoints`, with `rip` as its argument `regs` has it. -/
def handleBreakpoints (P : Program γ δ) (cmd : Resume) :
    ℕ → Session γ δ → Addr → Except Halt (List Output × Session γ δ)
  | 0, _, _ => .error .stillRunning
  | steps + 1, s, rip =>
    let s := s.setRip (rip - 1)
    match s.activeAt (rip - 1) with
    | none => .ok ([], s)
    | some i =>
      let b := s.breakpoints i
      if b.ignoreRipEqualBreak then
        let s := (s.setBp i { b with ignoreRipEqualBreak := false }).restoreOriginal i
        match cmd with
        | .si => do
          let s ← s.run P .singlestep steps
          let s := s.plantAgain i
          if s.atNext i then handleBreakpoints P .si steps s (s.rip + 1) else pure ([], s)
        | .cont => do
          let s ← s.run P .cont steps
          let s := { s with bpAgain := true, whichBp := i }
          let s := s.setRip (s.rip - 1)
          if s.atNext i then handleBreakpoints P .cont steps s (s.rip + 1) else pure ([], s)
        | .syscall => do
          let s ← s.run P .syscall steps
          let s := { s with bpAgain := true, whichBp := i }
          let s :=
            if s.stop.siCode = 128 then s.setRip (s.rip - 1)
            else if s.stop.siCode = 133 then s.setRip (s.rip - 2)
            else s
          if s.atNext i then handleBreakpoints P .syscall steps s (s.rip + 1) else pure ([], s)
      else
        .ok ([.hit b.addr], { s with bpAgain := true, whichBp := i }.restoreOriginal i)

/-- Resume the tracee once more if it stands on the breakpoint just planted again. -/
def Session.runAgain (P : Program γ δ) (mode : Mode) (steps : ℕ) (s : Session γ δ) :
    Except Halt (Session γ δ) :=
  if s.rip = (s.breakpoints s.whichBp).addr then s.run P mode steps else pure s

/-- The first part of `command_SI`, `command_CONT` and `command_syscall`: when a
breakpoint waits to be planted again, resume the tracee and plant it. -/
def Session.rearm (P : Program γ δ) (mode : Mode) (steps : ℕ) (s : Session γ δ) :
    Except Halt (Session γ δ) := do
  let s ← s.run P mode steps
  let s ← (s.plantAgain s.whichBp).runAgain P mode steps
  pure { s with bpAgain := false }

/-- The stop that `command_SI` looks at. -/
def stopSI (P : Program γ δ) (steps : ℕ) (s : Session γ δ) : Except Halt (Session γ δ) :=
  if s.bpAgain then s.rearm P .singlestep steps else s.run P .singlestep steps

/-- An entry of `breakpoints`, active or not, has the address of `rip`. -/
def Session.bpAddr (s : Session γ δ) : Bool :=
  (List.range s.numBreakpoints).any fun i => (s.breakpoints i).addr = s.rip

/-- `command_SI`. `SI_TRAP` is 2 and `CLD_EXITED` is 1. -/
def commandSI (P : Program γ δ) (steps : ℕ) (s : Session γ δ) :
    Except Halt (List Output × Session γ δ) := do
  let s ← stopSI P steps s
  if (s.stop.siCode ≠ 2 ∧ s.stop.siCode ≠ 1) ∨ s.bpAddr then
    handleBreakpoints P .si steps s (if s.bpAddr then s.rip + 1 else s.rip)
  else pure ([], s)

/-- The stop that `command_CONT` looks at. -/
def stopCONT (P : Program γ δ) (steps : ℕ) (s : Session γ δ) : Except Halt (Session γ δ) :=
  if s.bpAgain then s.rearm P .singlestep steps >>= fun s => s.run P .cont steps
  else s.run P .cont steps

/-- `command_CONT`. -/
def commandCONT (P : Program γ δ) (steps : ℕ) (s : Session γ δ) :
    Except Halt (List Output × Session γ δ) := do
  let s ← stopCONT P steps s
  if s.stop.atSyscall then pure ([], s) else handleBreakpoints P .cont steps s s.rip

/-- The stop that `command_syscall` looks at. -/
def stopSyscall (P : Program γ δ) (steps : ℕ) (s : Session γ δ) : Except Halt (Session γ δ) :=
  if s.bpAgain then s.rearm P .syscall steps else s.run P .syscall steps

/-- The part of `command_syscall` that reports a stop at a system call. -/
def reportSyscall (s : Session γ δ) : List Output × Session γ δ :=
  let regs := s.core.regs
  let enter := if !s.enter && s.preOrigRax ≠ regs.origRax then true else s.enter
  ([if enter then .enterSyscall regs.origRax (s.rip - 2)
    else .leaveSyscall regs.origRax regs.rax (s.rip - 2)],
    { s with enter := !enter, preOrigRax := regs.origRax })

/-- `command_syscall`. -/
def commandSyscall (P : Program γ δ) (steps : ℕ) (s : Session γ δ) :
    Except Halt (List Output × Session γ δ) := do
  let s ← stopSyscall P steps s
  if s.stop.atSyscall then pure (reportSyscall s)
  else handleBreakpoints P .syscall steps s s.rip

/-- One pass of the loop of `patch_memory`. -/
def patchByte (s : Session γ δ) (addr : Addr) (value : Word) (i : ℕ) : Session γ δ :=
  let a := addr + BitVec.ofNat 64 i
  let newData := withLow (s.mem.peek a 8) (value >>> (i * 8))
  let s := s.poke a newData
  match s.activeAt a with
  | none => s
  | some j =>
    let b := { s.breakpoints j with originalCode := newData }
    let dataTrap := withLow (s.mem.peek b.addr 8) int3
    (s.poke b.addr dataTrap).setBp j { b with int3Code := dataTrap }

/-- `patch_memory`. -/
def patchMemory (s : Session γ δ) (addr : Addr) (value : Word) (len : ℕ) :
    List Output × Session γ δ :=
  ([.patched addr], (List.range len).foldl (fun s i => patchByte s addr value i) s)

/-- One command, given a number of steps for the tracee. -/
def perform (P : Program γ δ) (steps : ℕ) (s : Session γ δ) :
    Command → Except Halt (List Output × Session γ δ)
  | .brk addr => setBreakpoints s addr
  | .delete id => deleteBreakpoint s id
  | .patch addr value len _ => .ok (patchMemory s addr value len)
  | .resume .si => commandSI P steps s
  | .resume .cont => commandCONT P steps s
  | .resume .syscall => commandSyscall P steps s

/-- A command that comes back to the prompt. -/
def Step (P : Program γ δ) (s : Session γ δ) (c : Command) (s' : Session γ δ) : Prop :=
  ∃ steps out, perform P steps s c = .ok (out, s')

/-- The commands that leave the tracee stopped. -/
def Command.edits : Command → Bool
  | resume _ => false
  | _ => true

/-- The commands that leave the program as it is. -/
def Command.traces : Command → Bool
  | patch .. => false
  | _ => true

/-- A `break`, `delete`, `si`, `cont` or `syscall` command that comes back to the prompt. -/
def TraceStep (P : Program γ δ) (s : Session γ δ) (c : Command) (s' : Session γ δ) : Prop :=
  c.traces = true ∧ Step P s c s'

/-- The sessions that arise from tracing a program after it is loaded. -/
abbrev TraceRun (P : Program γ δ) (mem : ByteMemory 64) (regs : Regs γ) (data : δ) :=
  Run (Session.load mem regs data) (TraceStep P)

/-- A list of commands, each given the same number of steps. -/
def script (P : Program γ δ) (steps : ℕ) (s : Session γ δ) (cs : List Command) :
    Except Halt (Session γ δ) :=
  cs.foldlM (fun s c => (perform P steps s c).map Prod.snd) s

/-- The first command of a list that comes back to the prompt does so too. -/
theorem script_cons {P : Program γ δ} {steps : ℕ} {s s' : Session γ δ} {c : Command}
    {cs : List Command} (hok : script P steps s (c :: cs) = .ok s') :
    ∃ s₁, Step P s c s₁ ∧ script P steps s₁ cs = .ok s' := by
  obtain ⟨s₁, hmap, hrest⟩ := foldlM_cons_eq_ok.mp hok
  cases hperform : perform P steps s c with
  | error e => simp [hperform, Except.map] at hmap
  | ok result =>
    obtain rfl : result.2 = s₁ := by simpa [hperform, Except.map] using hmap
    exact ⟨result.2, ⟨steps, result.1, hperform⟩, hrest⟩

/-- Commands that come back to the prompt one after another are a run. -/
theorem reachable_script {P : Program γ δ} {init s s' : Session γ δ} {steps : ℕ}
    {cs : List Command} (htraces : ∀ c ∈ cs, c.traces = true)
    (hok : script P steps s cs = .ok s') (hreach : Reachable init (TraceStep P) s) :
    Reachable init (TraceStep P) s' := by
  induction cs generalizing s with
  | nil =>
    obtain rfl : s = s' := Except.ok.inj hok
    exact hreach
  | cons c cs ih =>
    obtain ⟨s₁, hstep, hrest⟩ := script_cons hok
    exact ih (fun c' hc' => htraces c' (List.mem_cons_of_mem c hc')) hrest
      (hreach.step ⟨htraces c List.mem_cons_self, hstep⟩)

/-- A program whose instructions have one byte, with a system call at address `0x100`. -/
def sampleProgram : Program Unit Unit where
  exec regs data :=
    if regs.rip = 0x100 then none else some ({ regs with rip := regs.rip + 1 }, data)
  kernel _ data := some (0, data)

/-- The sample program, stopped at an address, in memory that holds zeros. -/
def sampleSession (rip : Addr) : Session Unit Unit := .load (fun _ => 0) ⟨rip, 0, 0, ()⟩ ()

end UnixProgramming.Sdb
