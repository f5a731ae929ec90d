import UnixProgramming.Lib.ByteMemory
import Mathlib.Logic.Relation

/-!
# The tracee

A traced program is a deterministic step function over its registers and data. Its
code is not among the data, so it does neither read nor write it; what the debugger
has put into the code matters to the processor in one way only: an instruction whose
first byte is `int3` traps, with `rip` one past it. A breakpoint inside of an
instruction, or in bytes that the program reads, lies outside of this abstraction. A
system call is entered and left in two steps, between which the tracee may be stopped.
`resume` is a `ptrace` request that lets the tracee run, followed by `waitpid`.
-/

namespace UnixProgramming.Sdb

abbrev Addr := BitVec 64

abbrev Word := BitVec 64

/-- `INT3`. -/
def int3 : Word := 0xcc#64

/-- The registers the debugger names, and all others. -/
structure Regs (γ : Type) where
  rip : Addr
  rax : Word
  origRax : Word
  other : γ

/-- A program: `exec` executes the instruction at `rip`, or answers `none` when that is
`syscall`; `kernel` carries out the system call whose number is in `origRax`, or
answers `none` when the process exits. -/
structure Program (γ δ : Type) where
  exec : Regs γ → δ → Option (Regs γ × δ)
  kernel : Regs γ → δ → Option (Word × δ)

/-- The execution state of a program. `inSyscall` holds between the entry and the exit
of a system call, and `performed` lists the registers with which the system calls so
far were carried out. -/
structure Core (γ δ : Type) where
  regs : Regs γ
  data : δ
  inSyscall : Bool
  performed : List (Regs γ)

/-- What one step of a program is. -/
inductive Event
  | ran
  | entered
  | left

/-- Why the tracee is stopped: it has been loaded, it executed an `int3`, one
instruction was executed, one system call was carried out while single-stepping, or
it is at the entry or the exit of a system call. -/
inductive Stop
  | loaded
  | trapped
  | stepped
  | steppedCall
  | entry
  | exit
  deriving DecidableEq

/-- `PTRACE_SINGLESTEP`, `PTRACE_CONT` and `PTRACE_SYSCALL`. -/
inductive Mode
  | singlestep
  | cont
  | syscall

/-- Ways in which a command of the debugger does not come back to the prompt. -/
inductive Halt
  /-- The tracee exited, and the debugger with it. -/
  | terminated
  /-- `breakpoints` is accessed outside its bounds. -/
  | outOfBounds
  /-- The steps granted to the tracee are used up. -/
  | stillRunning
  deriving DecidableEq

/-- `si_code` of the signal that a stop reports. -/
def Stop.siCode : Stop → ℕ
  | loaded => 0
  | trapped => 128
  | stepped => 2
  | steppedCall => 1
  | entry => 133
  | exit => 133

/-- `WSTOPSIG(status) & 0x80`: the stop is one at a system call. The signal of every
other stop is `SIGTRAP`. -/
def Stop.atSyscall : Stop → Bool
  | entry | exit => true
  | _ => false

variable {γ δ : Type}

/-- The kernel's `-ENOSYS`, in `rax` until a system call is carried out. -/
def enosys : Word := -38#64

/-- Move `rip`. -/
def Core.setRip (c : Core γ δ) (rip : Addr) : Core γ δ := { c with regs := { c.regs with rip } }

/-- One step of the program on its own. -/
def Program.nativeStep (P : Program γ δ) (c : Core γ δ) : Option (Event × Core γ δ) :=
  if c.inSyscall then
    match P.kernel c.regs c.data with
    | none => none
    | some (result, data) => some (.left, {
        regs := { c.regs with rax := result }
        data
        inSyscall := false
        performed := c.performed ++ [c.regs] })
  else
    match P.exec c.regs c.data with
    | some (regs, data) => some (.ran, { c with regs, data })
    | none => some (.entered, { c with
        regs := { c.regs with rip := c.regs.rip + 2, origRax := c.regs.rax, rax := enosys }
        inSyscall := true })

/-- The stop that a step leads to under a request, if it leads to one. A single step
over `syscall` stops once, after the system call. -/
def Mode.stop? : Mode → Event → Option Stop
  | singlestep, .ran => some .stepped
  | singlestep, .left => some .steppedCall
  | syscall, .entered => some .entry
  | syscall, .left => some .exit
  | _, _ => none

/-- The next instruction of the tracee is an `int3`. -/
def AtInt3 (mem : ByteMemory 64) (c : Core γ δ) : Prop :=
  c.inSyscall = false ∧ mem c.regs.rip = byteOf int3 0

instance (mem : ByteMemory 64) (c : Core γ δ) : Decidable (AtInt3 mem c) :=
  inferInstanceAs (Decidable (_ ∧ _))

/-- A request that resumes the tracee, and the stop that ends it. -/
def Program.resume (P : Program γ δ) (mem : ByteMemory 64) (mode : Mode) :
    ℕ → Core γ δ → Except Halt (Stop × Core γ δ)
  | 0, _ => .error .stillRunning
  | steps + 1, c =>
    if AtInt3 mem c then .ok (.trapped, c.setRip (c.regs.rip + 1))
    else match P.nativeStep c with
      | none => .error .terminated
      | some (event, c') => match mode.stop? event with
        | some stop => .ok (stop, c')
        | none => P.resume mem mode steps c'

/-- The program on its own gets from one state to another in one step. -/
def Program.Next (P : Program γ δ) (c c' : Core γ δ) : Prop :=
  ∃ event, P.nativeStep c = some (event, c')

/-- The program on its own gets from one state to another. -/
abbrev Program.Reaches (P : Program γ δ) : Core γ δ → Core γ δ → Prop :=
  Relation.ReflTransGen P.Next

variable {P : Program γ δ} {mem : ByteMemory 64} {mode : Mode} {steps : ℕ} {c c' c'' : Core γ δ}
variable {event : Event} {stop : Stop}

@[simp] theorem Core.setRip_rip (c : Core γ δ) (rip : Addr) : (c.setRip rip).regs.rip = rip := rfl

@[simp] theorem Core.setRip_inSyscall (c : Core γ δ) (rip : Addr) :
    (c.setRip rip).inSyscall = c.inSyscall := rfl

@[simp] theorem Core.setRip_setRip (c : Core γ δ) (rip rip' : Addr) :
    (c.setRip rip).setRip rip' = c.setRip rip' := rfl

@[simp] theorem Core.setRip_self (c : Core γ δ) : c.setRip c.regs.rip = c := rfl

/-- The program is deterministic, -/
theorem Program.next_rightUnique (P : Program γ δ) : Relator.RightUnique P.Next := by
  rintro c c' c'' ⟨event, hstep⟩ ⟨event', hstep'⟩
  exact (Prod.mk.inj (Option.some.inj (hstep.symm.trans hstep'))).2

/-- so that of two states that it reaches, one reaches the other. -/
theorem Program.Reaches.total (hreach : P.Reaches c c') (hreach' : P.Reaches c c'') :
    P.Reaches c' c'' ∨ P.Reaches c'' c' :=
  Relation.ReflTransGen.total_of_right_unique P.next_rightUnique hreach hreach'

/-- The program never forgets a system call it has carried out. -/
theorem Program.Reaches.performed_prefix (hreach : P.Reaches c c') :
    c.performed <+: c'.performed := by
  induction hreach with
  | refl => exact List.prefix_rfl
  | tail _ hnext ih =>
    obtain ⟨event, hstep⟩ := hnext
    refine ih.trans ?_
    unfold nativeStep at hstep
    split at hstep
    · split at hstep
      · cases hstep
      · cases hstep
        exact List.prefix_append _ _
    · split at hstep
      all_goals
        cases hstep
        exact List.prefix_rfl

/-- Only the entry of a system call leaves the program inside one. -/
theorem Program.nativeStep_inSyscall (hstep : P.nativeStep c = some (event, c')) :
    c'.inSyscall = true ↔ event = .entered := by
  unfold nativeStep at hstep
  split at hstep
  · split at hstep
    · cases hstep
    · cases hstep
      simp
  · next hout =>
    split at hstep
    all_goals
      cases hstep
      simp [hout]

/-- Only a program inside a system call leaves one. -/
theorem Program.nativeStep_left (hstep : P.nativeStep c = some (event, c')) :
    c.inSyscall = true ↔ event = .left := by
  unfold nativeStep at hstep
  split at hstep
  · next hin =>
    split at hstep
    · cases hstep
    · cases hstep
      simp [hin]
  · next hout =>
    split at hstep
    all_goals
      cases hstep
      simp [hout]

/-- Leaving a system call puts its result into `rax` and records the call. -/
theorem Program.nativeStep_left_eq (hstep : P.nativeStep c = some (.left, c')) :
    ∃ result data, P.kernel c.regs c.data = some (result, data) ∧
      c' = ⟨{ c.regs with rax := result }, data, false, c.performed ++ [c.regs]⟩ := by
  have hin := (nativeStep_left hstep).mpr rfl
  simp only [nativeStep, hin, if_true] at hstep
  split at hstep
  · cases hstep
  · next result data hkernel =>
    cases hstep
    exact ⟨result, data, hkernel, rfl⟩

/-- Where a resumed tracee stops: one past an `int3` that the program has reached on its
own, or in a state that the program reaches on its own. -/
inductive Lands (P : Program γ δ) (mem : ByteMemory 64) (c : Core γ δ) : Stop → Core γ δ → Prop
  | trapped {c₁ : Core γ δ} : P.Reaches c c₁ → AtInt3 mem c₁ →
      Lands P mem c .trapped (c₁.setRip (c₁.regs.rip + 1))
  | native {stop : Stop} {c' : Core γ δ} : stop ≠ .trapped → P.Reaches c c' →
      Lands P mem c stop c'

/-- Steps of the program before a stop do not matter. -/
theorem Lands.head (hstep : P.nativeStep c = some (event, c')) (hlands : Lands P mem c' stop c'') :
    Lands P mem c stop c'' := by
  cases hlands with
  | trapped hreach hint3 => exact .trapped (.head ⟨_, hstep⟩ hreach) hint3
  | native hne hreach => exact .native hne (.head ⟨_, hstep⟩ hreach)

/-- No event is reported as a trap. -/
theorem Mode.stop?_ne_trapped (hstop : mode.stop? event = some stop) : stop ≠ .trapped := by
  cases mode <;> cases event <;> simp_all [Mode.stop?] <;> simp [← hstop]

/-- A resumed tracee stops where `Lands` says. The induction is on the steps granted. -/
theorem Program.resume_lands (hok : P.resume mem mode steps c = .ok (stop, c')) :
    Lands P mem c stop c' := by
  induction steps generalizing c with
  | zero => cases hok
  | succ steps ih =>
    unfold resume at hok
    split at hok
    · next hint3 =>
      cases hok
      exact .trapped .refl hint3
    · split at hok
      · cases hok
      · next hstep =>
        split at hok
        · next hstop =>
          cases hok
          exact .native (Mode.stop?_ne_trapped hstop) (.single ⟨_, hstep⟩)
        · exact (ih hok).head hstep

/-- The tracee is inside a system call exactly at an entry stop. -/
theorem Program.resume_inSyscall (hok : P.resume mem mode steps c = .ok (stop, c')) :
    c'.inSyscall = true ↔ stop = .entry := by
  induction steps generalizing c with
  | zero => cases hok
  | succ steps ih =>
    unfold resume at hok
    split at hok
    · next hint3 =>
      cases hok
      simp [hint3.1]
    · split at hok
      · cases hok
      · next hstep =>
        split at hok
        · next hstop =>
          cases hok
          rw [nativeStep_inSyscall hstep]
          revert hstop
          cases mode <;> rename_i event _ <;> cases event <;> simp [Mode.stop?] <;>
            (intro h; simp [← h])
        · exact ih hok

/-- A request stops at a trap or after a step that it reports. -/
theorem Program.resume_last (hok : P.resume mem mode steps c = .ok (stop, c')) :
    stop = .trapped ∨
      ∃ c₁ event, P.nativeStep c₁ = some (event, c') ∧ mode.stop? event = some stop := by
  induction steps generalizing c with
  | zero => cases hok
  | succ steps ih =>
    unfold resume at hok
    split at hok
    · cases hok
      exact .inl rfl
    · split at hok
      · cases hok
      · next hstep =>
        split at hok
        · next hstop =>
          cases hok
          exact .inr ⟨c, _, hstep, hstop⟩
        · exact ih hok

/-- From the entry stop of a system call, `PTRACE_SYSCALL` leads to its exit stop. -/
theorem Program.resume_syscall_inside (hin : c.inSyscall = true)
    (hok : P.resume mem .syscall steps c = .ok (stop, c')) :
    stop = .exit ∧ P.nativeStep c = some (.left, c') := by
  cases steps with
  | zero => cases hok
  | succ steps =>
    unfold resume at hok
    split at hok
    · next hint3 => simp [hint3.1] at hin
    · split at hok
      · cases hok
      · next hstep =>
        obtain rfl := (nativeStep_left hstep).mp hin
        cases hok
        exact ⟨rfl, hstep⟩

/-- From outside of system calls, `PTRACE_SYSCALL` does not lead to an exit stop. The
induction is on the steps granted. -/
theorem Program.resume_syscall_outside (hout : c.inSyscall = false)
    (hok : P.resume mem .syscall steps c = .ok (stop, c')) : stop ≠ .exit := by
  induction steps generalizing c with
  | zero => cases hok
  | succ steps ih =>
    unfold resume at hok
    split at hok
    · cases hok
      simp
    · split at hok
      · cases hok
      · next event c₁ hstep =>
        cases event with
        | ran => exact ih (by simpa using mt (nativeStep_inSyscall hstep).mp (by simp)) hok
        | entered =>
          cases hok
          simp
        | left => simp [(nativeStep_left hstep).mpr rfl] at hout

/-- A request keeps its stop when more steps are granted. -/
theorem Program.resume_mono {steps' : ℕ} (hle : steps ≤ steps')
    (hok : P.resume mem mode steps c = .ok (stop, c')) :
    P.resume mem mode steps' c = .ok (stop, c') := by
  induction steps generalizing steps' c with
  | zero => cases hok
  | succ steps ih =>
    obtain ⟨steps', rfl⟩ : ∃ n, steps' = n + 1 := ⟨steps' - 1, by omega⟩
    unfold resume at hok ⊢
    split at hok
    · next hint3 => rwa [if_pos hint3]
    · next hint3 =>
      rw [if_neg hint3]
      split at hok
      · cases hok
      · split at hok
        · exact hok
        · exact ih (by omega) hok

end UnixProgramming.Sdb
