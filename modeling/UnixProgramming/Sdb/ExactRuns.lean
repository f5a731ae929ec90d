import UnixProgramming.Sdb.Continues
import UnixProgramming.Sdb.FirstEvents
import UnixProgramming.Sdb.SingleSteps

/-!
# Runs that stay exact

`si`, `cont` and `syscall` are meant to run the program natively to the next instruction, the
next breakpoint or the next event, and to report what is there. Where every command of a run is
exact, each prompt is on the native run, and so the next exact command does so too.
-/

namespace UnixProgramming.Sdb

variable {γ δ : Type} {P : Program γ δ} {code : ByteMemory 64} {init c' : Core γ δ}
variable {mem : ByteMemory 64} {regs : Regs γ} {data : δ} {s s' : Session γ δ} {c : Command}
variable {history : List (Session γ δ × Command)} {i : ℕ}

/-- The commands that keep a run exact: a `delete` finds the saved word fresh. -/
def Exact (P : Program γ δ) (s : Session γ δ) : Command → Prop
  | .resume .si => SiExact P s
  | .resume .cont => ContExact P s
  | .resume .syscall => SyscallExact P s
  | c => DeletesFresh s c

/-- `si` executes exactly one instruction, and prints a hit exactly if the new `rip` is the
address of an active breakpoint. -/
def SiRight (P : Program γ δ) (s : Session γ δ) : Prop :=
  ∀ c', P.Instruction s.core c' → ∃ out s',
    Settles (fun n => perform P n s (.resume .si)) (.ok (out, s')) ∧ s'.core = c' ∧
      ReportsHit s.ActiveAt c'.regs.rip out

/-- `cont` runs natively to the first later arrival at an active breakpoint, and prints a hit of
this one. If the program exits first, it prints that the program terminated. -/
def ContRight (P : Program γ δ) (s : Session γ δ) : Prop :=
  (∀ c', P.FirstStop .cont s.ActiveAt s.core none c' → ∃ s',
    Settles (fun n => perform P n s (.resume .cont)) (.ok ([.hit c'.regs.rip], s')) ∧
      s'.core = c') ∧
    (P.ExitsFirst .cont s.ActiveAt s.core → PrintsTerminated P s)

/-- `syscall` runs natively to the first entry or exit of a system call or later arrival at an
active breakpoint, and prints the line for it. -/
def SyscallRight (P : Program γ δ) (s : Session γ δ) : Prop :=
  ∀ o c', P.FirstStop .syscall s.ActiveAt s.core o c' → ∃ s',
    Settles (fun n => perform P n s (.resume .syscall)) (.ok ([eventLine o c'], s')) ∧
      s'.core = c'

/-! ## Prompts along a run -/

/-- A program that has been loaded is at the start of its native run. -/
theorem atPrompt_load (mem : ByteMemory 64) (regs : Regs γ) (data : δ) :
    AtPrompt P mem ⟨regs, data, false, []⟩ (.load mem regs data) where
  armed := (armed_load mem regs data).sessionArmed rfl
  waiting h := by cases h
  flags i hi := absurd hi.1 (Nat.not_lt_zero i)
  reaches := .refl
  calls := inStep_of_outside rfl

/-- A command that comes back to the prompt has its one outcome. -/
theorem Answers.atPrompt {cmd : Resume} {report : List Output → Prop} {steps : ℕ}
    {out : List Output}
    (hanswers : Answers P code init (fun n => perform P n s (.resume cmd)) c' report)
    (hok : perform P steps s (.resume cmd) = .ok (out, s')) : AtPrompt P code init s' := by
  obtain ⟨out', s'', hsettles, _, _, hprompt⟩ := hanswers
  have hsame := hsettles.eq_of_ok (fun _ _ _ hle => perform_mono hle) hok
  obtain ⟨rfl, rfl⟩ := Prod.mk.inj (Except.ok.inj hsame)
  exact hprompt

/-- A new breakpoint is flagged only at the tracee. -/
theorem AtPrompt.withBp (hprompt : AtPrompt P code init s) {a : Addr}
    (harmed : SessionArmed (withBp s a) code) : AtPrompt P code init (withBp s a) := by
  have hlifted := lifted_withBp (a := a) hprompt.armed.waiting
  refine ⟨harmed, fun hagain => ?_, fun i hi hflag => ?_, hprompt.reaches, hprompt.calls⟩
  · have hentry : (Sdb.withBp s a).breakpoints s.whichBp = s.breakpoints s.whichBp :=
      withBp_breakpoints (hprompt.armed.waiting hagain)
    show ((Sdb.withBp s a).breakpoints s.whichBp).addr = s.rip ∧ _
    rw [hentry]
    exact hprompt.waiting hagain
  · rw [hlifted]
    rcases withBp_active.mp hi with rfl | hi
    · rw [withBp_new] at hflag ⊢
      refine ⟨(of_decide_eq_true hflag).symm, fun hup => ?_⟩
      exact absurd (hprompt.armed.armed.lifted_active _ hup).1 (lt_irrefl _)
    · rw [withBp_breakpoints hi.1] at hflag ⊢
      exact hprompt.flags i hi hflag

/-- Deleting a breakpoint leaves the others as they are. -/
theorem AtPrompt.withoutBp (hprompt : AtPrompt P code init s)
    (harmed : SessionArmed (withoutBp s i) code) : AtPrompt P code init (withoutBp s i) := by
  refine ⟨harmed, fun hagain => ?_, fun j hj hflag => ?_, hprompt.reaches, hprompt.calls⟩
  · rw [show ((Sdb.withoutBp s i).breakpoints (Sdb.withoutBp s i).whichBp).addr = _ from
      (withoutBp_breakpoints s i s.whichBp).1]
    exact hprompt.waiting hagain
  · obtain ⟨hj, hji⟩ := withoutBp_active.mp hj
    have hentry : (Sdb.withoutBp s i).breakpoints j = s.breakpoints j :=
      Function.update_of_ne hji ..
    rw [hentry] at hflag ⊢
    obtain ⟨haddr, hup⟩ := hprompt.flags j hj hflag
    refine ⟨haddr, fun hfilter => hup ?_⟩
    rw [lifted_withoutBp] at hfilter
    exact (Option.filter_eq_some_iff.mp hfilter).1

/-- An exact command leads from a prompt on the native run to the next one. -/
theorem AtPrompt.step (hprompt : AtPrompt P code init s) (hown : P.NoInt3 code init)
    (hexact : Exact P s c) (hstep : TraceStep P s c s') : AtPrompt P code init s' := by
  obtain ⟨steps, out, hok⟩ := hstep.2
  cases c with
  | patch => cases hstep.1
  | brk a =>
    have hkeeps : KeepsArmed P s (.brk a) := hexact
    have harmed := hprompt.armed.step hkeeps hstep
    rcases setBreakpoints_cases hok with ⟨_, rfl⟩ | ⟨_, rfl⟩
    · exact hprompt
    · exact hprompt.withBp harmed
  | delete id =>
    have hkeeps : KeepsArmed P s (.delete id) := hexact
    have harmed := hprompt.armed.step hkeeps hstep
    rcases deleteBreakpoint_cases hok with ⟨_, rfl⟩ | ⟨i, rfl, hi, ⟨hinactive, rfl⟩ | ⟨_, rfl⟩⟩
    · exact hprompt
    · rw [poke_saved_inactive (hexact i rfl hi) hinactive]
      exact hprompt
    · exact hprompt.withoutBp harmed
  | resume cmd =>
    cases cmd with
    | si =>
      obtain ⟨c', hinstr⟩ := hprompt.instruction_of_perform hown hexact hok
      exact (hprompt.si_answers hown hexact hinstr).atPrompt hok
    | cont =>
      obtain ⟨c', hfirst⟩ := hprompt.firstStop_of_cont hown hexact hok
      exact (hprompt.cont_answers hown hexact hfirst).atPrompt hok
    | syscall =>
      obtain ⟨o, c', hfirst⟩ := hprompt.firstStop_of_syscall hown hexact hok
      exact (hprompt.syscall_answers hown hexact hfirst).atPrompt hok

/-- Every prompt of an exact run is on the native run. -/
theorem atPrompt_run (hown : P.NoInt3 mem ⟨regs, data, false, []⟩)
    (hrun : TraceRun P mem regs data history s) (hexact : EachStep (Exact P) history) :
    Throughout (AtPrompt P mem ⟨regs, data, false, []⟩) history s :=
  hrun.throughout_of_step (atPrompt_load mem regs data)
    (fun _ _ _ hprompt hexact hstep => hprompt.step hown hexact hstep) hexact

/-! ## Two samples -/

/-- A breakpoint is set where none is active, while there is room. -/
theorem traceStep_brk {a : Addr} (hfree : s.activeAt a = none)
    (hroom : s.numBreakpoints < maxBreakpoints) : TraceStep P s (.brk a) (withBp s a) := by
  have hroom' : ¬s.numBreakpoints ≥ maxBreakpoints := not_le.mpr hroom
  refine ⟨rfl, 0, [.set a], ?_⟩
  simp only [perform, setBreakpoints, hfree, Option.isSome_none, Bool.false_eq_true, if_false,
    if_neg hroom']
  rfl

/-- The sample program after a breakpoint has been set ahead of it, -/
theorem sampleRun_break : TraceRun sampleProgram (fun _ => 0) ⟨0, 0, 0, ()⟩ ()
      [(sampleSession 0, .brk 5)] (withBp (sampleSession 0) 5) ∧
    EachStep (Exact sampleProgram) [(sampleSession 0, Command.brk 5)] ∧
    sampleProgram.NoInt3 (fun _ => 0) ⟨⟨0, 0, 0, ()⟩, (), false, []⟩ ∧
    ∀ i, (withBp (sampleSession 0) 5).Active i →
      ((withBp (sampleSession 0) 5).breakpoints i).addr ≠ (withBp (sampleSession 0) 5).rip := by
  have hzero : (0 : BitVec 8) ≠ 0xcc#8 := by decide
  refine ⟨Run.start.step (traceStep_brk rfl (by decide)), ?_, fun _ _ _ => hzero, ?_⟩
  · rw [eachStep_cons]
    exact ⟨trivial, eachStep_nil⟩
  · intro i hi
    obtain rfl : i = 0 := Nat.lt_one_iff.mp hi.1
    decide

/-- A program whose instructions have two bytes. -/
def wideProgram : Program Unit Unit where
  exec regs data := some ({ regs with rip := regs.rip + 2 }, data)
  kernel _ _ := none

/-- What a command is seen to print is what it settles on. -/
theorem out_of_settles {cmd : Resume} (steps : ℕ) {out out' : List Output}
    (hseen : (perform P steps s (.resume cmd)).toOption.map Prod.fst = some out)
    (hsettles : Settles (fun n => perform P n s (.resume cmd)) (.ok (out', s'))) : out' = out := by
  cases hok : perform P steps s (.resume cmd) with
  | error e =>
    rw [hok] at hseen
    cases hseen
  | ok result =>
    have hsame := hsettles.eq_of_ok (fun _ _ _ hle => perform_mono hle) hok
    rw [hok] at hseen
    rw [← Option.some.inj hseen, ← Except.ok.inj hsame]

/-! ## `si` -/

/-- For every program and every exact run, `si` executes exactly one instruction where it is
exact. -/
theorem si_right_run (P : Program γ δ) (mem : ByteMemory 64) (regs : Regs γ) (data : δ)
    (hown : P.NoInt3 mem ⟨regs, data, false, []⟩) (hrun : TraceRun P mem regs data history s)
    (hexact : EachStep (Exact P) history) :
    Throughout (fun s => SiExact P s → SiRight P s) history s := by
  have hright : ∀ s, AtPrompt P mem ⟨regs, data, false, []⟩ s → SiExact P s → SiRight P s := by
    intro s hprompt hexact c' hinstr
    obtain ⟨out, s', hsettles, hcore, hreport, _⟩ := hprompt.si_answers hown hexact hinstr
    exact ⟨out, s', hsettles, hcore, hreport⟩
  have hprompts := atPrompt_run hown hrun hexact
  exact ⟨hright s hprompts.1, fun x hx => hright x.1 (hprompts.2 x hx)⟩

/-- The sample program makes one step towards the breakpoint. -/
theorem si_right_run_break : SiRight sampleProgram (withBp (sampleSession 0) 5) := by
  obtain ⟨hrun, hexact, hown, hnone⟩ := sampleRun_break
  apply (si_right_run sampleProgram _ _ _ hown hrun hexact).1
  refine ⟨fun h => ?_, fun h => ?_, fun i c' h => ?_, fun _ i hi haddr => absurd haddr (hnone i hi)⟩
  all_goals cases h

/-- With a breakpoint set at the current address after one at the next instruction, `si` comes to
that one and prints nothing. -/
theorem not_si_right_break_here :
    ¬∀ s, Reachable (sampleSession 0) (TraceStep wideProgram) s → SiRight wideProgram s := by
  intro hall
  have hreach : Reachable (sampleSession 0) (TraceStep wideProgram)
      (withBp (withBp (sampleSession 0) 2) 0) :=
    (reachable_init.step (traceStep_brk rfl (by decide))).step (traceStep_brk rfl (by decide))
  obtain ⟨out, s', hsettles, _, hreport⟩ := hall _ hreach ⟨⟨2, 0, 0, ()⟩, (), false, []⟩ (.ran rfl)
  obtain rfl : out = [] := out_of_settles 20 (by decide) hsettles
  rcases hreport with ⟨_, hhit⟩ | ⟨hnone, _⟩
  · cases hhit
  · exact hnone ⟨0, by decide, by decide⟩

/-! ## `cont` -/

/-- For every program and every exact run, `cont` stops where it should where it is exact. -/
theorem cont_right_run (P : Program γ δ) (mem : ByteMemory 64) (regs : Regs γ) (data : δ)
    (hown : P.NoInt3 mem ⟨regs, data, false, []⟩) (hrun : TraceRun P mem regs data history s)
    (hexact : EachStep (Exact P) history) :
    Throughout (fun s => ContExact P s → ContRight P s) history s := by
  have hright : ∀ s, AtPrompt P mem ⟨regs, data, false, []⟩ s → ContExact P s → ContRight P s := by
    intro s hprompt hexact
    refine ⟨fun c' hfirst => ?_, hprompt.cont_exits hown hexact⟩
    obtain ⟨out, s', hsettles, hcore, hreport, _⟩ := hprompt.cont_answers hown hexact hfirst
    rcases hreport with ⟨_, rfl⟩ | ⟨hnone, _⟩
    · exact ⟨s', hsettles, hcore⟩
    · exact absurd hfirst.arrived_at.2 hnone
  have hprompts := atPrompt_run hown hrun hexact
  exact ⟨hright s hprompts.1, fun x hx => hright x.1 (hprompts.2 x hx)⟩

/-- The sample program runs into the breakpoint. -/
theorem cont_right_run_break : ContRight sampleProgram (withBp (sampleSession 0) 5) := by
  obtain ⟨hrun, hexact, hown, hnone⟩ := sampleRun_break
  apply (cont_right_run sampleProgram _ _ _ hown hrun hexact).1
  refine ⟨fun h => ?_, fun i hi haddr => absurd haddr (hnone i hi), fun h => ?_⟩
  all_goals cases h

/-- With a breakpoint set at the current address after one at the next instruction, `cont` comes
to that one and prints nothing. -/
theorem not_cont_right_break_here :
    ¬∀ s, Reachable (sampleSession 0) (TraceStep sampleProgram) s → ContRight sampleProgram s := by
  intro hall
  have hreach : Reachable (sampleSession 0) (TraceStep sampleProgram)
      (withBp (withBp (sampleSession 0) 1) 0) :=
    (reachable_init.step (traceStep_brk rfl (by decide))).step (traceStep_brk rfl (by decide))
  have hfirst : sampleProgram.FirstStop .cont (withBp (withBp (sampleSession 0) 1) 0).ActiveAt
      (withBp (withBp (sampleSession 0) 1) 0).core none ⟨⟨1, 0, 0, ()⟩, (), false, []⟩ :=
    .arrives rfl rfl ⟨rfl, 0, by decide, by decide⟩
  obtain ⟨s', hsettles, _⟩ := (hall _ hreach).1 _ hfirst
  have hout : _ = [] := out_of_settles 20 (by decide) hsettles
  cases hout

/-! ## `syscall` -/

/-- For every program and every exact run, `syscall` stops at the first event where it is
exact. -/
theorem syscall_right_run (P : Program γ δ) (mem : ByteMemory 64) (regs : Regs γ) (data : δ)
    (hown : P.NoInt3 mem ⟨regs, data, false, []⟩) (hrun : TraceRun P mem regs data history s)
    (hexact : EachStep (Exact P) history) :
    Throughout (fun s => SyscallExact P s → SyscallRight P s) history s := by
  have hright : ∀ s, AtPrompt P mem ⟨regs, data, false, []⟩ s → SyscallExact P s →
      SyscallRight P s := by
    intro s hprompt hexact o c' hfirst
    obtain ⟨out, s', hsettles, hcore, rfl, _⟩ := hprompt.syscall_answers hown hexact hfirst
    exact ⟨s', hsettles, hcore⟩
  have hprompts := atPrompt_run hown hrun hexact
  exact ⟨hright s hprompts.1, fun x hx => hright x.1 (hprompts.2 x hx)⟩

/-- The sample program runs into the breakpoint before it comes to its system call. -/
theorem syscall_right_run_break : SyscallRight sampleProgram (withBp (sampleSession 0) 5) := by
  obtain ⟨hrun, hexact, hown, hnone⟩ := sampleRun_break
  apply (syscall_right_run sampleProgram _ _ _ hown hrun hexact).1
  refine ⟨fun h => ?_, fun _ i hi haddr => absurd haddr (hnone i hi), fun h => ?_, fun _ h => ?_⟩
  all_goals cases h

/-- With a breakpoint set at the current address, where there is a system call, `syscall` enters
it and prints nothing. -/
theorem not_syscall_right_break_here :
    ¬∀ s, Reachable (sampleSession 0x100) (TraceStep sampleProgram) s →
      SyscallRight sampleProgram s := by
  intro hall
  have hreach : Reachable (sampleSession 0x100) (TraceStep sampleProgram)
      (withBp (sampleSession 0x100) 0x100) :=
    reachable_init.step (traceStep_brk rfl (by decide))
  have hfirst : sampleProgram.FirstStop .syscall (withBp (sampleSession 0x100) 0x100).ActiveAt
      (withBp (sampleSession 0x100) 0x100).core (some .entry)
      ⟨⟨0x102, enosys, 0, ()⟩, (), true, []⟩ := .reported rfl rfl
  obtain ⟨s', hsettles, _⟩ := hall _ hreach _ _ hfirst
  have hout : _ = [] := out_of_settles 20 (by decide) hsettles
  cases hout

end UnixProgramming.Sdb
