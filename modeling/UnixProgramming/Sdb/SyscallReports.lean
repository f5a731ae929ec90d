import UnixProgramming.Sdb.Stops

/-!
# Reports of system calls

`command_syscall` does not ask whether it stopped at the entry or the exit of a system
call. It keeps a flag that changes with every report, and corrects it when the number of
the call is not the one reported last. `InStep` says when flag and number agree with the
tracee; the conditions name the ways in which a stop at a system call goes unreported.
-/

namespace UnixProgramming.Sdb

variable {γ δ : Type} {P : Program γ δ} {steps : ℕ} {s s' s₁ : Session γ δ} {cmd : Resume}
variable {c : Command} {rip : Addr} {out : List Output} {number result : Word}

/-- The prompt: the session, and the lines printed since the prompt before. -/
structure Prompt (γ δ : Type) where
  session : Session γ δ
  printed : List Output

/-- The commands `break`, `si`, `cont` and `syscall`. -/
def Command.watches : Command → Bool
  | .brk _ | .resume _ => true
  | _ => false

/-- A `break`, `si`, `cont` or `syscall` command that comes back to the prompt. -/
def ReportStep (P : Program γ δ) (p : Prompt γ δ) (c : Command) (p' : Prompt γ δ) : Prop :=
  c.watches = true ∧ ∃ steps, perform P steps p.session c = .ok (p'.printed, p'.session)

/-- The prompt after a program is loaded. -/
def Prompt.load (mem : ByteMemory 64) (regs : Regs γ) (data : δ) : Prompt γ δ :=
  ⟨.load mem regs data, []⟩

/-- The tracee is at the entry stop of a system call. -/
def AtEntry (s : Session γ δ) (number : Word) : Prop :=
  s.stop = .entry ∧ s.core.inSyscall = true ∧ s.core.regs.origRax = number

/-- The tracee is at the exit stop of a system call, which is the last one carried out and
had the result. -/
def AtExit (P : Program γ δ) (s : Session γ δ) (number result : Word) : Prop :=
  s.stop = .exit ∧ s.core.inSyscall = false ∧
    ∃ calls regs data, s.core.performed = calls ++ [regs] ∧ regs.origRax = number ∧
      P.kernel regs data = some (result, s.core.data)

/-- What a line says about system calls is true. -/
def Output.Truthful (P : Program γ δ) (s : Session γ δ) : Output → Prop
  | enterSyscall number _ => AtEntry s number
  | leaveSyscall number result _ => AtExit P s number result
  | _ => True

/-- The reports of system calls at the prompt are true. -/
def ReportsTrue (P : Program γ δ) (p : Prompt γ δ) : Prop :=
  ∀ line ∈ p.printed, line.Truthful P p.session

/-- Inside a system call, its entry was reported last, and no breakpoint waits. -/
def InStep (s : Session γ δ) : Prop :=
  s.core.inSyscall = true →
    s.enter = false ∧ s.preOrigRax = s.core.regs.origRax ∧ s.bpAgain = false

/-- The `syscall` commands that keep the flag in step: after an exit that went unreported,
the next system call has another number than the one reported last; no breakpoint is
stepped over up to a stop at a system call; and while a breakpoint waits, the tracee does
not enter a system call right before it. -/
def KeepsInStep (P : Program γ δ) (s : Session γ δ) : Command → Prop
  | .resume .syscall =>
      (s.core.inSyscall = false → s.enter = false → ∀ s₁, Stopped P .syscall s s₁ →
        s₁.stop = .entry → s₁.core.regs.origRax ≠ s.preOrigRax) ∧
      (∀ s₁ s₂, Stopped P .syscall s s₁ → s₁.stop = .trapped →
        OverStop P .syscall s₁ s₁.rip s₂ → s₂.stop = .trapped) ∧
      (s.bpAgain = true → ∀ steps s₁, s.run P .syscall steps = .ok s₁ → s₁.stop = .entry →
        s₁.rip ≠ (s.breakpoints s.whichBp).addr)
  | _ => True

/-- Outside of system calls nothing has to be in step. -/
theorem inStep_of_outside (hout : s.core.inSyscall = false) : InStep s := by
  intro hin
  simp [hout] at hin

/-- What `set_breakpoints` prints does not speak of system calls. -/
theorem setBreakpoints_truthful {a : Addr} (hok : setBreakpoints s a = .ok (out, s')) :
    ∀ line ∈ out, line.Truthful P s' := by
  unfold setBreakpoints at hok
  split at hok
  · cases hok
    simp [Output.Truthful]
  · dsimp only at hok
    split at hok
    · cases hok
    · cases hok
      simp [Output.Truthful]

/-- What `handle_breakpoints` prints does not speak of system calls either. -/
theorem Handled.truthful (hhandled : Handled P cmd s rip out s') :
    ∀ line ∈ out, line.Truthful P s' := by
  induction hhandled with
  | nothing | past => simp
  | hit => simp [Output.Truthful]
  | next _ _ _ ih => exact ih

/-- Stepping over a breakpoint does not enter a system call, or leave one. -/
theorem steppedOver_inSyscall (s : Session γ δ) (i : ℕ) (cmd : Resume) :
    (s.steppedOver i cmd).core.inSyscall = s.core.inSyscall := by
  cases cmd with
  | si | cont => rfl
  | syscall =>
    simp only [Session.steppedOver]
    split
    · rfl
    · split <;> rfl

/-- `handle_breakpoints` ends outside of system calls if it steps over breakpoints up to
traps only. -/
theorem Handled.outside (hhandled : Handled P cmd s rip out s')
    (hout : s.core.inSyscall = false)
    (hstops : cmd = .syscall → ∀ s₁, OverStop P cmd s rip s₁ → s₁.stop = .trapped) :
    s'.core.inSyscall = false := by
  have hover : ∀ {s s₁ : Session γ δ} {rip i}, StepsOver P cmd s rip i s₁ →
      (cmd = .syscall → s₁.stop = .trapped) → (s₁.steppedOver i cmd).core.inSyscall = false := by
    rintro s s₁ rip i ⟨_, _, _, steps, hrun⟩ htrapped
    rw [steppedOver_inSyscall]
    have hstopped := run_stoppedBy hrun
    cases cmd with
    | si | cont => exact (hstopped.outside (by simp [Resume.request])).2
    | syscall =>
      apply hstopped.outside_of_stop
      rw [htrapped rfl]
      rfl
  induction hhandled with
  | nothing | hit => exact hout
  | past hsteps => exact hover hsteps fun hcmd => hstops hcmd _ (.here hsteps)
  | next hsteps hnext _ ih =>
    apply ih
    · exact hover hsteps fun hcmd => hstops hcmd _ (.here hsteps)
    · exact fun hcmd s₂ hlater => hstops hcmd s₂ (.later hsteps hnext hlater)

/-- The stop that a command looks at leaves the flag and the number as they are, and no
breakpoint waits any more. -/
theorem Stopped.flags (hstopped : Stopped P cmd s s') :
    s'.enter = s.enter ∧ s'.preOrigRax = s.preOrigRax ∧ s'.bpAgain = false := by
  have hrearmed : ∀ {mode s'}, Rearmed P mode s s' →
      s'.enter = s.enter ∧ s'.preOrigRax = s.preOrigRax ∧ s'.bpAgain = false := by
    rintro mode s' (hrun | hrun)
    · obtain ⟨_, _, _, rfl⟩ := run_eq_ok.mp hrun
      exact ⟨rfl, rfl, rfl⟩
    · next hagain =>
      obtain ⟨_, _, _, rfl⟩ := run_eq_ok.mp hrun
      obtain ⟨_, _, _, rfl⟩ := run_eq_ok.mp hagain
      exact ⟨rfl, rfl, rfl⟩
  cases hstopped with
  | once hagain hrun =>
    obtain ⟨_, _, _, rfl⟩ := run_eq_ok.mp hrun
    exact ⟨rfl, rfl, hagain⟩
  | again _ _ hfirst => exact hrearmed hfirst
  | onward _ hfirst hrun =>
    obtain ⟨_, _, _, rfl⟩ := run_eq_ok.mp hrun
    have hflags := hrearmed hfirst
    exact hflags

/-- Outside of system calls, `PTRACE_SYSCALL` does not stop at an exit. -/
theorem run_syscall_outside (hout : s.core.inSyscall = false)
    (hok : s.run P .syscall steps = .ok s') : s'.stop ≠ .exit := by
  obtain ⟨stop, core, hresume, rfl⟩ := run_eq_ok.mp hok
  exact P.resume_syscall_outside hout hresume

/-- Outside of system calls, the command `syscall` does not stop at an exit, unless its first
request enters a system call right before the waiting breakpoint. -/
theorem Stopped.syscall_outside (hstopped : Stopped P .syscall s s')
    (hout : s.core.inSyscall = false)
    (hfirst : s.bpAgain = true → ∀ steps s₁, s.run P .syscall steps = .ok s₁ →
      s₁.stop = .entry → s₁.rip ≠ (s.breakpoints s.whichBp).addr) : s'.stop ≠ .exit := by
  cases hstopped with
  | once _ hrun => exact run_syscall_outside hout hrun
  | again _ hagain hrearmed =>
    cases hrearmed with
    | away hrun =>
      have hne := run_syscall_outside hout hrun
      exact hne
    | @back _ s₁ s₂ hrun hback hrun' =>
      have hout' : s₁.core.inSyscall = false := by
        rw [← Bool.not_eq_true, (run_stoppedBy hrun).2]
        exact fun hentry => hfirst hagain _ s₁ hrun hentry hback
      have hne := run_syscall_outside (s := s₁.plantAgain s.whichBp) hout' hrun'
      exact hne

/-- Inside a system call, the command `syscall` stops at its exit. -/
theorem Stopped.syscall_inside (hstopped : Stopped P .syscall s s')
    (hin : s.core.inSyscall = true) (hagain : s.bpAgain = false) :
    AtExit P s' s.core.regs.origRax s'.core.regs.rax ∧
      s'.core.regs.origRax = s.core.regs.origRax := by
  cases hstopped with
  | again _ h => simp [hagain] at h
  | once _ hrun =>
    obtain ⟨stop, core, hresume, rfl⟩ := run_eq_ok.mp hrun
    obtain ⟨rfl, hstep⟩ := P.resume_syscall_inside hin hresume
    obtain ⟨result, data, hkernel, rfl⟩ := P.nativeStep_left_eq hstep
    exact ⟨⟨rfl, rfl, s.core.performed, s.core.regs, s.core.data, rfl, rfl, hkernel⟩, rfl⟩

/-- A report that expects what the tracee has stopped at is true, and leaves flag and number
in step. -/
theorem reportSyscall_truthful (hstopped : StoppedBy .syscall s) (hagain : s.bpAgain = false)
    (hentry : s.stop = .entry → s.enter = true ∨ s.core.regs.origRax ≠ s.preOrigRax)
    (hexit : s.stop ≠ .entry → s.enter = false ∧ s.preOrigRax = s.core.regs.origRax ∧
      AtExit P s s.core.regs.origRax s.core.regs.rax) :
    (∀ line ∈ (reportSyscall s).1, line.Truthful P (reportSyscall s).2) ∧
      InStep (reportSyscall s).2 := by
  by_cases hstop : s.stop = .entry
  · have henter : (if (!s.enter && s.preOrigRax ≠ s.core.regs.origRax) = true then true
        else s.enter) = true := by
      cases hflag : s.enter with
      | true => simp
      | false =>
        have hne := (hentry hstop).resolve_left (by simp [hflag])
        simp [Ne.symm hne]
    have hin := hstopped.2.mpr hstop
    refine ⟨?_, fun _ => ⟨?_, rfl, hagain⟩⟩
    · simp only [reportSyscall, henter, if_true, List.mem_singleton]
      rintro line rfl
      exact ⟨hstop, hin, rfl⟩
    · simp only [reportSyscall, henter, Bool.not_true]
  · obtain ⟨hflag, hpre, hat⟩ := hexit hstop
    have henter : (if (!s.enter && s.preOrigRax ≠ s.core.regs.origRax) = true then true
        else s.enter) = false := by
      simp [hflag, hpre]
    refine ⟨?_, inStep_of_outside hat.2.1⟩
    simp only [reportSyscall, henter, List.mem_singleton]
    rintro line rfl
    exact hat

/-- One command prints true reports only and keeps flag and number in step. -/
theorem reportsTrue_step {p p' : Prompt γ δ} (hinstep : InStep p.session)
    (hkeeps : KeepsInStep P p.session c) (hstep : ReportStep P p c p') :
    ReportsTrue P p' ∧ InStep p'.session := by
  obtain ⟨s, printed⟩ := p
  obtain ⟨s', out⟩ := p'
  obtain ⟨hwatches, steps, hok⟩ := hstep
  cases c with
  | patch | delete => cases hwatches
  | brk a =>
    refine ⟨setBreakpoints_truthful hok, ?_⟩
    obtain ⟨_, rfl⟩ | ⟨_, rfl⟩ := setBreakpoints_cases hok
    all_goals exact hinstep
  | resume cmd =>
    obtain ⟨s₁, hstopped, hended⟩ := resume_cases hok
    have hby := hstopped.stoppedBy
    cases hended with
    | plain hcmd =>
      subst hcmd
      exact ⟨by simp [ReportsTrue], inStep_of_outside (hby.outside (by simp [Resume.request])).2⟩
    | reported hcmd hcalls =>
      subst hcmd
      obtain ⟨hnumber, _, hback⟩ := hkeeps
      obtain ⟨henter, hpre, hagain⟩ := hstopped.flags
      cases hin : s.core.inSyscall with
      | true =>
        obtain ⟨hflag, hlast, hnone⟩ := hinstep hin
        obtain ⟨hat, hsame⟩ := hstopped.syscall_inside hin hnone
        apply reportSyscall_truthful hby hagain
        · simp [hat.1]
        · intro _
          rw [henter, hpre, hsame]
          exact ⟨hflag, hlast, hat⟩
      | false =>
        have hne := hstopped.syscall_outside hin hback
        have hentry : s₁.stop = .entry := by
          cases hstop : s₁.stop <;> simp_all [Stop.atSyscall]
        apply reportSyscall_truthful hby hagain
        · intro _
          rw [henter, hpre]
          cases hflag : s.enter with
          | true => exact .inl rfl
          | false => exact .inr (hnumber hin hflag s₁ hstopped hentry)
        · exact fun hother => absurd hentry hother
    | handled htohandle hhandled =>
      refine ⟨hhandled.truthful, inStep_of_outside (hhandled.outside ?_ ?_)⟩
      · obtain htrapped | ⟨rfl, _⟩ := htohandle
        · exact hby.outside_of_stop (by rw [htrapped]; rfl)
        · exact (hby.outside (by simp [Resume.request])).2
      · rintro rfl s₂ hover
        have htrapped := htohandle.resolve_right (by simp)
        exact hkeeps.2.1 s₁ s₂ hstopped htrapped hover

/-- For every program and every sequence of `break`, `si`, `cont` and `syscall` of the kind
above, the reports of system calls are true at every prompt. -/
theorem reportsTrue_run (P : Program γ δ) (mem : ByteMemory 64) (regs : Regs γ) (data : δ)
    {history : List (Prompt γ δ × Command)} {p : Prompt γ δ}
    (hrun : Run (.load mem regs data) (ReportStep P) history p)
    (hkeeps : EachStep (fun p c => KeepsInStep P p.session c) history) :
    Throughout (ReportsTrue P) history p := by
  have hinit : ReportsTrue P (.load mem regs data) ∧
      InStep (Prompt.load mem regs data).session :=
    ⟨by simp [ReportsTrue, Prompt.load], inStep_of_outside rfl⟩
  have hall := hrun.throughout_of_step (P := fun p => ReportsTrue P p ∧ InStep p.session) hinit
    (fun p c p' hp hkeeps hstep => reportsTrue_step hp.2 hkeeps hstep) hkeeps
  exact ⟨hall.1.1, fun x hx => (hall.2 x hx).1⟩

/-- While no breakpoint waits, no flag of one is set and the debugger expects an entry or
the tracee is inside a system call, `syscall` keeps in step. -/
theorem keepsInStep_of_flags (hagain : s.bpAgain = false)
    (hflags : ∀ i, (s.breakpoints i).ignoreRipEqualBreak = false)
    (hexpects : s.core.inSyscall = false → s.enter = true) :
    KeepsInStep P s (.resume .syscall) := by
  refine ⟨fun hout hflag => ?_, fun s₁ s₂ hstopped _ hover => ?_, fun h => ?_⟩
  · simp [hexpects hout] at hflag
  · obtain ⟨i, hflag⟩ := hover.exists_flag
    rw [hstopped.breakpoints hagain, hflags i] at hflag
    cases hflag
  · simp [hagain] at h

/-- A program that does nothing but the system call 0, which answers 0. -/
def callProgram : Program Unit Unit where
  exec _ _ := none
  kernel _ data := some (0, data)

/-- The program of system calls before its first one. -/
def callPrompt : Prompt Unit Unit := .load (fun _ => 0) ⟨0, 0, 0, ()⟩ ()

/-- Commands that come back to the prompt one after another are a run. -/
theorem reachable_prompt {init p : Prompt γ δ} {cs : List Command}
    (hwatches : ∀ c ∈ cs, c.watches = true) (hok : script P steps p.session cs = .ok s)
    (hreach : Reachable init (ReportStep P) p) :
    ∃ printed, Reachable init (ReportStep P) ⟨s, printed⟩ := by
  induction cs generalizing p with
  | nil =>
    obtain rfl : p.session = s := Except.ok.inj hok
    exact ⟨p.printed, hreach⟩
  | cons c cs ih =>
    obtain ⟨s₁, ⟨n, out, hperform⟩, hrest⟩ := script_cons hok
    exact ih (p := ⟨s₁, out⟩) (fun c' hc' => hwatches c' (List.mem_cons_of_mem c hc')) hrest
      (hreach.step ⟨hwatches c List.mem_cons_self, n, hperform⟩)

/-- The program of system calls at the entry of its first one, which has been reported. -/
def callEntered : Session Unit Unit :=
  { callPrompt.session with
    core := ⟨⟨2, enosys, 0, ()⟩, (), true, []⟩
    stop := .entry
    preOrigRax := 0
    enter := false }

/-- `syscall` twice: the first system call is entered and left. -/
theorem reportsTrue_run_call :
    ∃ history p, Run callPrompt (ReportStep callProgram) history p ∧
      p.printed = [.leaveSyscall 0 0 0] ∧ Throughout (ReportsTrue callProgram) history p := by
  have hentered : ReportStep callProgram callPrompt (.resume .syscall)
      ⟨callEntered, [.enterSyscall 0 0]⟩ := ⟨rfl, 1, rfl⟩
  have hleft : ReportStep callProgram ⟨callEntered, [.enterSyscall 0 0]⟩ (.resume .syscall)
      ⟨_, [.leaveSyscall 0 0 0]⟩ := ⟨rfl, 1, rfl⟩
  have hrun := Run.step (.step .start hentered) hleft
  refine ⟨_, _, hrun, rfl, reportsTrue_run _ _ _ _ hrun ?_⟩
  rw [eachStep_cons, eachStep_cons]
  refine ⟨?_, ?_, eachStep_nil⟩
  · exact keepsInStep_of_flags rfl (fun _ => rfl) (by simp [callEntered])
  · exact keepsInStep_of_flags rfl (fun _ => rfl) (fun _ => rfl)

/-- `syscall`, `si`, `syscall`: the exit of the first system call goes unreported, and the
entry of the second one, which has the same number, is reported as an exit. -/
theorem not_reportsTrue_after_si :
    ¬∀ p, Reachable callPrompt (ReportStep callProgram) p → ReportsTrue callProgram p := by
  intro hall
  let cs : List Command := [.resume .syscall, .resume .si]
  obtain ⟨s, hok⟩ := exists_ok_of_isSome
    (show (script callProgram 5 callPrompt.session cs).toOption.isSome = true by decide)
  have hview : ((script callProgram 5 callPrompt.session cs).toOption.bind fun s =>
      (perform callProgram 5 s (.resume .syscall)).toOption.map fun r => (r.1, r.2.stop)) =
        some ([.leaveSyscall 0 enosys 2], .entry) := by decide
  rw [hok] at hview
  cases hperform : perform callProgram 5 s (.resume .syscall) with
  | error e => simp [hperform, Except.toOption] at hview
  | ok result =>
    obtain ⟨out, s'⟩ := result
    simp only [Except.toOption, hperform, Option.bind_some, Option.map_some, Option.some.injEq,
      Prod.mk.injEq] at hview
    obtain ⟨printed, hreach⟩ := reachable_prompt (by simp [cs, Command.watches]) hok reachable_init
    have htrue := hall ⟨s', out⟩ (hreach.step ⟨rfl, 5, hperform⟩)
    obtain ⟨hexit, _⟩ := htrue (.leaveSyscall 0 enosys 2) (by simp [hview.1])
    simp [hview.2] at hexit

end UnixProgramming.Sdb
