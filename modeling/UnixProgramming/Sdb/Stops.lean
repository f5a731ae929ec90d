import UnixProgramming.Sdb.Arming

/-!
# Commands from stop to stop

The commands that let the tracee run, taken apart into the requests they consist of.
`Rearmed` and `Handled` list the ways in which the first part of a command and
`handle_breakpoints` can come to an end; every invariant of a run goes through them.
-/

namespace UnixProgramming.Sdb

variable {γ δ : Type} {P : Program γ δ} {mode : Mode} {steps : ℕ} {s s' : Session γ δ}
variable {out : List Output} {rip : Addr} {cmd : Resume}

/-- A request changes the execution state of the tracee and its stop only. -/
theorem run_eq_ok :
    s.run P mode steps = .ok s' ↔ ∃ stop core, P.resume s.mem mode steps s.core = .ok (stop, core) ∧
      { s with core, stop } = s' := by
  simp only [Session.run, bind_eq_ok, pure_eq_ok, Prod.exists]

/-- A request keeps its stop when more steps are granted. -/
theorem run_mono {steps' : ℕ} (hle : steps ≤ steps') (hok : s.run P mode steps = .ok s') :
    s.run P mode steps' = .ok s' := by
  obtain ⟨stop, core, hresume, rfl⟩ := run_eq_ok.mp hok
  exact run_eq_ok.mpr ⟨stop, core, P.resume_mono hle hresume, rfl⟩

/-- The stop is one that the request leads to, and the tracee is inside a system call
exactly when it is an entry stop. -/
def StoppedBy (mode : Mode) (s : Session γ δ) : Prop :=
  (s.stop = .trapped ∨ ∃ event, mode.stop? event = some s.stop) ∧
    (s.core.inSyscall = true ↔ s.stop = .entry)

/-- A request ends in one of its stops. -/
theorem run_stoppedBy (hok : s.run P mode steps = .ok s') : StoppedBy mode s' := by
  obtain ⟨stop, core, hresume, rfl⟩ := run_eq_ok.mp hok
  refine ⟨(P.resume_last hresume).imp_right ?_, P.resume_inSyscall hresume⟩
  rintro ⟨_, event, _, hevent⟩
  exact ⟨event, hevent⟩

/-- A stop that is none at a system call is outside of all. -/
theorem StoppedBy.outside_of_stop (hstopped : StoppedBy mode s)
    (hcalls : s.stop.atSyscall = false) : s.core.inSyscall = false := by
  rw [← Bool.not_eq_true, hstopped.2]
  intro hentry
  simp [hentry, Stop.atSyscall] at hcalls

/-- Single steps and `PTRACE_CONT` do not stop at system calls. -/
theorem StoppedBy.outside (hstopped : StoppedBy mode s)
    (hmode : mode ≠ .syscall) : s.stop.atSyscall = false ∧ s.core.inSyscall = false := by
  obtain ⟨hstop, hin⟩ := hstopped
  have hcalls : s.stop.atSyscall = false := by
    obtain htrapped | ⟨event, hevent⟩ := hstop
    · rw [htrapped]
      rfl
    · cases mode <;> cases event <;> simp_all [Mode.stop?] <;> simp [← hevent, Stop.atSyscall]
  exact ⟨hcalls, StoppedBy.outside_of_stop ⟨hstop, hin⟩ hcalls⟩

/-- How the first part of a command ends: the breakpoint that waited is planted again,
after one request, or the tracee stands on it and is resumed once more. -/
inductive Rearmed (P : Program γ δ) (mode : Mode) (s : Session γ δ) : Session γ δ → Prop
  | away {steps : ℕ} {s₁ : Session γ δ} : s.run P mode steps = .ok s₁ →
      s₁.rip ≠ (s.breakpoints s.whichBp).addr →
      Rearmed P mode s { s₁.plantAgain s.whichBp with bpAgain := false }
  | back {steps : ℕ} {s₁ s₂ : Session γ δ} : s.run P mode steps = .ok s₁ →
      s₁.rip = (s.breakpoints s.whichBp).addr →
      (s₁.plantAgain s.whichBp).run P mode steps = .ok s₂ →
      Rearmed P mode s { s₂ with bpAgain := false }

theorem rearm_rearmed (hok : s.rearm P mode steps = .ok s') : Rearmed P mode s s' := by
  simp only [Session.rearm, bind_eq_ok, pure_eq_ok] at hok
  obtain ⟨s₁, hrun, s₂, hagain, rfl⟩ := hok
  obtain ⟨stop, core, hresume, rfl⟩ := run_eq_ok.mp hrun
  unfold Session.runAgain at hagain
  split at hagain
  · next hback => exact .back hrun hback hagain
  · next haway => exact pure_eq_ok.mp hagain ▸ .away hrun haway

/-- The last request of the first part ends in one of its stops. -/
theorem Rearmed.stoppedBy (hrearmed : Rearmed P mode s s') : StoppedBy mode s' := by
  cases hrearmed with
  | away hrun =>
    have hstopped := run_stoppedBy hrun
    exact hstopped
  | back _ _ hrun =>
    have hstopped := run_stoppedBy hrun
    exact hstopped

/-- The request by which a command lets the tracee run. -/
def Resume.request : Resume → Mode
  | si => .singlestep
  | cont => .cont
  | syscall => .syscall

/-- A breakpoint is reported as hit: it is lifted and waits to be planted again. -/
def Session.hit (s : Session γ δ) (i : ℕ) : Session γ δ :=
  { s with bpAgain := true, whichBp := i }.restoreOriginal i

/-- A breakpoint whose flag is set is lifted without a report. -/
def Session.stepOver (s : Session γ δ) (i : ℕ) : Session γ δ :=
  (s.setBp i { s.breakpoints i with ignoreRipEqualBreak := false }).restoreOriginal i

/-- What `handle_breakpoints` does after the request that follows. -/
def Session.steppedOver (s : Session γ δ) (i : ℕ) : Resume → Session γ δ
  | .si => s.plantAgain i
  | .cont => { s with bpAgain := true, whichBp := i }.setRip (s.rip - 1)
  | .syscall =>
    let s := { s with bpAgain := true, whichBp := i }
    if s.stop.siCode = 128 then s.setRip (s.rip - 1)
    else if s.stop.siCode = 133 then s.setRip (s.rip - 2)
    else s

/-- At a trap, `cont` and `syscall` move `rip` back by one. -/
theorem steppedOver_core (htrapped : s.stop = .trapped) (hcmd : cmd ≠ .si) (i : ℕ) :
    (s.steppedOver i cmd).core = (s.setRip (s.rip - 1)).core := by
  cases cmd with
  | si => exact absurd rfl hcmd
  | cont => rfl
  | syscall =>
    have hcode : s.stop.siCode = 128 := by
      rw [htrapped]
      rfl
    simp only [Session.steppedOver, if_pos hcode]
    rfl

/-- `handle_breakpoints` finds an active breakpoint whose flag is set and steps over it, by
one request. -/
def StepsOver (P : Program γ δ) (cmd : Resume) (s : Session γ δ) (rip : Addr) (i : ℕ)
    (s₁ : Session γ δ) : Prop :=
  s.Active i ∧ (s.breakpoints i).addr = rip - 1 ∧ (s.breakpoints i).ignoreRipEqualBreak = true ∧
    ∃ steps, ((s.setRip (rip - 1)).stepOver i).run P cmd.request steps = .ok s₁

/-- How `handle_breakpoints` ends: no active breakpoint has the address, one is reported
as hit, or one is stepped over, and the tracee then stands on the next one or not. -/
inductive Handled (P : Program γ δ) (cmd : Resume) :
    Session γ δ → Addr → List Output → Session γ δ → Prop
  | nothing {s : Session γ δ} {rip : Addr} : ¬s.ActiveAt (rip - 1) →
      Handled P cmd s rip [] (s.setRip (rip - 1))
  | hit {s : Session γ δ} {rip : Addr} {i : ℕ} : s.Active i →
      (s.breakpoints i).addr = rip - 1 → (s.breakpoints i).ignoreRipEqualBreak = false →
      Handled P cmd s rip [.hit (rip - 1)] ((s.setRip (rip - 1)).hit i)
  | past {s s₁ : Session γ δ} {rip : Addr} {i : ℕ} : StepsOver P cmd s rip i s₁ →
      Handled P cmd s rip [] (s₁.steppedOver i cmd)
  | next {s s₁ s' : Session γ δ} {rip : Addr} {i : ℕ} {out : List Output} :
      StepsOver P cmd s rip i s₁ → (s₁.steppedOver i cmd).atNext i = true →
      Handled P cmd (s₁.steppedOver i cmd) ((s₁.steppedOver i cmd).rip + 1) out s' →
      Handled P cmd s rip out s'

/-- `handle_breakpoints` in terms of what it does to a breakpoint. -/
theorem handleBreakpoints_succ : handleBreakpoints P cmd (steps + 1) s rip =
    match s.activeAt (rip - 1) with
    | none => .ok ([], s.setRip (rip - 1))
    | some i =>
      if (s.breakpoints i).ignoreRipEqualBreak then do
        let s ← ((s.setRip (rip - 1)).stepOver i).run P cmd.request steps
        let s := s.steppedOver i cmd
        if s.atNext i then handleBreakpoints P cmd steps s (s.rip + 1) else pure ([], s)
      else .ok ([.hit (s.breakpoints i).addr], (s.setRip (rip - 1)).hit i) := by
  cases cmd <;> rfl

/-- `handle_breakpoints` ends in no other way. The induction is on the steps granted. -/
theorem handleBreakpoints_handled (hok : handleBreakpoints P cmd steps s rip = .ok (out, s')) :
    Handled P cmd s rip out s' := by
  induction steps generalizing s rip with
  | zero => cases hok
  | succ steps ih =>
    rw [handleBreakpoints_succ] at hok
    cases hfind : s.activeAt (rip - 1) with
    | none =>
      rw [hfind] at hok
      cases hok
      exact .nothing (activeAt_eq_none.mp hfind)
    | some i =>
      obtain ⟨hactive, haddr⟩ := active_of_activeAt hfind
      rw [hfind] at hok
      dsimp only at hok
      split at hok
      · next hflag =>
        obtain ⟨s₁, hrun, hrest⟩ := bind_eq_ok.mp hok
        have hsteps : StepsOver P cmd s rip i s₁ := ⟨hactive, haddr, hflag, steps, hrun⟩
        split at hrest
        · next hnext => exact .next hsteps hnext (ih hrest)
        · cases hrest
          exact .past hsteps
      · next hflag =>
        cases hok
        rw [haddr]
        exact .hit hactive haddr (by simpa using hflag)

/-- The stop that a command looks at: the tracee is resumed once, or the first part comes
before and replaces that request, or, in `command_CONT`, precedes it. -/
inductive Stopped (P : Program γ δ) : Resume → Session γ δ → Session γ δ → Prop
  | once {cmd : Resume} {s s₁ : Session γ δ} {steps : ℕ} : s.bpAgain = false →
      s.run P cmd.request steps = .ok s₁ → Stopped P cmd s s₁
  | again {cmd : Resume} {s s₁ : Session γ δ} : cmd ≠ .cont → s.bpAgain = true →
      Rearmed P cmd.request s s₁ → Stopped P cmd s s₁
  | onward {s s₁ s₂ : Session γ δ} {steps : ℕ} : s.bpAgain = true →
      Rearmed P .singlestep s s₁ → s₁.run P .cont steps = .ok s₂ → Stopped P .cont s s₂

/-- The address that a command hands to `handle_breakpoints`. -/
def Session.handled (s : Session γ δ) : Resume → Addr
  | .si => if s.bpAddr then s.rip + 1 else s.rip
  | _ => s.rip

/-- The commands call `handle_breakpoints` at a trap, and `command_SI` also where an entry of
the table has the address of the tracee. -/
def Session.ToHandle (s : Session γ δ) (cmd : Resume) : Prop :=
  s.stop = .trapped ∨ cmd = .si ∧ s.bpAddr = true

/-- What a command does about the stop: nothing after a plain single step, a report at a
system call, or `handle_breakpoints`. -/
inductive Ended (P : Program γ δ) (cmd : Resume) (s : Session γ δ) :
    List Output → Session γ δ → Prop
  | plain : cmd = .si → s.stop ≠ .trapped → Ended P cmd s [] s
  | reported : cmd = .syscall → s.stop.atSyscall = true →
      Ended P cmd s (reportSyscall s).1 (reportSyscall s).2
  | handled {out : List Output} {s' : Session γ δ} : s.ToHandle cmd →
      Handled P cmd s (s.handled cmd) out s' → Ended P cmd s out s'

/-- The last request before the stop ends in one of its stops. -/
theorem Stopped.stoppedBy (hstopped : Stopped P cmd s s') : StoppedBy cmd.request s' := by
  cases hstopped with
  | once _ hrun => exact run_stoppedBy hrun
  | again _ _ hrearmed => exact hrearmed.stoppedBy
  | onward _ _ hrun => exact run_stoppedBy hrun

/-- A request leaves the table as it is. -/
theorem run_breakpoints (hok : s.run P mode steps = .ok s') : s'.breakpoints = s.breakpoints := by
  obtain ⟨stop, core, _, rfl⟩ := run_eq_ok.mp hok
  rfl

/-- While no breakpoint waits, the table at the stop is the one at the prompt. -/
theorem Stopped.breakpoints (hstopped : Stopped P cmd s s') (hagain : s.bpAgain = false) :
    s'.breakpoints = s.breakpoints := by
  cases hstopped with
  | once _ hrun => exact run_breakpoints hrun
  | again _ h | onward h => simp [hagain] at h

/-- `si` and `syscall` begin with their own request. -/
theorem Stopped.exists_run (hstopped : Stopped P cmd s s') (hcmd : cmd ≠ .cont) :
    ∃ steps s₁, s.run P cmd.request steps = .ok s₁ := by
  cases hstopped with
  | once _ hrun => exact ⟨_, _, hrun⟩
  | again _ _ hrearmed =>
    cases hrearmed with
    | away hrun | back hrun => exact ⟨_, _, hrun⟩
  | onward => exact absurd rfl hcmd

/-- The first part of a command, when it replaces the request of the command. -/
theorem stopped_of_rearm (hcmd : cmd ≠ .cont)
    (hok : (if s.bpAgain then s.rearm P cmd.request steps else s.run P cmd.request steps) =
      .ok s') : Stopped P cmd s s' := by
  split at hok
  · next hagain => exact .again hcmd hagain (rearm_rearmed hok)
  · next hagain => exact .once (by simpa using hagain) hok

theorem stopCONT_stopped (hok : stopCONT P steps s = .ok s') : Stopped P .cont s s' := by
  unfold stopCONT at hok
  split at hok
  · next hagain =>
    obtain ⟨s₁, hrearm, hrun⟩ := bind_eq_ok.mp hok
    exact .onward hagain (rearm_rearmed hrearm) hrun
  · next hagain => exact .once (by simpa using hagain) hok

/-- A stop of `PTRACE_CONT` is a trap, and so is one of `PTRACE_SYSCALL` outside of system
calls. -/
theorem StoppedBy.trapped (hstopped : StoppedBy cmd.request s) (hcmd : cmd ≠ .si)
    (hcalls : s.stop.atSyscall = false) : s.stop = .trapped := by
  obtain ⟨htrapped | ⟨event, hevent⟩, _⟩ := hstopped
  · exact htrapped
  · cases cmd <;> cases event <;> simp [Resume.request, Mode.stop?] at hcmd hevent <;>
      simp [← hevent, Stop.atSyscall] at hcalls

/-- A command that lets the tracee run waits for a stop and then acts on it. -/
theorem resume_cases (hok : perform P steps s (.resume cmd) = .ok (out, s')) :
    ∃ s₁, Stopped P cmd s s₁ ∧ Ended P cmd s₁ out s' := by
  cases cmd with
  | si =>
    obtain ⟨s₁, hstop, hrest⟩ := bind_eq_ok.mp hok
    have hstopped : Stopped P .si s s₁ := stopped_of_rearm (by simp) hstop
    refine ⟨s₁, hstopped, ?_⟩
    split at hrest
    · next hcode =>
      refine .handled ?_ (handleBreakpoints_handled hrest)
      obtain hcode | haddr := hcode
      · refine .inl ?_
        obtain ⟨htrapped | ⟨event, hevent⟩, _⟩ := hstopped.stoppedBy
        · exact htrapped
        · cases event <;> simp [Resume.request, Mode.stop?] at hevent <;>
            simp [← hevent, Stop.siCode] at hcode
      · exact .inr ⟨rfl, haddr⟩
    · next hcode =>
      cases hrest
      refine .plain rfl fun htrapped => hcode (.inl ?_)
      simp [htrapped, Stop.siCode]
  | cont =>
    obtain ⟨s₁, hstop, hrest⟩ := bind_eq_ok.mp hok
    have hstopped : Stopped P .cont s s₁ := stopCONT_stopped hstop
    have hcalls := (hstopped.stoppedBy.outside (by simp [Resume.request])).1
    rw [hcalls] at hrest
    exact ⟨s₁, hstopped, .handled (.inl (hstopped.stoppedBy.trapped (by simp) hcalls))
      (handleBreakpoints_handled hrest)⟩
  | syscall =>
    obtain ⟨s₁, hstop, hrest⟩ := bind_eq_ok.mp hok
    have hstopped : Stopped P .syscall s s₁ := stopped_of_rearm (by simp) hstop
    refine ⟨s₁, hstopped, ?_⟩
    split at hrest
    · next hcalls =>
      obtain ⟨rfl, rfl⟩ := Prod.mk.inj (pure_eq_ok.mp hrest)
      exact .reported rfl hcalls
    · next hcalls =>
      exact .handled (.inl (hstopped.stoppedBy.trapped (by simp) (by simpa using hcalls)))
        (handleBreakpoints_handled hrest)

/-- The stops to which `handle_breakpoints` steps over breakpoints, one after another. -/
inductive OverStop (P : Program γ δ) (cmd : Resume) :
    Session γ δ → Addr → Session γ δ → Prop
  | here {s s₁ : Session γ δ} {rip : Addr} {i : ℕ} : StepsOver P cmd s rip i s₁ →
      OverStop P cmd s rip s₁
  | later {s s₁ s₂ : Session γ δ} {rip : Addr} {i : ℕ} : StepsOver P cmd s rip i s₁ →
      (s₁.steppedOver i cmd).atNext i = true →
      OverStop P cmd (s₁.steppedOver i cmd) ((s₁.steppedOver i cmd).rip + 1) s₂ →
      OverStop P cmd s rip s₂

/-- Only a breakpoint whose flag is set is stepped over. -/
theorem OverStop.exists_flag (hover : OverStop P cmd s rip s') :
    ∃ i, (s.breakpoints i).ignoreRipEqualBreak = true := by
  cases hover with
  | here hsteps | later hsteps => exact ⟨_, hsteps.2.2.1⟩

/-- The sample program runs into a breakpoint that was set ahead of it. -/
theorem sampleRun_hit :
    ∃ s, TraceRun sampleProgram (fun _ => 0) ⟨0, 0, 0, ()⟩ ()
        [(withBp (sampleSession 0) 5, .resume .cont), (sampleSession 0, .brk 5)] s ∧
      ∀ i, ((withBp (sampleSession 0) 5).breakpoints i).ignoreRipEqualBreak = false := by
  have hbreak : TraceStep sampleProgram (sampleSession 0) (.brk 5) (withBp (sampleSession 0) 5) :=
    ⟨rfl, 0, _, rfl⟩
  obtain ⟨⟨out, s⟩, hok⟩ := exists_ok_of_isSome (show (perform sampleProgram 10
    (withBp (sampleSession 0) 5) (.resume .cont)).toOption.isSome = true by decide)
  refine ⟨s, .step (.step .start hbreak) ⟨rfl, 10, out, hok⟩, fun i => ?_⟩
  by_cases hi : i = 0
  · subst hi
    decide
  · have hzero : (withBp (sampleSession 0) 5).breakpoints i = .zero := Function.update_of_ne hi ..
    rw [hzero]
    rfl

end UnixProgramming.Sdb
