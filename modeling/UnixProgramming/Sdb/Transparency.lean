import UnixProgramming.Sdb.Stops

/-!
# Breakpoints and the native run

The debugger is meant to leave the program on its native run: at a prompt the tracee is
in a state that the program reaches on its own. A trap leaves `rip` one past a planted
`int3`; `StandsAfter` says so, and moving `rip` back by one leads onto the native run
again. The branches in which the debugger moves `rip` otherwise, or resumes the tracee
before it has moved `rip` back, lead off it.
-/

namespace UnixProgramming.Sdb

variable {γ δ : Type} {P : Program γ δ} {mode : Mode} {steps : ℕ} {s s' s₁ : Session γ δ}
variable {init c c' : Core γ δ} {cmd : Resume} {i : ℕ} {rip : Addr} {out : List Output}

/-- The tracee is transparent to the program: its registers are those of a state of the
native run in which the same system calls have been carried out, and these are the
first ones of the native run. -/
structure Transparent (P : Program γ δ) (init : Core γ δ) (s : Session γ δ) : Prop where
  state : ∃ c, P.Reaches init c ∧ s.core.regs = c.regs ∧ s.core.performed = c.performed
  calls : ∀ c, P.Reaches init c → s.core.performed.length ≤ c.performed.length →
    s.core.performed <+: c.performed

/-- The program gets from `c` to the tracee on its own, except that a trap has moved `rip`
one past the `int3`. -/
structure StandsAfter (P : Program γ δ) (c : Core γ δ) (s : Session γ δ) : Prop where
  trapped : s.stop = .trapped →
    ∃ c₁, P.Reaches c c₁ ∧ s.core = c₁.setRip (c₁.regs.rip + 1)
  native : s.stop ≠ .trapped → P.Reaches c s.core

/-- The request that comes first while a breakpoint waits: it does not trap right before the
waiting breakpoint, and the single step of `cont` neither traps nor leads back to it. -/
def FirstRequest (P : Program γ δ) (s : Session γ δ) : Resume → Prop
  | .cont => ∀ steps s₁, s.run P .singlestep steps = .ok s₁ →
      s₁.stop ≠ .trapped ∧ s₁.rip ≠ (s.breakpoints s.whichBp).addr
  | cmd => ∀ steps s₁, s.run P cmd.request steps = .ok s₁ →
      s₁.stop = .trapped → s₁.rip ≠ (s.breakpoints s.whichBp).addr

/-- Where a command may stop when it steps over a breakpoint: `si` takes back no trap there,
and `syscall` moves `rip` at a system call. -/
def Resume.MayStop : Resume → Stop → Prop
  | si, stop => stop ≠ .trapped
  | cont, _ => True
  | syscall, stop => stop.atSyscall = false

/-- The commands that stay on the native run. When `si` traps, no entry of the table has the
address after the `int3`. -/
def StepsNatively (P : Program γ δ) (s : Session γ δ) : Command → Prop
  | .resume cmd => (s.bpAgain = true → FirstRequest P s cmd) ∧
      ∀ s₁, Stopped P cmd s s₁ → s₁.ToHandle cmd →
        (cmd = .si → s₁.stop = .trapped → s₁.bpAddr = false) ∧
        ∀ s₂, OverStop P cmd s₁ (s₁.handled cmd) s₂ → cmd.MayStop s₂.stop
  | _ => True

/-- A tracee on the native run is transparent. -/
theorem transparent_of_reaches (hreach : P.Reaches init s.core) : Transparent P init s := by
  refine ⟨⟨s.core, hreach, rfl, rfl⟩, fun c hc hlen => ?_⟩
  obtain hafter | hbefore := hreach.total hc
  · exact hafter.performed_prefix
  · have hstart := hbefore.performed_prefix
    rw [hstart.eq_of_length_le hlen]

/-- A request leads on from a state of the native run. -/
theorem run_standsAfter (hreach : P.Reaches c s.core) (hok : s.run P mode steps = .ok s') :
    StandsAfter P c s' := by
  obtain ⟨stop, core, hresume, rfl⟩ := run_eq_ok.mp hok
  cases P.resume_lands hresume with
  | trapped hreach' hint3 =>
    exact ⟨fun _ => ⟨_, hreach.trans hreach', rfl⟩, fun h => absurd rfl h⟩
  | native hne hreach' => exact ⟨fun h => absurd h hne, fun _ => hreach.trans hreach'⟩

/-- Moving `rip` back by one takes back a trap. -/
theorem StandsAfter.back (hstands : StandsAfter P c s) (htrapped : s.stop = .trapped) :
    P.Reaches c (s.setRip (s.rip - 1)).core := by
  obtain ⟨c₁, hreach, hcore⟩ := hstands.trapped htrapped
  have hback : (s.setRip (s.rip - 1)).core = c₁ := by
    simp only [Session.setRip, Session.rip, hcore]
    rw [Core.setRip_rip, BitVec.add_sub_cancel, Core.setRip_setRip, Core.setRip_self]
  rwa [hback]

/-- The first part of a command leads on from a state of the native run, unless it traps and
comes back all the same. -/
theorem Rearmed.standsAfter (hrearmed : Rearmed P mode s s') (hreach : P.Reaches c s.core)
    (hfirst : ∀ steps s₁, s.run P mode steps = .ok s₁ → s₁.stop = .trapped →
      s₁.rip ≠ (s.breakpoints s.whichBp).addr) : StandsAfter P c s' := by
  cases hrearmed with
  | away hrun =>
    have hstands := run_standsAfter hreach hrun
    exact ⟨hstands.trapped, hstands.native⟩
  | back hrun hback hrun' =>
    have hstands := run_standsAfter hreach hrun
    have hnative := hstands.native fun htrapped => hfirst _ _ hrun htrapped hback
    have hstands' := run_standsAfter (s := Session.plantAgain _ _) hnative hrun'
    exact ⟨hstands'.trapped, hstands'.native⟩

/-- The stop that a command looks at. -/
theorem Stopped.standsAfter (hstopped : Stopped P cmd s s') (hreach : P.Reaches c s.core)
    (hfirst : s.bpAgain = true → FirstRequest P s cmd) : StandsAfter P c s' := by
  cases hstopped with
  | once _ hrun => exact run_standsAfter hreach hrun
  | again hcmd hagain hrearmed =>
    apply hrearmed.standsAfter hreach
    cases cmd with
    | si | syscall => exact hfirst hagain
    | cont => exact absurd rfl hcmd
  | onward hagain hrearmed honward =>
    have hclear := hfirst hagain
    have hstands := hrearmed.standsAfter hreach fun steps s₁ hrun htrapped =>
      absurd htrapped (hclear steps s₁ hrun).1
    refine run_standsAfter (hstands.native ?_) honward
    -- the single step has not come back, so it is the last request before `PTRACE_CONT`
    cases hrearmed with
    | away hrun => exact (hclear _ _ hrun).1
    | back hrun hback => exact absurd hback (hclear _ _ hrun).2

/-- Stepping over a breakpoint leads from one state of the native run to another. -/
theorem StepsOver.reaches (hsteps : StepsOver P cmd s rip i s₁)
    (hreach : P.Reaches c (s.setRip (rip - 1)).core) (hstop : cmd.MayStop s₁.stop) :
    P.Reaches c (s₁.steppedOver i cmd).core := by
  obtain ⟨_, _, _, steps, hrun⟩ := hsteps
  have hstands := run_standsAfter (s := (s.setRip (rip - 1)).stepOver i) hreach hrun
  have hstopped := run_stoppedBy hrun
  cases cmd with
  | si => exact hstands.native hstop
  | cont =>
    have htrapped := hstopped.trapped (by simp) (hstopped.outside (by simp [Resume.request])).1
    rw [steppedOver_core htrapped (by simp)]
    exact hstands.back htrapped
  | syscall =>
    have htrapped := hstopped.trapped (by simp) hstop
    rw [steppedOver_core htrapped (by simp)]
    exact hstands.back htrapped

/-- `handle_breakpoints` leads from one state of the native run to another. The induction is
on the breakpoints that it steps over. -/
theorem Handled.reaches (hhandled : Handled P cmd s rip out s')
    (hreach : P.Reaches c (s.setRip (rip - 1)).core)
    (hstops : ∀ s₁, OverStop P cmd s rip s₁ → cmd.MayStop s₁.stop) : P.Reaches c s'.core := by
  induction hhandled with
  | nothing | hit => exact hreach
  | past hsteps => exact hsteps.reaches hreach (hstops _ (.here hsteps))
  | @next s s₁ s' rip i out hsteps hnext _ ih =>
    have hstepped := hsteps.reaches hreach (hstops _ (.here hsteps))
    apply ih
    · have hcore : ((s₁.steppedOver i cmd).setRip ((s₁.steppedOver i cmd).rip + 1 - 1)).core =
          (s₁.steppedOver i cmd).core := by
        rw [BitVec.add_sub_cancel]
        rfl
      rwa [hcore]
    · exact fun s₂ hover => hstops s₂ (.later hsteps hnext hover)

/-- One command leads from a state of the native run to a later one. -/
theorem TraceStep.reaches {c : Command} (hstep : TraceStep P s c s')
    (hnative : StepsNatively P s c) : P.Reaches s.core s'.core := by
  obtain ⟨htraces, steps, out, hok⟩ := hstep
  cases c with
  | patch => cases htraces
  | brk a =>
    obtain ⟨_, rfl⟩ | ⟨_, rfl⟩ := setBreakpoints_cases hok
    all_goals exact .refl
  | delete id =>
    obtain ⟨_, rfl⟩ | ⟨i, _, _, ⟨_, rfl⟩ | ⟨_, rfl⟩⟩ := deleteBreakpoint_cases hok
    all_goals exact .refl
  | resume cmd =>
    obtain ⟨hfirst, hhandle⟩ := hnative
    obtain ⟨s₁, hstopped, hended⟩ := resume_cases hok
    have hstands := hstopped.standsAfter .refl hfirst
    cases hended with
    | plain _ hne => exact hstands.native hne
    | reported _ hcalls =>
      apply hstands.native
      intro htrapped
      simp [htrapped, Stop.atSyscall] at hcalls
    | handled htohandle hhandled =>
      obtain ⟨haddr, hstops⟩ := hhandle s₁ hstopped htohandle
      refine hhandled.reaches ?_ hstops
      by_cases htrapped : s₁.stop = .trapped
      · have hrip : s₁.handled cmd = s₁.rip := by
          cases cmd with
          | si => simp [Session.handled, haddr rfl htrapped]
          | cont | syscall => rfl
        rw [hrip]
        exact hstands.back htrapped
      · obtain ⟨rfl, hbp⟩ := htohandle.resolve_left htrapped
        have hcore : (s₁.setRip (s₁.handled .si - 1)).core = s₁.core := by
          simp only [Session.handled, hbp, if_true, BitVec.add_sub_cancel]
          rfl
        rw [hcore]
        exact hstands.native htrapped

/-- For every program and every sequence of `break`, `delete`, `si`, `cont` and `syscall` of
the kind above, the tracee is transparent at every prompt, and never earlier on the
native run than at the prompt before. -/
theorem transparent_run (P : Program γ δ) (mem : ByteMemory 64) (regs : Regs γ) (data : δ)
    {history : List (Session γ δ × Command)} (hrun : TraceRun P mem regs data history s)
    (hnative : EachStep (StepsNatively P) history) :
    Throughout (Transparent P ⟨regs, data, false, []⟩) history s ∧
      Successive (fun s s' : Session γ δ => P.Reaches s.core s'.core) history s := by
  have hsuccessive := hrun.successive_of_step
    (R := fun s s' : Session γ δ => P.Reaches s.core s'.core)
    (fun s c s' hnative hstep => hstep.reaches hnative) hnative
  have hreaches := hrun.throughout_of_successive (fun s => .refl)
    (fun _ _ _ h₁ h₂ => h₁.trans h₂) hsuccessive
  exact ⟨⟨transparent_of_reaches hreaches.1,
    fun x hx => transparent_of_reaches (hreaches.2 x hx)⟩, hsuccessive⟩

/-- While no breakpoint waits and no flag is set, `cont` and `syscall` stay on the native
run. -/
theorem stepsNatively_of_flags (hagain : s.bpAgain = false)
    (hflags : ∀ i, (s.breakpoints i).ignoreRipEqualBreak = false) (hcmd : cmd ≠ .si) :
    StepsNatively P s (.resume cmd) := by
  refine ⟨fun h => by simp [hagain] at h, fun s₁ hstopped _ => ⟨fun h => absurd h hcmd, ?_⟩⟩
  intro s₂ hover
  obtain ⟨i, hflag⟩ := hover.exists_flag
  rw [hstopped.breakpoints hagain, hflags i] at hflag
  cases hflag

/-- The sample program runs into a breakpoint that was set ahead of it. -/
theorem transparent_run_hit :
    ∃ history s, TraceRun sampleProgram (fun _ => 0) ⟨0, 0, 0, ()⟩ () history s ∧
      history.length = 2 ∧
      Throughout (Transparent sampleProgram ⟨⟨0, 0, 0, ()⟩, (), false, []⟩) history s := by
  obtain ⟨s, hrun, hflags⟩ := sampleRun_hit
  refine ⟨_, s, hrun, rfl, (transparent_run _ _ _ _ hrun ?_).1⟩
  rw [eachStep_cons, eachStep_cons]
  exact ⟨stepsNatively_of_flags rfl hflags (by simp), trivial, eachStep_nil⟩

/-- A system call of the sample program, which is at `0x100`, leaves `rip` behind itself. -/
theorem sampleProgram_reaches {c : Core Unit Unit}
    (hreach : sampleProgram.Reaches ⟨⟨0x100, 0, 0, ()⟩, (), false, []⟩ c) :
    c.regs.rax = 0 ∨ c.regs.rip = 0x102 := by
  have hinv : c.inSyscall = false ∧ c.regs.rax = 0 ∨
      c.inSyscall = true ∧ c.regs.rip = 0x102 := by
    induction hreach with
    | refl => exact .inl ⟨rfl, rfl⟩
    | @tail c c' _ hnext ih =>
      obtain ⟨event, hstep⟩ := hnext
      unfold Program.nativeStep at hstep
      split at hstep
      · cases hstep
        exact .inl ⟨rfl, rfl⟩
      · next hout =>
        have hrax := (ih.resolve_right fun h => hout h.1).2
        by_cases hrip : c.regs.rip = 0x100
        · have hexec : sampleProgram.exec c.regs c.data = none := if_pos hrip
          rw [hexec] at hstep
          cases hstep
          refine .inr ⟨rfl, ?_⟩
          simp [hrip]
        · have hexec : sampleProgram.exec c.regs c.data =
              some ({ c.regs with rip := c.regs.rip + 1 }, c.data) := if_neg hrip
          rw [hexec] at hstep
          cases hstep
          exact .inl ⟨by simpa using hout, hrax⟩
  exact hinv.imp And.right And.right

/-- A breakpoint set at the current address, at a system call: `syscall` steps over it, stops
at the entry of the system call and moves `rip` back to the breakpoint. -/
theorem not_transparent_break_at_syscall :
    ¬∀ s, Reachable (sampleSession 0x100) (TraceStep sampleProgram) s →
      Transparent sampleProgram ⟨⟨0x100, 0, 0, ()⟩, (), false, []⟩ s := by
  intro hall
  let cs : List Command := [.brk 0x100, .resume .syscall]
  obtain ⟨s, hok⟩ := exists_ok_of_isSome
    (show (script sampleProgram 20 (sampleSession 0x100) cs).toOption.isSome = true by decide)
  have hview : (script sampleProgram 20 (sampleSession 0x100) cs).toOption.map
      (fun s => (s.core.regs.rip, s.core.regs.rax)) = some (0x100, enosys) := by decide
  rw [hok] at hview
  simp only [Except.toOption, Option.map_some, Option.some.injEq, Prod.mk.injEq] at hview
  have htransparent :=
    hall s (reachable_script (by simp [cs, Command.traces]) hok reachable_init)
  obtain ⟨c, hreach, hregs, _⟩ := htransparent.state
  have hnative := sampleProgram_reaches hreach
  rw [← hregs, hview.1, hview.2] at hnative
  exact absurd hnative (by decide)

end UnixProgramming.Sdb
