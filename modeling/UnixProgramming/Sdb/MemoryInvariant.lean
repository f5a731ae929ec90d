import UnixProgramming.Sdb.Edits
import UnixProgramming.Sdb.Stops

/-!
# The memory of a running tracee

At every prompt the memory is meant to be the program with an `int3` at the active
breakpoints, the one under a stopped tracee excepted. The invariant behind it is that a
session is armed, with at most the breakpoint lifted that waits to be planted again, and
that the tracee stands on that one. Three commands break it; every run without them
keeps it.
-/

namespace UnixProgramming.Sdb

variable {γ δ : Type} {P : Program γ δ} {mode : Mode} {steps : ℕ} {s s' s₁ : Session γ δ}
variable {code : ByteMemory 64} {up : Option ℕ} {cmd : Resume} {c : Command} {i : ℕ}
variable {rip : Addr} {out : List Output}

/-- The memory at the prompt: `0xCC` at the active breakpoints under which the tracee is
not stopped, and the byte of the program where no breakpoint is active. -/
structure MemoryKept (code : ByteMemory 64) (s : Session γ δ) : Prop where
  trap : ∀ a, s.ActiveAt a → s.rip ≠ a → s.mem a = 0xcc#8
  plain : ∀ a, ¬s.ActiveAt a → s.mem a = code a

/-- The breakpoint that waits to be planted again, if it is still active. -/
def Session.lifted (s : Session γ δ) : Option ℕ :=
  if s.bpAgain = true ∧ s.Active s.whichBp then some s.whichBp else none

/-- The invariant at the prompt: the session is armed, and the tracee stands on the
breakpoint that is lifted. -/
structure SessionArmed (s : Session γ δ) (code : ByteMemory 64) : Prop where
  armed : Armed s s.lifted code
  waiting : s.bpAgain = true → s.whichBp < s.numBreakpoints
  standing : ∀ i, s.lifted = some i → (s.breakpoints i).addr = s.rip

/-- The address of the instruction at which the tracee stopped: a trap leaves `rip` one past
an `int3`, and a system call leaves it two past its instruction. -/
def Session.stoppedAt (s : Session γ δ) : Addr :=
  if s.stop = .trapped then s.rip - 1 else s.rip - 2

/-- A breakpoint that is stepped over by `cont` or `syscall` stays lifted; the tracee stops
at it again. -/
def BackOnLifted (P : Program γ δ) (cmd : Resume) (s : Session γ δ) (rip : Addr) : Prop :=
  ∀ i s₁, StepsOver P cmd s rip i s₁ → s₁.stoppedAt = (s.breakpoints i).addr

/-- The commands that keep the memory: a `delete` finds the saved word fresh, the tracee
does not run on while a deleted breakpoint waits to be planted again, and `cont` and
`syscall` do not leave a breakpoint behind that they stepped over. -/
def KeepsArmed (P : Program γ δ) (s : Session γ δ) : Command → Prop
  | .resume cmd => (s.bpAgain = true → s.ActiveAt (s.breakpoints s.whichBp).addr) ∧
      (cmd ≠ .si → ∀ s₁, Stopped P cmd s s₁ → s₁.stop = .trapped →
        BackOnLifted P cmd s₁ s₁.rip)
  | c => DeletesFresh s c

theorem lifted_eq_some :
    s.lifted = some i ↔ s.bpAgain = true ∧ s.whichBp = i ∧ s.Active i := by
  unfold Session.lifted
  split
  · next hboth =>
    rw [Option.some.injEq]
    exact ⟨fun hi => ⟨hboth.1, hi, hi ▸ hboth.2⟩, fun h => h.2.1⟩
  · next hnot =>
    refine ⟨fun h => by simp at h, fun h => absurd ⟨h.1, h.2.1 ▸ h.2.2⟩ hnot⟩

/-- Nothing is lifted unless a breakpoint waits. -/
theorem lifted_eq_none (hagain : s.bpAgain = false) : s.lifted = none := by
  simp [Session.lifted, hagain]

/-- Only the waiting breakpoint can be lifted. -/
theorem lifted_which (s : Session γ δ) : s.lifted = none ∨ s.lifted = some s.whichBp := by
  unfold Session.lifted
  split
  · exact .inr rfl
  · exact .inl rfl

/-- The invariant at a prompt at which no breakpoint waits. -/
theorem Armed.sessionArmed (harmed : Armed s none code) (hagain : s.bpAgain = false) :
    SessionArmed s code := by
  have hlifted := lifted_eq_none hagain
  refine ⟨by rwa [hlifted], fun h => ?_, fun i hi => ?_⟩
  · simp [hagain] at h
  · simp [hlifted] at hi

/-- The invariant at a prompt at which the tracee stands on a lifted breakpoint. -/
theorem Armed.sessionArmed_lifted (harmed : Armed s (some i) code) (hagain : s.bpAgain = true)
    (hwhich : s.whichBp = i) (hrip : (s.breakpoints i).addr = s.rip) : SessionArmed s code := by
  have hi := harmed.lifted_active i rfl
  have hlifted : s.lifted = some i := lifted_eq_some.mpr ⟨hagain, hwhich, hi⟩
  refine ⟨by rwa [hlifted], fun _ => hwhich ▸ hi.1, fun j hj => ?_⟩
  obtain rfl : i = j := Option.some.inj (hlifted.symm.trans hj)
  exact hrip

/-- The invariant says what the memory at the prompt is. -/
theorem SessionArmed.memoryKept (harmed : SessionArmed s code) : MemoryKept code s := by
  refine ⟨?_, fun a ha => ?_⟩
  · rintro a ⟨i, hi, rfl⟩ hrip
    refine (harmed.armed.planted i hi fun hlifted => hrip ?_).trans byteOf_int3
    exact (harmed.standing i hlifted).symm
  · exact harmed.armed.plain a fun i hi haddr => absurd ⟨i, hi, haddr⟩ ha

/-- Letting the tracee run changes neither memory nor table. -/
theorem Armed.run (harmed : Armed s up code) (hok : s.run P mode steps = .ok s') :
    Armed s' up code := by
  obtain ⟨stop, core, _, rfl⟩ := run_eq_ok.mp hok
  exact harmed.of_eq rfl rfl rfl

/-- The first part of a command plants the lifted breakpoint again. -/
theorem SessionArmed.rearmed (harmed : SessionArmed s code) (hagain : s.bpAgain = true)
    (hactive : s.ActiveAt (s.breakpoints s.whichBp).addr) (hrearmed : Rearmed P mode s s') :
    Armed s' none code ∧ s'.bpAgain = false := by
  have hplanted : ∀ steps s₁, s.run P mode steps = .ok s₁ →
      Armed (s₁.plantAgain s.whichBp) none code := by
    intro steps s₁ hrun
    obtain ⟨stop, core, _, rfl⟩ := run_eq_ok.mp hrun
    apply (harmed.armed.run hrun).plantAgain
    · exact harmed.waiting hagain
    · exact lifted_which s
    · exact hactive
  cases hrearmed with
  | away hrun => exact ⟨(hplanted _ _ hrun).of_eq rfl rfl rfl, rfl⟩
  | back hrun _ hagain => exact ⟨((hplanted _ _ hrun).run hagain).of_eq rfl rfl rfl, rfl⟩

/-- At the stop that a command looks at, every active breakpoint is planted. -/
theorem SessionArmed.stopped (harmed : SessionArmed s code)
    (hactive : s.bpAgain = true → s.ActiveAt (s.breakpoints s.whichBp).addr)
    (hstopped : Stopped P cmd s s') : Armed s' none code ∧ s'.bpAgain = false := by
  cases hstopped with
  | once hagain hrun =>
    have hplanted : Armed s none code := lifted_eq_none hagain ▸ harmed.armed
    obtain ⟨stop, core, _, rfl⟩ := run_eq_ok.mp hrun
    exact ⟨hplanted.run hrun, hagain⟩
  | again _ hagain hrearmed => exact harmed.rearmed hagain (hactive hagain) hrearmed
  | onward hagain hrearmed hrun =>
    obtain ⟨hplanted, hagain'⟩ := harmed.rearmed hagain (hactive hagain) hrearmed
    obtain ⟨stop, core, _, rfl⟩ := run_eq_ok.mp hrun
    exact ⟨hplanted.run hrun, hagain'⟩

/-- A breakpoint that is stepped over is lifted, with its flag cleared. -/
theorem Armed.stepOver (harmed : Armed s none code) (hi : s.Active i) :
    Armed (s.stepOver i) (some i) code := by
  have hsame : (s.breakpoints i).SameCode
      { s.breakpoints i with ignoreRipEqualBreak := false } := ⟨rfl, rfl, rfl, rfl⟩
  have hcleared := harmed.setBp hsame
  apply hcleared.restoreOriginal
  simpa [Session.Active, Session.setBp] using hi

/-- After a request that steps over a breakpoint, this breakpoint is lifted. -/
theorem Armed.stepsOver (harmed : Armed s none code) (hsteps : StepsOver P cmd s rip i s₁) :
    Armed s₁ (some i) code ∧ s₁.bpAgain = s.bpAgain ∧
      (s₁.breakpoints i).addr = (s.breakpoints i).addr := by
  obtain ⟨hi, _, _, steps, hrun⟩ := hsteps
  have hmoved : Armed (s.setRip (rip - 1)) none code := harmed.of_eq rfl rfl rfl
  have hlifted := (hmoved.stepOver hi).run hrun
  obtain ⟨stop, core, _, rfl⟩ := run_eq_ok.mp hrun
  refine ⟨hlifted, rfl, ?_⟩
  simp [Session.stepOver, Session.setBp, Session.restoreOriginal, Session.pokeLow, Session.poke,
    Session.setRip]

/-- `si` plants a breakpoint again as soon as it has stepped over it. -/
theorem Armed.steppedOver_si (harmed : Armed s (some i) code) :
    Armed (s.steppedOver i .si) none code := by
  have hi := harmed.lifted_active i rfl
  exact harmed.plantAgain hi.1 (.inr rfl) ⟨i, hi, rfl⟩

/-- `cont` and `syscall` leave it lifted. -/
theorem Armed.steppedOver (harmed : Armed s (some i) code) (hcmd : cmd ≠ .si) :
    Armed (s.steppedOver i cmd) (some i) code ∧ (s.steppedOver i cmd).bpAgain = true ∧
      (s.steppedOver i cmd).whichBp = i ∧
      (s.steppedOver i cmd).breakpoints = s.breakpoints := by
  cases cmd with
  | si => exact absurd rfl hcmd
  | cont => exact ⟨harmed.of_eq rfl rfl rfl, rfl, rfl, rfl⟩
  | syscall =>
    simp only [Session.steppedOver]
    split
    · exact ⟨harmed.of_eq rfl rfl rfl, rfl, rfl, rfl⟩
    · split
      all_goals exact ⟨harmed.of_eq rfl rfl rfl, rfl, rfl, rfl⟩

/-- `cont` and `syscall` move `rip` back to where the tracee stopped. -/
theorem StepsOver.steppedOver_rip (hsteps : StepsOver P cmd s rip i s₁) (hcmd : cmd ≠ .si) :
    (s₁.steppedOver i cmd).rip = s₁.stoppedAt := by
  obtain ⟨_, _, _, steps, hrun⟩ := hsteps
  have hstopped := run_stoppedBy hrun
  unfold Session.stoppedAt
  by_cases htrapped : s₁.stop = .trapped
  · rw [if_pos htrapped, Session.rip, steppedOver_core htrapped hcmd]
    rfl
  · rw [if_neg htrapped]
    cases cmd with
    | si => exact absurd rfl hcmd
    | cont =>
      have hcalls := (hstopped.outside (by simp [Resume.request])).1
      exact absurd (hstopped.trapped hcmd hcalls) htrapped
    | syscall =>
      have hcalls : s₁.stop.atSyscall = true :=
        of_not_not fun hcalls => htrapped (hstopped.trapped hcmd (by simpa using hcalls))
      have hcode : s₁.stop.siCode = 133 := by
        cases hstop : s₁.stop <;> simp_all [Stop.atSyscall, Stop.siCode]
      simp only [Session.steppedOver, hcode]
      rfl

/-- The breakpoint that is reported as hit is lifted under the tracee. -/
theorem Armed.hit (harmed : Armed s none code) (hi : s.Active i)
    (haddr : (s.breakpoints i).addr = s.rip) : SessionArmed (s.hit i) code := by
  have hlifted : Armed (s.hit i) (some i) code :=
    (harmed.restoreOriginal hi).of_eq rfl rfl rfl
  exact hlifted.sessionArmed_lifted rfl rfl haddr

/-- `handle_breakpoints` ends with the invariant. The induction is on the breakpoints that
`si` steps over; `cont` and `syscall` come to a second one only if they leave the first. -/
theorem Handled.sessionArmed (hhandled : Handled P cmd s rip out s')
    (harmed : Armed s none code) (hagain : s.bpAgain = false)
    (hback : cmd ≠ .si → BackOnLifted P cmd s rip) : SessionArmed s' code := by
  induction hhandled with
  | @nothing s rip _ =>
    have hmoved : Armed (s.setRip (rip - 1)) none code := harmed.of_eq rfl rfl rfl
    exact hmoved.sessionArmed hagain
  | @hit s rip i hi haddr _ =>
    have hmoved : Armed (s.setRip (rip - 1)) none code := harmed.of_eq rfl rfl rfl
    exact hmoved.hit hi haddr
  | @past s s₁ rip i hsteps =>
    obtain ⟨hlifted, hwaits, haddr⟩ := harmed.stepsOver hsteps
    by_cases hcmd : cmd = .si
    · subst hcmd
      exact hlifted.steppedOver_si.sessionArmed (hwaits.trans hagain)
    · obtain ⟨hlifted', hagain', hwhich, hbps⟩ := hlifted.steppedOver hcmd
      apply hlifted'.sessionArmed_lifted hagain' hwhich
      rw [hbps, haddr, hsteps.steppedOver_rip hcmd]
      exact (hback hcmd i s₁ hsteps).symm
  | @next s s₁ s' rip i out hsteps hnext _ ih =>
    obtain ⟨hlifted, hwaits, haddr⟩ := harmed.stepsOver hsteps
    by_cases hcmd : cmd = .si
    · subst hcmd
      exact ih hlifted.steppedOver_si (hwaits.trans hagain) (fun h => absurd rfl h)
    · -- two active breakpoints would have the address of the tracee
      obtain ⟨hlifted', _, _, hbps⟩ := hlifted.steppedOver hcmd
      have hrip := (hsteps.steppedOver_rip hcmd).trans (hback hcmd i s₁ hsteps)
      simp only [Session.atNext, Bool.and_eq_true, decide_eq_true_eq] at hnext
      obtain ⟨⟨hrip', hactive⟩, hlt⟩ := hnext
      have hi := hlifted'.lifted_active i rfl
      have heq := hlifted'.distinct (i + 1) i ⟨hlt, hactive⟩ hi ?_
      · omega
      · rw [← hrip', hrip, hbps, haddr]

/-- A new breakpoint does not change which one is lifted. -/
theorem lifted_withBp {a : Addr} (hwaiting : s.bpAgain = true → s.whichBp < s.numBreakpoints) :
    (withBp s a).lifted = s.lifted := by
  apply Option.ext
  intro i
  rw [lifted_eq_some, lifted_eq_some]
  refine and_congr_right fun hagain => and_congr_right fun hwhich => ?_
  have hlt : i < s.numBreakpoints := hwhich ▸ hwaiting hagain
  rw [withBp_active]
  exact or_iff_right hlt.ne

/-- Deleting a breakpoint puts it down. -/
theorem lifted_withoutBp : (withoutBp s i).lifted = s.lifted.filter (· ≠ i) := by
  apply Option.ext
  intro j
  rw [Option.filter_eq_some_iff, lifted_eq_some, lifted_eq_some, withoutBp_active]
  show s.bpAgain = true ∧ s.whichBp = j ∧ _ ↔ _
  simp only [decide_eq_true_eq, and_assoc]

/-- One command keeps the invariant. -/
theorem SessionArmed.step (harmed : SessionArmed s code) (hkeeps : KeepsArmed P s c)
    (hstep : TraceStep P s c s') : SessionArmed s' code := by
  obtain ⟨htraces, steps, out, hok⟩ := hstep
  cases c with
  | patch => cases htraces
  | brk a =>
    have hkept := harmed.armed.setBreakpoints hok
    obtain ⟨_, rfl⟩ | ⟨_, rfl⟩ := setBreakpoints_cases hok
    · exact harmed
    · have hlifted := lifted_withBp (a := a) harmed.waiting
      refine ⟨by rwa [hlifted], fun hagain => ?_, fun i hi => ?_⟩
      · exact Nat.lt_succ_of_lt (harmed.waiting hagain)
      · rw [hlifted] at hi
        rw [withBp_breakpoints (harmed.armed.lifted_active i hi).1]
        exact harmed.standing i hi
  | delete id =>
    obtain ⟨_, rfl⟩ | ⟨i, rfl, hi, ⟨hinactive, rfl⟩ | ⟨hactive, rfl⟩⟩ := deleteBreakpoint_cases hok
    · exact harmed
    · rw [poke_saved_inactive (hkeeps i rfl hi) hinactive]
      exact harmed
    · refine ⟨?_, harmed.waiting, fun j hj => ?_⟩
      · rw [lifted_withoutBp]
        exact harmed.armed.withoutBp ⟨hi, hactive⟩ (hkeeps i rfl hi)
      · rw [lifted_withoutBp] at hj
        rw [(withoutBp_breakpoints s i j).1]
        exact harmed.standing j (Option.filter_eq_some_iff.mp hj).1
  | resume cmd =>
    obtain ⟨hactive, hback⟩ := hkeeps
    obtain ⟨s₁, hstopped, hended⟩ := resume_cases hok
    obtain ⟨hplanted, hagain⟩ := harmed.stopped hactive hstopped
    cases hended with
    | plain => exact hplanted.sessionArmed hagain
    | reported =>
      have hreported : Armed (reportSyscall s₁).2 none code := hplanted.of_eq rfl rfl rfl
      exact hreported.sessionArmed hagain
    | handled hhandle hhandled =>
      apply hhandled.sessionArmed hplanted hagain
      intro hcmd
      have htrapped : s₁.stop = .trapped := hhandle.resolve_right fun h => hcmd h.1
      have hrip : s₁.handled cmd = s₁.rip := by
        cases cmd <;> first | rfl | exact absurd rfl hcmd
      rw [hrip]
      exact hback hcmd s₁ hstopped htrapped

/-- While no breakpoint waits and no flag is set, every command that lets the tracee run
keeps the memory. -/
theorem keepsArmed_of_flags (hagain : s.bpAgain = false)
    (hflags : ∀ i, (s.breakpoints i).ignoreRipEqualBreak = false) :
    KeepsArmed P s (.resume cmd) := by
  refine ⟨fun h => by simp [hagain] at h, fun _ s₁ hstopped _ i s₂ hsteps => ?_⟩
  have hflag := hsteps.2.2.1
  rw [hstopped.breakpoints hagain, hflags i] at hflag
  cases hflag

/-- For every program and every sequence of `break`, `delete`, `si`, `cont` and `syscall`
of the kind above, the memory is as it is meant to be at every prompt. -/
theorem memoryKept_run (P : Program γ δ) (mem : ByteMemory 64) (regs : Regs γ) (data : δ)
    {history : List (Session γ δ × Command)} (hrun : TraceRun P mem regs data history s)
    (hkeeps : EachStep (KeepsArmed P) history) : Throughout (MemoryKept mem) history s := by
  have hinit : SessionArmed (Session.load mem regs data) mem :=
    (armed_load mem regs data).sessionArmed rfl
  have harmed := hrun.throughout_of_step (P := fun s => SessionArmed s mem) hinit
    (fun s c s' harmed hkeeps hstep => harmed.step hkeeps hstep) hkeeps
  exact ⟨harmed.1.memoryKept, fun x hx => (harmed.2 x hx).memoryKept⟩

/-- The sample program runs into a breakpoint that was set ahead of it. -/
theorem memoryKept_run_hit :
    ∃ history s, TraceRun sampleProgram (fun _ => 0) ⟨0, 0, 0, ()⟩ () history s ∧
      history.length = 2 ∧ Throughout (MemoryKept fun _ => 0) history s := by
  obtain ⟨s, hrun, hflags⟩ := sampleRun_hit
  refine ⟨_, s, hrun, rfl, memoryKept_run _ _ _ _ hrun ?_⟩
  rw [eachStep_cons, eachStep_cons]
  exact ⟨keepsArmed_of_flags rfl hflags, trivial, eachStep_nil⟩

/-- A breakpoint set at the current address is still lifted when `cont` has stepped over it
and stops at another one. -/
theorem not_memoryKept_break_here :
    ¬∀ s, Reachable (sampleSession 0) (TraceStep sampleProgram) s →
      MemoryKept (fun _ => 0) s := by
  intro hall
  let cs : List Command := [.brk 0, .brk 5, .resume .cont]
  obtain ⟨s, hok⟩ := exists_ok_of_isSome
    (show (script sampleProgram 20 (sampleSession 0) cs).toOption.isSome = true by decide)
  have hview : (script sampleProgram 20 (sampleSession 0) cs).toOption.map
      (fun s => (s.mem 0, s.rip, (s.breakpoints 0).addr, (s.breakpoints 0).active,
        s.numBreakpoints)) = some (0, 5, 0, true, 2) := by decide
  rw [hok] at hview
  simp only [Except.toOption, Option.map_some, Option.some.injEq, Prod.mk.injEq] at hview
  obtain ⟨hmem, hrip, haddr, hactive, hnum⟩ := hview
  have hkept := hall s (reachable_script (by simp [cs, Command.traces]) hok reachable_init)
  have htrap := hkept.trap 0 ⟨0, ⟨by simp [hnum], hactive⟩, haddr⟩ (by simp [hrip])
  rw [hmem] at htrap
  exact absurd htrap (by decide)

end UnixProgramming.Sdb
