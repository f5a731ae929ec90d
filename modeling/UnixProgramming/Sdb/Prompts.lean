import UnixProgramming.Sdb.MemoryInvariant
import UnixProgramming.Sdb.NativeStops
import UnixProgramming.Sdb.Outcomes
import UnixProgramming.Sdb.SyscallReports

/-!
# Prompts on the native run

A session at a prompt is on the native run when it is armed, with at most the breakpoint
lifted that the tracee stands on, and flags are set at the tracee only. From there a request
ends where the native run first comes to a planted breakpoint or to an event that the request
reports. A stop at which nothing is lifted or flagged is quiet: `handle_breakpoints` then
reports the breakpoint under the tracee, if there is one.
-/

namespace UnixProgramming.Sdb

variable {γ δ : Type} {P : Program γ δ} {code : ByteMemory 64} {init c c' c₁ : Core γ δ}
variable {mode : Mode} {steps : ℕ} {s s' s₁ : Session γ δ} {up : Option ℕ} {o : Option Stop}
variable {cmd : Resume} {a : Addr} {i j : ℕ} {out : List Output} {stops : Addr → Prop}

/-- Some active breakpoint other than the lifted one has the address. -/
def Session.PlantedAt (s : Session γ δ) (up : Option ℕ) (a : Addr) : Prop :=
  ∃ i, s.Active i ∧ (s.breakpoints i).addr = a ∧ up ≠ some i

/-- The program executes no `int3` of its own. -/
def Program.NoInt3 (P : Program γ δ) (code : ByteMemory 64) (init : Core γ δ) : Prop :=
  ∀ c, P.Reaches init c → c.inSyscall = false → code c.regs.rip ≠ 0xcc#8

/-- The session after a request that has come to a stop. -/
def Session.landed (s : Session γ δ) (o : Option Stop) (c : Core γ δ) : Session γ δ :=
  { s with core := (landing o c).2, stop := (landing o c).1 }

/-- A session at a prompt, on the native run of the program from `init`. -/
structure AtPrompt (P : Program γ δ) (code : ByteMemory 64) (init : Core γ δ) (s : Session γ δ) :
    Prop where
  armed : SessionArmed s code
  waiting : s.bpAgain = true →
    (s.breakpoints s.whichBp).addr = s.rip ∧ s.core.inSyscall = false
  flags : ∀ i, s.Active i → (s.breakpoints i).ignoreRipEqualBreak = true →
    (s.breakpoints i).addr = s.rip ∧ s.lifted ≠ some i
  reaches : P.Reaches init s.core
  calls : InStep s

/-- No breakpoint is lifted, waits or will be stepped over. -/
structure Quiet (s : Session γ δ) (code : ByteMemory 64) : Prop where
  armed : Armed s none code
  again : s.bpAgain = false
  flags : ∀ i, s.Active i → (s.breakpoints i).ignoreRipEqualBreak = false

/-- The command reports a hit exactly if the tracee stands on an active breakpoint. -/
def ReportsHit (stops : Addr → Prop) (a : Addr) (out : List Output) : Prop :=
  stops a ∧ out = [.hit a] ∨ ¬stops a ∧ out = []

/-- What a command does about its stop. -/
def Session.act (P : Program γ δ) (cmd : Resume) (steps : ℕ) (s : Session γ δ) :
    Except Halt (List Output × Session γ δ) :=
  if s.handles cmd then handleBreakpoints P cmd steps s (s.handled cmd)
  else pure (if cmd = .syscall then reportSyscall s else ([], s))

/-- With enough steps, the prompt comes back on the native run, in this state and with such a
report. -/
def Answers (P : Program γ δ) (code : ByteMemory 64) (init : Core γ δ)
    (f : ℕ → Except Halt (List Output × Session γ δ)) (c : Core γ δ)
    (report : List Output → Prop) : Prop :=
  ∃ out s', Settles f (.ok (out, s')) ∧ s'.core = c ∧ report out ∧ AtPrompt P code init s'

/-- Which addresses have active breakpoints depends on the addresses and flags in the table. -/
theorem SameTable.activeAt (hsame : SameTable s s') : s'.ActiveAt a ↔ s.ActiveAt a := by
  simp only [Session.ActiveAt, hsame.active, (hsame.2 _).1]

theorem SameTable.reportsHit (hsame : SameTable s s') (hreport : ReportsHit s'.ActiveAt a out) :
    ReportsHit s.ActiveAt a out := by
  simpa only [ReportsHit, hsame.activeAt] using hreport

/-! ## Requests -/

theorem plantedAt_none : s.PlantedAt none = s.ActiveAt := by
  funext a
  simp [Session.PlantedAt, Session.ActiveAt]

/-- The rest of the native run executes no `int3` either. -/
theorem Program.NoInt3.of_reaches (hown : P.NoInt3 code c) (hreach : P.Reaches c c') :
    P.NoInt3 code c' :=
  fun c₁ hreach₁ => hown c₁ (hreach.trans hreach₁)

/-- The tracee stands on an `int3` exactly if a planted breakpoint is there. -/
theorem Armed.atInt3_iff (harmed : Armed s up code)
    (hown : c.inSyscall = false → code c.regs.rip ≠ 0xcc#8) :
    AtInt3 s.mem c ↔ Arrived (s.PlantedAt up) c := by
  refine and_congr_right fun hout => ⟨fun hint3 => ?_, ?_⟩
  · by_contra hnone
    refine hown hout ((harmed.plain _ fun i hi haddr => ?_).symm.trans (hint3.trans byteOf_int3))
    by_contra hup
    exact hnone ⟨i, hi, haddr, hup⟩
  · rintro ⟨i, hi, haddr, hup⟩
    exact haddr ▸ harmed.planted i hi hup

/-- A request ends as it should, -/
theorem Armed.run_stopsAt (harmed : Armed s up code) (hown : P.NoInt3 code s.core)
    (hstops : P.StopsAt mode (s.PlantedAt up) s.core o c') :
    Settles (fun n => s.run P mode n) (.ok (s.landed o c')) := by
  have hiff := fun c hreach => harmed.atInt3_iff (hown c hreach)
  have hresume : Settles (fun n => P.resume s.mem mode n s.core) (.ok (landing o c')) := by
    rcases hstops with ⟨harrived, rfl, rfl⟩ | ⟨hstart, hfirst⟩
    · exact resume_trapped ((hiff _ .refl).mpr harrived)
    · apply resume_firstStop (mt (hiff _ .refl).mp hstart)
      exact hfirst.congr fun c hreach => (hiff c hreach).symm
  exact hresume.bind (.of_forall fun _ => rfl)

/-- or the program exits. -/
theorem Armed.run_exits (harmed : Armed s up code) (hown : P.NoInt3 code s.core)
    (hstart : ¬Arrived (s.PlantedAt up) s.core)
    (hends : P.ExitsFirst mode (s.PlantedAt up) s.core) :
    Settles (fun n => s.run P mode n) (.error .terminated) := by
  have hiff := fun c hreach => harmed.atInt3_iff (hown c hreach)
  apply Settles.bind_error
  apply resume_exits (mt (hiff _ .refl).mp hstart)
  exact hends.congr fun c hreach => (hiff c hreach).symm

/-- A request that ends has come to a stop. -/
theorem Armed.stopsAt_of_run (harmed : Armed s up code) (hown : P.NoInt3 code s.core)
    (hok : s.run P mode steps = .ok s') :
    ∃ o c', P.StopsAt mode (s.PlantedAt up) s.core o c' ∧ s' = s.landed o c' := by
  have hiff := fun c hreach => harmed.atInt3_iff (hown c hreach)
  have hexists : ∃ o c', P.StopsAt mode (s.PlantedAt up) s.core o c' := by
    by_cases hstart : Arrived (s.PlantedAt up) s.core
    · exact ⟨none, s.core, .inl ⟨hstart, rfl, rfl⟩⟩
    · obtain ⟨stop, core, hresume, _⟩ := run_eq_ok.mp hok
      obtain ⟨o, c', hfirst, _⟩ := firstStop_of_resume (mt (hiff _ .refl).mp hstart) hresume
      exact ⟨o, c', .inr ⟨hstart, hfirst.congr hiff⟩⟩
  obtain ⟨o, c', hstops⟩ := hexists
  refine ⟨o, c', hstops, ?_⟩
  have hsettled := (harmed.run_stopsAt hown hstops).eq_of_ok (fun n m a hle => run_mono hle) hok
  exact (Except.ok.inj hsettled).symm

/-! ## Quiet stops -/

/-- From a quiet session, a request ends at the active breakpoints. -/
theorem Quiet.run_stopsAt (hquiet : Quiet s code) (hown : P.NoInt3 code s.core)
    (hstops : P.StopsAt mode s.ActiveAt s.core o c') :
    Settles (fun n => s.run P mode n) (.ok (s.landed o c')) := by
  rw [← plantedAt_none] at hstops
  exact hquiet.armed.run_stopsAt hown hstops

theorem Quiet.run_exits (hquiet : Quiet s code) (hown : P.NoInt3 code s.core)
    (hstart : ¬Arrived s.ActiveAt s.core) (hends : P.ExitsFirst mode s.ActiveAt s.core) :
    Settles (fun n => s.run P mode n) (.error .terminated) := by
  rw [← plantedAt_none] at hstart hends
  exact hquiet.armed.run_exits hown hstart hends

theorem Quiet.stopsAt_of_run (hquiet : Quiet s code) (hown : P.NoInt3 code s.core)
    (hok : s.run P mode steps = .ok s') :
    ∃ o c', P.StopsAt mode s.ActiveAt s.core o c' ∧ s' = s.landed o c' := by
  rw [← plantedAt_none]
  exact hquiet.armed.stopsAt_of_run hown hok

/-- A quiet session may be at the prompt. -/
theorem Quiet.atPrompt (hquiet : Quiet s code) (hreach : P.Reaches init s.core)
    (hcalls : InStep s) : AtPrompt P code init s where
  armed := hquiet.armed.sessionArmed hquiet.again
  waiting hagain := by simp [hquiet.again] at hagain
  flags i hi hflag := by simp [hquiet.flags i hi] at hflag
  reaches := hreach
  calls := hcalls

/-- What is done to the tracee alone leaves a session quiet. -/
theorem Quiet.of_eq (hquiet : Quiet s code) (hmem : s'.mem = s.mem)
    (hnum : s'.numBreakpoints = s.numBreakpoints) (hbps : s'.breakpoints = s.breakpoints)
    (hagain : s'.bpAgain = s.bpAgain) : Quiet s' code where
  armed := hquiet.armed.of_eq hmem hnum hbps
  again := hagain.trans hquiet.again
  flags i hi := by
    rw [Session.Active, hnum, hbps] at hi
    rw [hbps]
    exact hquiet.flags i hi

/-- The breakpoint under the tracee is reported as hit. -/
theorem Quiet.hit (hquiet : Quiet s code) (hi : s.Active i) (haddr : (s.breakpoints i).addr = s.rip)
    (hout : s.core.inSyscall = false) (hreach : P.Reaches init s.core) :
    AtPrompt P code init (s.hit i) where
  armed := hquiet.armed.hit hi haddr
  waiting _ := ⟨haddr, hout⟩
  flags j hj hflag := by
    have hflag' : (s.breakpoints j).ignoreRipEqualBreak = true := hflag
    simp [hquiet.flags j hj] at hflag'
  reaches := hreach
  calls := inStep_of_outside hout

/-- At a quiet stop, `handle_breakpoints` reports what it should. -/
theorem Quiet.handle (hquiet : Quiet s code) (hout : s.core.inSyscall = false)
    (hreach : P.Reaches init (s.core.setRip a)) :
    Answers P code init (fun n => handleBreakpoints P cmd n s (a + 1)) (s.core.setRip a)
      (ReportsHit s.ActiveAt a) := by
  have hmoved : Quiet (s.setRip a) code := hquiet.of_eq rfl rfl rfl rfl
  have hback : a + 1 - 1 = a := BitVec.add_sub_cancel a 1
  cases hfind : s.activeAt a with
  | none =>
    refine ⟨[], s.setRip a, ?_, rfl, .inr ⟨activeAt_eq_none.mp hfind, rfl⟩,
      hmoved.atPrompt hreach (inStep_of_outside hout)⟩
    refine .of_succ (g := fun _ => .ok ([], s.setRip a)) (fun n => ?_) (.of_forall fun _ => rfl)
    rw [handleBreakpoints_succ, hback, hfind]
  | some i =>
    obtain ⟨hi, haddr⟩ := active_of_activeAt hfind
    refine ⟨[.hit a], (s.setRip a).hit i, ?_, rfl, .inl ⟨⟨i, hi, haddr⟩, rfl⟩,
      hmoved.hit hi haddr hout hreach⟩
    refine .of_succ (g := fun _ => .ok ([.hit a], (s.setRip a).hit i)) (fun n => ?_)
      (.of_forall fun _ => rfl)
    rw [handleBreakpoints_succ, hback, hfind]
    simp only [hquiet.flags i hi, haddr]
    rfl

/-- The stop of a command is that of its request, while no breakpoint waits, -/
theorem settles_direct {r : Except Halt (Session γ δ)} (hagain : s.bpAgain = false)
    (hrun : Settles (fun n => s.run P cmd.request n) r) :
    Settles (fun n => s.stopFor P n cmd) r := by
  simpa only [stopFor_direct hagain] using hrun

/-- and while one does, `si` and `syscall` stop where it has been planted again. -/
theorem settles_waiting {r : Except Halt (Session γ δ)} (hcmd : cmd ≠ .cont)
    (hagain : s.bpAgain = true) (hrearm : Settles (fun n => s.rearm P cmd.request n) r) :
    Settles (fun n => s.stopFor P n cmd) r := by
  simpa only [stopFor_waiting hcmd hagain] using hrearm

/-- A command answers as what it does about its stop. -/
theorem Answers.of_stop {report : List Output → Prop}
    (hstop : Settles (fun n => s.stopFor P n cmd) (.ok s₁))
    (hact : Answers P code init (fun n => s₁.act P cmd n) c report) :
    Answers P code init (fun n => perform P n s (.resume cmd)) c report := by
  obtain ⟨out, s', hsettles, hanswer⟩ := hact
  refine ⟨out, s', ?_, hanswer⟩
  simp only [perform_resume]
  exact hstop.bind hsettles

/-- At a trap before which the session is quiet, the command reports the breakpoint. -/
theorem Quiet.act_trapped (hquiet : Quiet s code) (hcore : s.core = c.setRip (c.regs.rip + 1))
    (hstop : s.stop = .trapped) (hout : c.inSyscall = false) (hreach : P.Reaches init c)
    (hnext : cmd = .si → s.bpAddr = false) :
    Answers P code init (fun n => s.act P cmd n) c (ReportsHit s.ActiveAt c.regs.rip) := by
  have hhandles : s.handles cmd = true := by
    cases cmd <;> simp [Session.handles, hstop, Stop.siCode, Stop.atSyscall]
  have hhandled : s.handled cmd = c.regs.rip + 1 := by
    have hrip : s.rip = c.regs.rip + 1 := by rw [Session.rip, hcore, Core.setRip_rip]
    cases cmd with
    | si => rw [Session.handled, hnext rfl, ← hrip]; rfl
    | cont | syscall => exact hrip
  have hback : s.core.setRip c.regs.rip = c := by
    rw [hcore, Core.setRip_setRip, Core.setRip_self]
  simp only [Session.act, hhandles, if_true, hhandled]
  have hanswer : Answers P code init (fun n => handleBreakpoints P cmd n s (c.regs.rip + 1))
      (s.core.setRip c.regs.rip) (ReportsHit s.ActiveAt c.regs.rip) := by
    apply hquiet.handle
    · rw [hcore]
      exact hout
    · rwa [hback]
  rwa [hback] at hanswer

/-- After a plain single step that leaves the session quiet, so does `si`. -/
theorem Quiet.act_stepped (hquiet : Quiet s code)
    (hstop : s.stop = .stepped ∨ s.stop = .steppedCall)
    (hout : s.core.inSyscall = false) (hreach : P.Reaches init s.core) :
    Answers P code init (fun n => s.act P .si n) s.core (ReportsHit s.ActiveAt s.rip) := by
  have hhandles : s.handles .si = s.bpAddr := by
    rcases hstop with hstop | hstop <;> simp [Session.handles, hstop, Stop.siCode]
  cases hbp : s.bpAddr with
  | true =>
    have hhandled : s.handled .si = s.rip + 1 := by simp [Session.handled, hbp]
    simp only [Session.act, hhandles, hbp, if_true, hhandled]
    exact hquiet.handle hout hreach
  | false =>
    have hnone : ¬s.ActiveAt s.rip := by
      rintro ⟨i, hi, haddr⟩
      simp only [Session.bpAddr, List.any_eq_false, List.mem_range, decide_eq_true_eq] at hbp
      exact hbp i hi.1 haddr
    refine ⟨[], s, ?_, rfl, .inr ⟨hnone, rfl⟩, hquiet.atPrompt hreach (inStep_of_outside hout)⟩
    simp only [Session.act, hhandles, hbp]
    exact .of_forall fun _ => rfl

/-! ## Planting the waiting breakpoint again -/

/-- The session after the waiting breakpoint has been planted again. -/
def Session.replanted (s : Session γ δ) (i : ℕ) : Session γ δ :=
  { s.plantAgain i with bpAgain := false }

/-- While no breakpoint waits and none at the tracee is flagged, the prompt is quiet. -/
theorem AtPrompt.quiet (hprompt : AtPrompt P code init s) (hagain : s.bpAgain = false)
    (hclear : ∀ i, s.Active i → (s.breakpoints i).addr = s.rip →
      (s.breakpoints i).ignoreRipEqualBreak = false) : Quiet s code := by
  refine ⟨lifted_eq_none hagain ▸ hprompt.armed.armed, hagain, fun i hi => ?_⟩
  by_contra hflag
  exact hflag (hclear i hi (hprompt.flags i hi (by simpa using hflag)).1)

/-- No breakpoint waits for a tracee that stands on none, unless it was deleted. -/
theorem AtPrompt.again_eq_false (hprompt : AtPrompt P code init s)
    (hwaiting : s.bpAgain = true → s.ActiveAt s.rip) (hstart : ¬Arrived s.ActiveAt s.core) :
    s.bpAgain = false := by
  by_contra hagain
  have hagain : s.bpAgain = true := by simpa using hagain
  exact hstart ⟨(hprompt.waiting hagain).2, hwaiting hagain⟩

/-- No other breakpoint is where one is lifted, and no flag is set. -/
theorem AtPrompt.of_lifted (hprompt : AtPrompt P code init s) (hlifted : s.lifted = some i) :
    ¬s.PlantedAt (some i) s.rip ∧
      ∀ j, s.Active j → (s.breakpoints j).ignoreRipEqualBreak = false := by
  have hi := hprompt.armed.armed.lifted_active i hlifted
  have hrip := hprompt.armed.standing i hlifted
  refine ⟨?_, fun j hj => ?_⟩
  · rintro ⟨j, hj, haddr, hne⟩
    exact hne (congrArg some (hprompt.armed.armed.distinct i j hi hj (hrip.trans haddr.symm)))
  · by_contra hflag
    obtain ⟨haddr, hne⟩ := hprompt.flags j hj (by simpa using hflag)
    have hij := hprompt.armed.armed.distinct i j hi hj (hrip.trans haddr.symm)
    exact hne (hij ▸ hlifted)

/-- Planting the lifted breakpoint again leaves the session quiet. -/
theorem AtPrompt.replanted (hprompt : AtPrompt P code init s) (hlifted : s.lifted = some i)
    (o : Option Stop) (c : Core γ δ) : Quiet ((s.landed o c).replanted i) code := by
  have hi := hprompt.armed.armed.lifted_active i hlifted
  have hlanded : Armed (s.landed o c) (some i) code :=
    hlifted ▸ hprompt.armed.armed.of_eq rfl rfl rfl
  have hplanted := hlanded.plantAgain hi.1 (.inr rfl) ⟨i, hi, rfl⟩
  exact ⟨hplanted.of_eq rfl rfl rfl, rfl, (hprompt.of_lifted hlifted).2⟩

/-- The first part of a command plants the lifted breakpoint again, unless the tracee has come
back to it. -/
theorem AtPrompt.rearm_away (hprompt : AtPrompt P code init s) (hown : P.NoInt3 code init)
    (hlifted : s.lifted = some i) (hfirst : P.FirstStop mode (s.PlantedAt (some i)) s.core o c')
    (haway : (landing o c').2.regs.rip ≠ s.rip) :
    Settles (fun n => s.rearm P mode n) (.ok ((s.landed o c').replanted i)) := by
  obtain ⟨_, rfl, _⟩ := lifted_eq_some.mp hlifted
  have harmed : Armed s (some s.whichBp) code := hlifted ▸ hprompt.armed.armed
  have hstart : ¬Arrived (s.PlantedAt (some s.whichBp)) s.core := fun harrived =>
    (hprompt.of_lifted hlifted).1 harrived.2
  have hrun := harmed.run_stopsAt (hown.of_reaches hprompt.reaches) (.inr ⟨hstart, hfirst⟩)
  refine hrun.bind (.of_forall fun n => ?_)
  have hne : ¬((s.landed o c').plantAgain s.whichBp).rip = (s.breakpoints s.whichBp).addr :=
    fun hback => haway (hback.trans (hprompt.armed.standing _ hlifted))
  have hagain : ((s.landed o c').plantAgain s.whichBp).runAgain P mode n =
      .ok ((s.landed o c').plantAgain s.whichBp) := if_neg hne
  show ((s.landed o c').plantAgain s.whichBp).runAgain P mode n >>= _ = _
  rw [hagain]
  rfl

/-- If a single step has come back to it, the tracee is resumed once more, and traps. -/
theorem AtPrompt.rearm_back (hprompt : AtPrompt P code init s) (hown : P.NoInt3 code init)
    (hlifted : s.lifted = some i) (hinstr : P.Instruction s.core c') (hback : c'.regs.rip = s.rip) :
    ∃ stop, Settles (fun n => s.rearm P .singlestep n)
      (.ok (((s.landed (some stop) c').replanted i).landed none c')) := by
  obtain ⟨_, rfl, hi⟩ := lifted_eq_some.mp hlifted
  have harmed : Armed s (some s.whichBp) code := hlifted ▸ hprompt.armed.armed
  have hstart : ¬Arrived (s.PlantedAt (some s.whichBp)) s.core := fun harrived =>
    (hprompt.of_lifted hlifted).1 harrived.2
  obtain ⟨stop, _, hfirst⟩ := hinstr.firstStop (s.PlantedAt (some s.whichBp))
  have hrun := harmed.run_stopsAt (hown.of_reaches hprompt.reaches) (.inr ⟨hstart, hfirst⟩)
  have hquiet := hprompt.replanted hlifted (some stop) c'
  have hrip := hprompt.armed.standing _ hlifted
  have hplanted : Armed ((s.landed (some stop) c').plantAgain s.whichBp) none code :=
    hquiet.armed.of_eq rfl rfl rfl
  have harrived : Arrived (((s.landed (some stop) c').plantAgain s.whichBp).PlantedAt none) c' :=
    ⟨hinstr.outside, s.whichBp, hi, hrip.trans hback.symm, by simp⟩
  have htrap : Settles
      (fun n => ((s.landed (some stop) c').plantAgain s.whichBp).run P .singlestep n)
      (.ok (((s.landed (some stop) c').plantAgain s.whichBp).landed none c')) := by
    refine hplanted.run_stopsAt ?_ (.inl ⟨harrived, rfl, rfl⟩)
    exact hown.of_reaches (hprompt.reaches.trans hinstr.reaches)
  have heq :
      ((s.landed (some stop) c').plantAgain s.whichBp).rip = (s.breakpoints s.whichBp).addr :=
    hback.trans hrip.symm
  have hagain : ∀ n, ((s.landed (some stop) c').plantAgain s.whichBp).runAgain P .singlestep n =
      ((s.landed (some stop) c').plantAgain s.whichBp).run P .singlestep n := fun n => if_pos heq
  simp only [← hagain] at htrap
  exact ⟨stop, hrun.bind (htrap.bind (.of_forall fun _ => rfl))⟩

end UnixProgramming.Sdb
