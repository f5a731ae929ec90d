import UnixProgramming.Sdb.Prompts

/-!
# The first event

`syscall` runs to the next entry or exit of a system call or to the next breakpoint, whichever
comes first. It resumes the tracee while the waiting breakpoint is still lifted and plants it
again only afterwards, so it is exact where the native run does not come back there before.
-/

namespace UnixProgramming.Sdb

variable {γ δ : Type} {P : Program γ δ} {code : ByteMemory 64} {init c c' c₁ : Core γ δ}
variable {steps : ℕ} {s s' s₁ : Session γ δ} {o : Option Stop} {i : ℕ} {out : List Output}
variable {stops : Addr → Prop}

/-- The line for an event: the entry or the exit of a system call, or the arrival at a
breakpoint. -/
def eventLine : Option Stop → Core γ δ → Output
  | some .entry, c => .enterSyscall c.regs.origRax (c.regs.rip - 2)
  | some _, c => .leaveSyscall c.regs.origRax c.regs.rax (c.regs.rip - 2)
  | none, c => .hit c.regs.rip

/-- The sessions in which `syscall` is exact. A breakpoint that waits is still there, and outside
of system calls none at the tracee is planted. When a breakpoint waits, the first event is not the
arrival there, and leaves `rip` neither there nor, at a trap, one before it. When the last exit of
a system call was not reported, the next call has another number. -/
structure SyscallExact (P : Program γ δ) (s : Session γ δ) : Prop where
  waiting : s.bpAgain = true → s.ActiveAt s.rip
  clear : s.core.inSyscall = false → ∀ i, s.Active i → (s.breakpoints i).addr = s.rip →
    s.lifted = some i
  leaves : s.bpAgain = true → ∀ o c', P.FirstStop .syscall s.ActiveAt s.core o c' →
    c'.regs.rip ≠ s.rip ∧ (o = none → c'.regs.rip + 1 ≠ s.rip)
  unreported : s.core.inSyscall = false → s.enter = false → ∀ c',
    P.FirstStop .syscall s.ActiveAt s.core (some .entry) c' → c'.regs.origRax ≠ s.preOrigRax

/-- From inside a system call, the first event is its exit, -/
theorem firstStop_syscall_inside (hin : c.inSyscall = true)
    (hfirst : P.FirstStop .syscall stops c o c') :
    o = some .exit ∧ P.nativeStep c = some (.left, c') := by
  cases hfirst with
  | reported hstep hstop =>
    obtain rfl := (Program.nativeStep_left hstep).mp hin
    exact ⟨hstop.symm, hstep⟩
  | arrives hstep hstop | later hstep hstop =>
    obtain rfl := (Program.nativeStep_left hstep).mp hin
    cases hstop

/-- and from outside it is the entry of one or an arrival. -/
theorem firstStop_syscall_outside (hout : c.inSyscall = false)
    (hfirst : P.FirstStop .syscall stops c o c') :
    o = some .entry ∧ c'.inSyscall = true ∨ o = none := by
  induction hfirst with
  | @reported c c' event stop hstep hstop =>
    cases event with
    | ran => cases hstop
    | entered => exact .inl ⟨hstop.symm, (Program.nativeStep_inSyscall hstep).mpr rfl⟩
    | left => simp [(Program.nativeStep_left hstep).mpr rfl] at hout
  | arrives => exact .inr rfl
  | @later c c₁ c' event o hstep hstop _ _ ih =>
    cases event with
    | ran => exact ih (by simpa using mt (Program.nativeStep_inSyscall hstep).mp (by simp))
    | entered | left => cases hstop

/-- The report of a system call, by the flag and the number of the call reported last. -/
theorem reportSyscall_eq (s : Session γ δ) :
    reportSyscall s = if s.enter = true ∨ s.preOrigRax ≠ s.core.regs.origRax then
        ([eventLine (some .entry) s.core],
          { s with enter := false, preOrigRax := s.core.regs.origRax })
      else ([eventLine (some .exit) s.core],
        { s with enter := true, preOrigRax := s.core.regs.origRax }) := by
  unfold reportSyscall eventLine
  cases s.enter <;> by_cases hpre : s.preOrigRax = s.core.regs.origRax <;> simp [hpre, Session.rip]

/-- Inside a system call, `syscall` runs to its exit. -/
theorem AtPrompt.syscall_inside (hprompt : AtPrompt P code init s) (hown : P.NoInt3 code init)
    (hin : s.core.inSyscall = true) (hfirst : P.FirstStop .syscall s.ActiveAt s.core o c') :
    Answers P code init (fun n => perform P n s (.resume .syscall)) c' (· = [eventLine o c']) := by
  obtain ⟨henter, hpre, hagain⟩ := hprompt.calls hin
  obtain ⟨rfl, hleave⟩ := firstStop_syscall_inside hin hfirst
  have hlifted := lifted_eq_none hagain
  have harmed : Armed s none code := hlifted ▸ hprompt.armed.armed
  have hrun : Settles (fun n => s.run P .syscall n) (.ok (s.landed (some .exit) c')) := by
    apply harmed.run_stopsAt (hown.of_reaches hprompt.reaches)
    rw [plantedAt_none]
    exact .inr ⟨fun harrived => by simp [harrived.1] at hin, hfirst⟩
  have hstopped : Settles (fun n => s.stopFor P n .syscall) _ := settles_direct hagain hrun
  apply Answers.of_stop hstopped
  obtain ⟨result, data, _, hcore⟩ := Program.nativeStep_left_eq hleave
  have hregs : c'.regs.rip = s.rip ∧ c'.regs.origRax = s.core.regs.origRax ∧
      c'.inSyscall = false := by
    rw [hcore]
    exact ⟨rfl, rfl, rfl⟩
  let reported : Session γ δ :=
    { s.landed (some .exit) c' with enter := true, preOrigRax := c'.regs.origRax }
  have hreport : reportSyscall (s.landed (some .exit) c') =
      ([eventLine (some .exit) c'], reported) := by
    rw [reportSyscall_eq, if_neg]
    · rfl
    · rintro (h | h)
      · exact absurd (henter.symm.trans h) (by simp)
      · exact h (hpre.trans hregs.2.1.symm)
  have hact : ∀ n, (s.landed (some .exit) c').act P .syscall n =
      .ok (reportSyscall (s.landed (some .exit) c')) := fun _ => rfl
  refine ⟨_, reported, .of_forall fun n => (hact n).trans (congrArg _ hreport), rfl, rfl, ?_⟩
  have harmed' : Armed reported none code := harmed.of_eq rfl rfl rfl
  refine ⟨harmed'.sessionArmed hagain, fun h => ?_, fun i hi hflag => ⟨?_, ?_⟩,
    hprompt.reaches.trans hfirst.reaches, inStep_of_outside hregs.2.2⟩
  · exact absurd (hagain.symm.trans h) (by simp)
  · exact (hprompt.flags i hi hflag).1.trans hregs.1.symm
  · have hnone : reported.lifted = none := lifted_eq_none hagain
    simp [hnone]

/-- Outside of system calls, `syscall` comes to the first event, with the waiting breakpoint
planted again. -/
theorem AtPrompt.syscall_stop (hprompt : AtPrompt P code init s) (hown : P.NoInt3 code init)
    (hexact : SyscallExact P s) (hout : s.core.inSyscall = false)
    (hfirst : P.FirstStop .syscall s.ActiveAt s.core o c') :
    ∃ s₁, Settles (fun n => s.stopFor P n .syscall) (.ok s₁) ∧ Quiet s₁ code ∧ SameTable s s₁ ∧
      (s₁.stop, s₁.core) = landing o c' ∧ s₁.enter = s.enter ∧ s₁.preOrigRax = s.preOrigRax := by
  cases hlifted : s.lifted with
  | some i =>
    have hagain := (lifted_eq_some.mp hlifted).1
    obtain ⟨haway, hbefore⟩ := hexact.leaves hagain o c' hfirst
    have hfirst' : P.FirstStop .syscall (s.PlantedAt (some i)) s.core o c' := by
      refine hfirst.fewer ?_ ?_
      · rintro c₁ ⟨hout, j, hj, haddr, _⟩
        exact ⟨hout, j, hj, haddr⟩
      · rintro rfl
        obtain ⟨hout, j, hj, haddr⟩ := hfirst.arrived_at
        refine ⟨hout, j, hj, haddr, fun hij => haway ?_⟩
        obtain rfl : i = j := Option.some.inj hij
        exact haddr.symm.trans (hprompt.armed.standing i hlifted)
    have hrearm := hprompt.rearm_away hown hlifted hfirst' ?_
    · exact ⟨_, settles_waiting (by simp) hagain hrearm, hprompt.replanted hlifted o c',
        .of_eq rfl rfl, rfl, rfl, rfl⟩
    · cases o with
      | none => exact hbefore rfl
      | some stop => exact haway
  | none =>
    have hstart : ¬Arrived s.ActiveAt s.core := by
      rintro ⟨_, i, hi, haddr⟩
      have hup := hexact.clear hout i hi haddr
      simp [hlifted] at hup
    have hagain := hprompt.again_eq_false hexact.waiting hstart
    have hquiet : Quiet s code :=
      hprompt.quiet hagain fun i hi haddr => absurd ⟨hout, i, hi, haddr⟩ hstart
    have hrun := hquiet.run_stopsAt (hown.of_reaches hprompt.reaches) (.inr ⟨hstart, hfirst⟩)
    exact ⟨_, settles_direct hagain hrun, hquiet.of_eq rfl rfl rfl rfl, .of_eq rfl rfl, rfl, rfl,
      rfl⟩

/-- `syscall` runs to the first event and reports it. -/
theorem AtPrompt.syscall_answers (hprompt : AtPrompt P code init s) (hown : P.NoInt3 code init)
    (hexact : SyscallExact P s) (hfirst : P.FirstStop .syscall s.ActiveAt s.core o c') :
    Answers P code init (fun n => perform P n s (.resume .syscall)) c' (· = [eventLine o c']) := by
  cases hout : s.core.inSyscall with
  | true => exact hprompt.syscall_inside hown hout hfirst
  | false =>
    obtain ⟨s₁, hstop, hquiet, hsame, hland, henter, hpre⟩ :=
      hprompt.syscall_stop hown hexact hout hfirst
    have hreach := hprompt.reaches.trans hfirst.reaches
    rcases firstStop_syscall_outside hout hfirst with ⟨rfl, hin⟩ | rfl
    · obtain ⟨hentry, hcore⟩ := Prod.mk.inj hland
      let reported : Session γ δ := { s₁ with enter := false, preOrigRax := s₁.core.regs.origRax }
      have hreport : reportSyscall s₁ = ([eventLine (some .entry) c'], reported) := by
        rw [reportSyscall_eq, if_pos]
        · exact congrArg (fun c => ([eventLine (some .entry) c], reported)) hcore
        · rw [henter, hpre, hcore]
          by_contra hneither
          obtain ⟨hflag, hnumber⟩ := not_or.mp hneither
          exact hexact.unreported hout (by simpa using hflag) c' hfirst (not_not.mp hnumber).symm
      have hact : ∀ n, s₁.act P .syscall n = .ok (reportSyscall s₁) := by
        intro n
        have hhandles : s₁.handles .syscall = false := by
          simp [Session.handles, hentry, Stop.atSyscall]
        simp only [Session.act, hhandles]
        rfl
      apply Answers.of_stop hstop
      refine ⟨_, reported, .of_forall fun n => (hact n).trans (congrArg _ hreport), hcore, rfl, ?_⟩
      have hreported : Quiet reported code := hquiet.of_eq rfl rfl rfl rfl
      apply hreported.atPrompt
      · exact hcore.symm ▸ hreach
      · exact fun _ => ⟨rfl, rfl, hquiet.again⟩
    · obtain ⟨htrapped, hcore⟩ := Prod.mk.inj hland
      obtain ⟨hout', hactive⟩ := hfirst.arrived_at
      obtain ⟨out, s', hsettles, hcore', hreport, hafter⟩ := Answers.of_stop hstop
        (hquiet.act_trapped hcore htrapped hout' hreach (by simp))
      refine ⟨out, s', hsettles, hcore', ?_, hafter⟩
      rcases hsame.reportsHit hreport with ⟨_, hhit⟩ | ⟨hnone, _⟩
      · exact hhit
      · exact absurd hactive hnone

/-- A `syscall` that comes back to the prompt has come to an event. -/
theorem AtPrompt.firstStop_of_syscall (hprompt : AtPrompt P code init s)
    (hown : P.NoInt3 code init) (hexact : SyscallExact P s)
    (hok : perform P steps s (.resume .syscall) = .ok (out, s')) :
    ∃ o c', P.FirstStop .syscall s.ActiveAt s.core o c' := by
  obtain ⟨s₁, hstopped, _⟩ := resume_cases hok
  obtain ⟨steps₁, s₂, hrun⟩ := hstopped.exists_run (by simp)
  obtain ⟨o, c', hstops, _⟩ :=
    hprompt.armed.armed.stopsAt_of_run (hown.of_reaches hprompt.reaches) hrun
  rcases hstops with ⟨⟨hout, i, hi, haddr, hne⟩, _⟩ | ⟨_, hfirst⟩
  · exact absurd (hexact.clear hout i hi haddr) hne
  · exact hfirst.exists_more fun c₁ ⟨hout, i, hi, haddr, _⟩ => ⟨hout, i, hi, haddr⟩

end UnixProgramming.Sdb
