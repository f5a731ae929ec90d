import UnixProgramming.Sdb.Prompts

/-!
# Running on

`cont` executes the instruction under the waiting breakpoint with a single step, plants the
breakpoint again and lets the tracee run. It is exact where no breakpoint at the tracee has to be
stepped over and the single step leaves the waiting one.
-/

namespace UnixProgramming.Sdb

variable {γ δ : Type} {P : Program γ δ} {code : ByteMemory 64} {init c c' c₁ : Core γ δ}
variable {steps : ℕ} {s s' : Session γ δ} {i : ℕ} {out : List Output}

/-- The sessions in which `cont` is exact. A breakpoint that waits is still there, and none at the
tracee is flagged or, outside of system calls, planted. When a breakpoint waits, the next
instruction does not end the program and does not lead back to it. -/
structure ContExact (P : Program γ δ) (s : Session γ δ) : Prop where
  waiting : s.bpAgain = true → s.ActiveAt s.rip
  clear : ∀ i, s.Active i → (s.breakpoints i).addr = s.rip →
    (s.breakpoints i).ignoreRipEqualBreak = false ∧
      (s.core.inSyscall = false → s.lifted = some i)
  leaves : s.bpAgain = true → ∃ c', P.Instruction s.core c' ∧ c'.regs.rip ≠ s.rip

/-- `command_CONT` comes to its own `PTRACE_CONT`, sees the program exit there, and prints that
it terminated. On every other path on which the program exits, the debugger ends with an error
instead. -/
def PrintsTerminated (P : Program γ δ) (s : Session γ δ) : Prop :=
  ∃ s₁, Settles (fun n => if s.bpAgain then s.rearm P .singlestep n else pure s) (.ok s₁) ∧
    Settles (fun n => s₁.run P .cont n) (.error .terminated)

/-- Where `cont` is exact, a quiet session leads to its `PTRACE_CONT`, from where the native run
comes to the same stops. -/
theorem AtPrompt.cont_start (hprompt : AtPrompt P code init s) (hown : P.NoInt3 code init)
    (hexact : ContExact P s) :
    ∃ s₁, Settles (fun n => if s.bpAgain then s.rearm P .singlestep n else pure s) (.ok s₁) ∧
      Quiet s₁ code ∧ SameTable s s₁ ∧ P.Reaches init s₁.core ∧
      (∀ o c', P.FirstStop .cont s.ActiveAt s.core o c' ↔
        P.StopsAt .cont s₁.ActiveAt s₁.core o c') ∧
      (P.ExitsFirst .cont s.ActiveAt s.core →
        ¬Arrived s₁.ActiveAt s₁.core ∧ P.ExitsFirst .cont s₁.ActiveAt s₁.core) := by
  cases hlifted : s.lifted with
  | some i =>
    have hagain := (lifted_eq_some.mp hlifted).1
    obtain ⟨c₁, hinstr, haway⟩ := hexact.leaves hagain
    obtain ⟨stop, _, hfirst⟩ := hinstr.firstStop (s.PlantedAt (some i))
    have hrearm := hprompt.rearm_away hown hlifted hfirst haway
    refine ⟨_, ?_, hprompt.replanted hlifted (some stop) c₁, .of_eq rfl rfl,
      hprompt.reaches.trans hinstr.reaches, fun o c' => hinstr.firstStop_cont_iff,
      fun hends => hinstr.exitsFirst_cont hends⟩
    simpa only [hagain, if_true] using hrearm
  | none =>
    have hstart : ¬Arrived s.ActiveAt s.core := by
      rintro ⟨hout, i, hi, haddr⟩
      have hup := (hexact.clear i hi haddr).2 hout
      simp [hlifted] at hup
    have hagain := hprompt.again_eq_false hexact.waiting hstart
    have hquiet : Quiet s code :=
      hprompt.quiet hagain fun i hi haddr => (hexact.clear i hi haddr).1
    refine ⟨s, ?_, hquiet, .of_eq rfl rfl, hprompt.reaches, fun o c' => ⟨fun hfirst => ?_, ?_⟩,
      fun hends => ⟨hstart, hends⟩⟩
    · simp only [hagain]
      exact .of_forall fun _ => rfl
    · exact .inr ⟨hstart, hfirst⟩
    · exact fun hstops => (hstops.resolve_left fun h => hstart h.1).2

/-- The way to the stop, in these two parts. -/
theorem stopFor_cont (n : ℕ) : s.stopFor P n .cont =
    (if s.bpAgain then s.rearm P .singlestep n else pure s) >>= fun s => s.run P .cont n := by
  simp only [Session.stopFor, stopCONT]
  split
  · rfl
  · rfl

/-- `cont` runs to the first later arrival at an active breakpoint, and reports this one. -/
theorem AtPrompt.cont_answers (hprompt : AtPrompt P code init s) (hown : P.NoInt3 code init)
    (hexact : ContExact P s) (hfirst : P.FirstStop .cont s.ActiveAt s.core none c') :
    Answers P code init (fun n => perform P n s (.resume .cont)) c'
      (ReportsHit s.ActiveAt c'.regs.rip) := by
  obtain ⟨s₁, hsettles, hquiet, hsame, hreach, hiff, _⟩ := hprompt.cont_start hown hexact
  have hrun := hquiet.run_stopsAt (hown.of_reaches hreach) ((hiff none c').mp hfirst)
  have hlanded : Quiet (s₁.landed none c') code := hquiet.of_eq rfl rfl rfl rfl
  have hstop : Settles (fun n => s.stopFor P n .cont) (.ok (s₁.landed none c')) := by
    simp only [stopFor_cont]
    exact hsettles.bind hrun
  have hact : Answers P code init (fun n => (s₁.landed none c').act P .cont n) c' _ :=
    hlanded.act_trapped rfl rfl hfirst.arrived_at.1 (hprompt.reaches.trans hfirst.reaches) (by simp)
  obtain ⟨out, s', hsettles', hcore, hreport, hafter⟩ := Answers.of_stop hstop hact
  exact ⟨out, s', hsettles', hcore, hsame.reportsHit hreport, hafter⟩

/-- If the program exits first, `cont` prints that it terminated. -/
theorem AtPrompt.cont_exits (hprompt : AtPrompt P code init s) (hown : P.NoInt3 code init)
    (hexact : ContExact P s) (hends : P.ExitsFirst .cont s.ActiveAt s.core) :
    PrintsTerminated P s := by
  obtain ⟨s₁, hsettles, hquiet, _, hreach, _, hexits⟩ := hprompt.cont_start hown hexact
  obtain ⟨hstart, hends₁⟩ := hexits hends
  exact ⟨s₁, hsettles, hquiet.run_exits (hown.of_reaches hreach) hstart hends₁⟩

/-- A `cont` that comes back to the prompt has arrived at an active breakpoint. -/
theorem AtPrompt.firstStop_of_cont (hprompt : AtPrompt P code init s)
    (hown : P.NoInt3 code init) (hexact : ContExact P s)
    (hok : perform P steps s (.resume .cont) = .ok (out, s')) :
    ∃ c', P.FirstStop .cont s.ActiveAt s.core none c' := by
  obtain ⟨s₁, hsettles, hquiet, _, hreach, hiff, _⟩ := hprompt.cont_start hown hexact
  rw [perform_resume, stopFor_cont] at hok
  obtain ⟨s₂, hstop, _⟩ := bind_eq_ok.mp hok
  obtain ⟨s₃, hstart, hrun⟩ := bind_eq_ok.mp hstop
  have hs₃ := Except.ok.inj (hsettles.eq_of_ok (fun n m a hle hok => ?_) hstart)
  · subst hs₃
    obtain ⟨o, c', hstops, _⟩ := hquiet.stopsAt_of_run (hown.of_reaches hreach) hrun
    have hfirst := (hiff o c').mpr hstops
    obtain rfl := firstStop_cont_none hfirst
    exact ⟨c', hfirst⟩
  · split at hok
    · obtain ⟨_, hok', rfl⟩ := rearm_more hle a hok
      split
      · exact hok'
      · contradiction
    · split
      · contradiction
      · exact hok

end UnixProgramming.Sdb
