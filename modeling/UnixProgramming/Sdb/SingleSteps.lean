import UnixProgramming.Sdb.Prompts

/-!
# One instruction

`si` makes one, two or three single steps, which together are meant to be one instruction. It
is exact unless the tracee comes to an entry of the table in one of the ways that
`SiExact` rules out.
-/

namespace UnixProgramming.Sdb

variable {γ δ : Type} {P : Program γ δ} {code : ByteMemory 64} {init c c' : Core γ δ}
variable {steps : ℕ} {s s' s₁ : Session γ δ} {o : Option Stop} {a : Addr} {i j : ℕ}
variable {out : List Output}

/-- An entry of the table, active or not, has the address. -/
def Session.EntryAt (s : Session γ δ) (a : Addr) : Prop :=
  ∃ i < s.numBreakpoints, (s.breakpoints i).addr = a

/-- The sessions in which `si` is exact. A breakpoint that waits is still there; inside a
system call no breakpoint at the tracee is flagged. On a lifted breakpoint, the instruction does
not lead back to it while the next byte has an entry of the table. On one that is planted, which
is flagged, the next byte has no entry, and the instruction leads to no active breakpoint but the
one with the next number. -/
structure SiExact (P : Program γ δ) (s : Session γ δ) : Prop where
  waiting : s.bpAgain = true → s.ActiveAt s.rip
  inside : s.core.inSyscall = true → ∀ i, s.Active i → (s.breakpoints i).addr = s.rip →
    (s.breakpoints i).ignoreRipEqualBreak = false
  lifted : ∀ i c', s.lifted = some i → P.Instruction s.core c' → c'.regs.rip = s.rip →
    ¬s.EntryAt (s.rip + 1)
  planted : s.core.inSyscall = false → ∀ i, s.Active i → (s.breakpoints i).addr = s.rip →
    s.lifted ≠ some i → (s.breakpoints i).ignoreRipEqualBreak = true ∧ ¬s.EntryAt (s.rip + 1) ∧
      ∀ c' k, P.Instruction s.core c' → s.Active k → (s.breakpoints k).addr = c'.regs.rip →
        k = i + 1

theorem bpAddr_eq_false : s.bpAddr = false ↔ ¬s.EntryAt s.rip := by
  simp [Session.bpAddr, Session.EntryAt]

/-- A tracee that stands on no breakpoint makes a plain single step. -/
theorem AtPrompt.si_plain (hprompt : AtPrompt P code init s) (hown : P.NoInt3 code init)
    (hquiet : Quiet s code) (hstart : ¬Arrived s.ActiveAt s.core)
    (hinstr : P.Instruction s.core c') :
    Answers P code init (fun n => perform P n s (.resume .si)) c'
      (ReportsHit s.ActiveAt c'.regs.rip) := by
  obtain ⟨stop, hstop, hfirst⟩ := hinstr.firstStop s.ActiveAt
  have hrun := hquiet.run_stopsAt (hown.of_reaches hprompt.reaches) (.inr ⟨hstart, hfirst⟩)
  have hlanded : Quiet (s.landed (some stop) c') code := hquiet.of_eq rfl rfl rfl rfl
  have hstopped : Settles (fun n => s.stopFor P n .si) _ := settles_direct hquiet.again hrun
  apply Answers.of_stop hstopped
  exact hlanded.act_stepped hstop hinstr.outside (hprompt.reaches.trans hinstr.reaches)

/-- A tracee that stands on a lifted breakpoint makes one single step, and another one if that
has led back to it. -/
theorem AtPrompt.si_lifted (hprompt : AtPrompt P code init s) (hown : P.NoInt3 code init)
    (hlifted : s.lifted = some i) (hinstr : P.Instruction s.core c')
    (hself : c'.regs.rip = s.rip → ¬s.EntryAt (s.rip + 1)) :
    Answers P code init (fun n => perform P n s (.resume .si)) c'
      (ReportsHit s.ActiveAt c'.regs.rip) := by
  have hagain := (lifted_eq_some.mp hlifted).1
  have hreach := hprompt.reaches.trans hinstr.reaches
  by_cases hback : c'.regs.rip = s.rip
  · obtain ⟨stop, hrearm⟩ := hprompt.rearm_back hown hlifted hinstr hback
    have hquiet := hprompt.replanted hlifted (some stop) c'
    have hlanded : Quiet (((s.landed (some stop) c').replanted i).landed none c') code :=
      hquiet.of_eq rfl rfl rfl rfl
    have hstopped : Settles (fun n => s.stopFor P n .si) _ :=
      settles_waiting (by simp) hagain hrearm
    refine Answers.of_stop hstopped (hlanded.act_trapped rfl rfl hinstr.outside hreach fun _ => ?_)
    refine bpAddr_eq_false.mpr fun hentry => hself hback ?_
    rw [← hback]
    exact hentry
  · obtain ⟨stop, hstop, hfirst⟩ := hinstr.firstStop (s.PlantedAt (some i))
    have hrearm := hprompt.rearm_away hown hlifted hfirst hback
    have hquiet := hprompt.replanted hlifted (some stop) c'
    have hstopped : Settles (fun n => s.stopFor P n .si) _ :=
      settles_waiting (by simp) hagain hrearm
    exact Answers.of_stop hstopped (hquiet.act_stepped hstop hinstr.outside hreach)

/-- Planting what is there already changes nothing. -/
theorem plantAgain_self
    (hmem : s.mem (s.breakpoints i).addr = byteOf (s.breakpoints i).int3Code 0) :
    s.plantAgain i = s := by
  have hsame : (s.plantAgain i).mem = s.mem := by
    rw [Session.plantAgain, pokeLow_mem, ← hmem, Function.update_eq_self]
  show { s with mem := (s.plantAgain i).mem } = s
  rw [hsame]

/-- A tracee that stands on a planted breakpoint traps on it, also when another one waits there
that has been deleted. -/
theorem AtPrompt.si_traps (hprompt : AtPrompt P code init s) (hown : P.NoInt3 code init)
    (hlifted : s.lifted = none) (harrived : Arrived s.ActiveAt s.core) :
    Settles (fun n => s.stopFor P n .si)
      (.ok ({ s with bpAgain := false }.landed none s.core)) := by
  have harmed : Armed s none code := hlifted ▸ hprompt.armed.armed
  have hrun : Settles (fun n => s.run P .singlestep n) (.ok (s.landed none s.core)) := by
    apply harmed.run_stopsAt (hown.of_reaches hprompt.reaches)
    exact .inl ⟨plantedAt_none ▸ harrived, rfl, rfl⟩
  cases hagain : s.bpAgain with
  | false =>
    have hsame : { s with bpAgain := false } = s := by
      rw [← hagain]
    rw [hsame]
    exact settles_direct hagain hrun
  | true =>
    refine settles_waiting (by simp) hagain (hrun.bind (.of_forall fun n => ?_))
    obtain ⟨haddr, _⟩ := hprompt.waiting hagain
    -- the byte that is planted again is there already
    have hmem : (s.landed none s.core).plantAgain s.whichBp = s.landed none s.core := by
      obtain ⟨k, hk, hrip⟩ := harrived.2
      apply plantAgain_self
      show s.mem (s.breakpoints s.whichBp).addr = byteOf (s.breakpoints s.whichBp).int3Code 0
      rw [harmed.trap _ (hprompt.armed.waiting hagain), haddr, ← harmed.planted k hk (by simp),
        hrip]
      rfl
    have hne : ¬(s.landed none s.core).rip = (s.breakpoints s.whichBp).addr := by
      rw [haddr]
      exact fun heq => absurd (add_eq_left.mp heq) (by decide)
    have hnot : (s.landed none s.core).runAgain P .singlestep n = .ok (s.landed none s.core) :=
      if_neg hne
    show ((s.landed none s.core).plantAgain s.whichBp).runAgain P .singlestep n >>= _ = _
    rw [hmem, hnot]
    rfl

/-- The session after `si` has stepped over a breakpoint. -/
def Session.over (s : Session γ δ) (i : ℕ) (stop : Stop) (c : Core γ δ) : Session γ δ :=
  ((s.stepOver i).landed (some stop) c).plantAgain i

/-- Stepping over the only flagged breakpoint leaves the session quiet, with the same
breakpoints. -/
theorem AtPrompt.over (hprompt : AtPrompt P code init s) (hlifted : s.lifted = none)
    (hagain : s.bpAgain = false) (hi : s.Active i) (haddr : (s.breakpoints i).addr = s.rip)
    (stop : Stop) (c : Core γ δ) :
    Quiet (s.over i stop c) code ∧ SameTable s (s.over i stop c) := by
  have harmed : Armed s none code := hlifted ▸ hprompt.armed.armed
  have htable : SameTable s ((s.stepOver i).landed (some stop) c) :=
    (stepOver_sameTable s i).trans (.of_eq rfl rfl)
  have hsame : SameTable s (s.over i stop c) := htable.trans (steppedOver_sameTable _ i .si).1
  have hlanded : Armed ((s.stepOver i).landed (some stop) c) (some i) code :=
    (harmed.stepOver hi).of_eq rfl rfl rfl
  have hbps : (s.over i stop c).breakpoints = Function.update s.breakpoints i
      { s.breakpoints i with ignoreRipEqualBreak := false } := rfl
  refine ⟨⟨hlanded.steppedOver_si, hagain, fun j hj => ?_⟩, hsame⟩
  rw [hbps]
  by_cases hji : j = i
  · rw [hji, Function.update_self]
  · rw [Function.update_of_ne hji]
    by_contra hflag
    have hj' := hsame.active.mp hj
    have hrip := (hprompt.flags j hj' (by simpa using hflag)).1
    exact hji (harmed.distinct j i hj' hi (hrip.trans haddr.symm))

/-- The session after a trap on a breakpoint, when this one has been lifted and `rip` moved
back. -/
def Session.trappedOver (s : Session γ δ) (i : ℕ) : Session γ δ :=
  ((s.landed none s.core).setRip (s.rip + 1 - 1)).stepOver i

/-- From there the tracee executes the instruction under the breakpoint. -/
theorem AtPrompt.trappedOver (hprompt : AtPrompt P code init s) (hlifted : s.lifted = none)
    (hi : s.Active i) (haddr : (s.breakpoints i).addr = s.rip) :
    (s.trappedOver i).core = s.core ∧ Armed (s.trappedOver i) (some i) code ∧
      ¬Arrived ((s.trappedOver i).PlantedAt (some i)) s.core := by
  have harmed : Armed s none code := hlifted ▸ hprompt.armed.armed
  refine ⟨?_, (harmed.stepOver hi).of_eq rfl rfl rfl, ?_⟩
  · show (s.core.setRip (s.rip + 1)).setRip (s.rip + 1 - 1) = s.core
    rw [BitVec.add_sub_cancel, Core.setRip_setRip]
    exact Core.setRip_self s.core
  · rintro ⟨_, j, hj, haddr', hne⟩
    have hsame : SameTable s (s.trappedOver i) := stepOver_sameTable _ i
    rw [(hsame.2 j).1] at haddr'
    have hij := harmed.distinct i j hi (hsame.active.mp hj) (haddr.trans haddr'.symm)
    exact hne (congrArg some hij)

/-- At the trap, `si` steps over the breakpoint, which is flagged, with another single step, and
looks at the entry with the next number. -/
theorem AtPrompt.act_unfold (hprompt : AtPrompt P code init s) (hlifted : s.lifted = none)
    (hi : s.Active i) (haddr : (s.breakpoints i).addr = s.rip)
    (hflag : (s.breakpoints i).ignoreRipEqualBreak = true) (hentry : ¬s.EntryAt (s.rip + 1))
    (n : ℕ) : (s.landed none s.core).act P .si (n + 1) =
      (s.trappedOver i).run P .singlestep n >>= fun s =>
        if (s.plantAgain i).atNext i then
          handleBreakpoints P .si n (s.plantAgain i) ((s.plantAgain i).rip + 1)
        else pure ([], s.plantAgain i) := by
  have harmed : Armed s none code := hlifted ▸ hprompt.armed.armed
  have hhandled : (s.landed none s.core).handled .si = s.rip + 1 := by
    have hbp : (s.landed none s.core).bpAddr = false := bpAddr_eq_false.mpr hentry
    simp only [Session.handled, hbp, Bool.false_eq_true, if_false]
    rfl
  have hhandles : (s.landed none s.core).handles .si = true := rfl
  have hfind : (s.landed none s.core).activeAt (s.rip + 1 - 1) = some i := by
    rw [BitVec.add_sub_cancel]
    cases hfind : (s.landed none s.core).activeAt s.rip with
    | none => exact absurd ⟨i, hi, haddr⟩ (activeAt_eq_none.mp hfind)
    | some j =>
      obtain ⟨hj, haddr'⟩ := active_of_activeAt hfind
      rw [harmed.distinct j i hj hi (haddr'.trans haddr.symm)]
  have hflag' : ((s.landed none s.core).breakpoints i).ignoreRipEqualBreak = true := hflag
  simp only [Session.act, hhandles, if_true, hhandled]
  rw [handleBreakpoints_succ, hfind]
  simp only [hflag', if_true]
  rfl

/-- Together with the trap this is one instruction. -/
theorem AtPrompt.act_flagged (hprompt : AtPrompt P code init s) (hown : P.NoInt3 code init)
    (hlifted : s.lifted = none) (hagain : s.bpAgain = false) (hi : s.Active i)
    (haddr : (s.breakpoints i).addr = s.rip)
    (hflag : (s.breakpoints i).ignoreRipEqualBreak = true) (hentry : ¬s.EntryAt (s.rip + 1))
    (hinstr : P.Instruction s.core c')
    (hnext : ∀ k, s.Active k → (s.breakpoints k).addr = c'.regs.rip → k = i + 1) :
    Answers P code init (fun n => (s.landed none s.core).act P .si n) c'
      (ReportsHit s.ActiveAt c'.regs.rip) := by
  obtain ⟨hcore, hover, hstart⟩ := hprompt.trappedOver hlifted hi haddr
  obtain ⟨stop, _, hfirst⟩ := hinstr.firstStop ((s.trappedOver i).PlantedAt (some i))
  have hrun : Settles (fun n => (s.trappedOver i).run P .singlestep n)
      (.ok ((s.trappedOver i).landed (some stop) c')) := by
    rw [← hcore] at hstart hfirst
    exact hover.run_stopsAt (hown.of_reaches (hcore.symm ▸ hprompt.reaches)) (.inr ⟨hstart, hfirst⟩)
  obtain ⟨hquiet, hsame⟩ := hprompt.over hlifted hagain hi haddr stop c'
  have hreach := hprompt.reaches.trans hinstr.reaches
  have hrest : Answers P code init (fun n => if (s.over i stop c').atNext i then
      handleBreakpoints P .si n (s.over i stop c') (c'.regs.rip + 1)
      else pure ([], s.over i stop c')) c'
      (ReportsHit (s.over i stop c').ActiveAt c'.regs.rip) := by
    cases hat : (s.over i stop c').atNext i with
    | true => exact hquiet.handle hinstr.outside hreach
    | false =>
      refine ⟨[], s.over i stop c', .of_forall fun _ => rfl, rfl, .inr ⟨?_, rfl⟩,
        hquiet.atPrompt hreach (inStep_of_outside hinstr.outside)⟩
      rintro ⟨k, hk, hrip⟩
      have hk' := hnext k (hsame.active.mp hk) ((hsame.2 k).1 ▸ hrip)
      subst hk'
      have hat' : (s.over i stop c').atNext i = true := by
        simp only [Session.atNext, Bool.and_eq_true, decide_eq_true_eq]
        exact ⟨⟨hrip.symm, hk.2⟩, hk.1⟩
      simp [hat] at hat'
  obtain ⟨out, s', hsettles, hcore', hreport, hafter⟩ := hrest
  refine ⟨out, s', ?_, hcore', hsame.reportsHit hreport, hafter⟩
  exact .of_succ (hprompt.act_unfold hlifted hi haddr hflag hentry) (hrun.bind hsettles)

/-- A breakpoint that waits but has been deleted does not matter. -/
theorem AtPrompt.forget (hprompt : AtPrompt P code init s) (hlifted : s.lifted = none) :
    AtPrompt P code init { s with bpAgain := false } := by
  have harmed : Armed { s with bpAgain := false } none code :=
    (hlifted ▸ hprompt.armed.armed).of_eq rfl rfl rfl
  refine ⟨harmed.sessionArmed rfl, fun h => ?_, fun i hi hflag => ?_, hprompt.reaches,
    fun hin => ?_⟩
  · simp at h
  · exact ⟨(hprompt.flags i hi hflag).1, by simp [Session.lifted]⟩
  · obtain ⟨henter, hpre, _⟩ := hprompt.calls hin
    exact ⟨henter, hpre, rfl⟩

/-- One instruction, and a report exactly if it leads to an active breakpoint. -/
theorem AtPrompt.si_answers (hprompt : AtPrompt P code init s) (hown : P.NoInt3 code init)
    (hexact : SiExact P s) (hinstr : P.Instruction s.core c') :
    Answers P code init (fun n => perform P n s (.resume .si)) c'
      (ReportsHit s.ActiveAt c'.regs.rip) := by
  cases hlifted : s.lifted with
  | some i => exact hprompt.si_lifted hown hlifted hinstr (hexact.lifted i c' hlifted hinstr)
  | none =>
    by_cases hstart : Arrived s.ActiveAt s.core
    · obtain ⟨hout, i, hi, haddr⟩ := hstart
      obtain ⟨hflag, hentry, hnext⟩ := hexact.planted hout i hi haddr (by simp [hlifted])
      refine Answers.of_stop (hprompt.si_traps hown hlifted ⟨hout, i, hi, haddr⟩) ?_
      exact (hprompt.forget hlifted).act_flagged hown (by simp [Session.lifted]) rfl hi haddr hflag
        hentry hinstr fun k => hnext c' k hinstr
    · have hagain := hprompt.again_eq_false hexact.waiting hstart
      apply hprompt.si_plain hown (hprompt.quiet hagain fun i hi haddr => ?_) hstart hinstr
      cases hcall : s.core.inSyscall with
      | true => exact hexact.inside hcall i hi haddr
      | false => exact absurd ⟨hcall, i, hi, haddr⟩ hstart

/-- A `si` that comes back to the prompt has completed an instruction. -/
theorem AtPrompt.instruction_of_perform (hprompt : AtPrompt P code init s)
    (hown : P.NoInt3 code init) (hexact : SiExact P s)
    (hok : perform P steps s (.resume .si) = .ok (out, s')) : ∃ c', P.Instruction s.core c' := by
  have hown' := hown.of_reaches hprompt.reaches
  by_cases hstart : Arrived (s.PlantedAt s.lifted) s.core
  · -- the second single step, at the trap
    obtain ⟨hout, i, hi, haddr, hne⟩ := hstart
    have hlifted : s.lifted = none := by
      by_contra hsome
      obtain ⟨j, hj⟩ := Option.ne_none_iff_exists'.mp hsome
      exact (hprompt.of_lifted hj).1 ⟨i, hi, haddr, hj ▸ hne⟩
    obtain ⟨hflag, hentry, _⟩ := hexact.planted hout i hi haddr hne
    have hstop := hprompt.si_traps hown hlifted ⟨hout, i, hi, haddr⟩
    have hforgotten := hprompt.forget hlifted
    have hok := perform_mono (Nat.le_succ steps) hok
    rw [perform_resume] at hok
    obtain ⟨s₁, hstopFor, hact⟩ := bind_eq_ok.mp hok
    have hs₁ := Except.ok.inj (hstop.eq_of_ok (fun _ _ _ hle => stopFor_mono hle) hstopFor)
    subst hs₁
    have hunfold := hforgotten.act_unfold (P := P) (by simp [Session.lifted]) hi haddr hflag hentry
      steps
    obtain ⟨s₂, hrun, _⟩ := bind_eq_ok.mp (hunfold.symm.trans hact)
    obtain ⟨hcore, hover, hnot⟩ := hforgotten.trappedOver (by simp [Session.lifted]) hi haddr
    obtain ⟨o, c', hstops, _⟩ := hover.stopsAt_of_run (hcore.symm ▸ hown') hrun
    rw [hcore] at hstops
    rcases hstops with ⟨harrived, _⟩ | ⟨_, hfirst⟩
    · exact absurd harrived hnot
    · exact ⟨c', (instruction_of_firstStop hfirst).1⟩
  · -- the first single step
    obtain ⟨s₁, hstopped, _⟩ := resume_cases hok
    obtain ⟨steps₁, s₂, hrun⟩ := hstopped.exists_run (by simp)
    obtain ⟨o, c', hstops, _⟩ := hprompt.armed.armed.stopsAt_of_run hown' hrun
    rcases hstops with ⟨harrived, _⟩ | ⟨_, hfirst⟩
    · exact absurd harrived hstart
    · exact ⟨c', (instruction_of_firstStop hfirst).1⟩

end UnixProgramming.Sdb
