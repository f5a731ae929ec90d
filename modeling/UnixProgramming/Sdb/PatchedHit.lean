import UnixProgramming.Sdb.NativeStops
import UnixProgramming.Sdb.Outcomes

/-!
# Patches at a hit breakpoint

While the tracee stands on a breakpoint that was hit, the `int3` there is lifted. A patch
over this address plants it again, and the next command resumes the tracee on it. `mapData`
compares two programs that differ in the instruction at one address only: while an `int3`
stays planted there, they cannot be told apart.
-/

namespace UnixProgramming.Sdb

variable {γ δ δ' : Type} {f : δ → δ'} {A : Addr} {P : Program γ δ} {P' : Program γ δ'}
variable {mem : ByteMemory 64} {mode : Mode} {steps : ℕ} {c : Core γ δ} {s s' s₁ : Session γ δ}
variable {cmd : Resume} {rip : Addr} {i j len : ℕ} {out : List Output}

/-- The program with a count of how often the instruction at `A` is executed. -/
def Program.counting (P : Program γ δ) (A : Addr) : Program γ (δ × ℕ) where
  exec regs data := (P.exec regs data.1).map fun result =>
    (result.1, result.2, if regs.rip = A then data.2 + 1 else data.2)
  kernel regs data := (P.kernel regs data.1).map fun result =>
    (result.1, result.2, if regs.rip - 2 = A then data.2 + 1 else data.2)

/-- The programs differ in the instruction at `A` only. -/
def Program.AgreesOff (A : Addr) (P P' : Program γ δ) : Prop :=
  (∀ regs data, regs.rip ≠ A → P'.exec regs data = P.exec regs data) ∧
    ∀ regs data, regs.rip - 2 ≠ A → P'.kernel regs data = P.kernel regs data

/-- The same state with other data. -/
def Core.mapData (f : δ → δ') (c : Core γ δ) : Core γ δ' :=
  ⟨c.regs, f c.data, c.inSyscall, c.performed⟩

def Session.mapData (f : δ → δ') (s : Session γ δ) : Session γ δ' :=
  ⟨s.mem, s.core.mapData f, s.stop, s.breakpoints, s.numBreakpoints, s.bpAgain, s.whichBp,
    s.preOrigRax, s.enter⟩

/-- A command of a debugger run. A patch changes the program, so each command may run another
one. -/
def SomeStep (s : Session γ δ) (c : Command) (s' : Session γ δ) : Prop :=
  ∃ P : Program γ δ, Step P s c s'

/-- The tracee is stopped because the breakpoint at `A` was hit, and this breakpoint has not
been deleted since. -/
inductive StoppedAtHit (mem : ByteMemory 64) (regs : Regs γ) (data : δ) (A : Addr) :
    Session γ δ → Prop
  | hit {P : Program γ δ} {s₀ s : Session γ δ} {steps : ℕ} {cmd : Resume} :
      Reachable (.load mem regs data) SomeStep s₀ →
      perform P steps s₀ (.resume cmd) = .ok ([.hit A], s) → StoppedAtHit mem regs data A s
  | edit {P : Program γ δ} {s s' : Session γ δ} {c : Command} : StoppedAtHit mem regs data A s →
      c.edits = true → Step P s c s' → s'.ActiveAt A → StoppedAtHit mem regs data A s'

/-- The command executes the instruction at `A` exactly once and goes on from its successor,
and afterwards the breakpoint at `A` is armed again, or the tracee stands on it. -/
def RunsPatched (P : Program γ δ) (A : Addr) (s : Session γ δ) (cmd : Resume) : Prop :=
  ∃ steps out s' c,
    perform (P.counting A) steps (s.mapData fun data => (data, 0)) (.resume cmd) = .ok (out, s') ∧
      s'.core.data.2 = 1 ∧
      (P.counting A).Instruction (s.mapData fun data => (data, 0)).core c ∧
      (P.counting A).Reaches c s'.core ∧ (s'.mem A = 0xcc#8 ∨ s'.rip = A)

/-- The second program does to the image of the data what the first one does to the data,
except for the instruction at `A`. -/
structure MapsOff (f : δ → δ') (A : Addr) (P : Program γ δ) (P' : Program γ δ') : Prop where
  exec : ∀ regs data, regs.rip ≠ A →
    P'.exec regs (f data) = (P.exec regs data).map fun result => (result.1, f result.2)
  kernel : ∀ regs data, regs.rip - 2 ≠ A →
    P'.kernel regs (f data) = (P.kernel regs data).map fun result => (result.1, f result.2)

theorem Program.AgreesOff.mapsOff {P P' : Program γ δ} (hagrees : P.AgreesOff A P') :
    MapsOff id A P P' where
  exec regs data hrip := by simp [hagrees.1 regs data hrip]
  kernel regs data hrip := by simp [hagrees.2 regs data hrip]

/-- The count stays where it is off `A`. -/
theorem counting_mapsOff (P : Program γ δ) (A : Addr) (n : ℕ) :
    MapsOff (fun data => (data, n)) A P (P.counting A) where
  exec regs data hrip := by simp only [Program.counting, if_neg hrip]
  kernel regs data hrip := by simp only [Program.counting, if_neg hrip]

/-- An `int3` is planted at `A`, and the active breakpoint there is none that
`handle_breakpoints` steps over. -/
structure Guarded (A : Addr) (i : ℕ) (s : Session γ δ) : Prop where
  trap : s.mem A = byteOf int3 0
  active : s.Active i
  addr : (s.breakpoints i).addr = A
  flag : (s.breakpoints i).ignoreRipEqualBreak = false
  plants : byteOf (s.breakpoints i).int3Code 0 = byteOf int3 0
  distinct : ∀ j k, s.Active j → s.Active k → (s.breakpoints j).addr = (s.breakpoints k).addr →
    j = k

/-! ## Requests -/

/-- Off `A`, a step of the one program is a step of the other. -/
theorem nativeStep_mapData (hmaps : MapsOff f A P P')
    (hout : c.inSyscall = false → c.regs.rip ≠ A) (hin : c.inSyscall = true → c.regs.rip - 2 ≠ A) :
    P'.nativeStep (c.mapData f) =
      (P.nativeStep c).map fun result => (result.1, result.2.mapData f) := by
  cases hcall : c.inSyscall with
  | true =>
    have hkernel := hmaps.kernel c.regs c.data (hin hcall)
    simp only [Program.nativeStep, Core.mapData, hcall, if_true, hkernel]
    cases P.kernel c.regs c.data <;> rfl
  | false =>
    have hexec := hmaps.exec c.regs c.data (hout hcall)
    simp only [Program.nativeStep, Core.mapData, hcall, Bool.false_eq_true, if_false, hexec]
    cases P.exec c.regs c.data <;> rfl

/-- With an `int3` at `A`, the two programs give the same stop. The induction is on the steps
granted. -/
theorem resume_mapData (hmaps : MapsOff f A P P') (htrap : mem A = byteOf int3 0)
    (hin : c.inSyscall = true → c.regs.rip - 2 ≠ A) : P'.resume mem mode steps (c.mapData f) =
      (P.resume mem mode steps c).map fun result => (result.1, result.2.mapData f) := by
  induction steps generalizing c with
  | zero => rfl
  | succ steps ih =>
    have hsame : AtInt3 mem (c.mapData f) ↔ AtInt3 mem c := Iff.rfl
    unfold Program.resume
    by_cases hint3 : AtInt3 mem c
    · rw [if_pos hint3, if_pos (hsame.mpr hint3)]
      rfl
    · have hout : c.inSyscall = false → c.regs.rip ≠ A := fun hcall hrip =>
        hint3 ⟨hcall, hrip ▸ htrap⟩
      rw [if_neg hint3, if_neg (mt hsame.mp hint3), nativeStep_mapData hmaps hout hin]
      cases hstep : P.nativeStep c with
      | none => rfl
      | some result =>
        obtain ⟨event, c₁⟩ := result
        dsimp only [Option.map]
        cases mode.stop? event with
        | some stop => rfl
        | none =>
          apply ih
          intro hcall
          -- a system call that is entered here is not the instruction at `A`
          obtain rfl := (Program.nativeStep_inSyscall hstep).mp hcall
          have hentered : c.inSyscall = false := by
            simpa using mt (Program.nativeStep_left hstep).mp
          have hrip : c₁.regs.rip = c.regs.rip + 2 := by
            simp only [Program.nativeStep, hentered, Bool.false_eq_true, if_false] at hstep
            cases hexec : P.exec c.regs c.data with
            | some result => simp [hexec] at hstep
            | none =>
              rw [hexec] at hstep
              cases hstep
              rfl
          rw [hrip, BitVec.add_sub_cancel]
          exact hout hentered

/-- Mapping the result of a sequence, part by part. -/
theorem bind_map_eq {ε : Type*} {α α' β β' : Type} {x : Except ε α} {y : Except ε α'}
    {g : α → Except ε β} {g' : α' → Except ε β'} {φ : α → α'} {ψ : β → β'} (hfirst : y = x.map φ)
    (hrest : ∀ a, x = .ok a → g' (φ a) = (g a).map ψ) : y >>= g' = (x >>= g).map ψ := by
  subst hfirst
  cases x with
  | error e => rfl
  | ok a => exact hrest a rfl

theorem run_mapData (hmaps : MapsOff f A P P') (htrap : s.mem A = byteOf int3 0)
    (hin : s.core.inSyscall = true → s.rip - 2 ≠ A) :
    (s.mapData f).run P' mode steps = (s.run P mode steps).map (Session.mapData f) := by
  have hresume : P'.resume s.mem mode steps (s.core.mapData f) = _ := resume_mapData hmaps htrap hin
  exact bind_map_eq hresume fun _ _ => rfl

/-! ## Commands -/

/-- Only a request moves the tracee into a system call, and neither `si` nor `cont` stops
there. -/
theorem StoppedBy.outside_of_ne (hstopped : StoppedBy cmd.request s) (hcmd : cmd ≠ .syscall) :
    s.core.inSyscall = false := by
  apply (hstopped.outside ?_).2
  cases cmd <;> simp [Resume.request] at hcmd ⊢

/-- A guard depends on the memory at `A` and on the table. -/
theorem Guarded.of_eq (hguard : Guarded A i s) (hmem : s'.mem A = s.mem A)
    (hnum : s'.numBreakpoints = s.numBreakpoints) (hbps : s'.breakpoints = s.breakpoints) :
    Guarded A i s' where
  trap := hmem.trans hguard.trap
  active := by
    have hi := hguard.active
    rwa [Session.Active, ← hnum, ← hbps] at hi
  addr := hbps ▸ hguard.addr
  flag := hbps ▸ hguard.flag
  plants := hbps ▸ hguard.plants
  distinct := by
    intro j k hj hk
    rw [Session.Active, hnum, hbps] at hj hk
    rw [hbps]
    exact hguard.distinct j k hj hk

/-- A request keeps the guard, -/
theorem Guarded.run (hguard : Guarded A i s) (hok : s.run P mode steps = .ok s') :
    Guarded A i s' := by
  obtain ⟨stop, core, _, rfl⟩ := run_eq_ok.mp hok
  exact hguard.of_eq rfl rfl rfl

/-- and so does planting the guarding breakpoint or another one, -/
theorem Guarded.plantAgain (hguard : Guarded A i s) (hj : j = i ∨ (s.breakpoints j).addr ≠ A) :
    Guarded A i (s.plantAgain j) := by
  refine hguard.of_eq ?_ rfl rfl
  rw [Session.plantAgain, pokeLow_mem]
  rcases hj with rfl | hne
  · rw [hguard.addr, Function.update_self, hguard.plants, hguard.trap]
  · exact Function.update_of_ne hne.symm ..

/-- as well as lifting another one to step over it. -/
theorem Guarded.stepOver (hguard : Guarded A i s) (hj : s.Active j)
    (hflag : (s.breakpoints j).ignoreRipEqualBreak = true) :
    Guarded A i (s.stepOver j) ∧ (s.breakpoints j).addr ≠ A := by
  have hji : i ≠ j := by
    rintro rfl
    simp [hguard.flag] at hflag
  have hne : (s.breakpoints j).addr ≠ A := fun haddr =>
    hji (hguard.distinct i j hguard.active hj (hguard.addr.trans haddr.symm))
  have hsame := stepOver_sameTable s j
  have hentry : (s.stepOver j).breakpoints i = s.breakpoints i := Function.update_of_ne hji ..
  have hback : ((s.setBp j { s.breakpoints j with
      ignoreRipEqualBreak := false }).breakpoints j).addr = (s.breakpoints j).addr := by
    simp [Session.setBp]
  refine ⟨⟨?_, hsame.active.mpr hguard.active, ?_, ?_, ?_, ?_⟩, hne⟩
  · rw [Session.stepOver, Session.restoreOriginal, pokeLow_mem, hback]
    exact (Function.update_of_ne hne.symm ..).trans hguard.trap
  · rw [hentry, hguard.addr]
  · rw [hentry, hguard.flag]
  · rw [hentry, hguard.plants]
  · intro k l hk hl haddr
    rw [(hsame.2 k).1, (hsame.2 l).1] at haddr
    exact hguard.distinct k l (hsame.active.mp hk) (hsame.active.mp hl) haddr

/-- What `si` and `cont` do after stepping over another breakpoint keeps the guard. -/
theorem Guarded.steppedOver (hguard : Guarded A i s) (hcmd : cmd ≠ .syscall)
    (hj : (s.breakpoints j).addr ≠ A) : Guarded A i (s.steppedOver j cmd) := by
  cases cmd with
  | si => exact hguard.plantAgain (.inr hj)
  | cont => exact hguard.of_eq rfl rfl rfl
  | syscall => exact absurd rfl hcmd

/-- `handle_breakpoints` cannot tell the programs apart. The induction is on the steps
granted. -/
theorem handleBreakpoints_mapData (hmaps : MapsOff f A P P') (hcmd : cmd ≠ .syscall)
    (hguard : Guarded A i s) (hout : s.core.inSyscall = false) :
    handleBreakpoints P' cmd steps (s.mapData f) rip =
      (handleBreakpoints P cmd steps s rip).map fun result => (result.1, result.2.mapData f) := by
  induction steps generalizing s rip with
  | zero => rfl
  | succ steps ih =>
    rw [handleBreakpoints_succ, handleBreakpoints_succ]
    have hfound : (s.mapData f).activeAt (rip - 1) = s.activeAt (rip - 1) := rfl
    rw [hfound]
    cases hfind : s.activeAt (rip - 1) with
    | none => rfl
    | some j =>
      obtain ⟨hj, _⟩ := active_of_activeAt hfind
      have hentry : (s.mapData f).breakpoints j = s.breakpoints j := rfl
      dsimp only
      rw [hentry]
      split
      · next hflag =>
        have hmoved : Guarded A i (s.setRip (rip - 1)) := hguard.of_eq rfl rfl rfl
        obtain ⟨hover, hne⟩ := hmoved.stepOver hj hflag
        have hinside : ((s.setRip (rip - 1)).stepOver j).core.inSyscall = true →
            ((s.setRip (rip - 1)).stepOver j).rip - 2 ≠ A :=
          fun hin => absurd (hout.symm.trans hin) (by simp)
        refine bind_map_eq (run_mapData hmaps hover.trap hinside) fun s₁ hrun => ?_
        have hne' : (s₁.breakpoints j).addr ≠ A := by
          rw [run_breakpoints hrun, ((stepOver_sameTable _ j).2 j).1]
          exact hne
        have hguard' := (hover.run hrun).steppedOver hcmd hne'
        have hout' : (s₁.steppedOver j cmd).core.inSyscall = false := by
          have hstopped := (run_stoppedBy hrun).outside_of_ne hcmd
          cases cmd with
          | si | cont => exact hstopped
          | syscall => exact absurd rfl hcmd
        have hsame : (s₁.mapData f).steppedOver j cmd = (s₁.steppedOver j cmd).mapData f := by
          cases cmd with
          | si | cont => rfl
          | syscall => exact absurd rfl hcmd
        have hnext :
            ((s₁.steppedOver j cmd).mapData f).atNext j = (s₁.steppedOver j cmd).atNext j := rfl
        rw [hsame, hnext]
        split
        · exact ih hguard' hout'
        · rfl
      · rfl

/-- The first part of a command keeps the guard, -/
theorem Guarded.rearmed (hguard : Guarded A i s) (hwhich : s.whichBp = i)
    (hrearmed : Rearmed P mode s s') : Guarded A i s' := by
  cases hrearmed with
  | away hrun =>
    rw [hwhich]
    exact ((hguard.run hrun).plantAgain (.inl rfl)).of_eq rfl rfl rfl
  | back hrun _ hrun' =>
    rw [hwhich] at hrun'
    exact (((hguard.run hrun).plantAgain (.inl rfl)).run hrun').of_eq rfl rfl rfl

/-- and so does the way to the stop. -/
theorem Guarded.stopped (hguard : Guarded A i s) (hwhich : s.bpAgain = true → s.whichBp = i)
    (hstopped : Stopped P cmd s s') : Guarded A i s' := by
  cases hstopped with
  | once _ hrun => exact hguard.run hrun
  | again _ hagain hrearmed => exact hguard.rearmed (hwhich hagain) hrearmed
  | onward hagain hrearmed hrun => exact (hguard.rearmed (hwhich hagain) hrearmed).run hrun

/-- The first part of a command cannot tell the programs apart, -/
theorem rearm_mapData (hmaps : MapsOff f A P P') (hguard : Guarded A i s) (hwhich : s.whichBp = i)
    (hinside : s.core.inSyscall = true → s.rip - 2 ≠ A) (hmode : mode ≠ .syscall) :
    (s.mapData f).rearm P' mode steps = (s.rearm P mode steps).map (Session.mapData f) := by
  refine bind_map_eq (run_mapData hmaps hguard.trap hinside) fun s₁ hrun => ?_
  have hwhich₁ : s₁.whichBp = i := by
    obtain ⟨stop, core, _, rfl⟩ := run_eq_ok.mp hrun
    exact hwhich
  have hguard₁ : Guarded A i (s₁.plantAgain s₁.whichBp) :=
    (hguard.run hrun).plantAgain (.inl hwhich₁)
  have hinside₁ : (s₁.plantAgain s₁.whichBp).core.inSyscall = true →
      (s₁.plantAgain s₁.whichBp).rip - 2 ≠ A := fun hin =>
    absurd (((run_stoppedBy hrun).outside hmode).2.symm.trans hin) (by simp)
  refine bind_map_eq (φ := Session.mapData f) ?_ fun s₂ _ => rfl
  have hback : ((s₁.mapData f).plantAgain (s₁.mapData f).whichBp).rip =
      (((s₁.mapData f).plantAgain (s₁.mapData f).whichBp).breakpoints
        ((s₁.mapData f).plantAgain (s₁.mapData f).whichBp).whichBp).addr ↔
      (s₁.plantAgain s₁.whichBp).rip = ((s₁.plantAgain s₁.whichBp).breakpoints
        (s₁.plantAgain s₁.whichBp).whichBp).addr := Iff.rfl
  simp only [Session.runAgain, hback]
  split
  · exact run_mapData hmaps hguard₁.trap hinside₁
  · rfl

/-- nor can the way to the stop, -/
theorem stopFor_mapData (hmaps : MapsOff f A P P') (hguard : Guarded A i s)
    (hwhich : s.bpAgain = true → s.whichBp = i)
    (hinside : s.core.inSyscall = true → s.rip - 2 ≠ A) (hcmd : cmd ≠ .syscall) :
    (s.mapData f).stopFor P' steps cmd = (s.stopFor P steps cmd).map (Session.mapData f) := by
  have hentry : (s.mapData f).bpAgain = s.bpAgain := rfl
  cases cmd with
  | si =>
    simp only [Session.stopFor, stopSI, hentry]
    split
    · next hagain => exact rearm_mapData hmaps hguard (hwhich hagain) hinside (by simp)
    · exact run_mapData hmaps hguard.trap hinside
  | cont =>
    simp only [Session.stopFor, stopCONT, hentry]
    split
    · next hagain =>
      have hrearm : (s.mapData f).rearm P' .singlestep steps = _ :=
        rearm_mapData hmaps hguard (hwhich hagain) hinside (by simp)
      refine bind_map_eq hrearm fun s₁ hok => ?_
      have hrearmed := rearm_rearmed hok
      refine run_mapData hmaps (hguard.rearmed (hwhich hagain) hrearmed).trap fun hin => ?_
      exact absurd ((hrearmed.stoppedBy.outside (by simp)).2.symm.trans hin) (by simp)
    · exact run_mapData hmaps hguard.trap hinside
  | syscall => exact absurd rfl hcmd

/-- nor can a command. -/
theorem perform_mapData (hmaps : MapsOff f A P P') (hguard : Guarded A i s)
    (hwhich : s.bpAgain = true → s.whichBp = i)
    (hinside : s.core.inSyscall = true → s.rip - 2 ≠ A) (hcmd : cmd ≠ .syscall) :
    perform P' steps (s.mapData f) (.resume cmd) =
      (perform P steps s (.resume cmd)).map fun result => (result.1, result.2.mapData f) := by
  rw [perform_resume, perform_resume]
  refine bind_map_eq (stopFor_mapData hmaps hguard hwhich hinside hcmd) fun s₁ hok => ?_
  have hhandles : (s₁.mapData f).handles cmd = s₁.handles cmd := rfl
  have hhandled : (s₁.mapData f).handled cmd = s₁.handled cmd := by cases cmd <;> rfl
  rw [hhandles, hhandled, if_neg hcmd, if_neg hcmd]
  have hstopped := stopped_of_stopFor hok
  split
  · apply handleBreakpoints_mapData hmaps hcmd (hguard.stopped hwhich hstopped)
    exact hstopped.stoppedBy.outside_of_ne hcmd
  · rfl

/-! ## At a hit -/

/-- A breakpoint that is reported as hit is active and waits under the tracee. -/
structure AtHit (A : Addr) (i : ℕ) (s : Session γ δ) : Prop where
  active : s.Active i
  addr : (s.breakpoints i).addr = A
  flag : (s.breakpoints i).ignoreRipEqualBreak = false
  rip : s.rip = A
  waits : s.bpAgain = true ∧ s.whichBp = i

/-- The induction is on the breakpoints that `handle_breakpoints` steps over first. -/
theorem Handled.atHit (hhandled : Handled P cmd s rip out s') (hout : out = [.hit A]) :
    ∃ i, AtHit A i s' := by
  induction hhandled with
  | nothing | past => cases hout
  | @hit s rip i hi haddr hflag =>
    obtain rfl : rip - 1 = A := by simpa using hout
    exact ⟨i, hi, haddr, hflag, rfl, rfl, rfl⟩
  | next _ _ _ ih => exact ih hout

/-- Only `handle_breakpoints` reports a hit. -/
theorem atHit_of_perform (hok : perform P steps s (.resume cmd) = .ok ([.hit A], s')) :
    ∃ i, AtHit A i s' := by
  obtain ⟨s₁, _, hended⟩ := resume_cases hok
  generalize hout : [Output.hit A] = out at hended
  cases hended with
  | plain => cases hout
  | reported =>
    simp only [reportSyscall] at hout
    split at hout
    all_goals
      split at hout
      all_goals simp at hout
  | handled _ hhandled => exact hhandled.atHit hout.symm

/-- What is planted again depends on the saved words only. -/
theorem PlantsInt3.of_words (hplants : PlantsInt3 s) (hnum : s'.numBreakpoints = s.numBreakpoints)
    (hwords : ∀ k, (s'.breakpoints k).int3Code = (s.breakpoints k).int3Code) : PlantsInt3 s' := by
  intro k hk
  rw [hwords]
  exact hplants k (hnum ▸ hk)

/-- The way to the stop leaves the saved words as they are, -/
theorem PlantsInt3.stopped (hplants : PlantsInt3 s) (hstopped : Stopped P cmd s s') :
    PlantsInt3 s' := by
  have hrun : ∀ {mode steps} {s s' : Session γ δ}, s.run P mode steps = .ok s' → PlantsInt3 s →
      PlantsInt3 s' := by
    intro mode steps s s' hok hplants
    obtain ⟨stop, core, _, rfl⟩ := run_eq_ok.mp hok
    exact hplants
  have hrearm : ∀ {mode} {s' : Session γ δ}, Rearmed P mode s s' → PlantsInt3 s' := by
    intro mode s' hrearmed
    cases hrearmed with
    | away hrun₁ =>
      have hplants₁ := hrun hrun₁ hplants
      exact hplants₁
    | back hrun₁ _ hrun₂ =>
      have hplants₁ := hrun hrun₁ hplants
      have hplants₂ := hrun hrun₂ hplants₁
      exact hplants₂
  cases hstopped with
  | once _ hok => exact hrun hok hplants
  | again _ _ hrearmed => exact hrearm hrearmed
  | onward _ hrearmed hok => exact hrun hok (hrearm hrearmed)

/-- and so does stepping over a breakpoint. -/
theorem PlantsInt3.stepsOver (hplants : PlantsInt3 s) (hsteps : StepsOver P cmd s rip i s₁) :
    PlantsInt3 (s₁.steppedOver i cmd) := by
  obtain ⟨_, _, _, steps, hrun⟩ := hsteps
  have hlifted : PlantsInt3 ((s.setRip (rip - 1)).stepOver i) := by
    refine hplants.of_words rfl fun k => ?_
    show (Function.update s.breakpoints i
      { s.breakpoints i with ignoreRipEqualBreak := false } k).int3Code = _
    by_cases hk : k = i
    · subst hk
      rw [Function.update_self]
    · rw [Function.update_of_ne hk]
  obtain ⟨stop, core, _, rfl⟩ := run_eq_ok.mp hrun
  refine hlifted.of_words (steppedOver_sameTable _ i cmd).1.1 fun k => ?_
  cases cmd with
  | si | cont => rfl
  | syscall =>
    simp only [Session.steppedOver]
    split
    · rfl
    · split
      all_goals rfl

theorem PlantsInt3.handled (hplants : PlantsInt3 s) (hhandled : Handled P cmd s rip out s') :
    PlantsInt3 s' := by
  induction hhandled with
  | nothing | hit => exact hplants
  | past hsteps => exact hplants.stepsOver hsteps
  | next hsteps _ _ ih => exact ih (hplants.stepsOver hsteps)

/-- Whatever is done, what is planted again is an `int3`. -/
theorem PlantsInt3.step {c : Command} (hplants : PlantsInt3 s) (hstep : Step P s c s') :
    PlantsInt3 s' := by
  obtain ⟨steps, out, hok⟩ := hstep
  cases c with
  | brk a =>
    rcases setBreakpoints_cases hok with ⟨_, rfl⟩ | ⟨_, rfl⟩
    · exact hplants
    · intro k hk
      by_cases hnew : k = s.numBreakpoints
      · rw [hnew, withBp_new]
        exact byteOf_withLow_zero _ _
      · have hk' : k < s.numBreakpoints + 1 := hk
        rw [withBp_breakpoints (by omega)]
        exact hplants k (by omega)
  | delete id =>
    rcases deleteBreakpoint_cases hok with ⟨_, rfl⟩ | ⟨i, _, _, ⟨_, rfl⟩ | ⟨_, rfl⟩⟩
    · exact hplants
    · exact hplants
    · exact hplants.of_words rfl fun k => (withoutBp_breakpoints s i k).2.2
  | patch addr value len hlen =>
    obtain ⟨_, rfl⟩ := Prod.mk.inj (Except.ok.inj hok)
    exact patchMemory_induction (motive := fun _ s => PlantsInt3 s) addr value hplants
      fun i _ _ hplants => hplants.patchByte addr value i
  | resume cmd =>
    obtain ⟨s₁, hstopped, hended⟩ := resume_cases hok
    have hplants₁ := hplants.stopped hstopped
    cases hended with
    | plain => exact hplants₁
    | reported => exact hplants₁
    | handled _ hhandled => exact hplants₁.handled hhandled

/-- A patch leaves the registers and the flags of the breakpoints as they are. -/
theorem patchByte_keeps (s : Session γ δ) (addr : Addr) (value : Word) (k i : ℕ) :
    (patchByte s addr value k).core = s.core ∧
      ((patchByte s addr value k).breakpoints i).ignoreRipEqualBreak =
        (s.breakpoints i).ignoreRipEqualBreak := by
  rcases patchByte_cases s addr value k with ⟨_, heq⟩ | ⟨j, _, _, heq⟩
  · rw [heq]
    exact ⟨rfl, rfl⟩
  · rw [heq]
    refine ⟨rfl, ?_⟩
    show (Function.update s.breakpoints j _ i).ignoreRipEqualBreak = _
    by_cases hij : i = j
    · subst hij
      rw [Function.update_self]
      rfl
    · rw [Function.update_of_ne hij]

/-- A patch leaves the tracee at the hit. -/
theorem AtHit.patch (hat : AtHit A i s) (addr : Addr) (value : Word) (len : ℕ) :
    AtHit A i (patchMemory s addr value len).2 := by
  obtain ⟨hsame, hagain, hwhich⟩ := patchBytes_sameTable s addr value (List.range len)
  have hkeeps : (patchMemory s addr value len).2.core = s.core ∧
      ((patchMemory s addr value len).2.breakpoints i).ignoreRipEqualBreak =
        (s.breakpoints i).ignoreRipEqualBreak := by
    refine patchMemory_induction (motive := fun _ s' => s'.core = s.core ∧
      (s'.breakpoints i).ignoreRipEqualBreak = (s.breakpoints i).ignoreRipEqualBreak) addr value
      ⟨rfl, rfl⟩ fun n s' _ ih => ?_
    obtain ⟨hcore, hflag⟩ := patchByte_keeps s' addr value n i
    exact ⟨hcore.trans ih.1, hflag.trans ih.2⟩
  refine ⟨hsame.active.mpr hat.active, (hsame.2 i).1.trans hat.addr, hkeeps.2.trans hat.flag, ?_,
    hagain.trans hat.waits.1, hwhich.trans hat.waits.2⟩
  rw [Session.rip, hkeeps.1]
  exact hat.rip

/-- Edits leave the tracee at the hit while its breakpoint is there. -/
theorem AtHit.edit {c : Command} (hat : AtHit A i s) (hkept : TableKept s) (hedits : c.edits = true)
    (hstep : Step P s c s') (hactive : s'.ActiveAt A) : AtHit A i s' := by
  obtain ⟨steps, out, hok⟩ := hstep
  cases c with
  | brk a =>
    rcases setBreakpoints_cases hok with ⟨_, rfl⟩ | ⟨_, rfl⟩
    · exact hat
    · have hentry : (withBp s a).breakpoints i = s.breakpoints i := withBp_breakpoints hat.active.1
      exact ⟨withBp_active.mpr (.inr hat.active), hentry ▸ hat.addr, hentry ▸ hat.flag, hat.rip,
        hat.waits⟩
  | delete id =>
    rcases deleteBreakpoint_cases hok with ⟨_, rfl⟩ | ⟨j, _, _, ⟨_, rfl⟩ | ⟨_, rfl⟩⟩
    · exact hat
    · exact ⟨hat.active, hat.addr, hat.flag, hat.rip, hat.waits⟩
    · obtain ⟨k, hk, haddr⟩ := hactive
      rw [withoutBp_active] at hk
      rw [(withoutBp_breakpoints s j k).1] at haddr
      obtain rfl := hkept.distinct i k hat.active hk.1 (hat.addr.trans haddr.symm)
      have hentry : (withoutBp s j).breakpoints i = s.breakpoints i := Function.update_of_ne hk.2 ..
      exact ⟨withoutBp_active.mpr hk, hentry ▸ hat.addr, hentry ▸ hat.flag, hat.rip, hat.waits⟩
  | patch addr value len hlen =>
    obtain ⟨_, rfl⟩ := Prod.mk.inj (Except.ok.inj hok)
    exact hat.patch addr value len
  | resume => cases hedits

/-- The session at a hit, with what every run of the debugger keeps. -/
theorem StoppedAtHit.atHit {regs : Regs γ} {data : δ} (hhit : StoppedAtHit mem regs data A s) :
    (∃ i, AtHit A i s) ∧ TableKept s ∧ PlantsInt3 s := by
  induction hhit with
  | hit hreach hok =>
    have hkept := hreach.invariant (P := fun s => TableKept s ∧ PlantsInt3 s)
      ⟨tableKept_load mem regs data, fun k hk => absurd hk (Nat.not_lt_zero k)⟩
      fun _ _ _ hkept ⟨_, hstep⟩ => ⟨hkept.1.step hstep, hkept.2.step hstep⟩
    exact ⟨atHit_of_perform hok, hkept.1.step ⟨_, _, hok⟩, hkept.2.step ⟨_, _, hok⟩⟩
  | edit _ hedits hstep hactive ih =>
    obtain ⟨⟨i, hat⟩, hkept, hplants⟩ := ih
    exact ⟨⟨i, hat.edit hkept hedits hstep hactive⟩, hkept.step hstep, hplants.step hstep⟩

/-- A patch over a breakpoint plants it, also when it was lifted. -/
theorem patchMemory_trap (hi : s.Active i) (haddr : (s.breakpoints i).addr = A) (addr : Addr)
    (value : Word) (hrange : (A - addr).toNat < len) :
    (patchMemory s addr value len).2.mem A = byteOf int3 0 := by
  have hpatched : ∀ n s', SameTable s s' → s'.mem A = byteOf int3 0 ∨ n ≤ (A - addr).toNat →
      (patchByte s' addr value n).mem A = byteOf int3 0 ∨ n + 1 ≤ (A - addr).toNat := by
    intro n s' hsame hmem
    by_cases hA : A = addr + BitVec.ofNat 64 n
    · left
      rcases patchByte_cases s' addr value n with ⟨hfree, _⟩ | ⟨j, _, haddr', heq⟩
      · exact absurd ⟨i, hsame.active.mpr hi, (hsame.2 i).1.trans (haddr.trans hA)⟩ hfree
      · rw [heq, patchUnder_mem, haddr', ← hA, Function.update_self]
    · rw [patchByte_mem _ _ _ _ hA]
      refine hmem.imp_right fun hle => ?_
      have hne : n ≠ (A - addr).toNat := fun heq => hA (by rw [heq, ByteMemory.add_distance])
      omega
  have hloop : SameTable s (patchMemory s addr value len).2 ∧
      ((patchMemory s addr value len).2.mem A = byteOf int3 0 ∨ len ≤ (A - addr).toNat) := by
    refine patchMemory_induction (motive := fun n s' => SameTable s s' ∧
      (s'.mem A = byteOf int3 0 ∨ n ≤ (A - addr).toNat)) addr value ?_ fun n s' _ ih => ?_
    · exact ⟨.of_eq rfl rfl, .inr (Nat.zero_le _)⟩
    · exact ⟨ih.1.trans (patchByte_sameTable s' addr value n).1, hpatched n s' ih.1 ih.2⟩
  exact hloop.2.resolve_right (by omega)

/-- After a patch over the breakpoint that was hit, the guard holds. -/
theorem AtHit.guarded (hat : AtHit A i s) (hkept : TableKept s) (hplants : PlantsInt3 s)
    (addr : Addr) (value : Word) (hrange : (A - addr).toNat < len) :
    Guarded A i (patchMemory s addr value len).2 := by
  obtain ⟨hsame, _, _⟩ := patchBytes_sameTable s addr value (List.range len)
  have hat' := hat.patch addr value len
  have hplants' : PlantsInt3 (patchMemory s addr value len).2 :=
    patchMemory_induction (motive := fun _ s => PlantsInt3 s) addr value hplants
      fun n _ _ hplants => hplants.patchByte addr value n
  refine ⟨patchMemory_trap hat.active hat.addr addr value hrange, hat'.active, hat'.addr, hat'.flag,
    hplants' i hat'.active.1, ?_⟩
  exact (hsame.tableKept hkept fun _ => hat'.waits.2 ▸ hat.active.1).distinct

/-- The outcome of a command on a guarded session is the same for every instruction at `A`,
and none is executed there. -/
theorem Guarded.not_runsPatched (hguard : Guarded A i s) (hat : AtHit A i s)
    (hcmd : cmd ≠ .syscall) (P : Program γ δ) : ¬RunsPatched P A s cmd ∧
      ∀ P', P.AgreesOff A P' → ∀ steps,
        perform P' steps s (.resume cmd) = perform P steps s (.resume cmd) := by
  have hinside : s.core.inSyscall = true → s.rip - 2 ≠ A := by
    intro _ hback
    rw [hat.rip, sub_eq_self] at hback
    cases hback
  refine ⟨?_, fun P' hagrees steps => ?_⟩
  · rintro ⟨steps, out, s', c, hok, honce, _⟩
    have hmap : perform (P.counting A) steps (s.mapData fun d => (d, 0)) (.resume cmd) = _ :=
      perform_mapData (counting_mapsOff P A 0) hguard (fun _ => hat.waits.2) hinside hcmd
    rw [hok] at hmap
    cases hperform : perform P steps s (.resume cmd) with
    | error e =>
      rw [hperform] at hmap
      cases hmap
    | ok result =>
      rw [hperform] at hmap
      cases hmap
      cases honce
  · have hmap : perform P' steps (s.mapData id) (.resume cmd) = _ :=
      perform_mapData hagrees.mapsOff hguard (fun _ => hat.waits.2) hinside hcmd
    have hself : s.mapData id = s := rfl
    rw [hself] at hmap
    rw [hmap]
    cases perform P steps s (.resume cmd) <;> rfl

/-- For every tracee stopped because the breakpoint at `A` was hit, and every patch over `A`:
whatever the patch makes of the program, `si` and `cont` do not execute the instruction at
`A`, and what they do does not depend on it. -/
theorem patched_hit {regs : Regs γ} {data : δ} (hhit : StoppedAtHit mem regs data A s)
    (addr : Addr) (value : Word) (len : ℕ) (hrange : (A - addr).toNat < len)
    (hcmd : cmd = .si ∨ cmd = .cont) (P : Program γ δ) :
    ¬RunsPatched P A (patchMemory s addr value len).2 cmd ∧
      ∀ P', P.AgreesOff A P' → ∀ steps,
        perform P' steps (patchMemory s addr value len).2 (.resume cmd) =
          perform P steps (patchMemory s addr value len).2 (.resume cmd) := by
  obtain ⟨⟨i, hat⟩, hkept, hplants⟩ := hhit.atHit
  apply (hat.guarded hkept hplants addr value hrange).not_runsPatched (hat.patch addr value len)
  rcases hcmd with rfl | rfl <;> simp

/-- The sample program runs into a breakpoint. -/
theorem sample_stoppedAtHit :
    ∃ s : Session Unit Unit, StoppedAtHit (fun _ => 0) ⟨0, 0, 0, ()⟩ () 5 s := by
  have hbreak : SomeStep (sampleSession 0) (.brk 5) (withBp (sampleSession 0) 5) :=
    ⟨sampleProgram, 0, _, rfl⟩
  have hout : (perform sampleProgram 20 (withBp (sampleSession 0) 5)
      (.resume .cont)).toOption.map Prod.fst = some [.hit 5] := by decide
  cases hok : perform sampleProgram 20 (withBp (sampleSession 0) 5) (.resume .cont) with
  | error e =>
    rw [hok] at hout
    cases hout
  | ok result =>
    obtain ⟨out, s⟩ := result
    rw [hok] at hout
    obtain rfl : out = [.hit 5] := Option.some.inj hout
    exact ⟨s, .hit (reachable_init.step hbreak) hok⟩

/-- The byte at the breakpoint is patched. -/
theorem patched_hit_byte : ∃ s : Session Unit Unit,
    StoppedAtHit (fun _ => 0) ⟨0, 0, 0, ()⟩ () 5 s ∧
      ¬RunsPatched sampleProgram 5 (patchMemory s 5 0x90 1).2 .si := by
  obtain ⟨s, hhit⟩ := sample_stoppedAtHit
  exact ⟨s, hhit, (patched_hit hhit 5 0x90 1 (by decide) (.inl rfl) sampleProgram).1⟩

/-- After a patch of this byte, `si` does not execute the instruction. -/
theorem not_runsPatched_byte :
    ¬∀ s : Session Unit Unit, StoppedAtHit (fun _ => 0) ⟨0, 0, 0, ()⟩ () 5 s →
      RunsPatched sampleProgram 5 (patchMemory s 5 0x90 1).2 .si := by
  intro hall
  obtain ⟨s, hhit⟩ := sample_stoppedAtHit
  obtain ⟨⟨i, hat⟩, hkept, hplants⟩ := hhit.atHit
  have hguard : Guarded 5 i (patchMemory s 5 0x90 1).2 :=
    hat.guarded hkept hplants 5 0x90 (by decide)
  exact (hguard.not_runsPatched (hat.patch 5 0x90 1) (by simp) sampleProgram).1 (hall s hhit)

end UnixProgramming.Sdb
