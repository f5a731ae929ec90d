import UnixProgramming.Lib.FirstStops
import UnixProgramming.Sdb.Tracee

/-!
# Requests and the native run

Where a request ends, in terms of the program on its own. With an `int3` at some addresses and
nowhere else, a tracee that does not stand on one runs natively to the first stop: a step that
the request reports, or the arrival at one of these addresses.
-/

namespace UnixProgramming.Sdb

variable {γ δ : Type} {P : Program γ δ} {mem : ByteMemory 64} {mode : Mode} {steps : ℕ}
variable {c c' c'' c₁ : Core γ δ} {stop : Stop} {o : Option Stop} {event : Event}
variable {stops : Addr → Prop}

/-- The program on its own executes one instruction. The rest of a system call that it is in
counts as one. -/
inductive Program.Instruction (P : Program γ δ) : Core γ δ → Core γ δ → Prop
  | ran {c c' : Core γ δ} : P.nativeStep c = some (.ran, c') → P.Instruction c c'
  | left {c c' : Core γ δ} : P.nativeStep c = some (.left, c') → P.Instruction c c'
  | called {c c₁ c' : Core γ δ} : P.nativeStep c = some (.entered, c₁) →
      P.nativeStep c₁ = some (.left, c') → P.Instruction c c'

/-- The tracee stands at one of the addresses, outside of system calls. -/
def Arrived (stops : Addr → Prop) (c : Core γ δ) : Prop :=
  c.inSyscall = false ∧ stops c.regs.rip

/-- The first later point of the native run at which a request has something to report or the
tracee arrives at one of the addresses. -/
abbrev Program.FirstStop (P : Program γ δ) (mode : Mode) (stops : Addr → Prop) :
    Core γ δ → Option Stop → Core γ δ → Prop :=
  UnixProgramming.FirstStop P.nativeStep mode.stop? (Arrived stops)

/-- The program exits before that. -/
abbrev Program.ExitsFirst (P : Program γ δ) (mode : Mode) (stops : Addr → Prop) :
    Core γ δ → Prop :=
  EndsFirst P.nativeStep mode.stop? (Arrived stops)

/-- Where a request ends: at once if the tracee stands at one of the addresses, and at the
first stop otherwise. -/
def Program.StopsAt (P : Program γ δ) (mode : Mode) (stops : Addr → Prop) (c : Core γ δ)
    (o : Option Stop) (c' : Core γ δ) : Prop :=
  Arrived stops c ∧ o = none ∧ c' = c ∨ ¬Arrived stops c ∧ P.FirstStop mode stops c o c'

/-- How a request shows a stop: it traps where the tracee arrives. -/
def landing : Option Stop → Core γ δ → Stop × Core γ δ
  | some stop, c => (stop, c)
  | none, c => (.trapped, c.setRip (c.regs.rip + 1))

/-- A tracee that stands on an `int3` traps at once. -/
theorem resume_trapped (hint3 : AtInt3 mem c) :
    Settles (fun n => P.resume mem mode n c) (.ok (landing none c)) := by
  refine Settles.of_succ (g := fun _ => .ok (landing none c)) (fun n => ?_)
    (.of_forall fun _ => rfl)
  unfold Program.resume
  rw [if_pos hint3]
  rfl

/-- Any other one runs to the first stop, -/
theorem resume_firstStop (hstart : ¬AtInt3 mem c)
    (hfirst : UnixProgramming.FirstStop P.nativeStep mode.stop? (AtInt3 mem) c o c') :
    Settles (fun n => P.resume mem mode n c) (.ok (landing o c')) := by
  induction hfirst with
  | @reported c c' event stop hstep hstop =>
    refine .of_succ (g := fun _ => .ok (landing (some stop) c')) (fun n => ?_)
      (.of_forall fun _ => rfl)
    unfold Program.resume
    simp only [if_neg hstart, hstep, hstop]
    rfl
  | @arrives c c' event hstep hstop harrived =>
    refine .of_succ (g := fun n => P.resume mem mode n c') (fun n => ?_) (resume_trapped harrived)
    simp only [Program.resume, if_neg hstart, hstep, hstop]
  | @later c c₁ c' event o hstep hstop hnot _ ih =>
    refine .of_succ (g := fun n => P.resume mem mode n c₁) (fun n => ?_) (ih hnot)
    simp only [Program.resume, if_neg hstart, hstep, hstop]

/-- or to its exit. -/
theorem resume_exits (hstart : ¬AtInt3 mem c)
    (hends : EndsFirst P.nativeStep mode.stop? (AtInt3 mem) c) :
    Settles (fun n => P.resume mem mode n c) (.error .terminated) := by
  induction hends with
  | here hstep =>
    refine .of_succ (g := fun _ => .error .terminated) (fun n => ?_) (.of_forall fun _ => rfl)
    simp only [Program.resume, if_neg hstart, hstep]
  | @later c c₁ event hstep hstop hnot _ ih =>
    refine .of_succ (g := fun n => P.resume mem mode n c₁) (fun n => ?_) (ih hnot)
    simp only [Program.resume, if_neg hstart, hstep, hstop]

/-- A request that ends has come to the first stop. The induction is on the steps granted. -/
theorem firstStop_of_resume (hstart : ¬AtInt3 mem c)
    (hok : P.resume mem mode steps c = .ok (stop, c'')) :
    ∃ o c', UnixProgramming.FirstStop P.nativeStep mode.stop? (AtInt3 mem) c o c' ∧
      landing o c' = (stop, c'') := by
  induction steps generalizing c with
  | zero => cases hok
  | succ steps ih =>
    unfold Program.resume at hok
    rw [if_neg hstart] at hok
    cases hstep : P.nativeStep c with
    | none =>
      rw [hstep] at hok
      cases hok
    | some result =>
      obtain ⟨event, c₁⟩ := result
      rw [hstep] at hok
      dsimp only at hok
      cases hstop : mode.stop? event with
      | some stop' =>
        rw [hstop] at hok
        cases hok
        exact ⟨_, _, .reported hstep hstop, rfl⟩
      | none =>
        rw [hstop] at hok
        by_cases hint3 : AtInt3 mem c₁
        · refine ⟨none, c₁, .arrives hstep hstop hint3, ?_⟩
          cases steps with
          | zero => cases hok
          | succ steps =>
            unfold Program.resume at hok
            rw [if_pos hint3] at hok
            exact Except.ok.inj hok
        · obtain ⟨o, c', hfirst, hland⟩ := ih hint3 hok
          exact ⟨o, c', .later hstep hstop hint3 hfirst, hland⟩

/-! ## Single steps -/

/-- An instruction leads to a state that the program reaches, -/
theorem Program.Instruction.reaches (hinstr : P.Instruction c c') : P.Reaches c c' := by
  cases hinstr with
  | ran hstep | left hstep => exact .single ⟨_, hstep⟩
  | called henter hleave => exact .head ⟨_, henter⟩ (.single ⟨_, hleave⟩)

/-- outside of system calls. -/
theorem Program.Instruction.outside (hinstr : P.Instruction c c') : c'.inSyscall = false := by
  cases hinstr with
  | ran hstep | left hstep | called _ hstep =>
    have hin := nativeStep_inSyscall hstep
    simpa using hin

/-- A single step that ends, from where there is no `int3`, is one instruction, and is not
reported as a trap. -/
theorem instruction_of_firstStop (hfirst : P.FirstStop .singlestep stops c o c') :
    P.Instruction c c' ∧ (o = some .stepped ∨ o = some .steppedCall) := by
  induction hfirst with
  | @reported c c' event stop hstep hstop =>
    cases event with
    | ran =>
      cases hstop
      exact ⟨.ran hstep, .inl rfl⟩
    | left =>
      cases hstop
      exact ⟨.left hstep, .inr rfl⟩
    | entered => cases hstop
  | @arrives c c' event hstep hstop harrived =>
    cases event with
    | entered =>
      have hin := (Program.nativeStep_inSyscall hstep).mpr rfl
      simp [harrived.1] at hin
    | ran | left => cases hstop
  | @later c c₁ c' event o hstep hstop _ _ ih =>
    cases event with
    | entered =>
      obtain ⟨hinstr, hstopped⟩ := ih
      have hin := (Program.nativeStep_inSyscall hstep).mpr rfl
      refine ⟨?_, hstopped⟩
      cases hinstr with
      | left hleave => exact .called hstep hleave
      | ran hstep' | called hstep' _ => simpa using (Program.nativeStep_left hstep').mp hin
    | ran | left => cases hstop

/-- One instruction is a single step. -/
theorem Program.Instruction.firstStop (hinstr : P.Instruction c c') (stops : Addr → Prop) :
    ∃ stop, (stop = .stepped ∨ stop = .steppedCall) ∧
      P.FirstStop .singlestep stops c (some stop) c' := by
  cases hinstr with
  | ran hstep => exact ⟨.stepped, .inl rfl, .reported hstep rfl⟩
  | left hstep => exact ⟨.steppedCall, .inr rfl, .reported hstep rfl⟩
  | called henter hleave =>
    refine ⟨.steppedCall, .inr rfl, .later henter rfl (fun harrived => ?_) (.reported hleave rfl)⟩
    have hin := (nativeStep_inSyscall henter).mpr rfl
    simp [harrived.1] at hin

/-- An instruction is unique. -/
theorem Program.Instruction.unique (hinstr : P.Instruction c c') (hinstr' : P.Instruction c c'') :
    c' = c'' := by
  obtain ⟨_, _, hfirst⟩ := hinstr.firstStop fun _ => False
  obtain ⟨_, _, hfirst'⟩ := hinstr'.firstStop fun _ => False
  exact (hfirst.unique hfirst').2

/-! ## `PTRACE_CONT` -/

/-- `PTRACE_CONT` reports arrivals only. -/
theorem firstStop_cont_none (hfirst : P.FirstStop .cont stops c o c') : o = none := by
  induction hfirst with
  | reported _ hstop => cases hstop
  | arrives => rfl
  | later _ _ _ _ ih => exact ih

/-- The first arrival is after the first step or later, -/
theorem firstStop_cont_iff (hstep : P.nativeStep c = some (event, c₁)) :
    P.FirstStop .cont stops c o c' ↔ P.StopsAt .cont stops c₁ o c' := by
  constructor
  · intro hfirst
    cases hfirst with
    | reported _ hstop => cases hstop
    | arrives hstep' _ harrived =>
      obtain ⟨rfl, rfl⟩ := Prod.mk.inj (Option.some.inj (hstep.symm.trans hstep'))
      exact .inl ⟨harrived, rfl, rfl⟩
    | later hstep' _ hnot hrest =>
      obtain ⟨rfl, rfl⟩ := Prod.mk.inj (Option.some.inj (hstep.symm.trans hstep'))
      exact .inr ⟨hnot, hrest⟩
  · rintro (⟨harrived, rfl, rfl⟩ | ⟨hnot, hrest⟩)
    · exact .arrives hstep rfl harrived
    · exact .later hstep rfl hnot hrest

/-- and after the first instruction or later. -/
theorem Program.Instruction.firstStop_cont_iff (hinstr : P.Instruction c c₁) :
    P.FirstStop .cont stops c o c' ↔ P.StopsAt .cont stops c₁ o c' := by
  cases hinstr with
  | ran hstep | left hstep => exact Sdb.firstStop_cont_iff hstep
  | called henter hleave =>
    rw [Sdb.firstStop_cont_iff henter, ← Sdb.firstStop_cont_iff hleave]
    have hin := (nativeStep_inSyscall henter).mpr rfl
    refine ⟨fun hstops => ?_, fun hfirst => .inr ⟨fun harrived => ?_, hfirst⟩⟩
    · rcases hstops with ⟨harrived, _⟩ | ⟨_, hfirst⟩
      · simp [harrived.1] at hin
      · exact hfirst
    · simp [harrived.1] at hin

/-- If the program exits before it arrives, it exits after the first step, -/
theorem exitsFirst_cont (hstep : P.nativeStep c = some (event, c₁))
    (hends : P.ExitsFirst .cont stops c) : ¬Arrived stops c₁ ∧ P.ExitsFirst .cont stops c₁ := by
  cases hends with
  | here hnone => simp [hstep] at hnone
  | later hstep' _ hnot hrest =>
    obtain ⟨rfl, rfl⟩ := Prod.mk.inj (Option.some.inj (hstep.symm.trans hstep'))
    exact ⟨hnot, hrest⟩

/-- and after the first instruction. -/
theorem Program.Instruction.exitsFirst_cont (hinstr : P.Instruction c c₁)
    (hends : P.ExitsFirst .cont stops c) : ¬Arrived stops c₁ ∧ P.ExitsFirst .cont stops c₁ := by
  cases hinstr with
  | ran hstep | left hstep => exact Sdb.exitsFirst_cont hstep hends
  | called henter hleave =>
    exact Sdb.exitsFirst_cont hleave (Sdb.exitsFirst_cont henter hends).2

end UnixProgramming.Sdb
