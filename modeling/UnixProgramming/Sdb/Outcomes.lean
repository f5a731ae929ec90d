import UnixProgramming.Sdb.TableBounds

/-!
# The outcome of a command

A command waits for its stop and then acts on it; `perform_resume` puts the three commands
into this one form. Their outcome does not depend on the number of steps that the tracee is
granted, as long as it is enough.
-/

namespace UnixProgramming.Sdb

variable {γ δ : Type} {P : Program γ δ} {mode : Mode} {steps : ℕ} {cmd : Resume}
variable {s : Session γ δ} {rip : Addr}

/-- A command waits for its stop and then acts on it. -/
theorem perform_resume : perform P steps s (.resume cmd) = (do
    let s ← s.stopFor P steps cmd
    if s.handles cmd then handleBreakpoints P cmd steps s (s.handled cmd)
    else pure (if cmd = .syscall then reportSyscall s else ([], s))) := by
  cases cmd with
  | si =>
    refine bind_congr fun s => ?_
    simp [Session.handles, Session.handled]
  | cont | syscall =>
    refine bind_congr fun s => ?_
    cases hcalls : s.stop.atSyscall <;> simp [Session.handles, Session.handled, hcalls]

/-- While no breakpoint waits, the way to the stop is the request of the command. -/
theorem stopFor_direct (hagain : s.bpAgain = false) (n : ℕ) :
    s.stopFor P n cmd = s.run P cmd.request n := by
  have hnot : ¬s.bpAgain = true := by simp [hagain]
  cases cmd <;> exact if_neg hnot

/-- While one does, `si` and `syscall` plant it again at the stop. -/
theorem stopFor_waiting (hcmd : cmd ≠ .cont) (hagain : s.bpAgain = true) (n : ℕ) :
    s.stopFor P n cmd = s.rearm P cmd.request n := by
  cases cmd with
  | si | syscall => exact if_pos hagain
  | cont => exact absurd rfl hcmd

/-- More steps for the tracee do not change where a request ends, -/
theorem run_more {steps' : ℕ} (hle : steps ≤ steps') :
    Simulates Eq (s.run P mode steps) (s.run P mode steps') :=
  fun s' hok => ⟨s', run_mono hle hok, rfl⟩

/-- nor where the first part of a command does, -/
theorem rearm_more {steps' : ℕ} (hle : steps ≤ steps') :
    Simulates Eq (s.rearm P mode steps) (s.rearm P mode steps') := by
  refine (run_more hle).bind ?_
  rintro s₁ _ rfl
  refine Simulates.bind (R := Eq) ?_ ?_
  · unfold Session.runAgain
    split
    · exact run_more hle
    · exact .pure rfl
  · rintro s₂ _ rfl
    exact .pure rfl

/-- nor the way to the stop, -/
theorem stopFor_more {steps' : ℕ} (hle : steps ≤ steps') :
    Simulates Eq (s.stopFor P steps cmd) (s.stopFor P steps' cmd) := by
  cases cmd with
  | si | syscall =>
    simp only [Session.stopFor, stopSI, stopSyscall]
    split
    · exact rearm_more hle
    · exact run_more hle
  | cont =>
    simp only [Session.stopFor, stopCONT]
    split
    · refine (rearm_more hle).bind ?_
      rintro s₁ _ rfl
      exact run_more hle
    · exact run_more hle

/-- nor `handle_breakpoints`, -/
theorem handleBreakpoints_more {steps' : ℕ} (hle : steps ≤ steps') :
    Simulates Eq (handleBreakpoints P cmd steps s rip) (handleBreakpoints P cmd steps' s rip) := by
  induction steps generalizing steps' s rip with
  | zero =>
    intro _ hok
    cases hok
  | succ steps ih =>
    obtain ⟨steps', rfl⟩ : ∃ n, steps' = n + 1 := ⟨steps' - 1, by omega⟩
    rw [handleBreakpoints_succ, handleBreakpoints_succ]
    cases s.activeAt (rip - 1) with
    | none => exact .pure rfl
    | some i =>
      dsimp only
      split
      · refine (run_more (by omega)).bind ?_
        rintro s₁ _ rfl
        split
        · exact ih (by omega)
        · exact .pure rfl
      · exact .pure rfl

/-- nor a command. -/
theorem perform_more {steps' : ℕ} (hle : steps ≤ steps') :
    Simulates Eq (perform P steps s (.resume cmd)) (perform P steps' s (.resume cmd)) := by
  rw [perform_resume, perform_resume]
  refine (stopFor_more hle).bind ?_
  rintro s₁ _ rfl
  split
  · exact handleBreakpoints_more hle
  · exact .pure rfl

theorem stopFor_mono {steps' : ℕ} {s₁ : Session γ δ} (hle : steps ≤ steps')
    (hok : s.stopFor P steps cmd = .ok s₁) : s.stopFor P steps' cmd = .ok s₁ := by
  obtain ⟨_, hok', rfl⟩ := stopFor_more hle s₁ hok
  exact hok'

theorem perform_mono {steps' : ℕ} {result : List Output × Session γ δ} (hle : steps ≤ steps')
    (hok : perform P steps s (.resume cmd) = .ok result) :
    perform P steps' s (.resume cmd) = .ok result := by
  obtain ⟨_, hok', rfl⟩ := perform_more hle result hok
  exact hok'

end UnixProgramming.Sdb
