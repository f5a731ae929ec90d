import UnixProgramming.Sdb.Patches
import UnixProgramming.Sdb.Stops

/-!
# Indices of the breakpoint table

Which entries of `breakpoints` each command looks at or changes. The loops stay below
the number of breakpoints, and so does the breakpoint that waits to be planted again.
Three uses do not: an eleventh breakpoint, a negative number to delete, and the entry
after the tenth, which is looked at when the tenth breakpoint is stepped over.
-/

namespace UnixProgramming.Sdb

variable {γ δ : Type} {P : Program γ δ} {mode : Mode} {steps steps' : ℕ}
variable {s s' s₁ : Session γ δ} {cmd : Resume} {rip : Addr} {i j k n : ℕ} {out : List Output}

/-- What is typed at the prompt: a command that acts on the tracee, or `info break`. -/
inductive Input
  | command (c : Command)
  | infoBreak

/-- An input that comes back to the prompt; `info break` only prints. -/
def InputStep (P : Program γ δ) (s : Session γ δ) : Input → Session γ δ → Prop
  | .command c, s' => Step P s c s'
  | .infoBreak, s' => s' = s

/-- The entries that a loop over the table looks at: up to the first one with the
property, or all. -/
def scanned (n : ℕ) (p : ℕ → Bool) : List ℕ :=
  match (List.range n).find? p with
  | none => List.range n
  | some i => List.range (i + 1)

/-- The entries that the search for an active breakpoint at an address looks at. -/
def Session.lookedAt (s : Session γ δ) (a : Addr) : List ℕ :=
  scanned s.numBreakpoints fun i => (s.breakpoints i).active && (s.breakpoints i).addr = a

/-- The entries that `set_breakpoints` uses. -/
def usedBySet (s : Session γ δ) (currAddr : Addr) : List ℕ :=
  s.lookedAt currAddr ++ if (s.activeAt currAddr).isSome then [] else [s.numBreakpoints]

/-- The entries that `print_breakpoints` uses, in its two loops. -/
def usedByPrint (s : Session γ δ) : List ℕ :=
  scanned s.numBreakpoints (fun i => (s.breakpoints i).active) ++
    if (List.range s.numBreakpoints).any fun i => (s.breakpoints i).active then
      List.range s.numBreakpoints
    else []

/-- The entries that `delete_breakpoint` uses. -/
def usedByDelete (s : Session γ δ) (id : ℤ) : List ℤ :=
  if id ≥ s.numBreakpoints then [] else [id]

/-- The entries that `patch_memory` uses, one search for each byte. -/
def usedByPatch (s : Session γ δ) (addr : Addr) (value : Word) (len : ℕ) : List ℕ :=
  (List.range len).flatMap fun i =>
    ((List.range i).foldl (fun s i => patchByte s addr value i) s).lookedAt
      (addr + BitVec.ofNat 64 i)

/-- The entries that `handle_breakpoints` uses: those of its loop, and the next one after
a breakpoint that it steps over. -/
def usedByHandle (P : Program γ δ) (cmd : Resume) : ℕ → Session γ δ → Addr → List ℕ
  | 0, _, _ => []
  | steps + 1, s, rip =>
    let s := s.setRip (rip - 1)
    s.lookedAt (rip - 1) ++ match s.activeAt (rip - 1) with
      | none => []
      | some i =>
        if (s.breakpoints i).ignoreRipEqualBreak then
          match (s.stepOver i).run P cmd.request steps with
          | .error _ => []
          | .ok s =>
            let s := s.steppedOver i cmd
            (i + 1) :: if s.atNext i then usedByHandle P cmd steps s (s.rip + 1) else []
        else []

/-- The stop that a command looks at. -/
def Session.stopFor (P : Program γ δ) (steps : ℕ) (s : Session γ δ) :
    Resume → Except Halt (Session γ δ)
  | .si => stopSI P steps s
  | .cont => stopCONT P steps s
  | .syscall => stopSyscall P steps s

/-- The command calls `handle_breakpoints` at the stop. -/
def Session.handles (s : Session γ δ) : Resume → Bool
  | .si => (s.stop.siCode ≠ 2 && s.stop.siCode ≠ 1) || s.bpAddr
  | _ => !s.stop.atSyscall

/-- The entries that `command_SI`, `command_CONT` and `command_syscall` use: the one that
waits to be planted again, those that `command_SI` compares with `rip`, those of
`handle_breakpoints`, and those that `disassemble` searches for the words it shows. -/
def usedByResume (P : Program γ δ) (steps : ℕ) (shown : List Addr) (s : Session γ δ)
    (cmd : Resume) : List ℕ :=
  (if s.bpAgain then [s.whichBp] else []) ++
    (match s.stopFor P steps cmd with
      | .error _ => []
      | .ok s =>
        (if cmd = .si then
          scanned s.numBreakpoints fun i => (s.breakpoints i).addr = s.rip
        else []) ++
          if s.handles cmd then usedByHandle P cmd steps s (s.handled cmd) else []) ++
    match perform P steps s (.resume cmd) with
    | .error _ => []
    | .ok (_, s) => shown.flatMap s.lookedAt

/-- The entries that an input uses, given the addresses of the words that are shown
afterwards. -/
def used (P : Program γ δ) (steps : ℕ) (shown : List Addr) (s : Session γ δ) : Input → List ℤ
  | .command (.brk addr) => (usedBySet s addr).map Int.ofNat
  | .command (.delete id) => usedByDelete s id
  | .command (.patch addr value len _) => (usedByPatch s addr value len).map Int.ofNat
  | .command (.resume cmd) => (usedByResume P steps shown s cmd).map Int.ofNat
  | .infoBreak => (usedByPrint s).map Int.ofNat

/-- Every entry that the input uses is in the table. -/
def InTable (P : Program γ δ) (s : Session γ δ) (c : Input) : Prop :=
  ∀ steps shown, ∀ k ∈ used P steps shown s c, 0 ≤ k ∧ k < maxBreakpoints

/-- `handle_breakpoints` steps over breakpoint `i`, at once or after other ones. -/
inductive PassesOver (P : Program γ δ) (cmd : Resume) : Session γ δ → Addr → ℕ → Prop
  | here {s s₁ : Session γ δ} {rip : Addr} {i : ℕ} : StepsOver P cmd s rip i s₁ →
      PassesOver P cmd s rip i
  | later {s s₁ : Session γ δ} {rip : Addr} {i j : ℕ} : StepsOver P cmd s rip i s₁ →
      (s₁.steppedOver i cmd).atNext i = true →
      PassesOver P cmd (s₁.steppedOver i cmd) ((s₁.steppedOver i cmd).rip + 1) j →
      PassesOver P cmd s rip j

/-- The inputs that stay in the table: a new breakpoint finds room, a number to delete is
not negative, and the tenth breakpoint is not stepped over. -/
def StaysInTable (P : Program γ δ) (s : Session γ δ) : Input → Prop
  | .command (.brk addr) => s.ActiveAt addr ∨ s.numBreakpoints < maxBreakpoints
  | .command (.delete id) => 0 ≤ id
  | .command (.resume cmd) => ∀ s₁, Stopped P cmd s s₁ → s₁.ToHandle cmd →
      ¬PassesOver P cmd s₁ (s₁.handled cmd) (maxBreakpoints - 1)
  | _ => True

/-- What every command keeps: there is no eleventh breakpoint, the one that waits to be
planted again exists, and no two active ones share an address. -/
structure TableKept (s : Session γ δ) : Prop where
  le_max : s.numBreakpoints ≤ maxBreakpoints
  waiting : s.bpAgain = true → s.whichBp < s.numBreakpoints
  distinct : ∀ i j, s.Active i → s.Active j → (s.breakpoints i).addr = (s.breakpoints j).addr →
    i = j

/-! ## What the commands do to the table -/

/-- A request leaves the table as it is, -/
theorem run_sameTable (hok : s.run P mode steps = .ok s') : SameTable s s' := by
  obtain ⟨stop, core, _, rfl⟩ := run_eq_ok.mp hok
  exact .of_eq rfl rfl

/-- the first part of a command does, -/
theorem Rearmed.sameTable (hrearmed : Rearmed P mode s s') :
    SameTable s s' ∧ s'.bpAgain = false := by
  cases hrearmed with
  | away hrun => exact ⟨(run_sameTable hrun).trans (.of_eq rfl rfl), rfl⟩
  | @back _ s₁ s₂ hrun _ hrun' =>
    have hplanted : SameTable s (s₁.plantAgain s.whichBp) :=
      (run_sameTable hrun).trans (.of_eq rfl rfl)
    exact ⟨(hplanted.trans (run_sameTable hrun')).trans (.of_eq rfl rfl), rfl⟩

/-- and so does the way to the stop. -/
theorem Stopped.sameTable (hstopped : Stopped P cmd s s') :
    SameTable s s' ∧ s'.bpAgain = false := by
  cases hstopped with
  | once hagain hrun =>
    refine ⟨run_sameTable hrun, ?_⟩
    obtain ⟨stop, core, _, rfl⟩ := run_eq_ok.mp hrun
    exact hagain
  | again _ _ hrearmed => exact hrearmed.sameTable
  | onward _ hrearmed hrun =>
    obtain ⟨hsame, hagain⟩ := hrearmed.sameTable
    refine ⟨hsame.trans (run_sameTable hrun), ?_⟩
    obtain ⟨stop, core, _, rfl⟩ := run_eq_ok.mp hrun
    exact hagain

/-- Lifting a breakpoint to step over it clears its flag. -/
theorem stepOver_sameTable (s : Session γ δ) (i : ℕ) : SameTable s (s.stepOver i) :=
  .of_update (i := i) (b := { s.breakpoints i with ignoreRipEqualBreak := false }) rfl rfl rfl rfl

/-- After a step over a breakpoint, that one may wait to be planted again. -/
theorem steppedOver_sameTable (s : Session γ δ) (i : ℕ) (cmd : Resume) :
    SameTable s (s.steppedOver i cmd) ∧
      ((s.steppedOver i cmd).bpAgain = s.bpAgain ∧ (s.steppedOver i cmd).whichBp = s.whichBp ∨
        (s.steppedOver i cmd).whichBp = i) := by
  cases cmd with
  | si => exact ⟨.of_eq rfl rfl, .inl ⟨rfl, rfl⟩⟩
  | cont => exact ⟨.of_eq rfl rfl, .inr rfl⟩
  | syscall =>
    simp only [Session.steppedOver]
    split
    · exact ⟨.of_eq rfl rfl, .inr rfl⟩
    · split
      all_goals exact ⟨.of_eq rfl rfl, .inr rfl⟩

/-- Stepping over a breakpoint leaves the table as it is, except for its flag. -/
theorem StepsOver.sameTable (hsteps : StepsOver P cmd s rip i s₁) :
    SameTable s s₁ ∧ s₁.bpAgain = s.bpAgain ∧ s₁.whichBp = s.whichBp := by
  obtain ⟨_, _, _, steps, hrun⟩ := hsteps
  have hover : SameTable s ((s.setRip (rip - 1)).stepOver i) :=
    SameTable.trans (.of_eq rfl rfl) (stepOver_sameTable (s.setRip (rip - 1)) i)
  refine ⟨hover.trans (run_sameTable hrun), ?_⟩
  obtain ⟨stop, core, _, rfl⟩ := run_eq_ok.mp hrun
  exact ⟨rfl, rfl⟩

/-- Of a table with the same entries, only the breakpoint that waits has to be looked at. -/
theorem SameTable.tableKept (hsame : SameTable s s') (hkept : TableKept s)
    (hwaiting : s'.bpAgain = true → s'.whichBp < s.numBreakpoints) : TableKept s' where
  le_max := hsame.1.symm ▸ hkept.le_max
  waiting := hsame.1.symm ▸ hwaiting
  distinct i j hi hj haddr := by
    rw [(hsame.2 i).1, (hsame.2 j).1] at haddr
    exact hkept.distinct i j (hsame.active.mp hi) (hsame.active.mp hj) haddr

/-- A stop comes with the table of the prompt. -/
theorem Stopped.tableKept (hstopped : Stopped P cmd s s₁) (hkept : TableKept s) :
    TableKept s₁ := by
  obtain ⟨hsame, hagain⟩ := hstopped.sameTable
  exact hsame.tableKept hkept fun h => by simp [hagain] at h

/-- Stepping over a breakpoint keeps the table. -/
theorem StepsOver.tableKept (hsteps : StepsOver P cmd s rip i s₁) (hkept : TableKept s) :
    TableKept (s₁.steppedOver i cmd) := by
  obtain ⟨hsame, hagain, hwhich⟩ := hsteps.sameTable
  obtain ⟨hsame', hcases⟩ := steppedOver_sameTable s₁ i cmd
  refine (hsame.trans hsame').tableKept hkept fun h => ?_
  obtain ⟨hagain', hwhich'⟩ | hwhich' := hcases
  · rw [hwhich', hwhich]
    exact hkept.waiting (hagain ▸ hagain' ▸ h)
  · rw [hwhich']
    exact hsteps.1.1

/-- `handle_breakpoints` keeps the table. The induction is on the breakpoints that it steps
over. -/
theorem Handled.tableKept (hhandled : Handled P cmd s rip out s') (hkept : TableKept s) :
    TableKept s' := by
  induction hhandled with
  | @nothing s rip _ =>
    have hmoved : SameTable s (s.setRip (rip - 1)) := .of_eq rfl rfl
    exact hmoved.tableKept hkept hkept.waiting
  | @hit s rip i hactive _ _ =>
    have hmoved : SameTable s ((s.setRip (rip - 1)).hit i) := .of_eq rfl rfl
    exact hmoved.tableKept hkept fun _ => hactive.1
  | past hsteps => exact hsteps.tableKept hkept
  | next hsteps _ _ ih => exact ih (hsteps.tableKept hkept)

/-- A new breakpoint found room. -/
theorem setBreakpoints_room {a : Addr} (hok : setBreakpoints s a = .ok (out, s'))
    (hfree : ¬s.ActiveAt a) : s.numBreakpoints < maxBreakpoints := by
  rw [← activeAt_eq_none] at hfree
  simp only [setBreakpoints, hfree, Option.isSome_none, Bool.false_eq_true, if_false] at hok
  split at hok
  · cases hok
  · omega

/-- Every command keeps the table. -/
theorem TableKept.step {c : Command} (hkept : TableKept s) (hstep : Step P s c s') :
    TableKept s' := by
  obtain ⟨steps, out, hok⟩ := hstep
  cases c with
  | brk a =>
    obtain ⟨_, rfl⟩ | ⟨hfree, rfl⟩ := setBreakpoints_cases hok
    · exact hkept
    have hroom := setBreakpoints_room hok hfree
    refine ⟨hroom, fun h => Nat.lt_succ_of_lt (hkept.waiting h), fun i j hi hj haddr => ?_⟩
    have hne : ∀ i, s.Active i → (s.breakpoints i).addr ≠ a :=
      fun i hi haddr => hfree ⟨i, hi, haddr⟩
    obtain rfl | hi := withBp_active.mp hi <;> obtain rfl | hj := withBp_active.mp hj
    · rfl
    · rw [withBp_new, withBp_breakpoints hj.1] at haddr
      exact absurd haddr.symm (hne j hj)
    · rw [withBp_new, withBp_breakpoints hi.1] at haddr
      exact absurd haddr (hne i hi)
    · rw [withBp_breakpoints hi.1, withBp_breakpoints hj.1] at haddr
      exact hkept.distinct i j hi hj haddr
  | delete id =>
    obtain ⟨_, rfl⟩ | ⟨i, rfl, hi, ⟨_, rfl⟩ | ⟨_, rfl⟩⟩ := deleteBreakpoint_cases hok
    · exact hkept
    · have hsame : SameTable s (s.poke (s.breakpoints i).addr (s.breakpoints i).originalCode) :=
        .of_eq rfl rfl
      exact hsame.tableKept hkept hkept.waiting
    · refine ⟨hkept.le_max, hkept.waiting, fun j k hj hk haddr => ?_⟩
      rw [(withoutBp_breakpoints s i j).1, (withoutBp_breakpoints s i k).1] at haddr
      exact hkept.distinct j k (withoutBp_active.mp hj).1 (withoutBp_active.mp hk).1 haddr
  | patch addr value len hlen =>
    obtain ⟨_, rfl⟩ := Prod.mk.inj (Except.ok.inj hok)
    obtain ⟨hsame, hagain, hwhich⟩ := patchBytes_sameTable s addr value (List.range len)
    exact hsame.tableKept hkept fun h => hwhich.symm ▸ hkept.waiting (hagain ▸ h)
  | resume cmd =>
    obtain ⟨s₁, hstopped, hended⟩ := resume_cases hok
    have hkept₁ := hstopped.tableKept hkept
    cases hended with
    | plain => exact hkept₁
    | reported =>
      have hsame : SameTable s₁ (reportSyscall s₁).2 := .of_eq rfl rfl
      exact hsame.tableKept hkept₁ hkept₁.waiting
    | handled _ hhandled => exact hhandled.tableKept hkept₁

/-- The empty table is kept. -/
theorem tableKept_load (mem : ByteMemory 64) (regs : Regs γ) (data : δ) :
    TableKept (Session.load mem regs data) :=
  ⟨Nat.zero_le _, fun h => (by cases h), fun i _ hi => absurd hi.1 (Nat.not_lt_zero i)⟩

/-! ## Uses inside the table -/

/-- A loop over the table stays below the number of breakpoints. -/
theorem lt_of_mem_scanned {p : ℕ → Bool} (hk : k ∈ scanned n p) : k < n := by
  unfold scanned at hk
  split at hk
  · exact List.mem_range.mp hk
  · next i hfind =>
    obtain ⟨_, hi, _⟩ := List.find?_range_eq_some.mp hfind
    have hin := List.mem_range.mp hi
    have hki := List.mem_range.mp hk
    omega

/-- `handle_breakpoints` stays in the table unless it steps over the tenth breakpoint. The
induction is on the steps granted. -/
theorem lt_of_mem_usedByHandle (hle : s.numBreakpoints ≤ maxBreakpoints)
    (hover : ¬PassesOver P cmd s rip (maxBreakpoints - 1))
    (hk : k ∈ usedByHandle P cmd steps s rip) : k < maxBreakpoints := by
  induction steps generalizing s rip with
  | zero => simp [usedByHandle] at hk
  | succ steps ih =>
    unfold usedByHandle at hk
    dsimp only at hk
    rw [List.mem_append] at hk
    obtain hk | hk := hk
    · exact (lt_of_mem_scanned hk).trans_le hle
    have hfound : (s.setRip (rip - 1)).activeAt (rip - 1) = s.activeAt (rip - 1) := rfl
    rw [hfound] at hk
    cases hfind : s.activeAt (rip - 1) with
    | none =>
      rw [hfind] at hk
      exact absurd hk List.not_mem_nil
    | some i =>
      obtain ⟨hactive, haddr⟩ := active_of_activeAt hfind
      rw [hfind] at hk
      dsimp only at hk
      split at hk
      · next hflag =>
        cases hrun : ((s.setRip (rip - 1)).stepOver i).run P cmd.request steps with
        | error e =>
          rw [hrun] at hk
          exact absurd hk List.not_mem_nil
        | ok s₁ =>
          have hsteps : StepsOver P cmd s rip i s₁ := ⟨hactive, haddr, hflag, steps, hrun⟩
          rw [hrun] at hk
          dsimp only at hk
          rw [List.mem_cons] at hk
          obtain rfl | hk := hk
          · have hne : i ≠ maxBreakpoints - 1 := fun heq => hover (heq ▸ .here hsteps)
            have hi : i < s.numBreakpoints := hactive.1
            omega
          · split at hk
            · next hnext =>
              have hnum : (s₁.steppedOver i cmd).numBreakpoints = s.numBreakpoints :=
                (steppedOver_sameTable s₁ i cmd).1.1.trans hsteps.sameTable.1.1
              exact ih (hnum ▸ hle) (fun hlater => hover (.later hsteps hnext hlater)) hk
            · simp at hk
      · simp at hk

/-- The stop that a command looks at. -/
theorem stopped_of_stopFor (hok : s.stopFor P steps cmd = .ok s₁) : Stopped P cmd s s₁ := by
  cases cmd with
  | si | syscall => exact stopped_of_rearm (by simp) hok
  | cont => exact stopCONT_stopped hok

/-- Whether a command calls `handle_breakpoints` is a question of its stop. -/
theorem handles_iff (hstopped : Stopped P cmd s s₁) : s₁.handles cmd = true ↔ s₁.ToHandle cmd := by
  have hby := hstopped.stoppedBy
  cases cmd with
  | si =>
    simp only [Session.handles, Session.ToHandle, Bool.or_eq_true, Bool.and_eq_true,
      decide_eq_true_eq, true_and]
    refine or_congr_left ?_
    obtain ⟨htrapped | ⟨event, hevent⟩, _⟩ := hby
    · simp [htrapped, Stop.siCode]
    · cases event <;> simp [Resume.request, Mode.stop?] at hevent <;>
        simp [← hevent, Stop.siCode]
  | cont =>
    have hcalls := (hby.outside (by simp [Resume.request])).1
    have htrapped := hby.trapped (by simp) hcalls
    simp [Session.handles, Session.ToHandle, htrapped, Stop.atSyscall]
  | syscall =>
    simp only [Session.handles, Session.ToHandle, Bool.not_eq_true', reduceCtorEq, false_and,
      or_false]
    refine ⟨fun hcalls => hby.trapped (by simp) hcalls, fun htrapped => ?_⟩
    rw [htrapped]
    rfl

/-- A command that does not step over the tenth breakpoint stays in the table. -/
theorem lt_of_mem_usedByResume {shown : List Addr} (hkept : TableKept s)
    (hstays : StaysInTable P s (.command (.resume cmd)))
    (hk : k ∈ usedByResume P steps shown s cmd) : k < maxBreakpoints := by
  simp only [usedByResume, List.mem_append] at hk
  obtain (hk | hk) | hk := hk
  · split at hk
    · next hagain =>
      obtain rfl := List.mem_singleton.mp hk
      exact (hkept.waiting hagain).trans_le hkept.le_max
    · simp at hk
  · cases hstop : s.stopFor P steps cmd with
    | error e => simp [hstop] at hk
    | ok s₁ =>
      have hstopped := stopped_of_stopFor hstop
      have hle := (hstopped.tableKept hkept).le_max
      simp only [hstop, List.mem_append] at hk
      obtain hk | hk := hk
      · split at hk
        · exact (lt_of_mem_scanned hk).trans_le hle
        · simp at hk
      · split at hk
        · next hhandles =>
          exact lt_of_mem_usedByHandle hle
            (hstays s₁ hstopped ((handles_iff hstopped).mp hhandles)) hk
        · simp at hk
  · cases hperform : perform P steps s (.resume cmd) with
    | error e => simp [hperform] at hk
    | ok result =>
      have hle := (hkept.step ⟨steps, result.1, hperform⟩).le_max
      simp only [hperform, List.mem_flatMap] at hk
      obtain ⟨a, _, hk⟩ := hk
      exact (lt_of_mem_scanned hk).trans_le hle

/-! ## Uses outside of the table -/

/-- The search finds the only active breakpoint with an address. -/
theorem TableKept.activeAt (hkept : TableKept s) (hactive : s.Active i) :
    s.activeAt (s.breakpoints i).addr = some i := by
  cases hfind : s.activeAt (s.breakpoints i).addr with
  | none => exact absurd ⟨i, hactive, rfl⟩ (activeAt_eq_none.mp hfind)
  | some j =>
    obtain ⟨hj, haddr⟩ := active_of_activeAt hfind
    rw [hkept.distinct j i hj hactive haddr]

/-- With enough steps, `handle_breakpoints` looks at the entry after a breakpoint that it
steps over. -/
theorem PassesOver.used (hover : PassesOver P cmd s rip j) (hkept : TableKept s) :
    ∃ n, ∀ steps, n ≤ steps → j + 1 ∈ usedByHandle P cmd steps s rip := by
  have hfirst : ∀ {s s₁ : Session γ δ} {rip : Addr} {i : ℕ}, TableKept s →
      StepsOver P cmd s rip i s₁ → ∃ n, ∀ steps, n ≤ steps → ∀ k,
        (k = i + 1 ∨ (s₁.steppedOver i cmd).atNext i = true ∧
          k ∈ usedByHandle P cmd steps (s₁.steppedOver i cmd)
            ((s₁.steppedOver i cmd).rip + 1)) →
        k ∈ usedByHandle P cmd (steps + 1) s rip := by
    intro s s₁ rip i hkept hsteps
    obtain ⟨hactive, haddr, hflag, n, hrun⟩ := hsteps
    have hfound : (s.setRip (rip - 1)).activeAt (rip - 1) = some i := haddr ▸ hkept.activeAt hactive
    have hflag' : ((s.setRip (rip - 1)).breakpoints i).ignoreRipEqualBreak = true := hflag
    refine ⟨n, fun steps hle k hk => ?_⟩
    unfold usedByHandle
    dsimp only
    rw [hfound, List.mem_append]
    dsimp only
    rw [if_pos hflag', run_mono hle hrun]
    dsimp only
    rw [List.mem_cons]
    obtain hk | ⟨hnext, hk⟩ := hk
    · exact .inr (.inl hk)
    · rw [if_pos hnext]
      exact .inr (.inr hk)
  induction hover with
  | here hsteps =>
    obtain ⟨n, hused⟩ := hfirst hkept hsteps
    refine ⟨n + 1, fun steps hle => ?_⟩
    obtain ⟨steps, rfl⟩ : ∃ m, steps = m + 1 := ⟨steps - 1, by omega⟩
    exact hused steps (by omega) _ (.inl rfl)
  | later hsteps hnext _ ih =>
    obtain ⟨n, hused⟩ := hfirst hkept hsteps
    obtain ⟨m, hlater⟩ := ih (hsteps.tableKept hkept)
    refine ⟨max n m + 1, fun steps hle => ?_⟩
    obtain ⟨steps, rfl⟩ : ∃ l, steps = l + 1 := ⟨steps - 1, by omega⟩
    exact hused steps (by omega) _ (.inr ⟨hnext, hlater steps (by omega)⟩)

/-- With enough steps, the first part of a command comes to its end, -/
theorem Rearmed.eventually (hrearmed : Rearmed P mode s s') :
    ∃ n, ∀ steps, n ≤ steps → s.rearm P mode steps = .ok s' := by
  cases hrearmed with
  | @away n s₁ hrun haway =>
    refine ⟨n, fun steps hle => ?_⟩
    obtain ⟨stop, core, _, rfl⟩ := run_eq_ok.mp hrun
    simp only [Session.rearm, bind_eq_ok]
    refine ⟨_, run_mono hle hrun, _, ?_, rfl⟩
    exact if_neg haway
  | @back n s₁ s₂ hrun hback hrun' =>
    obtain ⟨stop, core, _, rfl⟩ := run_eq_ok.mp hrun
    obtain ⟨m, hrun'⟩ : ∃ m, Session.run P mode m _ = .ok s₂ := ⟨_, hrun'⟩
    refine ⟨max n m, fun steps hle => ?_⟩
    simp only [Session.rearm, bind_eq_ok]
    refine ⟨_, run_mono (by omega) hrun, _, ?_, rfl⟩
    exact (if_pos hback).trans (run_mono (by omega) hrun')

/-- and the tracee to the stop. -/
theorem Stopped.eventually (hstopped : Stopped P cmd s s₁) :
    ∃ n, ∀ steps, n ≤ steps → s.stopFor P steps cmd = .ok s₁ := by
  cases hstopped with
  | @once _ _ _ n hagain hrun =>
    refine ⟨n, fun steps hle => ?_⟩
    have hrun' := run_mono hle hrun
    cases cmd with
    | si | cont | syscall =>
      simp only [Session.stopFor, stopSI, stopCONT, stopSyscall, hagain, Bool.false_eq_true,
        if_false]
      exact hrun'
  | again hcmd hagain hrearmed =>
    obtain ⟨n, hrearm⟩ := hrearmed.eventually
    refine ⟨n, fun steps hle => ?_⟩
    cases cmd with
    | cont => exact absurd rfl hcmd
    | si | syscall =>
      simp only [Session.stopFor, stopSI, stopSyscall, hagain, if_true]
      exact hrearm steps hle
  | @onward _ s₂ _ m hagain hrearmed hrun =>
    obtain ⟨n, hrearm⟩ := hrearmed.eventually
    refine ⟨max n m, fun steps hle => ?_⟩
    simp only [Session.stopFor, stopCONT, hagain, if_true, bind_eq_ok]
    exact ⟨s₂, hrearm steps (by omega), run_mono (by omega) hrun⟩

/-- A command that steps over the tenth breakpoint looks at an eleventh entry. -/
theorem mem_usedByResume (hkept : TableKept s) (hstopped : Stopped P cmd s s₁)
    (hhandle : s₁.ToHandle cmd) (hover : PassesOver P cmd s₁ (s₁.handled cmd) j) :
    ∃ steps, j + 1 ∈ usedByResume P steps [] s cmd := by
  obtain ⟨n, hstop⟩ := hstopped.eventually
  obtain ⟨m, hused⟩ := hover.used (hstopped.tableKept hkept)
  refine ⟨max n m, ?_⟩
  have hhandles := (handles_iff hstopped).mpr hhandle
  simp only [usedByResume, hstop (max n m) (by omega), hhandles, if_true, List.mem_append]
  exact .inl (.inr (.inr (hused (max n m) (by omega))))

/-- A list of numbers is in the table when all of them are below its length. -/
theorem inTable_ofNat {ks : List ℕ} :
    (∀ k ∈ ks.map Int.ofNat, 0 ≤ k ∧ k < (maxBreakpoints : ℤ)) ↔ ∀ k ∈ ks, k < maxBreakpoints := by
  simp only [List.forall_mem_map, Int.ofNat_eq_natCast, Int.natCast_nonneg, true_and,
    Int.ofNat_lt]

/-- An input stays in a table that is kept exactly under the condition. -/
theorem inTable_iff (hkept : TableKept s) (c : Input) : InTable P s c ↔ StaysInTable P s c := by
  have hbelow : ∀ {k}, k < s.numBreakpoints → k < maxBreakpoints :=
    fun hk => hk.trans_le hkept.le_max
  unfold InTable
  cases c with
  | infoBreak =>
    refine iff_of_true (fun steps shown => inTable_ofNat.mpr fun k hk => ?_) trivial
    simp only [usedByPrint, List.mem_append] at hk
    obtain hk | hk := hk
    · exact hbelow (lt_of_mem_scanned hk)
    · split at hk
      · exact hbelow (List.mem_range.mp hk)
      · simp at hk
  | command c =>
    cases c with
    | brk addr =>
      simp only [used, inTable_ofNat, forall_const, StaysInTable]
      unfold usedBySet
      cases hfind : s.activeAt addr with
      | none =>
        have hfree := activeAt_eq_none.mp hfind
        simp only [Option.isSome_none, Bool.false_eq_true, if_false, List.mem_append,
          List.mem_singleton, hfree, false_or]
        refine ⟨fun hall => hall _ (.inr rfl), fun hroom k hk => ?_⟩
        obtain hk | rfl := hk
        · exact hbelow (lt_of_mem_scanned hk)
        · exact hroom
      | some i =>
        obtain ⟨hactive, haddr⟩ := active_of_activeAt hfind
        refine iff_of_true (fun k hk => ?_) (.inl ⟨i, hactive, haddr⟩)
        simp only [Option.isSome_some, if_true, List.append_nil] at hk
        exact hbelow (lt_of_mem_scanned hk)
    | delete id =>
      have hmax : (s.numBreakpoints : ℤ) ≤ maxBreakpoints := by exact_mod_cast hkept.le_max
      simp only [used, forall_const, StaysInTable, usedByDelete]
      split
      · simp
        omega
      · simp only [List.mem_singleton, forall_eq]
        omega
    | patch addr value len hlen =>
      refine iff_of_true (fun steps shown => inTable_ofNat.mpr fun k hk => ?_) trivial
      simp only [usedByPatch, List.mem_flatMap] at hk
      obtain ⟨i, _, hk⟩ := hk
      have hnum := (patchBytes_sameTable s addr value (List.range i)).1.1
      exact hbelow (hnum ▸ lt_of_mem_scanned hk)
    | resume cmd =>
      constructor
      · intro hall s₁ hstopped hhandle hover
        obtain ⟨steps, hmem⟩ := mem_usedByResume hkept hstopped hhandle hover
        have hlt := inTable_ofNat.mp (hall steps []) _ hmem
        omega
      · exact fun hstays steps shown => inTable_ofNat.mpr fun k hk =>
          lt_of_mem_usedByResume hkept hstays hk

/-- In every sequence of inputs after a program is loaded, the last of which need not come
back to the prompt, all uses of the table are inside exactly when every input meets the
condition. -/
theorem inTable_run_iff (P : Program γ δ) (mem : ByteMemory 64) (regs : Regs γ) (data : δ)
    {history : List (Session γ δ × Input)}
    (hrun : Run (.load mem regs data) (InputStep P) history s) (c : Input) :
    InTable P s c ∧ EachStep (InTable P) history ↔
      StaysInTable P s c ∧ EachStep (StaysInTable P) history := by
  have hkept : Throughout TableKept history s := by
    refine hrun.throughout_of_step (C := fun _ _ => True) ?_ ?_ fun _ _ => trivial
    · exact tableKept_load mem regs data
    · intro s c s' hkept _ hstep
      cases c with
      | command c => exact hkept.step hstep
      | infoBreak => exact hstep ▸ hkept
  rw [inTable_iff hkept.1 c]
  refine and_congr_right fun _ => forall₂_congr fun x hx => ?_
  exact inTable_iff (hkept.2 x hx) x.2

/-- A breakpoint is set and listed. -/
theorem inTable_run_iff_list : ∃ history s,
    Run (sampleSession 0) (InputStep sampleProgram) history s ∧
      history.map Prod.snd = [.command (.brk 5)] ∧
      InTable sampleProgram s .infoBreak ∧ EachStep (InTable sampleProgram) history := by
  have hbreak : InputStep sampleProgram (sampleSession 0) (.command (.brk 5))
      (withBp (sampleSession 0) 5) := ⟨0, _, rfl⟩
  have hrun := Run.start.step hbreak
  refine ⟨_, _, hrun, rfl, (inTable_run_iff sampleProgram _ _ _ hrun .infoBreak).mpr ?_⟩
  rw [eachStep_cons]
  exact ⟨trivial, .inr (by decide), eachStep_nil⟩

/-- A negative number to delete is used as an index. -/
theorem not_inTable_negative : ¬∀ s, Reachable (sampleSession 0) (InputStep sampleProgram) s →
    ∀ c, InTable sampleProgram s c := by
  intro hall
  have huse := hall _ reachable_init (.command (.delete (-1))) 0 [] (-1) (by decide)
  omega

end UnixProgramming.Sdb
