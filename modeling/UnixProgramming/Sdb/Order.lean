import UnixProgramming.Sdb.Outcomes

/-!
# The order of the breakpoints

Two sessions in which the same breakpoints have been set in two orders differ in the
numbers of the breakpoints, and in bytes of saved words that only `delete` uses. They
answer alike except in one place: after a breakpoint has been stepped over, the next
entry of the table is looked at, and no other one.
-/

namespace UnixProgramming.Sdb

variable {γ δ : Type} {P : Program γ δ} {mode : Mode} {steps : ℕ} {cmd : Resume}
variable {s s' s₁ t t₁ t₂ u u' u₁ v : Session γ δ} {rip a b : Addr} {i j k m : ℕ}
variable {out : List Output} {l l₁ l₂ : List Addr}

/-- The addresses that a command reports as hit. -/
def hits (out : List Output) : List Addr :=
  out.filterMap fun
    | .hit addr => some addr
    | _ => none

/-- What a command shows: the address at which the tracee stops, and the breakpoints
reported as hit. -/
structure Report where
  cmd : Resume
  stop : Addr
  hits : List Addr

/-- A `si`, `cont` or `syscall` command that comes back to the prompt, with its report. -/
def Reports (P : Program γ δ) (s : Session γ δ) (r : Report) (s' : Session γ δ) : Prop :=
  ∃ steps out, perform P steps s (.resume r.cmd) = .ok (out, s') ∧ s'.rip = r.stop ∧
    hits out = r.hits

/-- From `t`, the commands of a history come back to the prompt with the same reports, and
with no others. -/
def SameReports (P : Program γ δ) (t : Session γ δ) (history : List (Session γ δ × Report)) :
    Prop :=
  (∃ history' t', Run t (Reports P) history' t' ∧ history'.map Prod.snd = history.map Prod.snd) ∧
    ∀ history' t', Run t (Reports P) history' t' →
      (history'.map fun x => x.2.cmd) = (history.map fun x => x.2.cmd) →
      history'.map Prod.snd = history.map Prod.snd

/-- In the table, the breakpoint at `b` comes right after the one at `a`. -/
def Session.Next (s : Session γ δ) (a b : Addr) : Prop :=
  ∃ i, s.Active i ∧ (s.breakpoints i).addr = a ∧ s.Active (i + 1) ∧
    (s.breakpoints (i + 1)).addr = b

/-- `handle_breakpoints` steps over the breakpoint at `a`, after which the tracee stands
at `b`. -/
inductive PassesFrom (P : Program γ δ) (cmd : Resume) :
    Session γ δ → Addr → Addr → Addr → Prop
  | here {s s₁ : Session γ δ} {rip : Addr} {i : ℕ} : StepsOver P cmd s rip i s₁ →
      PassesFrom P cmd s rip (rip - 1) (s₁.steppedOver i cmd).rip
  | later {s s₁ : Session γ δ} {rip a b : Addr} {i : ℕ} : StepsOver P cmd s rip i s₁ →
      (s₁.steppedOver i cmd).atNext i = true →
      PassesFrom P cmd (s₁.steppedOver i cmd) ((s₁.steppedOver i cmd).rip + 1) a b →
      PassesFrom P cmd s rip a b

/-- When the command steps over a breakpoint, the address at which the tracee then stands
comes right after it in both tables or in neither. -/
def KeepsOrder (P : Program γ δ) (t₁ t₂ s : Session γ δ) (cmd : Resume) : Prop :=
  ∀ s₁, Stopped P cmd s s₁ → s₁.ToHandle cmd → ∀ a b,
    PassesFrom P cmd s₁ (s₁.handled cmd) a b → (t₁.Next a b ↔ t₂.Next a b)

/-! ## A command has one outcome -/

/-- A command has one report and leads to one session. -/
theorem reports_unique (s : Session γ δ) (r r' : Report) (u u' : Session γ δ)
    (hcmd : r.cmd = r'.cmd) (hreports : Reports P s r u) (hreports' : Reports P s r' u') :
    r = r' ∧ u = u' := by
  obtain ⟨cmd, stop, hs⟩ := r
  obtain ⟨cmd', stop', hs'⟩ := r'
  obtain rfl : cmd = cmd' := hcmd
  obtain ⟨n, out, hok, rfl, rfl⟩ := hreports
  obtain ⟨n', out', hok', rfl, rfl⟩ := hreports'
  obtain ⟨x, hx, rfl⟩ := perform_more (Nat.le_max_left n n') _ hok
  obtain ⟨x', hx', rfl⟩ := perform_more (Nat.le_max_right n n') _ hok'
  obtain ⟨rfl, rfl⟩ := Prod.mk.inj (Except.ok.inj (hx.symm.trans hx'))
  exact ⟨rfl, rfl⟩

/-! ## Sessions that differ in the numbers of their breakpoints -/

/-- The entries have the same address and flags, and the same bytes are put into memory for
them. -/
structure Bp.SameEffect (b b' : Bp) : Prop where
  addr : b'.addr = b.addr
  active : b'.active = b.active
  flag : b'.ignoreRipEqualBreak = b.ignoreRipEqualBreak
  original : byteOf b'.originalCode 0 = byteOf b.originalCode 0
  trap : byteOf b'.int3Code 0 = byteOf b.int3Code 0

/-- The sessions have the same breakpoints, which may have other numbers, and agree in all
else. -/
structure Mirrored (u v : Session γ δ) : Prop where
  mem : v.mem = u.mem
  core : v.core = u.core
  stop : v.stop = u.stop
  preOrigRax : v.preOrigRax = u.preOrigRax
  enter : v.enter = u.enter
  bpAgain : v.bpAgain = u.bpAgain
  left : ∀ i < u.numBreakpoints, ∃ k < v.numBreakpoints,
    (u.breakpoints i).SameEffect (v.breakpoints k)
  right : ∀ k < v.numBreakpoints, ∃ i < u.numBreakpoints,
    (u.breakpoints i).SameEffect (v.breakpoints k)
  which : u.bpAgain = true → (u.breakpoints u.whichBp).SameEffect (v.breakpoints v.whichBp)

/-- An active breakpoint is active in the other session too. -/
theorem Mirrored.exists_active (hm : Mirrored u v) (hi : u.Active i) :
    ∃ k, v.Active k ∧ (u.breakpoints i).SameEffect (v.breakpoints k) := by
  obtain ⟨k, hk, hsame⟩ := hm.left i hi.1
  exact ⟨k, ⟨hk, hsame.active.trans hi.2⟩, hsame⟩

/-- The same addresses have active breakpoints. -/
theorem Mirrored.activeAt (hm : Mirrored u v) : v.ActiveAt a ↔ u.ActiveAt a := by
  constructor
  · rintro ⟨k, hk, rfl⟩
    obtain ⟨i, hi, hsame⟩ := hm.right k hk.1
    exact ⟨i, ⟨hi, hsame.active.symm.trans hk.2⟩, hsame.addr.symm⟩
  · rintro ⟨i, hi, rfl⟩
    obtain ⟨k, hk, hsame⟩ := hm.exists_active hi
    exact ⟨k, hk, hsame.addr⟩

theorem Mirrored.rip_eq (hm : Mirrored u v) : v.rip = u.rip := by
  rw [Session.rip, Session.rip, hm.core]

/-- The tracee stands at an entry of both tables or of neither. -/
theorem Mirrored.bpAddr (hm : Mirrored u v) : v.bpAddr = u.bpAddr := by
  rw [Bool.eq_iff_iff]
  simp only [Session.bpAddr, List.any_eq_true, List.mem_range, decide_eq_true_eq, hm.rip_eq]
  constructor
  · rintro ⟨k, hk, haddr⟩
    obtain ⟨i, hi, hsame⟩ := hm.right k hk
    exact ⟨i, hi, hsame.addr.symm.trans haddr⟩
  · rintro ⟨i, hi, haddr⟩
    obtain ⟨k, hk, hsame⟩ := hm.left i hi
    exact ⟨k, hk, hsame.addr.trans haddr⟩

/-- Moving `rip` keeps the sessions alike, -/
theorem Mirrored.setRip (hm : Mirrored u v) (rip : Addr) :
    Mirrored (u.setRip rip) (v.setRip rip) :=
  { hm with core := congrArg (·.setRip rip) hm.core }

theorem Mirrored.moveBack (hm : Mirrored u v) (n : Addr) :
    Mirrored (u.setRip (u.rip - n)) (v.setRip (v.rip - n)) := by
  rw [hm.rip_eq]
  exact hm.setRip _

/-- and so does lifting a breakpoint, -/
theorem Mirrored.restoreOriginal (hm : Mirrored u v)
    (hsame : (u.breakpoints i).SameEffect (v.breakpoints k)) :
    Mirrored (u.restoreOriginal i) (v.restoreOriginal k) := by
  have hmem : (v.restoreOriginal k).mem = (u.restoreOriginal i).mem := by
    rw [Session.restoreOriginal, Session.restoreOriginal, pokeLow_mem, pokeLow_mem, hm.mem,
      hsame.addr, hsame.original]
  exact { hm with mem := hmem }

/-- planting one, -/
theorem Mirrored.plantAgain (hm : Mirrored u v)
    (hsame : (u.breakpoints i).SameEffect (v.breakpoints k)) :
    Mirrored (u.plantAgain i) (v.plantAgain k) := by
  have hmem : (v.plantAgain k).mem = (u.plantAgain i).mem := by
    rw [Session.plantAgain, Session.plantAgain, pokeLow_mem, pokeLow_mem, hm.mem,
      hsame.addr, hsame.trap]
  exact { hm with mem := hmem }

/-- letting one wait to be planted again, -/
theorem Mirrored.wait (hm : Mirrored u v)
    (hsame : (u.breakpoints i).SameEffect (v.breakpoints k)) :
    Mirrored { u with bpAgain := true, whichBp := i } { v with bpAgain := true, whichBp := k } :=
  { hm with bpAgain := rfl, which := fun _ => hsame }

/-- and a request. -/
theorem Mirrored.run (hm : Mirrored u v) :
    Simulates Mirrored (u.run P mode steps) (v.run P mode steps) := by
  intro u' hok
  obtain ⟨stop, core, hresume, rfl⟩ := run_eq_ok.mp hok
  refine ⟨{ v with core, stop }, run_eq_ok.mpr ⟨stop, core, ?_, rfl⟩, ?_⟩
  · rwa [hm.mem, hm.core]
  · exact { hm with core := rfl, stop := rfl }

/-- The first part of a command keeps the sessions alike, -/
theorem Mirrored.rearm (hm : Mirrored u v) (hagain : u.bpAgain = true) :
    Simulates Mirrored (u.rearm P mode steps) (v.rearm P mode steps) := by
  have hsame := hm.which hagain
  -- the request leaves the waiting breakpoint and its entry as they are
  let R (u' v' : Session γ δ) : Prop := Mirrored u' v' ∧
    (u'.breakpoints u'.whichBp).SameEffect (v'.breakpoints v'.whichBp)
  have hfirst : Simulates R (u.run P mode steps) (v.run P mode steps) := by
    intro u' hok
    obtain ⟨v', hok', hm'⟩ := hm.run u' hok
    obtain ⟨_, _, _, rfl⟩ := run_eq_ok.mp hok
    exact ⟨v', hok', hm', hm'.which hagain⟩
  refine hfirst.bind fun u₁ v₁ ⟨hm₁, hsame₁⟩ => ?_
  have hplanted := hm₁.plantAgain hsame₁
  refine Simulates.bind (R := Mirrored) ?_ fun u₂ v₂ hm₂ => ?_
  · have haddr : (v₁.plantAgain v₁.whichBp).rip = ((v₁.plantAgain v₁.whichBp).breakpoints
        (v₁.plantAgain v₁.whichBp).whichBp).addr ↔
        (u₁.plantAgain u₁.whichBp).rip = ((u₁.plantAgain u₁.whichBp).breakpoints
          (u₁.plantAgain u₁.whichBp).whichBp).addr := by
      rw [hplanted.rip_eq]
      exact Eq.congr_right hsame₁.addr
    simp only [Session.runAgain, haddr]
    split
    · exact hplanted.run
    · exact .pure hplanted
  · refine .pure { hm₂ with bpAgain := rfl, which := ?_ }
    exact fun h => (by cases h)

/-- and so does the way to the stop. -/
theorem Mirrored.stopFor (hm : Mirrored u v) :
    Simulates Mirrored (u.stopFor P steps cmd) (v.stopFor P steps cmd) := by
  cases cmd with
  | si | syscall =>
    simp only [Session.stopFor, stopSI, stopSyscall, hm.bpAgain]
    split
    · next hagain => exact hm.rearm hagain
    · exact hm.run
  | cont =>
    simp only [Session.stopFor, stopCONT, hm.bpAgain]
    split
    · next hagain => exact (hm.rearm hagain).bind fun _ _ hm₁ => hm₁.run
    · exact hm.run

/-! ## `handle_breakpoints` -/

/-- In a table that is kept, whether the tracee stands on the breakpoint with the next number
is a question of the two addresses. -/
theorem atNext_iff (hkept : TableKept s) (hi : s.Active i) :
    s.atNext i = true ↔ s.Next (s.breakpoints i).addr s.rip := by
  simp only [Session.atNext, Bool.and_eq_true, decide_eq_true_eq]
  constructor
  · rintro ⟨⟨haddr, hactive⟩, hlt⟩
    exact ⟨i, hi, rfl, ⟨hlt, hactive⟩, haddr.symm⟩
  · rintro ⟨j, hj, haddr, hnext, haddr'⟩
    obtain rfl := hkept.distinct j i hj hi haddr
    exact ⟨⟨haddr'.symm, hnext.2⟩, hnext.1⟩

/-- Which breakpoint comes right after which depends on the addresses in the table only. -/
theorem SameTable.next (hsame : SameTable s s') : s'.Next a b ↔ s.Next a b := by
  simp only [Session.Next, hsame.active, (hsame.2 _).1]

/-- `handle_breakpoints` leaves the table as it is, except for flags. The induction is on the
breakpoints that it steps over. -/
theorem Handled.sameTable (hhandled : Handled P cmd s rip out s') : SameTable s s' := by
  induction hhandled with
  | nothing | hit => exact .of_eq rfl rfl
  | past hsteps => exact hsteps.sameTable.1.trans (steppedOver_sameTable _ _ _).1
  | next hsteps _ _ ih => exact (hsteps.sameTable.1.trans (steppedOver_sameTable _ _ _).1).trans ih

/-- Clearing the flag of a breakpoint on both sides leaves entries alike. -/
theorem Bp.SameEffect.stepOver (hkept : TableKept u) (hkept' : TableKept v) (hi : u.Active i)
    (hk : v.Active k) (hsame : (u.breakpoints i).SameEffect (v.breakpoints k))
    (hj : j < u.numBreakpoints) (hm : m < v.numBreakpoints)
    (hpair : (u.breakpoints j).SameEffect (v.breakpoints m)) :
    ((u.stepOver i).breakpoints j).SameEffect ((v.stepOver k).breakpoints m) := by
  have hbps : ∀ (s : Session γ δ) i, (s.stepOver i).breakpoints =
      Function.update s.breakpoints i { s.breakpoints i with ignoreRipEqualBreak := false } :=
    fun _ _ => rfl
  rw [hbps, hbps]
  by_cases hji : j = i
  · subst hji
    obtain rfl : m = k := hkept'.distinct m k ⟨hm, hpair.active.trans hi.2⟩ hk
      (hpair.addr.trans hsame.addr.symm)
    rw [Function.update_self, Function.update_self]
    exact { hsame with flag := rfl }
  · have hmk : m ≠ k := by
      rintro rfl
      exact hji (hkept.distinct j i ⟨hj, hpair.active.symm.trans hk.2⟩ hi
        (hpair.addr.symm.trans hsame.addr))
    rw [Function.update_of_ne hji, Function.update_of_ne hmk]
    exact hpair

/-- Lifting a breakpoint to step over it keeps the sessions alike. -/
theorem Mirrored.stepOver (hm : Mirrored u v) (hkept : TableKept u) (hkept' : TableKept v)
    (hi : u.Active i) (hk : v.Active k)
    (hsame : (u.breakpoints i).SameEffect (v.breakpoints k)) :
    Mirrored (u.stepOver i) (v.stepOver k) := by
  have halike : ∀ {j m}, j < u.numBreakpoints → m < v.numBreakpoints →
      (u.breakpoints j).SameEffect (v.breakpoints m) →
      ((u.stepOver i).breakpoints j).SameEffect ((v.stepOver k).breakpoints m) :=
    fun hj hm hpair => hsame.stepOver hkept hkept' hi hk hj hm hpair
  have hmem : ∀ (s : Session γ δ) i, (s.stepOver i).mem = Function.update s.mem
      (s.breakpoints i).addr (byteOf (s.breakpoints i).originalCode 0) := by
    intro s i
    refine (pokeLow_mem _ _ _).trans ?_
    simp [Session.setBp]
  refine { hm with mem := ?_, left := fun j hj => ?_, right := fun n hn => ?_, which := ?_ }
  · rw [hmem, hmem, hm.mem, hsame.addr, hsame.original]
  · obtain ⟨n, hn, hpair⟩ := hm.left j hj
    exact ⟨n, hn, halike hj hn hpair⟩
  · obtain ⟨j, hj, hpair⟩ := hm.right n hn
    exact ⟨j, hj, halike hj hn hpair⟩
  · intro hagain
    exact halike (hkept.waiting hagain) (hkept'.waiting (hm.bpAgain.trans hagain))
      (hm.which hagain)

/-- What follows the request keeps the sessions alike. -/
theorem Mirrored.steppedOver (hm : Mirrored u v)
    (hsame : (u.breakpoints i).SameEffect (v.breakpoints k)) :
    Mirrored (u.steppedOver i cmd) (v.steppedOver k cmd) := by
  have hwait := hm.wait hsame
  cases cmd with
  | si => exact hm.plantAgain hsame
  | cont => exact hwait.moveBack 1
  | syscall =>
    have hcode : v.stop.siCode = u.stop.siCode := by rw [hm.stop]
    simp only [Session.steppedOver, hcode]
    split
    · exact hwait.moveBack 1
    · split
      · exact hwait.moveBack 2
      · exact hwait

/-- A breakpoint that is stepped over in one session can be stepped over in the other. -/
theorem Mirrored.stepsOver (hm : Mirrored u v) (hkept : TableKept u) (hkept' : TableKept v)
    (hi : u.Active i) (hk : v.Active k)
    (hsame : (u.breakpoints i).SameEffect (v.breakpoints k))
    (hrun : ((u.setRip rip).stepOver i).run P mode steps = .ok u₁) :
    ∃ v₁, ((v.setRip rip).stepOver k).run P mode steps = .ok v₁ ∧
      Mirrored (u₁.steppedOver i cmd) (v₁.steppedOver k cmd) := by
  have hmoved : TableKept (u.setRip rip) := ⟨hkept.le_max, hkept.waiting, hkept.distinct⟩
  have hmoved' : TableKept (v.setRip rip) := ⟨hkept'.le_max, hkept'.waiting, hkept'.distinct⟩
  obtain ⟨v₁, hrun', hm₁⟩ := ((hm.setRip rip).stepOver hmoved hmoved' hi hk hsame).run u₁ hrun
  refine ⟨v₁, hrun', hm₁.steppedOver ?_⟩
  rw [run_breakpoints hrun, run_breakpoints hrun']
  exact hsame.stepOver hmoved hmoved' hi hk hi.1 hk.1 hsame

/-- While the order is kept, `handle_breakpoints` reports the same in both sessions. The
induction is on the steps granted. -/
theorem Mirrored.handleBreakpoints (hm : Mirrored u v) (hkept : TableKept u)
    (hkept' : TableKept v)
    (horder : ∀ a b, PassesFrom P cmd u rip a b → (u.Next a b ↔ v.Next a b)) :
    Simulates (fun x y => y.1 = x.1 ∧ Mirrored x.2 y.2) (Sdb.handleBreakpoints P cmd steps u rip)
      (Sdb.handleBreakpoints P cmd steps v rip) := by
  induction steps generalizing u v rip with
  | zero =>
    intro _ hok
    cases hok
  | succ steps ih =>
    have hmoved := hm.setRip (rip - 1)
    rw [handleBreakpoints_succ, handleBreakpoints_succ]
    cases hfind : u.activeAt (rip - 1) with
    | none =>
      rw [activeAt_eq_none, ← hm.activeAt, ← activeAt_eq_none] at hfind
      rw [hfind]
      exact .pure ⟨rfl, hmoved⟩
    | some i =>
      obtain ⟨hi, haddr⟩ := active_of_activeAt hfind
      obtain ⟨k, hk, hsame⟩ := hm.exists_active hi
      have hfind' : v.activeAt (rip - 1) = some k := by
        rw [← haddr, ← hsame.addr]
        exact hkept'.activeAt hk
      rw [hfind']
      simp only [hsame.flag, hsame.addr]
      split
      · next hflag =>
        intro x hok
        obtain ⟨u₁, hrun, hrest⟩ := bind_eq_ok.mp hok
        obtain ⟨v₁, hrun', hm₁⟩ := hm.stepsOver hkept hkept' hi hk hsame hrun
        have hsteps : StepsOver P cmd u rip i u₁ := ⟨hi, haddr, hflag, steps, hrun⟩
        have hsteps' : StepsOver P cmd v rip k v₁ :=
          ⟨hk, hsame.addr.trans haddr, hsame.flag.trans hflag, steps, hrun'⟩
        have hkept₁ := hsteps.tableKept hkept
        have hkept₁' := hsteps'.tableKept hkept'
        have htable := hsteps.sameTable.1.trans (steppedOver_sameTable u₁ i cmd).1
        have htable' := hsteps'.sameTable.1.trans (steppedOver_sameTable v₁ k cmd).1
        have hnext : (v₁.steppedOver k cmd).atNext k = (u₁.steppedOver i cmd).atNext i := by
          rw [Bool.eq_iff_iff, atNext_iff hkept₁ (htable.active.mpr hi),
            atNext_iff hkept₁' (htable'.active.mpr hk), htable.next, htable'.next,
            (htable.2 i).1, (htable'.2 k).1, hsame.addr, hm₁.rip_eq, haddr]
          exact (horder _ _ (.here hsteps)).symm
        have htail : Simulates (fun x y => y.1 = x.1 ∧ Mirrored x.2 y.2)
            (if (u₁.steppedOver i cmd).atNext i then Sdb.handleBreakpoints P cmd steps
              (u₁.steppedOver i cmd) ((u₁.steppedOver i cmd).rip + 1)
            else pure ([], u₁.steppedOver i cmd))
            (if (v₁.steppedOver k cmd).atNext k then Sdb.handleBreakpoints P cmd steps
              (v₁.steppedOver k cmd) ((v₁.steppedOver k cmd).rip + 1)
            else pure ([], v₁.steppedOver k cmd)) := by
          rw [hnext, hm₁.rip_eq]
          split
          · next hat =>
            refine ih hm₁ hkept₁ hkept₁' fun a b hpass => ?_
            rw [htable.next, htable'.next]
            exact horder a b (.later hsteps hat hpass)
          · exact .pure ⟨rfl, hm₁⟩
        obtain ⟨y, hy, hrel⟩ := htail x hrest
        exact ⟨y, bind_eq_ok.mpr ⟨v₁, hrun', hy⟩, hrel⟩
      · exact .pure ⟨rfl, (hmoved.wait hsame).restoreOriginal hsame⟩

/-- A report on a system call depends on nothing in which the sessions differ. -/
theorem Mirrored.reportSyscall (hm : Mirrored u v) :
    (Sdb.reportSyscall v).1 = (Sdb.reportSyscall u).1 ∧
      Mirrored (Sdb.reportSyscall u).2 (Sdb.reportSyscall v).2 := by
  have hcore : v.core.regs = u.core.regs := by rw [hm.core]
  constructor
  · simp only [Sdb.reportSyscall, hcore, hm.enter, hm.preOrigRax, hm.rip_eq]
  · refine { hm with preOrigRax := ?_, enter := ?_ }
    · simp only [Sdb.reportSyscall, hcore]
    · simp only [Sdb.reportSyscall, hcore, hm.enter, hm.preOrigRax]

/-- While the order is kept, a command prints the same in both sessions. -/
theorem Mirrored.perform (hm : Mirrored u v) (hkept : TableKept u) (hkept' : TableKept v)
    (horder : KeepsOrder P u v u cmd) :
    Simulates (fun x y => y.1 = x.1 ∧ Mirrored x.2 y.2) (Sdb.perform P steps u (.resume cmd))
      (Sdb.perform P steps v (.resume cmd)) := by
  rw [perform_resume, perform_resume]
  intro x hok
  obtain ⟨u₁, hstop, hrest⟩ := bind_eq_ok.mp hok
  obtain ⟨v₁, hstop', hm₁⟩ := hm.stopFor u₁ hstop
  have hstopped := stopped_of_stopFor hstop
  have hstopped' := stopped_of_stopFor hstop'
  have hhandles : v₁.handles cmd = u₁.handles cmd := by
    cases cmd <;> simp only [Session.handles, hm₁.stop, hm₁.bpAddr]
  have hhandled : v₁.handled cmd = u₁.handled cmd := by
    cases cmd <;> simp only [Session.handled, hm₁.bpAddr, hm₁.rip_eq]
  have htail : Simulates (fun x y => y.1 = x.1 ∧ Mirrored x.2 y.2)
      (if u₁.handles cmd then Sdb.handleBreakpoints P cmd steps u₁ (u₁.handled cmd)
        else pure (if cmd = .syscall then Sdb.reportSyscall u₁ else ([], u₁)))
      (if v₁.handles cmd then Sdb.handleBreakpoints P cmd steps v₁ (v₁.handled cmd)
        else pure (if cmd = .syscall then Sdb.reportSyscall v₁ else ([], v₁))) := by
    rw [hhandles, hhandled]
    split
    · next hcalls =>
      refine hm₁.handleBreakpoints (hstopped.tableKept hkept) (hstopped'.tableKept hkept')
        fun a b hpass => ?_
      rw [hstopped.sameTable.1.next, hstopped'.sameTable.1.next]
      exact horder u₁ hstopped ((handles_iff hstopped).mp hcalls) a b hpass
    · refine .pure ?_
      split
      · exact hm₁.reportSyscall
      · exact ⟨rfl, hm₁⟩
  obtain ⟨y, hy, hrel⟩ := htail x hrest
  exact ⟨y, bind_eq_ok.mpr ⟨v₁, hstop', hy⟩, hrel⟩

/-- `si`, `cont` and `syscall` leave the table as it is, except for flags. -/
theorem resume_sameTable (hok : perform P steps s (.resume cmd) = .ok (out, s')) :
    SameTable s s' := by
  obtain ⟨s₁, hstopped, hended⟩ := resume_cases hok
  have hsame := hstopped.sameTable.1
  cases hended with
  | plain => exact hsame
  | reported => exact hsame.trans (.of_eq rfl rfl)
  | handled _ hhandled => exact hsame.trans hhandled.sameTable

/-! ## Setting the breakpoints -/

/-- What setting breakpoints at the addresses of a list leaves, in terms of the session
before: it depends on the addresses, but not on their order. -/
structure Planted (s : Session γ δ) (l : List Addr) (t : Session γ δ) : Prop where
  planted : ∀ x ∈ l, ¬s.ActiveAt x → t.mem x = byteOf int3 0
  plain : ∀ x, (x ∈ l → s.ActiveAt x) → t.mem x = s.mem x
  core : t.core = s.core
  stop : t.stop = s.stop
  preOrigRax : t.preOrigRax = s.preOrigRax
  enter : t.enter = s.enter
  bpAgain : t.bpAgain = s.bpAgain
  whichBp : t.whichBp = s.whichBp
  le : s.numBreakpoints ≤ t.numBreakpoints
  old : ∀ i < s.numBreakpoints, t.breakpoints i = s.breakpoints i
  new : ∀ i < t.numBreakpoints, s.numBreakpoints ≤ i →
    ∃ x ∈ l, ¬s.ActiveAt x ∧ (newBp s x).SameEffect (t.breakpoints i)
  all : ∀ x ∈ l, ¬s.ActiveAt x →
    ∃ i < t.numBreakpoints, (newBp s x).SameEffect (t.breakpoints i)

theorem Bp.SameEffect.rfl {b : Bp} : b.SameEffect b := ⟨by rfl, by rfl, by rfl, by rfl, by rfl⟩

theorem Bp.SameEffect.trans {b b' b'' : Bp} (h : b.SameEffect b') (h' : b'.SameEffect b'') :
    b.SameEffect b'' :=
  ⟨h'.addr.trans h.addr, h'.active.trans h.active, h'.flag.trans h.flag,
    h'.original.trans h.original, h'.trap.trans h.trap⟩

theorem Bp.SameEffect.symm {b b' : Bp} (h : b.SameEffect b') : b'.SameEffect b :=
  ⟨h.addr.symm, h.active.symm, h.flag.symm, h.original.symm, h.trap.symm⟩

theorem withBp_activeAt : (withBp s a).ActiveAt b ↔ b = a ∨ s.ActiveAt b := by
  constructor
  · rintro ⟨i, hi, rfl⟩
    obtain rfl | hi := withBp_active.mp hi
    · rw [withBp_new]
      exact .inl rfl
    · rw [withBp_breakpoints hi.1]
      exact .inr ⟨i, hi, rfl⟩
  · rintro (rfl | ⟨i, hi, rfl⟩)
    · refine ⟨s.numBreakpoints, withBp_active.mpr (.inl rfl), ?_⟩
      rw [withBp_new]
      rfl
    · refine ⟨i, withBp_active.mpr (.inr hi), ?_⟩
      rw [withBp_breakpoints hi.1]

/-- A breakpoint set earlier at another address does not change the new entry. -/
theorem newBp_withBp (hne : b ≠ a) : (newBp s b).SameEffect (newBp (withBp s a) b) := by
  have hmem : (withBp s a).mem b = s.mem b :=
    (congrFun (pokeLow_mem s a int3) b).trans (Function.update_of_ne hne ..)
  have hlow : ∀ s : Session γ δ, byteOf (newBp s b).originalCode 0 = s.mem b := by
    intro s
    have hbyte : byteOf (newBp s b).originalCode 0 = s.mem (b + BitVec.ofNat 64 0) :=
      ByteMemory.byteOf_peek (by decide)
    simpa using hbyte
  refine ⟨rfl, rfl, rfl, ?_, ?_⟩
  · rw [hlow, hlow, hmem]
  · exact (byteOf_withLow_zero _ _).trans (byteOf_withLow_zero _ _).symm

/-- An address that has a breakpoint already is passed over. -/
theorem Planted.cons_active (hp : Planted s l t) (hactive : s.ActiveAt a) :
    Planted s (a :: l) t := by
  refine { hp with planted := ?_, plain := ?_, new := ?_, all := ?_ }
  · simp only [List.mem_cons, forall_eq_or_imp]
    exact ⟨fun h => absurd hactive h, hp.planted⟩
  · exact fun x hx => hp.plain x fun hmem => hx (List.mem_cons_of_mem a hmem)
  · intro i hi hle
    obtain ⟨x, hx, hnew⟩ := hp.new i hi hle
    exact ⟨x, List.mem_cons_of_mem a hx, hnew⟩
  · simp only [List.mem_cons, forall_eq_or_imp]
    exact ⟨fun h => absurd hactive h, hp.all⟩

/-- Another address gets an entry. -/
theorem Planted.cons_free (hp : Planted (withBp s a) l t) (hfree : ¬s.ActiveAt a)
    (hfresh : a ∉ l) : Planted s (a :: l) t := by
  have hmem : (withBp s a).mem = Function.update s.mem a (byteOf int3 0) := pokeLow_mem s a int3
  have hne : ∀ x ∈ l, x ≠ a := fun x hx heq => hfresh (heq ▸ hx)
  have hroom : s.numBreakpoints < t.numBreakpoints := hp.le
  have hentry : t.breakpoints s.numBreakpoints = newBp s a :=
    (hp.old _ (Nat.lt_succ_self _)).trans (withBp_new s a)
  have hfree' : ∀ x ∈ l, ¬s.ActiveAt x → ¬(withBp s a).ActiveAt x := by
    intro x hx hx'
    rw [withBp_activeAt, not_or]
    exact ⟨hne x hx, hx'⟩
  refine { hp with planted := ?_, plain := ?_, le := hroom.le, old := ?_, new := ?_, all := ?_ }
  · intro x hx hx'
    obtain rfl | hx := List.mem_cons.mp hx
    · rw [hp.plain x fun h => absurd h hfresh, hmem, Function.update_self]
    · exact hp.planted x hx (hfree' x hx hx')
  · intro x hx
    have hxa : x ≠ a := fun heq => hfree (heq ▸ hx (heq ▸ List.mem_cons_self))
    rw [hp.plain x fun h => withBp_activeAt.mpr (.inr (hx (List.mem_cons_of_mem a h))), hmem,
      Function.update_of_ne hxa]
  · exact fun i hi => (hp.old i (Nat.lt_succ_of_lt hi)).trans (withBp_breakpoints hi)
  · intro i hi hle
    by_cases heq : i = s.numBreakpoints
    · rw [heq, hentry]
      exact ⟨a, List.mem_cons_self, hfree, .rfl⟩
    · have hle' : s.numBreakpoints + 1 ≤ i := by omega
      obtain ⟨x, hx, hx', hsame⟩ := hp.new i hi hle'
      rw [withBp_activeAt, not_or] at hx'
      exact ⟨x, List.mem_cons_of_mem a hx, hx'.2, (newBp_withBp hx'.1).trans hsame⟩
  · intro x hx hx'
    obtain rfl | hx := List.mem_cons.mp hx
    · exact ⟨s.numBreakpoints, hroom, hentry ▸ .rfl⟩
    · obtain ⟨i, hi, hsame⟩ := hp.all x hx (hfree' x hx hx')
      exact ⟨i, hi, (newBp_withBp (hne x hx)).trans hsame⟩

/-- The induction is on the list; each command enters one breakpoint or finds one. -/
theorem planted_of_script (hnodup : l.Nodup)
    (hok : script P steps s (l.map .brk) = .ok t) : Planted s l t := by
  induction l generalizing s with
  | nil =>
    obtain rfl : s = t := Except.ok.inj hok
    refine ⟨by simp, fun _ _ => rfl, rfl, rfl, rfl, rfl, rfl, rfl, le_rfl, fun _ _ => rfl, ?_,
      by simp⟩
    intro i hi hle
    omega
  | cons a l ih =>
    obtain ⟨hfresh, hnodup⟩ := List.nodup_cons.mp hnodup
    obtain ⟨s₁, ⟨_, _, hset⟩, hrest⟩ := script_cons hok
    have hp := ih hnodup hrest
    obtain ⟨hactive, rfl⟩ | ⟨hfree, rfl⟩ := setBreakpoints_cases hset
    · exact hp.cons_active hactive
    · exact hp.cons_free hfree hfresh

/-- The memory is the same after every order. -/
theorem Planted.mem_eq (hp₁ : Planted s l₁ t₁) (hp₂ : Planted s l₂ t₂)
    (hmem : ∀ x, x ∈ l₁ ↔ x ∈ l₂) : t₂.mem = t₁.mem := by
  funext x
  by_cases hx : x ∈ l₁ ∧ ¬s.ActiveAt x
  · rw [hp₁.planted x hx.1 hx.2, hp₂.planted x ((hmem x).mp hx.1) hx.2]
  · have hplain : x ∈ l₁ → s.ActiveAt x := fun h => by_contra fun h' => hx ⟨h, h'⟩
    rw [hp₁.plain x hplain, hp₂.plain x fun h => hplain ((hmem x).mpr h)]

/-- Every entry has its counterpart after every order. -/
theorem Planted.entry (hp₁ : Planted s l₁ t₁) (hp₂ : Planted s l₂ t₂)
    (hmem : ∀ x, x ∈ l₁ ↔ x ∈ l₂) (hi : i < t₁.numBreakpoints) :
    ∃ k < t₂.numBreakpoints, (t₁.breakpoints i).SameEffect (t₂.breakpoints k) := by
  by_cases hold : i < s.numBreakpoints
  · refine ⟨i, hold.trans_le hp₂.le, ?_⟩
    rw [hp₁.old i hold, hp₂.old i hold]
    exact .rfl
  · obtain ⟨x, hx, hfree, hsame⟩ := hp₁.new i hi (by omega)
    obtain ⟨k, hk, hsame'⟩ := hp₂.all x ((hmem x).mp hx) hfree
    exact ⟨k, hk, hsame.symm.trans hsame'⟩

/-- Two orders of the same breakpoints lead to sessions that differ in their numbers only. -/
theorem Planted.mirrored (hp₁ : Planted s l₁ t₁) (hp₂ : Planted s l₂ t₂)
    (hmem : ∀ x, x ∈ l₁ ↔ x ∈ l₂)
    (hwaiting : s.bpAgain = true → s.whichBp < s.numBreakpoints) : Mirrored t₁ t₂ where
  mem := hp₁.mem_eq hp₂ hmem
  core := hp₂.core.trans hp₁.core.symm
  stop := hp₂.stop.trans hp₁.stop.symm
  preOrigRax := hp₂.preOrigRax.trans hp₁.preOrigRax.symm
  enter := hp₂.enter.trans hp₁.enter.symm
  bpAgain := hp₂.bpAgain.trans hp₁.bpAgain.symm
  left _ hi := hp₁.entry hp₂ hmem hi
  right k hk := by
    obtain ⟨i, hi, hsame⟩ := hp₂.entry hp₁ (fun x => (hmem x).symm) hk
    exact ⟨i, hi, hsame.symm⟩
  which hagain := by
    have hlt := hwaiting (hp₁.bpAgain.symm.trans hagain)
    rw [hp₁.whichBp, hp₂.whichBp, hp₁.old _ hlt, hp₂.old _ hlt]
    exact .rfl

/-! ## Whole sessions -/

/-- A list of commands keeps the table. -/
theorem TableKept.script {cs : List Command} (hkept : TableKept s)
    (hok : Sdb.script P steps s cs = .ok t) : TableKept t := by
  induction cs generalizing s with
  | nil =>
    obtain rfl : s = t := Except.ok.inj hok
    exact hkept
  | cons c cs ih =>
    obtain ⟨s₁, hstep, hrest⟩ := script_cons hok
    exact ih (hkept.step hstep) hrest

/-- What the two sessions have in common at every prompt. -/
structure Alike (t₁ t₂ u v : Session γ δ) : Prop where
  mirrored : Mirrored u v
  left : TableKept u ∧ SameTable t₁ u
  right : TableKept v ∧ SameTable t₂ v

/-- A command that keeps the order has the same report in both sessions. -/
theorem Alike.reports {r : Report} (halike : Alike t₁ t₂ u v) (horder : KeepsOrder P t₁ t₂ u r.cmd)
    (hreports : Reports P u r u') : ∃ v', Reports P v r v' ∧ Alike t₁ t₂ u' v' := by
  obtain ⟨hm, ⟨hkept, htable⟩, hkept', htable'⟩ := halike
  obtain ⟨steps, out, hok, hstop, hhits⟩ := hreports
  have horder' : KeepsOrder P u v u r.cmd := by
    intro u₁ hstopped hhandle a b hpass
    rw [htable.next, htable'.next]
    exact horder u₁ hstopped hhandle a b hpass
  obtain ⟨⟨out', v'⟩, hok', rfl, hm'⟩ := hm.perform hkept hkept' horder' _ hok
  refine ⟨v', ⟨steps, out', hok', hm'.rip_eq.trans hstop, hhits⟩, hm', ?_, ?_⟩
  · exact ⟨hkept.step ⟨steps, out', hok⟩, htable.trans (resume_sameTable hok)⟩
  · exact ⟨hkept'.step ⟨steps, out', hok'⟩, htable'.trans (resume_sameTable hok')⟩

/-- For every program, every session, distinct addresses and two orders of setting
breakpoints at them: commands that keep the order have the same reports in both
sessions. -/
theorem sameReports_run (P : Program γ δ) {mem : ByteMemory 64} {regs : Regs γ} {data : δ}
    (hreach : Reachable (.load mem regs data) (Step P) s) {n₁ n₂ : ℕ} (hnodup : l₁.Nodup)
    (hperm : l₁.Perm l₂) (hset₁ : script P n₁ s (l₁.map .brk) = .ok t₁)
    (hset₂ : script P n₂ s (l₂.map .brk) = .ok t₂) {history : List (Session γ δ × Report)}
    (hrun : Run t₁ (Reports P) history u)
    (horder : EachStep (fun u r => KeepsOrder P t₁ t₂ u r.cmd) history) :
    SameReports P t₂ history := by
  have hkept : TableKept s :=
    hreach.invariant (tableKept_load mem regs data) fun _ _ _ hkept hstep => hkept.step hstep
  have hmirrored : Mirrored t₁ t₂ := (planted_of_script hnodup hset₁).mirrored
    (planted_of_script (hperm.nodup_iff.mp hnodup) hset₂) (fun _ => hperm.mem_iff) hkept.waiting
  have halike : Alike t₁ t₂ t₁ t₂ :=
    ⟨hmirrored, ⟨hkept.script hset₁, .of_eq rfl rfl⟩, hkept.script hset₂, .of_eq rfl rfl⟩
  have hstep : ∀ u v r u', Alike t₁ t₂ u v → true = true → KeepsOrder P t₁ t₂ u r.cmd →
      Reports P u r u' → ∃ v', Reports P v r v' ∧ Alike t₁ t₂ u' v' :=
    fun _ _ _ _ halike _ horder hreports => halike.reports horder hreports
  obtain ⟨history', t', hrun', hlabels, _⟩ :=
    hrun.project halike hstep (fun _ _ _ _ _ h => by cases h) horder
  rw [List.filter_true] at hlabels
  refine ⟨⟨history', t', hrun', hlabels⟩, fun history'' t'' hrun'' hcmds => ?_⟩
  have hcmds' := congrArg (List.map Report.cmd) hlabels
  simp only [List.map_map, Function.comp_def] at hcmds'
  obtain ⟨rfl, -⟩ :=
    Run.eq_of_labels Report.cmd reports_unique hrun'' hrun' (hcmds.trans hcmds'.symm)
  exact hlabels

/-- While no breakpoint waits and no flag is set, no breakpoint is stepped over. -/
theorem keepsOrder_of_flags (hagain : s.bpAgain = false)
    (hflags : ∀ i, (s.breakpoints i).ignoreRipEqualBreak = false) :
    KeepsOrder P t₁ t₂ s cmd := by
  intro s₁ hstopped _ a b hpass
  have hflag : ∃ i, (s₁.breakpoints i).ignoreRipEqualBreak = true := by
    cases hpass with
    | here hsteps | later hsteps => exact ⟨_, hsteps.2.2.1⟩
  obtain ⟨i, hflag⟩ := hflag
  rw [hstopped.breakpoints hagain, hflags i] at hflag
  cases hflag

/-- A command of the sample program, with its report. -/
theorem exists_reports {s : Session Unit Unit} {r : Report}
    (hview : (perform sampleProgram 20 s (.resume r.cmd)).toOption.map
      (fun x => (x.2.rip, hits x.1)) = some (r.stop, r.hits)) :
    ∃ s', Reports sampleProgram s r s' := by
  cases hok : perform sampleProgram 20 s (.resume r.cmd) with
  | error e => simp [hok, Except.toOption] at hview
  | ok x =>
    simp only [hok, Except.toOption, Option.map_some, Option.some.injEq, Prod.mk.injEq] at hview
    exact ⟨x.2, 20, x.1, hok, hview.1, hview.2⟩

/-- Two breakpoints ahead of the tracee, in both orders. -/
theorem sameReports_run_ahead : ∃ history u,
    Run (withBp (withBp (sampleSession 0) 5) 7) (Reports sampleProgram) history u ∧
      history.map Prod.snd = [⟨.cont, 5, [5]⟩] ∧
      SameReports sampleProgram (withBp (withBp (sampleSession 0) 7) 5) history := by
  let t₁ := withBp (withBp (sampleSession 0) 5) 7
  obtain ⟨u, hreports⟩ := exists_reports (s := t₁) (r := ⟨.cont, 5, [5]⟩) (by decide)
  have hrun := Run.start.step hreports
  have hset₁ : script sampleProgram 0 (sampleSession 0) ([5, 7].map .brk) = .ok t₁ := rfl
  have hset₂ : script sampleProgram 0 (sampleSession 0) ([7, 5].map .brk) = .ok
    (withBp (withBp (sampleSession 0) 7) 5) := rfl
  refine ⟨_, u, hrun, rfl, sameReports_run sampleProgram reachable_init (by decide)
    (.swap 7 5 []) hset₁ hset₂ hrun ?_⟩
  rw [eachStep_cons]
  refine ⟨keepsOrder_of_flags rfl fun i => ?_, eachStep_nil⟩
  match i with
  | 0 | 1 | _ + 2 => rfl

/-- One of two breakpoints is at the address of the tracee. `cont` steps over it, and reports
the other one as hit when it comes right after it in the table. -/
theorem not_sameReports_break_here : ¬∀ (l₁ l₂ : List Addr) (t₁ t₂ : Session Unit Unit),
    l₁.Nodup → l₁.Perm l₂ → script sampleProgram 0 (sampleSession 0) (l₁.map .brk) = .ok t₁ →
    script sampleProgram 0 (sampleSession 0) (l₂.map .brk) = .ok t₂ →
    ∀ history u, Run t₁ (Reports sampleProgram) history u →
      SameReports sampleProgram t₂ history := by
  intro hall
  obtain ⟨u, hreports⟩ := exists_reports (s := withBp (withBp (sampleSession 0) 0) 5)
    (r := ⟨.cont, 5, [5]⟩) (by decide)
  obtain ⟨v, hreports'⟩ := exists_reports (s := withBp (withBp (sampleSession 0) 5) 0)
    (r := ⟨.cont, 5, []⟩) (by decide)
  have hsame := hall [0, 5] [5, 0] _ _ (by decide) (.swap 5 0 []) rfl rfl _ u
    (Run.start.step hreports)
  have hlabels := hsame.2 _ v (Run.start.step hreports') rfl
  simp at hlabels

end UnixProgramming.Sdb
