import UnixProgramming.Lib.Registers
import UnixProgramming.Sdb.CommandLine
import UnixProgramming.Sdb.Order

/-!
# The list of breakpoints

What `info break` prints after any commands is a register of addresses: `break` enters an
address, `delete` removes the row with a number, and no other command changes it. So the numbers
ascend, and none is given out again.
-/

namespace UnixProgramming.Sdb

variable {γ δ : Type} {P : Program γ δ} {mem : ByteMemory 64} {regs : Regs γ} {data : δ}
variable {s s₁ s' : Session γ δ} {c : Command} {cmd : Resume} {mode : Mode} {steps i : ℕ}
variable {rip a : Addr} {out : List Output} {history : List (Session γ δ × Command)}

/-! ## The numbers -/

/-- `id` of the entries. -/
def Session.ids (s : Session γ δ) (i : ℕ) : ℕ := (s.breakpoints i).id

/-- Overwriting an entry with one that has its number. -/
theorem ids_of_update {b : Bp} (hbps : s'.breakpoints = Function.update s.breakpoints i b)
    (hid : b.id = (s.breakpoints i).id) : s'.ids = s.ids := by
  funext j
  rw [Session.ids, Session.ids, hbps]
  by_cases hji : j = i
  · subst hji
    rw [Function.update_self, hid]
  · rw [Function.update_of_ne hji]

theorem ids_of_eq (hbps : s'.breakpoints = s.breakpoints) : s'.ids = s.ids := by
  funext j
  rw [Session.ids, Session.ids, hbps]

/-- The numbers are the same at the stop, -/
theorem Stopped.ids (hstopped : Stopped P cmd s s') : s'.ids = s.ids := by
  have hrearmed : ∀ {mode} {s s' : Session γ δ}, Rearmed P mode s s' →
      s'.breakpoints = s.breakpoints := by
    rintro mode s s' (⟨hrun, -⟩ | ⟨hrun, -, hrun'⟩)
    · have hbefore := run_breakpoints hrun
      exact hbefore
    · have hbefore := run_breakpoints hrun
      exact (run_breakpoints hrun').trans hbefore
  refine ids_of_eq ?_
  cases hstopped with
  | once _ hrun => exact run_breakpoints hrun
  | again _ _ h => exact hrearmed h
  | onward _ h hrun => exact (run_breakpoints hrun).trans (hrearmed h)

/-- where they stay the same, -/
theorem Handled.ids (hhandled : Handled P cmd s rip out s') : s'.ids = s.ids := by
  have hover : ∀ {s s₁ : Session γ δ} {rip i}, StepsOver P cmd s rip i s₁ →
      (s₁.steppedOver i cmd).ids = s.ids := by
    rintro s s₁ rip i ⟨_, _, _, steps, hrun⟩
    have hpast : (s₁.steppedOver i cmd).ids = s₁.ids := by
      cases cmd with
      | si | cont => rfl
      | syscall =>
        simp only [Session.steppedOver]
        split
        · rfl
        · split <;> rfl
    refine (hpast.trans (ids_of_eq (run_breakpoints hrun))).trans ?_
    exact ids_of_update (i := i) rfl rfl
  induction hhandled with
  | nothing | hit => rfl
  | past hsteps => exact hover hsteps
  | next hsteps _ _ ih => exact ih.trans (hover hsteps)

/-- after every command of this kind, -/
theorem resume_ids (hok : perform P steps s (.resume cmd) = .ok (out, s')) : s'.ids = s.ids := by
  obtain ⟨s₁, hstopped, hended⟩ := resume_cases hok
  cases hended with
  | plain => exact hstopped.ids
  | reported => exact hstopped.ids
  | handled _ hhandled => exact hhandled.ids.trans hstopped.ids

/-- and after a patch. -/
theorem patchBytes_ids (s : Session γ δ) (addr : Addr) (value : Word) (is : List ℕ) :
    (is.foldl (fun s i => patchByte s addr value i) s).ids = s.ids := by
  induction is generalizing s with
  | nil => rfl
  | cons i is ih =>
    refine (ih (patchByte s addr value i)).trans ?_
    unfold patchByte
    dsimp only
    split
    · rfl
    · next j _ => exact ids_of_update (i := j) rfl rfl

/-! ## The register -/

/-- What a command does to the register. -/
def afterCommand (r : Register Addr) : Command → Register Addr
  | .brk addr => r.enter addr
  | .delete (.ofNat k) => r.remove k
  | _ => r

/-- The register after the commands of a run. -/
def registered (history : List (Session γ δ × Command)) : Register Addr :=
  history.foldr (fun x r => afterCommand r x.2) .empty

/-- The rows of the active breakpoints. -/
def Session.rows (s : Session γ δ) (n : ℕ) : List (ℕ × Addr) :=
  ((List.range n).filter fun i => (s.breakpoints i).active).map fun i => (i, (s.breakpoints i).addr)

/-- The table holds a register: its entries are numbered, and the active ones are the rows. -/
structure Holds (s : Session γ δ) (r : Register Addr) : Prop where
  next : s.numBreakpoints = r.next
  rows : s.rows s.numBreakpoints = r.rows
  ids : ∀ i < s.numBreakpoints, s.ids i = i

variable {r : Register Addr}

/-- A row for each active breakpoint. -/
theorem mem_rows {row : ℕ × Addr} : row ∈ s.rows s.numBreakpoints ↔
    s.Active row.1 ∧ (s.breakpoints row.1).addr = row.2 := by
  obtain ⟨i, a⟩ := row
  simp only [Session.rows, List.mem_map, List.mem_filter, List.mem_range, Session.Active,
    Prod.mk.injEq]
  constructor
  · rintro ⟨j, hj, rfl, rfl⟩
    exact ⟨hj, rfl⟩
  · rintro ⟨hi, rfl⟩
    exact ⟨i, hi, rfl, rfl⟩

theorem Holds.activeAt_iff (hholds : Holds s r) : s.ActiveAt a ↔ a ∈ r.rows.map Prod.snd := by
  rw [← hholds.rows, List.mem_map]
  constructor
  · rintro ⟨i, hactive, haddr⟩
    exact ⟨(i, a), mem_rows.mpr ⟨hactive, haddr⟩, rfl⟩
  · rintro ⟨row, hrow, rfl⟩
    exact ⟨row.1, (mem_rows.mp hrow).1, (mem_rows.mp hrow).2⟩

/-- The same table with the same numbers holds the same register. -/
theorem Holds.of_sameTable (hholds : Holds s r) (hsame : SameTable s s') (hids : s'.ids = s.ids) :
    Holds s' r := by
  refine ⟨hsame.1.trans hholds.next, ?_, fun i hi => hids ▸ hholds.ids i (hsame.1 ▸ hi)⟩
  rw [← hholds.rows, hsame.1]
  simp only [Session.rows, (hsame.2 _).1, (hsame.2 _).2]

/-- A new breakpoint has the next number. -/
theorem Holds.withBp (hholds : Holds s r) (hfree : ¬s.ActiveAt a) :
    Holds (withBp s a) (r.enter a) := by
  obtain ⟨hnext, hrows⟩ := Register.enter_of_notMem (mt hholds.activeAt_iff.mpr hfree)
  have hold : ∀ i < s.numBreakpoints, (Sdb.withBp s a).breakpoints i = s.breakpoints i :=
    fun i hi => withBp_breakpoints hi
  have hkept : (Sdb.withBp s a).rows s.numBreakpoints = s.rows s.numBreakpoints := by
    unfold Session.rows
    rw [List.filter_congr fun i hi => by rw [hold i (List.mem_range.mp hi)]]
    refine List.map_congr_left fun i hi => ?_
    rw [hold i (List.mem_range.mp (List.mem_of_mem_filter hi))]
  have hadded : (Sdb.withBp s a).rows (s.numBreakpoints + 1) =
      (Sdb.withBp s a).rows s.numBreakpoints ++ [(s.numBreakpoints, a)] := by
    simp only [Session.rows, List.range_succ, List.filter_append, List.map_append]
    simp [newBp]
  refine ⟨?_, ?_, fun i hi => ?_⟩
  · rw [hnext, ← hholds.next]
    rfl
  · rw [hrows, ← hholds.rows, ← hholds.next, ← hkept]
    exact hadded
  · by_cases hnew : i = s.numBreakpoints
    · subst hnew
      rw [Session.ids, withBp_new]
      rfl
    · have hlt : i < s.numBreakpoints := by
        have : i < s.numBreakpoints + 1 := hi
        omega
      rw [Session.ids, hold i hlt]
      exact hholds.ids i hlt

/-- A breakpoint that is deleted has no row any more. -/
theorem Holds.withoutBp (hholds : Holds s r) (i : ℕ) : Holds (withoutBp s i) (r.remove i) := by
  have hactive : ∀ j, ((Sdb.withoutBp s i).breakpoints j).active =
      ((s.breakpoints j).active && decide (j ≠ i)) := by
    intro j
    by_cases hji : j = i
    · subst hji
      simp [Sdb.withoutBp, Session.setBp]
    · simp [Sdb.withoutBp, Session.setBp, Session.poke, hji]
  refine ⟨hholds.next, ?_, fun j hj => ?_⟩
  · change (Sdb.withoutBp s i).rows s.numBreakpoints = r.rows.filter (·.1 ≠ i)
    rw [← hholds.rows]
    simp only [Session.rows, hactive, (withoutBp_breakpoints s i _).1, List.filter_map,
      List.filter_filter, Function.comp_def]
    congr 1
    exact List.filter_congr fun j _ => Bool.and_comm ..
  · have hids : (Sdb.withoutBp s i).ids = s.ids := ids_of_update (i := i) rfl rfl
    rw [hids]
    exact hholds.ids j hj

/-- Without an active breakpoint of the number there is no row to remove. -/
theorem Holds.remove (hholds : Holds s r) {k : ℕ} (hinactive : ¬s.Active k) : r.remove k = r := by
  refine Register.remove_of_absent fun row hrow => ?_
  rintro rfl
  rw [← hholds.rows] at hrow
  exact hinactive (mem_rows.mp hrow).1

/-- Every command does to the table what it does to the register. -/
theorem Holds.step (hholds : Holds s r) (hstep : Step P s c s') : Holds s' (afterCommand r c) := by
  obtain ⟨steps, out, hok⟩ := hstep
  cases c with
  | brk a =>
    obtain ⟨hactive, rfl⟩ | ⟨hfree, rfl⟩ := setBreakpoints_cases hok
    · rw [afterCommand, Register.enter_of_mem (hholds.activeAt_iff.mp hactive)]
      exact hholds
    · exact hholds.withBp hfree
  | delete id =>
    obtain ⟨hge, rfl⟩ | ⟨i, rfl, hi, ⟨hinactive, rfl⟩ | ⟨_, rfl⟩⟩ := deleteBreakpoint_cases hok
    · obtain ⟨k, rfl⟩ := Int.eq_ofNat_of_zero_le (show 0 ≤ id by omega)
      have hafter : afterCommand r (.delete k) = r :=
        hholds.remove fun hactive => absurd hactive.1 (by omega)
      rw [hafter]
      exact hholds
    · have hafter : afterCommand r (.delete i) = r :=
        hholds.remove fun hactive => by simp [hactive.2] at hinactive
      rw [hafter]
      exact hholds.of_sameTable (.of_eq rfl rfl) rfl
    · exact hholds.withoutBp i
  | patch addr value len hlen =>
    obtain ⟨_, rfl⟩ := Prod.mk.inj (Except.ok.inj hok)
    have hsame := (patchBytes_sameTable s addr value (List.range len)).1
    exact hholds.of_sameTable hsame (patchBytes_ids s addr value _)
  | resume cmd => exact hholds.of_sameTable (resume_sameTable hok) (resume_ids hok)

/-- After every run the table holds the register of its commands. -/
theorem holds_registered (hrun : Run (Session.load mem regs data) (Step P) history s) :
    Holds s (registered history) := by
  induction hrun with
  | start => exact ⟨rfl, rfl, fun i hi => absurd hi (Nat.not_lt_zero i)⟩
  | step _ hstep ih => exact ih.step hstep

/-- How a register is printed. -/
def printRegister (r : Register Addr) : List (Message γ) :=
  if r.next = 0 then []
  else if r.rows = [] then [.noBreakpoints]
  else .numAddress :: r.rows.map fun row => .breakpoint row.1 row.2

/-- `info break` prints the register of all commands before it. -/
theorem infoBreak_run (hrun : Run (Session.load mem regs data) (Step P) history s) :
    printBreakpoints s = printRegister (registered history) := by
  obtain ⟨hnext, hrows, hids⟩ := holds_registered hrun
  have hrow : ∀ i ∈ (List.range s.numBreakpoints).filter (fun i => (s.breakpoints i).active),
      (Message.breakpoint (s.breakpoints i).id (s.breakpoints i).addr : Message γ) =
        .breakpoint i (s.breakpoints i).addr := by
    intro i hi
    have hid : (s.breakpoints i).id = i := hids i (List.mem_range.mp (List.mem_of_mem_filter hi))
    rw [hid]
  rw [printBreakpoints, printRegister, ← hnext, ← hrows]
  simp only [Session.rows, List.map_eq_nil_iff, List.map_map, Function.comp_def,
    List.map_congr_left hrow]

theorem infoBreak_run_delete : ∃ history s,
    history.map Prod.snd = [.delete 0, .brk 0x300, .brk 0x200] ∧
      Run (sampleSession 0x100) (Step sampleProgram) history s ∧
      printBreakpoints s = printRegister (registered history) := by
  have hfirst : Step sampleProgram (sampleSession 0x100) (.brk 0x200)
      (withBp (sampleSession 0x100) 0x200) := ⟨0, _, rfl⟩
  have hsecond : Step sampleProgram (withBp (sampleSession 0x100) 0x200) (.brk 0x300)
      (withBp (withBp (sampleSession 0x100) 0x200) 0x300) := ⟨0, _, rfl⟩
  have hthird : Step sampleProgram (withBp (withBp (sampleSession 0x100) 0x200) 0x300) (.delete 0)
      (withoutBp (withBp (withBp (sampleSession 0x100) 0x200) 0x300) 0) := ⟨0, _, rfl⟩
  have hrun := ((Run.start.step hfirst).step hsecond).step hthird
  exact ⟨_, _, rfl, hrun, infoBreak_run hrun⟩

end UnixProgramming.Sdb
