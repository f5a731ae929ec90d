import UnixProgramming.Lib.Loops
import UnixProgramming.Mazemod.Device

/-!
# The slot table

What the slots are for, without the contents of the mazes: a pid for each slot,
whether the slot has a maze, and the two flags. Every operation that returns acts
on this table as the function `SlotTable.after` says, whatever random numbers or
moves it was given; the statements about slots are proved of the table.
-/

namespace UnixProgramming.Mazemod

/-- The two slot arrays and the two flags of the module. -/
@[ext] structure SlotTable where
  pid : Slot → ℕ
  live : Slot → Bool
  errorNo : ℤ
  onlyForQ3 : Bool

/-- The table of a state. -/
def State.table (s : State) : SlotTable where
  pid := s.pids
  live := fun i => (s.mazeUserInfo i).isSome
  errorNo := s.errorNo
  onlyForQ3 := s.onlyForQ3

namespace SlotTable

/-- The first slot of a process. -/
def user (t : SlotTable) (p : Process) : Option Slot :=
  (List.finRange mazeMaxUser).find? fun i => t.pid i = p.pid

/-- The first slot without a pid. -/
def vacant (t : SlotTable) : Option Slot :=
  (List.finRange mazeMaxUser).find? fun i => t.pid i = 0

/-- The process finds a maze in its first slot. -/
def HasMaze (t : SlotTable) (p : Process) : Prop := ∃ i, t.user p = some i ∧ t.live i = true

instance (t : SlotTable) (p : Process) : Decidable (t.HasMaze p) :=
  inferInstanceAs (Decidable (∃ _, _))

/-- Give the first vacant slot to a process, with a maze. -/
def take (t : SlotTable) (p : Process) : SlotTable :=
  match t.vacant with
  | none => t
  | some i =>
    { t with pid := Function.update t.pid i p.pid, live := Function.update t.live i true }

/-- Remove the maze from the first slot of a process. -/
def dismantle (t : SlotTable) (p : Process) : SlotTable :=
  match t.user p with
  | none => t
  | some i => { t with live := Function.update t.live i false }

/-- Vacate the first slot of a process. -/
def vacate (t : SlotTable) (p : Process) : SlotTable :=
  match t.user p with
  | none => t
  | some i =>
    { t with pid := Function.update t.pid i 0, live := Function.update t.live i false }

/-- `MAZE_CREATE` with a valid size. -/
def create (t : SlotTable) (p : Process) : SlotTable :=
  if t.HasMaze p then t
  else if t.user p = none ∧ t.vacant = none then { t with errorNo := enomem }
  else t.take p

/-- `mazemod_dev_close`. -/
def close (t : SlotTable) (p : Process) : SlotTable :=
  if t.errorNo = enomem then { t with errorNo := 0 } else t.vacate p

/-- The argument is copied in and its size is accepted. -/
def validArg (arg : Option UserCoord) : Bool := arg.any fun c => !badSize c.toCoord

/-- The effect of an operation on the table. -/
def after (t : SlotTable) : Request → SlotTable
  | .ioctl p (.create arg) _ => if validArg arg then t.create p else t
  | .ioctl p .destroy _ => t.dismantle p
  | .ioctl p (.onlyForQ3 arg) _ =>
    if validArg arg then { t with onlyForQ3 := true }.take p else { t with onlyForQ3 := true }
  | .close p => t.close p
  | .procRead => { t with onlyForQ3 := false }
  | _ => t

/-- The first slot of a process holds its pid, and no earlier slot does. -/
theorem user_eq_some {t : SlotTable} {p : Process} {i : Slot} :
    t.user p = some i ↔ t.pid i = p.pid ∧ ∀ j < i, t.pid j ≠ p.pid := by
  simp [user, find?_finRange_eq_some]

/-- The slot of a process has a pid. -/
theorem pid_ne_zero_of_user {t : SlotTable} {p : Process} {i : Slot}
    (huser : t.user p = some i) : t.pid i ≠ 0 := by
  rw [(user_eq_some.mp huser).1]
  exact p.pid_ne_zero

/-- A process without a slot has its pid nowhere. -/
theorem user_eq_none {t : SlotTable} {p : Process} :
    t.user p = none ↔ ∀ i, t.pid i ≠ p.pid := by
  simp [user]

/-- The first vacant slot has no pid, and every earlier slot has one. -/
theorem vacant_eq_some {t : SlotTable} {i : Slot} :
    t.vacant = some i ↔ t.pid i = 0 ∧ ∀ j < i, t.pid j ≠ 0 := by
  simp [vacant, find?_finRange_eq_some]

/-- A full table has a pid in every slot. -/
theorem vacant_eq_none {t : SlotTable} : t.vacant = none ↔ ∀ i, t.pid i ≠ 0 := by
  simp [vacant]

end SlotTable

open SlotTable

@[simp] theorem table_pid (s : State) : s.table.pid = s.pids := rfl

@[simp] theorem table_live (s : State) (i : Slot) :
    s.table.live i = (s.mazeUserInfo i).isSome := rfl

@[simp] theorem table_errorNo (s : State) : s.table.errorNo = s.errorNo := rfl

@[simp] theorem table_onlyForQ3 (s : State) : s.table.onlyForQ3 = s.onlyForQ3 := rfl

/-- The lookups of the operations are the lookups of the table. -/
theorem getUserIndex_eq (s : State) (p : Process) : getUserIndex s p = s.table.user p := rfl

theorem getEmptyIndex_eq (s : State) : getEmptyIndex s = s.table.vacant := rfl

/-- The caller has a maze exactly when its first slot is live. -/
theorem userBlock_eq_some {s : State} {p : Process} {i : Slot} {b : Block} :
    userBlock s p = some (i, b) ↔ s.table.user p = some i ∧ s.mazeUserInfo i = some b := by
  unfold userBlock
  rw [getUserIndex_eq]
  cases s.table.user p with
  | none => simp
  | some j =>
    simp only [Option.map_eq_some_iff, Prod.mk.injEq, Option.some.injEq]
    constructor
    · rintro ⟨b, hb, rfl, rfl⟩
      exact ⟨rfl, hb⟩
    · rintro ⟨rfl, hb⟩
      exact ⟨b, hb, rfl, rfl⟩

/-- Without a maze the caller has no slot or a slot that is not live. -/
theorem userBlock_eq_none {s : State} {p : Process} :
    userBlock s p = none ↔ ¬s.table.HasMaze p := by
  unfold userBlock HasMaze
  rw [getUserIndex_eq]
  cases s.table.user p <;> simp

/-- `have_maze` asks whether the first slot of the caller is live. -/
theorem haveMaze_iff {s : State} {p : Process} : haveMaze s p = true ↔ s.table.HasMaze p := by
  rw [haveMaze, Option.isSome_iff_ne_none, ne_eq, userBlock_eq_none, not_not]

/-- The state after `create_maze` has put a generated maze into slot `i`. -/
def created (s : State) (p : Process) (i : Slot) (info : MazeInfo) : State :=
  { (s.setPid i p.pid).kmalloc.2.setInfo i (some ⟨s.nextAddr, info⟩) with genMaze := info.maze }

@[simp] theorem created_pids (s : State) (p : Process) (i : Slot) (info : MazeInfo) :
    (created s p i info).pids = Function.update s.pids i p.pid := rfl

@[simp] theorem created_mazeUserInfo (s : State) (p : Process) (i : Slot) (info : MazeInfo) :
    (created s p i info).mazeUserInfo =
      Function.update s.mazeUserInfo i (some ⟨s.nextAddr, info⟩) := rfl

/-- What `create_maze` does when it returns: nothing in a full table, and otherwise a
generated maze in the first vacant slot. -/
inductive Creation (s : State) (p : Process) (coord : Coord) (rand : Rand) : State → Prop
  | full : s.table.vacant = none → Creation s p coord rand s
  | fresh {i : Slot} {steps : ℕ} {info : MazeInfo} :
      s.table.vacant = some i →
      generateMaze steps coord.y coord.x s.genMaze rand = .ok info →
      Creation s p coord rand (created s p i info)

/-- `create_maze` does nothing else. -/
theorem createMaze_creation {steps : ℕ} {s s' : State} {p : Process} {coord : Coord}
    {rand : Rand} {ret : ℤ} (hok : createMaze steps s p coord rand = .ok (ret, s')) :
    Creation s p coord rand s' := by
  unfold createMaze at hok
  rw [getEmptyIndex_eq] at hok
  cases hvacant : s.table.vacant with
  | none =>
    simp only [hvacant, Except.ok.injEq, Prod.mk.injEq] at hok
    exact hok.2 ▸ .full hvacant
  | some i =>
    simp only [hvacant, bind_eq_ok, pure_eq_ok, Prod.mk.injEq] at hok
    obtain ⟨info, hgen, _, rfl⟩ := hok
    exact .fresh hvacant hgen

/-- A creation takes the first vacant slot, if there is one. -/
theorem Creation.table {s s' : State} {p : Process} {coord : Coord} {rand : Rand}
    (hcreation : Creation s p coord rand s') : s'.table = s.table.take p := by
  unfold take
  cases hcreation with
  | full hvacant => rw [hvacant]
  | @fresh i steps info hvacant hgen =>
    rw [hvacant]
    ext j
    · rfl
    · by_cases hj : j = i <;> simp [hj]
    · rfl
    · rfl

/-- What `MAZE_CREATE` does with a valid size when it returns. The reply is zero also
when `create_maze` found no vacant slot. -/
inductive CreateOutcome (s : State) (p : Process) (coord : Coord) (rand : Rand) :
    Reply → State → Prop
  | present : s.table.HasMaze p → CreateOutcome s p coord rand (.code (-eexist)) s
  | full : s.table.user p = none → s.table.vacant = none →
      CreateOutcome s p coord rand (.code (-enomem)) { s with errorNo := enomem }
  | returned {s' : State} : ¬s.table.HasMaze p → (s.table.user p = none → s.table.vacant ≠ none) →
      Creation s p coord rand s' → CreateOutcome s p coord rand (.code 0) s'

/-- `MAZE_CREATE` with a valid size does nothing else. -/
theorem ioctlCreate_outcome {steps : ℕ} {s s' : State} {p : Process} {c : UserCoord}
    {rand : Rand} {reply : Reply} (hvalid : badSize c.toCoord = false)
    (hok : ioctlCreate steps s p (some c) rand = .ok (reply, s')) :
    CreateOutcome s p c.toCoord rand reply s' := by
  simp only [ioctlCreate, hvalid, Bool.false_eq_true, if_false, getUserIndex_eq,
    getEmptyIndex_eq] at hok
  cases huser : s.table.user p with
  | some i =>
    simp only [huser] at hok
    by_cases hlive : (s.mazeUserInfo i).isSome = true
    · simp only [hlive, if_true, Except.ok.injEq, Prod.mk.injEq] at hok
      obtain ⟨rfl, rfl⟩ := hok
      exact .present ⟨i, huser, hlive⟩
    · simp only [hlive, Bool.false_eq_true, if_false, bind_eq_ok, pure_eq_ok, Prod.mk.injEq] at hok
      obtain ⟨⟨ret, s''⟩, hcreate, rfl, rfl⟩ := hok
      exact .returned (by simpa [HasMaze, huser] using hlive) (by simp [huser])
        (createMaze_creation hcreate)
  | none =>
    simp only [huser] at hok
    cases hvacant : s.table.vacant with
    | none =>
      simp only [hvacant, Option.isNone_none, if_true, Except.ok.injEq, Prod.mk.injEq] at hok
      obtain ⟨rfl, rfl⟩ := hok
      exact .full huser hvacant
    | some i =>
      simp only [hvacant, Option.isNone_some, Bool.false_eq_true, if_false, bind_eq_ok,
        pure_eq_ok, Prod.mk.injEq] at hok
      obtain ⟨⟨ret, s''⟩, hcreate, rfl, rfl⟩ := hok
      exact .returned (by simp [HasMaze, huser]) (by simp [hvacant])
        (createMaze_creation hcreate)

/-- `MAZE_CREATE` with an argument that is not copied or of a bad size changes nothing. -/
theorem ioctlCreate_rejected {steps : ℕ} {s s' : State} {p : Process} {arg : Option UserCoord}
    {rand : Rand} {reply : Reply} (hinvalid : validArg arg = false)
    (hok : ioctlCreate steps s p arg rand = .ok (reply, s')) :
    (reply.ret = -ebusy ∨ reply.ret = -einval) ∧ s' = s := by
  cases arg with
  | none =>
    simp only [ioctlCreate, Except.ok.injEq, Prod.mk.injEq] at hok
    obtain ⟨rfl, rfl⟩ := hok
    exact ⟨.inl rfl, rfl⟩
  | some c =>
    have hbad : badSize c.toCoord = true := by simpa [validArg] using hinvalid
    simp only [ioctlCreate, hbad, if_true, Except.ok.injEq, Prod.mk.injEq] at hok
    obtain ⟨rfl, rfl⟩ := hok
    exact ⟨.inr rfl, rfl⟩

/-- A valid argument is a `coord_t` of an accepted size. -/
theorem validArg_eq_true {arg : Option UserCoord} :
    validArg arg = true ↔ ∃ c, arg = some c ∧ badSize c.toCoord = false := by
  cases arg <;> simp [validArg]

/-- `MAZE_CREATE` acts on the table as `SlotTable.create` when its argument is valid. -/
theorem ioctlCreate_table {steps : ℕ} {s s' : State} {p : Process} {arg : Option UserCoord}
    {rand : Rand} {reply : Reply} (hok : ioctlCreate steps s p arg rand = .ok (reply, s')) :
    s'.table = if validArg arg then s.table.create p else s.table := by
  by_cases hvalid : validArg arg = true
  · obtain ⟨c, rfl, hsize⟩ := validArg_eq_true.mp hvalid
    rw [if_pos hvalid, SlotTable.create]
    cases ioctlCreate_outcome hsize hok with
    | present hmaze => rw [if_pos hmaze]
    | full huser hvacant =>
      rw [if_neg (by simp [HasMaze, huser]), if_pos ⟨huser, hvacant⟩]
      rfl
    | returned hmaze hroom hcreation =>
      rw [if_neg hmaze, if_neg fun hfull => hroom hfull.1 hfull.2]
      exact hcreation.table
  · rw [if_neg hvalid, (ioctlCreate_rejected (by simpa using hvalid) hok).2]

/-- `ONLY_FOR_Q3` sets its flag and then creates a maze if its argument is valid. -/
theorem ioctlOnlyForQ3_cases {steps : ℕ} {s s' : State} {p : Process} {arg : Option UserCoord}
    {rand : Rand} {reply : Reply} (hok : ioctlOnlyForQ3 steps s p arg rand = .ok (reply, s')) :
    validArg arg = false ∧ s' = { s with onlyForQ3 := true } ∨
      ∃ c, arg = some c ∧ badSize c.toCoord = false ∧
        Creation { s with onlyForQ3 := true } p c.toCoord rand s' := by
  unfold ioctlOnlyForQ3 at hok
  cases arg with
  | none =>
    simp only [Except.ok.injEq, Prod.mk.injEq] at hok
    exact .inl ⟨rfl, hok.2.symm⟩
  | some c =>
    by_cases hbad : badSize c.toCoord = true
    · simp only [hbad, if_true, Except.ok.injEq, Prod.mk.injEq] at hok
      exact .inl ⟨by simp [validArg, hbad], hok.2.symm⟩
    · simp only [hbad, Bool.false_eq_true, if_false, bind_eq_ok, pure_eq_ok, Prod.mk.injEq] at hok
      obtain ⟨⟨ret, s''⟩, hcreate, -, rfl⟩ := hok
      exact .inr ⟨c, rfl, by simpa using hbad, createMaze_creation hcreate⟩

/-- `ONLY_FOR_Q3` sets its flag and then takes a slot if its argument is valid. -/
theorem ioctlOnlyForQ3_table {steps : ℕ} {s s' : State} {p : Process} {arg : Option UserCoord}
    {rand : Rand} {reply : Reply} (hok : ioctlOnlyForQ3 steps s p arg rand = .ok (reply, s')) :
    s'.table = if validArg arg then { s.table with onlyForQ3 := true }.take p
      else { s.table with onlyForQ3 := true } := by
  obtain ⟨hinvalid, rfl⟩ | ⟨c, rfl, hsize, hcreation⟩ := ioctlOnlyForQ3_cases hok
  · rw [hinvalid]
    rfl
  · rw [if_pos (validArg_eq_true.mpr ⟨c, rfl, hsize⟩)]
    exact hcreation.table

@[simp] theorem table_kfree (s : State) (addr : ℕ) : (s.kfree addr).table = s.table := rfl

@[simp] theorem table_kmalloc (s : State) : s.kmalloc.2.table = s.table := rfl

/-- Overwriting the maze of a live slot leaves the table as it is. -/
theorem table_setInfo_some {s : State} {i : Slot} {b b' : Block}
    (hlive : s.mazeUserInfo i = some b) : (s.setInfo i (some b')).table = s.table := by
  ext j
  · rfl
  · by_cases hj : j = i <;> simp [State.setInfo, hj, hlive]
  · rfl
  · rfl

/-- Assigning the slot of a process gives it the assigned maze. -/
theorem userBlock_setInfo {s s₁ : State} {p : Process} {i : Slot} {b : Block}
    (hpids : s₁.pids = s.pids) (hblock : userBlock s p = some (i, b)) (b' : Block) :
    userBlock (s₁.setInfo i (some b')) p = some (i, b') := by
  obtain ⟨hpid, hfirst⟩ := user_eq_some.mp (userBlock_eq_some.mp hblock).1
  rw [table_pid, ← hpids] at hpid hfirst
  exact userBlock_eq_some.mpr ⟨user_eq_some.mpr ⟨hpid, hfirst⟩, Function.update_self ..⟩

/-- `kfree` and clearing the pointer remove the maze from the table. -/
theorem table_setInfo_none (s : State) (i : Slot) :
    (s.setInfo i none).table = { s.table with live := Function.update s.table.live i false } := by
  ext j
  · rfl
  · by_cases hj : j = i <;> simp [State.setInfo, hj]
  · rfl
  · rfl

theorem table_setPid (s : State) (i : Slot) (pid : ℕ) :
    (s.setPid i pid).table = { s.table with pid := Function.update s.table.pid i pid } := rfl

/-- `MAZE_RESET` returns the caller to the start of its maze, if it has one. -/
theorem ioctlReset_cases {s s' : State} {p : Process} {reply : Reply}
    (hok : ioctlReset s p = .ok (reply, s')) :
    s' = s ∨ ∃ i b, userBlock s p = some (i, b) ∧ s' = s.setInfo i (some { b with
      info := { b.info with coordPos := ⟨b.info.maze.sx, b.info.maze.sy⟩ } }) := by
  unfold ioctlReset at hok
  cases hblock : userBlock s p with
  | none =>
    simp only [hblock, Except.ok.injEq, Prod.mk.injEq] at hok
    exact .inl hok.2.symm
  | some ib =>
    obtain ⟨i, b⟩ := ib
    simp only [hblock, Except.ok.injEq, Prod.mk.injEq] at hok
    exact .inr ⟨i, b, rfl, hok.2.symm⟩

/-- `MAZE_DESTROY` frees the maze of the caller, if it has one. -/
theorem ioctlDestroy_cases {s s' : State} {p : Process} {reply : Reply}
    (hok : ioctlDestroy s p = .ok (reply, s')) :
    userBlock s p = none ∧ s' = s ∨
      ∃ i b, userBlock s p = some (i, b) ∧ s' = (s.kfree b.addr).setInfo i none := by
  unfold ioctlDestroy at hok
  cases hblock : userBlock s p with
  | none =>
    simp only [hblock, Except.ok.injEq, Prod.mk.injEq] at hok
    exact .inl ⟨rfl, hok.2.symm⟩
  | some ib =>
    obtain ⟨i, b⟩ := ib
    simp only [hblock, Except.ok.injEq, Prod.mk.injEq] at hok
    exact .inr ⟨i, b, rfl, hok.2.symm⟩

/-- `MAZE_MOVE` tries one move in the maze of the caller, or changes nothing. -/
theorem ioctlMove_cases {s s' : State} {p : Process} {arg : Option UserCoord} {reply : Reply}
    (hok : ioctlMove s p arg = .ok (reply, s')) :
    s' = s ∨ ∃ d i b info, arg = some d ∧ userBlock s p = some (i, b) ∧
      tryMove b.info d.toCoord = .ok info ∧ s' = s.setInfo i (some { b with info := info }) := by
  unfold ioctlMove at hok
  cases hblock : userBlock s p with
  | none =>
    simp only [hblock, Except.ok.injEq, Prod.mk.injEq] at hok
    exact .inl hok.2.symm
  | some ib =>
    obtain ⟨i, b⟩ := ib
    cases arg with
    | none =>
      simp only [hblock, Except.ok.injEq, Prod.mk.injEq] at hok
      exact .inl hok.2.symm
    | some d =>
      simp only [hblock, bind_eq_ok, pure_eq_ok, Prod.mk.injEq] at hok
      obtain ⟨info, hmove, _, rfl⟩ := hok
      exact .inr ⟨d, i, b, info, rfl, rfl, hmove, rfl⟩

/-- `read` keeps or frees the buffer that it allocates. -/
theorem mazemodDevRead_cases {s s' : State} {p : Process} {len : ℕ} {copied : Bool}
    {reply : Reply} (hok : mazemodDevRead s p len copied = .ok (reply, s')) :
    s' = s ∨ s' = s.kmalloc.2 ∨ s' = s.kmalloc.2.kfree s.kmalloc.1 := by
  unfold mazemodDevRead at hok
  cases hblock : userBlock s p with
  | none =>
    simp only [hblock, Except.ok.injEq, Prod.mk.injEq] at hok
    exact .inl hok.2.symm
  | some ib =>
    simp only [hblock, bind_eq_ok] at hok
    obtain ⟨rows, _, hreply⟩ := hok
    split at hreply
    · simp only [pure_eq_ok, Prod.mk.injEq] at hreply
      exact .inr (.inr hreply.2.symm)
    · simp only [pure_eq_ok, Prod.mk.injEq] at hreply
      exact .inr (.inl hreply.2.symm)

/-- `write` makes the moves in its buffer in the maze of the caller, or only allocates. -/
theorem mazemodDevWrite_cases {s s' : State} {p : Process} {buf : List UInt8} {copied : Bool}
    {reply : Reply} (hok : mazemodDevWrite s p buf copied = .ok (reply, s')) :
    s' = s ∨ s' = s.kmalloc.2 ∨ ∃ i b info, copied = true ∧ buf.length / sizeofCoord % 8 = 0 ∧
      userBlock s p = some (i, b) ∧ writeMoves b.info (moveArray buf) = .ok info ∧
        s' = s.kmalloc.2.setInfo i (some { b with info := info }) := by
  unfold mazemodDevWrite at hok
  cases hblock : userBlock s p with
  | none =>
    simp only [hblock, Except.ok.injEq, Prod.mk.injEq] at hok
    exact .inl hok.2.symm
  | some ib =>
    obtain ⟨i, b⟩ := ib
    simp only [hblock] at hok
    split at hok
    · simp only [Except.ok.injEq, Prod.mk.injEq] at hok
      exact .inr (.inl hok.2.symm)
    next hcopied =>
    split at hok
    · simp only [Except.ok.injEq, Prod.mk.injEq] at hok
      exact .inr (.inl hok.2.symm)
    next hcount =>
    simp only [bind_eq_ok, pure_eq_ok, Prod.mk.injEq] at hok
    obtain ⟨info, hmoves, _, rfl⟩ := hok
    exact .inr (.inr ⟨i, b, info, by simpa using hcopied, not_not.mp hcount, rfl, hmoves, rfl⟩)

/-- The getters leave the state as it is. -/
theorem getter_state {s s' : State} {p : Process} {copied : Bool} {field : MazeInfo → Coord}
    {reply : Reply} (hok : getter s p copied field = .ok (reply, s')) : s' = s := by
  unfold getter at hok
  split at hok
  · simp_all
  · split at hok <;> simp_all

/-- `MAZE_RESET` leaves the table as it is. -/
theorem ioctlReset_table {s s' : State} {p : Process} {reply : Reply}
    (hok : ioctlReset s p = .ok (reply, s')) : s'.table = s.table := by
  obtain rfl | ⟨i, b, hblock, rfl⟩ := ioctlReset_cases hok
  · rfl
  · exact table_setInfo_some (userBlock_eq_some.mp hblock).2

/-- `MAZE_DESTROY` removes the maze and keeps the pid. -/
theorem ioctlDestroy_table {s s' : State} {p : Process} {reply : Reply}
    (hok : ioctlDestroy s p = .ok (reply, s')) : s'.table = s.table.dismantle p := by
  unfold dismantle
  obtain ⟨hblock, rfl⟩ | ⟨i, b, hblock, rfl⟩ := ioctlDestroy_cases hok
  · have hmaze := userBlock_eq_none.mp hblock
    cases huser : s'.table.user p with
    | none => rfl
    | some i =>
      have hdead : s'.table.live i = false := by simpa [HasMaze, huser] using hmaze
      simp only [← hdead, Function.update_eq_self]
  · obtain ⟨huser, _⟩ := userBlock_eq_some.mp hblock
    rw [table_setInfo_none]
    simp [huser]

/-- `MAZE_MOVE` leaves the table as it is. -/
theorem ioctlMove_table {s s' : State} {p : Process} {arg : Option UserCoord} {reply : Reply}
    (hok : ioctlMove s p arg = .ok (reply, s')) : s'.table = s.table := by
  obtain rfl | ⟨d, i, b, info, _, hblock, _, rfl⟩ := ioctlMove_cases hok
  · rfl
  · exact table_setInfo_some (userBlock_eq_some.mp hblock).2

/-- `read` leaves the table as it is. -/
theorem mazemodDevRead_table {s s' : State} {p : Process} {len : ℕ} {copied : Bool}
    {reply : Reply} (hok : mazemodDevRead s p len copied = .ok (reply, s')) :
    s'.table = s.table := by
  obtain rfl | rfl | rfl := mazemodDevRead_cases hok <;> rfl

/-- `write` leaves the table as it is. -/
theorem mazemodDevWrite_table {s s' : State} {p : Process} {buf : List UInt8} {copied : Bool}
    {reply : Reply} (hok : mazemodDevWrite s p buf copied = .ok (reply, s')) :
    s'.table = s.table := by
  obtain rfl | rfl | ⟨i, b, info, _, _, hblock, _, rfl⟩ := mazemodDevWrite_cases hok
  · rfl
  · rfl
  · have hlive : s.kmalloc.2.mazeUserInfo i = some b := (userBlock_eq_some.mp hblock).2
    rw [table_setInfo_some hlive, table_kmalloc]

/-- `del_user` vacates the first slot of the process. -/
theorem delUser_table (s : State) (p : Process) : (delUser s p).table = s.table.vacate p := by
  unfold delUser vacate
  rw [getUserIndex_eq]
  cases huser : s.table.user p with
  | none => rfl
  | some i =>
    simp only
    cases hinfo : s.mazeUserInfo i with
    | none =>
      have hdead : s.table.live i = false := by simp [hinfo]
      rw [table_setPid, ← hdead, Function.update_eq_self]
    | some b => rw [table_setPid, table_setInfo_none, table_kfree]

/-- `mazemod_dev_close` acts on the table as `SlotTable.close`. -/
theorem mazemodDevClose_table (s : State) (p : Process) :
    (mazemodDevClose s p).table = s.table.close p := by
  unfold mazemodDevClose close
  by_cases herror : s.errorNo = enomem
  · simp [herror, State.table]
  · simp [herror, delUser_table]

/-- Reading `/proc/maze` clears the flag of `ONLY_FOR_Q3` and changes nothing else. -/
theorem mazemodProcRead_state {s s' : State} {reply : Reply}
    (hok : mazemodProcRead s = .ok (reply, s')) : s' = { s with onlyForQ3 := false } := by
  unfold mazemodProcRead at hok
  split at hok
  · simp only [bind_eq_ok, pure_eq_ok, Prod.mk.injEq] at hok
    obtain ⟨m, _, rows, _, _, rfl⟩ := hok
    rfl
  · next hflag =>
    simp only [bind_eq_ok, pure_eq_ok, Prod.mk.injEq] at hok
    obtain ⟨entries, _, _, rfl⟩ := hok
    cases s
    simp_all

/-- The slot table is an exact abstraction: every operation that returns changes it
as `SlotTable.after` says. -/
theorem Step.table {s s' : State} {r : Request} (hstep : Step s r s') :
    s'.table = s.table.after r := by
  obtain ⟨steps, reply, hok⟩ := hstep
  cases r with
  | ioctl p cmd rand =>
    cases cmd with
    | create arg => exact ioctlCreate_table hok
    | reset => exact ioctlReset_table hok
    | destroy => exact ioctlDestroy_table hok
    | move arg => exact ioctlMove_table hok
    | onlyForQ3 arg => exact ioctlOnlyForQ3_table hok
    | getSize copied | getPos copied | getStart copied | getEnd copied =>
      simp only [perform, mazemodDevIoctl, ioctlGetSize, ioctlGetPos, ioctlGetStart,
        ioctlGetEnd] at hok
      rw [getter_state hok]
      rfl
    | unknown =>
      simp only [perform, mazemodDevIoctl, Except.ok.injEq, Prod.mk.injEq] at hok
      rw [← hok.2]
      rfl
  | read p len copied =>
    have hread : mazemodDevRead s p len copied = .ok (reply, s') := hok
    exact mazemodDevRead_table hread
  | write p buf copied => exact mazemodDevWrite_table hok
  | close p =>
    simp only [perform, Except.ok.injEq, Prod.mk.injEq] at hok
    rw [← hok.2]
    exact mazemodDevClose_table s p
  | procRead =>
    rw [mazemodProcRead_state hok]
    rfl

end UnixProgramming.Mazemod
