import UnixProgramming.Lib.OwnedBlocks
import UnixProgramming.Mazemod.Batches
import UnixProgramming.Mazemod.Close
import UnixProgramming.Mazemod.Confinement

/-!
# The memory of the module

Blocks come from `create_maze`, `read` and `write` and go with `MAZE_DESTROY`, close
and the end of a `read`. The array of a `write` is never freed, and neither is the
buffer of a `read` that cannot be copied to its caller. These are the only losses, and
nothing frees a lost block later, so a run ends with exactly the mazes of the slots in
memory when it avoids both.
-/

namespace UnixProgramming.Mazemod

open SlotTable

variable {s s' : State} {r : Request} {p : Process} {i : Slot} {b : Block}

/-- The blocks of the module, with the slots as their roots. -/
def State.ledger (s : State) : Ledger Slot where
  live := s.live
  next := s.nextAddr
  root := fun i => (s.mazeUserInfo i).map Block.addr

/-- The allocated blocks are those that `maze_user_info` refers to, one for each entry
that is not NULL. -/
def LiveExact (s : State) : Prop := s.ledger.Exact

/-- The operation is neither a `write` by a process with a maze nor a `read` by such a
process with a failing `copy_to_user`. -/
def FreesBuffer (s : State) : Request → Prop
  | .read p _ copied => haveMaze s p = true → copied = true
  | .write p _ _ => haveMaze s p = false
  | _ => True

/-- A slot without a pid has no maze. -/
def SlotTable.VacantEmpty (t : SlotTable) : Prop := ∀ i, t.pid i = 0 → t.live i = false

namespace SlotTable

variable {t : SlotTable}

theorem VacantEmpty.take (hempty : t.VacantEmpty) (p : Process) : (t.take p).VacantEmpty := by
  unfold SlotTable.take
  cases t.vacant with
  | none => exact hempty
  | some i =>
    intro j hj
    by_cases hji : j = i
    · simp [hji, p.pid_ne_zero] at hj
    · simpa [hji] using hempty j (by simpa [hji] using hj)

theorem VacantEmpty.dismantle (hempty : t.VacantEmpty) (p : Process) :
    (t.dismantle p).VacantEmpty := by
  unfold SlotTable.dismantle
  cases t.user p with
  | none => exact hempty
  | some i =>
    intro j hj
    by_cases hji : j = i
    · simp [hji]
    · simpa [hji] using hempty j hj

theorem VacantEmpty.vacate (hempty : t.VacantEmpty) (p : Process) :
    (t.vacate p).VacantEmpty := by
  unfold SlotTable.vacate
  cases t.user p with
  | none => exact hempty
  | some i =>
    intro j hj
    by_cases hji : j = i
    · simp [hji]
    · simpa [hji] using hempty j (by simpa [hji] using hj)

/-- Every operation leaves slots without a pid empty. -/
theorem VacantEmpty.after (hempty : t.VacantEmpty) (r : Request) : (t.after r).VacantEmpty := by
  cases r with
  | ioctl p cmd rand =>
    cases cmd with
    | create arg =>
      simp only [SlotTable.after, create]
      split_ifs
      exacts [hempty, hempty, hempty.take p, hempty]
    | destroy => exact hempty.dismantle p
    | onlyForQ3 arg =>
      simp only [SlotTable.after]
      split_ifs
      exacts [VacantEmpty.take (t := { t with onlyForQ3 := true }) hempty p, hempty]
    | reset | getSize | move | getPos | getStart | getEnd | unknown => exact hempty
  | close p =>
    simp only [SlotTable.after, SlotTable.close]
    split_ifs
    exacts [hempty, hempty.vacate p]
  | read | write | procRead => exact hempty

end SlotTable

/-- Overwriting the contents of a block leaves the ledger as it is. -/
theorem ledger_setInfo (hslot : s.mazeUserInfo i = some b) (info : MazeInfo) :
    (s.setInfo i (some { b with info := info })).ledger = s.ledger := by
  ext j
  · rfl
  · rfl
  · by_cases hji : j = i <;> simp [State.ledger, State.setInfo, hji, hslot]

/-- Freeing the block of a slot and clearing the slot releases it. -/
theorem ledger_free : ((s.kfree b.addr).setInfo i none).ledger = s.ledger.release i b.addr := by
  ext j
  · rfl
  · rfl
  · by_cases hji : j = i <;>
      simp [State.ledger, State.setInfo, State.kfree, Ledger.release, hji]

/-- A creation allocates at most the block that its slot adopts. -/
theorem Creation.transfer {coord : Coord} {rand : Rand} (hempty : s.table.VacantEmpty)
    (hcreation : Creation s p coord rand s') : Ledger.Transfer s.ledger s'.ledger := by
  cases hcreation with
  | full => exact .keep
  | @fresh i steps info hvacant _ =>
    have hnone : s.mazeUserInfo i = none := by
      simpa using hempty i (vacant_eq_some.mp hvacant).1
    have hadopt : (created s p i info).ledger = s.ledger.adopt i := by
      ext j
      · rfl
      · rfl
      · by_cases hji : j = i <;> simp [State.ledger, Ledger.adopt, hji]
    rw [hadopt]
    exact .adopt (by simp [State.ledger, hnone])

/-- `del_user` releases the maze of the slot that it vacates. -/
theorem delUser_transfer (s : State) (p : Process) :
    Ledger.Transfer s.ledger (delUser s p).ledger := by
  cases huser : getUserIndex s p with
  | none =>
    rw [delUser_none huser]
    exact .keep
  | some i =>
    cases hslot : s.mazeUserInfo i with
    | none =>
      have hsame : (delUser s p).ledger = s.ledger := by
        simp only [delUser, huser, hslot]
        rfl
      rw [hsame]
      exact .keep
    | some b =>
      have hrelease : (delUser s p).ledger = s.ledger.release i b.addr := by
        simp only [delUser, huser, hslot]
        exact ledger_free
      rw [hrelease]
      exact .release (by simp [State.ledger, hslot])

/-- `MAZE_CREATE` transfers at most a new block to a slot. -/
theorem ioctlCreate_transfer {steps : ℕ} {arg : Option UserCoord} {rand : Rand} {reply : Reply}
    (hempty : s.table.VacantEmpty) (hok : ioctlCreate steps s p arg rand = .ok (reply, s')) :
    Ledger.Transfer s.ledger s'.ledger := by
  by_cases hvalid : validArg arg = true
  · obtain ⟨c, rfl, hsize⟩ := validArg_eq_true.mp hvalid
    cases ioctlCreate_outcome hsize hok with
    | present | full => exact .keep
    | returned _ _ hcreation => exact hcreation.transfer hempty
  · rw [(ioctlCreate_rejected (by simpa using hvalid) hok).2]
    exact .keep

/-- So does `ONLY_FOR_Q3`. -/
theorem ioctlOnlyForQ3_transfer {steps : ℕ} {arg : Option UserCoord} {rand : Rand} {reply : Reply}
    (hempty : s.table.VacantEmpty) (hok : ioctlOnlyForQ3 steps s p arg rand = .ok (reply, s')) :
    Ledger.Transfer s.ledger s'.ledger := by
  obtain ⟨_, rfl⟩ | ⟨c, _, _, hcreation⟩ := ioctlOnlyForQ3_cases hok
  · exact .keep
  · exact Creation.transfer (s := { s with onlyForQ3 := true }) hempty hcreation

/-- `MAZE_DESTROY` releases the maze of its caller. -/
theorem ioctlDestroy_transfer {reply : Reply} (hok : ioctlDestroy s p = .ok (reply, s')) :
    Ledger.Transfer s.ledger s'.ledger := by
  obtain ⟨_, rfl⟩ | ⟨i, b, hblock, rfl⟩ := ioctlDestroy_cases hok
  · exact .keep
  · rw [ledger_free]
    exact .release (by simp [State.ledger, (userBlock_eq_some.mp hblock).2])

/-- `MAZE_RESET` and `MAZE_MOVE` leave the ledger as it is. -/
theorem ioctlReset_ledger {reply : Reply} (hok : ioctlReset s p = .ok (reply, s')) :
    s'.ledger = s.ledger := by
  obtain rfl | ⟨i, b, hblock, rfl⟩ := ioctlReset_cases hok
  · rfl
  · exact ledger_setInfo (userBlock_eq_some.mp hblock).2 _

theorem ioctlMove_ledger {arg : Option UserCoord} {reply : Reply}
    (hok : ioctlMove s p arg = .ok (reply, s')) : s'.ledger = s.ledger := by
  obtain rfl | ⟨d, i, b, info, _, hblock, _, rfl⟩ := ioctlMove_cases hok
  · rfl
  · exact ledger_setInfo (userBlock_eq_some.mp hblock).2 _

/-- An operation other than `read` and `write` only transfers. -/
theorem mazemodDevIoctl_transfer {steps : ℕ} {cmd : Ioctl} {rand : Rand} {reply : Reply}
    (hempty : s.table.VacantEmpty) (hok : mazemodDevIoctl steps s p cmd rand = .ok (reply, s')) :
    Ledger.Transfer s.ledger s'.ledger := by
  cases cmd with
  | create arg => exact ioctlCreate_transfer hempty hok
  | reset => rw [ioctlReset_ledger hok]; exact .keep
  | destroy => exact ioctlDestroy_transfer hok
  | move arg => rw [ioctlMove_ledger hok]; exact .keep
  | onlyForQ3 arg => exact ioctlOnlyForQ3_transfer hempty hok
  | getSize copied | getPos copied | getStart copied | getEnd copied =>
    simp only [mazemodDevIoctl, ioctlGetSize, ioctlGetPos, ioctlGetStart, ioctlGetEnd] at hok
    rw [getter_state hok]
    exact .keep
  | unknown =>
    simp only [mazemodDevIoctl, Except.ok.injEq, Prod.mk.injEq] at hok
    rw [← hok.2]
    exact .keep

/-- What an operation does to the blocks: it only transfers, or it loses a new one. -/
inductive BlockEffect (s : State) (r : Request) (s' : State) : Prop
  | transfers : FreesBuffer s r → Ledger.Transfer s.ledger s'.ledger → BlockEffect s r s'
  | loses : ¬FreesBuffer s r → s'.ledger = s.ledger.lose → BlockEffect s r s'

/-- `read` returns its buffer when it can be copied and loses it otherwise. -/
theorem mazemodDevRead_effect {len : ℕ} {copied : Bool} {reply : Reply}
    (hok : mazemodDevRead s p len copied = .ok (reply, s')) :
    BlockEffect s (.read p len copied) s' := by
  cases hblock : userBlock s p with
  | none =>
    simp only [mazemodDevRead, hblock, Except.ok.injEq, Prod.mk.injEq] at hok
    rw [← hok.2]
    exact .transfers (by simp [FreesBuffer, haveMaze, hblock]) .keep
  | some ib =>
    rw [mazemodDevRead_some hblock, bind_eq_ok] at hok
    obtain ⟨rows, _, hreply⟩ := hok
    cases copied with
    | true =>
      simp only [if_true, pure_eq_ok, Prod.mk.injEq] at hreply
      rw [← hreply.2]
      exact .transfers (fun _ => rfl) .borrow
    | false =>
      simp only [Bool.false_eq_true, if_false, pure_eq_ok, Prod.mk.injEq] at hreply
      rw [← hreply.2]
      exact .loses (by simp [FreesBuffer, haveMaze, hblock]) rfl

/-- `write` loses its array on every path that allocates it. -/
theorem mazemodDevWrite_effect {buf : List UInt8} {copied : Bool} {reply : Reply}
    (hok : mazemodDevWrite s p buf copied = .ok (reply, s')) :
    BlockEffect s (.write p buf copied) s' := by
  cases hblock : userBlock s p with
  | none =>
    simp only [mazemodDevWrite, hblock, Except.ok.injEq, Prod.mk.injEq] at hok
    rw [← hok.2]
    exact .transfers (by simp [FreesBuffer, haveMaze, hblock]) .keep
  | some ib =>
    refine .loses (by simp [FreesBuffer, haveMaze, hblock]) ?_
    simp only [mazemodDevWrite, hblock] at hok
    split_ifs at hok
    · simp only [Except.ok.injEq, Prod.mk.injEq] at hok
      rw [← hok.2]
      rfl
    · simp only [Except.ok.injEq, Prod.mk.injEq] at hok
      rw [← hok.2]
      rfl
    · simp only [bind_eq_ok, pure_eq_ok, Prod.mk.injEq] at hok
      obtain ⟨info, _, _, rfl⟩ := hok
      exact ledger_setInfo (s := s.kmalloc.2) (userBlock_eq_some.mp hblock).2 info

/-- Every operation that returns has one of the two effects. -/
theorem Step.effect (hempty : s.table.VacantEmpty) (hstep : Step s r s') :
    BlockEffect s r s' := by
  obtain ⟨steps, reply, hok⟩ := hstep
  cases r with
  | ioctl p cmd rand => exact .transfers trivial (mazemodDevIoctl_transfer hempty hok)
  | read p len copied => exact mazemodDevRead_effect hok
  | write p buf copied => exact mazemodDevWrite_effect hok
  | close p =>
    simp only [perform, Except.ok.injEq, Prod.mk.injEq] at hok
    refine .transfers trivial ?_
    rw [← hok.2, mazemodDevClose]
    split
    · exact .keep
    · exact delUser_transfer s p
  | procRead =>
    rw [mazemodProcRead_state hok]
    exact .transfers trivial .keep

/-- One operation keeps the ledger sound, and ends with it exact when it starts so and
frees its buffer. -/
theorem liveExact_step (hsound : s.ledger.Sound) (hempty : s.table.VacantEmpty)
    (hstep : Step s r s') :
    s'.ledger.Sound ∧ (LiveExact s' ↔ LiveExact s ∧ FreesBuffer s r) := by
  cases hstep.effect hempty with
  | transfers hfrees htransfer =>
    refine ⟨hsound.transfer htransfer, ?_⟩
    exact (hsound.transfer_exact_iff htransfer).trans (and_iff_left hfrees).symm
  | loses hloses heq =>
    rw [LiveExact, heq]
    exact ⟨hsound.lose, iff_of_false hsound.not_exact_lose fun h => hloses h.2⟩

theorem ledger_init : State.init.ledger.Sound ∧ State.init.table.VacantEmpty ∧
    LiveExact .init := by
  refine ⟨⟨?_, ?_, ?_⟩, fun i _ => rfl, ⟨?_, ?_⟩⟩ <;> simp [State.ledger, State.init]

/-- The slots never refer to a freed block, nor two of them to the same block. -/
theorem ledger_sound (hreach : DeviceReachable s) :
    s.ledger.Sound ∧ s.table.VacantEmpty := by
  refine hreach.invariant (P := fun s => s.ledger.Sound ∧ s.table.VacantEmpty)
    ⟨ledger_init.1, ledger_init.2.1⟩ fun s r s' hinv hstep => ?_
  exact ⟨(liveExact_step hinv.1 hinv.2 hstep).1, hstep.table ▸ hinv.2.after r⟩

/-- A run of the device ends with exactly the mazes of the slots in memory when all of its
operations free their buffers, and only then; and the same is true of all its states. -/
theorem liveExact_iff_eachStep {history : List (State × Request)} (hrun : DeviceRun history s) :
    (LiveExact s ↔ EachStep FreesBuffer history) ∧
      (Throughout LiveExact history s ↔ EachStep FreesBuffer history) := by
  refine hrun.iff_eachStep (J := fun s => s.ledger.Sound ∧ s.table.VacantEmpty)
    ⟨⟨ledger_init.1, ledger_init.2.1⟩, ledger_init.2.2⟩ fun s r s' hinv hstep => ?_
  obtain ⟨hsound, hexact⟩ := liveExact_step hinv.1 hinv.2 hstep
  exact ⟨⟨hsound, hstep.table ▸ hinv.2.after r⟩, hexact⟩

/-- A run that creates the sample maze has exactly that maze in memory. -/
theorem liveExact_create : ∃ s, DeviceRun [(State.init, sampleCreate 0)] s ∧ LiveExact s := by
  obtain ⟨s, hstep⟩ := returns_sampleCreate 0 State.init
  have hrun : DeviceRun [(State.init, sampleCreate 0)] s := .step .start hstep
  exact ⟨s, hrun, (liveExact_iff_eachStep hrun).1.mpr (by simp [sampleCreate, FreesBuffer])⟩

/-- After the creation of the sample maze, a `write` of one byte succeeds and loses its array. -/
theorem not_liveExact_write : ¬∀ s, DeviceReachable s → LiveExact s := by
  intro hall
  obtain ⟨s, i, b, hreach, hblock, _, _⟩ := exists_sample_maze
  have hwrite : Step s (.write (sampleProcess 0) [0] true)
      (s.kmalloc.2.setInfo i (some { b with info := b.info })) := by
    refine ⟨0, .code 1, ?_⟩
    rw [perform_write hblock]
    rfl
  obtain ⟨hsound, hempty⟩ := ledger_sound hreach
  have hfrees := ((liveExact_step hsound hempty hwrite).2.mp (hall _ (hreach.step hwrite))).2
  simp [FreesBuffer, haveMaze, hblock] at hfrees

end UnixProgramming.Mazemod
