import UnixProgramming.Mazemod.Walk

/-!
# Batches and single moves

A `write` whose buffer is accepted makes the moves that `MAZE_MOVE` would make one
after the other. Which buffers it accepts is another matter: the remainder that it
tests is that of the number of moves by eight, where the length in bytes is meant.
-/

namespace UnixProgramming.Mazemod

open SlotTable

variable {s s' : State} {p : Process} {i : Slot} {b : Block} {m : MazeInfo}
variable {moves : List UserCoord} {buf : List UInt8}

/-- The `MAZE_MOVE` requests of a list of moves. -/
def singleMoves (p : Process) (moves : List UserCoord) (rand : Rand) : List Request :=
  moves.map fun d => .ioctl p (.move (some d)) rand

/-- The position of the caller in its maze. -/
def position (s : State) (p : Process) : Option Coord :=
  (userBlock s p).map fun x => x.2.info.coordPos

/-- The variables of the module are the same; what is allocated may differ. -/
structure SameVariables (s t : State) : Prop where
  pids : s.pids = t.pids
  mazeUserInfo : s.mazeUserInfo = t.mazeUserInfo
  errorNo : s.errorNo = t.errorNo
  onlyForQ3 : s.onlyForQ3 = t.onlyForQ3
  genMaze : s.genMaze = t.genMaze

/-- A `write` of complete moves returns their length and leaves what the single moves
leave; any other `write` returns an error and leaves the position. -/
def BatchAgrees (s : State) (p : Process) (buf : List UInt8) : Prop :=
  (sizeofCoord ∣ buf.length → ∃ batched single,
    (∀ steps, perform steps s (.write p buf true) = .ok (.code buf.length, batched)) ∧
    (∀ steps rand, performAll steps s (singleMoves p (moveArray buf) rand) = .ok single) ∧
    SameVariables batched single) ∧
  (¬sizeofCoord ∣ buf.length → ∃ ret s',
    (∀ steps, perform steps s (.write p buf true) = .ok (.code ret, s')) ∧
    ret < 0 ∧ position s' p = position s p)

/-- Every cell that the moves examine lies in the array. -/
def StaysInArray (m : MazeInfo) (moves : List UserCoord) : Prop :=
  ∀ cell ∈ examined m moves, InArray cell.1 cell.2

/-- The loop of `write` returns exactly when its moves examine cells of the array only.
The induction is on the moves; the position changes. -/
theorem exists_writeMoves_iff : (∃ m', writeMoves m moves = .ok m') ↔ StaysInArray m moves := by
  induction moves generalizing m with
  | nil => simp [writeMoves, StaysInArray, examined, pure, Except.pure]
  | cons d ds ih =>
    simp only [writeMoves, foldlM_cons_eq_ok, StaysInArray, examined, List.forall_mem_cons]
    constructor
    · rintro ⟨m', m₁, hmove, hrest⟩
      refine ⟨(tryMove_eq_ok.mp hmove).1, ?_⟩
      rw [hmove]
      exact ih.mp ⟨m', hrest⟩
    · rintro ⟨harray, hrest⟩
      have hmove : tryMove m d.toCoord = .ok _ := tryMove_eq_ok.mpr ⟨harray, rfl⟩
      rw [hmove] at hrest
      obtain ⟨m', hrest'⟩ := ih.mpr hrest
      exact ⟨m', _, hmove, hrest'⟩

/-- Two assignments of one slot are the second one. -/
theorem setInfo_setInfo (s : State) (i : Slot) (o o' : Option Block) :
    (s.setInfo i o).setInfo i o' = s.setInfo i o' := by
  simp only [State.setInfo, Function.update_idem]

/-- Assigning a slot the block that it holds changes nothing. -/
theorem setInfo_self (hslot : s.mazeUserInfo i = some b) : s.setInfo i (some b) = s := by
  simp only [State.setInfo, ← hslot, Function.update_eq_self]

/-- One `MAZE_MOVE` makes the move in the block of the caller. -/
theorem perform_move {d : UserCoord} {steps : ℕ} {rand : Rand}
    (hblock : userBlock s p = some (i, b)) :
    perform steps s (.ioctl p (.move (some d)) rand) = (do
      let info ← tryMove b.info d.toCoord
      pure (.code 0, s.setInfo i (some { b with info := info }))) := by
  simp only [perform, mazemodDevIoctl, ioctlMove, hblock]

/-- The `MAZE_MOVE`s of a list of moves do in the block of the caller what the loop of
`write` does. The induction is on the moves; the state and the block change. -/
theorem performAll_singleMoves {steps : ℕ} {rand : Rand} (hblock : userBlock s p = some (i, b)) :
    performAll steps s (singleMoves p moves rand) = (do
      let info ← writeMoves b.info moves
      pure (s.setInfo i (some { b with info := info }))) := by
  induction moves generalizing s b with
  | nil => exact congrArg Except.ok (setInfo_self (userBlock_eq_some.mp hblock).2).symm
  | cons d ds ih =>
    simp only [performAll, singleMoves, writeMoves, List.map_cons, List.foldlM_cons,
      perform_move hblock]
    cases hmove : tryMove b.info d.toCoord with
    | error fault => rfl
    | ok info =>
      have hrest := ih (userBlock_setInfo rfl hblock { b with info := info })
      simp only [setInfo_setInfo] at hrest
      exact hrest

/-- What `write` does for a process with a maze and a buffer that can be copied. -/
theorem perform_write {steps : ℕ} (hblock : userBlock s p = some (i, b)) :
    perform steps s (.write p buf true) =
      if buf.length / sizeofCoord % 8 ≠ 0 then .ok (.code (-einval), s.kmalloc.2)
      else (do
        let info ← writeMoves b.info (moveArray buf)
        pure (.code buf.length, s.kmalloc.2.setInfo i (some { b with info := info }))) := by
  simp only [perform, mazemodDevWrite, hblock, Bool.not_true, Bool.false_eq_true, if_false]

/-- A batch with a number of moves that is accepted, and that stays in the array, leaves
what its single moves leave. -/
theorem write_returns (hblock : userBlock s p = some (i, b))
    (hcount : buf.length / sizeofCoord % 8 = 0) (harray : StaysInArray b.info (moveArray buf)) :
    ∃ info, writeMoves b.info (moveArray buf) = .ok info ∧
      ∀ steps, perform steps s (.write p buf true) =
        .ok (.code buf.length, s.kmalloc.2.setInfo i (some { b with info := info })) := by
  obtain ⟨info, hmoves⟩ := exists_writeMoves_iff.mpr harray
  refine ⟨info, hmoves, fun steps => ?_⟩
  rw [perform_write hblock, if_neg (not_not.mpr hcount), hmoves]
  rfl

/-- What a `write` returns says whether its number of moves was accepted. -/
theorem write_ret {steps : ℕ} {ret : ℤ} (hblock : userBlock s p = some (i, b))
    (hok : perform steps s (.write p buf true) = .ok (.code ret, s')) :
    buf.length / sizeofCoord % 8 ≠ 0 ∧ ret = -einval ∧ s' = s.kmalloc.2 ∨
      buf.length / sizeofCoord % 8 = 0 ∧ ret = buf.length ∧
        StaysInArray b.info (moveArray buf) := by
  rw [perform_write hblock] at hok
  split at hok
  · next hcount =>
    simp only [Except.ok.injEq, Prod.mk.injEq, Reply.code.injEq] at hok
    exact .inl ⟨hcount, hok.1.symm, hok.2.symm⟩
  · next hcount =>
    simp only [bind_eq_ok, pure_eq_ok, Prod.mk.injEq, Reply.code.injEq] at hok
    obtain ⟨info, hmoves, hret, _⟩ := hok
    exact .inr ⟨not_not.mp hcount, hret.symm, exists_writeMoves_iff.mp ⟨info, hmoves⟩⟩

/-- The number of complete moves is accepted exactly when it is a multiple of eight. -/
theorem accepted_iff (hcomplete : sizeofCoord ∣ buf.length) :
    buf.length / sizeofCoord % 8 = 0 ↔ 8 * sizeofCoord ∣ buf.length := by
  unfold sizeofCoord at *
  omega

/-- Complete moves agree with the single ones exactly when their number is accepted and
they stay in the array. -/
theorem batchAgrees_complete (hblock : userBlock s p = some (i, b))
    (hcomplete : sizeofCoord ∣ buf.length) :
    BatchAgrees s p buf ↔
      8 * sizeofCoord ∣ buf.length ∧ StaysInArray b.info (moveArray buf) := by
  rw [← accepted_iff hcomplete]
  constructor
  · rintro ⟨hagrees, _⟩
    obtain ⟨batched, _, hwrite, _⟩ := hagrees hcomplete
    obtain ⟨_, hret, _⟩ | ⟨hcount, _, harray⟩ := write_ret hblock (hwrite 0)
    · unfold einval at hret
      omega
    · exact ⟨hcount, harray⟩
  · rintro ⟨hcount, harray⟩
    obtain ⟨info, hmoves, hwrite⟩ := write_returns hblock hcount harray
    refine ⟨fun _ => ⟨_, s.setInfo i (some { b with info := info }), hwrite, ?_, ?_⟩,
      fun hincomplete => absurd hcomplete hincomplete⟩
    · intro steps rand
      rw [performAll_singleMoves hblock, hmoves]
      rfl
    · exact ⟨rfl, rfl, rfl, rfl, rfl⟩

/-- Bytes that are no complete moves are refused exactly when the number of complete ones
is not a multiple of eight. -/
theorem batchAgrees_incomplete (hblock : userBlock s p = some (i, b))
    (hincomplete : ¬sizeofCoord ∣ buf.length) :
    BatchAgrees s p buf ↔ ¬8 ∣ buf.length / sizeofCoord := by
  rw [Nat.dvd_iff_mod_eq_zero]
  constructor
  · rintro ⟨_, hagrees⟩
    obtain ⟨ret, s', hwrite, hnegative, _⟩ := hagrees hincomplete
    obtain ⟨hcount, _⟩ | ⟨_, hret, _⟩ := write_ret hblock (hwrite 0)
    · exact hcount
    · omega
  · intro hcount
    refine ⟨fun hcomplete => absurd hcomplete hincomplete,
      fun _ => ⟨-einval, s.kmalloc.2, ?_, ?_, ?_⟩⟩
    · intro steps
      rw [perform_write hblock, if_pos hcount]
    · decide
    · rfl

/-- A batch agrees with its single moves exactly when it has the length of a multiple of
eight moves and stays in the array, or ends inside a move and the number of complete ones
is not a multiple of eight. -/
theorem batchAgrees_iff (hblock : userBlock s p = some (i, b)) :
    BatchAgrees s p buf ↔
      8 * sizeofCoord ∣ buf.length ∧ StaysInArray b.info (moveArray buf) ∨
        ¬sizeofCoord ∣ buf.length ∧ ¬8 ∣ buf.length / sizeofCoord := by
  by_cases hcomplete : sizeofCoord ∣ buf.length
  · rw [batchAgrees_complete hblock hcomplete]
    simp only [hcomplete, not_true_eq_false, false_and, or_false]
  · have hlength : ¬8 * sizeofCoord ∣ buf.length := mt (dvd_of_mul_left_dvd) hcomplete
    rw [batchAgrees_incomplete hblock hcomplete]
    simp only [hcomplete, hlength, not_false_eq_true, false_and, true_and, false_or]

/-- A batch of eight moves down agrees with the eight moves. -/
theorem batchAgrees_iff_down : ∃ s, DeviceReachable s ∧
    haveMaze s (sampleProcess 0) = true ∧ BatchAgrees s (sampleProcess 0) sampleBatch := by
  obtain ⟨s, i, b, hreach, hblock, _, hin⟩ := exists_sample_maze
  refine ⟨s, hreach, by simp only [haveMaze, hblock, Option.isSome_some], ?_⟩
  have hunit : ∀ d ∈ moveArray sampleBatch, d.x.toInt.natAbs + d.y.toInt.natAbs ≤ 1 := by decide
  have hmap := (examined_onMap_iff hin _).mpr (namesCells_of_unit hin hunit)
  exact (batchAgrees_iff hblock).mpr
    (.inl ⟨by decide, fun cell hcell => hin.inArray (hmap cell hcell)⟩)

/-- One move that goes nowhere, as a buffer of eight bytes. -/
def sampleMove : List UInt8 := List.replicate sizeofCoord 0

/-- A `write` of one move is refused. -/
theorem not_batchAgrees_one : ¬∀ s, DeviceReachable s → ∀ p, haveMaze s p = true →
    ∀ buf, BatchAgrees s p buf := by
  intro hall
  obtain ⟨s, i, b, hreach, hblock, _, _⟩ := exists_sample_maze
  have hagrees := hall s hreach (sampleProcess 0)
    (by simp only [haveMaze, hblock, Option.isSome_some]) sampleMove
  obtain ⟨hlength, _⟩ := (batchAgrees_complete hblock (by decide)).mp hagrees
  exact absurd hlength (by decide)

end UnixProgramming.Mazemod
