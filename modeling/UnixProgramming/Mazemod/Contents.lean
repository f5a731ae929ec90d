import UnixProgramming.Mazemod.SlotTable

/-!
# Contents of the slots

Where the maze that a slot holds after an operation comes from: it was there before,
it has just been generated, its owner reset the position, or its owner walked. Every
invariant of the mazes follows from these four cases.
-/

namespace UnixProgramming.Mazemod

open SlotTable

variable {s s' : State} {r : Request} {p : Process} {i j : Slot} {b b' : Block}

/-- The size of the maze that an operation creates, if it creates one. -/
def createdSize (s : State) : Request → Option UserCoord
  | .ioctl p (.create arg) _ =>
    if validArg arg ∧ haveMaze s p = false ∧ getEmptyIndex s ≠ none then arg else none
  | .ioctl _ (.onlyForQ3 arg) _ => if validArg arg ∧ getEmptyIndex s ≠ none then arg else none
  | _ => none

/-- The moves that an operation makes: the one of `MAZE_MOVE`, or those in the buffer
of a `write` whose number of moves is accepted. -/
def walk : Request → Option (Process × List UserCoord)
  | .ioctl p (.move (some d)) _ => some (p, [d])
  | .write p buf true =>
    if buf.length / sizeofCoord % 8 = 0 then some (p, moveArray buf) else none
  | _ => none

/-- The position of a maze after `MAZE_RESET`. -/
def MazeInfo.atStart (m : MazeInfo) : MazeInfo :=
  { m with coordPos := ⟨m.maze.sx, m.maze.sy⟩ }

/-- The ways in which slot `j` comes to hold `b'` after the operation `r` in `s`. -/
inductive BlockOrigin (s : State) (r : Request) (j : Slot) (b' : Block) : Prop
  | kept : s.mazeUserInfo j = some b' → BlockOrigin s r j b'
  | generated {c : UserCoord} {steps : ℕ} {rand : Rand} :
      createdSize s r = some c → badSize c.toCoord = false →
      generateMaze steps c.toCoord.y c.toCoord.x s.genMaze rand = .ok b'.info →
      BlockOrigin s r j b'
  | reset {b : Block} : s.mazeUserInfo j = some b → b'.info = b.info.atStart →
      BlockOrigin s r j b'
  | walked {p : Process} {moves : List UserCoord} {b : Block} :
      walk r = some (p, moves) → userBlock s p = some (j, b) →
      writeMoves b.info moves = .ok b'.info → BlockOrigin s r j b'

/-- Overwriting one slot leaves the others as they are. -/
theorem mazeUserInfo_setInfo {o : Option Block}
    (hslot : (s.setInfo i o).mazeUserInfo j = some b') :
    j = i ∧ o = some b' ∨ s.mazeUserInfo j = some b' := by
  by_cases hji : j = i
  · subst hji
    exact .inl ⟨rfl, by simpa [State.setInfo] using hslot⟩
  · exact .inr (by simpa [State.setInfo, hji] using hslot)

/-- A creation puts one generated maze into the slots. -/
theorem Creation.origin {coord : Coord} {rand : Rand} (hcreation : Creation s p coord rand s')
    (hslot : s'.mazeUserInfo j = some b') :
    s.mazeUserInfo j = some b' ∨ s.table.vacant ≠ none ∧
      ∃ steps, generateMaze steps coord.y coord.x s.genMaze rand = .ok b'.info := by
  cases hcreation with
  | full => exact .inl hslot
  | @fresh i steps info hvacant hgen =>
    rw [created_mazeUserInfo] at hslot
    by_cases hji : j = i
    · subst hji
      rw [Function.update_self, Option.some.injEq] at hslot
      exact .inr ⟨by simp [hvacant], steps, by rw [← hslot]; exact hgen⟩
    · rw [Function.update_of_ne hji] at hslot
      exact .inl hslot

/-- `MAZE_CREATE` generates a maze or leaves the slots as they are. -/
theorem ioctlCreate_origin {steps : ℕ} {arg : Option UserCoord} {rand : Rand} {reply : Reply}
    (hok : ioctlCreate steps s p arg rand = .ok (reply, s'))
    (hslot : s'.mazeUserInfo j = some b') :
    BlockOrigin s (.ioctl p (.create arg) rand) j b' := by
  by_cases hvalid : validArg arg = true
  · obtain ⟨c, rfl, hsize⟩ := validArg_eq_true.mp hvalid
    cases ioctlCreate_outcome hsize hok with
    | present | full => exact .kept hslot
    | returned hmaze _ hcreation =>
      obtain hkept | ⟨hvacant, steps, hgen⟩ := hcreation.origin hslot
      · exact .kept hkept
      · refine .generated ?_ hsize hgen
        have hnone : haveMaze s p = false := by simpa [← haveMaze_iff] using hmaze
        exact if_pos ⟨hvalid, hnone, hvacant⟩
  · rw [(ioctlCreate_rejected (by simpa using hvalid) hok).2] at hslot
    exact .kept hslot

/-- So does `ONLY_FOR_Q3`. -/
theorem ioctlOnlyForQ3_origin {steps : ℕ} {arg : Option UserCoord} {rand : Rand} {reply : Reply}
    (hok : ioctlOnlyForQ3 steps s p arg rand = .ok (reply, s'))
    (hslot : s'.mazeUserInfo j = some b') :
    BlockOrigin s (.ioctl p (.onlyForQ3 arg) rand) j b' := by
  obtain ⟨_, rfl⟩ | ⟨c, rfl, hsize, hcreation⟩ := ioctlOnlyForQ3_cases hok
  · exact .kept hslot
  · obtain hkept | ⟨hvacant, steps, hgen⟩ := hcreation.origin hslot
    · exact .kept hkept
    · exact .generated (if_pos ⟨validArg_eq_true.mpr ⟨c, rfl, hsize⟩, hvacant⟩) hsize hgen

/-- `MAZE_RESET` changes the position of one maze. -/
theorem ioctlReset_origin {reply : Reply} (hok : ioctlReset s p = .ok (reply, s'))
    (hslot : s'.mazeUserInfo j = some b') : BlockOrigin s r j b' := by
  obtain rfl | ⟨i, b, hblock, rfl⟩ := ioctlReset_cases hok
  · exact .kept hslot
  · obtain ⟨rfl, hb'⟩ | hkept := mazeUserInfo_setInfo hslot
    · exact .reset (userBlock_eq_some.mp hblock).2 (by rw [← Option.some.inj hb']; rfl)
    · exact .kept hkept

/-- `MAZE_DESTROY` only removes a maze. -/
theorem ioctlDestroy_origin {reply : Reply} (hok : ioctlDestroy s p = .ok (reply, s'))
    (hslot : s'.mazeUserInfo j = some b') : BlockOrigin s r j b' := by
  obtain ⟨_, rfl⟩ | ⟨i, b, _, rfl⟩ := ioctlDestroy_cases hok
  · exact .kept hslot
  · obtain ⟨_, hnone⟩ | hkept := mazeUserInfo_setInfo hslot
    · cases hnone
    · exact .kept hkept

/-- `MAZE_MOVE` walks one step. -/
theorem ioctlMove_origin {arg : Option UserCoord} {rand : Rand} {reply : Reply}
    (hok : ioctlMove s p arg = .ok (reply, s')) (hslot : s'.mazeUserInfo j = some b') :
    BlockOrigin s (.ioctl p (.move arg) rand) j b' := by
  obtain rfl | ⟨d, i, b, info, rfl, hblock, hmove, rfl⟩ := ioctlMove_cases hok
  · exact .kept hslot
  · obtain ⟨rfl, hb'⟩ | hkept := mazeUserInfo_setInfo hslot
    · refine .walked rfl hblock ?_
      rw [← Option.some.inj hb']
      exact foldlM_cons_eq_ok.mpr ⟨info, hmove, rfl⟩
    · exact .kept hkept

/-- `write` walks the moves in its buffer. -/
theorem mazemodDevWrite_origin {buf : List UInt8} {copied : Bool} {reply : Reply}
    (hok : mazemodDevWrite s p buf copied = .ok (reply, s'))
    (hslot : s'.mazeUserInfo j = some b') : BlockOrigin s (.write p buf copied) j b' := by
  obtain rfl | rfl | ⟨i, b, info, rfl, hcount, hblock, hmoves, rfl⟩ := mazemodDevWrite_cases hok
  · exact .kept hslot
  · exact .kept hslot
  · obtain ⟨rfl, hb'⟩ | hkept := mazeUserInfo_setInfo hslot
    · refine .walked (if_pos hcount) hblock ?_
      rw [← Option.some.inj hb']
      exact hmoves
    · exact .kept hkept

/-- The rows of bytes that `read` stores for a maze. -/
def layoutRows (m : MazeInfo) : Except Fault (List (List UInt8)) :=
  (upTo m.coord.y).mapM fun i => (upTo m.coord.x).mapM fun j => do
    if (← m.maze.cell i j) = '#' then pure (1 : UInt8) else pure 0

/-- What `read` does for a process with a maze. -/
theorem mazemodDevRead_some {len : ℕ} {copied : Bool} (hblock : userBlock s p = some (i, b)) :
    mazemodDevRead s p len copied = (do
      let rows ← layoutRows b.info
      if copied then pure (.bytes rows.flatten, s.kmalloc.2.kfree s.kmalloc.1)
      else pure (.code (-ebusy), s.kmalloc.2)) := by
  simp only [mazemodDevRead, hblock]
  rfl

/-- `read` leaves the slots as they are. -/
theorem mazemodDevRead_mazeUserInfo {len : ℕ} {copied : Bool} {reply : Reply}
    (hok : mazemodDevRead s p len copied = .ok (reply, s')) :
    s'.mazeUserInfo = s.mazeUserInfo := by
  obtain rfl | rfl | rfl := mazemodDevRead_cases hok <;> rfl

/-- Closing only removes a maze. -/
theorem mazemodDevClose_origin (hslot : (mazemodDevClose s p).mazeUserInfo j = some b') :
    s.mazeUserInfo j = some b' := by
  unfold mazemodDevClose at hslot
  split at hslot
  · exact hslot
  · unfold delUser at hslot
    split at hslot
    · exact hslot
    · split at hslot
      · exact hslot
      · obtain ⟨_, hnone⟩ | hkept := mazeUserInfo_setInfo hslot
        · cases hnone
        · exact hkept

/-- Every maze in a slot after an operation has one of the four origins. -/
theorem Step.origin (hstep : Step s r s') (hslot : s'.mazeUserInfo j = some b') :
    BlockOrigin s r j b' := by
  obtain ⟨steps, reply, hok⟩ := hstep
  cases r with
  | ioctl p cmd rand =>
    cases cmd with
    | create arg => exact ioctlCreate_origin hok hslot
    | reset => exact ioctlReset_origin hok hslot
    | destroy => exact ioctlDestroy_origin hok hslot
    | move arg => exact ioctlMove_origin hok hslot
    | onlyForQ3 arg => exact ioctlOnlyForQ3_origin hok hslot
    | getSize copied | getPos copied | getStart copied | getEnd copied =>
      simp only [perform, mazemodDevIoctl, ioctlGetSize, ioctlGetPos, ioctlGetStart,
        ioctlGetEnd] at hok
      exact .kept (getter_state hok ▸ hslot)
    | unknown =>
      simp only [perform, mazemodDevIoctl, Except.ok.injEq, Prod.mk.injEq] at hok
      exact .kept (hok.2 ▸ hslot)
  | read p len copied =>
    have hread : mazemodDevRead s p len copied = .ok (reply, s') := hok
    exact .kept (mazemodDevRead_mazeUserInfo hread ▸ hslot)
  | write p buf copied => exact mazemodDevWrite_origin hok hslot
  | close p =>
    simp only [perform, Except.ok.injEq, Prod.mk.injEq] at hok
    rw [← hok.2] at hslot
    exact .kept (mazemodDevClose_origin hslot)
  | procRead =>
    rw [mazemodProcRead_state hok] at hslot
    exact .kept hslot

/-- A property of mazes holds in every slot after an operation when it is kept by
resets and walks and holds of what the operation generates. -/
theorem Step.forall_blocks {P : MazeInfo → Prop} (hstep : Step s r s')
    (hbefore : ∀ j b, s.mazeUserInfo j = some b → P b.info)
    (hgen : ∀ c steps rand m, createdSize s r = some c → badSize c.toCoord = false →
      generateMaze steps c.toCoord.y c.toCoord.x s.genMaze rand = .ok m → P m)
    (hreset : ∀ m, P m → P m.atStart)
    (hwalk : ∀ p moves j b m, walk r = some (p, moves) → userBlock s p = some (j, b) →
      P b.info → writeMoves b.info moves = .ok m → P m) :
    ∀ j b, s'.mazeUserInfo j = some b → P b.info := by
  intro j b' hslot
  cases hstep.origin hslot with
  | kept hkept => exact hbefore j b' hkept
  | generated hcreates hsize hok => exact hgen _ _ _ _ hcreates hsize hok
  | reset hkept hinfo => exact hinfo ▸ hreset _ (hbefore _ _ hkept)
  | walked hmoves hblock hok =>
    exact hwalk _ _ _ _ _ hmoves hblock (hbefore _ _ (userBlock_eq_some.mp hblock).2) hok

end UnixProgramming.Mazemod
