import UnixProgramming.Lib.Runs
import UnixProgramming.Mazemod.Generate

/-!
# The operations of the maze device

`get_user_index` to `mazemod_proc_read`. Each operation either returns a reply
and the new globals or stops with a `Fault`. The outcome of `copy_from_user` and
`copy_to_user` is part of the request, as are the random numbers that a
generated maze consumes. It is assumed that operations run one at a time, although
only `MAZE_CREATE` and `del_user` take the mutex, and that `kmalloc` finds memory.
-/

namespace UnixProgramming.Mazemod

/-- `get_user_index`: the first slot that holds the pid. -/
def getUserIndex (s : State) (p : Process) : Option Slot :=
  (List.finRange mazeMaxUser).find? fun i => s.pids i = p.pid

/-- `get_empty_index`: the first slot without a pid. -/
def getEmptyIndex (s : State) : Option Slot :=
  (List.finRange mazeMaxUser).find? fun i => s.pids i = 0

/-- The block of the first slot that holds the pid, as the operations look it up. -/
def userBlock (s : State) (p : Process) : Option (Slot × Block) :=
  match getUserIndex s p with
  | none => none
  | some index => (s.mazeUserInfo index).map fun b => (index, b)

/-- `have_maze`. -/
def haveMaze (s : State) (p : Process) : Bool := (userBlock s p).isSome

/-- `kfree`. -/
def State.kfree (s : State) (addr : ℕ) : State := { s with live := s.live.erase addr }

/-- `kmalloc`: a fresh address. -/
def State.kmalloc (s : State) : ℕ × State :=
  (s.nextAddr, { s with live := insert s.nextAddr s.live, nextAddr := s.nextAddr + 1 })

/-- Assign `maze_user_info[index]`. -/
def State.setInfo (s : State) (index : Slot) (b : Option Block) : State :=
  { s with mazeUserInfo := Function.update s.mazeUserInfo index b }

/-- Assign `pids[index]`. -/
def State.setPid (s : State) (index : Slot) (pid : ℕ) : State :=
  { s with pids := Function.update s.pids index pid }

/-- `del_user`. -/
def delUser (s : State) (p : Process) : State :=
  match getUserIndex s p with
  | none => s
  | some index =>
    let s := match s.mazeUserInfo index with
      | none => s
      | some b => (s.kfree b.addr).setInfo index none
    s.setPid index 0

/-- `mazemod_dev_close`. -/
def mazemodDevClose (s : State) (p : Process) : State :=
  if s.errorNo = enomem then { s with errorNo := 0 } else delUser s p

/-- `create_maze`. -/
def createMaze (steps : ℕ) (s : State) (p : Process) (coord : Coord) (rand : Rand) :
    Except Fault (ℤ × State) :=
  match getEmptyIndex s with
  | none => .ok (-enomem, s)
  | some index => do
    let (addr, s) := (s.setPid index p.pid).kmalloc
    let info ← generateMaze steps coord.y coord.x s.genMaze rand
    pure (0, { s.setInfo index (some ⟨addr, info⟩) with genMaze := info.maze })

/-- The size check of `MAZE_CREATE` and `ONLY_FOR_Q3`. -/
def badSize (c : Coord) : Bool := c.x ≤ 0 || c.y ≤ 0 || c.x > mazeMaxX || c.y > mazeMaxY

/-- The cell that `MAZE_MOVE` and a `write` step examine, as row and column. -/
def target (m : MazeInfo) (d : Coord) : ℤ × ℤ :=
  (addInt m.coordPos.y d.y, addInt m.coordPos.x d.x)

/-- One move: the position changes unless the examined cell is `'#'`. -/
def tryMove (m : MazeInfo) (d : Coord) : Except Fault MazeInfo := do
  let (row, col) := target m d
  if (← m.maze.cell row col) ≠ '#' then pure { m with coordPos := ⟨col, row⟩ } else pure m

/-- The `ioctl` requests with their argument. A `none` argument, or a `false`
flag, is a `copy_from_user` or `copy_to_user` that fails. -/
inductive Ioctl
  | create (arg : Option UserCoord)
  | reset
  | destroy
  | getSize (copied : Bool)
  | move (arg : Option UserCoord)
  | getPos (copied : Bool)
  | getStart (copied : Bool)
  | getEnd (copied : Bool)
  | onlyForQ3 (arg : Option UserCoord)
  | unknown

/-- One line group of `/proc/maze`. -/
inductive ProcEntry
  | vacancy (index : Slot)
  | user (index : Slot) (pid : ℕ) (size start stop pos : Coord) (rows : List (List Char))
  | question3 (size : Coord) (rows : List (List Char))

/-- What an operation returns: a return code, a code of zero with a copied
`coord_t`, the bytes copied by `read` with their number, or the text of a
`/proc/maze` read. -/
inductive Reply
  | code (ret : ℤ)
  | coord (c : Coord)
  | bytes (bs : List UInt8)
  | proc (entries : List ProcEntry)

/-- The return value seen by the caller. -/
def Reply.ret : Reply → ℤ
  | code ret => ret
  | coord _ => 0
  | bytes bs => bs.length
  | proc _ => 0

/-- `MAZE_CREATE`, with the argument copied in. -/
def ioctlCreate (steps : ℕ) (s : State) (p : Process) (arg : Option UserCoord) (rand : Rand) :
    Except Fault (Reply × State) :=
  match arg with
  | none => .ok (.code (-ebusy), s)
  | some c =>
    if badSize c.toCoord then .ok (.code (-einval), s)
    else match getUserIndex s p with
      | some index =>
        if (s.mazeUserInfo index).isSome then .ok (.code (-eexist), s)
        else do
          -- the value returned by `create_maze` is dropped
          let (_, s) ← createMaze steps s p c.toCoord rand
          pure (.code 0, s)
      | none =>
        if (getEmptyIndex s).isNone then .ok (.code (-enomem), { s with errorNo := enomem })
        else do
          let (_, s) ← createMaze steps s p c.toCoord rand
          pure (.code 0, s)

/-- `ONLY_FOR_Q3`: the flag is set before the argument is looked at. -/
def ioctlOnlyForQ3 (steps : ℕ) (s : State) (p : Process) (arg : Option UserCoord) (rand : Rand) :
    Except Fault (Reply × State) :=
  let s := { s with onlyForQ3 := true }
  match arg with
  | none => .ok (.code (-ebusy), s)
  | some c =>
    if badSize c.toCoord then .ok (.code (-einval), s)
    else do
      let (_, s) ← createMaze steps s p c.toCoord rand
      pure (.code 0, s)

/-- The common shape of `MAZE_GETSIZE`, `MAZE_GETPOS`, `MAZE_GETSTART` and `MAZE_GETEND`. -/
def getter (s : State) (p : Process) (copied : Bool) (field : MazeInfo → Coord) :
    Except Fault (Reply × State) :=
  match userBlock s p with
  | none => .ok (.code (-enoent), s)
  | some (_, b) => if copied then .ok (.coord (field b.info), s) else .ok (.code (-ebusy), s)

/-- `MAZE_GETSIZE`. -/
def ioctlGetSize (s : State) (p : Process) (copied : Bool) :=
  getter s p copied fun m => ⟨m.maze.h, m.maze.w⟩

/-- `MAZE_GETPOS`. -/
def ioctlGetPos (s : State) (p : Process) (copied : Bool) :=
  getter s p copied fun m => ⟨m.coordPos.x, m.coordPos.y⟩

/-- `MAZE_GETSTART`. -/
def ioctlGetStart (s : State) (p : Process) (copied : Bool) :=
  getter s p copied fun m => ⟨m.maze.sx, m.maze.sy⟩

/-- `MAZE_GETEND`. -/
def ioctlGetEnd (s : State) (p : Process) (copied : Bool) :=
  getter s p copied fun m => ⟨m.maze.ex, m.maze.ey⟩

/-- `MAZE_RESET`. -/
def ioctlReset (s : State) (p : Process) : Except Fault (Reply × State) :=
  match userBlock s p with
  | none => .ok (.code (-enoent), s)
  | some (index, b) =>
    let info := { b.info with coordPos := ⟨b.info.maze.sx, b.info.maze.sy⟩ }
    .ok (.code 0, s.setInfo index (some { b with info := info }))

/-- `MAZE_DESTROY`: the slot keeps its pid. -/
def ioctlDestroy (s : State) (p : Process) : Except Fault (Reply × State) :=
  match userBlock s p with
  | none => .ok (.code (-enoent), s)
  | some (index, b) => .ok (.code 0, (s.kfree b.addr).setInfo index none)

/-- `MAZE_MOVE`. -/
def ioctlMove (s : State) (p : Process) (arg : Option UserCoord) :
    Except Fault (Reply × State) :=
  match userBlock s p with
  | none => .ok (.code (-enoent), s)
  | some (index, b) =>
    match arg with
    | none => .ok (.code (-ebusy), s)
    | some d => do
      let info ← tryMove b.info d.toCoord
      pure (.code 0, s.setInfo index (some { b with info := info }))

/-- `mazemod_dev_ioctl`. -/
def mazemodDevIoctl (steps : ℕ) (s : State) (p : Process) (cmd : Ioctl) (rand : Rand) :
    Except Fault (Reply × State) :=
  match cmd with
  | .create arg => ioctlCreate steps s p arg rand
  | .reset => ioctlReset s p
  | .destroy => ioctlDestroy s p
  | .getSize copied => ioctlGetSize s p copied
  | .move arg => ioctlMove s p arg
  | .getPos copied => ioctlGetPos s p copied
  | .getStart copied => ioctlGetStart s p copied
  | .getEnd copied => ioctlGetEnd s p copied
  | .onlyForQ3 arg => ioctlOnlyForQ3 steps s p arg rand
  | .unknown => .ok (.code (-enotty), s)

/-- The integers `0, …, n - 1` that a C loop with bound `n` runs through. -/
def upTo (n : ℤ) : List ℤ := (List.range n.toNat).map Int.ofNat

/-- `mazemod_dev_read`. The requested length is not looked at. A failing
`copy_to_user` leaves the buffer allocated. -/
def mazemodDevRead (s : State) (p : Process) (_len : ℕ) (copied : Bool) :
    Except Fault (Reply × State) :=
  match userBlock s p with
  | none => .ok (.code (-ebadfd), s)
  | some (_, b) => do
    let (mazeLayout, s) := s.kmalloc
    let rows ← (upTo b.info.coord.y).mapM fun i =>
      (upTo b.info.coord.x).mapM fun j => do
        if (← b.info.maze.cell i j) = '#' then pure (1 : UInt8) else pure 0
    if copied then pure (.bytes rows.flatten, s.kfree mazeLayout)
    else pure (.code (-ebusy), s)

/-- A little-endian 32-bit integer. -/
def int32LE (b0 b1 b2 b3 : UInt8) : Int32 :=
  Int32.ofNat (b0.toNat + 2 ^ 8 * b1.toNat + 2 ^ 16 * b2.toNat + 2 ^ 24 * b3.toNat)

/-- The buffer of a `write` as an array of `coord_t`; bytes after the last complete
one are not part of it. -/
def moveArray : List UInt8 → List UserCoord
  | b0 :: b1 :: b2 :: b3 :: b4 :: b5 :: b6 :: b7 :: rest =>
    ⟨int32LE b0 b1 b2 b3, int32LE b4 b5 b6 b7⟩ :: moveArray rest
  | _ => []

/-- The loop of `mazemod_dev_write`. -/
def writeMoves (m : MazeInfo) (moves : List UserCoord) : Except Fault MazeInfo :=
  moves.foldlM (fun m d => tryMove m d.toCoord) m

/-- `sizeof(coord_t)`. -/
def sizeofCoord : ℕ := 8

/-- `mazemod_dev_write`. The array `move_array` is allocated and never freed. -/
def mazemodDevWrite (s : State) (p : Process) (buf : List UInt8) (copied : Bool) :
    Except Fault (Reply × State) :=
  match userBlock s p with
  | none => .ok (.code (-ebadfd), s)
  | some (index, b) =>
    let (_, s) := s.kmalloc
    if !copied then .ok (.code (-ebusy), s)
    else if buf.length / sizeofCoord % 8 ≠ 0 then .ok (.code (-einval), s)
    else do
      let info ← writeMoves b.info (moveArray buf)
      pure (.code buf.length, s.setInfo index (some { b with info := info }))

/-- The rows of a maze that `mazemod_proc_read` prints. -/
def procRows (m : MazeInfo) : Except Fault (List (List Char)) :=
  (upTo m.coord.y).mapM fun j => (upTo m.coord.x).mapM fun k => m.maze.cell j k

/-- Dereference `maze_user_info[index]`. -/
def derefInfo (s : State) (index : Slot) : Except Fault MazeInfo :=
  match s.mazeUserInfo index with
  | none => .error .nullDereference
  | some b => .ok b.info

/-- The line group that `mazemod_proc_read` prints for one slot. -/
def procSlot (s : State) (i : Slot) : Except Fault ProcEntry :=
  if s.pids i = 0 then .ok (.vacancy i)
  else do
    let m ← derefInfo s i
    let rows ← procRows m
    pure (.user i (s.pids i) m.coord ⟨m.maze.sx, m.maze.sy⟩ ⟨m.maze.ex, m.maze.ey⟩ m.coordPos rows)

/-- `mazemod_proc_read`. -/
def mazemodProcRead (s : State) : Except Fault (Reply × State) :=
  if s.onlyForQ3 then do
    let m ← derefInfo s 0
    let rows ← procRows m
    pure (.proc [.question3 m.coord rows], { s with onlyForQ3 := false })
  else do
    let entries ← (List.finRange mazeMaxUser).mapM (procSlot s)
    pure (.proc entries, s)

/-- The operations on `/dev/maze` and `/proc/maze`. -/
inductive Request
  | ioctl (p : Process) (cmd : Ioctl) (rand : Rand)
  | read (p : Process) (len : ℕ) (copied : Bool)
  | write (p : Process) (buf : List UInt8) (copied : Bool)
  | close (p : Process)
  | procRead

/-- One operation, given a number of steps for the loops of `generate_maze`. -/
def perform (steps : ℕ) (s : State) : Request → Except Fault (Reply × State)
  | .ioctl p cmd rand => mazemodDevIoctl steps s p cmd rand
  | .read p len copied => mazemodDevRead s p len copied
  | .write p buf copied => mazemodDevWrite s p buf copied
  | .close p => .ok (.code 0, mazemodDevClose s p)
  | .procRead => mazemodProcRead s

/-- An operation that returns: some number of steps suffices. -/
def Step (s : State) (r : Request) (s' : State) : Prop :=
  ∃ steps reply, perform steps s r = .ok (reply, s')

/-- The runs of the device from module load. -/
abbrev DeviceRun := Run State.init Step

/-- The states reachable from module load. -/
abbrev DeviceReachable := Reachable State.init Step

end UnixProgramming.Mazemod
