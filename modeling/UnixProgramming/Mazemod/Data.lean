import Mathlib.Algebra.Group.Int.Defs
import Mathlib.Algebra.GroupWithZero.Nat
import Mathlib.Data.Finset.Basic
import Mathlib.Logic.Function.Basic

/-!
# Data of the maze module

The types of `maze.h` and the globals of `maze.c`. Values of type `int` are
integers; the one addition that a caller can make overflow is `addInt`. The
character array `blk` is a function on all row and column numbers, and the
accessors `cell` and `setCell` refuse an index outside its 101 by 101 cells, so
that an access beyond the array stops the run instead of returning a value.
-/

namespace UnixProgramming.Mazemod

/-- `_MAZE_MAXUSER`, the number of slots. -/
abbrev mazeMaxUser : ℕ := 3

/-- There is a slot with number 0. -/
instance (priority := high) : NeZero mazeMaxUser := ⟨Nat.succ_ne_zero 2⟩

/-- `_MAZE_MAXX`, the width of `blk`. -/
def mazeMaxX : ℤ := 101

/-- `_MAZE_MAXY`, the height of `blk`. -/
def mazeMaxY : ℤ := 101

/-- Indices of `pids` and `maze_user_info`. -/
abbrev Slot := Fin mazeMaxUser

/-- Error numbers of `linux/errno.h` that the module returns, negated. -/
def enoent : ℤ := 2
def enomem : ℤ := 12
def ebusy : ℤ := 16
def eexist : ℤ := 17
def einval : ℤ := 22
def enotty : ℤ := 25
def ebadfd : ℤ := 77

/-- Addition of two C integers, wrapping at 32 bits. -/
def addInt (a b : ℤ) : ℤ := Int.bmod (a + b) (2 ^ 32)

/-- `coord_t`. -/
structure Coord where
  x : ℤ
  y : ℤ
  deriving DecidableEq

/-- A `coord_t` as a process passes it in: any two 32-bit integers. -/
structure UserCoord where
  x : Int32
  y : Int32
  deriving DecidableEq

/-- The value that `copy_from_user` stores in a `coord_t`. -/
def UserCoord.toCoord (c : UserCoord) : Coord := ⟨c.x.toInt, c.y.toInt⟩

/-- `maze_t`. The module stores the number of rows in `w` and of columns in `h`. -/
structure Maze where
  w : ℤ
  h : ℤ
  sx : ℤ
  sy : ℤ
  ex : ℤ
  ey : ℤ
  blk : ℤ → ℤ → Char

/-- `struct maze_info`. -/
structure MazeInfo where
  coord : Coord
  coordPos : Coord
  maze : Maze

/-- Ways in which an operation fails to return to its caller. -/
inductive Fault
  /-- A NULL pointer is dereferenced. -/
  | nullDereference
  /-- A remainder by zero. -/
  | divideError
  /-- `blk` is accessed outside its bounds. -/
  | outOfBounds
  /-- The steps granted to a loop or a recursion are used up. -/
  | stillRunning
  deriving DecidableEq

/-- Row and column numbers inside the array `blk[_MAZE_MAXY][_MAZE_MAXX]`. -/
def InArray (row col : ℤ) : Prop := 0 ≤ row ∧ row < mazeMaxY ∧ 0 ≤ col ∧ col < mazeMaxX

/-- The check of an access compares integers. -/
instance (row col : ℤ) : Decidable (InArray row col) :=
  inferInstanceAs (Decidable (_ ∧ _))

/-- Read `blk[row][col]`. -/
def Maze.cell (m : Maze) (row col : ℤ) : Except Fault Char :=
  if InArray row col then .ok (m.blk row col) else .error .outOfBounds

/-- The array with one cell replaced. -/
def Maze.put (m : Maze) (row col : ℤ) (c : Char) : Maze :=
  { m with blk := fun i j => if i = row ∧ j = col then c else m.blk i j }

/-- Assign `blk[row][col] = c`. -/
def Maze.setCell (m : Maze) (row col : ℤ) (c : Char) : Except Fault Maze :=
  if InArray row col then .ok (m.put row col c) else .error .outOfBounds

/-- An assignment changes one cell and no other. -/
@[simp] theorem Maze.put_blk (m : Maze) (row col : ℤ) (c : Char) (i j : ℤ) :
    (m.put row col c).blk i j = if i = row ∧ j = col then c else m.blk i j := rfl

/-- A successful read is inside the array and returns the stored character. -/
theorem Maze.cell_eq_ok {m : Maze} {row col : ℤ} {c : Char} :
    m.cell row col = .ok c ↔ InArray row col ∧ m.blk row col = c := by
  unfold cell
  split <;> simp_all

/-- A successful write is inside the array and replaces one cell. -/
theorem Maze.setCell_eq_ok {m m' : Maze} {row col : ℤ} {c : Char} :
    m.setCell row col c = .ok m' ↔ InArray row col ∧ m.put row col c = m' := by
  unfold setCell
  split <;> simp_all

/-- A `kmalloc`ed block: its address and, once filled in, the maze it holds. -/
structure Block where
  addr : ℕ
  info : MazeInfo

/-- A process that issues operations; its pid is never zero. -/
structure Process where
  pid : ℕ
  pid_ne_zero : pid ≠ 0

/-- The globals of the module. `genMaze` is the static `maze` that `generate_maze`
reuses; `live` holds the addresses of the allocated blocks and `nextAddr` the
address of the next one. -/
structure State where
  pids : Slot → ℕ
  mazeUserInfo : Slot → Option Block
  errorNo : ℤ
  onlyForQ3 : Bool
  genMaze : Maze
  live : Finset ℕ
  nextAddr : ℕ

/-- A zero-initialised `maze_t`. -/
def Maze.zero : Maze := ⟨0, 0, 0, 0, 0, 0, fun _ _ => '\x00'⟩

/-- The state after the module is loaded: no pid, no maze, nothing allocated. -/
def State.init : State where
  pids := fun _ => 0
  mazeUserInfo := fun _ => none
  errorNo := 0
  onlyForQ3 := false
  genMaze := .zero
  live := ∅
  nextAddr := 0

end UnixProgramming.Mazemod
