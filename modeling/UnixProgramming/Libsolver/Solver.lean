import UnixProgramming.Lib.Loops
import Mathlib.Data.BitVec
import Mathlib.Logic.Function.Basic
import Mathlib.Order.Basic

/-!
# The solver of the GOT maze

`dfs` and `check_path` of `libsolver.c`, `move_dir` of the maze library and the calls of
`main`. A maze is what `maze_load` has read; the solver marks it, records a direction for
each step and writes the routines for these directions into the GOT slots of `move_1`,
`move_2` and so on. An index outside of `move_directions` or `got_entries_to_move_n` ends
the program.
-/

namespace UnixProgramming.Libsolver

abbrev Addr := BitVec 64

/-- The first four values of `move_direction`, in the order of the tables `_dirx` and
`_diry`. -/
inductive Direction
  | up
  | down
  | left
  | right
  deriving DecidableEq

/-- The values of `i` in the loop of `dfs`. -/
def Direction.all : List Direction := [up, down, left, right]

/-- The index of a direction. -/
def Direction.toNat : Direction → ℕ
  | up => 0
  | down => 1
  | left => 2
  | right => 3

/-- `_dirx`. -/
def Direction.dirx : Direction → ℤ
  | up => 0
  | down => 0
  | left => -1
  | right => 1

/-- `_diry`. -/
def Direction.diry : Direction → ℤ
  | up => -1
  | down => 1
  | left => 0
  | right => 0

/-- `maze_t`. The cell in column `x` and row `y` is `blk y x`; it is open when it is zero. -/
structure Maze where
  w : ℤ
  h : ℤ
  sx : ℤ
  sy : ℤ
  ex : ℤ
  ey : ℤ
  cx : ℤ
  cy : ℤ
  blk : ℤ → ℤ → BitVec 32

/-- Assign a cell. -/
def Maze.setBlk (mz : Maze) (x y : ℤ) (v : BitVec 32) : Maze :=
  { mz with blk := Function.update mz.blk y (Function.update (mz.blk y) x v) }

/-- How a call ends that does not return: an array is accessed outside its bounds, or the
calls granted to the recursion are used up. -/
inductive Fault
  | outOfBounds
  | outOfFuel
  deriving DecidableEq

/-- The maze and the globals of the solver. An entry of `move_directions` that has not been
assigned holds the bytes of `memset`, which are no direction. -/
structure Solver where
  mz : Maze
  moveDirections : ℕ → Option Direction
  maxDepth : ℕ

/-- `isValid`. -/
def isValid (mz : Maze) (x y : ℤ) : Bool :=
  0 < x && x < mz.w && 0 < y && y < mz.h && mz.blk y x = 0

/-- The loop of `dfs` over the remaining directions. `search` is the recursive call, and
`size` the number of entries of `move_directions`, `none` for no limit. -/
def tryDirections (search : Solver → ℤ → ℤ → Except Fault (Bool × Solver)) (size : Option ℕ)
    (nowX nowY : ℤ) (depth : ℕ) : List Direction → Solver → Except Fault (Bool × Solver)
  | [], s => .ok (false, s)
  | i :: is, s =>
    let nextX := nowX + i.dirx
    let nextY := nowY + i.diry
    if isValid s.mz nextX nextY then
      if size.all (depth < ·) then do
        let (found, s) ← search
          { s with moveDirections := Function.update s.moveDirections depth (some i) } nextX nextY
        if found then pure (true, s) else tryDirections search size nowX nowY depth is s
      else .error .outOfBounds
    else tryDirections search size nowX nowY depth is s

/-- `dfs`. A visited cell is set to 2. -/
def dfs (size : Option ℕ) : ℕ → Solver → ℤ → ℤ → ℕ → Except Fault (Bool × Solver)
  | 0, _, _, _, _ => .error .outOfFuel
  | fuel + 1, s, nowX, nowY, depth =>
    if nowX = s.mz.ex ∧ nowY = s.mz.ey then .ok (true, { s with maxDepth := depth })
    else
      tryDirections (fun s x y => dfs size fuel s x y (depth + 1)) size nowX nowY depth
        Direction.all { s with mz := s.mz.setBlk nowX nowY 2 }

/-- The loop of `maze_load` that sets the visited cells back to 0. -/
def Maze.unmark (mz : Maze) : Maze :=
  { mz with blk := fun y x =>
      if 0 ≤ y ∧ y < mz.h ∧ 0 ≤ x ∧ x < mz.w ∧ mz.blk y x = 2 then 0 else mz.blk y x }

/-- What a GOT slot points to: the routine of the library for a direction, one of its
`move_n`, which all take a random direction, or nothing. -/
inductive Routine
  | direction (d : Direction)
  | random
  | null

/-- The entries of `move_directions`. -/
def maxMoves : ℕ := 1200

/-- One pass of the loop of `check_path`: the slot of `move_n`, where `n` is `d + 1`, gets the
routine for the direction recorded at depth `d`. -/
def patchSlot (s : Solver) (gotEntriesToMoveN : ℕ → Addr) (got : Addr → Routine) (d : ℕ) :
    Except Fault (Addr → Routine) :=
  if d + 1 ≥ maxMoves + 1 then .error .outOfBounds
  else if d ≥ maxMoves then .error .outOfBounds
  else
    let dirFuncAddr := match s.moveDirections d with
      | some d => .direction d
      | none => .null
    .ok (Function.update got (gotEntriesToMoveN (d + 1)) dirFuncAddr)

/-- `check_path`. -/
def checkPath (s : Solver) (gotEntriesToMoveN : ℕ → Addr) (got : Addr → Routine) :
    Except Fault (Addr → Routine) :=
  (List.range s.maxDepth).foldlM (patchSlot s gotEntriesToMoveN) got

/-- `maze_load` of the solver, once the maze has been read. A recursion through all cells
of the maze is granted. -/
def solve (gotEntriesToMoveN : ℕ → Addr) (got : Addr → Routine) (mz : Maze) :
    Except Fault (Maze × (Addr → Routine)) := do
  let s : Solver := { mz, moveDirections := fun _ => none, maxDepth := 0 }
  let (_, s) ← dfs (some maxMoves) (mz.w.toNat * mz.h.toNat + 1) s mz.sx mz.sy 0
  let s := { s with mz := s.mz.unmark }
  let got ← checkPath s gotEntriesToMoveN got
  pure (s.mz, got)

/-- `move_dir`, and whether it ends the program because the end is reached. -/
def moveDir (mz : Maze) (d : Direction) : Maze × Bool :=
  let nx := mz.cx + d.dirx
  let ny := mz.cy + d.diry
  if mz.blk ny nx ≠ 0 then (mz, false)
  else ({ mz with cx := nx, cy := ny }, nx = mz.ex ∧ ny = mz.ey)

/-- How `main` ends: at the end of the maze, after all of its moves, or with a call of a
null pointer. -/
inductive Ending
  | bingo (mz : Maze)
  | noNoNo (mz : Maze)
  | crashed

/-- The calls of `move_n` in `main`, through their GOT slots. `rand` is the direction that
`move_n` itself would take. -/
def makeMoves (got : Addr → Routine) (slotOf : ℕ → Addr) (rand : ℕ → Direction) :
    List ℕ → Maze → Ending
  | [], mz => .noNoNo mz
  | n :: ns, mz =>
    let call := match got (slotOf n) with
      | .direction d => some d
      | .random => some (rand n)
      | .null => none
    match call with
    | none => .crashed
    | some d =>
      let (mz, reached) := moveDir mz d
      if reached then .bingo mz else makeMoves got slotOf rand ns mz

/-- The indices of the routines that `main` calls, in order. -/
def moveNumbers : List ℕ := List.range' 1 maxMoves

end UnixProgramming.Libsolver
