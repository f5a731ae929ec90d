import UnixProgramming.Mazemod.Data
import Mathlib.Data.Fin.VecNotation
import Mathlib.Data.List.FinRange
import Mathlib.Data.Stream.Init
import Mathlib.Logic.Equiv.Basic

/-!
# Maze generation

`dfs`, `get_odd_number` and `generate_maze`. Random numbers are an infinite
stream of 32-bit values from which each call of `get_random_u32` takes the next.
The rejection loops and the recursion are given a number of steps, and answer
`stillRunning` when it does not suffice.
-/

namespace UnixProgramming.Mazemod

/-- The results of the coming calls of `get_random_u32`. -/
abbrev Rand := Stream' UInt32

/-- `dir_x`: change of the row number. -/
def dirX : Fin 4 → ℤ := ![-1, 1, 0, 0]

/-- `dir_y`: change of the column number. -/
def dirY : Fin 4 → ℤ := ![0, 0, -1, 1]

/-- One pass of the loop that randomises `dir_seq`: entry `i` is swapped with entry
`i + get_random_u32() % (4 - i)`. The array always holds four distinct directions. -/
def swapRandom (seq : Equiv.Perm (Fin 4)) (i : Fin 4) (r : UInt32) : Equiv.Perm (Fin 4) :=
  let j : Fin 4 := ⟨i + r.toNat % (4 - i), by
    have := Nat.mod_lt r.toNat (show 0 < 4 - i.val by omega)
    omega⟩
  (Equiv.swap i j).trans seq

/-- The randomised `dir_seq` and the remaining random numbers. -/
def shuffle (rand : Rand) : Equiv.Perm (Fin 4) × Rand :=
  (List.finRange 4).foldl
    (fun (seq, rand) i => (swapRandom seq i rand.head, rand.tail)) (Equiv.refl _, rand)

/-- The body of the loop over the four directions in `dfs`, with the recursive call
as a parameter. -/
def dfsVisit (recur : ℤ → ℤ → Maze × Rand → Except Fault (Maze × Rand)) (coord : Coord)
    (row col : ℤ) (st : Maze × Rand) (dir : Fin 4) : Except Fault (Maze × Rand) :=
  let nextRow := row + dirX dir * 2
  let nextCol := col + dirY dir * 2
  if nextRow < 1 ∨ nextRow ≥ coord.y - 1 ∨ nextCol < 1 ∨ nextCol ≥ coord.x - 1 then
    pure st
  else do
    if (← st.1.cell nextRow nextCol) = '#' then
      let maze ← st.1.setCell nextRow nextCol '.'
      let maze ← maze.setCell (row + dirX dir) (col + dirY dir) '.'
      recur nextRow nextCol (maze, st.2)
    else
      pure st

/-- `dfs`, with the recursion depth it may use. Its parameters `end_row` and
`end_col` are never read. -/
def dfs (coord : Coord) : ℕ → ℤ → ℤ → Maze × Rand → Except Fault (Maze × Rand)
  | 0, _, _, _ => .error .stillRunning
  | depth + 1, row, col, (maze, rand) =>
    let (dirSeq, rand) := shuffle rand
    (List.finRange 4).foldlM
      (fun st i => dfsVisit (dfs coord depth) coord row col st (dirSeq i)) (maze, rand)

/-- `min + get_random_u32() % (max - min)`: the modulus and the sum are unsigned
32-bit, and the result is converted back to `int`. -/
def randomBetween (min max : ℤ) (r : UInt32) : Except Fault ℤ :=
  let modulus := (max - min) % 2 ^ 32
  if modulus = 0 then .error .divideError
  else .ok (Int.bmod (min + r.toNat % modulus) (2 ^ 32))

/-- `get_odd_number`. -/
def getOddNumber : ℕ → ℤ → ℤ → Rand → Except Fault (ℤ × Rand)
  | 0, _, _, _ => .error .stillRunning
  | steps + 1, min, max, rand => do
    let num ← randomBetween min max rand.head
    if num % 2 = 0 then getOddNumber steps min max rand.tail else pure (num, rand.tail)

/-- The four numbers chosen by the first loop of `generate_maze`. -/
structure Endpoints where
  startRow : ℤ
  startCol : ℤ
  endRow : ℤ
  endCol : ℤ

/-- One pass of the first loop of `generate_maze`. -/
def drawEndpoints (steps : ℕ) (coord : Coord) (rand : Rand) :
    Except Fault (Endpoints × Rand) := do
  let (startRow, rand) ← getOddNumber steps 1 (coord.y - 1) rand
  let (startCol, rand) ← getOddNumber steps 1 (coord.x - 1) rand
  let (endRow, rand) ← getOddNumber steps 1 (coord.y - 1) rand
  let (endCol, rand) ← getOddNumber steps 1 (coord.x - 1) rand
  pure (⟨startRow, startCol, endRow, endCol⟩, rand)

/-- The first loop of `generate_maze`: draw until start and end differ. All four
numbers are zero before the loop, so that its body runs at least once. -/
def chooseEndpoints : ℕ → Coord → Rand → Except Fault (Endpoints × Rand)
  | 0, _, _ => .error .stillRunning
  | steps + 1, coord, rand => do
    let (e, rand) ← drawEndpoints steps coord rand
    if e.startRow = e.endRow ∧ e.startCol = e.endCol then chooseEndpoints steps coord rand
    else pure (e, rand)

/-- The static `maze` after its first `y` rows and `x` columns are filled with `'#'`;
every other cell keeps what an earlier call left there. -/
def fillWalls (coord : Coord) (maze : Maze) : Maze :=
  { maze with
    w := coord.y
    h := coord.x
    blk := fun i j =>
      if 0 ≤ i ∧ i < coord.y ∧ 0 ≤ j ∧ j < coord.x then '#' else maze.blk i j }

/-- `generate_maze` after its first loop. -/
def carveMaze (steps : ℕ) (coord : Coord) (e : Endpoints) (maze : Maze) (rand : Rand) :
    Except Fault Maze := do
  let maze := fillWalls coord maze
  let maze ← maze.setCell e.startRow e.startCol 'S'
  let maze ← maze.setCell e.startRow e.startCol '*'
  let maze := { maze with sy := e.startRow, sx := e.startCol }
  let (maze, _) ← dfs coord steps e.startRow e.startCol (maze, rand)
  let maze ← maze.setCell e.endRow e.endCol 'E'
  pure { maze with ey := e.endRow, ex := e.endCol }

/-- `generate_maze`. The argument `maze` and the maze in the result are the static
`maze` before and after the call; `*m` receives the result. -/
def generateMaze (steps : ℕ) (rows cols : ℤ) (maze : Maze) (rand : Rand) :
    Except Fault MazeInfo := do
  let coord : Coord := ⟨cols, rows⟩
  let (e, rand) ← chooseEndpoints steps coord rand
  let maze ← carveMaze steps coord e maze rand
  pure ⟨coord, ⟨maze.sx, maze.sy⟩, maze⟩

end UnixProgramming.Mazemod
