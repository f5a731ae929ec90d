import UnixProgramming.Lib.RichStreams
import UnixProgramming.Mazemod.Perfect

/-!
# Sizes that can be generated

`MAZE_CREATE` and `ONLY_FOR_Q3` accept every size from 1 to 101. The endpoints are drawn
below one less than the size, so that a side of 2 leaves nothing to draw from, a side of 1
makes the range negative, and two sides of 3 or 4 hold a single odd cell, which cannot be
start and end at once. All other sizes work.
-/

namespace UnixProgramming.Mazemod

/-- Assign `blk[row][col] = c`, where only some cells may be assigned. -/
def Maze.setCellIn (allowed : ℤ → ℤ → Prop) [∀ row col, Decidable (allowed row col)] (m : Maze)
    (row col : ℤ) (c : Char) : Except Fault Maze :=
  if allowed row col then .ok (m.put row col c) else .error .outOfBounds

section Guarded

variable (allowed : ℤ → ℤ → Prop) [∀ row col, Decidable (allowed row col)]

/-- `dfsVisit` with the guarded assignment. The room and the passage to it are the two cells
that it assigns. -/
def dfsVisitIn (recur : ℤ → ℤ → Maze × Rand → Except Fault (Maze × Rand)) (coord : Coord)
    (row col : ℤ) (st : Maze × Rand) (dir : Fin 4) : Except Fault (Maze × Rand) :=
  let nextRow := row + dirX dir * 2
  let nextCol := col + dirY dir * 2
  if nextRow < 1 ∨ nextRow ≥ coord.y - 1 ∨ nextCol < 1 ∨ nextCol ≥ coord.x - 1 then
    pure st
  else do
    if (← st.1.cell nextRow nextCol) = '#' then
      let maze ← st.1.setCellIn allowed nextRow nextCol '.'
      let maze ← maze.setCellIn allowed (row + dirX dir) (col + dirY dir) '.'
      recur nextRow nextCol (maze, st.2)
    else
      pure st

/-- `dfs` with the guarded assignment. The depth counts the nested calls, as in `dfs`. -/
def dfsIn (coord : Coord) : ℕ → ℤ → ℤ → Maze × Rand → Except Fault (Maze × Rand)
  | 0, _, _, _ => .error .stillRunning
  | depth + 1, row, col, (maze, rand) =>
    let (dirSeq, rand) := shuffle rand
    (List.finRange 4).foldlM
      (fun st i => dfsVisitIn allowed (dfsIn coord depth) coord row col st (dirSeq i)) (maze, rand)

/-- `generate_maze` after its first loop, with the guarded assignment. The loop that fills the
maze with walls assigns the cells of the maze. -/
def carveMazeIn (steps : ℕ) (coord : Coord) (e : Endpoints) (maze : Maze) (rand : Rand) :
    Except Fault Maze := do
  let maze := fillWalls coord maze
  let maze ← maze.setCellIn allowed e.startRow e.startCol 'S'
  let maze ← maze.setCellIn allowed e.startRow e.startCol '*'
  let maze := { maze with sy := e.startRow, sx := e.startCol }
  let (maze, _) ← dfsIn allowed coord steps e.startRow e.startCol (maze, rand)
  let maze ← maze.setCellIn allowed e.endRow e.endCol 'E'
  pure { maze with ey := e.endRow, ex := e.endCol }

/-- `generate_maze` with the guarded assignment. The endpoints are drawn before any cell is
assigned. -/
def generateMazeIn (steps : ℕ) (rows cols : ℤ) (maze : Maze) (rand : Rand) :
    Except Fault MazeInfo := do
  let coord : Coord := ⟨cols, rows⟩
  let (e, rand) ← chooseEndpoints steps coord rand
  let maze ← carveMazeIn allowed steps coord e maze rand
  pure ⟨coord, ⟨maze.sx, maze.sy⟩, maze⟩

end Guarded

/-- The cell has a row in `[0, y)` and a column in `[0, x)`. -/
def InMaze (coord : Coord) (row col : ℤ) : Prop :=
  0 ≤ row ∧ row < coord.y ∧ 0 ≤ col ∧ col < coord.x

/-- The guard compares integers, so that guarded runs can be computed. -/
instance (coord : Coord) (row col : ℤ) : Decidable (InMaze coord row col) :=
  inferInstanceAs (Decidable (_ ∧ _))

/-- A maze of the size can be generated: no remainder by zero is computed and only cells of the
maze are assigned, however far a run gets; and every run ends whose random numbers contain
every finite pattern. -/
structure Generates (x y : ℤ) : Prop where
  divides : ∀ steps maze rand, generateMaze steps y x maze rand ≠ .error .divideError
  confined : ∀ steps maze rand,
    generateMazeIn (InMaze ⟨x, y⟩) steps y x maze rand ≠ .error .outOfBounds
  ends : ∀ maze (rand : Rand), Rich rand → ∃ steps m, generateMaze steps y x maze rand = .ok m

variable {coord : Coord} {e : Endpoints} {rand rand' : Rand} {steps : ℕ} {maze : Maze} {max : ℤ}
variable {allowed : ℤ → ℤ → Prop} [∀ row col, Decidable (allowed row col)]

/-! ## The guard -/

/-- The assignment of the source is the one where the whole array is allowed, -/
theorem setCellIn_inArray : Maze.setCellIn InArray = Maze.setCell := rfl

/-- and the search is then the one of the source. The induction is on the depth. -/
theorem dfsIn_inArray (coord : Coord) (depth : ℕ) :
    dfsIn InArray coord depth = dfs coord depth := by
  induction depth with
  | zero => rfl
  | succ depth ih =>
    funext row col st
    simp only [dfsIn, dfs, ih]
    rfl

/-- With the whole array allowed, the guarded functions are those of the source. -/
theorem generateMazeIn_inArray : generateMazeIn InArray = generateMaze := by
  funext steps rows cols maze rand
  simp only [generateMazeIn, generateMaze, carveMazeIn, carveMaze, dfsIn_inArray, setCellIn_inArray]

/-! ## Errors -/

/-- The only way not to return is to be granted too few steps. -/
abbrev OnlyRuns {α : Type} (x : Except Fault α) : Prop := FailsWith (· = .stillRunning) x

/-- An assignment to a cell that is allowed returns. -/
theorem setCellIn_onlyRuns {row col : ℤ} {c : Char} (hin : allowed row col) :
    OnlyRuns (maze.setCellIn allowed row col c) := by
  rw [Maze.setCellIn, if_pos hin]
  exact .ok

/-- A range from 1 to at least 2 is not empty, so that no remainder by zero is computed, -/
theorem randomBetween_onlyRuns {r : UInt32} (hmax : 2 ≤ max) (hmax' : max ≤ 100) :
    OnlyRuns (randomBetween 1 max r) := by
  have hmod : (max - 1) % 2 ^ 32 = max - 1 := Int.emod_eq_of_lt (by omega) (by omega)
  simp only [randomBetween, hmod]
  rw [if_neg (by omega)]
  exact .ok

/-- and a loop that draws from it can only run too long. The induction is on its steps. -/
theorem getOddNumber_onlyRuns (hmax : 2 ≤ max) (hmax' : max ≤ 100) (steps : ℕ) (rand : Rand) :
    OnlyRuns (getOddNumber steps 1 max rand) := by
  induction steps generalizing rand with
  | zero => exact .error rfl
  | succ steps ih =>
    refine .bind (randomBetween_onlyRuns hmax hmax') fun num _ => ?_
    split
    · exact ih rand.tail
    · exact .ok

/-- For a proper size both ranges are of this kind. The first loop of `generate_maze` then only
can run too long. -/
theorem chooseEndpoints_onlyRuns (hsize : ProperSize coord) (steps : ℕ) (rand : Rand) :
    OnlyRuns (chooseEndpoints steps coord rand) := by
  obtain ⟨hx, hx', hy, hy'⟩ := hsize
  simp only [mazeMaxX, mazeMaxY] at hx' hy'
  have hrow : ∀ steps rand, OnlyRuns (getOddNumber steps 1 (coord.y - 1) rand) :=
    getOddNumber_onlyRuns (by omega) (by omega)
  have hcol : ∀ steps rand, OnlyRuns (getOddNumber steps 1 (coord.x - 1) rand) :=
    getOddNumber_onlyRuns (by omega) (by omega)
  induction steps generalizing rand with
  | zero => exact .error rfl
  | succ steps ih =>
    refine .bind ?_ fun drawn _ => ?_
    · exact .bind (hrow _ _) fun _ _ => .bind (hcol _ _) fun _ _ => .bind (hrow _ _) fun _ _ =>
        .bind (hcol _ _) fun _ _ => .ok
    · dsimp only
      split
      · exact ih drawn.2
      · exact .ok

/-- The bounds check of `dfs` skips the rooms that are not in the interior; for the others the
next room and the passage to it are assigned. -/
theorem dfsVisitIn_onlyRuns {recur : ℤ → ℤ → Maze × Rand → Except Fault (Maze × Rand)} {p : Cell}
    (hx : coord.x ≤ mazeMaxX) (hy : coord.y ≤ mazeMaxY)
    (hallowed : ∀ p, Interior coord p → allowed p.1 p.2)
    (hrecur : ∀ p st, Interior coord p → OnlyRuns (recur p.1 p.2 st)) (hp : Interior coord p)
    (st : Maze × Rand) (dir : Fin 4) :
    OnlyRuns (dfsVisitIn allowed recur coord p.1 p.2 st dir) := by
  unfold dfsVisitIn
  dsimp only
  split
  · exact .ok
  · next hin =>
    have hnext : Interior coord (nextRoom p dir) := by
      simp only [Interior, nextRoom]
      omega
    have hcell : st.1.cell (nextRoom p dir).1 (nextRoom p dir).2 = .ok _ :=
      Maze.cell_eq_ok.mpr ⟨hnext.inArray hx hy, rfl⟩
    refine .bind (hcell ▸ .ok) fun c _ => ?_
    split
    · exact .bind (setCellIn_onlyRuns (hallowed _ hnext)) fun _ _ =>
        .bind (setCellIn_onlyRuns (hallowed _ (hp.passage hnext))) fun _ _ => hrecur _ _ hnext
    · exact .ok

/-- From a room in the interior, the search assigns allowed cells only. The induction is on the
depth, and `dfsVisitIn_onlyRuns` is its step. -/
theorem dfsIn_onlyRuns (hx : coord.x ≤ mazeMaxX) (hy : coord.y ≤ mazeMaxY)
    (hallowed : ∀ p, Interior coord p → allowed p.1 p.2) (depth : ℕ) {p : Cell}
    (st : Maze × Rand) (hp : Interior coord p) :
    OnlyRuns (dfsIn allowed coord depth p.1 p.2 st) := by
  induction depth generalizing p st with
  | zero => exact .error rfl
  | succ depth ih =>
    obtain ⟨m, rand⟩ := st
    exact .foldlM fun st i => dfsVisitIn_onlyRuns hx hy hallowed (fun _ st hq => ih st hq) hp st _

/-- For a proper size, `generate_maze` assigns cells of the interior only and divides by no
zero, whatever steps it is granted. -/
theorem generateMazeIn_onlyRuns (hsize : ProperSize coord)
    (hallowed : ∀ p, Interior coord p → allowed p.1 p.2) (steps : ℕ) (maze : Maze) (rand : Rand) :
    OnlyRuns (generateMazeIn allowed steps coord.y coord.x maze rand) := by
  refine .bind (chooseEndpoints_onlyRuns hsize steps rand) fun drawn hdrawn => ?_
  have hends := chooseEndpoints_proper hsize hdrawn
  refine .bind ?_ fun _ _ => .ok
  refine .bind (setCellIn_onlyRuns (hallowed _ hends.start_interior)) fun _ _ =>
    .bind (setCellIn_onlyRuns (hallowed _ hends.start_interior)) fun m _ => ?_
  refine .bind (dfsIn_onlyRuns hsize.x_le hsize.y_le hallowed steps _ hends.start_interior)
    fun _ _ => ?_
  exact .bind (setCellIn_onlyRuns (hallowed _ hends.stop_interior)) fun _ _ => .ok

/-! ## The first loop -/

/-- The number that is drawn below `max` from one of the random values 0 and 2. -/
def drawn (max : ℤ) (r : UInt32) : ℤ := if r = 2 ∧ (max = 0 ∨ 4 ≤ max) then 3 else 1

/-- The remainder that `randomBetween` computes of 0 and 2. A bound of zero wraps around to a
large one. -/
theorem drawn_eq_rem {k : ℤ} {r : UInt32} (hk : max = 0 ∧ 3 ≤ k ∨ 2 ≤ max ∧ k = max - 1)
    (hr : r = 0 ∨ r = 2) : 1 + (r.toNat : ℤ) % k = drawn max r := by
  rcases hr with rfl | rfl
  · have hzero : ((0 : UInt32).toNat : ℤ) % k = 0 := Int.zero_emod k
    rw [hzero]
    rfl
  · change 1 + (2 : ℤ) % k = if _ then 3 else 1
    by_cases hlarge : max = 0 ∨ 4 ≤ max
    · rw [if_pos ⟨rfl, hlarge⟩, Int.emod_eq_of_lt (by omega) (by omega)]
      rfl
    · obtain rfl | rfl : k = 1 ∨ k = 2 := by omega
      all_goals
        rw [if_neg fun h => hlarge h.2]
        rfl

/-- So 0 and 2 are drawn as they are named by `drawn`, -/
theorem randomBetween_drawn {r : UInt32} (hmax : max = 0 ∨ 2 ≤ max ∧ max ≤ 100)
    (hr : r = 0 ∨ r = 2) : randomBetween 1 max r = .ok (drawn max r) := by
  have hk : max = 0 ∧ 3 ≤ (max - 1) % 2 ^ 32 ∨ 2 ≤ max ∧ (max - 1) % 2 ^ 32 = max - 1 := by
    rcases hmax with rfl | hmax
    · exact .inl ⟨rfl, by decide⟩
    · exact .inr ⟨hmax.1, Int.emod_eq_of_lt (by omega) (by omega)⟩
  have hne : (max - 1) % 2 ^ 32 ≠ 0 := by omega
  have hsmall : 0 ≤ drawn max r ∧ drawn max r ≤ 3 := by
    unfold drawn
    split <;> decide
  simp only [randomBetween, hne, if_false, drawn_eq_rem hk hr]
  rw [Int.bmod_eq_of_le (by omega) (by omega)]

/-- which is odd and is therefore kept. -/
theorem drawn_odd (max : ℤ) (r : UInt32) : ¬drawn max r % 2 = 0 := by
  unfold drawn
  split <;> decide

/-- One of these values ends a draw. -/
theorem getOddNumber_drawn (hmax : max = 0 ∨ 2 ≤ max ∧ max ≤ 100)
    (hr : rand.head = 0 ∨ rand.head = 2) :
    getOddNumber (steps + 1) 1 max rand = .ok (drawn max rand.head, rand.tail) := by
  rw [getOddNumber, randomBetween_drawn hmax hr]
  exact if_neg (drawn_odd max rand.head)

/-- Eight random values, from position `n` on: twice two zeros and two twos. Whatever came
before them, they end the first loop. -/
def Settles (rand : Rand) (n : ℕ) : Prop :=
  ∀ i < 8, rand.get (n + i) = if i % 4 < 2 then 0 else 2

variable {n p : ℕ}

/-- Each of the eight values is 0 or 2. -/
theorem Settles.get (hsettles : Settles rand n) (hp : n ≤ p) (hp' : p < n + 8) :
    rand.get p = 0 ∨ rand.get p = 2 := by
  obtain ⟨i, rfl⟩ := Nat.exists_eq_add_of_le hp
  rw [hsettles i (by omega)]
  split
  · exact .inl rfl
  · exact .inr rfl

/-- A draw that begins before the end of the eight values ends at the first of them at the
latest. The induction is on the values before them. -/
theorem getOddNumber_drop (max : ℤ) (p : ℕ) (hmax : 2 ≤ max) (hmax' : max ≤ 100)
    (hsettles : Settles rand n) (hp : p < n + 8) : ∃ steps num p',
      getOddNumber steps 1 max (rand.drop p) = .ok (num, rand.drop p') ∧ p < p' ∧
        (p' ≤ p + 1 ∨ p' ≤ n + 1) ∧ (n ≤ p → num = drawn max (rand.get p)) := by
  obtain ⟨k, hk⟩ : ∃ k, n - p = k := ⟨_, rfl⟩
  induction k generalizing p with
  | zero =>
    refine ⟨1, drawn max (rand.get p), p + 1, ?_, by omega, by omega, fun _ => rfl⟩
    rw [← Stream'.head_drop, ← Stream'.tail_drop']
    apply getOddNumber_drawn (.inr ⟨hmax, hmax'⟩)
    rw [Stream'.head_drop]
    exact hsettles.get (by omega) hp
  | succ k ih =>
    obtain ⟨steps, num, p', hdraw, hlt, hle, _⟩ := ih (p + 1) (by omega) (by omega)
    have hnum : ∃ first, randomBetween 1 max (rand.drop p).head = .ok first := by
      have hmod : (max - 1) % 2 ^ 32 = max - 1 := Int.emod_eq_of_lt (by omega) (by omega)
      simp only [randomBetween, hmod]
      exact ⟨_, if_neg (by omega)⟩
    obtain ⟨first, hfirst⟩ := hnum
    by_cases heven : first % 2 = 0
    · refine ⟨steps + 1, num, p', ?_, by omega, by omega, by omega⟩
      rw [getOddNumber, hfirst, Stream'.tail_drop']
      exact (if_pos heven).trans hdraw
    · refine ⟨1, first, p + 1, ?_, by omega, by omega, by omega⟩
      rw [getOddNumber, hfirst, Stream'.tail_drop']
      exact if_neg heven

/-- A pass that begins at one of the first of the eight values or before them ends after four
draws, each of which takes one of the values from there on. -/
theorem drawEndpoints_drop (hsize : ProperSize coord) (hsettles : Settles rand n) (hp : p ≤ n + 4) :
    ∃ steps e p', drawEndpoints steps coord (rand.drop p) = .ok (e, rand.drop p') ∧ p < p' ∧
      (p' ≤ p + 4 ∨ p' ≤ n + 4) ∧ (n ≤ p → e = ⟨drawn (coord.y - 1) (rand.get p),
        drawn (coord.x - 1) (rand.get (p + 1)), drawn (coord.y - 1) (rand.get (p + 2)),
        drawn (coord.x - 1) (rand.get (p + 3))⟩) := by
  obtain ⟨hx, hx', hy, hy'⟩ := hsize
  simp only [mazeMaxX, mazeMaxY] at hx' hy'
  obtain ⟨s₁, sr, p₁, h₁, hlt₁, hle₁, heq₁⟩ :=
    getOddNumber_drop (coord.y - 1) p (by omega) (by omega) hsettles (by omega)
  obtain ⟨s₂, sc, p₂, h₂, hlt₂, hle₂, heq₂⟩ :=
    getOddNumber_drop (coord.x - 1) p₁ (by omega) (by omega) hsettles (by omega)
  obtain ⟨s₃, er, p₃, h₃, hlt₃, hle₃, heq₃⟩ :=
    getOddNumber_drop (coord.y - 1) p₂ (by omega) (by omega) hsettles (by omega)
  obtain ⟨s₄, ec, p₄, h₄, hlt₄, hle₄, heq₄⟩ :=
    getOddNumber_drop (coord.x - 1) p₃ (by omega) (by omega) hsettles (by omega)
  refine ⟨s₁ + s₂ + s₃ + s₄, ⟨sr, sc, er, ec⟩, p₄, ?_, by omega, by omega, fun hn => ?_⟩
  · simp only [drawEndpoints, bind_eq_ok]
    exact ⟨_, getOddNumber_mono (by omega) h₁, _, getOddNumber_mono (by omega) h₂,
      _, getOddNumber_mono (by omega) h₃, _, getOddNumber_mono (by omega) h₄, rfl⟩
  · obtain rfl : p₁ = p + 1 := by omega
    obtain rfl : p₂ = p + 2 := by omega
    obtain rfl : p₃ = p + 3 := by omega
    rw [heq₁ hn, heq₂ (by omega), heq₃ (by omega), heq₄ (by omega)]

/-- The two values are told apart below a bound that is large enough. -/
theorem iff_of_drawn_eq {a b : Prop} [Decidable a] [Decidable b] (hmax : 4 ≤ max)
    (heq : drawn max (if a then 0 else 2) = drawn max (if b then 0 else 2)) : a ↔ b := by
  by_cases ha : a <;> by_cases hb : b <;> simp_all [drawn]

/-- Four of the values in a row give two different endpoints, if a side is long enough. -/
theorem Settles.distinct (hsettles : Settles rand n) (hp : n ≤ p) (hp' : p ≤ n + 4)
    (hlong : 5 ≤ coord.x ∨ 5 ≤ coord.y) :
    ¬(drawn (coord.y - 1) (rand.get p) = drawn (coord.y - 1) (rand.get (p + 2)) ∧
      drawn (coord.x - 1) (rand.get (p + 1)) = drawn (coord.x - 1) (rand.get (p + 3))) := by
  obtain ⟨i, rfl⟩ := Nat.exists_eq_add_of_le hp
  rintro ⟨hrow, hcol⟩
  rw [Nat.add_assoc, hsettles i (by omega), hsettles (i + 2) (by omega)] at hrow
  rw [Nat.add_assoc, Nat.add_assoc, hsettles (i + 1) (by omega),
    hsettles (i + 3) (by omega)] at hcol
  rcases hlong with hlong | hlong
  · have hiff := iff_of_drawn_eq (by omega) hcol
    omega
  · have hiff := iff_of_drawn_eq (by omega) hrow
    omega

/-- The first loop ends at the eight values at the latest. The induction is on the values that
are left when a pass begins. -/
theorem chooseEndpoints_drop (hsize : ProperSize coord) (hlong : 5 ≤ coord.x ∨ 5 ≤ coord.y)
    (hsettles : Settles rand n) (hp : p ≤ n + 4) :
    ∃ steps r, chooseEndpoints steps coord (rand.drop p) = .ok r := by
  obtain ⟨k, hk⟩ : ∃ k, n + 5 - p = k := ⟨_, rfl⟩
  induction k using Nat.strong_induction_on generalizing p with
  | _ k ih =>
    obtain ⟨steps, e, p', hpass, hlt, hle, heq⟩ := drawEndpoints_drop hsize hsettles hp
    by_cases hsame : e.startRow = e.endRow ∧ e.startCol = e.endCol
    · -- then the pass began before the eight values
      have hbefore : p < n := by
        by_contra hn
        rw [heq (by omega)] at hsame
        exact hsettles.distinct (by omega) hp hlong hsame
      obtain ⟨steps', r, hrest⟩ := ih (n + 5 - p') (by omega) (p := p') (by omega) rfl
      refine ⟨Nat.max steps steps' + 1, r, bind_eq_ok.mpr ⟨(e, rand.drop p'), ?_, ?_⟩⟩
      · exact drawEndpoints_mono (Nat.le_max_left ..) hpass
      · exact (if_pos hsame).trans (chooseEndpoints_mono (Nat.le_max_right ..) hrest)
    · exact ⟨steps + 1, (e, rand.drop p'), bind_eq_ok.mpr ⟨(e, rand.drop p'), hpass, if_neg hsame⟩⟩

/-! ## The sizes -/

/-- Every pattern of random values occurs, and one of them ends the first loop. -/
theorem exists_generateMaze_eq_ok (hsize : ProperSize coord) (hlong : 5 ≤ coord.x ∨ 5 ≤ coord.y)
    (maze : Maze) (hrich : Rich rand) :
    ∃ steps m, generateMaze steps coord.y coord.x maze rand = .ok m := by
  obtain ⟨n, hpattern⟩ := hrich [0, 0, 2, 2, 0, 0, 2, 2]
  have hsettles : Settles rand n := by
    intro i hi
    rw [hpattern i hi]
    decide +revert
  have hstop := chooseEndpoints_drop hsize hlong hsettles (Nat.zero_le _)
  rw [Stream'.drop_zero] at hstop
  obtain ⟨steps, m, hok, _⟩ := generateMaze_returns hsize maze hstop
  exact ⟨steps, m, hok⟩

/-- Two sides below 5 have only one cell for start and end. The first loop draws them again
forever. -/
theorem chooseEndpoints_ne_ok (hsize : ProperSize coord) (hx : coord.x < 5) (hy : coord.y < 5)
    {r : Endpoints × Rand} : chooseEndpoints steps coord rand ≠ .ok r := by
  intro hok
  obtain ⟨⟨hsr, hsc⟩, hstart, ⟨her, hec⟩, hstop, hne⟩ := chooseEndpoints_proper hsize hok
  apply hne
  simp only [Interior] at hstart hstop
  rw [Prod.ext_iff]
  omega

/-- With a side of 1 or 2, no stream is confined. From this one the endpoints are drawn in the
first pass. -/
def smallRand : Rand := fun n => if n = 2 ∨ n = 3 then 2 else 0

/-- A side of 2 has an empty range to draw from. The remainder by its length is a division by
zero. -/
theorem generateMaze_divideError {x y : ℤ} (hy : y = 1 ∨ y = 2 ∨ 3 ≤ y ∧ y ≤ 101)
    (htwo : x = 2 ∨ y = 2) : generateMaze 2 y x .zero smallRand = .error .divideError := by
  have hempty : ∀ rand, getOddNumber 1 1 1 rand = .error .divideError := fun _ => rfl
  have hdraw : drawEndpoints 1 ⟨x, y⟩ smallRand = .error .divideError := by
    by_cases hyy : y = 2
    · subst hyy
      rfl
    · obtain rfl : x = 2 := by omega
      have hrow : getOddNumber 1 1 (y - 1) smallRand = .ok (drawn (y - 1) 0, smallRand.tail) :=
        getOddNumber_drawn (by omega) (.inl rfl)
      rw [drawEndpoints]
      dsimp only
      rw [hrow]
      rfl
  rw [generateMaze, chooseEndpoints, hdraw]
  rfl

/-- The endpoints that are drawn from `smallRand` when no side is 2. The start is in the corner
and the end is not. -/
theorem drawEndpoints_smallRand {x y : ℤ} (hx : x = 1 ∨ 3 ≤ x ∧ x ≤ 101)
    (hy : y = 1 ∨ 3 ≤ y ∧ y ≤ 101) : ∃ rand, drawEndpoints 1 ⟨x, y⟩ smallRand =
      .ok (⟨1, 1, drawn (y - 1) 2, drawn (x - 1) 2⟩, rand) := by
  have hrow : ∀ rand : Rand, rand.head = 0 ∨ rand.head = 2 →
      getOddNumber 1 1 (y - 1) rand = .ok (drawn (y - 1) rand.head, rand.tail) := fun _ hr =>
    getOddNumber_drawn (by omega) hr
  have hcol : ∀ rand : Rand, rand.head = 0 ∨ rand.head = 2 →
      getOddNumber 1 1 (x - 1) rand = .ok (drawn (x - 1) rand.head, rand.tail) := fun _ hr =>
    getOddNumber_drawn (by omega) hr
  simp only [drawEndpoints, bind_eq_ok]
  exact ⟨_, _, hrow smallRand (.inl rfl), _, hcol smallRand.tail (.inl rfl),
    _, hrow smallRand.tail.tail (.inr rfl), _, hcol smallRand.tail.tail.tail (.inr rfl), rfl⟩

/-- A side of 1 has a range that is not the one meant: its odd numbers are all outside of the
maze. -/
theorem generateMazeIn_outOfBounds {x y : ℤ} (hx : x = 1 ∨ 3 ≤ x ∧ x ≤ 101)
    (hy : y = 1 ∨ 3 ≤ y ∧ y ≤ 101) (hone : x = 1 ∨ y = 1) :
    generateMazeIn (InMaze ⟨x, y⟩) 2 y x .zero smallRand = .error .outOfBounds := by
  obtain ⟨rand, hdraw⟩ := drawEndpoints_smallRand hx hy
  have hne : ¬(1 = drawn (y - 1) 2 ∧ 1 = drawn (x - 1) 2) := by
    rcases hone with rfl | rfl
    · exact fun h => absurd h.2 (by decide)
    · exact fun h => absurd h.1 (by decide)
  have hends : chooseEndpoints 2 ⟨x, y⟩ smallRand =
      .ok (⟨1, 1, drawn (y - 1) 2, drawn (x - 1) 2⟩, rand) :=
    bind_eq_ok.mpr ⟨_, hdraw, if_neg hne⟩
  have hset : ∀ m : Maze, m.setCellIn (InMaze ⟨x, y⟩) 1 1 'S' = .error .outOfBounds := by
    intro m
    apply if_neg
    simp only [InMaze]
    omega
  rw [generateMazeIn]
  dsimp only
  rw [hends]
  change carveMazeIn (InMaze ⟨x, y⟩) 2 ⟨x, y⟩ _ _ _ >>= _ = _
  rw [carveMazeIn]
  dsimp only
  rw [hset]
  rfl

/-- So no size with a side below 3 can be generated: a side of 2 divides by zero, and a side of
1 writes outside of the maze. -/
theorem not_generates_of_small {x y : ℤ} (hx : 1 ≤ x) (hx' : x ≤ 101) (hy : 1 ≤ y) (hy' : y ≤ 101)
    (hsmall : x < 3 ∨ y < 3) : ¬Generates x y := by
  intro hg
  by_cases htwo : x = 2 ∨ y = 2
  · exact hg.divides 2 .zero smallRand (generateMaze_divideError (by omega) htwo)
  · exact hg.confined 2 .zero smallRand
      (generateMazeIn_outOfBounds (by omega) (by omega) (by omega))

/-- Nor can a size with a single odd cell, since its loop does not end on a rich stream. -/
theorem not_generates_of_single {x y : ℤ} (hsize : ProperSize ⟨x, y⟩) (hx : x < 5) (hy : y < 5) :
    ¬Generates x y := by
  intro hg
  have hcountable : Countable UInt32 :=
    (show Function.Injective UInt32.toNat from fun _ _ => UInt32.toNat_inj.mp).countable
  obtain ⟨rand, hrich⟩ := exists_rich UInt32
  obtain ⟨steps, m, hok⟩ := hg.ends .zero rand hrich
  obtain ⟨r, hends, _⟩ := bind_eq_ok.mp hok
  exact chooseEndpoints_ne_ok hsize hx hy hends

/-- For every accepted size: it can be generated exactly when both sides are at least 3 and one
of them is at least 5. -/
theorem generates_iff {x y : ℤ} (hx : 1 ≤ x) (hx' : x ≤ 101) (hy : 1 ≤ y) (hy' : y ≤ 101) :
    Generates x y ↔ 3 ≤ x ∧ 3 ≤ y ∧ (5 ≤ x ∨ 5 ≤ y) := by
  constructor
  · intro hg
    by_cases hsmall : x < 3 ∨ y < 3
    · exact absurd hg (not_generates_of_small hx hx' hy hy' hsmall)
    · by_contra hshort
      have hsize : ProperSize ⟨x, y⟩ := ⟨by dsimp only; omega, hx', by dsimp only; omega, hy'⟩
      exact not_generates_of_single hsize (by omega) (by omega) hg
  · rintro ⟨hx₃, hy₃, hlong⟩
    have hsize : ProperSize ⟨x, y⟩ := ⟨hx₃, hx', hy₃, hy'⟩
    refine ⟨fun steps maze rand herror => ?_, fun steps maze rand herror => ?_, fun maze rand => ?_⟩
    · rw [← generateMazeIn_inArray] at herror
      have hruns := generateMazeIn_onlyRuns hsize (fun p hp => hp.inArray hx' hy') steps maze rand
      exact absurd (hruns _ herror) (by decide)
    · have hinside : ∀ p, Interior ⟨x, y⟩ p → InMaze ⟨x, y⟩ p.1 p.2 := fun p hp => hp.onMap
      have hruns := generateMazeIn_onlyRuns hsize hinside steps maze rand
      exact absurd (hruns _ herror) (by decide)
    · exact exists_generateMaze_eq_ok hsize hlong maze

/-- The smallest size that works. It meets both bounds with equality. -/
theorem generates_five_three : Generates 5 3 :=
  (generates_iff (by decide) (by decide) (by decide) (by decide)).mpr (by decide)

/-- The first loop never ends for a size that the tests can ask for. -/
theorem not_generates_three_three : ¬∀ x y : ℤ, 1 ≤ x → x ≤ 101 → 1 ≤ y → y ≤ 101 →
    Generates x y := by
  intro hall
  have hsize : ProperSize ⟨3, 3⟩ := ⟨by decide, by decide, by decide, by decide⟩
  exact not_generates_of_single hsize (by decide) (by decide)
    (hall 3 3 (by decide) (by decide) (by decide) (by decide))

end UnixProgramming.Mazemod
