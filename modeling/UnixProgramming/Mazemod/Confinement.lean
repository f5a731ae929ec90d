import UnixProgramming.Mazemod.Contents
import UnixProgramming.Mazemod.Returns

/-!
# Walks inside the maze

A move examines the cell that its deltas name, and nothing compares that cell with
the size of the maze. A walk is therefore confined exactly when its deltas, followed
with the walls of the maze as a client would simulate it, name cells of the maze
only. The walls on the border see to that for steps to a neighbouring cell.
-/

namespace UnixProgramming.Mazemod

open SlotTable

variable {s s' : State} {r : Request} {p : Process} {i : Slot} {b : Block}
variable {m m' : MazeInfo} {moves : List UserCoord}

/-- The row and column of the position. -/
def MazeInfo.pos (m : MazeInfo) : Cell := (m.coordPos.y, m.coordPos.x)

/-- The row and column of the start. -/
def MazeInfo.start (m : MazeInfo) : Cell := (m.maze.sy, m.maze.sx)

/-- The cell has a row in `[0, y)` and a column in `[0, x)`. -/
def OnMap (m : MazeInfo) (cell : Cell) : Prop :=
  0 ≤ cell.1 ∧ cell.1 < m.coord.y ∧ 0 ≤ cell.2 ∧ cell.2 < m.coord.x

/-- The cell is part of the maze and no wall. -/
def OpenCell (m : MazeInfo) (cell : Cell) : Prop :=
  OnMap m cell ∧ m.maze.blk cell.1 cell.2 ≠ '#'

/-- A maze whose position and start are open cells, with walls on its border. -/
structure Inside (m : MazeInfo) : Prop where
  x_le : m.coord.x ≤ mazeMaxX
  y_le : m.coord.y ≤ mazeMaxY
  pos_open : OpenCell m m.pos
  start_open : OpenCell m m.start
  border : ∀ cell, OnMap m cell → cell.1 = 0 ∨ cell.1 = m.coord.y - 1 ∨ cell.2 = 0 ∨
    cell.2 = m.coord.x - 1 → m.maze.blk cell.1 cell.2 = '#'

/-- The cells that the moves examine, one for each move until an access leaves the
array. -/
def examined (m : MazeInfo) : List UserCoord → List Cell
  | [] => []
  | d :: ds => target m d.toCoord :: match tryMove m d.toCoord with
    | .ok m' => examined m' ds
    | .error _ => []

/-- Where a step from `cell` to `next` ends: a wall keeps it from moving. -/
def MazeInfo.stepTo (m : MazeInfo) (cell next : Cell) : Cell :=
  if m.maze.blk next.1 next.2 = '#' then cell else next

/-- The deltas name cells of the maze only, when each of them is added to the cell
that the earlier ones lead to, walls respected. -/
def NamesCells (m : MazeInfo) : Cell → List UserCoord → Prop
  | _, [] => True
  | cell, d :: ds =>
    let next : Cell := (cell.1 + d.y.toInt, cell.2 + d.x.toInt)
    OnMap m next ∧ NamesCells m (m.stepTo cell next) ds

/-- The walk examines cells of the maze only, and the operation returns with the
position on an open cell of the maze. -/
def Confined (s : State) (r : Request) : Prop :=
  ∀ p moves i b, walk r = some (p, moves) → userBlock s p = some (i, b) →
    (∀ cell ∈ examined b.info moves, OnMap b.info cell) ∧
    ∃ reply s', (∀ steps, perform steps s r = .ok (reply, s')) ∧
      ∃ b', userBlock s' p = some (i, b') ∧ b'.info.coord = b.info.coord ∧
        b'.info.maze = b.info.maze ∧ OpenCell b'.info b'.info.pos

/-- The moves of the operation name cells of the caller's maze only. -/
def StaysOnMap (s : State) (r : Request) : Prop :=
  ∀ p moves i b, walk r = some (p, moves) → userBlock s p = some (i, b) →
    NamesCells b.info b.info.pos moves

/-- A maze that the operation creates has sides of at least 3. -/
def CreatesProper (s : State) (r : Request) : Prop :=
  ∀ c, createdSize s r = some c → 3 ≤ c.toCoord.x ∧ 3 ≤ c.toCoord.y

/-- Adding a delta to a coordinate of the maze gives another one exactly when it does
so without wrapping. -/
theorem addInt_inside {a n : ℤ} {d : Int32} (ha : 0 ≤ a) (ha' : a < n) (hn : n ≤ 101) :
    (0 ≤ addInt a d.toInt ∧ addInt a d.toInt < n ↔ 0 ≤ a + d.toInt ∧ a + d.toInt < n) ∧
      (0 ≤ a + d.toInt ∧ a + d.toInt < n → addInt a d.toInt = a + d.toInt) := by
  have hlow := d.le_toInt
  have hhigh := d.toInt_lt
  unfold addInt
  rw [Int.bmod_def]
  split <;> omega

/-- The examined cell lies on the map exactly when the deltas name a cell of the
maze, and then it is that cell. -/
theorem onMap_target (hin : Inside m) (d : UserCoord) :
    (OnMap m (target m d.toCoord) ↔ OnMap m (m.pos.1 + d.y.toInt, m.pos.2 + d.x.toInt)) ∧
      (OnMap m (m.pos.1 + d.y.toInt, m.pos.2 + d.x.toInt) →
        target m d.toCoord = (m.pos.1 + d.y.toInt, m.pos.2 + d.x.toInt)) := by
  obtain ⟨⟨hr, hr', hc, hc'⟩, _⟩ := hin.pos_open
  obtain ⟨hrow, hrow'⟩ := addInt_inside (d := d.y) hr hr' hin.y_le
  obtain ⟨hcol, hcol'⟩ := addInt_inside (d := d.x) hc hc' hin.x_le
  constructor
  · exact and_assoc.symm.trans ((and_congr hrow hcol).trans and_assoc)
  · rintro ⟨h₁, h₂, h₃, h₄⟩
    exact Prod.ext (hrow' ⟨h₁, h₂⟩) (hcol' ⟨h₃, h₄⟩)

/-- The map is part of the array. -/
theorem Inside.inArray (hin : Inside m) {cell : Cell} (hmap : OnMap m cell) :
    InArray cell.1 cell.2 := by
  have := hin.x_le
  have := hin.y_le
  obtain ⟨h₁, h₂, h₃, h₄⟩ := hmap
  exact ⟨h₁, by omega, h₃, by omega⟩

/-- The maze after a move to `cell`, when that is a cell of the maze. -/
def MazeInfo.moveTo (m : MazeInfo) (cell : Cell) : MazeInfo :=
  if m.maze.blk cell.1 cell.2 = '#' then m else { m with coordPos := ⟨cell.2, cell.1⟩ }

@[simp] theorem MazeInfo.moveTo_maze (m : MazeInfo) (cell : Cell) :
    (m.moveTo cell).maze = m.maze := by
  unfold moveTo
  split <;> rfl

@[simp] theorem MazeInfo.moveTo_coord (m : MazeInfo) (cell : Cell) :
    (m.moveTo cell).coord = m.coord := by
  unfold moveTo
  split <;> rfl

theorem MazeInfo.moveTo_pos (m : MazeInfo) (cell : Cell) :
    (m.moveTo cell).pos = m.stepTo m.pos cell := by
  unfold moveTo stepTo
  split <;> rfl

/-- A move that returns examines a cell of the array. -/
theorem tryMove_eq_ok {d : Coord} :
    tryMove m d = .ok m' ↔ InArray (target m d).1 (target m d).2 ∧ m.moveTo (target m d) = m' := by
  simp only [tryMove, bind_eq_ok, Maze.cell_eq_ok, MazeInfo.moveTo]
  by_cases hwall : m.maze.blk (target m d).1 (target m d).2 = '#' <;> simp [hwall]

/-- Being on the map and being open depend on the size and the maze only. -/
theorem onMap_congr (hcoord : m'.coord = m.coord) {cell : Cell} :
    OnMap m' cell ↔ OnMap m cell := by
  simp only [OnMap, hcoord]

theorem openCell_congr (hcoord : m'.coord = m.coord) (hmaze : m'.maze = m.maze) {cell : Cell} :
    OpenCell m' cell ↔ OpenCell m cell := by
  simp only [OpenCell, OnMap, hcoord, hmaze]

/-- A maze stays proper when its position moves to an open cell. -/
theorem Inside.of_pos (hin : Inside m) (hcoord : m'.coord = m.coord) (hmaze : m'.maze = m.maze)
    (hpos : OpenCell m m'.pos) : Inside m' where
  x_le := hcoord ▸ hin.x_le
  y_le := hcoord ▸ hin.y_le
  pos_open := (openCell_congr hcoord hmaze).mpr hpos
  start_open := by
    have hstart := hin.start_open
    simp only [MazeInfo.start, ← hmaze] at hstart
    exact (openCell_congr hcoord hmaze).mpr hstart
  border cell hmap hborder := by
    rw [hmaze]
    rw [hcoord] at hborder
    exact hin.border cell ((onMap_congr hcoord).mp hmap) hborder

/-- `MAZE_RESET` keeps the position on an open cell. -/
theorem Inside.atStart (hin : Inside m) : Inside m.atStart :=
  hin.of_pos rfl rfl hin.start_open

/-- A move to a cell of the maze keeps the position on an open cell. -/
theorem Inside.moveTo (hin : Inside m) {cell : Cell} (hmap : OnMap m cell) :
    Inside (m.moveTo cell) := by
  refine hin.of_pos (m.moveTo_coord cell) (m.moveTo_maze cell) ?_
  rw [MazeInfo.moveTo_pos, MazeInfo.stepTo]
  split
  · exact hin.pos_open
  · next hopen => exact ⟨hmap, hopen⟩

/-- What the deltas name depends on the size and the maze only. -/
theorem namesCells_moveTo {cell cell' : Cell} :
    NamesCells (m.moveTo cell) cell' moves ↔ NamesCells m cell' moves := by
  induction moves generalizing cell' with
  | nil => rfl
  | cons d ds ih =>
    simp only [NamesCells, MazeInfo.stepTo, MazeInfo.moveTo_maze, ih,
      onMap_congr (m.moveTo_coord cell)]

/-- One step of a walk whose delta names a cell of the maze. -/
theorem tryMove_onMap (hin : Inside m) {d : UserCoord} (hmap : OnMap m (target m d.toCoord)) :
    tryMove m d.toCoord = .ok (m.moveTo (target m d.toCoord)) :=
  tryMove_eq_ok.mpr ⟨hin.inArray hmap, rfl⟩

/-- From an open cell of the maze, a walk examines cells of the maze only exactly when
its deltas name no others. The induction is on the moves; the position changes. -/
theorem examined_onMap_iff (hin : Inside m) (moves : List UserCoord) :
    (∀ cell ∈ examined m moves, OnMap m cell) ↔ NamesCells m m.pos moves := by
  induction moves generalizing m with
  | nil => simp [examined, NamesCells]
  | cons d ds ih =>
    obtain ⟨hiff, htarget⟩ := onMap_target hin d
    simp only [examined, NamesCells, List.forall_mem_cons, hiff]
    refine and_congr_right fun hmap => ?_
    have hmap' := hiff.mpr hmap
    rw [tryMove_onMap hin hmap', ← htarget hmap, ← MazeInfo.moveTo_pos, ← namesCells_moveTo,
      ← ih (hin.moveTo hmap')]
    simp only [onMap_congr (m.moveTo_coord _)]

/-- A walk whose deltas name cells of the maze only returns, on an open cell. -/
theorem writeMoves_returns (hin : Inside m) (hnames : NamesCells m m.pos moves) :
    ∃ m', writeMoves m moves = .ok m' ∧ m'.coord = m.coord ∧ m'.maze = m.maze ∧ Inside m' := by
  induction moves generalizing m with
  | nil => exact ⟨m, rfl, rfl, rfl, hin⟩
  | cons d ds ih =>
    obtain ⟨hmap, hrest⟩ := hnames
    obtain ⟨hiff, htarget⟩ := onMap_target hin d
    have hmap' := hiff.mpr hmap
    rw [← htarget hmap, ← MazeInfo.moveTo_pos, ← namesCells_moveTo] at hrest
    obtain ⟨m', hok, hcoord, hmaze, hin'⟩ := ih (hin.moveTo hmap') hrest
    refine ⟨m', foldlM_cons_eq_ok.mpr ⟨_, tryMove_onMap hin hmap', hok⟩, ?_, ?_, hin'⟩
    · rw [hcoord, MazeInfo.moveTo_coord]
    · rw [hmaze, MazeInfo.moveTo_maze]

/-- Steps to a neighbouring cell, or none at all, never leave the maze: the border
has walls only. -/
theorem namesCells_of_unit (hin : Inside m)
    (hunit : ∀ d ∈ moves, d.x.toInt.natAbs + d.y.toInt.natAbs ≤ 1) : NamesCells m m.pos moves := by
  induction moves generalizing m with
  | nil => trivial
  | cons d ds ih =>
    have hd := hunit d List.mem_cons_self
    have hmap : OnMap m (m.pos.1 + d.y.toInt, m.pos.2 + d.x.toInt) := by
      obtain ⟨hpos, hopen⟩ := hin.pos_open
      have hborder := mt (hin.border m.pos hpos) hopen
      simp only [OnMap] at hpos ⊢
      omega
    obtain ⟨hiff, htarget⟩ := onMap_target hin d
    refine ⟨hmap, ?_⟩
    rw [← htarget hmap, ← MazeInfo.moveTo_pos, ← namesCells_moveTo]
    exact ih (hin.moveTo (hiff.mpr hmap)) fun d' hd' => hunit d' (List.mem_cons_of_mem d hd')

/-- A generated maze with sides of at least 3 is proper. -/
theorem Inside.of_generated {coord : Coord} {steps : ℕ} {maze : Maze} {rand : Rand}
    (hsize : ProperSize coord)
    (hok : generateMaze steps coord.y coord.x maze rand = .ok m) : Inside m := by
  have hperfect := perfectMaze_of_ok hsize hok
  obtain ⟨hcoord, _, _, hpos⟩ := generateMaze_fields hok
  have hstart : OpenCell m m.start := by
    obtain ⟨h₁, h₂, h₃, h₄, hopen⟩ := hperfect.start_open
    exact ⟨⟨h₁, h₂, h₃, h₄⟩, hopen⟩
  have hcoord' : m.coord = coord := hcoord
  refine ⟨hcoord' ▸ hsize.x_le, hcoord' ▸ hsize.y_le, ?_, hstart, ?_⟩
  · rw [MazeInfo.pos, hpos]
    exact hstart
  · exact fun cell ⟨h₁, h₂, h₃, h₄⟩ => hperfect.border cell.1 cell.2 h₁ h₂ h₃ h₄

/-- Every maze in a slot is proper. -/
def AllInside (s : State) : Prop := ∀ j b, s.mazeUserInfo j = some b → Inside b.info

/-- One operation that creates no maze with a side below 3 and whose moves name cells
of the maze only keeps all mazes proper. -/
theorem allInside_step (hin : AllInside s) (hcreates : CreatesProper s r)
    (hstays : StaysOnMap s r) (hstep : Step s r s') : AllInside s' := by
  refine hstep.forall_blocks hin ?_ (fun m hm => hm.atStart) ?_
  · intro c steps rand m hcreate hvalid hok
    obtain ⟨hx, hy⟩ := hcreates c hcreate
    simp only [badSize, Bool.or_eq_false_iff, decide_eq_false_iff_not] at hvalid
    exact .of_generated ⟨hx, by omega, hy, by omega⟩ hok
  · intro p moves j b m hwalk hblock hb hok
    obtain ⟨m', hok', _, _, hin'⟩ := writeMoves_returns hb (hstays p moves j b hwalk hblock)
    obtain rfl : m' = m := Except.ok.inj (hok'.symm.trans hok)
    exact hin'

/-- An operation that walks returns when its walk does, with the maze after it. -/
theorem perform_walk (hwalk : walk r = some (p, moves)) (hblock : userBlock s p = some (i, b))
    (hok : writeMoves b.info moves = .ok m') :
    ∃ reply s', (∀ steps, perform steps s r = .ok (reply, s')) ∧
      userBlock s' p = some (i, { b with info := m' }) := by
  unfold walk at hwalk
  split at hwalk
  · simp only [Option.some.injEq, Prod.mk.injEq] at hwalk
    obtain ⟨rfl, rfl⟩ := hwalk
    obtain ⟨m₁, hmove, hrest⟩ := foldlM_cons_eq_ok.mp hok
    obtain rfl : m₁ = m' := Except.ok.inj hrest
    refine ⟨.code 0, _, fun steps => ?_, userBlock_setInfo rfl hblock _⟩
    simp only [perform, mazemodDevIoctl, ioctlMove, hblock, bind_eq_ok]
    exact ⟨m₁, hmove, rfl⟩
  · next _ buf =>
    split at hwalk
    · next hcount =>
      simp only [Option.some.injEq, Prod.mk.injEq] at hwalk
      obtain ⟨rfl, rfl⟩ := hwalk
      refine ⟨.code buf.length, s.kmalloc.2.setInfo i (some { b with info := m' }), fun steps => ?_,
        userBlock_setInfo rfl hblock _⟩
      simp only [perform, mazemodDevWrite, hblock, Bool.not_true, Bool.false_eq_true, if_false,
        hcount, ne_eq, not_true_eq_false, bind_eq_ok]
      exact ⟨m', hok, rfl⟩
    · cases hwalk
  · cases hwalk

/-- With proper mazes, a walk is confined exactly when its deltas name cells of the
caller's maze only. -/
theorem confined_iff (hin : AllInside s) : Confined s r ↔ StaysOnMap s r := by
  refine forall_congr' fun p => forall_congr' fun moves => forall_congr' fun i =>
    forall_congr' fun b => forall_congr' fun hwalk => forall_congr' fun hblock => ?_
  have hb := hin i b (userBlock_eq_some.mp hblock).2
  rw [examined_onMap_iff hb]
  refine and_iff_left_of_imp fun hnames => ?_
  obtain ⟨m', hok, hcoord, hmaze, hin'⟩ := writeMoves_returns hb hnames
  obtain ⟨reply, s', hperform, hblock'⟩ := perform_walk hwalk hblock hok
  exact ⟨reply, s', hperform, _, hblock', hcoord, hmaze, hin'.pos_open⟩

/-- In every state of a run whose completed creations have sides of at least 3 and
whose walks name cells of the maze only, every position is an open cell of its maze,
and the next walk is confined exactly when its deltas name cells of the maze only. -/
theorem confinement_run {history : List (State × Request)} (hrun : DeviceRun history s)
    (hsteps : EachStep (fun s r => CreatesProper s r ∧ StaysOnMap s r) history) :
    Throughout (fun s => (∀ j b, s.mazeUserInfo j = some b → OpenCell b.info b.info.pos) ∧
      ∀ r, Confined s r ↔ StaysOnMap s r) history s := by
  have hall : Throughout AllInside history s := by
    refine hrun.throughout_of_step (by simp [AllInside, State.init]) ?_ hsteps
    exact fun s r s' hin hcond hstep => allInside_step hin hcond.1 hcond.2 hstep
  have hgoal : ∀ s, AllInside s → (∀ j b, s.mazeUserInfo j = some b → OpenCell b.info b.info.pos) ∧
      ∀ r, Confined s r ↔ StaysOnMap s r :=
    fun s hin => ⟨fun j b hb => (hin j b hb).pos_open, fun r => confined_iff hin⟩
  exact ⟨hgoal s hall.1, fun x hx => hgoal x.1 (hall.2 x hx)⟩

/-- The sample creation makes a maze of width 5 and height 3, and no move. -/
theorem sampleCreate_proper (s : State) (n : ℕ) :
    CreatesProper s (sampleCreate n) ∧ StaysOnMap s (sampleCreate n) := by
  refine ⟨fun c hcreate => ?_, fun p moves i b hwalk => by cases hwalk⟩
  simp only [sampleCreate, createdSize] at hcreate
  split at hcreate
  · cases hcreate
    decide
  · cases hcreate

/-- A run that creates the sample maze after module load. -/
theorem confinement_run_create : ∃ s, DeviceRun [(State.init, sampleCreate 0)] s ∧
    Throughout (fun s => (∀ j b, s.mazeUserInfo j = some b → OpenCell b.info b.info.pos) ∧
      ∀ r, Confined s r ↔ StaysOnMap s r) [(State.init, sampleCreate 0)] s := by
  obtain ⟨s, hstep⟩ := returns_sampleCreate 0 State.init
  have hrun : DeviceRun [(State.init, sampleCreate 0)] s := .step .start hstep
  exact ⟨s, hrun, confinement_run hrun (by simpa using sampleCreate_proper _ _)⟩

/-- After module load a process creates the sample maze. -/
theorem exists_sample_maze : ∃ s i b, DeviceReachable s ∧
    userBlock s (sampleProcess 0) = some (i, b) ∧ b.info.coord = sampleSize.toCoord ∧
      Inside b.info := by
  obtain ⟨s, hstep⟩ := returns_sampleCreate 0 State.init
  obtain ⟨hcreates, hstays⟩ := sampleCreate_proper .init 0
  have hnone : ∀ j b, State.init.mazeUserInfo j = some b → False := by simp [State.init]
  have hin : AllInside s := allInside_step (fun j b hb => (hnone j b hb).elim) hcreates hstays hstep
  have hcoord : ∀ j b, s.mazeUserInfo j = some b → b.info.coord = sampleSize.toCoord := by
    refine hstep.forall_blocks (P := fun m => m.coord = sampleSize.toCoord)
      (fun j b hb => (hnone j b hb).elim) ?_ (fun m hm => hm)
      (fun p moves j b m hwalk => by cases hwalk)
    intro c steps rand m hcreate _ hok
    simp only [sampleCreate, createdSize] at hcreate
    split at hcreate
    · cases hcreate
      exact (generateMaze_fields hok).1
    · cases hcreate
  have hmaze : s.table.HasMaze (sampleProcess 0) := by
    rw [hstep.table]
    decide
  obtain ⟨⟨i, b⟩, hblock⟩ := Option.isSome_iff_exists.mp (haveMaze_iff.mpr hmaze)
  have hslot := (userBlock_eq_some.mp hblock).2
  exact ⟨s, i, b, reachable_init.step hstep, hblock, hcoord i b hslot, hin i b hslot⟩

/-- In the sample maze a `MAZE_MOVE` by 1000 columns examines a cell outside the array. -/
theorem not_confined_far_move : ¬∀ s, DeviceReachable s → ∀ r, Confined s r := by
  intro hall
  obtain ⟨s, i, b, hreach, hblock, _, hb⟩ := exists_sample_maze
  have hconfined := hall s hreach
    (.ioctl (sampleProcess 0) (.move (some ⟨1000, 0⟩)) sampleRand) _ _ i b rfl hblock
  obtain ⟨_, _, _, hcol⟩ := (onMap_target hb ⟨1000, 0⟩).1.mp
    (hconfined.1 _ List.mem_cons_self)
  have hx := hb.x_le
  obtain ⟨⟨_, _, hpos, _⟩, _⟩ := hb.pos_open
  have hdelta : (1000 : Int32).toInt = 1000 := by decide
  simp only [hdelta, mazeMaxX] at hcol hx
  omega

end UnixProgramming.Mazemod
