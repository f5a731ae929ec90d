import UnixProgramming.Mazemod.DepthFirst

/-!
# Generated mazes are perfect

The endpoints are rooms, the grid starts as one open room among walls, and `dfs`
turns it into a tree that contains every room. Writing `'E'` over an open cell
changes no wall. More steps never change a result, so the statements hold for
every number of steps with which `generate_maze` returns.
-/

namespace UnixProgramming.Mazemod

variable {coord : Coord} {e : Endpoints} {rand rand' : Rand} {steps steps' : ℕ}

/-- A random number between 1 and `max` lies strictly below `max`. -/
theorem randomBetween_one {max num : ℤ} {r : UInt32} (hmax : 2 ≤ max) (hmax' : max ≤ 100)
    (hok : randomBetween 1 max r = .ok num) : 1 ≤ num ∧ num < max := by
  have hmod : (max - 1) % 2 ^ 32 = max - 1 := Int.emod_eq_of_lt (by omega) (by omega)
  simp only [randomBetween, hmod] at hok
  split at hok
  · cases hok
  · obtain rfl := Except.ok.inj hok
    have hlow := Int.emod_nonneg (r.toNat : ℤ) (show max - 1 ≠ 0 by omega)
    have hhigh := Int.emod_lt_of_pos (r.toNat : ℤ) (show 0 < max - 1 by omega)
    rw [Int.bmod_eq_of_le (by omega) (by omega)]
    omega

/-- `get_odd_number(1, max)` returns an odd number below `max`. -/
theorem getOddNumber_one {max num : ℤ} (hmax : 2 ≤ max) (hmax' : max ≤ 100)
    (hok : getOddNumber steps 1 max rand = .ok (num, rand')) :
    1 ≤ num ∧ num < max ∧ num % 2 = 1 := by
  induction steps generalizing rand with
  | zero => cases hok
  | succ steps ih =>
    obtain ⟨n, hn, hok⟩ := bind_eq_ok.mp hok
    split at hok
    · exact ih hok
    · next hodd =>
      simp only [pure_eq_ok, Prod.mk.injEq] at hok
      obtain ⟨rfl, _⟩ := hok
      have := randomBetween_one hmax hmax' hn
      omega

/-- Start and end as cells. -/
def Endpoints.start (e : Endpoints) : Cell := (e.startRow, e.startCol)

def Endpoints.stop (e : Endpoints) : Cell := (e.endRow, e.endCol)

/-- The sizes for which the endpoints can be drawn inside the maze. -/
structure ProperSize (coord : Coord) : Prop where
  three_le_x : 3 ≤ coord.x
  x_le : coord.x ≤ mazeMaxX
  three_le_y : 3 ≤ coord.y
  y_le : coord.y ≤ mazeMaxY

/-- Endpoints as the first loop of `generate_maze` leaves them. -/
structure ProperEndpoints (coord : Coord) (e : Endpoints) : Prop where
  start_room : IsRoom e.start
  start_interior : Interior coord e.start
  stop_room : IsRoom e.stop
  stop_interior : Interior coord e.stop
  distinct : e.start ≠ e.stop

/-- One pass of the first loop draws two interior rooms. -/
theorem drawEndpoints_rooms (hsize : ProperSize coord)
    (hok : drawEndpoints steps coord rand = .ok (e, rand')) :
    IsRoom e.start ∧ Interior coord e.start ∧ IsRoom e.stop ∧ Interior coord e.stop := by
  obtain ⟨hx, hx', hy, hy'⟩ := hsize
  simp only [mazeMaxX, mazeMaxY] at hx' hy'
  simp only [drawEndpoints, bind_eq_ok, pure_eq_ok, Prod.mk.injEq] at hok
  obtain ⟨⟨sr, r₁⟩, hsr, ⟨sc, r₂⟩, hsc, ⟨er, r₃⟩, her, ⟨ec, r₄⟩, hec, rfl, _⟩ := hok
  have h₁ := getOddNumber_one (by omega) (by omega) hsr
  have h₂ := getOddNumber_one (by omega) (by omega) hsc
  have h₃ := getOddNumber_one (by omega) (by omega) her
  have h₄ := getOddNumber_one (by omega) (by omega) hec
  simp only [IsRoom, Interior, Endpoints.start, Endpoints.stop]
  omega

/-- The first loop ends with two different interior rooms. -/
theorem chooseEndpoints_proper (hsize : ProperSize coord)
    (hok : chooseEndpoints steps coord rand = .ok (e, rand')) : ProperEndpoints coord e := by
  induction steps generalizing rand with
  | zero => cases hok
  | succ steps ih =>
    obtain ⟨⟨e₁, rand₁⟩, hdraw, hok⟩ := bind_eq_ok.mp hok
    dsimp only at hok
    split at hok
    · exact ih hok
    · next hne =>
      simp only [pure_eq_ok, Prod.mk.injEq] at hok
      obtain ⟨rfl, _⟩ := hok
      obtain ⟨hstart, hstart', hstop, hstop'⟩ := drawEndpoints_rooms hsize hdraw
      refine ⟨hstart, hstart', hstop, hstop', fun heq => hne ?_⟩
      simpa [Endpoints.start, Endpoints.stop] using heq

/-- The grid on which `dfs` is called. -/
def startGrid (coord : Coord) (e : Endpoints) (maze : Maze) : Maze :=
  { ((fillWalls coord maze).put e.startRow e.startCol 'S').put e.startRow e.startCol '*' with
    sy := e.startRow
    sx := e.startCol }

theorem startGrid_blk (coord : Coord) (e : Endpoints) (maze : Maze) (i j : ℤ) :
    (startGrid coord e maze).blk i j = if (i, j) = e.start then '*'
      else if 0 ≤ i ∧ i < coord.y ∧ 0 ≤ j ∧ j < coord.x then '#' else maze.blk i j := by
  simp only [startGrid, Maze.put_blk, fillWalls, Endpoints.start, Prod.mk.injEq]
  grind

/-- Before `dfs` the start is the only open cell. -/
theorem openCells_startGrid (maze : Maze) (hstart : Interior coord e.start) :
    openCells coord (startGrid coord e maze) = {e.start} := by
  have hmap := hstart.onMap
  ext p
  simp only [openCells, Set.mem_ofPred_eq, Set.mem_singleton_iff, startGrid_blk, Prod.mk.eta]
  constructor
  · rintro ⟨h₁, h₂, h₃, h₄, hopen⟩
    by_contra hne
    simp [hne, h₁, h₂, h₃, h₄] at hopen
  · rintro rfl
    simpa using hmap

/-- A perfect maze: its border is closed, its rooms are open, one path leads between any two
open cells, and start and end are two different rooms. -/
structure PerfectMaze (m : MazeInfo) : Prop where
  border : ∀ row col, 0 ≤ row → row < m.coord.y → 0 ≤ col → col < m.coord.x →
    row = 0 ∨ row = m.coord.y - 1 ∨ col = 0 ∨ col = m.coord.x - 1 → m.maze.blk row col = '#'
  rooms : ∀ row col, 1 ≤ row → row ≤ m.coord.y - 2 → row % 2 = 1 →
    1 ≤ col → col ≤ m.coord.x - 2 → col % 2 = 1 → m.maze.blk row col ≠ '#'
  tree : ∀ p ∈ openCells m.coord m.maze, ∀ q ∈ openCells m.coord m.maze,
    ∃! walk : (within gridGraph (openCells m.coord m.maze)).Walk p q, walk.IsPath
  start_open : (m.maze.sy, m.maze.sx) ∈ openCells m.coord m.maze
  start_odd : m.maze.sy % 2 = 1 ∧ m.maze.sx % 2 = 1
  end_open : (m.maze.ey, m.maze.ex) ∈ openCells m.coord m.maze
  end_odd : m.maze.ey % 2 = 1 ∧ m.maze.ex % 2 = 1
  distinct : (m.maze.sy, m.maze.sx) ≠ (m.maze.ey, m.maze.ex)

/-- The maze after `'E'` is written over the carved grid. -/
def finishMaze (m : Maze) (e : Endpoints) : Maze :=
  { m.put e.endRow e.endCol 'E' with
    ey := e.endRow
    ex := e.endCol }

/-- Writing `'E'` on an open cell leaves the open cells as they are. -/
theorem openCells_finishMaze {m : Maze} (hmem : e.stop ∈ openCells coord m) :
    openCells coord (finishMaze m e) = openCells coord m := by
  ext p
  simp only [openCells, Set.mem_ofPred_eq, finishMaze, Maze.put_blk]
  by_cases hp : p.1 = e.endRow ∧ p.2 = e.endCol
  · obtain ⟨h₁, h₂, h₃, h₄, hopen⟩ := hmem
    obtain rfl : p = e.stop := Prod.ext hp.1 hp.2
    simp only [hp, and_self, if_true]
    exact ⟨fun _ => ⟨h₁, h₂, h₃, h₄, hopen⟩, fun _ => ⟨h₁, h₂, h₃, h₄, by decide⟩⟩
  · simp [hp]

/-- Exploring the start grid from the start and marking the end gives a perfect maze. -/
theorem Explored.perfectMaze {maze m : Maze} {pos : Coord} (hends : ProperEndpoints coord e)
    (hexplored : Explored coord e.start e.start (startGrid coord e maze) m) :
    PerfectMaze ⟨coord, pos, finishMaze m e⟩ := by
  have hopen := openCells_startGrid maze hends.start_interior
  have hstart : e.start ∈ openCells coord m := hexplored.carved.tree.root_mem
  -- no open room is left with a closed neighbouring room
  have hclosed : ∀ p ∈ openCells coord m, IsRoom p → ∀ dir, Interior coord (nextRoom p dir) →
      nextRoom p dir ∈ openCells coord m := by
    intro p hp hroom
    by_cases hold : p ∈ openCells coord (startGrid coord e maze)
    · rw [hopen] at hold
      obtain rfl := hold
      exact hexplored.closed
    · exact hexplored.grows.closed p hp hold hroom
  have hall : ∀ q, IsRoom q → Interior coord q → q ∈ openCells coord m := fun q =>
    mem_of_closed hclosed hstart hends.start_room hends.start_interior
  have hstop := hall _ hends.stop_room hends.stop_interior
  have hfinish := openCells_finishMaze hstop
  have hsy : (finishMaze m e).sy = e.startRow := by rw [finishMaze, hexplored.grows.fields]; rfl
  have hsx : (finishMaze m e).sx = e.startCol := by rw [finishMaze, hexplored.grows.fields]; rfl
  refine ⟨?_, ?_, ?_, ?_, ?_, ?_, hends.stop_room, ?_⟩
  · intro row col h₁ h₂ h₃ h₄ hborder
    by_contra hne
    have hmem : (row, col) ∈ openCells coord (finishMaze m e) := ⟨h₁, h₂, h₃, h₄, hne⟩
    rw [hfinish] at hmem
    have hin := hexplored.carved.interior _ hmem
    simp only [Interior] at hin hborder
    omega
  · intro row col h₁ h₂ h₃ h₄ h₅ h₆
    have hmem := hall (row, col) ⟨h₃, h₆⟩ (by simp only [Interior] at h₂ h₅ ⊢; omega)
    rw [← hfinish] at hmem
    exact hmem.2.2.2.2
  · have htree : SpansTree gridGraph e.start (openCells coord (finishMaze m e)) :=
      hfinish ▸ hexplored.carved.tree
    exact fun p hp q hq => htree.existsUnique_path hp hq
  · simp only [hsy, hsx, hfinish]
    exact hstart
  · simp only [hsy, hsx]
    exact hends.start_room
  · simp only [hfinish]
    exact hstop
  · simp only [hsy, hsx]
    exact hends.distinct

/-- `generate_maze` after its first loop, given enough steps, returns a perfect maze. -/
theorem carveMaze_perfect (hsize : ProperSize coord) (hends : ProperEndpoints coord e)
    (maze : Maze) (rand : Rand) (pos : Coord)
    (hsteps : wallCount coord (startGrid coord e maze) < steps) :
    ∃ m, carveMaze steps coord e maze rand = .ok m ∧ PerfectMaze ⟨coord, pos, m⟩ := by
  have hopen := openCells_startGrid maze hends.start_interior
  have hstart := hends.start_interior.inArray hsize.x_le hsize.y_le
  have hstop := hends.stop_interior.inArray hsize.x_le hsize.y_le
  obtain ⟨m, rand', hdfs, hexplored⟩ :=
    dfs_explores e.start hsize.x_le hsize.y_le steps e.start (startGrid coord e maze) rand
      (hopen ▸ .singleton hends.start_room hends.start_interior) (hopen ▸ rfl)
      hends.start_room hsteps
  refine ⟨finishMaze m e, ?_, hexplored.perfectMaze hends⟩
  have hput₁ : (fillWalls coord maze).setCell e.startRow e.startCol 'S' = .ok _ :=
    Maze.setCell_eq_ok.mpr ⟨hstart, rfl⟩
  have hput₂ : ((fillWalls coord maze).put e.startRow e.startCol 'S').setCell e.startRow
      e.startCol '*' = .ok _ := Maze.setCell_eq_ok.mpr ⟨hstart, rfl⟩
  have hput₃ : m.setCell e.endRow e.endCol 'E' = .ok _ := Maze.setCell_eq_ok.mpr ⟨hstop, rfl⟩
  simp only [carveMaze, bind_eq_ok]
  exact ⟨_, hput₁, _, hput₂, (m, rand'), hdfs, _, hput₃, rfl⟩

/-- A carved maze records the size and the start it was given. -/
theorem carveMaze_fields {maze m : Maze} (hok : carveMaze steps coord e maze rand = .ok m) :
    m.w = coord.y ∧ m.h = coord.x ∧ m.sy = e.startRow ∧ m.sx = e.startCol := by
  simp only [carveMaze, bind_eq_ok, pure_eq_ok] at hok
  obtain ⟨m₁, h₁, m₂, h₂, ⟨m₃, rand₂⟩, hdfs, m₄, h₄, rfl⟩ := hok
  have hfields := (Maze.sameFields_setCell h₁).trans (Maze.sameFields_setCell h₂)
  have hdfs' := dfs_sameFields hdfs
  have h₄' := Maze.sameFields_setCell h₄
  unfold Maze.SameFields at hfields hdfs' h₄'
  rw [h₄', hdfs', hfields]
  exact ⟨rfl, rfl, rfl, rfl⟩

/-- A generated maze records the size it was asked for, and the position is at its start. -/
theorem generateMaze_fields {rows cols : ℤ} {maze : Maze} {info : MazeInfo}
    (hok : generateMaze steps rows cols maze rand = .ok info) :
    info.coord = ⟨cols, rows⟩ ∧ info.maze.w = rows ∧ info.maze.h = cols ∧
      info.coordPos = ⟨info.maze.sx, info.maze.sy⟩ := by
  simp only [generateMaze, bind_eq_ok, pure_eq_ok] at hok
  obtain ⟨⟨e, rand₁⟩, _, m, hcarve, rfl⟩ := hok
  obtain ⟨hw, hh, _⟩ := carveMaze_fields hcarve
  exact ⟨rfl, hw, hh, rfl⟩

/-- `get_odd_number` returns an odd number, and none when its bounds coincide. -/
theorem getOddNumber_odd {min max num : ℤ}
    (hok : getOddNumber steps min max rand = .ok (num, rand')) : num % 2 = 1 ∧ min ≠ max := by
  induction steps generalizing rand with
  | zero => cases hok
  | succ steps ih =>
    obtain ⟨n, hn, hok⟩ := bind_eq_ok.mp hok
    split at hok
    · exact ih hok
    · simp only [pure_eq_ok, Prod.mk.injEq] at hok
      obtain ⟨rfl, _⟩ := hok
      refine ⟨by omega, ?_⟩
      rintro rfl
      simp [randomBetween] at hn

/-- The start that the first loop ends with is odd, and no side is 2. -/
theorem chooseEndpoints_odd (hok : chooseEndpoints steps coord rand = .ok (e, rand')) :
    e.startRow % 2 = 1 ∧ e.startCol % 2 = 1 ∧ coord.y ≠ 2 ∧ coord.x ≠ 2 := by
  induction steps generalizing rand with
  | zero => cases hok
  | succ steps ih =>
    obtain ⟨⟨e₁, rand₁⟩, hdraw, hok⟩ := bind_eq_ok.mp hok
    dsimp only at hok
    split at hok
    · exact ih hok
    · simp only [pure_eq_ok, Prod.mk.injEq] at hok
      obtain ⟨rfl, _⟩ := hok
      simp only [drawEndpoints, bind_eq_ok, pure_eq_ok, Prod.mk.injEq] at hdraw
      obtain ⟨⟨sr, r₁⟩, hsr, ⟨sc, r₂⟩, hsc, _, _, _, _, rfl, _⟩ := hdraw
      obtain ⟨hrow, hy⟩ := getOddNumber_odd hsr
      obtain ⟨hcol, hx⟩ := getOddNumber_odd hsc
      exact ⟨hrow, hcol, by omega, by omega⟩

/-- A maze that is generated with a side below 3 has its start outside. -/
theorem start_outside_of_small {rows cols : ℤ} {maze : Maze} {info : MazeInfo}
    (hok : generateMaze steps rows cols maze rand = .ok info)
    (hsmall : rows < 3 ∨ cols < 3) :
    ¬(0 ≤ info.maze.sy ∧ info.maze.sy < rows ∧ 0 ≤ info.maze.sx ∧ info.maze.sx < cols) := by
  simp only [generateMaze, bind_eq_ok, pure_eq_ok] at hok
  obtain ⟨⟨e, rand₁⟩, hends, m, hcarve, rfl⟩ := hok
  obtain ⟨_, _, hsy, hsx⟩ := carveMaze_fields hcarve
  obtain ⟨hrow, hcol, hy, hx⟩ := chooseEndpoints_odd hends
  dsimp only at hy hx hsy hsx ⊢
  omega

/-- `get_odd_number` keeps its result when more steps are granted. -/
theorem getOddNumber_mono {min max : ℤ} {r : ℤ × Rand} (hle : steps ≤ steps')
    (hok : getOddNumber steps min max rand = .ok r) :
    getOddNumber steps' min max rand = .ok r := by
  induction steps generalizing steps' rand with
  | zero => cases hok
  | succ steps ih =>
    obtain ⟨steps', rfl⟩ : ∃ n, steps' = n + 1 := ⟨steps' - 1, by omega⟩
    obtain ⟨num, hnum, hok⟩ := bind_eq_ok.mp hok
    refine bind_eq_ok.mpr ⟨num, hnum, ?_⟩
    split at hok
    · next heven => simpa only [heven, if_true] using ih (by omega) hok
    · next hodd => simpa only [hodd, if_false] using hok

/-- A pass of the first loop keeps its result when more steps are granted. -/
theorem drawEndpoints_mono {r : Endpoints × Rand} (hle : steps ≤ steps')
    (hok : drawEndpoints steps coord rand = .ok r) : drawEndpoints steps' coord rand = .ok r := by
  simp only [drawEndpoints, bind_eq_ok] at hok ⊢
  obtain ⟨r₁, h₁, r₂, h₂, r₃, h₃, r₄, h₄, hdrawn⟩ := hok
  exact ⟨r₁, getOddNumber_mono hle h₁, r₂, getOddNumber_mono hle h₂,
    r₃, getOddNumber_mono hle h₃, r₄, getOddNumber_mono hle h₄, hdrawn⟩

/-- The first loop keeps its result when more steps are granted. -/
theorem chooseEndpoints_mono {r : Endpoints × Rand} (hle : steps ≤ steps')
    (hok : chooseEndpoints steps coord rand = .ok r) :
    chooseEndpoints steps' coord rand = .ok r := by
  induction steps generalizing steps' rand with
  | zero => cases hok
  | succ steps ih =>
    obtain ⟨steps', rfl⟩ : ∃ n, steps' = n + 1 := ⟨steps' - 1, by omega⟩
    obtain ⟨drawn, hdraw, hok⟩ := bind_eq_ok.mp hok
    refine bind_eq_ok.mpr ⟨drawn, drawEndpoints_mono (by omega) hdraw, ?_⟩
    dsimp only at hok ⊢
    split at hok
    · next heq => simpa only [heq, and_self, if_true] using ih (by omega) hok
    · next hne => simpa only [hne, if_false] using hok

/-- `generate_maze` keeps its result when more steps are granted. -/
theorem generateMaze_mono {rows cols : ℤ} {maze : Maze} {m : MazeInfo} (hle : steps ≤ steps')
    (hok : generateMaze steps rows cols maze rand = .ok m) :
    generateMaze steps' rows cols maze rand = .ok m := by
  simp only [generateMaze, carveMaze, bind_eq_ok] at hok ⊢
  obtain ⟨r, hends, m₄, ⟨m₁, h₁, m₂, h₂, m₃, hdfs, hrest⟩, hm⟩ := hok
  exact ⟨r, chooseEndpoints_mono hle hends, m₄,
    ⟨m₁, h₁, m₂, h₂, m₃, dfs_mono hle hdfs, hrest⟩, hm⟩

/-- Once the first loop stops, `generate_maze` returns a perfect maze when it is
granted enough steps. -/
theorem generateMaze_returns (hsize : ProperSize coord) (maze : Maze)
    (hstop : ∃ steps r, chooseEndpoints steps coord rand = .ok r) :
    ∃ steps m, generateMaze steps coord.y coord.x maze rand = .ok m ∧ PerfectMaze m := by
  obtain ⟨steps, ⟨e, rand'⟩, hends⟩ := hstop
  have hproper := chooseEndpoints_proper hsize hends
  let enough := max steps (wallCount coord (startGrid coord e maze) + 1)
  obtain ⟨m, hcarve, hperfect⟩ :=
    carveMaze_perfect hsize hproper maze rand' ⟨e.startCol, e.startRow⟩
    (show wallCount coord (startGrid coord e maze) < enough by omega)
  have hends' := chooseEndpoints_mono (show steps ≤ enough by omega) hends
  refine ⟨enough, ⟨coord, ⟨m.sx, m.sy⟩, m⟩, ?_, ?_⟩
  · simp only [generateMaze, bind_eq_ok]
    exact ⟨(e, rand'), hends', m, hcarve, rfl⟩
  · exact ⟨hperfect.border, hperfect.rooms, hperfect.tree, hperfect.start_open,
      hperfect.start_odd, hperfect.end_open, hperfect.end_odd, hperfect.distinct⟩

/-- Whatever number of steps it is granted, `generate_maze` returns only perfect mazes. -/
theorem perfectMaze_of_ok {m : MazeInfo} {maze : Maze} (hsize : ProperSize coord)
    (hok : generateMaze steps coord.y coord.x maze rand = .ok m) : PerfectMaze m := by
  have hstop : ∃ steps r, chooseEndpoints steps coord rand = .ok r := by
    simp only [generateMaze, bind_eq_ok] at hok
    obtain ⟨r, hends, _⟩ := hok
    exact ⟨steps, r, hends⟩
  obtain ⟨steps', m', hok', hperfect⟩ := generateMaze_returns hsize maze hstop
  have h₁ := generateMaze_mono (le_max_left steps steps') hok
  have h₂ := generateMaze_mono (le_max_right steps steps') hok'
  rw [h₁] at h₂
  exact Except.ok.inj h₂ ▸ hperfect

/-- A stream on which the first draw already gives two different endpoints in a
maze of width 5 and height 3. -/
def sampleRand : Rand := fun n => if n = 3 then 2 else 0

theorem chooseEndpoints_sampleRand :
    ∃ steps r, chooseEndpoints steps ⟨5, 3⟩ sampleRand = .ok r :=
  ⟨2, exists_ok_of_isSome (by decide)⟩

end UnixProgramming.Mazemod
