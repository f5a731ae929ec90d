import UnixProgramming.Mazemod.Confinement

/-!
# What a maze keeps of earlier ones

`generate_maze` works on a static maze of full size and fills the part it was asked
for only. Two generations from the same random numbers therefore agree on their map,
whatever was generated before, and a walk that stays on the map goes the same way
in both.
-/

namespace UnixProgramming.Mazemod

variable {coord : Coord} {m m' : Maze} {info info' : MazeInfo}

/-- The mazes have the same cells on a map of the size. -/
def Maze.AgreeOn (coord : Coord) (m m' : Maze) : Prop :=
  ∀ row col, 0 ≤ row → row < coord.y → 0 ≤ col → col < coord.x →
    m'.blk row col = m.blk row col

/-- The mazes differ in cells outside their map only. -/
structure MazeInfo.Alike (info info' : MazeInfo) : Prop where
  coord : info'.coord = info.coord
  coordPos : info'.coordPos = info.coordPos
  fields : info.maze.SameFields info'.maze
  cells : Maze.AgreeOn info.coord info.maze info'.maze

/-- Assigning the same character to the same cell keeps the agreement. -/
theorem Maze.AgreeOn.setCell {row col : ℤ} {c : Char} {m₁ : Maze} (hagree : AgreeOn coord m m')
    (hok : m.setCell row col c = .ok m₁) :
    ∃ m₁', m'.setCell row col c = .ok m₁' ∧ AgreeOn coord m₁ m₁' := by
  obtain ⟨harray, rfl⟩ := Maze.setCell_eq_ok.mp hok
  refine ⟨m'.put row col c, Maze.setCell_eq_ok.mpr ⟨harray, rfl⟩, fun i j h₁ h₂ h₃ h₄ => ?_⟩
  rw [Maze.put_blk, Maze.put_blk, hagree i j h₁ h₂ h₃ h₄]

/-- One direction of `dfs` looks at cells of the map only. -/
theorem dfsVisit_agree {recur : ℤ → ℤ → Maze × Rand → Except Fault (Maze × Rand)}
    (hrecur : ∀ row col m m' rand st, Maze.AgreeOn coord m m' →
      recur row col (m, rand) = .ok st →
      ∃ m₁', recur row col (m', rand) = .ok (m₁', st.2) ∧ Maze.AgreeOn coord st.1 m₁')
    {row col : ℤ} {rand : Rand} {st : Maze × Rand} {dir : Fin 4}
    (hagree : Maze.AgreeOn coord m m')
    (hok : dfsVisit recur coord row col (m, rand) dir = .ok st) :
    ∃ m₁', dfsVisit recur coord row col (m', rand) dir = .ok (m₁', st.2) ∧
      Maze.AgreeOn coord st.1 m₁' := by
  unfold dfsVisit at hok ⊢
  dsimp only at hok ⊢
  split at hok
  · next hskip =>
    obtain rfl := pure_eq_ok.mp hok
    exact ⟨m', by rw [if_pos hskip]; rfl, hagree⟩
  · next hvisit =>
    rw [if_neg hvisit]
    obtain ⟨c, hcell, hok⟩ := bind_eq_ok.mp hok
    obtain ⟨harray, hc⟩ := Maze.cell_eq_ok.mp hcell
    have hcell' : m'.cell (row + dirX dir * 2) (col + dirY dir * 2) = .ok c := by
      refine Maze.cell_eq_ok.mpr ⟨harray, ?_⟩
      rw [hagree _ _ (by omega) (by omega) (by omega) (by omega), hc]
    split at hok
    · next hwall =>
      obtain ⟨m₁, hset₁, hok⟩ := bind_eq_ok.mp hok
      obtain ⟨m₂, hset₂, hok⟩ := bind_eq_ok.mp hok
      obtain ⟨m₁', hset₁', hagree₁⟩ := hagree.setCell hset₁
      obtain ⟨m₂', hset₂', hagree₂⟩ := hagree₁.setCell hset₂
      obtain ⟨m₃', hcall, hagree₃⟩ := hrecur _ _ _ _ _ _ hagree₂ hok
      refine ⟨m₃', bind_eq_ok.mpr ⟨c, hcell', ?_⟩, hagree₃⟩
      rw [if_pos hwall]
      exact bind_eq_ok.mpr ⟨m₁', hset₁', bind_eq_ok.mpr ⟨m₂', hset₂', hcall⟩⟩
    · next hopen =>
      obtain rfl := pure_eq_ok.mp hok
      refine ⟨m', bind_eq_ok.mpr ⟨c, hcell', ?_⟩, hagree⟩
      rw [if_neg hopen]
      rfl

/-- `dfs` looks at cells of the map only. The induction is on the depth. -/
theorem dfs_agree {depth : ℕ} {row col : ℤ} {rand : Rand} {st : Maze × Rand}
    (hagree : Maze.AgreeOn coord m m') (hok : dfs coord depth row col (m, rand) = .ok st) :
    ∃ m₁', dfs coord depth row col (m', rand) = .ok (m₁', st.2) ∧
      Maze.AgreeOn coord st.1 m₁' := by
  induction depth generalizing row col m m' rand st with
  | zero => cases hok
  | succ depth ih =>
    simp only [dfs] at hok ⊢
    have hloop := foldlM_simulates
      (R := fun st₁ st₂ => st₂.2 = st₁.2 ∧ Maze.AgreeOn coord st₁.1 st₂.1)
      (g := fun st i => dfsVisit (dfs coord depth) coord row col st ((shuffle rand).1 i))
      (c := (m', (shuffle rand).2)) ?_ ⟨rfl, hagree⟩ hok
    · obtain ⟨⟨m₁', rand'⟩, hok', hrand, hagree'⟩ := hloop
      dsimp only at hrand
      exact ⟨m₁', hrand ▸ hok', hagree'⟩
    · rintro ⟨m₁, rand₁⟩ ⟨m₂, rand₂⟩ i st₁ ⟨hrand, hagree₁⟩ hvisit
      dsimp only at hrand hagree₁
      subst hrand
      obtain ⟨m₂', hvisit', hagree'⟩ :=
        dfsVisit_agree (fun row col m m' rand st h hok => ih h hok) hagree₁ hvisit
      exact ⟨(m₂', st₁.2), hvisit', rfl, hagree'⟩

/-- The end that a generated maze records. -/
theorem carveMaze_stop {steps : ℕ} {e : Endpoints} {maze : Maze} {rand : Rand}
    (hok : carveMaze steps coord e maze rand = .ok m) : m.ey = e.endRow ∧ m.ex = e.endCol := by
  simp only [carveMaze, bind_eq_ok, pure_eq_ok] at hok
  obtain ⟨_, _, _, _, _, _, _, _, rfl⟩ := hok
  exact ⟨rfl, rfl⟩

/-- What `generate_maze` carves does not depend on what the static maze held before. -/
theorem carveMaze_agree {steps : ℕ} {e : Endpoints} {maze : Maze} {rand : Rand} (maze' : Maze)
    (hok : carveMaze steps coord e maze rand = .ok m) :
    ∃ m', carveMaze steps coord e maze' rand = .ok m' ∧ m.SameFields m' ∧
      Maze.AgreeOn coord m m' := by
  have hfilled : Maze.AgreeOn coord (fillWalls coord maze) (fillWalls coord maze') := by
    intro row col h₁ h₂ h₃ h₄
    have hin : 0 ≤ row ∧ row < coord.y ∧ 0 ≤ col ∧ col < coord.x := ⟨h₁, h₂, h₃, h₄⟩
    simp only [fillWalls, if_pos hin]
  have hcarved : ∃ m', carveMaze steps coord e maze' rand = .ok m' ∧ Maze.AgreeOn coord m m' := by
    simp only [carveMaze, bind_eq_ok, pure_eq_ok] at hok ⊢
    obtain ⟨m₁, h₁, m₂, h₂, ⟨m₃, rand₃⟩, h₃, m₄, h₄, rfl⟩ := hok
    obtain ⟨m₁', h₁', hagree₁⟩ := hfilled.setCell h₁
    obtain ⟨m₂', h₂', hagree₂⟩ := hagree₁.setCell h₂
    have hstart : Maze.AgreeOn coord { m₂ with sy := e.startRow, sx := e.startCol }
        { m₂' with sy := e.startRow, sx := e.startCol } := hagree₂
    obtain ⟨m₃', h₃', hagree₃⟩ := dfs_agree hstart h₃
    obtain ⟨m₄', h₄', hagree₄⟩ := hagree₃.setCell h₄
    exact ⟨_, ⟨m₁', h₁', m₂', h₂', _, h₃', m₄', h₄', rfl⟩, hagree₄⟩
  obtain ⟨m', hok', hagree⟩ := hcarved
  refine ⟨m', hok', ?_, hagree⟩
  obtain ⟨hw, hh, hsy, hsx⟩ := carveMaze_fields hok
  obtain ⟨hw', hh', hsy', hsx'⟩ := carveMaze_fields hok'
  obtain ⟨hey, hex⟩ := carveMaze_stop hok
  obtain ⟨hey', hex'⟩ := carveMaze_stop hok'
  obtain ⟨w, h, sx, sy, ex, ey, blk⟩ := m
  obtain ⟨w', h', sx', sy', ex', ey', blk'⟩ := m'
  simp only at hw hh hsy hsx hw' hh' hsy' hsx' hey hex hey' hex'
  simp only [Maze.SameFields, Maze.mk.injEq, and_true]
  omega

/-- Two generations from the same random numbers are alike. -/
theorem generateMaze_alike {steps : ℕ} {rows cols : ℤ} {maze : Maze} {rand : Rand} (maze' : Maze)
    (hok : generateMaze steps rows cols maze rand = .ok info) :
    ∃ info', generateMaze steps rows cols maze' rand = .ok info' ∧ info.Alike info' := by
  simp only [generateMaze, bind_eq_ok, pure_eq_ok] at hok ⊢
  obtain ⟨⟨e, rand₁⟩, hends, m, hcarve, rfl⟩ := hok
  obtain ⟨m', hcarve', hfields, hagree⟩ := carveMaze_agree maze' hcarve
  refine ⟨_, ⟨(e, rand₁), hends, m', hcarve', rfl⟩, rfl, ?_, hfields, hagree⟩
  rw [hfields]

/-- Alike mazes show the same characters on the map. -/
theorem MazeInfo.Alike.cell_eq (halike : info.Alike info') {row col : ℤ}
    (hmap : OnMap info (row, col)) : info'.maze.cell row col = info.maze.cell row col := by
  obtain ⟨h₁, h₂, h₃, h₄⟩ := hmap
  unfold Maze.cell
  rw [halike.cells row col h₁ h₂ h₃ h₄]

/-- A move that examines a cell of the map goes the same way in alike mazes. -/
theorem MazeInfo.Alike.tryMove {d : Coord} {m₁ : MazeInfo} (halike : info.Alike info')
    (hmap : OnMap info (target info d)) (hok : Mazemod.tryMove info d = .ok m₁) :
    ∃ m₁', Mazemod.tryMove info' d = .ok m₁' ∧ m₁.Alike m₁' := by
  have htarget : target info' d = target info d := by
    simp only [target, halike.coordPos]
  obtain ⟨harray, rfl⟩ := tryMove_eq_ok.mp hok
  refine ⟨info'.moveTo (target info d), ?_, ?_⟩
  · rw [← htarget]
    rw [← htarget] at harray
    exact tryMove_eq_ok.mpr ⟨harray, rfl⟩
  · obtain ⟨h₁, h₂, h₃, h₄⟩ := hmap
    have hcell := halike.cells _ _ h₁ h₂ h₃ h₄
    unfold MazeInfo.moveTo
    rw [hcell]
    split
    · exact halike
    · exact ⟨halike.coord, rfl, halike.fields, halike.cells⟩

/-- A walk that stays on the map goes the same way in alike mazes. The induction is on
the moves. -/
theorem MazeInfo.Alike.writeMoves {moves : List UserCoord} {m₁ : MazeInfo}
    (halike : info.Alike info') (hmap : ∀ cell ∈ examined info moves, OnMap info cell)
    (hok : Mazemod.writeMoves info moves = .ok m₁) :
    ∃ m₁', Mazemod.writeMoves info' moves = .ok m₁' ∧ m₁.Alike m₁' := by
  induction moves generalizing info info' with
  | nil =>
    obtain rfl : info = m₁ := pure_eq_ok.mp hok
    exact ⟨info', rfl, halike⟩
  | cons d ds ih =>
    obtain ⟨m₂, hmove, hrest⟩ := foldlM_cons_eq_ok.mp hok
    simp only [examined, hmove, List.forall_mem_cons] at hmap
    obtain ⟨m₂', hmove', halike₂⟩ := halike.tryMove hmap.1 hmove
    have hcoord : m₂.coord = info.coord := by
      rw [← (tryMove_eq_ok.mp hmove).2, MazeInfo.moveTo_coord]
    obtain ⟨m₁', hrest', halike'⟩ :=
      ih halike₂ (fun cell hcell => (onMap_congr hcoord).mpr (hmap.2 cell hcell)) hrest
    exact ⟨m₁', foldlM_cons_eq_ok.mpr ⟨m₂', hmove', hrest'⟩, halike'⟩

end UnixProgramming.Mazemod
