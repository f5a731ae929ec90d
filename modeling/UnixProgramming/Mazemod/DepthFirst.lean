import UnixProgramming.Lib.Loops
import UnixProgramming.Mazemod.Carving
import Mathlib.Order.Interval.Finset.Basic
import Mathlib.Data.Int.Interval

/-!
# The recursive `dfs`

All calls of `dfs` share one grid. The specification of a call therefore relates
the grid before and after it: the open cells stay carved, walls turn into `'.'`
and nothing else changes, and every room opened by the call has all of its
neighbouring rooms open when the call returns. Each recursive call removes a
wall, so that a depth above the number of walls suffices.
-/

namespace UnixProgramming.Mazemod

/-- The cells of the maze that are not walls. -/
def openCells (coord : Coord) (m : Maze) : Set Cell :=
  {p | 0 ≤ p.1 ∧ p.1 < coord.y ∧ 0 ≤ p.2 ∧ p.2 < coord.x ∧ m.blk p.1 p.2 ≠ '#'}

/-- The number of walls in the maze. -/
def wallCount (coord : Coord) (m : Maze) : ℕ :=
  ((Finset.range coord.y.toNat ×ˢ Finset.range coord.x.toNat).filter
    fun p => m.blk p.1 p.2 = '#').card

/-- All neighbouring rooms of a room are open. -/
def RoomClosed (coord : Coord) (m : Maze) (p : Cell) : Prop :=
  ∀ dir, Interior coord (nextRoom p dir) → nextRoom p dir ∈ openCells coord m

/-- What carving does to the grid: walls turn into `'.'`, the other fields stay,
and new rooms are left with all of their neighbouring rooms open. -/
structure Grows (coord : Coord) (before after : Maze) : Prop where
  cells : ∀ i j, after.blk i j = before.blk i j ∨ (before.blk i j = '#' ∧ after.blk i j = '.')
  fields : after = { before with blk := after.blk }
  closed : ∀ p ∈ openCells coord after, p ∉ openCells coord before → IsRoom p →
    RoomClosed coord after p

variable {coord : Coord} {root p : Cell} {before middle after m m' : Maze} {rand rand' : Rand}

/-- An open cell stays open. -/
theorem openCells_mono
    (hcells : ∀ i j, after.blk i j = before.blk i j ∨
      (before.blk i j = '#' ∧ after.blk i j = '.')) :
    openCells coord before ⊆ openCells coord after := by
  rintro p ⟨h1, h2, h3, h4, hopen⟩
  refine ⟨h1, h2, h3, h4, ?_⟩
  rcases hcells p.1 p.2 with heq | ⟨hwall, _⟩
  · rwa [heq]
  · exact absurd hwall hopen

theorem Grows.mono (hgrows : Grows coord before after) :
    openCells coord before ⊆ openCells coord after := openCells_mono hgrows.cells

theorem Grows.refl (coord : Coord) (m : Maze) : Grows coord m m where
  cells _ _ := Or.inl rfl
  fields := rfl
  closed _ hmem hnew := absurd hmem hnew

theorem Grows.trans (h₁ : Grows coord before middle) (h₂ : Grows coord middle after) :
    Grows coord before after where
  cells i j := by
    rcases h₂.cells i j with h | ⟨hwall, hdot⟩
    · rw [h]
      exact h₁.cells i j
    · rcases h₁.cells i j with h | ⟨_, hdot'⟩
      · exact Or.inr ⟨h ▸ hwall, hdot⟩
      · rw [hdot'] at hwall
        exact absurd hwall (by decide)
  fields := by
    rw [h₂.fields, h₁.fields]
  closed p hmem hnew hroom dir hinterior := by
    by_cases hmiddle : p ∈ openCells coord middle
    · exact h₂.mono (h₁.closed p hmiddle hnew hroom dir hinterior)
    · exact h₂.closed p hmem hmiddle hroom dir hinterior

/-- Carving never adds a wall. -/
theorem Grows.wallCount_le (hgrows : Grows coord before after) :
    wallCount coord after ≤ wallCount coord before := by
  refine Finset.card_le_card fun p hp => ?_
  simp only [Finset.mem_filter] at hp ⊢
  refine ⟨hp.1, ?_⟩
  rcases hgrows.cells p.1 p.2 with h | ⟨hwall, _⟩
  · exact h ▸ hp.2
  · exact hwall

/-- The two writes of `dfs`: open the next room and the passage to it. -/
def openRoom (m : Maze) (p : Cell) (dir : Fin 4) : Maze :=
  (m.put (nextRoom p dir).1 (nextRoom p dir).2 '.').put (passage p dir).1 (passage p dir).2 '.'

theorem openRoom_blk (m : Maze) (p : Cell) (dir : Fin 4) (i j : ℤ) :
    (openRoom m p dir).blk i j =
      if (i, j) = passage p dir ∨ (i, j) = nextRoom p dir then '.' else m.blk i j := by
  simp only [openRoom, Maze.put_blk, Prod.ext_iff]
  grind

/-- Interior cells are inside the maze. -/
theorem Interior.onMap (hin : Interior coord p) :
    0 ≤ p.1 ∧ p.1 < coord.y ∧ 0 ≤ p.2 ∧ p.2 < coord.x := by
  simp only [Interior] at hin
  omega

/-- Opening a room adds the room and its passage to the open cells. -/
theorem openCells_openRoom {dir : Fin 4} (hpassage : Interior coord (passage p dir))
    (hnext : Interior coord (nextRoom p dir)) :
    openCells coord (openRoom m p dir) =
      insert (nextRoom p dir) (insert (passage p dir) (openCells coord m)) := by
  have hpassage' := hpassage.onMap
  have hnext' := hnext.onMap
  ext q
  simp only [openCells, Set.mem_ofPred_eq, Set.mem_insert_iff, openRoom_blk, Prod.mk.eta]
  by_cases h₁ : q = passage p dir
  · subst h₁
    simpa using hpassage'
  · by_cases h₂ : q = nextRoom p dir
    · subst h₂
      simpa using hnext'
    · simp [h₁, h₂]

/-- Opening a closed room removes a wall. -/
theorem wallCount_openRoom {dir : Fin 4} (hnext : Interior coord (nextRoom p dir))
    (hwall : m.blk (nextRoom p dir).1 (nextRoom p dir).2 = '#') :
    wallCount coord (openRoom m p dir) < wallCount coord m := by
  obtain ⟨h₁, h₂, h₃, h₄⟩ := hnext.onMap
  -- the room, as a pair of indices
  have hrow : ((nextRoom p dir).1.toNat : ℤ) = (nextRoom p dir).1 := Int.toNat_of_nonneg h₁
  have hcol : ((nextRoom p dir).2.toNat : ℤ) = (nextRoom p dir).2 := Int.toNat_of_nonneg h₃
  refine Finset.card_lt_card ((Finset.ssubset_iff_of_subset ?_).mpr
    ⟨((nextRoom p dir).1.toNat, (nextRoom p dir).2.toNat), ?_, ?_⟩)
  · intro q hq
    simp only [Finset.mem_filter, openRoom_blk] at hq ⊢
    refine ⟨hq.1, ?_⟩
    split at hq
    · exact absurd hq.2 (by decide)
    · exact hq.2
  · simp only [Finset.mem_filter, Finset.mem_product, Finset.mem_range, hrow, hcol]
    exact ⟨by omega, hwall⟩
  · simp [openRoom_blk, hrow, hcol]

/-- The result of exploring from a room. -/
structure Explored (coord : Coord) (root p : Cell) (before after : Maze) : Prop where
  carved : Carved coord root (openCells coord after)
  grows : Grows coord before after
  closed : RoomClosed coord after p

/-- An interior cell is inside the array when the maze is. -/
theorem Interior.inArray (hx : coord.x ≤ mazeMaxX) (hy : coord.y ≤ mazeMaxY)
    (hin : Interior coord p) : InArray p.1 p.2 := by
  simp only [Interior, InArray] at hin ⊢
  omega

/-- The bounds check of `dfs` skips exactly the rooms outside the interior. -/
theorem dfsVisit_eq (recur : ℤ → ℤ → Maze × Rand → Except Fault (Maze × Rand)) (coord : Coord)
    (p : Cell) (st : Maze × Rand) (dir : Fin 4)
    [Decidable (Interior coord (nextRoom p dir))] :
    dfsVisit recur coord p.1 p.2 st dir =
      if Interior coord (nextRoom p dir) then do
        if (← st.1.cell (nextRoom p dir).1 (nextRoom p dir).2) = '#' then
          let maze ← st.1.setCell (nextRoom p dir).1 (nextRoom p dir).2 '.'
          let maze ← maze.setCell (passage p dir).1 (passage p dir).2 '.'
          recur (nextRoom p dir).1 (nextRoom p dir).2 (maze, st.2)
        else
          pure st
      else pure st := by
  have hiff : (p.1 + dirX dir * 2 < 1 ∨ p.1 + dirX dir * 2 ≥ coord.y - 1 ∨
      p.2 + dirY dir * 2 < 1 ∨ p.2 + dirY dir * 2 ≥ coord.x - 1) ↔
      ¬Interior coord (nextRoom p dir) := by
    simp only [Interior, nextRoom]
    omega
  simp only [dfsVisit, hiff, ite_not]
  rfl

/-- Opening a room keeps the cells carved and counts as growth once the room has
been explored: only the new room and its passage can be missing neighbours, and
a passage is not a room. -/
theorem Explored.of_openRoom {dir : Fin 4} (hcarved : Carved coord root (openCells coord m))
    (hp : p ∈ openCells coord m) (hnext : Interior coord (nextRoom p dir)) (hroom : IsRoom p)
    (hwall : m.blk (nextRoom p dir).1 (nextRoom p dir).2 = '#')
    (hexplored : Explored coord root (nextRoom p dir) (openRoom m p dir) after) :
    Grows coord m after := by
  have hopen := openCells_openRoom (m := m) ((hcarved.interior p hp).passage hnext) hnext
  have hclosed : nextRoom p dir ∉ openCells coord m := fun hmem => hmem.2.2.2.2 hwall
  have hpassage := hcarved.passage_notMem hroom hclosed
  have hpassagewall : m.blk (passage p dir).1 (passage p dir).2 = '#' := by
    have hmap := ((hcarved.interior p hp).passage hnext).onMap
    by_contra hne
    exact hpassage ⟨hmap.1, hmap.2.1, hmap.2.2.1, hmap.2.2.2, hne⟩
  refine ⟨fun i j => ?_, hexplored.grows.fields, fun q hq hnew hqroom => ?_⟩
  · have hopened := openRoom_blk m p dir i j
    split at hopened
    · next hcell =>
      right
      have hbefore : m.blk i j = '#' := by
        rcases hcell with heq | heq
        · rwa [← heq] at hpassagewall
        · rwa [← heq] at hwall
      refine ⟨hbefore, ?_⟩
      rcases hexplored.grows.cells i j with h | ⟨_, h⟩
      · rw [h, hopened]
      · exact h
    · rw [← hopened]
      exact hexplored.grows.cells i j
  · by_cases hmid : q ∈ openCells coord (openRoom m p dir)
    · rw [hopen] at hmid
      rcases hmid with rfl | rfl | hold
      · exact hexplored.closed
      · exact absurd (adj_passage p dir) (hroom.not_adj hqroom)
      · exact absurd hold hnew
    · exact hexplored.grows.closed q hq hmid hqroom

variable {depth : ℕ}

/-- What a call of `dfs` with a sufficient depth achieves from any open room. -/
def DfsExplores (coord : Coord) (root : Cell) (depth : ℕ) : Prop :=
  ∀ (p : Cell) (m : Maze) (rand : Rand), Carved coord root (openCells coord m) →
    p ∈ openCells coord m → IsRoom p → wallCount coord m < depth →
    ∃ m' rand', dfs coord depth p.1 p.2 (m, rand) = .ok (m', rand') ∧
      Explored coord root p m m'

/-- One pass of the loop of `dfs`: the room in the given direction is open afterwards. -/
theorem dfsVisit_explores (hx : coord.x ≤ mazeMaxX) (hy : coord.y ≤ mazeMaxY)
    (hdfs : DfsExplores coord root depth) (hcarved : Carved coord root (openCells coord m))
    (hp : p ∈ openCells coord m) (hroom : IsRoom p) (hcount : wallCount coord m ≤ depth)
    (dir : Fin 4) (rand : Rand) :
    ∃ m' rand', dfsVisit (dfs coord depth) coord p.1 p.2 (m, rand) dir = .ok (m', rand') ∧
      Carved coord root (openCells coord m') ∧ Grows coord m m' ∧
      (Interior coord (nextRoom p dir) → nextRoom p dir ∈ openCells coord m') := by
  classical
  rw [dfsVisit_eq]
  by_cases hnext : Interior coord (nextRoom p dir)
  swap
  · exact ⟨m, rand, by simp [hnext], hcarved, .refl coord m, fun h => absurd h hnext⟩
  have hcell : m.cell (nextRoom p dir).1 (nextRoom p dir).2 = .ok _ :=
    Maze.cell_eq_ok.mpr ⟨hnext.inArray hx hy, rfl⟩
  simp only [hnext, if_true, hcell]
  by_cases hwall : m.blk (nextRoom p dir).1 (nextRoom p dir).2 = '#'
  swap
  · have hmap := hnext.onMap
    exact ⟨m, rand, by simp [hwall, bind, Except.bind], hcarved, .refl coord m,
      fun _ => ⟨hmap.1, hmap.2.1, hmap.2.2.1, hmap.2.2.2, hwall⟩⟩
  have hpassage := (hcarved.interior p hp).passage hnext
  have hopen := openCells_openRoom (m := m) hpassage hnext
  have hclosed : nextRoom p dir ∉ openCells coord m := fun hmem => hmem.2.2.2.2 hwall
  have hcarved' : Carved coord root (openCells coord (openRoom m p dir)) := by
    rw [hopen]
    exact hcarved.open_nextRoom hp hroom hnext hclosed
  have hmem : nextRoom p dir ∈ openCells coord (openRoom m p dir) := by
    rw [hopen]
    exact Or.inl rfl
  obtain ⟨m', rand', hcall, hexplored⟩ := hdfs (nextRoom p dir) (openRoom m p dir) rand hcarved'
    hmem (hroom.nextRoom dir) (by have := wallCount_openRoom hnext hwall; omega)
  have hset₁ : m.setCell (nextRoom p dir).1 (nextRoom p dir).2 '.' = .ok _ :=
    Maze.setCell_eq_ok.mpr ⟨hnext.inArray hx hy, rfl⟩
  have hset₂ : (m.put (nextRoom p dir).1 (nextRoom p dir).2 '.').setCell (passage p dir).1
      (passage p dir).2 '.' = .ok _ :=
    Maze.setCell_eq_ok.mpr ⟨hpassage.inArray hx hy, rfl⟩
  refine ⟨m', rand', ?_, hexplored.carved,
    hexplored.of_openRoom hcarved hp hnext hroom hwall, fun _ => hexplored.grows.mono hmem⟩
  simp only [bind, Except.bind, hwall, if_true, hset₁, hset₂]
  exact hcall

/-- The loop of `dfs` over any list of directions. -/
theorem dfsVisits_explore (hx : coord.x ≤ mazeMaxX) (hy : coord.y ≤ mazeMaxY)
    (hdfs : DfsExplores coord root depth) (hroom : IsRoom p) (dirs : List (Fin 4))
    (hcarved : Carved coord root (openCells coord m)) (hp : p ∈ openCells coord m)
    (hcount : wallCount coord m ≤ depth) (rand : Rand) :
    ∃ m' rand', dirs.foldlM (dfsVisit (dfs coord depth) coord p.1 p.2) (m, rand) =
        .ok (m', rand') ∧
      Carved coord root (openCells coord m') ∧ Grows coord m m' ∧
      ∀ dir ∈ dirs, Interior coord (nextRoom p dir) → nextRoom p dir ∈ openCells coord m' := by
  induction dirs generalizing m rand with
  | nil => exact ⟨m, rand, by simp, hcarved, .refl coord m, by simp⟩
  | cons dir dirs ih =>
    obtain ⟨m₁, rand₁, hvisit, hcarved₁, hgrows₁, hdir⟩ :=
      dfsVisit_explores hx hy hdfs hcarved hp hroom hcount dir rand
    obtain ⟨m', rand', hloop, hcarved', hgrows', hdirs⟩ :=
      ih hcarved₁ (hgrows₁.mono hp) (hgrows₁.wallCount_le.trans hcount) rand₁
    refine ⟨m', rand', foldlM_cons_eq_ok.mpr ⟨_, hvisit, hloop⟩, hcarved',
      hgrows₁.trans hgrows', fun d hd hin => ?_⟩
    rcases List.mem_cons.mp hd with rfl | hd
    · exact hgrows'.mono (hdir hin)
    · exact hdirs d hd hin

/-- `dfs` returns whenever its depth exceeds the number of walls, and explores the
room it is called on. The induction is on the depth. -/
theorem dfs_explores (root : Cell) (hx : coord.x ≤ mazeMaxX) (hy : coord.y ≤ mazeMaxY)
    (depth : ℕ) : DfsExplores coord root depth := by
  induction depth with
  | zero => exact fun p m rand _ _ _ h => absurd h (Nat.not_lt_zero _)
  | succ depth ih =>
    intro p m rand hcarved hp hroom hcount
    obtain ⟨m', rand', hloop, hcarved', hgrows, hdirs⟩ :=
      dfsVisits_explore hx hy ih hroom ((List.finRange 4).map (shuffle rand).1) hcarved hp
        (by omega) (shuffle rand).2
    refine ⟨m', rand', ?_, hcarved', hgrows, fun dir hin => hdirs dir ?_ hin⟩
    · rw [List.foldlM_map] at hloop
      exact hloop
    · -- a permutation visits every direction
      exact List.mem_map.mpr ⟨(shuffle rand).1.symm dir, List.mem_finRange _, by simp⟩

/-- A call of `dfs` that returns gives the same result with a larger depth. -/
theorem dfs_mono {depth depth' : ℕ} {row col : ℤ} {st st' : Maze × Rand}
    (hle : depth ≤ depth') (hok : dfs coord depth row col st = .ok st') :
    dfs coord depth' row col st = .ok st' := by
  induction depth generalizing depth' row col st st' with
  | zero => simp [dfs] at hok
  | succ depth ih =>
    obtain ⟨depth', rfl⟩ : ∃ d, depth' = d + 1 := ⟨depth' - 1, by omega⟩
    simp only [dfs] at hok ⊢
    refine foldlM_mono (fun st i st₁ hvisit => ?_) hok
    simp only [dfsVisit] at hvisit ⊢
    split at hvisit
    · next hskip => simpa only [hskip, if_true] using hvisit
    · next hskip =>
      simp only [hskip, if_false]
      obtain ⟨c, hcell, hvisit⟩ := bind_eq_ok.mp hvisit
      refine bind_eq_ok.mpr ⟨c, hcell, ?_⟩
      split at hvisit
      · next hwall =>
        obtain ⟨m₁, hset₁, hvisit⟩ := bind_eq_ok.mp hvisit
        obtain ⟨m₂, hset₂, hcall⟩ := bind_eq_ok.mp hvisit
        simp only [hwall, if_true]
        exact bind_eq_ok.mpr ⟨m₁, hset₁, bind_eq_ok.mpr ⟨m₂, hset₂, ih (by omega) hcall⟩⟩
      · next hwall => simpa only [hwall, if_false] using hvisit

/-- The fields of a maze other than its cells. -/
def Maze.SameFields (m m' : Maze) : Prop := m' = { m with blk := m'.blk }

theorem Maze.SameFields.trans {m₁ m₂ m₃ : Maze} (h₁ : m₁.SameFields m₂) (h₂ : m₂.SameFields m₃) :
    m₁.SameFields m₃ := by
  unfold SameFields at *
  rw [h₂, h₁]

/-- Assigning a cell keeps the other fields. -/
theorem Maze.sameFields_setCell {m m' : Maze} {row col : ℤ} {c : Char}
    (hok : m.setCell row col c = .ok m') : m.SameFields m' := by
  rw [← (Maze.setCell_eq_ok.mp hok).2]
  rfl

/-- One direction of `dfs` assigns cells only, when the recursive call does. -/
theorem dfsVisit_sameFields {recur : ℤ → ℤ → Maze × Rand → Except Fault (Maze × Rand)}
    {row col : ℤ} {st st' : Maze × Rand} {dir : Fin 4}
    (hrecur : ∀ row col st st', recur row col st = .ok st' → st.1.SameFields st'.1)
    (hok : dfsVisit recur coord row col st dir = .ok st') : st.1.SameFields st'.1 := by
  unfold dfsVisit at hok
  dsimp only at hok
  split at hok
  · exact pure_eq_ok.mp hok ▸ rfl
  obtain ⟨c, _, hok⟩ := bind_eq_ok.mp hok
  split at hok
  · obtain ⟨m₁, h₁, hok⟩ := bind_eq_ok.mp hok
    obtain ⟨m₂, h₂, hok⟩ := bind_eq_ok.mp hok
    exact ((Maze.sameFields_setCell h₁).trans (Maze.sameFields_setCell h₂)).trans
      (hrecur _ _ _ _ hok)
  · exact pure_eq_ok.mp hok ▸ rfl

/-- `dfs` assigns cells only, whatever the size of the maze. -/
theorem dfs_sameFields {depth : ℕ} {row col : ℤ} {st st' : Maze × Rand}
    (hok : dfs coord depth row col st = .ok st') : st.1.SameFields st'.1 := by
  induction depth generalizing row col st st' with
  | zero => cases hok
  | succ depth ih =>
    obtain ⟨m, rand⟩ := st
    simp only [dfs] at hok
    refine foldlM_invariant (P := fun st₁ => m.SameFields st₁.1) ?_ ?_ hok
    · exact fun dir _ st₁ st₂ hsame hvisit =>
        hsame.trans (dfsVisit_sameFields (fun _ _ _ _ => ih) hvisit)
    · rfl

end UnixProgramming.Mazemod
