import UnixProgramming.Libsolver.Wins

/-!
# The directions that are found

The search of the solver against the maze it started from, whatever the length of
`move_directions`: it finds the end exactly when there is a way to it through valid cells,
and the recorded directions lead there when they are played again with `move_dir`.
-/

namespace UnixProgramming.Libsolver

/-- A unit step to a cell that `isValid` accepts. -/
def Maze.ValidStep (mz : Maze) (p q : Cell) : Prop :=
  isValid mz q.1 q.2 = true ∧ ∃ d : Direction, q = (p.1 + d.dirx, p.2 + d.diry)

/-- A move that is not blocked by a wall. -/
def Succeeds (mz : Maze) (d : Direction) : Prop :=
  (moveDir mz d).1 = { mz with cx := mz.cx + d.dirx, cy := mz.cy + d.diry }

/-- The moves in these directions all succeed, and are at the end after the last one and not
before. -/
def Replays : List Direction → Maze → Prop
  | [], mz => (mz.cx, mz.cy) = mz.exit
  | d :: ds, mz => (mz.cx, mz.cy) ≠ mz.exit ∧ Succeeds mz d ∧ Replays ds (moveDir mz d).1

variable {mz : Maze} {A : Set Cell} {p q : Cell} {d : Direction} {ds : List Direction} {s : Solver}

/-- The steps that the search takes. -/
theorem validStep_iff : mz.ValidStep p q ↔ ∃ d, mz.next p d = some q := by
  simp only [Maze.ValidStep, next_eq_some, exists_and_left]

/-- A simple path is a way from its first cell to its last one. -/
theorem reaches_of_simplePath (hpath : SimplePath mz.next A p ds q) :
    Relation.ReflTransGen mz.ValidStep p q := by
  induction hpath with
  | nil => exact .refl
  | cons _ hnext _ ih => exact .head (validStep_iff.mpr ⟨_, hnext⟩) ih

/-- A simple path to the end can be played again. The induction is on the path, which does not
come back to a cell, so that the end is only its last one. -/
theorem replays_of_simplePath (hpath : SimplePath mz.next A p ds mz.exit) :
    Replays ds { mz with cx := p.1, cy := p.2 } := by
  induction ds generalizing A p with
  | nil =>
    cases hpath
    rfl
  | cons d ds ih =>
    cases hpath with
    | @cons _ _ q _ _ _ _ hnext hrest =>
    have hne : p ≠ mz.exit := by
      rintro rfl
      exact hrest.last_notMem (Set.mem_insert _ _)
    have hmove := congrArg Prod.fst (moveDir_of_next hnext)
    refine ⟨hne, ?_, hmove ▸ ih hrest⟩
    rw [Succeeds, hmove, (next_eq_some.mp hnext).2]

/-- For every maze with an open start: once a recursion through all cells is granted, `dfs`
returns. It finds the end exactly when valid cells lead there; and then the directions it has
recorded can be played again in the maze before the search, and are at the end after
`max_depth` moves and not before. -/
theorem dfs_replays (mz : Maze) (hstart : mz.Open mz.start) (s : Solver) (hmz : s.mz = mz)
    (fuel : ℕ) (hfuel : mz.w.toNat * mz.h.toNat < fuel) :
    ∃ found s', dfs none fuel s mz.sx mz.sy 0 = .ok (found, s') ∧
      (found = true ↔ Relation.ReflTransGen mz.ValidStep mz.start mz.exit) ∧
      (found = true → ∃ ds, ds.length = s'.maxDepth ∧
        (∀ i < s'.maxDepth, s'.moveDirections i = ds[i]?) ∧
        Replays ds { mz with cx := mz.sx, cy := mz.sy }) := by
  have hmarked : Marked mz ∅ s.mz := hmz ▸ .refl mz
  have hfits : Fits none 0 := fits_none
  have ho := dfs_outcome hmarked hstart (Set.notMem_empty _) (Set.notMem_empty _) hfits
    ((cellsLeft_le mz ∅).trans_lt hfuel)
  change Outcome _ _ _ _ _ _ _ _ (dfs none fuel s mz.sx mz.sy 0) at ho
  generalize hdfs : dfs none fuel s mz.sx mz.sy 0 = r at ho
  cases ho with
  | overrun _ hlong => exact absurd fits_none hlong
  | @found s' es _ _ hpath _ hrec hdepth =>
    rw [Nat.zero_add] at hdepth
    refine ⟨true, s', rfl, iff_of_true rfl (reaches_of_simplePath hpath), fun _ => ?_⟩
    refine ⟨es, hdepth.symm, fun i hi => ?_, replays_of_simplePath hpath⟩
    simpa using hrec i (hdepth ▸ hi)
  | @exhausted s' M _ hdone hexit =>
    refine ⟨false, s', rfl, iff_of_false Bool.false_ne_true fun hreach => ?_, fun h => by cases h⟩
    have hsteps : mz.ValidStep = fun p q => ∃ d, mz.next p d = some q :=
      funext₂ fun p q => propext validStep_iff
    rw [hsteps] at hreach
    exact hexit (hdone.mem_of_reaches hreach)

/-- In a room with two cells side by side. -/
theorem dfs_replays_two_cells : ∃ found s',
    dfs none 13 ⟨emptyRoom 4 3 1 1 2 1, fun _ => none, 0⟩ 1 1 0 = .ok (found, s') ∧
      (found = true ↔ Relation.ReflTransGen (emptyRoom 4 3 1 1 2 1).ValidStep (1, 1) (2, 1)) ∧
      (found = true → ∃ ds, ds.length = s'.maxDepth ∧
        (∀ i < s'.maxDepth, s'.moveDirections i = ds[i]?) ∧
        Replays ds (emptyRoom 4 3 1 1 2 1)) :=
  dfs_replays (emptyRoom 4 3 1 1 2 1) (open_of_isValid (emptyRoom_isValid.mpr (by decide)))
    ⟨emptyRoom 4 3 1 1 2 1, fun _ => none, 0⟩ rfl 13 (by decide)

end UnixProgramming.Libsolver
