import UnixProgramming.Libsolver.Wins

/-!
# Loading a maze

`maze_load` of the maze library and the one of the solver that takes its place. Both read
six numbers and the cells, row by row, with `fscanf`; the solver then searches the maze and
sets the visited cells back. The two return the same maze exactly when the start is open
and the search stays within `move_directions`, or when there is nothing to search.
-/

namespace UnixProgramming.Libsolver

/-- `_MAZE_MAXX`. -/
def mazeMaxX : ℕ := 101

/-- `_MAZE_MAXY`. -/
def mazeMaxY : ℕ := 101

/-- `isspace`. -/
def isSpace (c : Char) : Bool := c = ' ' || 9 ≤ c.toNat && c.toNat ≤ 13

/-- The value of decimal digits. -/
def digitsValue (digits : List Char) : ℤ :=
  digits.foldl (fun n c => 10 * n + (c.toNat - '0'.toNat : ℕ)) 0

/-- The sign in front of a number, and the rest. -/
def scanSign : List Char → Bool × List Char
  | '-' :: text => (true, text)
  | '+' :: text => (false, text)
  | text => (false, text)

/-- `fscanf` with `%d`: white space is skipped, and after a sign at least one digit must
follow. The number is read as a `long`, with its largest or smallest value where it does
not fit, and the lower half is stored. -/
def scanInt (text : List Char) : Option (BitVec 32 × List Char) :=
  let (negative, text) := scanSign (text.dropWhile isSpace)
  let digits := text.takeWhile Char.isDigit
  if digits = [] then none
  else
    let n := digitsValue digits
    let long := if negative then (if n ≤ 2 ^ 63 then -n else -2 ^ 63)
      else (if n < 2 ^ 63 then n else 2 ^ 63 - 1)
    some (BitVec.ofInt 32 long, text.dropWhile Char.isDigit)

/-- Why no maze is read: the next word of the file is not a number, or a cell outside of
`blk` is assigned. -/
inductive Stop
  | noNumber
  | fault (f : Fault)

/-- The next number of the file. -/
def readInt (text : List Char) : Except Stop (BitVec 32 × List Char) :=
  match scanInt text with
  | some r => .ok r
  | none => .error .noNumber

/-- One pass of the inner loop of `maze_load`. -/
def readCell (i : ℕ) (st : Maze × List Char) (j : ℕ) : Except Stop (Maze × List Char) := do
  let (k, text) ← readInt st.2
  if i < mazeMaxY ∧ j < mazeMaxX then pure (st.1.setBlk j i (k <<< 20), text)
  else .error (.fault .outOfBounds)

/-- One pass of its outer loop. -/
def readRow (st : Maze × List Char) (i : ℕ) : Except Stop (Maze × List Char) :=
  (List.range st.1.w.toNat).foldlM (readCell i) st

/-- The first six numbers of the file. The cells are what `malloc` returned. -/
def readDimensions (text : List Char) (blk : ℤ → ℤ → BitVec 32) :
    Except Stop (Maze × List Char) := do
  let (w, text) ← readInt text
  let (h, text) ← readInt text
  let (sx, text) ← readInt text
  let (sy, text) ← readInt text
  let (ex, text) ← readInt text
  let (ey, text) ← readInt text
  pure (⟨w.toInt, h.toInt, sx.toInt, sy.toInt, ex.toInt, ey.toInt, sx.toInt, sy.toInt, blk⟩, text)

/-- The part of `maze_load` that reads the file. -/
def readMaze (text : List Char) (blk : ℤ → ℤ → BitVec 32) : Except Stop Maze := do
  let (mz, text) ← readDimensions text blk
  let (mz, _) ← (List.range mz.h.toNat).foldlM readRow (mz, text)
  pure mz

/-- `maze_load` of the maze library. There is no `file` when `fopen` fails, and no block `blk`
when `malloc` does; then, and when a number is missing, the result is a null pointer. -/
def libmazeMazeLoad (file : Option (List Char)) (blk : Option (ℤ → ℤ → BitVec 32)) :
    Except Fault (Option Maze) :=
  match file, blk with
  | some text, some blk =>
    match readMaze text blk with
    | .ok mz => .ok (some mz)
    | .error .noNumber => .ok none
    | .error (.fault f) => .error f
  | _, _ => .ok none

/-- `maze_load` of the solver, which begins with the same lines. -/
def mazeLoad (gotEntriesToMoveN : ℕ → Addr) (got : Addr → Routine) (file : Option (List Char))
    (blk : Option (ℤ → ℤ → BitVec 32)) : Except Fault (Option Maze × (Addr → Routine)) := do
  match ← libmazeMazeLoad file blk with
  | none => pure (none, got)
  | some mz =>
    let (mz, got) ← solve gotEntriesToMoveN got mz
    pure (some mz, got)

/-- Two mazes with the same fields, and the same contents of some cells. -/
structure Agree (S : Set Cell) (mz mz' : Maze) : Prop where
  fields : mz' = { mz with blk := mz'.blk }
  blk : ∀ p ∈ S, mz'.blk p.2 p.1 = mz.blk p.2 p.1

/-- The cells assigned when `i` rows have been read and `j` cells of the next one. -/
def cellsRead (w : ℤ) (i j : ℕ) : Set Cell :=
  {p | 0 ≤ p.1 ∧ 0 ≤ p.2 ∧ (p.2 < i ∧ p.1 < w ∨ p.2 = i ∧ p.1 < j)}

/-- What reading from the same file keeps, whatever the two blocks contain: the fields of the
maze, and the same numbers, shifted by 20, in the cells read. -/
structure ReadAlike (mz : Maze) (S : Set Cell) (st st' : Maze × List Char) : Prop where
  fields : st.1 = { mz with blk := st.1.blk }
  fields' : st'.1 = { mz with blk := st'.1.blk }
  text : st'.2 = st.2
  blk : ∀ p ∈ S, st'.1.blk p.2 p.1 = st.1.blk p.2 p.1
  shifted : ∀ p ∈ S, ∃ k : BitVec 32, st.1.blk p.2 p.1 = k <<< 20

variable {mz mz' : Maze} {S T : Set Cell} {p : Cell} {st st' st₁ : Maze × List Char}
variable {text : List Char} {blk blk' : ℤ → ℤ → BitVec 32} {i j : ℕ}
variable {gotEntriesToMoveN : ℕ → Addr} {got : Addr → Routine}

/-! ## Reading -/

theorem ReadAlike.anti (halike : ReadAlike mz S st st') (hsub : T ⊆ S) : ReadAlike mz T st st' where
  fields := halike.fields
  fields' := halike.fields'
  text := halike.text
  blk p hp := halike.blk p (hsub hp)
  shifted p hp := halike.shifted p (hsub hp)

theorem cellsRead_succ {w : ℤ} :
    cellsRead w i (j + 1) ⊆ insert ((j, i) : Cell) (cellsRead w i j) := by
  rintro ⟨x, y⟩ ⟨hx, hy, hrow⟩
  simp only [Set.mem_insert_iff, Prod.mk.injEq, cellsRead, Set.mem_ofPred_eq] at hx hy hrow ⊢
  omega

theorem cellsRead_row {w : ℤ} : cellsRead w (i + 1) 0 ⊆ cellsRead w i w.toNat := by
  rintro ⟨x, y⟩ ⟨hx, hy, hrow⟩
  simp only [cellsRead, Set.mem_ofPred_eq] at hx hy hrow ⊢
  omega

/-- A cell with a new value, and the others. -/
theorem setBlk_blk {x y : ℤ} {v : BitVec 32} : (mz.setBlk x y v).blk p.2 p.1 =
    if p = (x, y) then v else mz.blk p.2 p.1 := by
  by_cases hrow : p.2 = y
  · by_cases hcol : p.1 = x <;> simp [Maze.setBlk, Prod.ext_iff, hrow, hcol]
  · simp [Maze.setBlk, Prod.ext_iff, hrow]

/-- Assigning one cell the same number in both mazes. -/
theorem ReadAlike.setBlk (halike : ReadAlike mz S st st') (k : BitVec 32) (text : List Char) :
    ReadAlike mz (insert p S) (st.1.setBlk p.1 p.2 (k <<< 20), text)
      (st'.1.setBlk p.1 p.2 (k <<< 20), text) where
  fields := by rw [Maze.setBlk, halike.fields]
  fields' := by rw [Maze.setBlk, halike.fields']
  text := rfl
  blk q hq := by
    simp only [setBlk_blk]
    split
    · rfl
    · next hne => exact halike.blk q (hq.resolve_left hne)
  shifted q hq := by
    simp only [setBlk_blk]
    split
    · exact ⟨k, rfl⟩
    · next hne => exact halike.shifted q (hq.resolve_left hne)

theorem readCell_alike (halike : ReadAlike mz (cellsRead mz.w i j) st st')
    (hok : readCell i st j = .ok st₁) : ∃ st₁', readCell i st' j = .ok st₁' ∧
      ReadAlike mz (cellsRead mz.w i (j + 1)) st₁ st₁' := by
  obtain ⟨⟨k, text⟩, hread, hassign⟩ := bind_eq_ok.mp hok
  have hread' : readInt st'.2 = .ok (k, text) := halike.text ▸ hread
  dsimp only at hassign
  split at hassign
  · next hin =>
    cases hassign
    refine ⟨(st'.1.setBlk j i (k <<< 20), text), ?_, ?_⟩
    · rw [readCell, hread']
      exact if_pos hin
    · exact (halike.setBlk (p := (j, i)) k text).anti cellsRead_succ
  · cases hassign

theorem readRow_alike (halike : ReadAlike mz (cellsRead mz.w i 0) st st')
    (hok : readRow st i = .ok st₁) : ∃ st₁', readRow st' i = .ok st₁' ∧
      ReadAlike mz (cellsRead mz.w (i + 1) 0) st₁ st₁' := by
  have hw : st.1.w = mz.w := by rw [halike.fields]
  have hw' : st'.1.w = mz.w := by rw [halike.fields']
  rw [readRow, hw] at hok
  rw [readRow, hw']
  obtain ⟨st₁', hloop, hrow⟩ := foldlM_range_simulates
    (R := fun j => ReadAlike mz (cellsRead mz.w i j)) (fun j _ _ _ _ hrel => readCell_alike hrel)
    halike hok
  exact ⟨st₁', hloop, hrow.anti cellsRead_row⟩

/-- The first six numbers do not depend on the block. -/
theorem readDimensions_eq_ok {rest : List Char} (hok : readDimensions text blk = .ok (mz, rest))
    (blk' : ℤ → ℤ → BitVec 32) :
    readDimensions text blk' = .ok ({ mz with blk := blk' }, rest) := by
  simp only [readDimensions, bind_eq_ok] at hok ⊢
  obtain ⟨w, hw, h, hh, sx, hsx, sy, hsy, ex, hex, ey, hey, hdone⟩ := hok
  cases hdone
  exact ⟨w, hw, h, hh, sx, hsx, sy, hsy, ex, hex, ey, hey, rfl⟩

/-- What is read from one file: the cells of the maze hold shifted numbers, and only what lies
outside of it depends on the block. -/
theorem readMaze_alike (hok : readMaze text blk = .ok mz) (blk' : ℤ → ℤ → BitVec 32) :
    (∀ p ∈ mz.cells, ∃ k : BitVec 32, mz.blk p.2 p.1 = k <<< 20) ∧
      ∃ mz', readMaze text blk' = .ok mz' ∧ Agree mz.cells mz mz' := by
  obtain ⟨⟨mz₀, rest⟩, hdims, hrest⟩ := bind_eq_ok.mp hok
  obtain ⟨⟨mz₁, rest₁⟩, hloop, hdone⟩ := bind_eq_ok.mp hrest
  obtain rfl : mz₁ = mz := pure_eq_ok.mp hdone
  have hstart : ReadAlike mz₀ (cellsRead mz₀.w 0 0) (mz₀, rest)
      ({ mz₀ with blk := blk' }, rest) := by
    have hnone : ∀ p, p ∉ cellsRead mz₀.w 0 0 := by
      rintro p ⟨hx, hy, hrow⟩
      omega
    exact ⟨rfl, rfl, rfl, fun p hp => absurd hp (hnone p), fun p hp => absurd hp (hnone p)⟩
  obtain ⟨⟨mz₂, rest₂⟩, hloop', hread⟩ := foldlM_range_simulates
    (R := fun i => ReadAlike mz₀ (cellsRead mz₀.w i 0)) (fun i _ _ _ _ hrel => readRow_alike hrel)
    hstart hloop
  obtain ⟨hfields, hfields', _, hsame, hshifted⟩ := hread
  dsimp only at hfields hfields' hsame hshifted
  have hcells : mz₁.cells ⊆ cellsRead mz₀.w mz₀.h.toNat 0 := by
    rw [hfields]
    rintro p ⟨hx, hxw, hy, hyh⟩
    exact ⟨hx, hy, by dsimp only at hxw hyh; omega⟩
  refine ⟨fun p hp => hshifted p (hcells hp), mz₂, ?_, ?_, fun p hp => hsame p (hcells hp)⟩
  · refine bind_eq_ok.mpr ⟨_, readDimensions_eq_ok hdims blk', bind_eq_ok.mpr ⟨_, hloop', rfl⟩⟩
  · rw [hfields, hfields']

/-! ## Searching -/

/-- The steps of the search depend on the cells of the maze only. -/
theorem Agree.next_eq (hagree : Agree mz.cells mz mz') : mz'.next = mz.next := by
  have hvalid : ∀ x y, isValid mz' x y = isValid mz x y := by
    intro x y
    have hw : mz'.w = mz.w := by rw [hagree.fields]
    have hh : mz'.h = mz.h := by rw [hagree.fields]
    rw [Bool.eq_iff_iff, isValid_iff, isValid_iff, hw, hh]
    refine and_congr_right fun hx => and_congr_right fun hxw => and_congr_right fun hy =>
      and_congr_right fun hyh => ?_
    rw [hagree.blk (x, y) ⟨hx.le, hxw, hy.le, hyh⟩]
  funext p d
  rw [Maze.next, Maze.next, hvalid]

/-- Away from the end, a call of `dfs` begins by marking its cell. -/
theorem dfs_of_ne {size : Option ℕ} {fuel depth : ℕ} {s : Solver} {x y : ℤ}
    (hne : ¬(x = s.mz.ex ∧ y = s.mz.ey)) :
    dfs size (fuel + 1) s x y depth =
      tryDirections (fun s x y => dfs size fuel s x y (depth + 1)) size x y depth Direction.all
        ⟨s.mz.setBlk x y 2, s.moveDirections, s.maxDepth⟩ :=
  if_neg hne

/-- A start that is not the end is marked before any cell is read, so that it might as well
have been open. -/
theorem solve_open (hne : mz.start ≠ mz.exit) :
    solve gotEntriesToMoveN got mz = solve gotEntriesToMoveN got (mz.setBlk mz.sx mz.sy 0) := by
  have hend : ¬(mz.sx = mz.ex ∧ mz.sy = mz.ey) := fun h => hne (Prod.ext h.1 h.2)
  have hset : (mz.setBlk mz.sx mz.sy 0).setBlk mz.sx mz.sy 2 = mz.setBlk mz.sx mz.sy 2 := by
    simp [Maze.setBlk]
  have hdfs : ∀ fuel, dfs (some maxMoves) (fuel + 1) ⟨mz, fun _ => none, 0⟩ mz.sx mz.sy 0 =
      dfs (some maxMoves) (fuel + 1) ⟨mz.setBlk mz.sx mz.sy 0, fun _ => none, 0⟩ mz.sx mz.sy 0 := by
    intro fuel
    rw [dfs_of_ne hend, dfs_of_ne (show ¬_ from hend), hset]
  rw [solve, solve]
  dsimp only
  rw [hdfs]
  rfl

/-- From an open start, the solver returns the maze that was read, or none when the search is
too long. -/
theorem solve_eq_ok_iff (hopen : mz.Open mz.start) (hblk : ∀ p ∈ mz.cells, mz.blk p.2 p.1 ≠ 2) :
    (∃ got', solve gotEntriesToMoveN got mz = .ok (mz', got')) ↔
      mz' = mz ∧ ∀ ds, Searched mz.next mz.exit ∅ mz.start ds → ds.length ≤ maxMoves := by
  constructor
  · rintro ⟨got', hok⟩
    refine ⟨?_, fun ds => length_le_of_solve hopen hok⟩
    obtain ⟨⟨found, s'⟩, hdfs, hrest⟩ := bind_eq_ok.mp hok
    obtain ⟨got'', _, hdone⟩ := bind_eq_ok.mp hrest
    obtain rfl : s'.mz.unmark = mz' := congrArg Prod.fst (pure_eq_ok.mp hdone)
    have ho := solve_outcome hopen
    rw [hdfs] at ho
    cases ho with
    | found _ _ _ _ _ _ hmarked | exhausted _ _ _ _ _ hmarked => exact hmarked.unmark hblk
  · rintro ⟨rfl, hshort⟩
    have ho := solve_outcome hopen
    generalize hdfs : dfs _ _ _ _ _ _ = r at ho
    have hreturn : ∀ found s', r = .ok (found, s') → s'.mz.unmark = mz' → s'.maxDepth ≤ maxMoves →
        ∃ got', solve gotEntriesToMoveN got mz' = .ok (mz', got') := by
      rintro found s' rfl hunmark hle
      obtain ⟨got', hchecked, _⟩ := checkPath_eq_ok (s := { s' with mz := s'.mz.unmark }) hle
      refine ⟨got', bind_eq_ok.mpr ⟨_, hdfs, bind_eq_ok.mpr ⟨got', hchecked, ?_⟩⟩⟩
      rw [pure_eq_ok, hunmark]
    cases ho with
    | @overrun ds hsearched hlong =>
      exact absurd (hshort ds hsearched) (by simpa using hlong)
    | @found s' es M _ _ hes _ hdepth _ hmarked =>
      have hle : es.length ≤ maxMoves := by simpa using hes
      exact hreturn true s' rfl (hmarked.unmark hblk) (by omega)
    | @exhausted s' M _ _ _ hmax _ hmarked =>
      have hzero : s'.maxDepth = 0 := hmax
      exact hreturn false s' rfl (hmarked.unmark hblk) (by omega)

/-- What is returned after a search has an open start. -/
theorem solve_start_eq_zero (hne : mz.start ≠ mz.exit) (hstart : mz.start ∈ mz.cells)
    (hblk : ∀ p ∈ mz.cells, mz.blk p.2 p.1 ≠ 2) {got' : Addr → Routine}
    (hok : solve gotEntriesToMoveN got mz = .ok (mz', got')) :
    mz'.blk mz.start.2 mz.start.1 = 0 := by
  rw [solve_open hne] at hok
  have hself : (mz.setBlk mz.sx mz.sy 0).blk mz.start.2 mz.start.1 = 0 :=
    setBlk_blk.trans (if_pos rfl)
  have hopen : (mz.setBlk mz.sx mz.sy 0).Open mz.start := ⟨hstart, hself⟩
  have hblk' : ∀ p ∈ mz.cells, (mz.setBlk mz.sx mz.sy 0).blk p.2 p.1 ≠ 2 := by
    intro p hp
    rw [setBlk_blk]
    split
    · decide
    · exact hblk p hp
  rw [((solve_eq_ok_iff hopen hblk').mp ⟨got', hok⟩).1, hself]

/-! ## The two loaders -/

theorem libmazeMazeLoad_eq_ok :
    libmazeMazeLoad (some text) (some blk) = .ok (some mz) ↔ readMaze text blk = .ok mz := by
  simp only [libmazeMazeLoad]
  split <;> simp_all

/-- The solver returns what its search leaves of the maze that it has read. -/
theorem mazeLoad_eq_ok (hread : readMaze text blk = .ok mz) {got' : Addr → Routine} :
    mazeLoad gotEntriesToMoveN got (some text) (some blk) = .ok (some mz', got') ↔
      solve gotEntriesToMoveN got mz = .ok (mz', got') := by
  rw [mazeLoad, libmazeMazeLoad_eq_ok.mpr hread]
  constructor
  · intro hok
    obtain ⟨_, hread', hrest⟩ := bind_eq_ok.mp hok
    cases hread'
    obtain ⟨_, hsolve, hdone⟩ := bind_eq_ok.mp hrest
    cases hdone
    exact hsolve
  · exact fun hsolve => bind_eq_ok.mpr ⟨_, rfl, bind_eq_ok.mpr ⟨_, hsolve, rfl⟩⟩

/-- A start that is the end needs no search. -/
theorem solve_of_start_eq_exit (heq : mz.start = mz.exit)
    (hblk : ∀ p ∈ mz.cells, mz.blk p.2 p.1 ≠ 2) :
    solve gotEntriesToMoveN got mz = .ok (mz, got) := by
  have hend : mz.sx = mz.ex ∧ mz.sy = mz.ey := Prod.ext_iff.mp heq
  refine bind_eq_ok.mpr ⟨_, if_pos hend, bind_eq_ok.mpr ⟨got, rfl, ?_⟩⟩
  rw [pure_eq_ok, (Marked.refl mz).unmark hblk]

/-- For every file that the library loads with the start inside of the maze: the solver returns
the same maze exactly when the start is the end, or is open and the paths of the search have
at most 1200 steps. -/
theorem mazeLoad_agree_iff (text : List Char) (blk blk' : ℤ → ℤ → BitVec 32) (mz : Maze)
    (hload : libmazeMazeLoad (some text) (some blk) = .ok (some mz))
    (hstart : mz.start ∈ mz.cells) :
    (∃ mz' got', mazeLoad gotEntriesToMoveN got (some text) (some blk') = .ok (some mz', got') ∧
        Agree mz.cells mz mz') ↔
      mz.start = mz.exit ∨ mz.blk mz.sy mz.sx = 0 ∧
        ∀ ds, Searched mz.next mz.exit ∅ mz.start ds → ds.length ≤ maxMoves := by
  obtain ⟨hshifted, mz₁, hread, hagree⟩ := readMaze_alike (libmazeMazeLoad_eq_ok.mp hload) blk'
  simp only [mazeLoad_eq_ok hread]
  have hcells : mz₁.cells = mz.cells := by rw [Maze.cells, hagree.fields]; rfl
  have hfirst : mz₁.start = mz.start := by rw [Maze.start, hagree.fields]; rfl
  have hlast : mz₁.exit = mz.exit := by rw [Maze.exit, hagree.fields]; rfl
  have hblk : ∀ p ∈ mz₁.cells, mz₁.blk p.2 p.1 ≠ 2 := by
    intro p hp htwo
    rw [hcells] at hp
    obtain ⟨k, hk⟩ := hshifted p hp
    rw [hagree.blk p hp, hk] at htwo
    exact shifted_ne_two k htwo
  by_cases hdone : mz.start = mz.exit
  · have hdone₁ : mz₁.start = mz₁.exit := by rw [hfirst, hlast, hdone]
    refine iff_of_true ⟨mz₁, got, solve_of_start_eq_exit hdone₁ hblk, hagree⟩ (.inl hdone)
  have hne : mz₁.start ≠ mz₁.exit := by rwa [hfirst, hlast]
  by_cases hopen : mz.blk mz.sy mz.sx = 0
  · have hopen₁ : mz₁.Open mz₁.start := by
      rw [hfirst]
      exact ⟨hcells ▸ hstart, (hagree.blk mz.start hstart).trans hopen⟩
    have hsolve : (∃ got', solve gotEntriesToMoveN got mz₁ = .ok (mz₁, got')) ↔ mz₁ = mz₁ ∧
        ∀ ds, Searched mz₁.next mz₁.exit ∅ mz₁.start ds → ds.length ≤ maxMoves :=
      solve_eq_ok_iff hopen₁ hblk
    rw [hfirst, hlast, hagree.next_eq] at hsolve
    constructor
    · rintro ⟨mz', got', hok, _⟩
      have hread' := ((solve_eq_ok_iff hopen₁ hblk).mp ⟨got', hok⟩).1
      exact .inr ⟨hopen, (hsolve.mp ⟨got', hread' ▸ hok⟩).2⟩
    · rintro (heq | ⟨_, hshort⟩)
      · exact absurd heq hdone
      · obtain ⟨got', hok⟩ := hsolve.mpr ⟨rfl, hshort⟩
        exact ⟨mz₁, got', hok, hagree⟩
  · refine iff_of_false ?_ fun h => h.elim hdone fun h => hopen h.1
    rintro ⟨mz', got', hok, hagree'⟩
    have hzero := solve_start_eq_zero hne (hfirst ▸ hcells ▸ hstart) hblk hok
    rw [hfirst, hagree'.blk mz.start hstart] at hzero
    exact hopen hzero

/-- A file with one wall, at which the maze starts. -/
def wallCell : List Char := ['1', ' ', '1', ' ', '0', ' ', '0', ' ', '5', ' ', '5', ' ', '1', '\n']

/-- The maze of one cell. -/
def oneCell (v : BitVec 32) : Maze :=
  Maze.setBlk ⟨1, 1, 0, 0, 5, 5, 0, 0, fun _ _ => 0⟩ 0 0 v

/-- A file with a wall between the start and the end of the first row, and a way around it. -/
def detour : List Char := "3 2\n0 0\n2 0\n0 1 0\n0 0 0\n".toList

/-- The maze of that file. -/
def detourMaze : Maze :=
  [(0, 0, 0), (1, 0, 1), (2, 0, 0), (0, 1, 0), (1, 1, 0), (2, 1, 0)].foldl
    (fun mz c => Maze.setBlk mz c.1 c.2.1 (c.2.2 <<< 20)) ⟨3, 2, 0, 0, 2, 0, 0, 0, fun _ _ => 0⟩

theorem libmazeMazeLoad_detour :
    libmazeMazeLoad (some detour) (some fun _ _ => 0) = .ok (some detourMaze) := rfl

/-- The maze with the detour is returned as it was read. -/
theorem mazeLoad_agree_detour :
    ∃ mz' got', mazeLoad (BitVec.ofNat 64) (fun _ => .null) (some detour) (some fun _ _ => 7) =
      .ok (some mz', got') ∧ Agree detourMaze.cells detourMaze mz' := by
  have hstart : detourMaze.start ∈ detourMaze.cells := by
    refine ⟨?_, ?_, ?_, ?_⟩ <;> decide
  refine (mazeLoad_agree_iff detour _ _ detourMaze libmazeMazeLoad_detour hstart).mpr
    (.inr ⟨rfl, fun ds hds => ?_⟩)
  obtain ⟨⟨u, hpath, _⟩, _⟩ := hds
  have hlt := length_lt_cellsLeft hpath hstart
  have hle := cellsLeft_le detourMaze ∅
  have hcells : detourMaze.w.toNat * detourMaze.h.toNat ≤ maxMoves := by decide
  omega

/-- The wall at the start is lost. -/
theorem not_mazeLoad_agree : ¬∀ (text : List Char) (blk blk' : ℤ → ℤ → BitVec 32) (mz : Maze),
    libmazeMazeLoad (some text) (some blk) = .ok (some mz) → 1 ≤ mz.w ∧ mz.w ≤ 101 →
      1 ≤ mz.h ∧ mz.h ≤ 101 → mz.start ∈ mz.cells →
        ∃ mz' got', mazeLoad (BitVec.ofNat 64) (fun _ => .null) (some text) (some blk') =
          .ok (some mz', got') ∧ Agree mz.cells mz mz' := by
  intro hall
  have hread : readMaze wallCell (fun _ _ => 0) = .ok (oneCell (1 <<< 20)) := rfl
  have hstart : (oneCell (1 <<< 20)).start ∈ (oneCell (1 <<< 20)).cells := by
    refine ⟨?_, ?_, ?_, ?_⟩ <;> decide
  obtain ⟨mz', got', hok, hagree⟩ :=
    hall wallCell (fun _ _ => 0) (fun _ _ => 0) (oneCell (1 <<< 20))
    (libmazeMazeLoad_eq_ok.mpr hread) (by decide) (by decide) hstart
  have hblk : ∀ p ∈ (oneCell (1 <<< 20)).cells, (oneCell (1 <<< 20)).blk p.2 p.1 ≠ 2 := by
    intro p _
    rw [oneCell, setBlk_blk]
    split
    · decide
    · exact (by decide : (0 : BitVec 32) ≠ 2)
  have hzero := solve_start_eq_zero (by decide) hstart hblk ((mazeLoad_eq_ok hread).mp hok)
  rw [hagree.blk _ hstart] at hzero
  exact absurd hzero (by decide)

end UnixProgramming.Libsolver
