import UnixProgramming.Libsolver.GotSlots
import UnixProgramming.Libsolver.MazeText

/-!
# The challenge as a whole

`main` of the maze program with the solver preloaded, over the words of the process. The slots
that `readelf` has found are overwritten with the addresses of the direction routines, and `main`
calls whatever its slots contain. For an image whose slots are located the program ends at the
end of the maze exactly when the paths of the search fit into the slots.
-/

namespace UnixProgramming.Libsolver

open Elf

/-- The words of the process that can be read. -/
abbrev Words := Addr → Option (BitVec 64)

/-- `direction_address`: the routines for the four directions, apart from each other, from the
moves and from the null pointer. -/
structure DirectionRoutines (p : MazeProgram) where
  address : Direction → Addr
  distinct : ∀ d d', address d = address d' → d = d'
  apart : ∀ d j, 1 ≤ j → j ≤ moveCount → p.moveAddress j ≠ address d
  nonnull : ∀ d, address d ≠ 0
  moves_nonnull : ∀ j, 1 ≤ j → j ≤ moveCount → p.moveAddress j ≠ 0

/-- Why `main` does not come to an ending of its moves. -/
inductive Crash
  /-- An array is accessed outside its bounds. -/
  | fault (f : Fault)
  /-- `readelf` reads a word that is not there. -/
  | unreadable
  /-- `make_memory_writable` exits. -/
  | notWritable
  /-- `maze_load` returns a null pointer, and `main` returns. -/
  | noMaze

/-- A path that is too long for the slots ends the program. -/
theorem solve_overrun {mz : Maze} {gotEntriesToMoveN : ℕ → Addr} {got : Addr → Routine}
    (hopen : mz.Open mz.start) {ds : List Direction}
    (hsearched : Searched mz.next mz.exit ∅ mz.start ds) (hlong : maxMoves < ds.length) :
    solve gotEntriesToMoveN got mz = .error .outOfBounds := by
  have houtcome := solve_outcome hopen
  generalize hdfs : dfs _ _ _ _ _ _ = r at houtcome
  cases houtcome with
  | overrun _ _ =>
    simp only [solve, hdfs]
    rfl
  | found hshort | exhausted hshort =>
    have hle : ds.length ≤ maxMoves := by simpa using hshort ds hsearched
    omega

namespace MazeProgram

variable (p : MazeProgram) (lib : DirectionRoutines p)

/-- The routine that is called at an address. -/
def routineAt (a : Addr) : Routine :=
  match Direction.all.find? (lib.address · = a) with
  | some d => .direction d
  | none => if (List.range' 1 moveCount).any (p.moveAddress · = a) then .random else .null

/-- The routines that the words of the process point to. -/
def routines (memory : Words) (a : Addr) : Routine :=
  match memory a with
  | some v => p.routineAt lib v
  | none => .null

/-- One pass of the loop of `check_path`. `make_memory_writable` fails for the null pointer and
where no memory is mapped. -/
def patchWord (s : Solver) (entries : Entries) (memory : Words) (d : ℕ) : Except Crash Words :=
  if d + 1 ≥ maxMoves + 1 then .error (.fault .outOfBounds)
  else if d ≥ maxMoves then .error (.fault .outOfBounds)
  else
    match entries (d + 1) with
    | none => .error .notWritable
    | some a =>
      if (memory a).isSome then
        let dirFuncAddr := match s.moveDirections d with
          | some d => lib.address d
          | none => 0
        .ok (Function.update memory a (some dirFuncAddr))
      else .error .notWritable

/-- `maze_load` of the solver, once the maze has been read. -/
def solveIn (entries : Entries) (memory : Words) (mz : Maze) : Except Crash (Maze × Words) := do
  let s : Solver := { mz, moveDirections := fun _ => none, maxDepth := 0 }
  let (_, s) ← (dfs (some maxMoves) (mz.w.toNat * mz.h.toNat + 1) s mz.sx mz.sy 0).mapError .fault
  let s := { s with mz := s.mz.unmark }
  let memory ← (List.range s.maxDepth).foldlM (p.patchWord lib s entries) memory
  pure (s.mz, memory)

/-- A file, and the block that is allocated for its maze. -/
structure MazeFile where
  file : Option (List Char)
  blk : Option (ℤ → ℤ → BitVec 32)

/-- The slot of `move_n`. -/
def slotOf (n : ℕ) : Addr := p.slotAddress (p.slot n)

/-- `main`, where `maze_init` and `maze_load` are those of the solver. `maze_init` has the library
load `./maze.txt` and looks for the slots; `main` then loads `/maze.txt`. -/
def mazeMain (un : Uninitialised) (first second : MazeFile) (rand : ℕ → Direction) :
    Except Crash Ending := do
  let _ ← (libmazeMazeLoad first.file first.blk).mapError .fault
  match readelf p.file p.runtime un with
  | none => .error .unreadable
  | some entries =>
    match ← (libmazeMazeLoad second.file second.blk).mapError .fault with
    | none => .error .noMaze
    | some mz =>
      let (mz, memory) ← p.solveIn lib entries p.memory mz
      pure (makeMoves (p.routines lib memory) p.slotOf rand moveNumbers mz)

variable {p lib} {un : Uninitialised} {first second : MazeFile} {rand : ℕ → Direction}
variable {entries : Entries} {memory : Words} {s : Solver} {mz : Maze} {a : Addr} {d n : ℕ}

/-- Every slot is found, and has a word in memory. -/
structure Located (p : MazeProgram) (entries : Entries) (memory : Words) : Prop where
  entry : ∀ n ∈ Set.Icc 1 maxMoves, entries n = some (p.slotOf n)
  mapped : ∀ n ∈ Set.Icc 1 maxMoves, (memory (p.slotOf n)).isSome = true

/-- The word of a slot is the address of its move, -/
theorem memory_slotOf (hn : n ∈ Set.Icc 1 maxMoves) :
    p.memory (p.slotOf n) = some (p.moveAddress n) :=
  memory_slot hn.1 hn.2

/-- so the slots are apart. -/
theorem slotOf_injOn (p : MazeProgram) : Set.InjOn p.slotOf (Set.Icc 1 maxMoves) := by
  intro i hi j hj heq
  have hmove := congrArg p.memory heq
  rw [memory_slotOf hi, memory_slotOf hj, Option.some.injEq] at hmove
  exact p.distinct i j hi.1 hi.2 hj.1 hj.2 hmove

/-- The address of a direction routine calls that one, -/
theorem routineAt_address (d : Direction) : p.routineAt lib (lib.address d) = .direction d := by
  have hfind : Direction.all.find? (lib.address · = lib.address d) = some d := by
    have hiff : ∀ d', lib.address d' = lib.address d ↔ d' = d := fun d' =>
      ⟨lib.distinct d' d, fun heq => heq ▸ rfl⟩
    simp only [hiff]
    cases d <;> rfl
  rw [routineAt, hfind]

/-- and a null pointer none. -/
theorem routineAt_null : p.routineAt lib 0 = .null := by
  have hfind : Direction.all.find? (lib.address · = 0) = none :=
    List.find?_eq_none.mpr fun d _ => by simpa using lib.nonnull d
  have hany : (List.range' 1 moveCount).any (p.moveAddress · = 0) = false := by
    simp only [List.any_eq_false, List.mem_range'_1, decide_eq_true_eq]
    exact fun j hj => lib.moves_nonnull j hj.1 (by omega)
  rw [routineAt, hfind, hany]
  rfl

/-- Patching a word of the table changes the routine behind that word only. -/
theorem routines_update (memory : Words) (a : Addr) (v : BitVec 64) :
    p.routines lib (Function.update memory a (some v)) =
      Function.update (p.routines lib memory) a (p.routineAt lib v) := by
  funext b
  by_cases hb : b = a
  · subst hb
    simp [routines]
  · simp [routines, hb]

/-- Storing into a word does to the routines what storing into a slot does. -/
theorem Located.patchWord (hlocated : p.Located entries memory) (lib : DirectionRoutines p)
    (s : Solver) (d : ℕ) :
    (∃ memory', p.patchWord lib s entries memory d = .ok memory' ∧ p.Located entries memory' ∧
      patchSlot s p.slotOf (p.routines lib memory) d = .ok (p.routines lib memory')) ∨
    (p.patchWord lib s entries memory d = .error (.fault .outOfBounds) ∧
      patchSlot s p.slotOf (p.routines lib memory) d = .error .outOfBounds) := by
  unfold MazeProgram.patchWord patchSlot
  by_cases hout : d + 1 ≥ maxMoves + 1
  · right
    rw [if_pos hout, if_pos hout]
    exact ⟨rfl, rfl⟩
  · have hin : ¬d ≥ maxMoves := by omega
    have hd : d + 1 ∈ Set.Icc 1 maxMoves := Set.mem_Icc.mpr (by omega)
    left
    simp only [if_neg hout, if_neg hin, hlocated.entry _ hd, hlocated.mapped _ hd, if_true,
      Except.ok.injEq, exists_eq_left', routines_update]
    refine ⟨⟨hlocated.entry, fun n hn => ?_⟩, ?_⟩
    · by_cases hsame : p.slotOf n = p.slotOf (d + 1)
      · rw [hsame, Function.update_self]
        rfl
      · rw [Function.update_of_ne hsame]
        exact hlocated.mapped n hn
    · cases s.moveDirections d with
      | some d => rw [routineAt_address]
      | none => rw [routineAt_null]

/-- So does the loop of `check_path`. The induction is on the depths. -/
theorem Located.patchWords (hlocated : p.Located entries memory) (lib : DirectionRoutines p)
    (s : Solver) (ds : List ℕ) :
    (∃ memory', ds.foldlM (p.patchWord lib s entries) memory = .ok memory' ∧
      ds.foldlM (patchSlot s p.slotOf) (p.routines lib memory) = .ok (p.routines lib memory')) ∨
    (ds.foldlM (p.patchWord lib s entries) memory = .error (.fault .outOfBounds) ∧
      ds.foldlM (patchSlot s p.slotOf) (p.routines lib memory) = .error .outOfBounds) := by
  induction ds generalizing memory with
  | nil => exact .inl ⟨memory, rfl, rfl⟩
  | cons d ds ih =>
    simp only [List.foldlM_cons]
    obtain ⟨memory', hword, hlocated', hslot⟩ | ⟨hword, hslot⟩ :=
      hlocated.patchWord lib s d
    · rw [hword, hslot]
      exact ih hlocated'
    · rw [hword, hslot]
      exact .inr ⟨rfl, rfl⟩

/-- The solver over the words does what it does over the slots. -/
theorem Located.solveIn (hlocated : p.Located entries memory) (mz : Maze) :
    (p.solveIn lib entries memory mz).map (fun r => (r.1, p.routines lib r.2)) =
      (solve p.slotOf (p.routines lib memory) mz).mapError .fault := by
  simp only [MazeProgram.solveIn, solve, checkPath]
  generalize dfs _ _ _ _ _ _ = r
  cases r with
  | error f => rfl
  | ok r =>
    obtain ⟨memory', hword, hslot⟩ | ⟨hword, hslot⟩ :=
      hlocated.patchWords lib { r.2 with mz := r.2.mz.unmark } (List.range r.2.maxDepth)
    · simp only [Except.mapError, ok_bind, hword, hslot]
      rfl
    · simp only [Except.mapError, ok_bind, hword, hslot]
      rfl

/-- An image whose slots are located. -/
theorem LocatesSlots.located (hlocates : p.LocatesSlots) (un : Uninitialised) :
    ∃ entries, readelf p.file p.runtime un = some entries ∧ p.Located entries p.memory := by
  obtain ⟨entries, hok, hentries⟩ := hlocates un
  refine ⟨entries, hok, fun n hn => hentries n hn.1 hn.2, fun n hn => ?_⟩
  rw [memory_slotOf hn]
  rfl

/-- `main` makes its moves with the slots as the solver leaves them. -/
theorem LocatesSlots.mazeMain_eq (hlocates : p.LocatesSlots) {text : List Char}
    {blk : ℤ → ℤ → BitVec 32} {r : Option Maze}
    (hfirst : libmazeMazeLoad first.file first.blk = .ok r) (hread : readMaze text blk = .ok mz) :
    p.mazeMain lib un first ⟨some text, some blk⟩ rand =
      ((solve p.slotOf (p.routines lib p.memory) mz).mapError .fault).map
        fun r => makeMoves r.2 p.slotOf rand moveNumbers r.1 := by
  obtain ⟨entries, hok, hlocated⟩ := hlocates.located un
  have hsecond : libmazeMazeLoad (some text) (some blk) = .ok (some mz) := by
    rw [libmazeMazeLoad, hread]
  rw [← hlocated.solveIn]
  simp only [mazeMain, hfirst, hsecond, hok, Except.mapError, ok_bind]
  cases p.solveIn lib entries p.memory mz with
  | error c => rfl
  | ok r => rfl

/-- For an image whose slots are located, and a text of a maze with walls all around whose end
can be reached: the program ends at the end of the maze if the paths of the depth-first search
have at most 1200 steps, and otherwise goes past the end of an array. -/
theorem mazeMain_outcome (hlocates : p.LocatesSlots) {text : List Char} {blk : ℤ → ℤ → BitVec 32}
    {r : Option Maze} (hfirst : libmazeMazeLoad first.file first.blk = .ok r)
    (hread : readMaze text blk = .ok mz) (henclosed : Enclosed mz)
    (hwithin : mz.Within n mz.start mz.exit) :
    ((∀ ds, Searched mz.next mz.exit ∅ mz.start ds → ds.length ≤ maxMoves) →
      ∃ mz', p.mazeMain lib un first ⟨some text, some blk⟩ rand = .ok (.bingo mz') ∧
        (mz'.cx, mz'.cy) = mz.exit) ∧
    ((∃ ds, Searched mz.next mz.exit ∅ mz.start ds ∧ maxMoves < ds.length) →
      p.mazeMain lib un first ⟨some text, some blk⟩ rand = .error (.fault .outOfBounds)) := by
  rw [hlocates.mazeMain_eq hfirst hread]
  constructor
  · intro hshort
    obtain ⟨mz₁, got, hsolve, mz', hbingo, hexit⟩ := henclosed.wins (henclosed.reaches hwithin)
      (fun _ _ => rfl) p.slotOf_injOn hshort
    refine ⟨mz', ?_, hexit⟩
    rw [hsolve, ← hbingo]
    rfl
  · rintro ⟨ds, hsearched, hlong⟩
    rw [solve_overrun henclosed.start_open hsearched hlong]
    rfl

end MazeProgram

/-- The image with a symbol `main_loop` that has the value of the symbol `main`. -/
def aliasImage : List UInt8 :=
  [ehdrBytes ⟨184, 64, 5, 4⟩, [0], ascii "main_loop", [0], ascii "main", [0],
    [0], ascii ".symtab", [0], ascii ".strtab", [0], ascii ".got", [0], ascii ".shstrtab", [0],
    symBytes ⟨0, 0⟩, symBytes ⟨1, 0x1200⟩, symBytes ⟨11, 0x1200⟩,
    shdrBytes zeroShdr, shdrBytes ⟨1, 2, 0, 0, 112, 72, 2, 1, 8, 24⟩,
    shdrBytes ⟨9, 3, 0, 0, 64, 16, 0, 0, 1, 0⟩, shdrBytes ⟨17, 8, 3, 0x4000, 0, 9600, 0, 0, 8, 8⟩,
    shdrBytes ⟨22, 3, 0, 0, 80, 32, 0, 0, 1, 0⟩].flatten

/-- The sample image satisfies what is asked of an image, -/
theorem wellFormed_alias : WellFormed aliasImage where
  ident := by decide +kernel
  header := by decide +kernel
  size := by decide +kernel
  entsize := by decide +kernel
  noTable := by decide +kernel
  headers := by decide +kernel
  reserved := by decide +kernel
  extended := by decide +kernel
  escape := by decide +kernel
  names := by decide +kernel
  terminated := by decide +kernel

/-- Its GOT is the one of the sample. -/
theorem alias_got : sectionAt aliasImage 3 = sectionAt mainLoopImage 3 := by decide +kernel

/-- The program of this image. -/
def aliasProgram : MazeProgram where
  file := aliasImage
  wellFormed := wellFormed_alias
  symtab := 1
  strtab := 2
  got := 3
  symtab_first := by unfold FirstNamed; decide +kernel
  strtab_first := by unfold FirstNamed; decide +kernel
  got_first := by unfold FirstNamed; decide +kernel
  symtab_inside := by decide +kernel
  strtab_inside := by decide +kernel
  main := 2
  main_pos := mainLoopProgram.main_pos
  main_lt := by decide +kernel
  main_name := by decide +kernel
  main_unique := by decide +kernel
  loadAddress := mainLoopProgram.loadAddress
  moveAddress := mainLoopProgram.moveAddress
  memory := mainLoopProgram.memory
  got_readable := by rw [alias_got]; exact mainLoopProgram.got_readable
  slot := mainLoopProgram.slot
  slot_lt := by rw [alias_got]; exact mainLoopProgram.slot_lt
  slot_iff := by rw [alias_got]; exact mainLoopProgram.slot_iff
  distinct := mainLoopProgram.distinct

/-- and the slots of its routines are found. -/
theorem aliasProgram_locatesSlots : aliasProgram.LocatesSlots := by
  have hfirst : aliasProgram.FirstLikeMain 1 :=
    ⟨le_rfl, by decide +kernel, by decide +kernel, fun j hj hj' => by omega⟩
  refine MazeProgram.CoveredAt.locatesSlots (by decide +kernel) hfirst (by decide)
    (by decide +kernel) ?_
  have hvalue : (aliasProgram.symbol aliasProgram.main).stValue -
      (aliasProgram.symbol 1).stValue = 0 := by decide +kernel
  rw [hvalue]
  exact aliasProgram.coveredAt_zero

/-- The address of a direction routine, in front of the moves. -/
def sampleDirection (d : Direction) : Addr := BitVec.ofNat 64 (0x7ffff7fa0000 + d.toNat)

/-- The sample addresses of the directions are different from each other, -/
theorem sampleDirection_inj {d d' : Direction} (heq : sampleDirection d = sampleDirection d') :
    d = d' := by
  revert heq
  cases d <;> cases d' <;> decide

/-- none of them is zero, -/
theorem sampleDirection_ne_zero (d : Direction) : sampleDirection d ≠ 0 := by
  cases d <;> decide

/-- and no numbered routine has one of them. -/
theorem sampleMove_ne_sampleDirection {j : ℕ} (hj : j ≤ moveCount) (d : Direction) :
    sampleMove j ≠ sampleDirection d := by
  intro heq
  have hnat := congrArg BitVec.toNat heq
  simp only [sampleMove, sampleDirection, BitVec.toNat_ofNat, moveCount] at hnat hj
  cases d <;> simp only [Direction.toNat] at hnat <;> omega

/-- Nor is the address of a numbered routine zero. -/
theorem sampleMove_ne_zero {j : ℕ} (hj : j ≤ moveCount) : sampleMove j ≠ 0 := by
  intro heq
  have hnat : (sampleMove j).toNat = 0 := congrArg BitVec.toNat heq
  simp only [sampleMove, BitVec.toNat_ofNat, moveCount] at hnat hj
  omega

/-- The routines at these addresses. -/
def aliasRoutines : DirectionRoutines aliasProgram where
  address := sampleDirection
  distinct _ _ heq := sampleDirection_inj heq
  apart d _ _ hj := sampleMove_ne_sampleDirection hj d
  nonnull := sampleDirection_ne_zero
  moves_nonnull _ _ hj := sampleMove_ne_zero hj

/-- The maze of two cells, as it is read. -/
def twoCellsMaze : Maze :=
  (Maze.unread (.ofInt 32 4) (.ofInt 32 3) (.ofInt 32 1) (.ofInt 32 1) (.ofInt 32 2) (.ofInt 32 1)
    fun _ _ => 0).fill (inRows (Grid.twoCells.rows.map (List.map (BitVec.ofInt 32))))

/-- The text of the sample maze is read as that maze, -/
theorem readMaze_twoCells :
    readMaze (spelled Grid.twoCellsItems ['\n']) (fun _ _ => 0) = .ok twoCellsMaze :=
  (Grid.twoCells.textOf Grid.spaced_twoCellsItems Grid.numbers_twoCellsItems).readMaze _

/-- The cells of the maze. -/
theorem twoCellsMaze_cells {q : Cell} (hq : q ∈ twoCellsMaze.cells) :
    (q.1 = 0 ∨ q.1 = 1 ∨ q.1 = 2 ∨ q.1 = 3) ∧ (q.2 = 0 ∨ q.2 = 1 ∨ q.2 = 2) := by
  have hw : twoCellsMaze.w = 4 := rfl
  have hh : twoCellsMaze.h = 3 := rfl
  obtain ⟨hx, hxw, hy, hyh⟩ := hq
  omega

/-- which has walls all around it. -/
theorem enclosed_twoCells : Enclosed twoCellsMaze where
  width := by decide
  height := by decide
  read q hq := by
    obtain ⟨x, y⟩ := q
    obtain ⟨rfl | rfl | rfl | rfl, rfl | rfl | rfl⟩ := twoCellsMaze_cells hq <;>
      first | exact ⟨0, by decide⟩ | exact ⟨1, by decide⟩
  current := ⟨rfl, rfl⟩
  border q hq hborder := by
    obtain ⟨x, y⟩ := q
    obtain ⟨rfl | rfl | rfl | rfl, rfl | rfl | rfl⟩ := twoCellsMaze_cells hq <;>
      revert hborder <;> decide
  start_open := ⟨⟨by decide, by decide, by decide, by decide⟩, by decide⟩
  exit_open := ⟨⟨by decide, by decide, by decide, by decide⟩, by decide⟩
  distinct := by decide

/-- The program finds its way from one cell to the other. -/
theorem mazeMain_outcome_alias : ∃ mz', aliasProgram.mazeMain aliasRoutines ⟨fun _ => zeroShdr, 0⟩
    ⟨none, none⟩ ⟨some (spelled Grid.twoCellsItems ['\n']), some fun _ _ => 0⟩ (fun _ => .up) =
      .ok (.bingo mz') ∧ (mz'.cx, mz'.cy) = (2, 1) := by
  have hwithin : twoCellsMaze.Within 1 (1, 1) (2, 1) :=
    .inr ⟨(2, 1), ⟨enclosed_twoCells.exit_open, .right, rfl⟩, rfl⟩
  refine (MazeProgram.mazeMain_outcome aliasProgram_locatesSlots rfl readMaze_twoCells
    enclosed_twoCells hwithin).1 ?_
  rintro ds ⟨⟨u, hpath, _⟩, _⟩
  have hlt := length_lt_cellsLeft hpath enclosed_twoCells.start_open.1
  have hle := cellsLeft_le twoCellsMaze ∅
  have hcells : twoCellsMaze.w.toNat * twoCellsMaze.h.toNat ≤ maxMoves := by decide
  omega

end UnixProgramming.Libsolver
