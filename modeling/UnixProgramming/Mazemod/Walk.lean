import UnixProgramming.Mazemod.Confinement
import UnixProgramming.Mazemod.CreateReplies
import UnixProgramming.Mazemod.ProcRead

/-!
# The walk as a client sees it

A client reads the size, the start and the map of its maze and follows its own moves
on that map. The position of the module agrees with this simulation for unit steps,
whether they are sent one by one or in batches, and across resets: the border keeps
both from leaving the map, and rows and columns mean the same to both.
-/

namespace UnixProgramming.Mazemod

open SlotTable

variable {s s' : State} {p : Process} {i : Slot} {b : Block} {m : MazeInfo}

/-- What a client has read of its maze. -/
structure ClientMap where
  size : Coord
  start : Coord
  bytes : List UInt8

/-- One step of the local simulation: a step off the map or into a wall is refused. -/
def ClientMap.step (map : ClientMap) (c : Coord) (d : UserCoord) : Coord :=
  let nx := c.x + d.x.toInt
  let ny := c.y + d.y.toInt
  if nx < 0 ∨ ny < 0 ∨ nx ≥ map.size.x ∨ ny ≥ map.size.y then c
  else if map.bytes[(ny * map.size.x + nx).toNat]? = some 1 then c
  else ⟨nx, ny⟩

/-- What a client does with its maze: it sends moves or resets the position. -/
inductive ClientOp
  | walk (moves : List UserCoord)
  | reset

/-- The simulated position after one operation. -/
def ClientMap.apply (map : ClientMap) (c : Coord) : ClientOp → Coord
  | .walk moves => moves.foldl map.step c
  | .reset => map.start

/-- The simulated position after a sequence of operations, from the start. -/
def ClientMap.simulate (map : ClientMap) (ops : List ClientOp) : Coord :=
  ops.foldl map.apply map.start

/-- The requests that carry an operation: a single move, a batch of a multiple of
eight moves, or a reset. -/
inductive Sends (p : Process) : ClientOp → Request → Prop
  | move (d : UserCoord) (rand : Rand) : Sends p (.walk [d]) (.ioctl p (.move (some d)) rand)
  | batch (buf : List UInt8) : buf.length / sizeofCoord % 8 = 0 →
      Sends p (.walk (moveArray buf)) (.write p buf true)
  | reset (rand : Rand) : Sends p .reset (.ioctl p .reset rand)

/-- All moves of an operation are steps to a neighbouring cell. -/
def ClientOp.UnitSteps : ClientOp → Prop
  | .walk moves => ∀ d ∈ moves,
      (d.x.toInt, d.y.toInt) ∈ [((-1 : ℤ), (0 : ℤ)), (1, 0), (0, -1), (0, 1)]
  | .reset => True

instance : DecidablePred ClientOp.UnitSteps
  | .walk moves => inferInstanceAs (Decidable (∀ d ∈ moves, _))
  | .reset => inferInstanceAs (Decidable True)

/-- What `MAZE_GETSIZE`, `MAZE_GETSTART` and `read` return to the client. -/
structure Received (s : State) (p : Process) (map : ClientMap) : Prop where
  size : ∀ steps rand, perform steps s (.ioctl p (.getSize true) rand) = .ok (.coord map.size, s)
  start : ∀ steps rand,
    perform steps s (.ioctl p (.getStart true) rand) = .ok (.coord map.start, s)
  bytes : ∀ steps len, ∃ s', perform steps s (.read p len true) = .ok (.bytes map.bytes, s')

/-- The process has a maze that `generate_maze` produced. -/
def HasGenerated (s : State) (p : Process) : Prop :=
  ∃ i b, userBlock s p = some (i, b) ∧ ∃ steps coord maze rand, ProperSize coord ∧
    generateMaze steps coord.y coord.x maze rand = .ok b.info

/-- Perform the requests one after the other. -/
def performAll (steps : ℕ) (s : State) (requests : List Request) : Except Fault State :=
  requests.foldlM (fun s r => do
    let (_, s) ← perform steps s r
    pure s) s

/-! ## The map that is read -/

/-- The byte that `read` stores for a cell. -/
def MazeInfo.byteAt (m : MazeInfo) (row col : ℤ) : UInt8 :=
  if m.maze.blk row col = '#' then 1 else 0

/-- What the client of a maze reads. -/
def MazeInfo.clientMap (m : MazeInfo) : ClientMap where
  size := ⟨m.maze.h, m.maze.w⟩
  start := ⟨m.maze.sx, m.maze.sy⟩
  bytes := ((upTo m.coord.y).map fun i => (upTo m.coord.x).map (m.byteAt i)).flatten

/-- The client's map depends on the size and the maze only. -/
theorem clientMap_congr {m' : MazeInfo} (hcoord : m'.coord = m.coord) (hmaze : m'.maze = m.maze) :
    m'.clientMap = m.clientMap := by
  have hbyte : m'.byteAt = m.byteAt := by
    funext row col
    simp only [MazeInfo.byteAt, hmaze]
  simp only [MazeInfo.clientMap, hcoord, hmaze, hbyte]

/-- The byte of a cell of the map. -/
theorem bytes_getElem? {row col : ℤ} (hmap : OnMap m (row, col)) :
    m.clientMap.bytes[(row * m.coord.x + col).toNat]? = some (m.byteAt row col) := by
  obtain ⟨hrow, hrow', hcol, hcol'⟩ := hmap
  have hindex : (row * m.coord.x + col).toNat = row.toNat * m.coord.x.toNat + col.toNat := by
    have hx : 0 ≤ m.coord.x := by omega
    rw [Int.toNat_add (Int.mul_nonneg hrow hx) hcol, Int.toNat_mul hrow hx]
  have htable := getElem?_flatten_rows (f := fun i j : ℕ => m.byteAt i j)
    (show row.toNat < m.coord.y.toNat by omega) (show col.toNat < m.coord.x.toNat by omega)
  simp only [Int.toNat_of_nonneg hrow, Int.toNat_of_nonneg hcol] at htable
  rw [hindex, ← htable]
  simp only [MazeInfo.clientMap, upTo, List.map_map, Function.comp_def, Int.ofNat_eq_natCast]

/-- The rows of a maze that fits are stored from its cells. -/
theorem layoutRows_eq (hfits : Fits m) : layoutRows m =
    .ok ((upTo m.coord.y).map fun i => (upTo m.coord.x).map (m.byteAt i)) := by
  refine mapM_eq_ok fun row hrow => mapM_eq_ok fun col hcol => ?_
  rw [bind_eq_ok]
  refine ⟨_, Maze.cell_eq_ok.mpr ⟨inArray_of_mem_upTo hfits hrow hcol, rfl⟩, ?_⟩
  unfold MazeInfo.byteAt
  split <;> rfl

/-- What `read` copies for a process with a maze that fits. -/
theorem perform_read {steps len : ℕ} (hblock : userBlock s p = some (i, b)) (hfits : Fits b.info) :
    perform steps s (.read p len true) =
      .ok (.bytes b.info.clientMap.bytes, s.kmalloc.2.kfree s.kmalloc.1) := by
  rw [perform, mazemodDevRead_some hblock, layoutRows_eq hfits]
  rfl

/-- A client with a proper maze receives its map. -/
theorem received_of_block (hblock : userBlock s p = some (i, b)) (hin : Inside b.info) :
    Received s p b.info.clientMap := by
  constructor
  · intro steps rand
    simp only [perform, mazemodDevIoctl, ioctlGetSize]
    exact getter_some _ hblock
  · intro steps rand
    simp only [perform, mazemodDevIoctl, ioctlGetStart]
    exact getter_some _ hblock
  · intro steps len
    exact ⟨s.kmalloc.2.kfree s.kmalloc.1, perform_read hblock ⟨hin.x_le, hin.y_le⟩⟩

/-! ## One operation -/

/-- The stored sides are the width and the height of the map. -/
def SidesStored (m : MazeInfo) : Prop := m.maze.h = m.coord.x ∧ m.maze.w = m.coord.y

/-- A unit step names a cell of the map. -/
theorem onMap_unit (hin : Inside m) {d : UserCoord}
    (hunit : (d.x.toInt, d.y.toInt) ∈ [((-1 : ℤ), (0 : ℤ)), (1, 0), (0, -1), (0, 1)]) :
    OnMap m (m.pos.1 + d.y.toInt, m.pos.2 + d.x.toInt) := by
  have hnames : NamesCells m m.pos [d] := by
    apply namesCells_of_unit hin
    intro d' hd'
    obtain rfl := List.mem_singleton.mp hd'
    simp only [List.mem_cons, Prod.mk.injEq, List.not_mem_nil, or_false] at hunit
    omega
  exact hnames.1

/-- The module and the client agree on one unit step. -/
theorem step_eq (hin : Inside m) (hsides : SidesStored m) {d : UserCoord}
    (hunit : (d.x.toInt, d.y.toInt) ∈ [((-1 : ℤ), (0 : ℤ)), (1, 0), (0, -1), (0, 1)]) :
    (m.moveTo (target m d.toCoord)).coordPos = m.clientMap.step m.coordPos d := by
  have hmap := onMap_unit hin hunit
  rw [(onMap_target hin d).2 hmap]
  have hbyte := bytes_getElem? hmap
  obtain ⟨hrow, hrow', hcol, hcol'⟩ := hmap
  obtain ⟨hh, hw⟩ := hsides
  simp only [MazeInfo.pos] at hrow hrow' hcol hcol' hbyte ⊢
  have hinside : ¬ (m.coordPos.x + d.x.toInt < 0 ∨ m.coordPos.y + d.y.toInt < 0 ∨
      m.coordPos.x + d.x.toInt ≥ m.maze.h ∨ m.coordPos.y + d.y.toInt ≥ m.maze.w) := by omega
  have hsize : m.clientMap.size = ⟨m.maze.h, m.maze.w⟩ := rfl
  rw [← hh] at hbyte
  simp only [ClientMap.step, hsize, if_neg hinside, hbyte, MazeInfo.byteAt, MazeInfo.moveTo]
  by_cases hwall : m.maze.blk (m.coordPos.y + d.y.toInt) (m.coordPos.x + d.x.toInt) = '#'
  · simp only [hwall, if_true]
  · have hopen : ¬ some (0 : UInt8) = some 1 := by decide
    simp only [if_neg hwall, if_neg hopen]

/-- The module and the client agree on the moves of one operation. The induction is on
the moves; the position changes, the client's map does not. -/
theorem writeMoves_unit {moves : List UserCoord} (hin : Inside m) (hsides : SidesStored m)
    (hunit : ClientOp.UnitSteps (.walk moves)) :
    ∃ m', writeMoves m moves = .ok m' ∧ m'.coord = m.coord ∧ m'.maze = m.maze ∧ Inside m' ∧
      m'.coordPos = moves.foldl m.clientMap.step m.coordPos := by
  induction moves generalizing m with
  | nil => exact ⟨m, rfl, rfl, rfl, hin, rfl⟩
  | cons d ds ih =>
    have hd := hunit d List.mem_cons_self
    have hmap := (onMap_target hin d).1.mpr (onMap_unit hin hd)
    let m₁ := m.moveTo (target m d.toCoord)
    have hcoord₁ : m₁.coord = m.coord := m.moveTo_coord _
    have hmaze₁ : m₁.maze = m.maze := m.moveTo_maze _
    have hsides₁ : SidesStored m₁ := by
      simp only [SidesStored, hcoord₁, hmaze₁]
      exact hsides
    obtain ⟨m', hok, hcoord, hmaze, hin', hpos⟩ := ih (hin.moveTo hmap) hsides₁
      fun d' hd' => hunit d' (List.mem_cons_of_mem d hd')
    refine ⟨m', foldlM_cons_eq_ok.mpr ⟨m₁, tryMove_onMap hin hmap, hok⟩,
      hcoord.trans hcoord₁, hmaze.trans hmaze₁, hin', ?_⟩
    rw [hpos, clientMap_congr hcoord₁ hmaze₁, step_eq hin hsides hd, List.foldl_cons]

/-- The module and the client agree on one operation. -/
theorem operation_eq {op : ClientOp} {r : Request} (hsends : Sends p op r)
    (hunit : op.UnitSteps) (hblock : userBlock s p = some (i, b)) (hin : Inside b.info)
    (hsides : SidesStored b.info) :
    ∃ reply s' b', (∀ steps, perform steps s r = .ok (reply, s')) ∧
      userBlock s' p = some (i, b') ∧ b'.info.coord = b.info.coord ∧
      b'.info.maze = b.info.maze ∧ Inside b'.info ∧
      b'.info.coordPos = b.info.clientMap.apply b.info.coordPos op := by
  cases hsends with
  | move d rand =>
    obtain ⟨m', hok, hcoord, hmaze, hin', hpos⟩ := writeMoves_unit hin hsides hunit
    obtain ⟨reply, s', hperform, hblock'⟩ :=
      perform_walk (r := .ioctl p (.move (some d)) rand) rfl hblock hok
    exact ⟨reply, s', _, hperform, hblock', hcoord, hmaze, hin', hpos⟩
  | batch buf hcount =>
    have hwalk : walk (.write p buf true) = some (p, moveArray buf) := by
      simp only [walk, hcount, if_true]
    obtain ⟨m', hok, hcoord, hmaze, hin', hpos⟩ := writeMoves_unit hin hsides hunit
    obtain ⟨reply, s', hperform, hblock'⟩ := perform_walk hwalk hblock hok
    exact ⟨reply, s', _, hperform, hblock', hcoord, hmaze, hin', hpos⟩
  | reset rand =>
    refine ⟨.code 0, s.setInfo i (some { b with info := b.info.atStart }), _, fun steps => ?_,
      userBlock_setInfo rfl hblock _, rfl, rfl, hin.atStart, rfl⟩
    simp only [perform, mazemodDevIoctl, ioctlReset, hblock]
    rfl

/-! ## A sequence of operations -/

/-- The requests of a sequence of operations return, and the position after them is the
simulated one. The induction is on the operations. -/
theorem performAll_eq {ops : List ClientOp} {requests : List Request}
    (hops : List.Forall₂ (Sends p) ops requests) (hunit : ∀ op ∈ ops, op.UnitSteps)
    (hblock : userBlock s p = some (i, b)) (hin : Inside b.info) (hsides : SidesStored b.info) :
    ∃ s' b', (∀ steps, performAll steps s requests = .ok s') ∧
      userBlock s' p = some (i, b') ∧ b'.info.coord = b.info.coord ∧
      b'.info.maze = b.info.maze ∧ Inside b'.info ∧
      b'.info.coordPos = ops.foldl b.info.clientMap.apply b.info.coordPos := by
  induction hops generalizing s b with
  | nil => exact ⟨s, b, fun _ => rfl, hblock, rfl, rfl, hin, rfl⟩
  | @cons op r ops requests hsends _ ih =>
    obtain ⟨hop, hrest⟩ := List.forall_mem_cons.mp hunit
    obtain ⟨reply, s₁, b₁, hperform, hblock₁, hcoord₁, hmaze₁, hin₁, hpos₁⟩ :=
      operation_eq hsends hop hblock hin hsides
    have hsides₁ : SidesStored b₁.info := by
      simp only [SidesStored, hcoord₁, hmaze₁]
      exact hsides
    obtain ⟨s', b', hall, hblock', hcoord, hmaze, hin', hpos⟩ := ih hrest hblock₁ hin₁ hsides₁
    refine ⟨s', b', fun steps => foldlM_cons_eq_ok.mpr ⟨s₁, ?_, hall steps⟩, hblock',
      hcoord.trans hcoord₁, hmaze.trans hmaze₁, hin', ?_⟩
    · rw [hperform steps]
      rfl
    · rw [hpos, clientMap_congr hcoord₁ hmaze₁, hpos₁, List.foldl_cons]

/-- A generated maze is proper, stores its sides and has its position at its start. -/
theorem generated_fields {coord : Coord} {steps : ℕ} {maze : Maze} {rand : Rand}
    (hsize : ProperSize coord) (hok : generateMaze steps coord.y coord.x maze rand = .ok m) :
    Inside m ∧ SidesStored m ∧ m.clientMap.start = m.coordPos := by
  obtain ⟨hcoord, hw, hh, hpos⟩ := generateMaze_fields hok
  have hcoord' : m.coord = coord := hcoord
  refine ⟨.of_generated hsize hok, ⟨?_, ?_⟩, hpos.symm⟩
  · rw [hh, hcoord']
  · rw [hw, hcoord']

/-- The first `MAZE_CREATE` of a process gives it a generated maze when a slot is vacant. -/
theorem hasGenerated_create {c : UserCoord} {steps : ℕ} {rand : Rand} {reply : Reply}
    (hsize : ProperSize c.toCoord) (huser : s.table.user p = none) (hroom : s.table.vacant ≠ none)
    (hok : ioctlCreate steps s p (some c) rand = .ok (reply, s')) : HasGenerated s' p := by
  cases ioctlCreate_outcome hsize.accepted hok with
  | present hmaze =>
    obtain ⟨i, hi, _⟩ := hmaze
    cases huser.symm.trans hi
  | full _ hvacant => exact absurd hvacant hroom
  | returned _ _ hcreation =>
    cases hcreation with
    | full hvacant => exact absurd hvacant hroom
    | @fresh i steps' info hvacant hgen =>
      have huser' : (created s p i info).table.user p = some i := by
        refine user_eq_some.mpr ⟨by simp, fun j hj => ?_⟩
        rw [table_pid, created_pids, Function.update_of_ne hj.ne]
        exact user_eq_none.mp huser j
      exact ⟨i, ⟨s.nextAddr, info⟩, userBlock_eq_some.mpr ⟨huser', by simp⟩,
        steps', c.toCoord, s.genMaze, rand, hsize, hgen⟩

/-- A client with a generated maze receives its map and follows its own moves on it:
every sequence of unit steps, in single moves or in batches and with resets in between,
is performed, leaves the map as it was, and ends where the simulation ends. -/
theorem walk_agrees {ops : List ClientOp} {requests : List Request} (hmade : HasGenerated s p)
    (hops : List.Forall₂ (Sends p) ops requests) (hunit : ∀ op ∈ ops, op.UnitSteps) :
    ∃ map s', Received s p map ∧ (∀ steps, performAll steps s requests = .ok s') ∧
      Received s' p map ∧ ∀ steps rand,
        perform steps s' (.ioctl p (.getPos true) rand) = .ok (.coord (map.simulate ops), s') := by
  obtain ⟨i, b, hblock, steps, coord, maze, rand, hsize, hok⟩ := hmade
  obtain ⟨hin, hsides, hstart⟩ := generated_fields hsize hok
  obtain ⟨s', b', hall, hblock', hcoord, hmaze, hin', hpos⟩ :=
    performAll_eq hops hunit hblock hin hsides
  have hreceived := received_of_block hblock' hin'
  rw [clientMap_congr hcoord hmaze] at hreceived
  refine ⟨b.info.clientMap, s', received_of_block hblock hin, hall, hreceived, ?_⟩
  intro steps rand
  rw [ClientMap.simulate, hstart, ← hpos]
  simp only [perform, mazemodDevIoctl, ioctlGetPos]
  exact getter_some _ hblock'

/-- Eight moves down. -/
def sampleBatch : List UInt8 := (List.replicate 8 [0, 0, 0, 0, 1, 0, 0, 0]).flatten

/-- A client creates a maze of width 5 and height 3, moves left, resets its position,
and sends a batch of eight moves down. -/
theorem walk_agrees_sample : ∃ s steps reply map s',
    ioctlCreate steps .init (sampleProcess 0) (some sampleSize) sampleRand = .ok (reply, s) ∧
      Received s (sampleProcess 0) map ∧
      (∀ steps, performAll steps s [.ioctl (sampleProcess 0) (.move (some ⟨-1, 0⟩)) sampleRand,
        .ioctl (sampleProcess 0) .reset sampleRand,
        .write (sampleProcess 0) sampleBatch true] = .ok s') ∧
      Received s' (sampleProcess 0) map ∧ ∀ steps rand,
        perform steps s' (.ioctl (sampleProcess 0) (.getPos true) rand) =
          .ok (.coord (map.simulate [.walk [⟨-1, 0⟩], .reset, .walk (moveArray sampleBatch)]),
            s') := by
  obtain ⟨steps, reply, s, hok⟩ := sampleCreate_returns .init 0
  have hmade : HasGenerated s (sampleProcess 0) :=
    hasGenerated_create ⟨by decide, by decide, by decide, by decide⟩ (by decide) (by decide) hok
  obtain ⟨map, s', hresult⟩ := walk_agrees hmade
    (.cons (.move ⟨-1, 0⟩ sampleRand) (.cons (.reset sampleRand)
      (.cons (.batch sampleBatch (by decide)) .nil)))
    (by decide)
  exact ⟨s, steps, reply, map, s', hok, hresult⟩

end UnixProgramming.Mazemod
