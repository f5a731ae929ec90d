import UnixProgramming.Mazemod.Interference
import UnixProgramming.Mazemod.Reading

/-!
# The random walk of the test program

`case_randomwalk` of `mazetest.c` beside other processes: it creates a maze, reads it, walks on
its own copy, sends the same moves in one batch and compares the positions. In every run, whatever
the other processes do between its calls, the check passes, unless the creation is refused.
-/

namespace UnixProgramming.Mazemod

open SlotTable

/-! ## The program -/

/-- The bytes of an `int` in memory. -/
def int32Bytes (v : Int32) : List UInt8 :=
  let n := v.toBitVec.toNat
  [.ofNat n, .ofNat (n / 2 ^ 8), .ofNat (n / 2 ^ 16), .ofNat (n / 2 ^ 24)]

/-- The bytes of an array of `coord_t`. -/
def seqBytes (seq : List UserCoord) : List UInt8 :=
  seq.flatMap fun c => int32Bytes c.x ++ int32Bytes c.y

/-- `_m`, the copy of the maze. -/
structure LocalMaze where
  w : ℤ
  h : ℤ
  sx : ℤ
  sy : ℤ
  ex : ℤ
  ey : ℤ
  blk : ℤ → ℤ → UInt8

/-- How the program ends: with one of its two messages, because `read` does not return one byte
for each cell, because `MAZE_CREATE` fails, or because a later call does. -/
inductive TestOutcome
  | passed
  | failed
  | sizeMismatch
  | refused (ret : ℤ)
  | callFailed
  deriving DecidableEq

/-- The next call of the program. -/
inductive TestCall
  | create
  | getSize
  | getStart
  | getEnd
  | getPos
  | read
  | write
  | checkPos
  | done (outcome : TestOutcome)

/-- The program, with the position of its own walk. -/
structure TestProgram where
  next : TestCall
  m : LocalMaze
  cx : ℤ
  cy : ℤ

/-- The program before its first call. -/
def TestProgram.start : TestProgram := ⟨.create, ⟨0, 0, 0, 0, 0, 0, fun _ _ => 0⟩, 0, 0⟩

/-- The size that `_case_create1` asks for: odd sides. -/
def createSize (rand : ℕ → ℕ) : UserCoord :=
  let x := 3 + rand 0 % 40
  let y := 3 + rand 1 % 20
  ⟨.ofNat (if x % 2 = 0 then x + 1 else x), .ofNat (if y % 2 = 0 then y + 1 else y)⟩

/-- `dir`. -/
def walkDirection : ℕ → UserCoord
  | 0 => ⟨-1, 0⟩
  | 1 => ⟨1, 0⟩
  | 2 => ⟨0, -1⟩
  | _ => ⟨0, 1⟩

/-- The array `seq` of moves. -/
def walkSeq (rand : ℕ → ℕ) : List UserCoord :=
  (List.range 64).map fun i => walkDirection (rand (i + 2) % 4)

/-- One pass of the local simulation. -/
def LocalMaze.step (m : LocalMaze) (c : ℤ × ℤ) (d : UserCoord) : ℤ × ℤ :=
  let nx := c.1 + d.x.toInt
  let ny := c.2 + d.y.toInt
  if nx < 0 ∨ ny < 0 ∨ nx ≥ m.w ∨ ny ≥ m.h then c
  else if m.blk ny nx ≠ 0 then c
  else (nx, ny)

/-- The rows that are copied from `_buf`; the rest of `_m.blk` stays. -/
def LocalMaze.copyRows (m : LocalMaze) (buf : List UInt8) : LocalMaze :=
  { m with blk := fun i j =>
      if 0 ≤ i ∧ i < m.h ∧ 0 ≤ j ∧ j < m.w then buf.getD (i * m.w + j).toNat 0 else m.blk i j }

namespace TestProgram

/-- Go on with the coordinates that a getter returns. -/
def onCoord (t : TestProgram) (reply : Reply) (go : Coord → TestProgram) : TestProgram :=
  match reply with
  | .coord c => go c
  | _ => { t with next := .done .callFailed }

/-- The program with the outcome of its last call. -/
def receive (rand : ℕ → ℕ) (t : TestProgram) (reply : Reply) : TestProgram :=
  match t.next with
  | .create =>
    if reply.ret < 0 then { t with next := .done (.refused reply.ret) }
    else { t with next := .getSize }
  | .getSize =>
    t.onCoord reply fun c => { t with m := { t.m with h := c.y, w := c.x }, next := .getStart }
  | .getStart =>
    t.onCoord reply fun c => { t with m := { t.m with sy := c.y, sx := c.x }, next := .getEnd }
  | .getEnd =>
    t.onCoord reply fun c => { t with m := { t.m with ey := c.y, ex := c.x }, next := .getPos }
  | .getPos => t.onCoord reply fun _ => { t with next := .read }
  | .read =>
    match reply with
    | .bytes buf =>
      if (buf.length : ℤ) ≠ t.m.w * t.m.h then { t with next := .done .sizeMismatch }
      else
        let m := t.m.copyRows buf
        let (cx, cy) := (walkSeq rand).foldl m.step (m.sx, m.sy)
        ⟨.write, m, cx, cy⟩
    | _ => { t with next := .done .callFailed }
  | .write =>
    if reply.ret < 0 then { t with next := .done .callFailed } else { t with next := .checkPos }
  | .checkPos =>
    t.onCoord reply fun pos =>
      { t with next := .done (if pos.x = t.cx ∧ pos.y = t.cy then .passed else .failed) }
  | .done _ => t

/-- `sizeof(_buf)`. -/
def bufSize : ℕ := (mazeMaxY * mazeMaxX).toNat

/-- The request of the next call. Its random numbers are those of the module. -/
def request (q : Process) (rand : ℕ → ℕ) (t : TestProgram) (r : Rand) : Option Request :=
  match t.next with
  | .create => some (.ioctl q (.create (some (createSize rand))) r)
  | .getSize => some (.ioctl q (.getSize true) r)
  | .getStart => some (.ioctl q (.getStart true) r)
  | .getEnd => some (.ioctl q (.getEnd true) r)
  | .getPos => some (.ioctl q (.getPos true) r)
  | .read => some (.read q bufSize true)
  | .write => some (.write q (seqBytes (walkSeq rand)) true)
  | .checkPos => some (.ioctl q (.getPos true) r)
  | .done _ => none

end TestProgram

/-- The device and the program in process `q`: an operation is the next call of the program, or it
is issued by another process. -/
inductive BesideOthers (q : Process) (rand : ℕ → ℕ) :
    State × TestProgram → Request × Reply → State × TestProgram → Prop
  | own {s s' : State} {t : TestProgram} {r : Request} {reply : Reply} {random : Rand} :
      t.request q rand random = some r → Answers s (r, reply) s' →
      BesideOthers q rand (s, t) (r, reply) (s', t.receive rand reply)
  | other {s s' : State} {t : TestProgram} {r : Request} {reply : Reply} :
      issuedBy q r = false → Answers s (r, reply) s' →
      BesideOthers q rand (s, t) (r, reply) (s', t)

variable {s s' : State} {q : Process} {rand : ℕ → ℕ} {t : TestProgram} {b : Block} {i : Slot}
variable {reply : Reply} {m : MazeInfo}

/-! ## The batch -/

theorem int32LE_bytes (v : Int32) (rest : List UInt8) : ∃ b₀ b₁ b₂ b₃,
    int32Bytes v ++ rest = b₀ :: b₁ :: b₂ :: b₃ :: rest ∧ int32LE b₀ b₁ b₂ b₃ = v := by
  refine ⟨_, _, _, _, rfl, ?_⟩
  have hlt := v.toBitVec.isLt
  have hsum : (UInt8.ofNat v.toBitVec.toNat).toNat +
      2 ^ 8 * (UInt8.ofNat (v.toBitVec.toNat / 2 ^ 8)).toNat +
      2 ^ 16 * (UInt8.ofNat (v.toBitVec.toNat / 2 ^ 16)).toNat +
      2 ^ 24 * (UInt8.ofNat (v.toBitVec.toNat / 2 ^ 24)).toNat = v.toBitVec.toNat := by
    simp only [UInt8.toNat_ofNat']
    omega
  rw [int32LE, hsum]
  exact Int32.toBitVec_inj.mp (by simp)

/-- The device reads the moves that the program has written. -/
theorem moveArray_seqBytes (seq : List UserCoord) : moveArray (seqBytes seq) = seq := by
  induction seq with
  | nil => rfl
  | cons c seq ih =>
    obtain ⟨a₀, a₁, a₂, a₃, heq, hx⟩ := int32LE_bytes c.x (int32Bytes c.y ++ seqBytes seq)
    obtain ⟨b₀, b₁, b₂, b₃, heq', hy⟩ := int32LE_bytes c.y (seqBytes seq)
    have hbytes : seqBytes (c :: seq) = int32Bytes c.x ++ (int32Bytes c.y ++ seqBytes seq) := by
      simp [seqBytes]
    rw [hbytes, heq, heq', moveArray, ih, hx, hy]

theorem length_seqBytes (seq : List UserCoord) : (seqBytes seq).length = 8 * seq.length := by
  induction seq with
  | nil => rfl
  | cons c seq ih =>
    have hbytes : seqBytes (c :: seq) = int32Bytes c.x ++ (int32Bytes c.y ++ seqBytes seq) := by
      simp [seqBytes]
    simp only [hbytes, List.length_append, ih, int32Bytes, List.length_cons, List.length_nil]
    omega

/-- All moves of the walk are steps to a neighbouring cell. -/
theorem unitSteps_walkSeq (rand : ℕ → ℕ) : ClientOp.UnitSteps (.walk (walkSeq rand)) := by
  intro d hd
  obtain ⟨i, -, rfl⟩ := List.mem_map.mp hd
  generalize rand (i + 2) % 4 = n
  unfold walkDirection
  split <;> decide

/-- The batch has a multiple of eight moves. -/
theorem count_walkSeq (rand : ℕ → ℕ) :
    (seqBytes (walkSeq rand)).length / sizeofCoord % 8 = 0 := by
  rw [length_seqBytes, walkSeq, List.length_map, List.length_range]
  rfl

theorem walk_batch (rand : ℕ → ℕ) :
    walk (.write q (seqBytes (walkSeq rand)) true) = some (q, walkSeq rand) := by
  rw [walk, if_pos (count_walkSeq rand), moveArray_seqBytes]

/-! ## The local walk -/

/-- The program has copied what it has read of the maze. -/
structure Copied (l : LocalMaze) (m : MazeInfo) : Prop where
  width : l.w = m.maze.h
  height : l.h = m.maze.w
  start : (l.sx, l.sy) = (m.maze.sx, m.maze.sy)

@[simp] theorem LocalMaze.copyRows_start (l : LocalMaze) (buf : List UInt8) :
    ((l.copyRows buf).sx, (l.copyRows buf).sy) = (l.sx, l.sy) := rfl

/-- One pass of the simulation is a step on the map. -/
theorem Copied.step_eq {l : LocalMaze} (hcopied : Copied l m) (hsides : SidesStored m) (c : Coord)
    (d : UserCoord) : (l.copyRows m.clientMap.bytes).step (c.x, c.y) d =
      ((m.clientMap.step c d).x, (m.clientMap.step c d).y) := by
  obtain ⟨hw, hh, -⟩ := hcopied
  have hsize : m.clientMap.size = ⟨m.maze.h, m.maze.w⟩ := rfl
  simp only [LocalMaze.step, LocalMaze.copyRows, ClientMap.step, hsize, hw, hh]
  generalize hx : c.x + d.x.toInt = nx
  generalize hy : c.y + d.y.toInt = ny
  by_cases hout : nx < 0 ∨ ny < 0 ∨ nx ≥ m.maze.h ∨ ny ≥ m.maze.w
  · rw [if_pos hout, if_pos hout]
  · have hin : 0 ≤ ny ∧ ny < m.maze.w ∧ 0 ≤ nx ∧ nx < m.maze.h := by omega
    have hmap : OnMap m (ny, nx) := by
      obtain ⟨hstored, hstored'⟩ := hsides
      simp only [OnMap]
      omega
    have hbyte := bytes_getElem? hmap
    rw [← hsides.1] at hbyte
    rw [if_neg hout, if_neg hout, if_pos hin, List.getD_eq_getElem?_getD, hbyte, Option.getD_some,
      MazeInfo.byteAt]
    by_cases hwall : m.maze.blk ny nx = '#' <;> simp [hwall]

/-- So the simulation follows the map. -/
theorem Copied.walk_eq {l : LocalMaze} (hcopied : Copied l m) (hsides : SidesStored m)
    (moves : List UserCoord) (c : Coord) :
    moves.foldl (l.copyRows m.clientMap.bytes).step (c.x, c.y) =
      ((moves.foldl m.clientMap.step c).x, (moves.foldl m.clientMap.step c).y) := by
  induction moves generalizing c with
  | nil => rfl
  | cons d moves ih => rw [List.foldl_cons, List.foldl_cons, hcopied.step_eq hsides, ih]

/-! ## What the program knows -/

/-- The process has one slot, with a maze in it on which it can walk. -/
structure OwnMaze (q : Process) (s : State) (i : Slot) (b : Block) : Prop where
  only : OnlySlot q s.pids i
  block : s.mazeUserInfo i = some b
  inside : Inside b.info
  sides : SidesStored b.info

/-- The position is the start. -/
def AtStart (m : MazeInfo) : Prop := m.coordPos = ⟨m.maze.sx, m.maze.sy⟩

/-- What holds of the maze of the program before each of its calls. -/
def Holds (rand : ℕ → ℕ) (t : TestProgram) (m : MazeInfo) : TestCall → Prop
  | .getSize => AtStart m
  | .getStart => AtStart m ∧ t.m.w = m.maze.h ∧ t.m.h = m.maze.w
  | .getEnd | .getPos | .read => AtStart m ∧ Copied t.m m
  | .write =>
    AtStart m ∧ (⟨t.cx, t.cy⟩ : Coord) = (walkSeq rand).foldl m.clientMap.step m.coordPos
  | .checkPos => m.coordPos = ⟨t.cx, t.cy⟩
  | .create | .done _ => False

/-- The outcomes in which the check has not failed. -/
def TestOutcome.Clean (o : TestOutcome) : Prop := o = .passed ∨ o = .refused (-enomem)

/-- The invariant of the runs: the program has no slot yet, or it walks on its maze, or it has
ended. -/
inductive Follows (q : Process) (rand : ℕ → ℕ) (s : State) (t : TestProgram) : Prop
  | without : t.next = .create → (∀ i, s.pids i ≠ q.pid) → Follows q rand s t
  | walking {i : Slot} {b : Block} :
      OwnMaze q s i b → Holds rand t b.info t.next → Follows q rand s t
  | ended {o : TestOutcome} : t.next = .done o → o.Clean → Follows q rand s t

/-- The other processes do not touch it. -/
theorem Follows.of_leavesAlone (hfollows : Follows q rand s t) (halone : LeavesAlone q s s') :
    Follows q rand s' t := by
  cases hfollows with
  | without hnext hnone => exact .without hnext fun i hi => hnone i ((halone i).1.mp hi)
  | walking hown hholds =>
    obtain ⟨honly, hblock, hinside, hsides⟩ := hown
    have hpid := (honly _).mpr rfl
    exact .walking ⟨fun j => (halone j).1.trans (honly j), ((halone _).2 hpid).trans hblock,
      hinside, hsides⟩ hholds
  | ended hnext hclean => exact .ended hnext hclean

/-! ## The calls -/

/-- The slot of the program is the one that the operations find. -/
theorem OwnMaze.userBlock_eq (hown : OwnMaze q s i b) : userBlock s q = some (i, b) :=
  userBlock_eq_some.mpr ⟨hown.only.user, hown.block⟩

/-- A getter answers with a field of the maze. -/
theorem OwnMaze.getter_eq (hown : OwnMaze q s i b) {cmd : Ioctl} {random : Rand}
    (field : MazeInfo → Coord)
    (hcmd : ∀ steps, perform steps s (.ioctl q cmd random) = getter s q true field)
    (hans : Answers s (.ioctl q cmd random, reply) s') :
    reply = .coord (field b.info) ∧ s' = s := by
  obtain ⟨steps, hok⟩ := hans
  rw [hcmd, getter_some _ hown.userBlock_eq] at hok
  obtain ⟨rfl, rfl⟩ := Prod.mk.inj (Except.ok.inj hok)
  exact ⟨rfl, rfl⟩

/-- The sizes that the program asks for are proper. -/
theorem properSize_createSize (rand : ℕ → ℕ) : ProperSize (createSize rand).toCoord := by
  have hside : ∀ n m : ℕ, m ≤ 40 → 0 < m →
      3 ≤ (Int32.ofNat (if (3 + n % m) % 2 = 0 then 3 + n % m + 1 else 3 + n % m)).toInt ∧
      (Int32.ofNat (if (3 + n % m) % 2 = 0 then 3 + n % m + 1 else 3 + n % m)).toInt ≤ 101 := by
    intro n m hm hpos
    have hlt := Nat.mod_lt n hpos
    generalize hk : (if (3 + n % m) % 2 = 0 then 3 + n % m + 1 else 3 + n % m) = k
    have hbounds : 3 ≤ k ∧ k ≤ 101 := by
      rw [← hk]
      split <;> omega
    rw [Int32.toInt_ofNat_of_lt (by omega)]
    omega
  obtain ⟨hx, hx'⟩ := hside (rand 0) 40 le_rfl (by decide)
  obtain ⟨hy, hy'⟩ := hside (rand 1) 20 (by decide) (by decide)
  exact ⟨hx, hx', hy, hy'⟩

/-- The first call gives the program a maze, or is refused. -/
theorem follows_create {random : Rand} (hnext : t.next = .create) (hnone : ∀ i, s.pids i ≠ q.pid)
    (hans : Answers s (.ioctl q (.create (some (createSize rand))) random, reply) s') :
    Follows q rand s' (t.receive rand reply) := by
  have hsize := properSize_createSize rand
  have huser : s.table.user q = none := user_eq_none.mpr hnone
  obtain ⟨steps, hok⟩ := hans
  cases ioctlCreate_outcome hsize.accepted hok with
  | present hmaze =>
    obtain ⟨i, hi, _⟩ := hmaze
    cases huser.symm.trans hi
  | full =>
    refine .ended (o := .refused (-enomem)) ?_ (.inr rfl)
    simp [TestProgram.receive, hnext, Reply.ret, enomem]
  | returned _ hroom hcreation =>
    have hreceive : t.receive rand (.code 0) = { t with next := .getSize } := by
      simp [TestProgram.receive, hnext, Reply.ret]
    rw [hreceive]
    cases hcreation with
    | full hvacant => exact absurd hvacant (hroom huser)
    | @fresh i steps' info hvacant hgen =>
      obtain ⟨hinside, hsides, hstart⟩ := generated_fields hsize hgen
      refine .walking (i := i) (b := ⟨s.nextAddr, info⟩) ⟨fun j => ?_, by simp, hinside, hsides⟩
        hstart.symm
      by_cases hj : j = i
      · simp [hj]
      · simp [hj, hnone j]

/-- The map is copied. -/
theorem follows_read {len : ℕ} (hnext : t.next = .read) (hown : OwnMaze q s i b)
    (hholds : AtStart b.info ∧ Copied t.m b.info) (hans : Answers s (.read q len true, reply) s') :
    Follows q rand s' (t.receive rand reply) := by
  obtain ⟨hstart, hcopied⟩ := hholds
  obtain ⟨steps, hok⟩ := hans
  dsimp only at hok
  rw [perform_read hown.userBlock_eq ⟨hown.inside.x_le, hown.inside.y_le⟩] at hok
  obtain ⟨rfl, rfl⟩ := Prod.mk.inj (Except.ok.inj hok)
  have hsided : Sided b.info := by
    obtain ⟨h₁, h₂, h₃, h₄⟩ := hown.inside.start_open.1
    exact ⟨by omega, by omega, hown.sides⟩
  have hlength : (b.info.clientMap.bytes.length : ℤ) = t.m.w * t.m.h := by
    rw [length_bytes hsided, hcopied.width, hcopied.height, hown.sides.1, hown.sides.2]
  have hwalk := hcopied.walk_eq hown.sides (walkSeq rand) ⟨b.info.maze.sx, b.info.maze.sy⟩
  rw [← hcopied.start, ← hstart] at hwalk
  refine .walking (i := i) (b := b) ⟨hown.only, hown.block, hown.inside, hown.sides⟩ ?_
  simp only [TestProgram.receive, hnext, hlength, ne_eq, not_true, if_false]
  refine ⟨hstart, ?_⟩
  simp only [LocalMaze.copyRows_start, hwalk]

/-- The batch takes the maze to the position of the local walk. -/
theorem follows_write (hnext : t.next = .write) (hown : OwnMaze q s i b)
    (hholds : Holds rand t b.info .write)
    (hans : Answers s (.write q (seqBytes (walkSeq rand)) true, reply) s') :
    Follows q rand s' (t.receive rand reply) := by
  obtain ⟨-, hwalked⟩ := hholds
  obtain ⟨m', hmoves, hcoord, hmaze, hinside, hpos⟩ :=
    writeMoves_unit hown.inside hown.sides (unitSteps_walkSeq rand)
  obtain ⟨steps, hok⟩ := hans
  have hlength := count_walkSeq rand
  simp only [perform, mazemodDevWrite, hown.userBlock_eq, hlength, moveArray_seqBytes, hmoves,
    Bool.not_true, Bool.false_eq_true, if_false, not_true, ne_eq, ok_bind, pure_eq_ok,
    Prod.mk.injEq] at hok
  obtain ⟨rfl, rfl⟩ := hok
  refine .walking (i := i) (b := { b with info := m' })
    ⟨hown.only, by simp [State.setInfo], hinside, ?_⟩ ?_
  · simp only [SidesStored, hcoord, hmaze]
    exact hown.sides
  · have hret : ¬(Reply.code (seqBytes (walkSeq rand)).length).ret < 0 := by simp [Reply.ret]
    simp only [TestProgram.receive, hnext, hret, if_false]
    exact hpos.trans hwalked.symm

/-- Every call of the program keeps the invariant. -/
theorem Follows.own (hfollows : Follows q rand s t) {r : Request} {random : Rand}
    (hreq : t.request q rand random = some r) (hans : Answers s (r, reply) s') :
    Follows q rand s' (t.receive rand reply) := by
  cases hfollows with
  | without hnext hnone =>
    rw [TestProgram.request, hnext] at hreq
    obtain rfl := Option.some.inj hreq
    exact follows_create hnext hnone hans
  | ended hnext _ =>
    rw [TestProgram.request, hnext] at hreq
    cases hreq
  | @walking i b hown hholds =>
    cases hnext : t.next with
    | create | done => simp [hnext, Holds] at hholds
    | getSize =>
      rw [hnext] at hholds
      rw [TestProgram.request, hnext] at hreq
      obtain rfl := Option.some.inj hreq
      obtain ⟨rfl, rfl⟩ := hown.getter_eq (fun m => ⟨m.maze.h, m.maze.w⟩) (fun _ => rfl) hans
      refine .walking hown ?_
      simp only [TestProgram.receive, hnext, TestProgram.onCoord]
      exact ⟨hholds, rfl, rfl⟩
    | getStart =>
      rw [hnext] at hholds
      rw [TestProgram.request, hnext] at hreq
      obtain rfl := Option.some.inj hreq
      obtain ⟨rfl, rfl⟩ := hown.getter_eq (fun m => ⟨m.maze.sx, m.maze.sy⟩) (fun _ => rfl) hans
      refine .walking hown ?_
      simp only [TestProgram.receive, hnext, TestProgram.onCoord]
      exact ⟨hholds.1, hholds.2.1, hholds.2.2, rfl⟩
    | getEnd =>
      rw [hnext] at hholds
      rw [TestProgram.request, hnext] at hreq
      obtain rfl := Option.some.inj hreq
      obtain ⟨rfl, rfl⟩ := hown.getter_eq (fun m => ⟨m.maze.ex, m.maze.ey⟩) (fun _ => rfl) hans
      refine .walking hown ?_
      simp only [TestProgram.receive, hnext, TestProgram.onCoord]
      exact ⟨hholds.1, hholds.2.width, hholds.2.height, hholds.2.start⟩
    | getPos =>
      rw [hnext] at hholds
      rw [TestProgram.request, hnext] at hreq
      obtain rfl := Option.some.inj hreq
      obtain ⟨rfl, rfl⟩ :=
        hown.getter_eq (fun m => ⟨m.coordPos.x, m.coordPos.y⟩) (fun _ => rfl) hans
      refine .walking hown ?_
      simp only [TestProgram.receive, hnext, TestProgram.onCoord]
      exact hholds
    | read =>
      rw [hnext] at hholds
      rw [TestProgram.request, hnext] at hreq
      obtain rfl := Option.some.inj hreq
      exact follows_read hnext hown hholds hans
    | write =>
      rw [hnext] at hholds
      rw [TestProgram.request, hnext] at hreq
      obtain rfl := Option.some.inj hreq
      exact follows_write hnext hown hholds hans
    | checkPos =>
      rw [hnext] at hholds
      rw [TestProgram.request, hnext] at hreq
      obtain rfl := Option.some.inj hreq
      obtain ⟨rfl, rfl⟩ :=
        hown.getter_eq (fun m => ⟨m.coordPos.x, m.coordPos.y⟩) (fun _ => rfl) hans
      have hpos : b.info.coordPos = ⟨t.cx, t.cy⟩ := hholds
      refine .ended (o := .passed) ?_ (.inl rfl)
      simp [TestProgram.receive, hnext, TestProgram.onCoord, hpos]

/-! ## Runs -/

/-- A getter of the program returns. -/
theorem OwnMaze.answers_getter (hown : OwnMaze q s i b) {cmd : Ioctl} {random : Rand}
    (field : MazeInfo → Coord)
    (hcmd : ∀ steps, perform steps s (.ioctl q cmd random) = getter s q true field) :
    ∃ reply s', Answers s (.ioctl q cmd random, reply) s' :=
  ⟨_, s, 0, (hcmd 0).trans (getter_some _ hown.userBlock_eq)⟩

theorem OwnMaze.answers_read (hown : OwnMaze q s i b) (len : ℕ) :
    ∃ reply s', Answers s (.read q len true, reply) s' :=
  ⟨_, _, 0, perform_read hown.userBlock_eq ⟨hown.inside.x_le, hown.inside.y_le⟩⟩

/-- So does every call after the first one. -/
theorem Follows.answers (hfollows : Follows q rand s t) (hnext : t.next ≠ .create)
    (hrunning : ∀ o, t.next ≠ .done o) (random : Rand) :
    ∃ r reply s', t.request q rand random = some r ∧ Answers s (r, reply) s' := by
  cases hfollows with
  | without hcreate _ => exact absurd hcreate hnext
  | ended hdone _ => exact absurd hdone (hrunning _)
  | @walking i b hown hholds =>
    suffices hreturns : ∀ r, t.request q rand random = some r →
        ∃ reply s', Answers s (r, reply) s' by
      cases hreq : t.request q rand random with
      | none =>
        unfold TestProgram.request at hreq
        split at hreq <;> simp_all
      | some r =>
        obtain ⟨reply, s', hans⟩ := hreturns r hreq
        exact ⟨r, reply, s', rfl, hans⟩
    intro r hreq
    unfold TestProgram.request at hreq
    split at hreq
    · next hcreate => exact absurd hcreate hnext
    · obtain rfl := Option.some.inj hreq
      exact hown.answers_getter (fun m => ⟨m.maze.h, m.maze.w⟩) fun _ => rfl
    · obtain rfl := Option.some.inj hreq
      exact hown.answers_getter (fun m => ⟨m.maze.sx, m.maze.sy⟩) fun _ => rfl
    · obtain rfl := Option.some.inj hreq
      exact hown.answers_getter (fun m => ⟨m.maze.ex, m.maze.ey⟩) fun _ => rfl
    · obtain rfl := Option.some.inj hreq
      exact hown.answers_getter (fun m => ⟨m.coordPos.x, m.coordPos.y⟩) fun _ => rfl
    · obtain rfl := Option.some.inj hreq
      exact hown.answers_read _
    · obtain rfl := Option.some.inj hreq
      obtain ⟨m', hmoves, -⟩ := writeMoves_unit hown.inside hown.sides (unitSteps_walkSeq rand)
      obtain ⟨reply, s', hperform, -⟩ := perform_walk (walk_batch rand) hown.userBlock_eq hmoves
      exact ⟨reply, s', 0, hperform 0⟩
    · obtain rfl := Option.some.inj hreq
      exact hown.answers_getter (fun m => ⟨m.coordPos.x, m.coordPos.y⟩) fun _ => rfl
    · cases hreq

/-- In every run of the device beside the test program, whatever operations other processes issue
between its calls: the check never fails, and only the first call can be refused, because no slot
is left. The other calls return at any time. -/
theorem randomwalk_passes {history : List ((State × TestProgram) × (Request × Reply))}
    (hrun : Run (State.init, TestProgram.start) (BesideOthers q rand) history (s, t)) :
    (∀ o, t.next = .done o → o = .passed ∨ o = .refused (-enomem)) ∧
      (t.next ≠ .create → (∀ o, t.next ≠ .done o) → ∀ random,
        ∃ r reply s', t.request q rand random = some r ∧ Answers s (r, reply) s') := by
  have hfollows : Follows q rand s t := by
    refine Reachable.invariant (P := fun x => Follows q rand x.1 x.2)
      (.without rfl fun _ => q.pid_ne_zero.symm) ?_ ⟨history, hrun⟩
    intro x l x' hfollows hstep
    cases hstep with
    | own hreq hans => exact Follows.own hfollows hreq hans
    | other hother hans => exact Follows.of_leavesAlone hfollows (hans.leavesAlone hother)
  refine ⟨fun o ho => ?_, hfollows.answers⟩
  cases hfollows with
  | without hnext _ => cases hnext.symm.trans ho
  | ended hnext hclean =>
    obtain rfl := TestCall.done.inj (hnext.symm.trans ho)
    exact hclean
  | walking _ hholds => simp [ho, Holds] at hholds

/-- Random numbers for which the program asks for the sample size. -/
def sampleClientRand : ℕ → ℕ := fun n => if n = 0 then 2 else 0

/-- The program has a maze, and its next call returns. -/
theorem randomwalk_passes_created : ∃ history s,
    Run (State.init, TestProgram.start) (BesideOthers (sampleProcess 0) sampleClientRand) history
      (s, { TestProgram.start with next := .getSize }) ∧
    ∃ reply s', Answers s (.ioctl (sampleProcess 0) (.getSize true) sampleRand, reply) s' := by
  obtain ⟨s, hans⟩ := answers_sampleCreate .init 0
  have hcreated : createReply State.init.table (sampleProcess 0) = 0 := by decide
  have hsize : createSize sampleClientRand = sampleSize := by decide
  have hreq : TestProgram.start.request (sampleProcess 0) sampleClientRand sampleRand =
      some (sampleCreate 0) := by
    rw [TestProgram.request, hsize]
    rfl
  rw [hcreated] at hans
  have hrun := Run.start.step (BesideOthers.own hreq hans)
  have hnext : TestProgram.start.receive sampleClientRand (.code 0) =
      { TestProgram.start with next := .getSize } := rfl
  rw [hnext] at hrun
  obtain ⟨-, hreturns⟩ := randomwalk_passes hrun
  obtain ⟨r, reply, s', hr, hans'⟩ := hreturns (by simp) (by simp) sampleRand
  obtain rfl := Option.some.inj hr
  exact ⟨_, s, hrun, reply, s', hans'⟩

end UnixProgramming.Mazemod
