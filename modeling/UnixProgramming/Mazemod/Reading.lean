import UnixProgramming.Mazemod.Walk

/-!
# The map as `read` copies it

`read` copies one byte for each cell, row after row, in a row as many as the maze is
wide. The requested length plays no part: the bytes fit into the buffer of the caller
exactly when the cells of the maze do.
-/

namespace UnixProgramming.Mazemod

open SlotTable

variable {s s' : State} {p : Process} {i : Slot} {b : Block} {m m' : MazeInfo} {len : ℕ}

/-- A `read` of `len` bytes copies at most so many and returns their number, and the `k`-th
of them says whether the cell in row `k / x` and column `k % x` is a wall, for the width
`x` that `MAZE_GETSIZE` reports. -/
def ReadsMap (s : State) (p : Process) (m : MazeInfo) (len : ℕ) : Prop :=
  ∃ size bs s',
    (∀ steps rand, perform steps s (.ioctl p (.getSize true) rand) = .ok (.coord size, s)) ∧
    (∀ steps, perform steps s (.read p len true) = .ok (.bytes bs, s')) ∧
    bs.length ≤ len ∧ (Reply.bytes bs).ret = bs.length ∧
    ∀ k < bs.length, bs[k]? = some (m.byteAt (k / size.x) (k % size.x))

/-- A maze with at least one cell that stores its sides. -/
structure Sided (m : MazeInfo) : Prop where
  x_pos : 1 ≤ m.coord.x
  y_pos : 1 ≤ m.coord.y
  stored : SidesStored m

/-- A walk keeps the sides. -/
theorem Sided.writeMoves {moves : List UserCoord} (hsided : Sided m)
    (hok : writeMoves m moves = .ok m') : Sided m' := by
  refine foldlM_invariant (P := Sided) ?_ hsided hok
  intro d _ m₁ m₂ hsided₁ hmove
  obtain ⟨hx, hy, hh, hw⟩ := hsided₁
  rw [← (tryMove_eq_ok.mp hmove).2]
  constructor
  · rwa [MazeInfo.moveTo_coord]
  · rwa [MazeInfo.moveTo_coord]
  · simp only [SidesStored, MazeInfo.moveTo_coord, MazeInfo.moveTo_maze]
    exact ⟨hh, hw⟩

/-- All mazes have at least one cell and store their sides. -/
theorem sided_of_reachable (hreach : DeviceReachable s) :
    ∀ j b, s.mazeUserInfo j = some b → Sided b.info := by
  refine hreach.invariant (P := fun s => ∀ j b, s.mazeUserInfo j = some b → Sided b.info)
    (by simp [State.init]) fun s r s' hsided hstep => ?_
  refine hstep.forall_blocks hsided ?_ (fun m hm => ⟨hm.x_pos, hm.y_pos, hm.stored⟩) ?_
  · intro c steps rand m _ hvalid hok
    obtain ⟨hcoord, hw, hh, _⟩ := generateMaze_fields hok
    simp only [badSize, Bool.or_eq_false_iff, decide_eq_false_iff_not] at hvalid
    refine ⟨?_, ?_, ?_, ?_⟩
    · rw [hcoord]
      dsimp only
      omega
    · rw [hcoord]
      dsimp only
      omega
    · rw [hh, hcoord]
    · rw [hw, hcoord]
  · exact fun p moves j b m _ _ hb hok => hb.writeMoves hok

/-- There are as many bytes as cells. -/
theorem length_bytes (hsided : Sided m) :
    (m.clientMap.bytes.length : ℤ) = m.coord.x * m.coord.y := by
  obtain ⟨hx, hy, _⟩ := hsided
  have hlength : m.clientMap.bytes.length = m.coord.y.toNat * m.coord.x.toNat := by
    simp only [MazeInfo.clientMap, upTo, List.length_flatten, List.map_map, Function.comp_def,
      List.length_map, List.length_range, List.map_const', List.sum_replicate, smul_eq_mul]
  rw [hlength, Int.natCast_mul, Int.toNat_of_nonneg (by omega), Int.toNat_of_nonneg (by omega),
    Int.mul_comm]

/-- The cell that a byte stands for. -/
theorem bytes_div_mod (hsided : Sided m) {k : ℕ} (hk : k < m.clientMap.bytes.length) :
    m.clientMap.bytes[k]? = some (m.byteAt (k / m.coord.x) (k % m.coord.x)) := by
  have hlength := length_bytes hsided
  obtain ⟨hx, hy, _⟩ := hsided
  have hmap : OnMap m (k / m.coord.x, k % m.coord.x) := by
    refine ⟨?_, ?_, ?_, ?_⟩
    · exact Int.ediv_nonneg (by omega) (by omega)
    · exact Int.ediv_lt_of_lt_mul (by omega) (by rw [Int.mul_comm]; omega)
    · exact Int.emod_nonneg _ (by omega)
    · exact Int.emod_lt_of_pos _ (by omega)
  have hbyte := bytes_getElem? hmap
  rw [Int.mul_comm, Int.mul_ediv_add_emod] at hbyte
  exact hbyte

/-- What the caller learns of its maze: the size, and all bytes at once. -/
theorem perform_read_reachable (hreach : DeviceReachable s)
    (hblock : userBlock s p = some (i, b)) :
    (∀ steps rand, perform steps s (.ioctl p (.getSize true) rand) = .ok (.coord b.info.coord, s)) ∧
      ∀ steps, perform steps s (.read p len true) =
        .ok (.bytes b.info.clientMap.bytes, s.kmalloc.2.kfree s.kmalloc.1) := by
  have hslot := (userBlock_eq_some.mp hblock).2
  obtain ⟨_, _, hh, hw⟩ := sided_of_reachable hreach i b hslot
  constructor
  · intro steps rand
    simp only [perform, mazemodDevIoctl, ioctlGetSize]
    rw [getter_some _ hblock, hh, hw]
  · exact fun steps => perform_read hblock (fits_of_reachable hreach i b hslot)

/-- The bytes that respect the buffer are those of all cells. -/
theorem ReadsMap.cells_le (hreach : DeviceReachable s) (hblock : userBlock s p = some (i, b))
    (hreads : ReadsMap s p b.info len) : b.info.coord.x * b.info.coord.y ≤ len := by
  obtain ⟨_, bs, s', _, hread, hlength, _, _⟩ := hreads
  have hbytes : b.info.clientMap.bytes = bs := by
    have hreply := ((perform_read_reachable hreach hblock).2 0).symm.trans (hread 0)
    simp only [Except.ok.injEq, Prod.mk.injEq, Reply.bytes.injEq] at hreply
    exact hreply.1
  have hsided := sided_of_reachable hreach i b (userBlock_eq_some.mp hblock).2
  rw [← length_bytes hsided, hbytes]
  exact Int.ofNat_le.mpr hlength

/-- A `read` respects its buffer and encodes the map exactly when the cells of the maze
fit into the buffer. -/
theorem readsMap_iff (hreach : DeviceReachable s) (hblock : userBlock s p = some (i, b)) :
    ReadsMap s p b.info len ↔ b.info.coord.x * b.info.coord.y ≤ len := by
  refine ⟨fun hreads => hreads.cells_le hreach hblock, fun hlength => ?_⟩
  have hsided := sided_of_reachable hreach i b (userBlock_eq_some.mp hblock).2
  rw [← length_bytes hsided, Int.ofNat_le] at hlength
  obtain ⟨hsize, hread⟩ := perform_read_reachable hreach hblock
  exact ⟨_, _, _, hsize, hread, hlength, rfl, fun k hk => bytes_div_mod hsided hk⟩

/-- A buffer of 15 bytes takes the sample maze. -/
theorem readsMap_iff_sample : ∃ s i b, DeviceReachable s ∧
    userBlock s (sampleProcess 0) = some (i, b) ∧ ReadsMap s (sampleProcess 0) b.info 15 := by
  obtain ⟨s, i, b, hreach, hblock, hcoord, _⟩ := exists_sample_maze
  refine ⟨s, i, b, hreach, hblock, (readsMap_iff hreach hblock).mpr ?_⟩
  rw [hcoord]
  decide

/-- A `read` of one byte copies all 15 of them. -/
theorem not_readsMap_byte : ¬∀ s, DeviceReachable s → ∀ p i b, userBlock s p = some (i, b) →
    ∀ len, ReadsMap s p b.info len := by
  intro hall
  obtain ⟨s, i, b, hreach, hblock, hcoord, _⟩ := exists_sample_maze
  have hcells := (hall s hreach _ i b hblock 1).cells_le hreach hblock
  rw [hcoord] at hcells
  exact absurd hcells (by decide)

end UnixProgramming.Mazemod
