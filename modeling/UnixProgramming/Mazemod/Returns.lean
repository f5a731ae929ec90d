import UnixProgramming.Mazemod.Perfect
import UnixProgramming.Mazemod.SlotTable

/-!
# Operations that return

`MAZE_DESTROY` returns in every state, and so does `MAZE_CREATE` when both sides are
at least 3 and the choice of start and end stops on the given random numbers. A
sequence of operations that return is a run of the device, and the slot table after
it can be computed.
-/

namespace UnixProgramming.Mazemod

open SlotTable

variable {s : State} {p : Process} {c : UserCoord} {rand : Rand}

/-- The operation returns in every state. -/
def Returns (r : Request) : Prop := ∀ s, ∃ s', Step s r s'

/-- `create_maze` returns for every proper size. -/
theorem createMaze_returns {coord : Coord} (hsize : ProperSize coord)
    (hstop : ∃ steps r, chooseEndpoints steps coord rand = .ok r) (s : State) (p : Process) :
    ∃ steps result, createMaze steps s p coord rand = .ok result := by
  obtain ⟨steps, info, hgen, _⟩ := generateMaze_returns hsize s.genMaze hstop
  refine ⟨steps, ?_⟩
  unfold createMaze
  cases getEmptyIndex s with
  | none => exact ⟨_, rfl⟩
  | some i =>
    simp only [bind_eq_ok]
    exact ⟨_, info, hgen, rfl⟩

/-- A proper size passes the size check. -/
theorem ProperSize.accepted {coord : Coord} (hsize : ProperSize coord) : badSize coord = false := by
  obtain ⟨hx, hx', hy, hy'⟩ := hsize
  simp only [badSize, Bool.or_eq_false_iff, decide_eq_false_iff_not]
  omega

/-- `MAZE_CREATE` returns for every proper size. -/
theorem ioctlCreate_returns (hsize : ProperSize c.toCoord)
    (hstop : ∃ steps r, chooseEndpoints steps c.toCoord rand = .ok r) (s : State) (p : Process) :
    ∃ steps reply s', ioctlCreate steps s p (some c) rand = .ok (reply, s') := by
  obtain ⟨steps, ⟨ret, s'⟩, hcreate⟩ := createMaze_returns hsize hstop s p
  have hvalid := hsize.accepted
  have hreply : ∃ result, ioctlCreate steps s p (some c) rand = .ok result := by
    simp only [ioctlCreate, hvalid, Bool.false_eq_true, if_false]
    split
    · split
      · exact ⟨_, rfl⟩
      · exact ⟨_, bind_eq_ok.mpr ⟨_, hcreate, rfl⟩⟩
    · split
      · exact ⟨_, rfl⟩
      · exact ⟨_, bind_eq_ok.mpr ⟨_, hcreate, rfl⟩⟩
  obtain ⟨⟨reply, s''⟩, hok⟩ := hreply
  exact ⟨steps, reply, s'', hok⟩

/-- `MAZE_DESTROY` returns. -/
theorem returns_destroy : Returns (.ioctl p .destroy rand) := by
  intro s
  have hreply : ∃ result, ioctlDestroy s p = .ok result := by
    unfold ioctlDestroy
    split <;> exact ⟨_, rfl⟩
  obtain ⟨⟨reply, s'⟩, hok⟩ := hreply
  exact ⟨s', 0, reply, hok⟩

/-- Operations that return form a run from every reachable state, and the table after
them is computed by `SlotTable.after`. -/
theorem exists_reachable_after (rs : List Request) (hreturns : ∀ r ∈ rs, Returns r)
    (hreach : DeviceReachable s) :
    ∃ s', DeviceReachable s' ∧ s'.table = rs.foldl SlotTable.after s.table := by
  induction rs generalizing s with
  | nil => exact ⟨s, hreach, rfl⟩
  | cons r rs ih =>
    obtain ⟨s₁, hstep⟩ := hreturns r List.mem_cons_self s
    obtain ⟨s', hreach', htable⟩ :=
      ih (fun r' hr' => hreturns r' (List.mem_cons_of_mem r hr')) (hreach.step hstep)
    exact ⟨s', hreach', by rw [htable, hstep.table, List.foldl_cons]⟩

/-- The process with pid `n + 1`. -/
def sampleProcess (n : ℕ) : Process := ⟨n + 1, n.succ_ne_zero⟩

/-- A maze of width 5 and height 3. -/
def sampleSize : UserCoord := ⟨5, 3⟩

/-- `MAZE_CREATE` of the sample size, which returns on the stream `sampleRand`. -/
def sampleCreate (n : ℕ) : Request :=
  .ioctl (sampleProcess n) (.create (some sampleSize)) sampleRand

/-- A maze of the sample size is generated from this stream in every state, -/
theorem sampleCreate_returns (s : State) (n : ℕ) : ∃ steps reply s',
    ioctlCreate steps s (sampleProcess n) (some sampleSize) sampleRand = .ok (reply, s') :=
  ioctlCreate_returns (c := sampleSize) ⟨by decide, by decide, by decide, by decide⟩
    chooseEndpoints_sampleRand s _

/-- so that the request returns in every state. -/
theorem returns_sampleCreate (n : ℕ) : Returns (sampleCreate n) := by
  intro s
  obtain ⟨steps, reply, s', hok⟩ := sampleCreate_returns s n
  exact ⟨s', steps, reply, hok⟩

/-- `MAZE_CREATE` followed by `MAZE_DESTROY`. -/
def sampleDestroyed : List Request :=
  [sampleCreate 0, .ioctl (sampleProcess 0) .destroy sampleRand]

/-- The sample requests lead to a reachable state, and the table follows them. -/
theorem exists_reachable_destroyed : ∃ s, DeviceReachable s ∧
    s.table = sampleDestroyed.foldl SlotTable.after State.init.table := by
  apply exists_reachable_after sampleDestroyed ?_ reachable_init
  simp [sampleDestroyed, returns_sampleCreate, returns_destroy]

end UnixProgramming.Mazemod
