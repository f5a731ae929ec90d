import UnixProgramming.Mazemod.Confinement

/-!
# Reading `/proc/maze`

`mazemod_proc_read` follows the pointer of slot 0 when the flag of `ONLY_FOR_Q3` is
set, and otherwise the pointer of every slot with a pid. Whether it meets a NULL
pointer is a property of the slot table, and each operation keeps the table readable
under an exact condition on the state before it.
-/

namespace UnixProgramming.Mazemod

open SlotTable

variable {s s' : State} {r : Request} {p : Process} {m m' : MazeInfo} {i : Slot}

/-- A read of `/proc/maze` dereferences no NULL pointer. -/
def ProcReadSafe (s : State) : Prop := mazemodProcRead s ≠ .error .nullDereference

/-- The conditions on the state under which an operation keeps `/proc/maze` readable:
- `MAZE_DESTROY` of a maze outside slot 0, while the flag of `ONLY_FOR_Q3` is set;
- `ONLY_FOR_Q3` when slot 0 has a maze or is vacant and receives one;
- a close that does not vacate slot 0 while the flag is set;
- a read while the flag is set, when every slot with a pid has a maze. -/
def KeepsReadable (s : State) : Request → Prop
  | .ioctl p .destroy _ => ∀ i b, userBlock s p = some (i, b) → s.onlyForQ3 = true ∧ i ≠ 0
  | .ioctl _ (.onlyForQ3 arg) _ =>
    s.mazeUserInfo 0 ≠ none ∨ validArg arg = true ∧ s.pids 0 = 0
  | .close p => s.errorNo = enomem ∨ ¬(s.onlyForQ3 = true ∧ getUserIndex s p = some 0)
  | .procRead => s.onlyForQ3 = true → ∀ i, s.pids i ≠ 0 → s.mazeUserInfo i ≠ none
  | _ => True

/-- The sides of a maze that fits into the array. -/
def Fits (m : MazeInfo) : Prop := m.coord.x ≤ mazeMaxX ∧ m.coord.y ≤ mazeMaxY

/-- A walk keeps the size of the maze. -/
theorem writeMoves_coord {moves : List UserCoord} (hok : writeMoves m moves = .ok m') :
    m'.coord = m.coord := by
  refine foldlM_invariant (P := fun m₁ : MazeInfo => m₁.coord = m.coord) ?_ rfl hok
  intro d _ m₁ m₂ hcoord hmove
  rw [← (tryMove_eq_ok.mp hmove).2, MazeInfo.moveTo_coord, hcoord]

/-- All mazes fit into the array. -/
theorem fits_of_reachable (hreach : DeviceReachable s) :
    ∀ j b, s.mazeUserInfo j = some b → Fits b.info := by
  refine hreach.invariant (P := fun s => ∀ j b, s.mazeUserInfo j = some b → Fits b.info)
    (by simp [State.init]) fun s r s' hfits hstep => ?_
  refine hstep.forall_blocks hfits ?_ (fun m hm => hm) ?_
  · intro c steps rand m _ hvalid hok
    obtain ⟨hcoord, _⟩ := generateMaze_fields hok
    simp only [badSize, Bool.or_eq_false_iff, decide_eq_false_iff_not] at hvalid
    rw [Fits, hcoord]
    exact ⟨by dsimp only; omega, by dsimp only; omega⟩
  · intro p moves j b m _ _ hb hok
    rw [Fits, writeMoves_coord hok]
    exact hb

/-- A C loop runs through the integers below its bound. -/
theorem mem_upTo {n i : ℤ} : i ∈ upTo n ↔ 0 ≤ i ∧ i < n := by
  simp only [upTo, List.mem_map, List.mem_range]
  constructor
  · rintro ⟨k, hk, rfl⟩
    simp only [Int.ofNat_eq_natCast]
    omega
  · rintro ⟨hi, hi'⟩
    exact ⟨i.toNat, by omega, by simp [hi]⟩

/-- The loops over the rows and the columns run through the cells of the map. -/
theorem onMap_of_mem_upTo {row col : ℤ} (hrow : row ∈ upTo m.coord.y)
    (hcol : col ∈ upTo m.coord.x) : OnMap m (row, col) :=
  ⟨(mem_upTo.mp hrow).1, (mem_upTo.mp hrow).2, (mem_upTo.mp hcol).1, (mem_upTo.mp hcol).2⟩

/-- Nor do they leave the array, in a maze that fits. -/
theorem inArray_of_mem_upTo (hfits : Fits m) {row col : ℤ} (hrow : row ∈ upTo m.coord.y)
    (hcol : col ∈ upTo m.coord.x) : InArray row col := by
  obtain ⟨hx, hy⟩ := hfits
  obtain ⟨hrow0, hrow', hcol0, hcol'⟩ := onMap_of_mem_upTo hrow hcol
  exact ⟨hrow0, by omega, hcol0, by omega⟩

/-- The rows of a maze that fits can be printed. -/
theorem procRows_returns (hfits : Fits m) : ∃ rows, procRows m = .ok rows := by
  refine exists_mapM_eq_ok.mpr fun row hrow => exists_mapM_eq_ok.mpr fun col hcol => ?_
  exact ⟨_, Maze.cell_eq_ok.mpr ⟨inArray_of_mem_upTo hfits hrow hcol, rfl⟩⟩

/-- A slot is printed, or its pointer is NULL. -/
theorem procSlot_cases (hfits : ∀ j b, s.mazeUserInfo j = some b → Fits b.info) (i : Slot) :
    (∃ entry, procSlot s i = .ok entry) ∧ (s.pids i ≠ 0 → s.mazeUserInfo i ≠ none) ∨
      procSlot s i = .error .nullDereference ∧ ¬(s.pids i ≠ 0 → s.mazeUserInfo i ≠ none) := by
  unfold procSlot derefInfo
  by_cases hpid : s.pids i = 0
  · simp [hpid]
  · cases hinfo : s.mazeUserInfo i with
    | none => exact .inr ⟨by simp [hpid, bind, Except.bind], by simp [hpid]⟩
    | some b =>
      obtain ⟨rows, hrows⟩ := procRows_returns (hfits i b hinfo)
      refine .inl ⟨?_, by simp⟩
      simp only [hpid, if_false, bind_eq_ok]
      exact ⟨_, b.info, rfl, rows, hrows, rfl⟩

namespace SlotTable

/-- A read of `/proc/maze` finds a maze wherever it looks for one. -/
def Readable (t : SlotTable) : Prop :=
  if t.onlyForQ3 then t.live 0 = true else ∀ i, t.pid i ≠ 0 → t.live i = true

end SlotTable

/-- A read is safe exactly when the table is readable. -/
theorem procReadSafe_iff (hfits : ∀ j b, s.mazeUserInfo j = some b → Fits b.info) :
    ProcReadSafe s ↔ s.table.Readable := by
  unfold ProcReadSafe mazemodProcRead Readable
  simp only [table_onlyForQ3, table_live, table_pid, Option.isSome_iff_ne_none]
  split
  · unfold derefInfo
    cases hinfo : s.mazeUserInfo 0 with
    | none => simp [bind, Except.bind]
    | some b =>
      obtain ⟨rows, hrows⟩ := procRows_returns (hfits 0 b hinfo)
      simp [hrows, bind, Except.bind, pure, Except.pure]
  · cases hentries : (List.finRange mazeMaxUser).mapM (procSlot s) with
    | ok entries =>
      have hall := exists_mapM_eq_ok.mp ⟨entries, hentries⟩
      refine iff_of_true (by simp [bind, Except.bind, pure, Except.pure]) fun i => ?_
      obtain ⟨_, hlive⟩ | ⟨hnull, _⟩ := procSlot_cases hfits i
      · exact hlive
      · obtain ⟨entry, hentry⟩ := hall i (List.mem_finRange i)
        simp [hnull] at hentry
    | error e =>
      obtain ⟨i, _, hi⟩ := exists_of_mapM_eq_error hentries
      obtain ⟨⟨entry, hentry⟩, _⟩ | ⟨hnull, hdead⟩ := procSlot_cases hfits i
      · simp [hentry] at hi
      · obtain rfl := Except.error.inj (hnull.symm.trans hi)
        exact iff_of_false (by simp [bind, Except.bind]) fun hall => hdead (hall i)

namespace SlotTable

variable {t : SlotTable}

theorem readable_flag (hflag : t.onlyForQ3 = true) : t.Readable ↔ t.live 0 = true := by
  simp [Readable, hflag]

theorem readable_noFlag (hflag : t.onlyForQ3 = false) :
    t.Readable ↔ ∀ i, t.pid i ≠ 0 → t.live i = true := by
  simp [Readable, hflag]

/-- Taking a slot removes no maze and leaves no pid without one. -/
theorem Readable.take (hread : t.Readable) : (t.take p).Readable := by
  unfold SlotTable.take
  cases hvacant : t.vacant with
  | none => exact hread
  | some i =>
    by_cases hflag : t.onlyForQ3 = true
    · rw [readable_flag hflag] at hread
      refine (readable_flag ?_).mpr ?_
      · exact hflag
      · simp [Function.update_apply, hread]
    · have hflag' : t.onlyForQ3 = false := by simpa using hflag
      rw [readable_noFlag hflag'] at hread
      refine (readable_noFlag ?_).mpr fun j hj => ?_
      · exact hflag'
      by_cases hji : j = i
      · simp [hji]
      · simp only [Function.update_of_ne hji] at hj ⊢
        exact hread j hj

/-- Neither the error number nor anything else of the table matters. -/
theorem readable_congr {t' : SlotTable} (hpid : t'.pid = t.pid) (hlive : t'.live = t.live)
    (hflag : t'.onlyForQ3 = t.onlyForQ3) : t'.Readable ↔ t.Readable := by
  simp only [Readable, hpid, hlive, hflag]

/-- `MAZE_CREATE` keeps the table readable. -/
theorem Readable.create (hread : t.Readable) : (t.create p).Readable := by
  unfold SlotTable.create
  split
  · exact hread
  split
  · exact (readable_congr rfl rfl rfl).mpr hread
  · exact hread.take

/-- `MAZE_DESTROY` keeps the table readable exactly when the caller has no maze, or
reads look at slot 0 only and the maze is in another slot. -/
theorem readable_dismantle (hread : t.Readable) :
    (t.dismantle p).Readable ↔
      ∀ i, t.user p = some i → t.live i = true → t.onlyForQ3 = true ∧ i ≠ 0 := by
  unfold dismantle
  cases huser : t.user p with
  | none => simpa using hread
  | some i =>
    simp only [Option.some.injEq, forall_eq']
    by_cases hlive : t.live i = true
    · by_cases hflag : t.onlyForQ3 = true
      · rw [readable_flag hflag] at hread
        rw [readable_flag (t := { t with live := Function.update t.live i false }) hflag]
        by_cases hi : i = 0
        · subst hi
          simp [hlive]
        · simp [hi, hflag, hread, Function.update_of_ne (Ne.symm hi)]
      · have hflag' : t.onlyForQ3 = false := by simpa using hflag
        rw [readable_noFlag (t := { t with live := Function.update t.live i false }) hflag']
        refine iff_of_false (fun hall => ?_) fun hkeep => hflag (hkeep hlive).1
        simpa using hall i (pid_ne_zero_of_user huser)
    · have hdead : t.live i = false := by simpa using hlive
      rw [← hdead, Function.update_eq_self]
      exact iff_of_true hread fun hlive' => absurd hlive' hlive

/-- Vacating a slot keeps the table readable except for slot 0 while the flag is set. -/
theorem readable_vacate (hread : t.Readable) :
    (t.vacate p).Readable ↔ ¬(t.onlyForQ3 = true ∧ t.user p = some 0) := by
  unfold vacate
  cases huser : t.user p with
  | none => simpa using hread
  | some i =>
    by_cases hflag : t.onlyForQ3 = true
    · rw [readable_flag hflag] at hread
      rw [readable_flag (t := { t with
        pid := Function.update t.pid i 0
        live := Function.update t.live i false }) hflag]
      by_cases hi : i = 0
      · simp [hi, hflag]
      · simp [hi, hread, Function.update_of_ne (Ne.symm hi)]
    · have hflag' : t.onlyForQ3 = false := by simpa using hflag
      rw [readable_noFlag hflag'] at hread
      rw [readable_noFlag (t := { t with
        pid := Function.update t.pid i 0
        live := Function.update t.live i false }) hflag']
      refine iff_of_true (fun j hj => ?_) (by simp [hflag'])
      by_cases hji : j = i
      · simp [hji] at hj
      · simp only [Function.update_of_ne hji] at hj ⊢
        exact hread j hj

/-- After the flag is set, taking a slot makes the table readable exactly when slot 0
has a maze or is the vacant slot that is taken. -/
theorem readable_take_flag :
    ({ t with onlyForQ3 := true }.take p).Readable ↔ t.live 0 = true ∨ t.pid 0 = 0 := by
  unfold SlotTable.take
  cases hvacant : ({ t with onlyForQ3 := true } : SlotTable).vacant with
  | none =>
    have hfull : t.pid 0 ≠ 0 := vacant_eq_none.mp hvacant 0
    simp [Readable, hfull]
  | some i =>
    obtain ⟨hpid, hfirst⟩ := vacant_eq_some.mp hvacant
    by_cases hi : i = 0
    · subst hi
      have hzero : t.pid 0 = 0 := hpid
      simp [Readable, hzero]
    · have hzero : t.pid 0 ≠ 0 := hfirst 0 (Fin.pos_iff_ne_zero.mpr hi)
      simp [Readable, hzero, Function.update_of_ne (Ne.symm hi)]

end SlotTable

/-- From a readable table, an operation keeps it readable exactly under its condition. -/
theorem readable_step (hread : s.table.Readable) (hstep : Step s r s') :
    s'.table.Readable ↔ KeepsReadable s r := by
  rw [hstep.table]
  cases r with
  | ioctl p cmd rand =>
    cases cmd with
    | create arg =>
      simp only [after, KeepsReadable, iff_true]
      split
      · exact hread.create
      · exact hread
    | destroy =>
      simp only [after, KeepsReadable, readable_dismantle hread, userBlock_eq_some, and_imp,
        table_live, Option.isSome_iff_exists, forall_exists_index]
      exact ⟨fun h i b hi hb => h i hi b hb, fun h i hi b hb => h i b hi hb⟩
    | onlyForQ3 arg =>
      simp only [after, KeepsReadable, ← Option.isSome_iff_ne_none]
      split
      · next hvalid =>
        rw [readable_take_flag]
        simp [hvalid]
      · next hinvalid => simp [Readable, hinvalid]
    | _ => simpa [after, KeepsReadable] using hread
  | close p =>
    simp only [after, KeepsReadable, SlotTable.close]
    by_cases herror : s.errorNo = enomem
    · simp only [table_errorNo, herror, if_true, true_or, iff_true]
      exact (readable_congr rfl rfl rfl).mpr hread
    · simp [herror, readable_vacate hread, getUserIndex_eq]
  | procRead =>
    simp only [after, KeepsReadable, ← Option.isSome_iff_ne_none]
    rw [readable_noFlag rfl]
    by_cases hflag : s.onlyForQ3 = true
    · simp [hflag]
    · have hflag' : s.table.onlyForQ3 = false := by simpa using hflag
      exact iff_of_true ((readable_noFlag hflag').mp hread) fun h => absurd h hflag
  | read | write => simpa [after, KeepsReadable] using hread

/-- Reading `/proc/maze` is safe in every state that a run passes through exactly when
each operation of the run meets its condition. -/
theorem procReadSafe_run_iff {history : List (State × Request)} (hrun : DeviceRun history s) :
    Throughout ProcReadSafe history s ↔ EachStep KeepsReadable history := by
  refine hrun.throughout_iff (J := DeviceReachable) ⟨reachable_init, ?_⟩
    fun s r s' hreach hsafe hstep => ⟨?_, fun _ => hreach.step hstep⟩
  · exact (procReadSafe_iff (fits_of_reachable reachable_init)).mpr (by simp [Readable, State.init])
  · rw [procReadSafe_iff (fits_of_reachable (hreach.step hstep))]
    exact readable_step ((procReadSafe_iff (fits_of_reachable hreach)).mp hsafe) hstep

/-- A single `MAZE_CREATE` keeps reading safe. -/
theorem procReadSafe_run_iff_create :
    ∃ s, DeviceRun [(State.init, sampleCreate 0)] s ∧
      Throughout ProcReadSafe [(State.init, sampleCreate 0)] s := by
  obtain ⟨s, hstep⟩ := returns_sampleCreate 0 State.init
  have hrun : DeviceRun [(State.init, sampleCreate 0)] s := .step .start hstep
  exact ⟨s, hrun, (procReadSafe_run_iff hrun).mpr (by simp [sampleCreate, KeepsReadable])⟩

/-- After `MAZE_CREATE` and `MAZE_DESTROY` a read follows a NULL pointer. -/
theorem not_procReadSafe_create_destroy : ¬∀ s, DeviceReachable s → ProcReadSafe s := by
  intro hall
  obtain ⟨s, hreach, htable⟩ := exists_reachable_destroyed
  have hread := (procReadSafe_iff (fits_of_reachable hreach)).mp (hall s hreach)
  rw [htable, readable_noFlag (by decide)] at hread
  have hslot := hread 0 (by decide)
  revert hslot
  decide

end UnixProgramming.Mazemod
