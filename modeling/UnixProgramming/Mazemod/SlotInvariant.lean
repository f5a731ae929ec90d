import UnixProgramming.Mazemod.Returns

/-!
# One slot for each process

The slot arrays are meant to hold every process at most once, and a maze exactly
where there is a pid. `MAZE_DESTROY` keeps the pid of a slot whose maze it frees,
and `ONLY_FOR_Q3` gives a second slot to a process that has one. These are the
only operations that break the invariant, so a run keeps it exactly when it
avoids them.
-/

namespace UnixProgramming.Mazemod

/-- Every pid occupies at most one slot, and a slot has a pid exactly when it has a maze. -/
def SlotInvariant (s : State) : Prop :=
  (∀ i j, s.pids i ≠ 0 → s.pids i = s.pids j → i = j) ∧
    ∀ i, s.pids i ≠ 0 ↔ s.mazeUserInfo i ≠ none

/-- The operation is neither a `MAZE_DESTROY` by a process that has a maze nor an
accepted `ONLY_FOR_Q3` by a process that has a slot while another slot is vacant. -/
def KeepsSlots (s : State) : Request → Prop
  | .ioctl p .destroy _ => haveMaze s p = false
  | .ioctl p (.onlyForQ3 arg) _ =>
    ¬(SlotTable.validArg arg = true ∧ getUserIndex s p ≠ none ∧ getEmptyIndex s ≠ none)
  | _ => True

namespace SlotTable

/-- The invariant as a property of the table. -/
def Consistent (t : SlotTable) : Prop :=
  (∀ i j, t.pid i ≠ 0 → t.pid i = t.pid j → i = j) ∧ ∀ i, t.pid i ≠ 0 ↔ t.live i = true

variable {t : SlotTable} {p : Process} {i j : Slot}

/-- In a consistent table a process has a maze as soon as it has a slot. -/
theorem Consistent.hasMaze_iff (hcon : t.Consistent) : t.HasMaze p ↔ t.user p ≠ none := by
  constructor
  · rintro ⟨i, huser, _⟩
    simp [huser]
  · intro huser
    obtain ⟨i, hi⟩ := Option.ne_none_iff_exists'.mp huser
    exact ⟨i, hi, (hcon.2 i).mp (pid_ne_zero_of_user hi)⟩

/-- A process without a slot can be given one. -/
theorem Consistent.take (hcon : t.Consistent) (huser : t.user p = none) :
    (t.take p).Consistent := by
  unfold SlotTable.take
  cases hvacant : t.vacant with
  | none => exact hcon
  | some i =>
    have hnew := user_eq_none.mp huser
    refine ⟨fun j k hj hjk => ?_, fun j => ?_⟩
    · by_cases hji : j = i <;> by_cases hki : k = i
      · rw [hji, hki]
      · simp only [hji, hki, Function.update_self, ne_eq, not_false_eq_true,
          Function.update_of_ne] at hjk
        exact absurd hjk.symm (hnew k)
      · simp only [hji, hki, Function.update_self, ne_eq, not_false_eq_true,
          Function.update_of_ne] at hjk
        exact absurd hjk (hnew j)
      · simp only [hji, hki, ne_eq, not_false_eq_true, Function.update_of_ne] at hj hjk
        exact hcon.1 j k hj hjk
    · by_cases hji : j = i
      · simp [hji, p.pid_ne_zero]
      · simpa [hji] using hcon.2 j

/-- A process with a slot must not be given another one. -/
theorem not_consistent_take (huser : t.user p = some i) (hvacant : t.vacant = some j) :
    ¬(t.take p).Consistent := by
  intro hcon
  have hij : i ≠ j := by
    rintro rfl
    exact pid_ne_zero_of_user huser (vacant_eq_some.mp hvacant).1
  have hpid := (user_eq_some.mp huser).1
  refine hij (hcon.1 i j ?_ ?_) <;> simp [SlotTable.take, hvacant, hij, hpid, p.pid_ne_zero]

/-- A slot whose maze is gone must not keep its pid. -/
theorem not_consistent_dismantle (huser : t.user p = some i) : ¬(t.dismantle p).Consistent := by
  intro hcon
  have hslot := hcon.2 i
  simp only [dismantle, huser, Function.update_self, Bool.false_eq_true, iff_false, not_not]
    at hslot
  exact pid_ne_zero_of_user huser hslot

/-- A slot can be vacated. -/
theorem Consistent.vacate (hcon : t.Consistent) (p : Process) : (t.vacate p).Consistent := by
  unfold SlotTable.vacate
  cases huser : t.user p with
  | none => exact hcon
  | some i =>
    refine ⟨fun j k hj hjk => ?_, fun j => ?_⟩
    · by_cases hji : j = i
      · simp [hji] at hj
      · by_cases hki : k = i
        · simp [hji, hki] at hj hjk
          exact absurd hjk hj
        · simp only [hji, hki, ne_eq, not_false_eq_true, Function.update_of_ne] at hj hjk
          exact hcon.1 j k hj hjk
    · by_cases hji : j = i
      · simp [hji]
      · simpa [hji] using hcon.2 j

/-- The flags play no part in the invariant. -/
theorem consistent_congr {t' : SlotTable} (hpid : t'.pid = t.pid) (hlive : t'.live = t.live) :
    t'.Consistent ↔ t.Consistent := by
  simp only [Consistent, hpid, hlive]

/-- `MAZE_CREATE` keeps a consistent table consistent. -/
theorem Consistent.create (hcon : t.Consistent) (p : Process) : (t.create p).Consistent := by
  unfold SlotTable.create
  by_cases hmaze : t.HasMaze p
  · simpa [hmaze] using hcon
  · have huser : t.user p = none := by simpa [hcon.hasMaze_iff] using hmaze
    by_cases hvacant : t.vacant = none
    · simp only [hmaze, if_false, huser, hvacant, and_self, if_true]
      exact (consistent_congr rfl rfl).mpr hcon
    · simpa [hmaze, huser, hvacant] using hcon.take huser

end SlotTable

open SlotTable

/-- The invariant of a state is the consistency of its table. -/
theorem slotInvariant_iff {s : State} : SlotInvariant s ↔ s.table.Consistent := by
  simp [SlotInvariant, Consistent, Option.isSome_iff_ne_none]

/-- From a state with the invariant, an operation keeps it exactly when it is not one
of the two that break it. -/
theorem slotInvariant_step {s s' : State} {r : Request} (hinv : SlotInvariant s)
    (hstep : Step s r s') : SlotInvariant s' ↔ KeepsSlots s r := by
  have hcon := slotInvariant_iff.mp hinv
  rw [slotInvariant_iff, hstep.table]
  cases r with
  | ioctl p cmd rand =>
    cases cmd with
    | create arg =>
      simp only [KeepsSlots, iff_true, after]
      split
      · exact hcon.create p
      · exact hcon
    | destroy =>
      simp only [KeepsSlots, after, haveMaze, Option.isSome_eq_false_iff, Option.isNone_iff_eq_none,
        userBlock_eq_none, hcon.hasMaze_iff]
      cases huser : s.table.user p with
      | none => simpa [dismantle, huser] using hcon
      | some i => simpa [huser] using not_consistent_dismantle huser
    | onlyForQ3 arg =>
      have hcon' : ({ s.table with onlyForQ3 := true } : SlotTable).Consistent :=
        (consistent_congr rfl rfl).mpr hcon
      simp only [KeepsSlots, after, getUserIndex_eq, getEmptyIndex_eq]
      split
      · next hvalid =>
        cases huser : s.table.user p with
        | none => simpa using hcon'.take huser
        | some i =>
          cases hvacant : s.table.vacant with
          | none =>
            simp only [ne_eq, not_true_eq_false, and_false, not_false_eq_true, iff_true]
            unfold SlotTable.take
            rw [show ({ s.table with onlyForQ3 := true } : SlotTable).vacant = none from hvacant]
            exact hcon'
          | some j =>
            have hbroken : ¬(({ s.table with onlyForQ3 := true } : SlotTable).take p).Consistent :=
              not_consistent_take (i := i) (j := j) huser hvacant
            simpa [hvalid] using hbroken
      · next hinvalid => simpa [hinvalid] using hcon'
    | _ => simpa [KeepsSlots, after] using hcon
  | close p =>
    simp only [KeepsSlots, iff_true, after, SlotTable.close]
    split
    · exact (consistent_congr rfl rfl).mpr hcon
    · exact hcon.vacate p
  | procRead =>
    simp only [KeepsSlots, iff_true, after]
    exact (consistent_congr rfl rfl).mpr hcon
  | read | write => simpa [KeepsSlots, after] using hcon

/-- No slot is taken when the module is loaded. -/
theorem slotInvariant_init : SlotInvariant State.init := by
  simp [SlotInvariant, State.init]

/-- A run from module load keeps the slot invariant in every state it passes through
exactly when none of its operations is a `MAZE_DESTROY` of a live maze or an
`ONLY_FOR_Q3` that takes a second slot. -/
theorem slotInvariant_run_iff {history : List (State × Request)} {s : State}
    (hrun : DeviceRun history s) :
    Throughout SlotInvariant history s ↔ EachStep KeepsSlots history :=
  hrun.throughout_iff (J := fun _ => True) ⟨trivial, slotInvariant_init⟩
    fun _ _ _ _ hinv hstep => ⟨slotInvariant_step hinv hstep, fun _ => trivial⟩

/-- A single `MAZE_CREATE` keeps the slot invariant. -/
theorem slotInvariant_run_iff_create :
    ∃ s, DeviceRun [(State.init, sampleCreate 0)] s ∧
      Throughout SlotInvariant [(State.init, sampleCreate 0)] s := by
  obtain ⟨s, hstep⟩ := returns_sampleCreate 0 State.init
  have hrun : DeviceRun [(State.init, sampleCreate 0)] s := .step .start hstep
  exact ⟨s, hrun, (slotInvariant_run_iff hrun).mpr (by simp [sampleCreate, KeepsSlots])⟩

/-- `MAZE_CREATE` followed by `MAZE_DESTROY` leaves a pid without a maze. -/
theorem not_slotInvariant_create_destroy :
    ¬∀ s, DeviceReachable s → SlotInvariant s := by
  intro hall
  obtain ⟨s, hreach, htable⟩ := exists_reachable_destroyed
  have hcon := slotInvariant_iff.mp (hall s hreach)
  rw [htable] at hcon
  have hslot := (hcon.2 0).mp (by decide)
  revert hslot
  decide

end UnixProgramming.Mazemod
