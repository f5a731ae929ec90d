import UnixProgramming.Mazemod.Returns

/-!
# Closing the device

`mazemod_dev_close` is to leave nothing of the closing process behind. It looks at
one error number for all processes, and it vacates the first slot only, so it does
so exactly when that number is not `ENOMEM` and the process has one slot, or when
the process has none.
-/

namespace UnixProgramming.Mazemod

open SlotTable

variable {s : State} {p : Process} {i : Slot}

/-- After a close no slot has the pid of the process, no maze of the process is
allocated, and the slots of all other processes are unchanged. -/
structure Releases (s : State) (p : Process) : Prop where
  pid_gone : ∀ i, (mazemodDevClose s p).pids i ≠ p.pid
  freed : ∀ i b, s.pids i = p.pid → s.mazeUserInfo i = some b →
    b.addr ∉ (mazemodDevClose s p).live
  others : ∀ i, s.pids i ≠ p.pid → (mazemodDevClose s p).pids i = s.pids i ∧
    (mazemodDevClose s p).mazeUserInfo i = s.mazeUserInfo i

/-- A process without a slot has nothing to release. -/
theorem delUser_none (huser : getUserIndex s p = none) : delUser s p = s := by
  simp [delUser, huser]

/-- `del_user` takes the pid out of the first slot of the process, -/
theorem delUser_pids (huser : getUserIndex s p = some i) :
    (delUser s p).pids = Function.update s.pids i 0 := by
  simp only [delUser, huser]
  cases s.mazeUserInfo i <;> rfl

/-- takes the maze out of it, -/
theorem delUser_mazeUserInfo (huser : getUserIndex s p = some i) :
    (delUser s p).mazeUserInfo = Function.update s.mazeUserInfo i none := by
  simp only [delUser, huser]
  cases hinfo : s.mazeUserInfo i with
  | none => exact (Function.update_eq_self_iff.mpr hinfo.symm).symm
  | some b => rfl

/-- and frees that maze. -/
theorem delUser_live {b : Block} (huser : getUserIndex s p = some i)
    (hblock : s.mazeUserInfo i = some b) : (delUser s p).live = s.live.erase b.addr := by
  simp only [delUser, huser, hblock]
  rfl

/-- `del_user` releases a process that has exactly one slot. -/
theorem releases_of_unique (herror : s.errorNo ≠ enomem) (hpid : s.pids i = p.pid)
    (honly : ∀ j, s.pids j = p.pid → j = i) : Releases s p := by
  have huser : getUserIndex s p = some i :=
    (user_eq_some (t := s.table)).mpr ⟨hpid, fun j hj hj' => absurd (honly j hj') hj.ne⟩
  have hclose : mazemodDevClose s p = delUser s p := by simp [mazemodDevClose, herror]
  refine ⟨fun j => ?_, fun j b hj hb => ?_, fun j hj => ?_⟩
  · rw [hclose, delUser_pids huser]
    by_cases hji : j = i
    · simpa [hji] using p.pid_ne_zero.symm
    · rw [Function.update_of_ne hji]
      exact fun hj => hji (honly j hj)
  · obtain rfl := honly j hj
    rw [hclose, delUser_live huser hb]
    exact Finset.notMem_erase _ _
  · have hji : j ≠ i := fun heq => hj (heq ▸ hpid)
    rw [hclose, delUser_pids huser, delUser_mazeUserInfo huser]
    exact ⟨Function.update_of_ne hji .., Function.update_of_ne hji ..⟩

/-- A process without a slot is released by any close. -/
theorem releases_of_none (hnone : ∀ i, s.pids i ≠ p.pid) : Releases s p := by
  have hpids : (mazemodDevClose s p).pids = s.pids ∧
      (mazemodDevClose s p).mazeUserInfo = s.mazeUserInfo := by
    unfold mazemodDevClose
    split
    · exact ⟨rfl, rfl⟩
    · rw [delUser_none ((user_eq_none (t := s.table)).mpr hnone)]
      exact ⟨rfl, rfl⟩
  refine ⟨fun i => ?_, fun i _ hi => absurd hi (hnone i), fun i _ => ?_⟩
  · rw [hpids.1]
    exact hnone i
  · rw [hpids.1, hpids.2]
    exact ⟨rfl, rfl⟩

/-- Close releases the calling process exactly when the process has no slot, or the
last failed `MAZE_CREATE` of any process has been accounted for and the process has
exactly one slot. -/
theorem releases_iff (s : State) (p : Process) :
    Releases s p ↔
      (∀ i, s.pids i ≠ p.pid) ∨ (s.errorNo ≠ enomem ∧ ∃! i, s.pids i = p.pid) := by
  constructor
  · intro hreleases
    cases huser : s.table.user p with
    | none => exact .inl (user_eq_none.mp huser)
    | some i =>
      have hpid := (user_eq_some.mp huser).1
      have hgone := hreleases.pid_gone
      unfold mazemodDevClose at hgone
      split at hgone
      · exact absurd hpid (hgone i)
      · next herror =>
        refine .inr ⟨herror, i, hpid, fun j hj => ?_⟩
        -- a second slot keeps its pid
        by_contra hji
        refine hgone j ?_
        rwa [delUser_pids huser, Function.update_of_ne hji]
  · rintro (hnone | ⟨herror, i, hpid, honly⟩)
    · exact releases_of_none hnone
    · exact releases_of_unique herror hpid honly

/-- Three processes fill the table and a fourth one is refused; then the first close
releases nothing. -/
theorem not_releases_after_refused :
    ¬∀ s, DeviceReachable s → ∀ p, Releases s p := by
  intro hall
  obtain ⟨s, hreach, htable⟩ := exists_reachable_after
    [sampleCreate 0, sampleCreate 1, sampleCreate 2, sampleCreate 3]
    (by simp [returns_sampleCreate]) reachable_init
  have hgone := (hall s hreach (sampleProcess 0)).pid_gone 0
  rw [← table_pid, mazemodDevClose_table, htable] at hgone
  revert hgone
  decide

end UnixProgramming.Mazemod
