import UnixProgramming.Mazemod.Returns

/-!
# What `MAZE_CREATE` answers

The caller can rely on the reply in three situations only: it already has a maze, a
vacant slot comes before every slot it holds, or the table is full of other
processes' mazes and the error number of an earlier refusal is still set. In all
other states the reply is zero without a maze, or a refusal disturbs a later close.
-/

namespace UnixProgramming.Mazemod

open SlotTable

variable {s s' : State} {p : Process} {arg : Option UserCoord} {coord : Coord} {rand : Rand}
variable {steps : ℕ} {reply : Reply} {i : Slot}

/-- The four getters of the process succeed. -/
structure GettersSucceed (s : State) (p : Process) : Prop where
  getSize : ∃ c, ioctlGetSize s p true = .ok (.coord c, s)
  getPos : ∃ c, ioctlGetPos s p true = .ok (.coord c, s)
  getStart : ∃ c, ioctlGetStart s p true = .ok (.coord c, s)
  getEnd : ∃ c, ioctlGetEnd s p true = .ok (.coord c, s)

/-- Three other processes have mazes. -/
def ThreeOthers (s : State) (p : Process) : Prop :=
  ∃ q₁ q₂ q₃ : Process, q₁.pid ≠ q₂.pid ∧ q₁.pid ≠ q₃.pid ∧ q₂.pid ≠ q₃.pid ∧
    ∀ q ∈ [q₁, q₂, q₃], q.pid ≠ p.pid ∧ haveMaze s q = true

/-- The two states hold the same slots, and will after any sequence of closes. -/
def SameAfterCloses (s s' : State) : Prop :=
  ∀ ps : List Process, (ps.foldl mazemodDevClose s').pids = (ps.foldl mazemodDevClose s).pids ∧
    (ps.foldl mazemodDevClose s').mazeUserInfo = (ps.foldl mazemodDevClose s).mazeUserInfo

/-- The reply of `MAZE_CREATE` in `s`, which led to `s'`, is true. -/
structure Truthful (s : State) (p : Process) (arg : Option UserCoord) (reply : Reply)
    (s' : State) : Prop where
  success : reply.ret = 0 → ∃ c, arg = some c ∧
    ioctlGetSize s' p true = .ok (.coord c.toCoord, s') ∧
    ∃ pos, ioctlGetPos s' p true = .ok (.coord pos, s') ∧
      ioctlGetStart s' p true = .ok (.coord pos, s')
  present : reply.ret = -eexist → GettersSucceed s p
  full : reply.ret = -enomem → ThreeOthers s p
  unchanged : reply.ret ≠ 0 → SameAfterCloses s s'

/-- The states in which `MAZE_CREATE` with a valid size answers truthfully. -/
def AnswersTruly (s : State) (p : Process) : Prop :=
  haveMaze s p = true ∨
    (∃ j, getEmptyIndex s = some j ∧ ∀ i, getUserIndex s p = some i → j < i) ∨
    (getUserIndex s p = none ∧ getEmptyIndex s = none ∧ s.errorNo = enomem ∧ ThreeOthers s p)

/-- A getter succeeds exactly for a process with a maze. -/
theorem getter_some {b : Block} (field : MazeInfo → Coord) (hblock : userBlock s p = some (i, b)) :
    getter s p true field = .ok (.coord (field b.info), s) := by
  simp [getter, hblock]

theorem getter_none {field : MazeInfo → Coord} (hblock : userBlock s p = none) :
    getter s p true field = .ok (.code (-enoent), s) := by
  simp [getter, hblock]

theorem gettersSucceed_of_hasMaze (hmaze : s.table.HasMaze p) : GettersSucceed s p := by
  obtain ⟨⟨i, b⟩, hblock⟩ := Option.isSome_iff_exists.mp (haveMaze_iff.mpr hmaze)
  exact ⟨⟨_, getter_some _ hblock⟩, ⟨_, getter_some _ hblock⟩, ⟨_, getter_some _ hblock⟩,
    ⟨_, getter_some _ hblock⟩⟩

/-- After a creation in a slot before every slot of the caller, the caller sees the
new maze, at its start. -/
theorem getters_created {info : MazeInfo} (hfirst : ∀ j, s.table.user p = some j → i < j)
    (hgen : generateMaze steps coord.y coord.x s.genMaze rand = .ok info) :
    ioctlGetSize (created s p i info) p true = .ok (.coord coord, created s p i info) ∧
      ∃ pos, ioctlGetPos (created s p i info) p true = .ok (.coord pos, created s p i info) ∧
        ioctlGetStart (created s p i info) p true = .ok (.coord pos, created s p i info) := by
  have huser : (created s p i info).table.user p = some i := by
    refine user_eq_some.mpr ⟨by simp, fun j hj => ?_⟩
    rw [table_pid, created_pids, Function.update_of_ne hj.ne]
    intro hpid
    -- the first slot of the caller is not after `j`
    cases hold : s.table.user p with
    | none => exact user_eq_none.mp hold j hpid
    | some k =>
      have hik := hfirst k hold
      exact (user_eq_some.mp hold).2 j (hj.trans hik) hpid
  have hblock : userBlock (created s p i info) p = some (i, ⟨s.nextAddr, info⟩) :=
    userBlock_eq_some.mpr ⟨huser, by simp⟩
  obtain ⟨_, hw, hh, hpos⟩ := generateMaze_fields hgen
  refine ⟨?_, info.coordPos, getter_some _ hblock, ?_⟩
  · rw [ioctlGetSize, getter_some _ hblock]
    simp only [hw, hh]
  · rw [ioctlGetStart, getter_some _ hblock, hpos]

/-- After a creation in a slot behind a slot of the caller without a maze, the caller
still has no maze. -/
theorem userBlock_created {info : MazeInfo} {k : Slot} (huser : s.table.user p = some k)
    (hmaze : ¬s.table.HasMaze p) (hki : k < i) : userBlock (created s p i info) p = none := by
  rw [userBlock_eq_none]
  rintro ⟨j, hj, hlive⟩
  have huser' : (created s p i info).table.user p = some k := by
    obtain ⟨hpid, hbefore⟩ := user_eq_some.mp huser
    refine user_eq_some.mpr ⟨?_, fun l hl => ?_⟩
    · rw [table_pid, created_pids, Function.update_of_ne hki.ne]
      exact hpid
    · rw [table_pid, created_pids, Function.update_of_ne (hl.trans hki).ne]
      exact hbefore l hl
  obtain rfl : k = j := Option.some.inj (huser'.symm.trans hj)
  rw [table_live, created_mazeUserInfo, Function.update_of_ne hki.ne] at hlive
  exact hmaze ⟨k, huser, hlive⟩

/-- A refusal changes nothing exactly when the error number was set already: the next
close of the process in the first slot tells the difference. -/
theorem sameAfterCloses_refused (hvacant : s.table.vacant = none) :
    SameAfterCloses s { s with errorNo := enomem } ↔ s.errorNo = enomem := by
  constructor
  · intro hsame
    by_contra herror
    let q : Process := ⟨s.pids 0, vacant_eq_none.mp hvacant 0⟩
    have hclose := congrFun (hsame [q]).1 0
    have huser : getUserIndex s q = some 0 :=
      (user_eq_some (t := s.table)).mpr ⟨rfl, fun j hj => absurd hj (Fin.not_lt_zero j)⟩
    have hswallow : mazemodDevClose { s with errorNo := enomem } q = { s with errorNo := 0 } := by
      simp [mazemodDevClose]
    have hdel : mazemodDevClose s q = delUser s q := by simp [mazemodDevClose, herror]
    simp only [List.foldl_cons, List.foldl_nil, hswallow, hdel] at hclose
    have hpid : (delUser s q).pids 0 = 0 := by
      rw [← table_pid, delUser_table, vacate, show s.table.user q = some 0 from huser]
      simp
    exact q.pid_ne_zero (hclose.trans hpid)
  · intro herror ps
    have heq : { s with errorNo := enomem } = s := by
      rw [← herror]
    rw [heq]
    exact ⟨rfl, rfl⟩

/-- The reply zero is true exactly when the vacant slot that `create_maze` takes
comes before every slot of the caller. -/
theorem truthful_returned {c : UserCoord} (hmaze : ¬s.table.HasMaze p)
    (hcreation : Creation s p c.toCoord rand s') :
    Truthful s p (some c) (.code 0) s' ↔
      ∃ j, s.table.vacant = some j ∧ ∀ i, s.table.user p = some i → j < i := by
  constructor
  · intro htrue
    obtain ⟨c', _, hsize, _⟩ := htrue.success rfl
    cases hcreation with
    | full hvacant =>
      rw [ioctlGetSize, getter_none (userBlock_eq_none.mpr hmaze)] at hsize
      simp at hsize
    | @fresh j steps info hvacant hgen =>
      refine ⟨j, hvacant, fun i hi => ?_⟩
      by_contra hle
      have hne : i ≠ j := by
        rintro rfl
        have hpid := (user_eq_some.mp hi).1
        rw [(vacant_eq_some.mp hvacant).1] at hpid
        exact p.pid_ne_zero hpid.symm
      have hij : i < j := lt_of_le_of_ne (not_lt.mp hle) hne
      rw [ioctlGetSize, getter_none (userBlock_created hi hmaze hij)] at hsize
      simp at hsize
  · rintro ⟨j, hvacant, hfirst⟩
    cases hcreation with
    | full hnone => simp [hnone] at hvacant
    | @fresh j' steps info hvacant' hgen =>
      obtain rfl : j' = j := Option.some.inj (hvacant'.symm.trans hvacant)
      have hgetters := getters_created hfirst hgen
      exact ⟨fun _ => ⟨c, rfl, hgetters⟩, fun h => absurd h (by decide),
        fun h => absurd h (by decide), fun h => absurd rfl h⟩

/-- `MAZE_CREATE`, when it returns, answers truthfully exactly when its argument is
rejected or the state is one of those in `AnswersTruly`. -/
theorem truthful_iff (hok : ioctlCreate steps s p arg rand = .ok (reply, s')) :
    Truthful s p arg reply s' ↔ validArg arg = false ∨ AnswersTruly s p := by
  by_cases hvalid : validArg arg = true
  · obtain ⟨c, rfl, hsize⟩ := validArg_eq_true.mp hvalid
    simp only [hvalid, Bool.true_eq_false, false_or, AnswersTruly, haveMaze_iff, getUserIndex_eq,
      getEmptyIndex_eq]
    cases ioctlCreate_outcome hsize hok with
    | present hmaze =>
      have hgetters := gettersSucceed_of_hasMaze hmaze
      exact iff_of_true ⟨fun h => absurd h (by decide), fun _ => hgetters,
        fun h => absurd h (by decide), fun _ _ => ⟨rfl, rfl⟩⟩ (.inl hmaze)
    | full huser hvacant =>
      have hmaze : ¬s.table.HasMaze p := by simp [HasMaze, huser]
      simp only [hmaze, hvacant, huser, reduceCtorEq, false_and, exists_false, false_or, true_and]
      constructor
      · intro htrue
        exact ⟨(sameAfterCloses_refused hvacant).mp (htrue.unchanged (by decide)), htrue.full rfl⟩
      · rintro ⟨herror, hothers⟩
        exact ⟨fun h => absurd h (by decide), fun h => absurd h (by decide), fun _ => hothers,
          fun _ => (sameAfterCloses_refused hvacant).mpr herror⟩
    | returned hmaze hroom hcreation =>
      rw [truthful_returned hmaze hcreation]
      constructor
      · exact fun hfirst => .inr (.inl hfirst)
      · rintro (hmaze' | hfirst | ⟨huser, hvacant, _⟩)
        · exact absurd hmaze' hmaze
        · exact hfirst
        · exact absurd hvacant (hroom huser)
  · have hinvalid : validArg arg = false := by simpa using hvalid
    obtain ⟨hret, rfl⟩ := ioctlCreate_rejected hinvalid hok
    refine iff_of_true ⟨fun h => ?_, fun h => ?_, fun h => ?_, fun _ _ => ⟨rfl, rfl⟩⟩
      (.inl hinvalid)
    all_goals
      simp only [h, enomem, eexist, ebusy, einval] at hret
      omega

/-- The first `MAZE_CREATE` after module load answers truthfully. -/
theorem truthful_iff_init : ∃ steps reply s',
    ioctlCreate steps .init (sampleProcess 0) (some sampleSize) sampleRand = .ok (reply, s') ∧
      Truthful .init (sampleProcess 0) (some sampleSize) reply s' := by
  obtain ⟨steps, reply, s', hok⟩ := sampleCreate_returns .init 0
  refine ⟨steps, reply, s', hok, (truthful_iff hok).mpr (.inr (.inr (.inl ⟨0, by decide, ?_⟩)))⟩
  decide

/-- After `MAZE_CREATE` and `MAZE_DESTROY`, a second `MAZE_CREATE` of the same process
answers zero, and the process has no maze. -/
theorem not_truthful_after_destroy : ¬∀ s, DeviceReachable s → ∀ p c rand steps reply s',
    badSize c.toCoord = false → ioctlCreate steps s p (some c) rand = .ok (reply, s') →
      Truthful s p (some c) reply s' := by
  intro hall
  obtain ⟨s, hreach, htable⟩ := exists_reachable_destroyed
  obtain ⟨steps, reply, s', hok⟩ := sampleCreate_returns s 0
  have hvalid : badSize sampleSize.toCoord = false := by decide
  have htrue := hall s hreach _ _ _ _ _ _ hvalid hok
  cases ioctlCreate_outcome hvalid hok with
  | present hmaze =>
    rw [htable] at hmaze
    revert hmaze
    decide
  | full huser =>
    rw [htable] at huser
    revert huser
    decide
  | returned hmaze _ hcreation =>
    obtain ⟨j, _, hfirst⟩ := (truthful_returned hmaze hcreation).mp htrue
    rw [htable] at hfirst
    exact absurd (hfirst 0 (by decide)) (Fin.not_lt_zero j)

end UnixProgramming.Mazemod
