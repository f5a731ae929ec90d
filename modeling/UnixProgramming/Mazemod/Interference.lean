import UnixProgramming.Mazemod.Close
import UnixProgramming.Mazemod.ProcRead
import UnixProgramming.Mazemod.Regeneration

/-!
# What processes learn of each other

A run with many processes is compared with the run in which one of them is alone.
The slots, the error number and the static maze are shared, so the process gets the
same answers only while it leaves the shared parts alone: it has no slot when it
closes with the error number set or enters `create_maze`, and it walks on its map.
-/

namespace UnixProgramming.Mazemod

open SlotTable

variable {s s' t t' : State} {r : Request} {reply : Reply} {p q : Process} {i k : Slot}
variable {steps : ℕ} {b c : Block} {rand : Rand}

/-! ## Dialogues -/

/-- An operation that returns, with its reply. -/
def Answers (s : State) (x : Request × Reply) (s' : State) : Prop :=
  ∃ steps, perform steps s x.1 = .ok (x.2, s')

/-- The runs of the device from module load, with the replies. -/
abbrev DeviceDialogue := Run State.init Answers

/-- The process that issues an operation; a read of `/proc/maze` is nobody's. -/
def requester : Request → Option Process
  | .ioctl p _ _ => some p
  | .read p _ _ => some p
  | .write p _ _ => some p
  | .close p => some p
  | .procRead => none

/-- The operation is issued by `q`. -/
def issuedBy (q : Process) (r : Request) : Bool := (requester r).any fun p => p.pid = q.pid

/-- The operations of `q` in a history, with their replies. -/
def ownDialogue (q : Process) (history : List (State × (Request × Reply))) :
    List (Request × Reply) :=
  (history.map Prod.snd).filter fun x => issuedBy q x.1

/-- No `MAZE_CREATE` of `q` is answered with `-ENOMEM`. -/
def NotRefused (q : Process) (history : List (State × (Request × Reply))) : Prop :=
  ∀ x ∈ history, ∀ arg rand, x.2.1 = .ioctl q (.create arg) rand → x.2.2.ret ≠ -enomem

/-- Without the operations of the other processes, those of `q` return too, and have
the same replies. -/
def Undisturbed (q : Process) (history : List (State × (Request × Reply))) : Prop :=
  (∃ alone t, DeviceDialogue alone t ∧ alone.map Prod.snd = ownDialogue q history) ∧
    ∀ alone t, DeviceDialogue alone t →
      (alone.map fun x => x.2.1) = (ownDialogue q history).map Prod.fst →
      alone.map Prod.snd = ownDialogue q history

/-- The operation keeps `q` apart from the other processes: if it is a creation of `q`
that enters `create_maze`, then `q` has no slot (and `ONLY_FOR_Q3` finds a vacant one), if
it is a close of `q` with the error number set, then `q` has no slot either, and if it is
a walk of `q`, then it examines cells of the map only. -/
def KeepsApart (q : Process) (s : State) : Request → Prop
  | .ioctl p (.create arg) _ =>
    p = q → validArg arg = true → ¬s.table.HasMaze q → s.table.user q = none
  | .ioctl p (.onlyForQ3 arg) _ =>
    p = q → validArg arg = true → s.table.user q = none ∧ s.table.vacant ≠ none
  | .close p => p = q → s.errorNo = enomem → s.table.user q = none
  | r => ∀ moves i b, walk r = some (q, moves) → userBlock s q = some (i, b) →
      ∀ cell ∈ examined b.info moves, OnMap b.info cell

/-- An operation of `q` names `q`. -/
theorem requester_of_issuedBy (hissued : issuedBy q r = true) : requester r = some q := by
  obtain ⟨⟨pid, hpid⟩, hp, heq⟩ := (Option.any_eq_true _ _).mp hissued
  obtain ⟨pid', hpid'⟩ := q
  obtain rfl : pid = pid' := of_decide_eq_true heq
  exact hp

/-- A request of `q` is issued by `q`. -/
theorem issuedBy_of_eq {cmd : Ioctl} (hreq : r = .ioctl q cmd rand) : issuedBy q r = true := by
  simp [hreq, issuedBy, requester]

/-- An operation of another process names no process with the pid of `q`. -/
theorem pid_ne_of_not_issuedBy (hother : issuedBy q r = false) (hp : requester r = some p) :
    p.pid ≠ q.pid := by
  intro heq
  simp [issuedBy, hp, heq] at hother

/-! ## The other processes -/

/-- The step leaves the slots of `q` as they are and gives it no other one. -/
def LeavesAlone (q : Process) (s s' : State) : Prop :=
  ∀ i, (s'.pids i = q.pid ↔ s.pids i = q.pid) ∧
    (s.pids i = q.pid → s'.mazeUserInfo i = s.mazeUserInfo i)

/-- Nothing happens to the slots, -/
theorem leavesAlone_of_eq (hpids : s'.pids = s.pids) (hinfo : s'.mazeUserInfo = s.mazeUserInfo) :
    LeavesAlone q s s' := by
  intro i
  rw [hpids, hinfo]
  exact ⟨Iff.rfl, fun _ => rfl⟩

/-- or one slot of another process is overwritten. -/
theorem leavesAlone_of_update {n : ℕ} {o : Option Block} (hi : s.pids i ≠ q.pid) (hn : n ≠ q.pid)
    (hpids : s'.pids = Function.update s.pids i n)
    (hinfo : s'.mazeUserInfo = Function.update s.mazeUserInfo i o) : LeavesAlone q s s' := by
  intro j
  rw [hpids, hinfo]
  by_cases hj : j = i
  · subst hj
    simp [hi, hn]
  · simp [hj]

/-- Another process overwrites its own slot. -/
theorem leavesAlone_setInfo {o : Option Block} (hpq : p.pid ≠ q.pid)
    (hblock : userBlock s p = some (i, b)) : LeavesAlone q s (s.setInfo i o) := by
  have hpid : s.pids i = p.pid := (user_eq_some.mp (userBlock_eq_some.mp hblock).1).1
  refine leavesAlone_of_update (n := s.pids i) (o := o) (hpid ▸ hpq) (hpid ▸ hpq) ?_ rfl
  rw [Function.update_eq_self]
  rfl

/-- A creation by another process takes a vacant slot. -/
theorem Creation.leavesAlone {coord : Coord} (hpq : p.pid ≠ q.pid)
    (hcreation : Creation s p coord rand s') : LeavesAlone q s s' := by
  cases hcreation with
  | full => exact leavesAlone_of_eq rfl rfl
  | fresh hvacant _ =>
    have hpid : s.pids _ = 0 := (vacant_eq_some.mp hvacant).1
    exact leavesAlone_of_update (by rw [hpid]; exact q.pid_ne_zero.symm) hpq
      (created_pids ..) (created_mazeUserInfo ..)

/-- `del_user` of another process vacates its own slot. -/
theorem leavesAlone_delUser (hpq : p.pid ≠ q.pid) : LeavesAlone q s (delUser s p) := by
  cases huser : getUserIndex s p with
  | none =>
    rw [delUser_none huser]
    exact leavesAlone_of_eq rfl rfl
  | some i =>
    have hpid : s.pids i = p.pid := (user_eq_some (t := s.table).mp huser).1
    exact leavesAlone_of_update (hpid ▸ hpq) q.pid_ne_zero.symm (delUser_pids huser)
      (delUser_mazeUserInfo huser)

/-- An operation of another process leaves the slots of `q` as they are. -/
theorem Answers.leavesAlone (hother : issuedBy q r = false) (hans : Answers s (r, reply) s') :
    LeavesAlone q s s' := by
  obtain ⟨steps, hok⟩ := hans
  dsimp only at hok
  cases r with
  | ioctl p cmd rand =>
    have hpq : p.pid ≠ q.pid := pid_ne_of_not_issuedBy hother rfl
    simp only [perform, mazemodDevIoctl] at hok
    cases cmd with
    | create arg =>
      by_cases hvalid : validArg arg = true
      · obtain ⟨c, rfl, hsize⟩ := validArg_eq_true.mp hvalid
        cases ioctlCreate_outcome hsize hok with
        | present => exact leavesAlone_of_eq rfl rfl
        | full => exact leavesAlone_of_eq rfl rfl
        | returned _ _ hcreation => exact hcreation.leavesAlone hpq
      · obtain ⟨_, rfl⟩ := ioctlCreate_rejected (by simpa using hvalid) hok
        exact leavesAlone_of_eq rfl rfl
    | onlyForQ3 arg =>
      obtain ⟨_, rfl⟩ | ⟨c, _, _, hcreation⟩ := ioctlOnlyForQ3_cases hok
      · exact leavesAlone_of_eq rfl rfl
      · have halone : LeavesAlone q { s with onlyForQ3 := true } s' := hcreation.leavesAlone hpq
        exact halone
    | reset =>
      obtain rfl | ⟨i, b, hblock, rfl⟩ := ioctlReset_cases hok
      · exact leavesAlone_of_eq rfl rfl
      · exact leavesAlone_setInfo hpq hblock
    | destroy =>
      obtain ⟨_, rfl⟩ | ⟨i, b, hblock, rfl⟩ := ioctlDestroy_cases hok
      · exact leavesAlone_of_eq rfl rfl
      · exact leavesAlone_setInfo (s := s.kfree b.addr) hpq hblock
    | move arg =>
      obtain rfl | ⟨d, i, b, info, _, hblock, _, rfl⟩ := ioctlMove_cases hok
      · exact leavesAlone_of_eq rfl rfl
      · exact leavesAlone_setInfo hpq hblock
    | getSize copied | getPos copied | getStart copied | getEnd copied =>
      simp only [ioctlGetSize, ioctlGetPos, ioctlGetStart, ioctlGetEnd] at hok
      obtain rfl := getter_state hok
      exact leavesAlone_of_eq rfl rfl
    | unknown =>
      obtain ⟨_, rfl⟩ := Prod.mk.inj (Except.ok.inj hok)
      exact leavesAlone_of_eq rfl rfl
  | read p len copied =>
    have hread : mazemodDevRead s p len copied = .ok (reply, s') := hok
    obtain rfl | rfl | rfl := mazemodDevRead_cases hread <;> exact leavesAlone_of_eq rfl rfl
  | write p buf copied =>
    have hpq : p.pid ≠ q.pid := pid_ne_of_not_issuedBy hother rfl
    obtain rfl | rfl | ⟨i, b, info, _, _, hblock, _, rfl⟩ := mazemodDevWrite_cases hok
    · exact leavesAlone_of_eq rfl rfl
    · exact leavesAlone_of_eq rfl rfl
    · exact leavesAlone_setInfo (s := s.kmalloc.2) hpq hblock
  | close p =>
    have hpq : p.pid ≠ q.pid := pid_ne_of_not_issuedBy hother rfl
    obtain ⟨_, rfl⟩ := Prod.mk.inj (Except.ok.inj hok)
    unfold mazemodDevClose
    split
    · exact leavesAlone_of_eq rfl rfl
    · exact leavesAlone_delUser hpq
  | procRead =>
    rw [mazemodProcRead_state hok]
    exact leavesAlone_of_eq rfl rfl

/-! ## The process alone -/

/-- The blocks hold mazes that differ in cells outside their map only. -/
def Block.Alike (b c : Block) : Prop := b.info.Alike c.info

/-- Slot `i` is the only one with the pid of `q`. -/
def OnlySlot (q : Process) (pids : Slot → ℕ) (i : Slot) : Prop := ∀ j, pids j = q.pid ↔ j = i

/-- The process has no slot in either state, or one in each, with alike mazes in them
or with none. -/
inductive SlotsAgree (q : Process) (s t : State) : Prop
  | without : (∀ i, s.pids i ≠ q.pid) → (∀ k, t.pids k ≠ q.pid) → SlotsAgree q s t
  | holding {i k : Slot} : OnlySlot q s.pids i → OnlySlot q t.pids k →
      Option.Rel Block.Alike (s.mazeUserInfo i) (t.mazeUserInfo k) → SlotsAgree q s t

/-- The state `t`, in which `q` is alone, shows `q` what `s` does. -/
structure Mirrors (q : Process) (s t : State) : Prop where
  slots : SlotsAgree q s t
  alone : ∀ k, t.pids k ≠ 0 → t.pids k = q.pid
  no_error : t.errorNo ≠ enomem

/-- Both states show an empty table after module load. -/
theorem mirrors_init (q : Process) : Mirrors q .init .init where
  slots := .without (fun _ => q.pid_ne_zero.symm) fun _ => q.pid_ne_zero.symm
  alone := fun _ hpid => absurd rfl hpid
  no_error := by decide

/-- The relation is about the slots, and about the error number of the second state. -/
theorem Mirrors.congr (hmirrors : Mirrors q s t) (hs : s'.pids = s.pids)
    (hs' : s'.mazeUserInfo = s.mazeUserInfo) (ht : t'.pids = t.pids)
    (ht' : t'.mazeUserInfo = t.mazeUserInfo) (herror : t'.errorNo = t.errorNo) :
    Mirrors q s' t' := by
  obtain ⟨hslots, halone, herr⟩ := hmirrors
  refine ⟨?_, ht ▸ halone, herror ▸ herr⟩
  cases hslots with
  | without hi hk => exact .without (hs ▸ hi) (ht ▸ hk)
  | holding hi hk hrel => exact .holding (hs ▸ hi) (ht ▸ hk) (hs' ▸ ht' ▸ hrel)

/-- The only slot is the one that the operations find. -/
theorem OnlySlot.user (honly : OnlySlot q s.pids i) : s.table.user q = some i :=
  user_eq_some.mpr ⟨(honly i).mpr rfl, fun j hj hpid => absurd ((honly j).mp hpid) hj.ne⟩

/-- A step that leaves the slots of `q` alone is not noticed. -/
theorem Mirrors.of_leavesAlone (hmirrors : Mirrors q s t) (halone : LeavesAlone q s s') :
    Mirrors q s' t := by
  obtain ⟨hslots, hpids, herror⟩ := hmirrors
  refine ⟨?_, hpids, herror⟩
  cases hslots with
  | without hi hk => exact .without (fun i hi' => hi i ((halone i).1.mp hi')) hk
  | @holding i k hi hk hrel =>
    refine .holding (fun j => (halone j).1.trans (hi j)) hk ?_
    rw [(halone i).2 ((hi i).mpr rfl)]
    exact hrel

/-- A process whose only slot is dead has no maze. -/
theorem userBlock_dead (honly : OnlySlot q s.pids i) (hdead : s.mazeUserInfo i = none) :
    userBlock s q = none := by
  simp only [userBlock, getUserIndex_eq, honly.user, hdead]
  rfl

/-- A process without a slot has no maze. -/
theorem userBlock_without (hnone : ∀ i, s.pids i ≠ q.pid) : userBlock s q = none := by
  have huser : s.table.user q = none := user_eq_none.mpr hnone
  simp only [userBlock, getUserIndex_eq, huser]

/-- The process has a maze in both states, and the mazes are alike, or in neither. -/
theorem Mirrors.userBlock_cases (hmirrors : Mirrors q s t) :
    userBlock s q = none ∧ userBlock t q = none ∨
      ∃ i b k c, userBlock s q = some (i, b) ∧ userBlock t q = some (k, c) ∧ b.Alike c := by
  cases hmirrors.slots with
  | without hi hk => exact .inl ⟨userBlock_without hi, userBlock_without hk⟩
  | @holding i k hi hk hrel =>
    cases hs : s.mazeUserInfo i with
    | none =>
      cases ht : t.mazeUserInfo k with
      | none => exact .inl ⟨userBlock_dead hi hs, userBlock_dead hk ht⟩
      | some c => simp [hs, ht] at hrel
    | some b =>
      cases ht : t.mazeUserInfo k with
      | none => simp [hs, ht] at hrel
      | some c =>
        rw [hs, ht, Option.rel_some_some] at hrel
        exact .inr ⟨i, b, k, c, userBlock_eq_some.mpr ⟨hi.user, hs⟩,
          userBlock_eq_some.mpr ⟨hk.user, ht⟩, hrel⟩

/-- The process overwrites its slot with alike contents. -/
theorem Mirrors.setInfo {o o' : Option Block} (hmirrors : Mirrors q s t)
    (hs : userBlock s q = some (i, b)) (ht : userBlock t q = some (k, c))
    (hrel : Option.Rel Block.Alike o o') : Mirrors q (s.setInfo i o) (t.setInfo k o') := by
  obtain ⟨hslots, halone, herror⟩ := hmirrors
  refine ⟨?_, halone, herror⟩
  obtain ⟨hi, _⟩ := userBlock_eq_some.mp hs
  obtain ⟨hk, _⟩ := userBlock_eq_some.mp ht
  cases hslots with
  | without hno _ => exact absurd (user_eq_some.mp hi).1 (hno i)
  | @holding i' k' hi' hk' _ =>
    obtain rfl : i' = i := Option.some.inj (hi'.user.symm.trans hi)
    obtain rfl : k' = k := Option.some.inj (hk'.user.symm.trans hk)
    refine .holding hi' hk' ?_
    simp only [State.setInfo, Function.update_self]
    exact hrel

/-- What the getters return is the same for alike mazes. -/
theorem MazeInfo.Alike.fields_eq {m m' : MazeInfo} (halike : m.Alike m') :
    m'.maze.w = m.maze.w ∧ m'.maze.h = m.maze.h ∧ m'.maze.sx = m.maze.sx ∧
      m'.maze.sy = m.maze.sy ∧ m'.maze.ex = m.maze.ex ∧ m'.maze.ey = m.maze.ey := by
  rw [halike.fields]
  exact ⟨rfl, rfl, rfl, rfl, rfl, rfl⟩

/-- A getter of an alike field is answered alike. -/
theorem Mirrors.getter {copied : Bool} {field : MazeInfo → Coord} (hmirrors : Mirrors q s t)
    (hfield : ∀ m m' : MazeInfo, m.Alike m' → field m' = field m)
    (hok : Mazemod.getter s q copied field = .ok (reply, s')) :
    ∃ t', Mazemod.getter t q copied field = .ok (reply, t') ∧ Mirrors q s' t' := by
  obtain ⟨hs, ht⟩ | ⟨i, b, k, c, hs, ht, halike⟩ := hmirrors.userBlock_cases
  · simp only [Mazemod.getter, hs, ht] at hok ⊢
    obtain ⟨rfl, rfl⟩ := Prod.mk.inj (Except.ok.inj hok)
    exact ⟨t, rfl, hmirrors⟩
  · simp only [Mazemod.getter, hs, ht, hfield _ _ halike] at hok ⊢
    cases copied with
    | true =>
      obtain ⟨rfl, rfl⟩ := Prod.mk.inj (Except.ok.inj hok)
      exact ⟨t, rfl, hmirrors⟩
    | false =>
      obtain ⟨rfl, rfl⟩ := Prod.mk.inj (Except.ok.inj hok)
      exact ⟨t, rfl, hmirrors⟩

/-- `MAZE_RESET` is answered alike, -/
theorem Mirrors.ioctlReset (hmirrors : Mirrors q s t)
    (hok : Mazemod.ioctlReset s q = .ok (reply, s')) :
    ∃ t', Mazemod.ioctlReset t q = .ok (reply, t') ∧ Mirrors q s' t' := by
  obtain ⟨hs, ht⟩ | ⟨i, b, k, c, hs, ht, halike⟩ := hmirrors.userBlock_cases
  all_goals
    simp only [Mazemod.ioctlReset, hs, ht] at hok ⊢
    obtain ⟨rfl, rfl⟩ := Prod.mk.inj (Except.ok.inj hok)
  · exact ⟨t, rfl, hmirrors⟩
  · refine ⟨_, rfl, hmirrors.setInfo hs ht (.some ?_)⟩
    obtain ⟨_, _, hsx, hsy, _, _⟩ := MazeInfo.Alike.fields_eq halike
    exact ⟨halike.coord, Coord.mk.injEq .. ▸ ⟨hsx, hsy⟩, halike.fields, halike.cells⟩

/-- and so are `MAZE_DESTROY`, -/
theorem Mirrors.ioctlDestroy (hmirrors : Mirrors q s t)
    (hok : Mazemod.ioctlDestroy s q = .ok (reply, s')) :
    ∃ t', Mazemod.ioctlDestroy t q = .ok (reply, t') ∧ Mirrors q s' t' := by
  obtain ⟨hs, ht⟩ | ⟨i, b, k, c, hs, ht, halike⟩ := hmirrors.userBlock_cases
  all_goals
    simp only [Mazemod.ioctlDestroy, hs, ht] at hok ⊢
    obtain ⟨rfl, rfl⟩ := Prod.mk.inj (Except.ok.inj hok)
  · exact ⟨t, rfl, hmirrors⟩
  · exact ⟨_, rfl, (hmirrors.setInfo hs ht .none).congr rfl rfl rfl rfl rfl⟩

/-- a `MAZE_MOVE` on the map, -/
theorem Mirrors.ioctlMove {arg : Option UserCoord} (hmirrors : Mirrors q s t)
    (happart : KeepsApart q s (.ioctl q (.move arg) rand))
    (hok : Mazemod.ioctlMove s q arg = .ok (reply, s')) :
    ∃ t', Mazemod.ioctlMove t q arg = .ok (reply, t') ∧ Mirrors q s' t' := by
  obtain ⟨hs, ht⟩ | ⟨i, b, k, c, hs, ht, halike⟩ := hmirrors.userBlock_cases
  · simp only [Mazemod.ioctlMove, hs, ht] at hok ⊢
    obtain ⟨rfl, rfl⟩ := Prod.mk.inj (Except.ok.inj hok)
    exact ⟨t, rfl, hmirrors⟩
  · cases arg with
    | none =>
      simp only [Mazemod.ioctlMove, hs, ht] at hok ⊢
      obtain ⟨rfl, rfl⟩ := Prod.mk.inj (Except.ok.inj hok)
      exact ⟨t, rfl, hmirrors⟩
    | some d =>
      simp only [Mazemod.ioctlMove, hs, ht, bind_eq_ok, pure_eq_ok, Prod.mk.injEq] at hok ⊢
      obtain ⟨m, hmove, rfl, rfl⟩ := hok
      have hmap := happart [d] i b rfl hs _ List.mem_cons_self
      obtain ⟨m', hmove', halike'⟩ := MazeInfo.Alike.tryMove halike hmap hmove
      exact ⟨_, ⟨m', hmove', rfl, rfl⟩, hmirrors.setInfo hs ht (.some halike')⟩

/-- a `write` on the map, -/
theorem Mirrors.mazemodDevWrite {buf : List UInt8} {copied : Bool} (hmirrors : Mirrors q s t)
    (happart : KeepsApart q s (.write q buf copied))
    (hok : Mazemod.mazemodDevWrite s q buf copied = .ok (reply, s')) :
    ∃ t', Mazemod.mazemodDevWrite t q buf copied = .ok (reply, t') ∧ Mirrors q s' t' := by
  have hmirrors' : Mirrors q s.kmalloc.2 t.kmalloc.2 := hmirrors.congr rfl rfl rfl rfl rfl
  obtain ⟨hs, ht⟩ | ⟨i, b, k, c, hs, ht, halike⟩ := hmirrors.userBlock_cases
  · simp only [Mazemod.mazemodDevWrite, hs, ht] at hok ⊢
    obtain ⟨rfl, rfl⟩ := Prod.mk.inj (Except.ok.inj hok)
    exact ⟨t, rfl, hmirrors⟩
  · simp only [Mazemod.mazemodDevWrite, hs, ht] at hok ⊢
    split at hok
    · next hcopied =>
      rw [if_pos hcopied]
      obtain ⟨rfl, rfl⟩ := Prod.mk.inj (Except.ok.inj hok)
      exact ⟨_, rfl, hmirrors'⟩
    next hcopied =>
    rw [if_neg hcopied]
    split at hok
    · next hcount =>
      rw [if_pos hcount]
      obtain ⟨rfl, rfl⟩ := Prod.mk.inj (Except.ok.inj hok)
      exact ⟨_, rfl, hmirrors'⟩
    next hcount =>
    rw [if_neg hcount]
    simp only [bind_eq_ok, pure_eq_ok, Prod.mk.injEq] at hok ⊢
    obtain ⟨m, hmoves, rfl, rfl⟩ := hok
    obtain rfl : copied = true := by simpa using hcopied
    have hwalk : walk (.write q buf true) = some (q, moveArray buf) := if_pos (not_not.mp hcount)
    obtain ⟨m', hmoves', halike'⟩ :=
      MazeInfo.Alike.writeMoves halike (happart _ i b hwalk hs) hmoves
    exact ⟨_, ⟨m', hmoves', rfl, rfl⟩, hmirrors'.setInfo hs ht (.some halike')⟩

/-- a `read`, -/
theorem Mirrors.mazemodDevRead {len : ℕ} {copied : Bool} (hmirrors : Mirrors q s t)
    (hok : Mazemod.mazemodDevRead s q len copied = .ok (reply, s')) :
    ∃ t', Mazemod.mazemodDevRead t q len copied = .ok (reply, t') ∧ Mirrors q s' t' := by
  obtain ⟨hs, ht⟩ | ⟨i, b, k, c, hs, ht, halike⟩ := hmirrors.userBlock_cases
  · simp only [Mazemod.mazemodDevRead, hs, ht] at hok ⊢
    obtain ⟨rfl, rfl⟩ := Prod.mk.inj (Except.ok.inj hok)
    exact ⟨t, rfl, hmirrors⟩
  · have hrows : layoutRows c.info = layoutRows b.info := by
      unfold layoutRows
      rw [halike.coord]
      refine mapM_congr fun row hrow => mapM_congr fun col hcol => ?_
      rw [MazeInfo.Alike.cell_eq halike (onMap_of_mem_upTo hrow hcol)]
    rw [mazemodDevRead_some hs, bind_eq_ok] at hok
    obtain ⟨rows, hread, hok⟩ := hok
    simp only [mazemodDevRead_some ht, hrows, bind_eq_ok]
    cases copied with
    | true =>
      obtain ⟨rfl, rfl⟩ := Prod.mk.inj (pure_eq_ok.mp hok)
      exact ⟨t.kmalloc.2.kfree t.kmalloc.1, ⟨rows, hread, rfl⟩, hmirrors.congr rfl rfl rfl rfl rfl⟩
    | false =>
      obtain ⟨rfl, rfl⟩ := Prod.mk.inj (pure_eq_ok.mp hok)
      exact ⟨t.kmalloc.2, ⟨rows, hread, rfl⟩, hmirrors.congr rfl rfl rfl rfl rfl⟩

/-- With no slot in the first state, `create_maze` finds a vacant slot in the second, and
generates an alike maze. -/
theorem Mirrors.createMaze {coord : Coord} {ret : ℤ} (hmirrors : Mirrors q s t)
    (huser : s.table.user q = none) (hroom : s.table.vacant ≠ none)
    (hok : Mazemod.createMaze steps s q coord rand = .ok (ret, s')) :
    t.table.user q = none ∧ t.table.vacant ≠ none ∧
      ∃ t', Mazemod.createMaze steps t q coord rand = .ok (ret, t') ∧ Mirrors q s' t' := by
  obtain ⟨hslots, halone, herror⟩ := hmirrors
  cases hslots with
  | holding hi _ _ => cases huser.symm.trans hi.user
  | without hno hno' =>
    have hvacant₀ : t.table.vacant = some 0 := by
      refine vacant_eq_some.mpr ⟨?_, fun j hj => absurd hj (Fin.not_lt_zero j)⟩
      by_contra hpid
      exact hno' 0 (halone 0 hpid)
    refine ⟨user_eq_none.mpr hno', by simp [hvacant₀], ?_⟩
    obtain ⟨i, hvacant⟩ := Option.ne_none_iff_exists'.mp hroom
    simp only [Mazemod.createMaze, getEmptyIndex_eq, hvacant, hvacant₀, bind_eq_ok, pure_eq_ok,
      Prod.mk.injEq] at hok ⊢
    obtain ⟨m, hgen, rfl, rfl⟩ := hok
    obtain ⟨m', hgen', halike⟩ := generateMaze_alike t.genMaze hgen
    refine ⟨created t q 0 m', ⟨m', hgen', rfl, rfl⟩, ?_, fun k hk => ?_, herror⟩
    · refine .holding (i := i) (k := 0) (fun j => ?_) (fun j => ?_) ?_
      · by_cases hj : j = i
        · simp [State.setPid, State.kmalloc, State.setInfo, hj]
        · simp [State.setPid, State.kmalloc, State.setInfo, hj, hno j]
      · by_cases hj : j = 0
        · simp [hj]
        · simp [hj, hno' j]
      · simp only [created_mazeUserInfo, State.setInfo, Function.update_self]
        exact .some halike
    · by_cases hk₀ : k = 0
      · simp [hk₀]
      · rw [created_pids, Function.update_of_ne hk₀] at hk ⊢
        exact halone k hk

/-- `MAZE_CREATE` is answered alike when it is not refused and `q` has no slot or a maze, -/
theorem Mirrors.ioctlCreate {arg : Option UserCoord} (hmirrors : Mirrors q s t)
    (happart : KeepsApart q s (.ioctl q (.create arg) rand)) (hret : reply.ret ≠ -enomem)
    (hok : Mazemod.ioctlCreate steps s q arg rand = .ok (reply, s')) :
    ∃ t', Mazemod.ioctlCreate steps t q arg rand = .ok (reply, t') ∧ Mirrors q s' t' := by
  cases arg with
  | none =>
    obtain ⟨rfl, rfl⟩ := Prod.mk.inj (Except.ok.inj hok)
    exact ⟨t, rfl, hmirrors⟩
  | some coord =>
    by_cases hbad : badSize coord.toCoord = true
    · simp only [Mazemod.ioctlCreate, hbad, if_true] at hok ⊢
      obtain ⟨rfl, rfl⟩ := Prod.mk.inj (Except.ok.inj hok)
      exact ⟨t, rfl, hmirrors⟩
    have hvalid : validArg (some coord) = true := by simpa [validArg] using hbad
    simp only [Mazemod.ioctlCreate, hbad, Bool.false_eq_true, if_false, getUserIndex_eq,
      getEmptyIndex_eq] at hok ⊢
    obtain ⟨hs, ht⟩ | ⟨i, b, k, c, hs, ht, _⟩ := hmirrors.userBlock_cases
    · have huser := happart rfl hvalid (userBlock_eq_none.mp hs)
      simp only [huser] at hok
      cases hvacant : s.table.vacant with
      | none =>
        simp only [hvacant, Option.isNone_none, if_true] at hok
        obtain ⟨rfl, rfl⟩ := Prod.mk.inj (Except.ok.inj hok)
        exact absurd rfl hret
      | some i =>
        simp only [hvacant, Option.isNone_some, Bool.false_eq_true, if_false, bind_eq_ok,
          pure_eq_ok, Prod.mk.injEq] at hok
        obtain ⟨⟨ret, s₁⟩, hcreate, rfl, rfl⟩ := hok
        obtain ⟨huser', hroom', t', hcreate', hmirrors'⟩ :=
          hmirrors.createMaze huser (by simp [hvacant]) hcreate
        refine ⟨t', ?_, hmirrors'⟩
        simp only [huser', Option.isNone_iff_eq_none, hroom', if_false, bind_eq_ok]
        exact ⟨(ret, t'), hcreate', rfl⟩
    · obtain ⟨hi, hb⟩ := userBlock_eq_some.mp hs
      obtain ⟨hk, hc⟩ := userBlock_eq_some.mp ht
      simp only [hi, hb, hk, hc, Option.isSome_some, if_true] at hok ⊢
      obtain ⟨rfl, rfl⟩ := Prod.mk.inj (Except.ok.inj hok)
      exact ⟨t, rfl, hmirrors⟩

/-- `ONLY_FOR_Q3` when `q` has no slot and some slot is vacant, -/
theorem Mirrors.ioctlOnlyForQ3 {arg : Option UserCoord} (hmirrors : Mirrors q s t)
    (happart : KeepsApart q s (.ioctl q (.onlyForQ3 arg) rand))
    (hok : Mazemod.ioctlOnlyForQ3 steps s q arg rand = .ok (reply, s')) :
    ∃ t', Mazemod.ioctlOnlyForQ3 steps t q arg rand = .ok (reply, t') ∧ Mirrors q s' t' := by
  have hflag : Mirrors q { s with onlyForQ3 := true } { t with onlyForQ3 := true } :=
    hmirrors.congr rfl rfl rfl rfl rfl
  cases arg with
  | none =>
    obtain ⟨rfl, rfl⟩ := Prod.mk.inj (Except.ok.inj hok)
    exact ⟨_, rfl, hflag⟩
  | some coord =>
    by_cases hbad : badSize coord.toCoord = true
    · simp only [Mazemod.ioctlOnlyForQ3, hbad, if_true] at hok ⊢
      obtain ⟨rfl, rfl⟩ := Prod.mk.inj (Except.ok.inj hok)
      exact ⟨_, rfl, hflag⟩
    obtain ⟨huser, hroom⟩ := happart rfl (by simpa [validArg] using hbad)
    simp only [Mazemod.ioctlOnlyForQ3, hbad, Bool.false_eq_true, if_false, bind_eq_ok,
      pure_eq_ok, Prod.mk.injEq] at hok ⊢
    obtain ⟨⟨ret, s₁⟩, hcreate, rfl, rfl⟩ := hok
    obtain ⟨_, _, t', hcreate', hmirrors'⟩ := hflag.createMaze huser hroom hcreate
    exact ⟨t', ⟨(ret, t'), hcreate', rfl, rfl⟩, hmirrors'⟩

/-- and a close vacates the slot in both states when the error number is not set. -/
theorem Mirrors.mazemodDevClose (hmirrors : Mirrors q s t)
    (happart : KeepsApart q s (.close q)) :
    Mirrors q (Mazemod.mazemodDevClose s q) (Mazemod.mazemodDevClose t q) := by
  obtain ⟨hslots, halone, herror⟩ := id hmirrors
  have hclose : Mazemod.mazemodDevClose t q = delUser t q := if_neg herror
  cases hslots with
  | without hno hno' =>
    have huser : getUserIndex t q = none := (user_eq_none (t := t.table)).mpr hno'
    have huser' : getUserIndex s q = none := (user_eq_none (t := s.table)).mpr hno
    rw [hclose, delUser_none huser]
    unfold Mazemod.mazemodDevClose
    split
    · exact hmirrors.congr rfl rfl rfl rfl rfl
    · rwa [delUser_none huser']
  | @holding i k hi hk _ =>
    have hnoerror : s.errorNo ≠ enomem := by
      intro hset
      cases hi.user.symm.trans (happart rfl hset)
    have hvacated : ∀ {u : State} {j : Slot}, OnlySlot q u.pids j → ∀ l,
        (delUser u q).pids l = if l = j then 0 else u.pids l := by
      intro u j hj l
      rw [delUser_pids (i := j) hj.user, Function.update_apply]
    have hgone : ∀ {u : State} {j : Slot}, OnlySlot q u.pids j → ∀ l,
        (delUser u q).pids l ≠ q.pid := by
      intro u j hj l
      rw [hvacated hj]
      split
      · exact q.pid_ne_zero.symm
      · next hl => exact mt (hj l).mp hl
    have hcloses : Mazemod.mazemodDevClose s q = delUser s q := if_neg hnoerror
    rw [hclose, hcloses]
    refine ⟨.without (hgone hi) (hgone hk), fun l hl => ?_, ?_⟩
    · rw [hvacated hk] at hl ⊢
      split at hl
      · exact absurd rfl hl
      · next hne => rw [if_neg hne]; exact halone l hl
    · have htable := delUser_table t q
      have herror' : (delUser t q).table.errorNo = t.errorNo := by
        rw [htable]
        unfold vacate
        split <;> rfl
      rw [← table_errorNo, herror']
      exact herror

/-- An operation of `q` that keeps it apart is answered alike when `q` is alone. -/
theorem Mirrors.answers (hmirrors : Mirrors q s t) (hown : issuedBy q r = true)
    (happart : KeepsApart q s r)
    (hret : ∀ arg rand, r = .ioctl q (.create arg) rand → reply.ret ≠ -enomem)
    (hans : Answers s (r, reply) s') : ∃ t', Answers t (r, reply) t' ∧ Mirrors q s' t' := by
  obtain ⟨steps, hok⟩ := hans
  suffices hmatch : ∃ t', perform steps t r = .ok (reply, t') ∧ Mirrors q s' t' by
    obtain ⟨t', hok', hmirrors'⟩ := hmatch
    exact ⟨t', ⟨steps, hok'⟩, hmirrors'⟩
  have hreq := requester_of_issuedBy hown
  dsimp only at hok
  cases r with
  | procRead => cases hreq
  | read p len copied =>
    obtain rfl : p = q := Option.some.inj hreq
    have hread : Mazemod.mazemodDevRead s p len copied = .ok (reply, s') := hok
    exact hmirrors.mazemodDevRead hread
  | write p buf copied =>
    obtain rfl : p = q := Option.some.inj hreq
    exact hmirrors.mazemodDevWrite happart hok
  | close p =>
    obtain rfl : p = q := Option.some.inj hreq
    obtain ⟨rfl, rfl⟩ := Prod.mk.inj (Except.ok.inj hok)
    exact ⟨_, rfl, hmirrors.mazemodDevClose happart⟩
  | ioctl p cmd rand =>
    obtain rfl : p = q := Option.some.inj hreq
    simp only [perform, mazemodDevIoctl] at hok ⊢
    cases cmd with
    | create arg => exact hmirrors.ioctlCreate happart (hret arg rand rfl) hok
    | onlyForQ3 arg => exact hmirrors.ioctlOnlyForQ3 happart hok
    | reset => exact hmirrors.ioctlReset hok
    | destroy => exact hmirrors.ioctlDestroy hok
    | move arg => exact hmirrors.ioctlMove happart hok
    | getSize copied =>
      refine hmirrors.getter (fun m m' halike => ?_) hok
      obtain ⟨hw, hh, _⟩ := halike.fields_eq
      rw [hw, hh]
    | getPos copied =>
      refine hmirrors.getter (fun m m' halike => ?_) hok
      rw [halike.coordPos]
    | getStart copied =>
      refine hmirrors.getter (fun m m' halike => ?_) hok
      obtain ⟨_, _, hsx, hsy, _⟩ := halike.fields_eq
      rw [hsx, hsy]
    | getEnd copied =>
      refine hmirrors.getter (fun m m' halike => ?_) hok
      obtain ⟨_, _, _, _, hex, hey⟩ := halike.fields_eq
      rw [hex, hey]
    | unknown =>
      obtain ⟨rfl, rfl⟩ := Prod.mk.inj (Except.ok.inj hok)
      exact ⟨t, rfl, hmirrors⟩

/-! ## Runs -/

/-- `create_maze` keeps its result when more steps are granted, -/
theorem createMaze_mono {steps' : ℕ} {coord : Coord} {x : ℤ × State} (hle : steps ≤ steps')
    (hok : createMaze steps s p coord rand = .ok x) :
    createMaze steps' s p coord rand = .ok x := by
  unfold createMaze at hok ⊢
  split at hok
  · exact hok
  · simp only [bind_eq_ok] at hok ⊢
    obtain ⟨m, hgen, hrest⟩ := hok
    exact ⟨m, generateMaze_mono hle hgen, hrest⟩

/-- and so do `MAZE_CREATE`, -/
theorem ioctlCreate_mono {steps' : ℕ} {arg : Option UserCoord} {x : Reply × State}
    (hle : steps ≤ steps') (hok : ioctlCreate steps s p arg rand = .ok x) :
    ioctlCreate steps' s p arg rand = .ok x := by
  cases arg with
  | none => exact hok
  | some c =>
    simp only [ioctlCreate] at hok ⊢
    by_cases hbad : badSize c.toCoord = true
    · rwa [if_pos hbad] at hok ⊢
    rw [if_neg hbad] at hok ⊢
    cases hindex : getUserIndex s p with
    | some index =>
      simp only [hindex] at hok ⊢
      by_cases hlive : (s.mazeUserInfo index).isSome = true
      · rwa [if_pos hlive] at hok ⊢
      · rw [if_neg hlive, bind_eq_ok] at hok ⊢
        obtain ⟨y, hcreate, hrest⟩ := hok
        exact ⟨y, createMaze_mono hle hcreate, hrest⟩
    | none =>
      simp only [hindex] at hok ⊢
      by_cases hfull : (getEmptyIndex s).isNone = true
      · rwa [if_pos hfull] at hok ⊢
      · rw [if_neg hfull, bind_eq_ok] at hok ⊢
        obtain ⟨y, hcreate, hrest⟩ := hok
        exact ⟨y, createMaze_mono hle hcreate, hrest⟩

/-- `ONLY_FOR_Q3` -/
theorem ioctlOnlyForQ3_mono {steps' : ℕ} {arg : Option UserCoord} {x : Reply × State}
    (hle : steps ≤ steps') (hok : ioctlOnlyForQ3 steps s p arg rand = .ok x) :
    ioctlOnlyForQ3 steps' s p arg rand = .ok x := by
  cases arg with
  | none => exact hok
  | some c =>
    simp only [ioctlOnlyForQ3] at hok ⊢
    by_cases hbad : badSize c.toCoord = true
    · rwa [if_pos hbad] at hok ⊢
    · rw [if_neg hbad, bind_eq_ok] at hok ⊢
      obtain ⟨y, hcreate, hrest⟩ := hok
      exact ⟨y, createMaze_mono hle hcreate, hrest⟩

/-- and every operation. -/
theorem perform_mono {steps' : ℕ} {x : Reply × State} (hle : steps ≤ steps')
    (hok : perform steps s r = .ok x) : perform steps' s r = .ok x := by
  cases r with
  | ioctl p cmd rand =>
    cases cmd with
    | create arg => exact ioctlCreate_mono hle hok
    | onlyForQ3 arg => exact ioctlOnlyForQ3_mono hle hok
    | reset | destroy | move | getSize | getPos | getStart | getEnd | unknown => exact hok
  | read | write | close | procRead => exact hok

/-- The state and the operation determine the reply and the next state. -/
theorem Answers.unique {x y : Request × Reply} (hreq : x.1 = y.1) (hx : Answers s x s')
    (hy : Answers s y t) : x = y ∧ s' = t := by
  obtain ⟨steps, hx⟩ := hx
  obtain ⟨steps', hy⟩ := hy
  have hx' := perform_mono (Nat.le_max_left steps steps') hx
  have hy' := perform_mono (Nat.le_max_right steps steps') hy
  rw [← hreq] at hy'
  obtain ⟨hreply, hstate⟩ := Prod.mk.inj (Except.ok.inj (hx'.symm.trans hy'))
  exact ⟨Prod.ext hreq hreply, hstate⟩

/-- Processes that are kept apart do not disturb each other: in every run, a process whose
operations all keep it apart and whose creations are not refused gets the replies that it
gets alone. -/
theorem undisturbed_run {history : List (State × (Request × Reply))}
    (hrun : DeviceDialogue history s) (happart : EachStep (fun s x => issuedBy q x.1 = true →
      KeepsApart q s x.1) history) (hret : NotRefused q history) : Undisturbed q history := by
  have hsteps : EachStep (fun s x => (issuedBy q x.1 = true → KeepsApart q s x.1) ∧
      ∀ arg rand, x.1 = .ioctl q (.create arg) rand → x.2.ret ≠ -enomem) history :=
    fun x hx => ⟨happart x hx, hret x hx⟩
  obtain ⟨alone, t, hrun', hlabels, _⟩ := hrun.project (R := Mirrors q) (mirrors_init q)
    (fun s t ⟨r, reply⟩ s' hmirrors hown hcond hans =>
      hmirrors.answers hown (hcond.1 hown) hcond.2 hans)
    (fun s t x s' hmirrors hother hans =>
      hmirrors.of_leavesAlone (Answers.leavesAlone hother hans)) hsteps
  refine ⟨⟨alone, t, hrun', hlabels⟩, fun alone₂ t₂ hrun₂ hreqs => ?_⟩
  have hparts : (alone₂.map fun x => x.2.1) = alone.map fun x => x.2.1 := by
    rw [hreqs, ownDialogue, ← hlabels, List.map_map]
    rfl
  have hdet : ∀ (s : State) (x y : Request × Reply) (s₁ s₂ : State), x.1 = y.1 →
      Answers s x s₁ → Answers s y s₂ → x = y ∧ s₁ = s₂ := fun _ _ _ _ _ => Answers.unique
  obtain ⟨rfl, _⟩ := Run.eq_of_labels Prod.fst hdet hrun₂ hrun' hparts
  exact hlabels

/-! ## A sample table -/

/-- What `MAZE_CREATE` of a valid size returns in a table. -/
def SlotTable.createReply (t : SlotTable) (p : Process) : ℤ :=
  if t.HasMaze p then -eexist else if t.user p = none ∧ t.vacant = none then -enomem else 0

/-- The reply of `MAZE_CREATE` depends on the table only. -/
theorem ioctlCreate_reply {c : UserCoord} (hvalid : badSize c.toCoord = false)
    (hok : ioctlCreate steps s p (some c) rand = .ok (reply, s')) :
    reply = .code (s.table.createReply p) := by
  unfold createReply
  cases ioctlCreate_outcome hvalid hok with
  | present hmaze => rw [if_pos hmaze]
  | full huser hvacant =>
    have hmaze : ¬s.table.HasMaze p := fun ⟨i, hi, _⟩ => by simp [huser] at hi
    rw [if_neg hmaze, if_pos ⟨huser, hvacant⟩]
  | returned hmaze hroom _ => rw [if_neg hmaze, if_neg fun hfull => hroom hfull.1 hfull.2]

/-- A reply comes with a step. -/
theorem Answers.table {x : Request × Reply} (hans : Answers s x s') :
    s'.table = SlotTable.after s.table x.1 := by
  obtain ⟨steps, hok⟩ := hans
  exact Step.table ⟨steps, x.2, hok⟩

/-- A sample creation is answered as the table says. -/
theorem sampleCreate_reply {n : ℕ} (hans : Answers s (sampleCreate n, reply) s') :
    reply = .code (s.table.createReply (sampleProcess n)) := by
  obtain ⟨steps, hok⟩ := hans
  exact ioctlCreate_reply (c := sampleSize) (by decide) hok

theorem answers_sampleCreate (s : State) (n : ℕ) : ∃ s',
    Answers s (sampleCreate n, .code (s.table.createReply (sampleProcess n))) s' := by
  obtain ⟨steps, reply, s', hok⟩ := sampleCreate_returns s n
  have hans : Answers s (sampleCreate n, reply) s' := ⟨steps, hok⟩
  exact ⟨s', sampleCreate_reply hans ▸ hans⟩

/-- A process creates a maze beside the maze of another one. -/
theorem undisturbed_run_two : ∃ history s, DeviceDialogue history s ∧
    history.map (fun x => x.2.1) = [sampleCreate 1, sampleCreate 0] ∧
    Undisturbed (sampleProcess 1) history := by
  obtain ⟨s₁, hans₁⟩ := answers_sampleCreate .init 0
  obtain ⟨s₂, hans₂⟩ := answers_sampleCreate s₁ 1
  have hrun := (Run.start.step hans₁).step hans₂
  refine ⟨_, s₂, hrun, rfl, undisturbed_run hrun ?_ ?_⟩
  · simp only [eachStep_cons, eachStep_nil, and_true]
    refine ⟨fun _ _ _ _ => ?_, fun hown => absurd hown (by decide)⟩
    rw [hans₁.table]
    decide
  · simp only [NotRefused, List.forall_mem_cons, List.not_mem_nil, false_implies, implies_true,
      and_true]
    refine ⟨fun _ _ _ => ?_, fun _ _ _ => by decide⟩
    rw [hans₁.table]
    decide

/-- Three processes fill the table, a fourth one is refused, and the first one closes the
device and creates a maze again: it is told that it has one already, but not when it is
alone. -/
theorem not_undisturbed_refused : ¬∀ history s, DeviceDialogue history s → ∀ q,
    NotRefused q history → Undisturbed q history := by
  intro hall
  obtain ⟨s₁, hans₁⟩ := answers_sampleCreate .init 0
  obtain ⟨s₂, hans₂⟩ := answers_sampleCreate s₁ 1
  obtain ⟨s₃, hans₃⟩ := answers_sampleCreate s₂ 2
  obtain ⟨s₄, hans₄⟩ := answers_sampleCreate s₃ 3
  have hans₅ : Answers s₄ (.close (sampleProcess 0), .code 0)
      (mazemodDevClose s₄ (sampleProcess 0)) := ⟨0, rfl⟩
  obtain ⟨s₆, hans₆⟩ := answers_sampleCreate (mazemodDevClose s₄ (sampleProcess 0)) 0
  have hrun := (((((Run.start.step hans₁).step hans₂).step hans₃).step hans₄).step hans₅).step hans₆
  have hagain : createReply (mazemodDevClose s₄ (sampleProcess 0)).table (sampleProcess 0) =
      -eexist := by
    rw [hans₅.table, hans₄.table, hans₃.table, hans₂.table, hans₁.table]
    decide
  obtain ⟨⟨alone, t, halone, hsame⟩, _⟩ := hall _ _ hrun (sampleProcess 0) (by
    simp only [NotRefused, List.forall_mem_cons, List.not_mem_nil, false_implies, implies_true,
      and_true]
    exact ⟨fun _ _ _ => by rw [hagain]; decide, fun _ _ hreq => (by cases hreq),
      fun _ _ hreq => absurd (issuedBy_of_eq hreq) (by decide),
      fun _ _ hreq => absurd (issuedBy_of_eq hreq) (by decide),
      fun _ _ hreq => absurd (issuedBy_of_eq hreq) (by decide), fun _ _ _ => by decide⟩)
  have hown : alone.map Prod.snd = [(sampleCreate 0, .code (-eexist)),
      (.close (sampleProcess 0), .code 0),
      (sampleCreate 0, .code (createReply State.init.table (sampleProcess 0)))] := by
    rw [← hagain]
    exact hsame
  cases halone with
  | start => cases hown
  | step halone hlast =>
    cases halone with
    | start => cases hown
    | step halone hclose =>
      cases halone with
      | start => cases hown
      | step halone hfirst =>
        cases halone with
        | step => simp at hown
        | start =>
          simp only [List.map_cons, List.map_nil, List.cons.injEq, and_true] at hown
          obtain ⟨rfl, rfl, rfl⟩ := hown
          have hreply := sampleCreate_reply hlast
          rw [hclose.table, hfirst.table, Reply.code.injEq] at hreply
          revert hreply
          decide

end UnixProgramming.Mazemod
