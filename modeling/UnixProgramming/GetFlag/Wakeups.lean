import Mathlib.Algebra.BigOperators.Fin
import Mathlib.Algebra.Order.BigOperators.Group.Finset
import UnixProgramming.GetFlag.Jobs

/-!
# Signals

A thread that finds the list empty sleeps until `add_job` signals, and a signal that nobody
waits for is lost. Nevertheless a thread sleeps only while every job on the list has another
thread on its way to it, and a job that is on the list does not stay there for long: whatever
the order of steps, a job is taken before the threads run out of steps of their own.
-/

namespace UnixProgramming.GetFlag

variable {resolves : Text → IpAddr → Prop} {stdin stdin' server : Text} {s s' : State}
variable {w : Worker} {sh sh' : Shared} {pc pc' : JobPc} {wpc wpc' : WorkerPc} {mpc mpc' : MainPc}
variable {e : Event} {history : List (State × Event)}

/-! ## Nobody sleeps while there is work -/

/-- The thread is on its way to the list: it takes a job before it waits, if there is one. -/
def WorkerPc.looking : WorkerPc → Bool
  | .idle => true
  | .getJob => true
  | .front => true
  | .popFront _ => true
  | .woken => true
  | _ => false

/-- `main` has added a job and signals next. -/
def MainPc.signalling : MainPc → Bool
  | .addUnlock => true
  | .addSignal => true
  | _ => false

/-- The number of threads on their way to the list, and of signals on theirs to a thread. -/
def State.attention (s : State) : ℕ :=
  ∑ w, (s.worker w).looking.toNat + s.main.signalling.toNat

/-- Where a thread waits, every job has been noticed. -/
def State.Attended (s : State) : Prop :=
  ∀ w, s.worker w = .waiting → s.jobs.length ≤ s.attention

/-- One thread moves, and a sum over all threads changes in one place. -/
theorem sum_update {α : Type*} (f : α → ℕ) (g : Worker → α) (w : Worker) (x : α) :
    ∑ v, f (Function.update g w x v) + f (g w) = ∑ v, f (g v) + f x := by
  rw [← Finset.add_sum_erase _ _ (Finset.mem_univ w),
    ← Finset.add_sum_erase _ (fun v => f (g v)) (Finset.mem_univ w), Function.update_self]
  have hothers : ∑ v ∈ Finset.univ.erase w, f (Function.update g w x v) =
      ∑ v ∈ Finset.univ.erase w, f (g v) :=
    Finset.sum_congr rfl fun v hv => by rw [Function.update_of_ne (Finset.ne_of_mem_erase hv)]
  omega

/-- A thread that stops looking has taken a job, or there is none. -/
theorem WorkerStep.looking (hsees : wpc.Sees sh.jobs)
    (hstep : WorkerStep resolves w sh wpc e sh' wpc') :
    sh'.jobs = [] ∨ wpc' ≠ .waiting ∧
      sh'.jobs.length + wpc.looking.toNat ≤ sh.jobs.length + wpc'.looking.toNat := by
  cases hstep with
  | empty hpos => exact .inl (List.eq_nil_of_length_eq_zero (by omega))
  | @popFront t =>
    refine .inr ⟨by simp, ?_⟩
    have hlen := List.length_pos_of_mem (List.mem_of_mem_head? hsees)
    simp only [List.length_tail, WorkerPc.looking, Bool.toNat_true, Bool.toNat_false]
    omega
  | wait => exact .inl (hsees rfl)
  | job hjob =>
    refine .inr ⟨by simp, ?_⟩
    rw [hjob.jobs.1]
    exact le_rfl
  | _ => exact .inr ⟨by simp, by simp [WorkerPc.looking]⟩

/-- `main` adds a job only if it signals afterwards. -/
theorem MainStep.signalling (hstep : MainStep stdin sh mpc e stdin' sh' mpc') :
    sh'.jobs.length + mpc.signalling.toNat ≤ sh.jobs.length + mpc'.signalling.toNat := by
  cases hstep with
  | addPush => simp [MainPc.signalling]
  | _ => simp [MainPc.signalling]

/-- Every step keeps the jobs attended. A job that is added comes with a signal, which sends a thread to the
queue. -/
theorem Step.attended (hord : s.Orderly) (hatt : s.Attended) (hstep : Step resolves s e s') :
    s'.Attended := by
  intro v hv
  cases hstep with
  | main hmain =>
    have hbefore := hatt v hv
    have hsignal := hmain.signalling
    simp only [State.attention] at hbefore ⊢
    omega
  | @signal w hmain hw =>
    have hbefore := hatt w hw
    have hsum := sum_update (fun p => p.looking.toNat) s.worker w .woken
    simp only [State.attention, hmain, hw, WorkerPc.looking, MainPc.signalling, Bool.toNat_true,
      Bool.toNat_false] at hbefore hsum ⊢
    omega
  | unheard _ hnobody => exact absurd hv (hnobody v)
  | @worker w _ _ _ _ hworker =>
    rcases hworker.looking (hord.sees w) with hjobs | ⟨hawake, hlooking⟩
    · simp [hjobs]
    · have hne : v ≠ w := fun heq => hawake (by simpa [heq] using hv)
      have hbefore := hatt v (by simpa [hne] using hv)
      rename_i pc _
      have hsum := sum_update (fun p => p.looking.toNat) s.worker w pc
      simp only [State.attention] at hbefore ⊢
      omega

/-- So they are attended in every state that can be reached. -/
theorem reachable_attended (hreach : Reachable (State.init stdin) (Step resolves) s) :
    s.Attended := by
  have hinit : (State.init stdin).Attended := fun w hw => by simp [State.init] at hw
  have hboth : s.Orderly ∧ s.Attended :=
    hreach.invariant (P := fun s => s.Orderly ∧ s.Attended) ⟨init_orderly stdin, hinit⟩
      fun s e s' h hstep => ⟨hstep.orderly h.1, hstep.attended h.1 h.2⟩
  exact hboth.2

/-- In every reachable state, a thread waits only if there are at most as many jobs on the list
as there are other threads on their way to it, or one more when `main` is about to signal. -/
theorem no_lost_wakeup (hreach : Reachable (State.init stdin) (Step resolves) s)
    (hwaiting : s.worker w = .waiting) :
    s.jobs.length ≤ ∑ v, (s.worker v).looking.toNat + s.main.signalling.toNat := by
  exact reachable_attended hreach w hwaiting

/-- Both threads wait while a job is on the list and `main` is about to signal. -/
theorem no_lost_wakeup_signal : ∃ s,
    Reachable (State.init (feed "a/1".toList)) (Step fun _ _ => True) s ∧
      (∀ w, s.worker w = .waiting) ∧ s.jobs = ["a/1".toList] ∧
      s.jobs.length ≤ ∑ v, (s.worker v).looking.toNat + s.main.signalling.toNat := by
  have hfirst : Leads (Step fun _ _ => True) (State.init (feed "a/1".toList))
      (calm (fun _ => []) 0 (feed "a/1".toList) (Function.update (fun _ => .idle) 0 .waiting)) := by
    rw [init_eq_calm _ 0]
    exact leads_wait
  have hsecond : Leads (Step fun _ _ => True)
      (calm (fun _ => []) 0 (feed "a/1".toList) (Function.update (fun _ => .idle) 0 .waiting))
      (calm (fun _ => []) 0 (feed "a/1".toList ++ [])
        (Function.update (Function.update (fun _ => .idle) 0 .waiting) 1 .waiting)) := by
    rw [List.append_nil]
    exact leads_wait_of_idle (by simp)
  have hreach := (hfirst.trans (hsecond.trans (leads_push isJob_short))).reachable reachable_init
  have hwaiting : ∀ w : Worker,
      Function.update (Function.update (fun _ => WorkerPc.idle) 0 .waiting) 1 .waiting w =
        .waiting :=
    Fin.forall_fin_two.mpr ⟨rfl, rfl⟩
  exact ⟨_, hreach, hwaiting, rfl, no_lost_wakeup (w := 0) hreach (hwaiting 0)⟩

/-! ## A job on the list is taken -/

/-- The step is neither a line of input nor a spurious wakeup. -/
def Event.own : Event → Bool
  | .input => false
  | .spurious _ => false
  | _ => true

/-- The steps that are left of a job behind an update of its status, at most. -/
def Rest.rank : Rest → ℕ
  | .attempt i _ => 10 * (2 - i) + 1
  | .socket i _ _ => 10 * (1 - i) + 6
  | .done => 0

/-- The steps that are left of a job, at most. -/
def JobPc.rank : JobPc → ℕ
  | .parse => 25
  | .lookup _ _ => 24
  | .checkLocalhost _ => 23
  | .checkAny _ => 22
  | .rest r => r.rank
  | .connect i _ _ => 10 * (1 - i) + 5
  | .lock _ r => r.rank + 3
  | .write _ r => r.rank + 2
  | .unlock r => r.rank + 1

/-- The steps of a thread until it takes its next job or waits, at most. -/
def WorkerPc.rank : WorkerPc → ℕ
  | .idle => 4
  | .getJob => 3
  | .front => 2
  | .popFront _ => 1
  | .test s => if s = [] then 1 else 32
  | .waiting => 0
  | .woken => 4
  | .unlock _ => 31
  | .job _ pc => pc.rank + 5

/-- The steps of `main` until it reads its next line, with those of a thread that it wakes. -/
def MainPc.rank : MainPc → ℕ
  | .addLock _ => 8
  | .addPush _ => 7
  | .addUnlock => 6
  | .addSignal => 5
  | .listLock _ => 3
  | .list _ => 2
  | .listUnlock => 1
  | _ => 0

/-- The steps of all threads, at most. -/
def State.rank (s : State) : ℕ := ∑ w, (s.worker w).rank + s.main.rank

/-- Every step of a job brings it nearer to its end, -/
theorem JobStep.rank (hstep : JobStep resolves w server sh pc e sh' pc') :
    pc'.rank < pc.rank := by
  cases hstep <;> simp only [JobPc.rank, Rest.rank] <;> omega

/-- every step of a thread that takes no job brings it nearer to its next job or to the wait, -/
theorem WorkerStep.rank (hown : e.own = true) (htook : e.tookJob = none)
    (hstep : WorkerStep resolves w sh wpc e sh' wpc') : wpc'.rank < wpc.rank := by
  cases hstep with
  | spurious => simp [Event.own] at hown
  | popFront => simp [Event.tookJob] at htook
  | job hjob =>
    have := hjob.rank
    simp only [WorkerPc.rank]
    omega
  | got hne => simp [WorkerPc.rank, hne]
  | _ => simp [WorkerPc.rank, JobPc.rank, Rest.rank]

/-- and every step of the main thread that reads nothing brings it nearer to its next command. -/
theorem MainStep.rank (hown : e.own = true) (hstep : MainStep stdin sh mpc e stdin' sh' mpc') :
    mpc'.rank < mpc.rank := by
  cases hstep with
  | menu | askServer => simp [Event.own] at hown
  | _ => simp [MainPc.rank]

/-- A step of the threads lowers the rank, unless it takes a job. -/
theorem Step.rank (hown : e.own = true) (htook : e.tookJob = none)
    (hstep : Step resolves s e s') : s'.rank < s.rank := by
  cases hstep with
  | main hmain =>
    have := hmain.rank hown
    simp only [State.rank]
    omega
  | @signal w hmain hw =>
    have hsum := sum_update WorkerPc.rank s.worker w .woken
    simp only [State.rank, hmain, hw, WorkerPc.rank, MainPc.rank] at hsum ⊢
    omega
  | unheard hmain => simp [State.rank, hmain, MainPc.rank]
  | @worker w _ _ pc _ hworker =>
    have hlower := hworker.rank hown htook
    have hsum := sum_update WorkerPc.rank s.worker w pc
    simp only [State.rank]
    omega

/-- The ranks are bounded: for the attempts, -/
theorem Rest.rank_le (r : Rest) : r.rank ≤ 21 := by
  cases r <;> simp only [Rest.rank] <;> omega

/-- for a whole job -/
theorem JobPc.rank_le : pc.rank ≤ 25 := by
  cases pc with
  | rest r | lock _ r | write _ r | unlock r =>
    have := r.rank_le
    simp only [JobPc.rank]
    omega
  | _ => simp only [JobPc.rank]; omega

/-- and for a thread. -/
theorem WorkerPc.rank_le : wpc.rank ≤ 32 := by
  cases wpc with
  | job _ pc =>
    have := pc.rank_le
    simp only [WorkerPc.rank]
    omega
  | test s =>
    simp only [WorkerPc.rank]
    split <;> omega
  | _ => simp [WorkerPc.rank]

/-- No state leaves more than 72 steps. -/
theorem State.rank_le (s : State) : s.rank ≤ 72 := by
  have h₀ : (s.worker 0).rank ≤ 32 := WorkerPc.rank_le
  have h₁ : (s.worker 1).rank ≤ 32 := WorkerPc.rank_le
  have hmain : s.main.rank ≤ 8 := by cases s.main <;> simp [MainPc.rank]
  simp only [State.rank, Fin.sum_univ_two]
  omega

/-- A job waits for nothing but the mutex, -/
theorem JobPc.can_step (hfree : pc.inside = true ∨ sh.mutex = none) (hdone : pc ≠ .rest .done) :
    ∃ e sh' pc', e.own = true ∧ JobStep resolves w server sh pc e sh' pc' := by
  cases pc with
  | parse =>
    cases hparse : parseJob server with
    | none => exact ⟨_, _, _, rfl, .incorrect hparse⟩
    | some r =>
      obtain ⟨host, port⟩ := r
      exact ⟨_, _, _, rfl, .parsed hparse⟩
  | lookup host port => exact ⟨_, _, _, rfl, .unresolved⟩
  | checkLocalhost port =>
    by_cases heq : sh.hostAddr = localhost
    · exact ⟨_, _, _, rfl, .isLocalhost heq⟩
    · exact ⟨_, _, _, rfl, .notLocalhost heq⟩
  | checkAny port =>
    by_cases heq : sh.hostAddr = anyHost
    · exact ⟨_, _, _, rfl, .isAnyHost heq⟩
    · exact ⟨_, _, _, rfl, .notAnyHost heq⟩
  | rest r =>
    cases r with
    | attempt i port =>
      by_cases hi : i < 2
      · exact ⟨_, _, _, rfl, .attempt hi⟩
      · exact ⟨_, _, _, rfl, .givenUp hi⟩
    | socket i a port => exact ⟨_, _, _, rfl, .socket⟩
    | done => exact absurd rfl hdone
  | connect i a port => exact ⟨_, _, _, rfl, .failed []⟩
  | lock msg r =>
    rcases hfree with hinside | hfree
    · simp [JobPc.inside] at hinside
    · exact ⟨_, _, _, rfl, .lock hfree⟩
  | write msg r => exact ⟨_, _, _, rfl, .write⟩
  | unlock r => exact ⟨_, _, _, rfl, .unlock⟩

/-- and a thread for nothing but the mutex and a signal. -/
theorem WorkerPc.can_step (hsees : wpc.Sees sh.jobs)
    (hfree : wpc.inside = true ∨ wpc ≠ .waiting ∧ sh.mutex = none) :
    ∃ e sh' wpc', e.own = true ∧ WorkerStep resolves w sh wpc e sh' wpc' := by
  cases wpc with
  | idle =>
    rcases hfree with hinside | ⟨-, hfree⟩
    · simp [WorkerPc.inside] at hinside
    · exact ⟨_, _, _, rfl, .lock hfree⟩
  | getJob =>
    by_cases hpos : sh.jobs.length > 0
    · exact ⟨_, _, _, rfl, .found hpos⟩
    · exact ⟨_, _, _, rfl, .empty hpos⟩
  | front =>
    obtain ⟨t, rest, hjobs⟩ := List.exists_cons_of_ne_nil hsees
    exact ⟨_, _, _, rfl, .front (s := t) (by simp [hjobs])⟩
  | popFront t => exact ⟨_, _, _, rfl, .popFront⟩
  | test t =>
    by_cases ht : t = []
    · subst ht
      exact ⟨_, _, _, rfl, .wait⟩
    · exact ⟨_, _, _, rfl, .got ht⟩
  | waiting => simp [WorkerPc.inside] at hfree
  | woken =>
    rcases hfree with hinside | ⟨-, hfree⟩
    · simp [WorkerPc.inside] at hinside
    · exact ⟨_, _, _, rfl, .relock hfree⟩
  | unlock t => exact ⟨_, _, _, rfl, .unlock⟩
  | job server pc =>
    by_cases hdone : pc = .rest .done
    · subst hdone
      exact ⟨_, _, _, rfl, .finish⟩
    · have hjob : ∃ e sh' pc', e.own = true ∧ JobStep resolves w server sh pc e sh' pc' :=
        JobPc.can_step (hfree.imp id And.right) hdone
      obtain ⟨e, sh', pc', hown, hjob⟩ := hjob
      exact ⟨e, sh', _, hown, .job hjob⟩

/-- `main` waits for its input, for the mutex, or not at all. -/
theorem MainPc.can_step (hpc : mpc ≠ .menu ∧ mpc ≠ .askServer ∧ mpc ≠ .exited ∧ mpc ≠ .addSignal)
    (hfree : mpc.inside = true ∨ sh.mutex = none) :
    ∃ e sh' mpc', e.own = true ∧ MainStep stdin sh mpc e stdin sh' mpc' := by
  cases mpc with
  | addLock t =>
    rcases hfree with hinside | hfree
    · simp [MainPc.inside] at hinside
    · exact ⟨_, _, _, rfl, .addLock hfree⟩
  | addPush t => exact ⟨_, _, _, rfl, .addPush⟩
  | addUnlock => exact ⟨_, _, _, rfl, .addUnlock⟩
  | listLock what =>
    rcases hfree with hinside | hfree
    · simp [MainPc.inside] at hinside
    · exact ⟨_, _, _, rfl, .listLock hfree⟩
  | list what =>
    cases what with
    | jobs => exact ⟨_, _, _, rfl, .listJobs⟩
    | status => exact ⟨_, _, _, rfl, .listStatus⟩
  | listUnlock => exact ⟨_, _, _, rfl, .listUnlock⟩
  | _ => simp at hpc

/-- A thread that can take a step of its own lets the system take one, while the main thread has
not ended it. -/
theorem Step.of_worker (hmain : s.main ≠ .exited)
    (hstep : ∃ e sh' wpc', e.own = true ∧
      WorkerStep resolves w s.toShared (s.worker w) e sh' wpc') :
    ∃ e s', e.own = true ∧ Step resolves s e s' := by
  obtain ⟨e, sh', wpc', hown, hworker⟩ := hstep
  exact ⟨e, _, hown, .worker hmain hworker⟩

/-- So does the main thread. -/
theorem Step.of_main (hstep : ∃ e sh' mpc', e.own = true ∧
      MainStep s.stdin s.toShared s.main e s.stdin sh' mpc') :
    ∃ e s', e.own = true ∧ Step resolves s e s' := by
  obtain ⟨e, sh', mpc', hown, hmain⟩ := hstep
  exact ⟨e, _, hown, .main hmain⟩

/-- The signal is a step, whoever waits. -/
theorem Step.of_signal (hmain : s.main = .addSignal) :
    ∃ e s', e.own = true ∧ Step resolves s e s' := by
  by_cases hsome : ∃ w, s.worker w = .waiting
  · obtain ⟨w, hw⟩ := hsome
    exact ⟨_, _, rfl, .signal hmain hw⟩
  · exact ⟨_, _, rfl, .unheard hmain fun w hw => hsome ⟨w, hw⟩⟩

/-- While a job is on the list, some thread can go on. -/
theorem State.can_step (hord : s.Orderly) (hatt : s.Attended) (hjobs : s.jobs ≠ [])
    (hrunning : s.main ≠ .exited) : ∃ e s', e.own = true ∧ Step resolves s e s' := by
  cases hmutex : s.mutex with
  | some t =>
    have hinside := (hord.exclusive t).mp hmutex
    cases t with
    | main =>
      refine Step.of_main (MainPc.can_step ?_ (.inl hinside))
      refine ⟨?_, ?_, hrunning, ?_⟩ <;> intro heq <;>
        simp [State.inside, heq, MainPc.inside] at hinside
    | worker w => exact Step.of_worker hrunning (WorkerPc.can_step (hord.sees w) (.inl hinside))
  | none =>
    by_cases hsignal : s.main = .addSignal
    · exact Step.of_signal hsignal
    by_cases hinput : s.main = .menu ∨ s.main = .askServer
    · -- main is at its input, so one of the threads is awake
      have hawake : ∃ w, s.worker w ≠ .waiting := by
        by_contra hall
        push Not at hall
        have hlen := hatt 0 (hall 0)
        have hquiet : s.main.signalling = false := by
          rcases hinput with heq | heq <;> simp [heq, MainPc.signalling]
        simp [State.attention, hall, hquiet, WorkerPc.looking, hjobs] at hlen
      obtain ⟨w, hw⟩ := hawake
      exact Step.of_worker hrunning (WorkerPc.can_step (hord.sees w) (.inr ⟨hw, hmutex⟩))
    · refine Step.of_main (MainPc.can_step ⟨?_, ?_, hrunning, hsignal⟩ (.inr hmutex))
      · exact fun heq => hinput (.inl heq)
      · exact fun heq => hinput (.inr heq)

/-- Without a line of input `main` does not return, -/
theorem MainStep.running (hown : e.own = true)
    (hstep : MainStep stdin sh mpc e stdin' sh' mpc') : mpc' ≠ .exited := by
  cases hstep with
  | menu | askServer => simp [Event.own] at hown
  | _ => simp

/-- and a job that is not taken stays on the list. -/
theorem Step.pending (hown : e.own = true) (htook : e.tookJob = none)
    (hpending : s.jobs ≠ [] ∧ s.main ≠ .exited) (hstep : Step resolves s e s') :
    s'.jobs ≠ [] ∧ s'.main ≠ .exited := by
  cases hstep with
  | main hmain =>
    refine ⟨?_, hmain.running hown⟩
    rcases hmain.jobs.2 with ⟨t, -, -, -, hjobs⟩ | ⟨hjobs, -⟩
    · simp [hjobs]
    · simpa [hjobs] using hpending.1
  | signal | unheard => exact ⟨hpending.1, by simp⟩
  | worker _ hworker =>
    refine ⟨?_, hpending.2⟩
    rcases hworker.jobs.2 with ⟨t, -, -, rfl, -⟩ | ⟨hjobs, -⟩
    · simp [Event.tookJob] at htook
    · simpa [hjobs] using hpending.1

/-- From every reachable state with a job on the list in which `main` has not returned: as long
as the threads take steps of their own but no job, in whatever order, they can go on, and they
do so for no more than 72 steps. -/
theorem job_is_taken (hreach : Reachable (State.init stdin) (Step resolves) s)
    (hpending : s.jobs ≠ [] ∧ s.main ≠ .exited) (hrun : Run s (Step resolves) history s')
    (hsteps : EachStep (fun _ e => e.own = true ∧ e.tookJob = none) history) :
    history.length ≤ 72 ∧ ∃ e s'', e.own = true ∧ Step resolves s' e s'' := by
  have hlower : ∀ s e s', e.own = true ∧ e.tookJob = none → Step resolves s e s' →
      s'.rank < s.rank := fun _ _ _ h hstep => hstep.rank h.1 h.2
  have hlength := hrun.length_le_of_rank hlower hsteps
  have hafter : s'.jobs ≠ [] ∧ s'.main ≠ .exited :=
    (hrun.throughout_of_step (P := fun s => s.jobs ≠ [] ∧ s.main ≠ .exited) hpending
      (fun _ _ _ hbefore h hstep => hstep.pending h.1 h.2 hbefore) hsteps).1
  have hreach' := hreach.run hrun
  refine ⟨by have := s.rank_le; omega, ?_⟩
  exact State.can_step (reachable_orderly hreach') (reachable_attended hreach') hafter.1 hafter.2

/-- A job has been added, and one of the two threads has locked the mutex and seen it. -/
theorem job_is_taken_added : ∃ s history s',
    Reachable (State.init (feed "a/1".toList)) (Step fun _ _ => True) s ∧
      s.jobs = ["a/1".toList] ∧ Run s (Step fun _ _ => True) history s' ∧
      s'.worker 0 = .front ∧ history.length ≤ 72 ∧
      ∃ e s'', e.own = true ∧ Step (fun _ _ => True) s' e s'' := by
  let s : State := ⟨⟨none, ["a/1".toList], fun _ => [], 0⟩, [], .menu, fun _ => .idle⟩
  have hadd : Leads (Step fun _ _ => True) (State.init (feed "a/1".toList)) s := by
    have hcalm : State.init (feed "a/1".toList) =
        calm (fun _ => []) 0 (feed "a/1".toList ++ []) fun _ => .idle := by simp [State.init, calm]
    rw [hcalm]
    exact leads_add isJob_short fun _ => by simp
  let s₁ : State := ⟨⟨some (.worker 0), ["a/1".toList], fun _ => [], 0⟩, [], .menu,
    Function.update (fun _ => .idle) 0 .getJob⟩
  have hlock : Step (fun _ _ => True) s .internal s₁ := .worker (by simp [s]) (.lock rfl)
  have hfound : Step (fun _ _ => True) s₁ .internal
      { s₁ with worker := Function.update s₁.worker 0 .front } :=
    .worker (by simp [s₁]) (.found (by simp [s₁]))
  have hrun := Run.step (Run.step .start hlock) hfound
  refine ⟨s, _, _, hadd.reachable reachable_init, rfl, hrun, rfl, ?_⟩
  exact job_is_taken (hadd.reachable reachable_init) (by simp [s]) hrun
    (by simp [Event.own, Event.tookJob])

end UnixProgramming.GetFlag
