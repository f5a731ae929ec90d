import UnixProgramming.Lib.Mutexes
import UnixProgramming.GetFlag.Schedules

/-!
# The job list

The list is changed by one thread at a time, so what a thread reads of it stays true until the
thread gives the mutex back. Every job that is added is taken once, in the order in which the
jobs were added.
-/

namespace UnixProgramming.GetFlag

variable {resolves : Text → IpAddr → Prop} {stdin stdin' server : Text} {s s' : State}
variable {w : Worker} {sh sh' : Shared} {pc pc' : JobPc} {wpc wpc' : WorkerPc} {mpc mpc' : MainPc}
variable {e : Event} {history : List (State × Event)}

/-! ## The mutex -/

/-- The job has the mutex. -/
def JobPc.inside : JobPc → Bool
  | .write .. => true
  | .unlock _ => true
  | _ => false

/-- The thread has the mutex. -/
def WorkerPc.inside : WorkerPc → Bool
  | .getJob => true
  | .front => true
  | .popFront _ => true
  | .test _ => true
  | .unlock _ => true
  | .job _ pc => pc.inside
  | _ => false

/-- `main` has the mutex. -/
def MainPc.inside : MainPc → Bool
  | .addPush _ => true
  | .addUnlock => true
  | .list _ => true
  | .listUnlock => true
  | _ => false

/-- The threads inside of a critical section. -/
def State.inside (s : State) : Thread → Bool
  | .main => s.main.inside
  | .worker w => (s.worker w).inside

/-- The mutex keeps the threads apart. -/
def State.Exclusive (s : State) : Prop := Excludes s.mutex s.inside

/-- A step of a job uses the mutex as its place says: the writes to the status are inside, all
else is outside. -/
theorem JobStep.mutexUse (hstep : JobStep resolves w server sh pc e sh' pc') :
    MutexUse (.worker w) sh.mutex pc.inside sh'.mutex pc'.inside := by
  cases hstep with
  | lock hfree =>
    rw [hfree]
    exact .take
  | unlock => exact .give
  | _ => exact .keep

/-- So does a step of a thread, which waits for the signal outside and takes its job inside. -/
theorem WorkerStep.mutexUse (hstep : WorkerStep resolves w sh wpc e sh' wpc') :
    MutexUse (.worker w) sh.mutex wpc.inside sh'.mutex wpc'.inside := by
  cases hstep with
  | lock hfree | relock hfree =>
    rw [hfree]
    exact .take
  | wait | unlock => exact .give
  | job hjob => exact hjob.mutexUse
  | _ => exact .keep

/-- The main thread holds nothing after it has read a command, -/
theorem command_inside (c : Option Char) : (command c).inside = false := by
  unfold command
  split <;> rfl

/-- nor after it has read what is asked for. -/
theorem request_inside (line : Text) : (request line).inside = false := by
  unfold request
  split <;> rfl

/-- Its steps use the mutex while they add a job, and while they show one. -/
theorem MainStep.mutexUse (hstep : MainStep stdin sh mpc e stdin' sh' mpc') :
    MutexUse .main sh.mutex mpc.inside sh'.mutex mpc'.inside := by
  cases hstep with
  | menu =>
    rw [command_inside]
    exact .keep
  | askServer =>
    rw [request_inside]
    exact .keep
  | addLock hfree | listLock hfree =>
    rw [hfree]
    exact .take
  | addUnlock | listUnlock => exact .give
  | _ => exact .keep

/-- A signal changes no more than who waits. -/
theorem inside_signal (hmain : s.main = .addSignal) (hw : s.worker w = .waiting) (t : Thread) :
    ({ s with main := .menu, worker := Function.update s.worker w .woken } : State).inside t =
      s.inside t := by
  cases t with
  | main => simp [State.inside, hmain, MainPc.inside]
  | worker w' =>
    by_cases hw' : w' = w
    · simp [State.inside, hw', hw, WorkerPc.inside]
    · simp [State.inside, hw']

/-- Every step keeps the mutual exclusion. What one thread does to the mutex is the concern of
`MutexUse`. -/
theorem Step.exclusive (hexcl : s.Exclusive) (hstep : Step resolves s e s') : s'.Exclusive := by
  cases hstep with
  | main hmain =>
    refine hexcl.step (t := .main) hmain.mutexUse fun t hne => ?_
    cases t with
    | main => exact absurd rfl hne
    | worker w => rfl
  | signal hmain hw => exact fun t => by rw [inside_signal hmain hw]; exact hexcl t
  | unheard hmain _ =>
    refine hexcl.step (t := .main) ?_ fun t hne => ?_
    · simp only [State.inside, hmain]
      exact .keep
    · cases t with
      | main => exact absurd rfl hne
      | worker w => rfl
  | @worker w _ _ _ _ hworker =>
    refine hexcl.step (t := .worker w) ?_ fun t hne => ?_
    · simpa [State.inside] using hworker.mutexUse
    · cases t with
      | main => rfl
      | worker w' =>
        have hw' : w' ≠ w := fun heq => hne (by rw [heq])
        simp [State.inside, hw']

/-! ## What a thread knows of the list -/

/-- The job that a step adds to the list. -/
def Event.addedJob : Event → Option Text
  | .added s => some s
  | _ => none

/-- The job that a step takes from the list. -/
def Event.tookJob : Event → Option Text
  | .took _ s => some s
  | _ => none

/-- What a thread inside has read of the list. -/
def WorkerPc.Sees (jobs : List Text) : WorkerPc → Prop
  | .front => jobs ≠ []
  | .popFront s => jobs.head? = some s
  | .test s => s = [] → jobs = []
  | _ => True

/-- The job that `main` is about to add. -/
def MainPc.adding : MainPc → Option Text
  | .addLock s => some s
  | .addPush s => some s
  | _ => none

/-- A thread outside has read nothing. -/
theorem WorkerPc.sees_of_outside {jobs : List Text} (houtside : wpc.inside = false) :
    wpc.Sees jobs := by
  cases wpc with
  | front | popFront | test => simp [WorkerPc.inside] at houtside
  | _ => trivial

/-- A job leaves the list alone. -/
theorem JobStep.jobs (hstep : JobStep resolves w server sh pc e sh' pc') :
    sh'.jobs = sh.jobs ∧ e.addedJob = none ∧ e.tookJob = none := by
  cases hstep <;> exact ⟨rfl, rfl, rfl⟩

/-- A thread takes the job that it has read at the front, or leaves the list alone. -/
theorem WorkerStep.jobs (hstep : WorkerStep resolves w sh wpc e sh' wpc') :
    e.addedJob = none ∧
      ((∃ t, wpc = .popFront t ∧ wpc' = .test t ∧ e = .took w t ∧ sh'.jobs = sh.jobs.tail) ∨
        sh'.jobs = sh.jobs ∧ e.tookJob = none) := by
  cases hstep with
  | popFront => exact ⟨rfl, .inl ⟨_, rfl, rfl, rfl, rfl⟩⟩
  | job hjob => exact ⟨hjob.jobs.2.1, .inr ⟨hjob.jobs.1, hjob.jobs.2.2⟩⟩
  | _ => exact ⟨rfl, .inr ⟨rfl, rfl⟩⟩

/-- `main` appends the job that it was asked for, or leaves the list alone. -/
theorem MainStep.jobs (hstep : MainStep stdin sh mpc e stdin' sh' mpc') :
    e.tookJob = none ∧
      ((∃ t, mpc = .addPush t ∧ mpc' = .addUnlock ∧ e = .added t ∧ sh'.jobs = sh.jobs ++ [t]) ∨
        sh'.jobs = sh.jobs ∧ e.addedJob = none) := by
  cases hstep with
  | addPush => exact ⟨rfl, .inl ⟨_, rfl, rfl, rfl, rfl⟩⟩
  | _ => exact ⟨rfl, .inr ⟨rfl, rfl⟩⟩

/-- What is asked for is not empty. -/
theorem request_adding {line t : Text} (hadding : (request line).adding = some t) :
    firstWord line = some t := by
  unfold request at hadding
  split at hadding
  · next ptr hptr =>
    rw [hptr]
    exact hadding
  · simp [MainPc.adding] at hadding

/-- No command adds a job by itself. -/
theorem command_adding (c : Option Char) : (command c).adding = none := by
  unfold command
  split <;> rfl

/-- `main` adds what it was asked for. -/
theorem MainStep.adding {t : Text} (hstep : MainStep stdin sh mpc e stdin' sh' mpc')
    (hadding : mpc'.adding = some t) : mpc.adding = some t ∨
      mpc = .askServer ∧ firstWord (readLine '\n' 255 stdin).1 = some t := by
  cases hstep with
  | menu => simp [command_adding] at hadding
  | askServer => exact .inr ⟨rfl, request_adding hadding⟩
  | addLock => exact .inl hadding
  | _ => simp [MainPc.adding] at hadding

/-- Where the mutex is used as it should, no job is empty, and what the threads have read is
still true. -/
structure State.Orderly (s : State) : Prop where
  exclusive : s.Exclusive
  adding : ∀ t, s.main.adding = some t → t ≠ []
  jobs : ∀ t ∈ s.jobs, t ≠ []
  sees : ∀ w, (s.worker w).Sees s.jobs

/-- What a thread has read of the list is true after its own steps. -/
theorem WorkerStep.sees (hjobs : ∀ t ∈ sh.jobs, t ≠ []) (hsees : wpc.Sees sh.jobs)
    (hstep : WorkerStep resolves w sh wpc e sh' wpc') : wpc'.Sees sh'.jobs := by
  cases hstep with
  | found hpos => exact List.length_pos_iff.mp hpos
  | empty hpos => exact fun _ => List.eq_nil_of_length_eq_zero (by omega)
  | front hhead => exact hhead
  | popFront =>
    intro heq
    exact absurd heq (hjobs _ (List.mem_of_mem_head? hsees))
  | _ => trivial

/-- It is true after a step of another thread, which changes the list from the inside only. -/
theorem sees_of_other {jobs : List Text} {t : Thread} (hexcl : s.Exclusive)
    (hsees : (s.worker w).Sees s.jobs) (hne : t ≠ .worker w)
    (hchange : jobs = s.jobs ∨ s.inside t = true) : (s.worker w).Sees jobs := by
  rcases hchange with rfl | hinside
  · exact hsees
  · have houtside : s.inside (.worker w) = false := hexcl.outside hinside hne.symm
    exact WorkerPc.sees_of_outside houtside

/-- At the beginning nobody holds anything, and the queue is empty. -/
theorem init_orderly (stdin : Text) : (State.init stdin).Orderly where
  exclusive := excludes_init fun t => by cases t <;> rfl
  adding t ht := by simp [State.init, MainPc.adding] at ht
  jobs t ht := by simp [State.init] at ht
  sees _ := trivial

/-- Every step keeps the order of the queue. The cases are the threads, with one lemma each. -/
theorem Step.orderly (hord : s.Orderly) (hstep : Step resolves s e s') : s'.Orderly := by
  refine ⟨hstep.exclusive hord.exclusive, ?_, ?_, ?_⟩
  · cases hstep with
    | main hmain =>
      intro t ht
      rcases hmain.adding ht with hbefore | ⟨-, hline⟩
      · exact hord.adding t hbefore
      · exact (isWord_of_firstWord hline).1
    | signal | unheard => exact fun t ht => by simp [MainPc.adding] at ht
    | worker => exact hord.adding
  · cases hstep with
    | main hmain =>
      rcases hmain.jobs.2 with ⟨t, hpc, -, -, hjobs⟩ | ⟨hjobs, -⟩
      · intro u hu
        rw [hjobs, List.mem_append, List.mem_singleton] at hu
        rcases hu with hu | rfl
        · exact hord.jobs u hu
        · exact hord.adding u (by rw [hpc]; rfl)
      · exact fun u hu => hord.jobs u (hjobs ▸ hu)
    | signal | unheard => exact hord.jobs
    | worker _ hworker =>
      rcases hworker.jobs.2 with ⟨t, -, -, -, hjobs⟩ | ⟨hjobs, -⟩
      · exact fun u hu => hord.jobs u (List.mem_of_mem_tail (hjobs ▸ hu))
      · exact fun u hu => hord.jobs u (hjobs ▸ hu)
  · cases hstep with
    | main hmain =>
      intro w
      refine sees_of_other (s := s) (t := .main) hord.exclusive (hord.sees w) (by simp) ?_
      rcases hmain.jobs.2 with ⟨t, hpc, -, -, -⟩ | ⟨hjobs, -⟩
      · exact .inr (by simp [State.inside, hpc, MainPc.inside])
      · exact .inl hjobs
    | @signal w =>
      intro w'
      by_cases hw' : w' = w
      · simp [hw', WorkerPc.Sees]
      · simpa [hw'] using hord.sees w'
    | unheard => exact hord.sees
    | @worker w _ _ _ _ hworker =>
      intro w'
      by_cases hw' : w' = w
      · simpa [hw'] using hworker.sees hord.jobs (hord.sees w)
      · simp only [Function.update_of_ne hw']
        refine sees_of_other (s := s) (t := .worker w) hord.exclusive (hord.sees w') ?_ ?_
        · exact fun heq => hw' (Thread.worker.inj heq).symm
        · rcases hworker.jobs.2 with ⟨t, hpc, -, -, -⟩ | ⟨hjobs, -⟩
          · exact .inr (by simp [State.inside, hpc, WorkerPc.inside])
          · exact .inl hjobs

/-- So every state that can be reached is orderly. -/
theorem reachable_orderly (hreach : Reachable (State.init stdin) (Step resolves) s) : s.Orderly :=
  hreach.invariant (init_orderly stdin) fun _ _ _ hord hstep => hstep.orderly hord

/-! ## First in, first out -/

/-- The job that a step of thread `w` takes from the list. -/
def Event.tookBy (w : Worker) : Event → Option Text
  | .took w' s => if w' = w then some s else none
  | _ => none

/-- The jobs that were added in a history, the first one first. -/
def addedJobs (history : List (State × Event)) : List Text :=
  history.reverse.filterMap fun x => x.2.addedJob

/-- The jobs that were taken, the first one first. -/
def takenJobs (history : List (State × Event)) : List Text :=
  history.reverse.filterMap fun x => x.2.tookJob

/-- The job that a thread took last. -/
def lastTook (w : Worker) (history : List (State × Event)) : Option Text :=
  history.findSome? fun x => x.2.tookBy w

/-- The newest event comes last among the jobs that have been added, -/
@[simp] theorem addedJobs_cons : addedJobs ((s, e) :: history) =
    addedJobs history ++ e.addedJob.toList := by
  cases h : e.addedJob <;> simp [addedJobs, h]

/-- and among those that have been taken. -/
@[simp] theorem takenJobs_cons : takenJobs ((s, e) :: history) =
    takenJobs history ++ e.tookJob.toList := by
  cases h : e.tookJob <;> simp [takenJobs, h]

/-- The job that a thread has taken, until it is done. -/
def WorkerPc.taken : WorkerPc → Option Text
  | .test s => if s = [] then none else some s
  | .unlock s => some s
  | .job s _ => some s
  | _ => none

/-- The step that takes a job is the one behind which the thread has it. -/
theorem WorkerStep.taken {t : Text} (hstep : WorkerStep resolves w sh wpc e sh' wpc')
    (htaken : wpc'.taken = some t) :
    e.tookBy w = some t ∨ wpc.taken = some t ∧ e.tookBy w = none := by
  cases hstep with
  | popFront =>
    simp only [WorkerPc.taken, Option.ite_none_left_eq_some] at htaken
    exact .inl (by simpa [Event.tookBy] using htaken.2)
  | got hne => exact .inr ⟨by simpa [WorkerPc.taken, hne] using htaken, rfl⟩
  | unlock => exact .inr ⟨htaken, rfl⟩
  | job hjob =>
    refine .inr ⟨htaken, ?_⟩
    cases hjob <;> rfl
  | _ => simp [WorkerPc.taken] at htaken

/-- `main` takes no job, -/
theorem MainStep.tookBy (hstep : MainStep stdin sh mpc e stdin' sh' mpc') :
    e.tookBy w = none := by
  cases hstep <;> rfl

/-- and the other threads take no job in the name of `w`. -/
theorem WorkerStep.tookBy_other {w' : Worker} (hstep : WorkerStep resolves w sh wpc e sh' wpc')
    (hne : w ≠ w') : e.tookBy w' = none := by
  cases hstep with
  | popFront => simp [Event.tookBy, hne]
  | job hjob => cases hjob <;> rfl
  | _ => rfl

/-- The list is what was added and not yet taken. -/
theorem Step.jobs {added taken : List Text} (hord : s.Orderly) (hjobs : added = taken ++ s.jobs)
    (hstep : Step resolves s e s') :
    added ++ e.addedJob.toList = taken ++ e.tookJob.toList ++ s'.jobs := by
  subst hjobs
  cases hstep with
  | main hmain =>
    obtain ⟨htook, ⟨t, -, -, rfl, hjobs⟩ | ⟨hjobs, hadded⟩⟩ := hmain.jobs
    · simp [hjobs, Event.addedJob, Event.tookJob]
    · simp [hjobs, hadded, htook]
  | signal | unheard => simp [Event.addedJob, Event.tookJob]
  | @worker w _ _ _ _ hworker =>
    obtain ⟨hadded, ⟨t, hpc, -, rfl, hjobs⟩ | ⟨hjobs, htook⟩⟩ := hworker.jobs
    · have hsees := hord.sees w
      rw [hpc] at hsees
      simp [hadded, hjobs, Event.tookJob, List.cons_head?_tail hsees]
    · simp [hjobs, hadded, htook]

/-- A thread that has a job took it last. -/
theorem Step.lastTook {t : Text}
    (hlast : ∀ w t, (s.worker w).taken = some t → lastTook w history = some t)
    (hstep : Step resolves s e s') (htaken : (s'.worker w).taken = some t) :
    lastTook w ((s, e) :: history) = some t := by
  rw [GetFlag.lastTook, List.findSome?_cons]
  cases hstep with
  | main hmain =>
    rw [hmain.tookBy]
    exact hlast w t htaken
  | @signal w' _ hw' =>
    by_cases hw : w = w'
    · simp [hw, WorkerPc.taken] at htaken
    · exact hlast w t (by simpa [hw] using htaken)
  | unheard => exact hlast w t htaken
  | @worker w' _ _ _ _ hworker =>
    by_cases hw : w = w'
    · subst hw
      rcases hworker.taken (by simpa using htaken) with htook | ⟨hbefore, hnone⟩
      · rw [htook]
      · rw [hnone]
        exact hlast w t hbefore
    · rw [hworker.tookBy_other (Ne.symm hw)]
      exact hlast w t (by simpa [hw] using htaken)

/-- The queue holds what has been added and not yet taken, in this order. -/
theorem run_addedJobs (hrun : Run (State.init stdin) (Step resolves) history s) :
    addedJobs history = takenJobs history ++ s.jobs := by
  induction hrun with
  | start => rfl
  | step hrun hstep ih =>
    rw [addedJobs_cons, takenJobs_cons]
    exact hstep.jobs (reachable_orderly ⟨_, hrun⟩) ih

/-- A thread has the job that it has taken last. -/
theorem run_lastTook (hrun : Run (State.init stdin) (Step resolves) history s) :
    ∀ w t, (s.worker w).taken = some t → lastTook w history = some t := by
  induction hrun with
  | start => exact fun w t htaken => by simp [State.init, WorkerPc.taken] at htaken
  | step _ hstep ih => exact fun w t htaken => hstep.lastTook ih htaken

/-- Only `check_job` prints the list, -/
theorem MainStep.listed {jobs : List Text}
    (hstep : MainStep stdin sh mpc (.listed jobs) stdin' sh' mpc') : jobs = sh.jobs := by
  cases hstep
  rfl

/-- No thread but the main one prints the queue. -/
theorem WorkerStep.not_listed {jobs : List Text} :
    ¬WorkerStep resolves w sh wpc (.listed jobs) sh' wpc' := by
  intro hstep
  cases hstep with
  | job hjob => cases hjob

/-- as it is in the state before. -/
theorem Step.listed {jobs : List Text} (hstep : Step resolves s (.listed jobs) s') :
    jobs = s.jobs := by
  cases hstep with
  | main hmain => exact hmain.listed
  | worker _ hworker => exact absurd hworker WorkerStep.not_listed

/-- In every run, whatever the order of steps: no two threads are inside of a critical section,
the jobs are taken in the order in which they were added, those not taken are the list, `front`
is called on no empty list, a thread works on the job that it took last, and `check_job` prints
the jobs that have been added and not taken. -/
theorem jobs_in_order (hrun : Run (State.init stdin) (Step resolves) history s) :
    (∀ t t', s.inside t = true → s.inside t' = true → t = t') ∧
    addedJobs history = takenJobs history ++ s.jobs ∧
    (∀ w, s.worker w = .front → s.jobs ≠ []) ∧
    (∀ w server pc, s.worker w = .job server pc → lastTook w history = some server) ∧
    ∀ later earlier s₀ jobs, history = later ++ (s₀, .listed jobs) :: earlier →
      addedJobs earlier = takenJobs earlier ++ jobs := by
  have hord : s.Orderly := reachable_orderly ⟨history, hrun⟩
  refine ⟨fun t t' => hord.exclusive.unique, run_addedJobs hrun, ?_, ?_, ?_⟩
  · intro w hpc
    simpa [hpc, WorkerPc.Sees] using hord.sees w
  · intro w server pc hpc
    exact run_lastTook hrun w server (by rw [hpc]; rfl)
  · rintro later earlier s₀ jobs rfl
    obtain ⟨hearlier, s₁, hstep⟩ := hrun.before
    rw [hstep.listed]
    exact run_addedJobs hearlier

/-- With one job, which thread 0 works on. -/
theorem jobs_in_order_taken : ∃ history s,
    Run (State.init (feed "a/1".toList)) (Step fun _ _ => True) history s ∧
      s.worker 0 = .job "a/1".toList .parse ∧ addedJobs history = takenJobs history ∧
      lastTook 0 history = some "a/1".toList := by
  have htake : Leads (Step fun _ _ => True) (State.init (feed "a/1".toList))
      (calm (fun _ => []) 0 []
        (Function.update (fun _ => .idle) 0 (.job "a/1".toList .parse))) := by
    rw [init_eq_calm _ 0, ← List.append_nil (feed _)]
    exact leads_take isJob_short fun _ _ => by simp
  obtain ⟨history, hrun⟩ := htake.reachable reachable_init
  obtain ⟨-, horder, -, hlast, -⟩ := jobs_in_order hrun
  exact ⟨history, _, hrun, by simp [calm], by simpa [calm] using horder,
    hlast 0 _ .parse (by simp [calm])⟩

end UnixProgramming.GetFlag
