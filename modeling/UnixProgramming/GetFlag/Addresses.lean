import UnixProgramming.GetFlag.Jobs

/-!
# The checks of the address

A job checks the address that it connects to, but reads it anew from the record that every
lookup overwrites: once for each check and once for each attempt. While no other thread looks
anything up in between, only addresses that pass the checks are connected to. Otherwise the two
checks and the attempts can see three different addresses, so that every address some server
has can be connected to as soon as there is one that passes the first check and one that passes
the second.
-/

namespace UnixProgramming.GetFlag

variable {resolves : Text → IpAddr → Prop} {stdin stdin' server : Text} {s s' : State}
variable {w w' : Worker} {sh sh' : Shared} {pc pc' : JobPc} {wpc wpc' : WorkerPc}
variable {mpc mpc' : MainPc} {e : Event} {history : List (State × Event)} {a b : IpAddr}
variable {last : Option IpAddr} {port : Port} {r : Rest}

/-! ## Lookups that do not interfere -/

/-- The address passes both checks, of `127.0.0.1` and of `0.0.0.0`. This is what `do_job` wants
of every address that it connects to. -/
def Allowed (a : IpAddr) : Prop := a ≠ localhost ∧ a ≠ anyHost

/-- There is an attempt to come, which reads the record again. The second attempt is the last
one. -/
def Rest.reads : Rest → Bool
  | .attempt i _ => i < 2
  | .socket i _ _ => i + 1 < 2
  | .done => false

/-- The job may read the record again. Before its lookup it does not: the lookup overwrites
whatever the record holds. -/
def JobPc.reads : JobPc → Bool
  | .parse => false
  | .lookup _ _ => false
  | .checkLocalhost _ => true
  | .checkAny _ => true
  | .rest r => r.reads
  | .connect i _ _ => i + 1 < 2
  | .lock _ r => r.reads
  | .write _ r => r.reads
  | .unlock r => r.reads

/-- The thread may read the record again before its next lookup. A thread without a job looks
up before it reads. -/
def WorkerPc.reads : WorkerPc → Bool
  | .job _ pc => pc.reads
  | _ => false

/-- A lookup comes at a time when no other thread may read the record. All other events are
harmless, since only a lookup writes to it. -/
def Undisturbing (s : State) : Event → Prop
  | .resolved w _ => ∀ w' ≠ w, (s.worker w').reads = false
  | _ => True

/-- The answer to a lookup of thread `w`. Lookups of the other thread and other events have
none. -/
def Event.resolvedBy (w : Worker) : Event → Option IpAddr
  | .resolved w' a => if w' = w then some a else none
  | _ => none

/-- The answer to the last lookup of a thread. Histories list the newest event first, so that
this is the first one found. -/
def lastResolved (w : Worker) (history : List (State × Event)) : Option IpAddr :=
  history.findSome? fun x => x.2.resolvedBy w

/-- The record still holds the answer to the job's own lookup, and it is allowed. A connection
to such an address is the one that was meant. -/
def Good (last : Option IpAddr) (a : IpAddr) : Prop := last = some a ∧ Allowed a

/-- What the rest of a job connects to, now or later, is good. An address that has been read is
good itself, and one that is still to be read is good in the record. -/
def Rest.Sound (last : Option IpAddr) (record : IpAddr) : Rest → Prop
  | .attempt i _ => i < 2 → Good last record
  | .socket i a _ => Good last a ∧ (i + 1 < 2 → Good last record)
  | .done => True

/-- What a job connects to, now or later, is good, or will be if it passes the checks. -/
def JobPc.Sound (last : Option IpAddr) (record : IpAddr) : JobPc → Prop
  | .parse => True
  | .lookup _ _ => True
  | .checkLocalhost _ => last = some record
  | .checkAny _ => last = some record ∧ record ≠ localhost
  | .rest r => r.Sound last record
  | .connect i a _ => Good last a ∧ (i + 1 < 2 → Good last record)
  | .lock _ r => r.Sound last record
  | .write _ r => r.Sound last record
  | .unlock r => r.Sound last record

/-- A job that does not read the record again does not depend on it. -/
theorem Rest.Sound.of_not_reads (hreads : r.reads = false) (hsound : r.Sound last a) :
    r.Sound last b := by
  cases r with
  | attempt i port => exact fun hi => by simp [Rest.reads, hi] at hreads
  | socket i c port => exact ⟨hsound.1, fun hi => by simp [Rest.reads] at hreads; omega⟩
  | done => trivial

/-- The same for a whole job, in which the two checks read as well. -/
theorem JobPc.Sound.of_not_reads (hreads : pc.reads = false) (hsound : pc.Sound last a) :
    pc.Sound last b := by
  cases pc with
  | checkLocalhost | checkAny => simp [JobPc.reads] at hreads
  | rest r | lock _ r | write _ r | unlock r => exact Rest.Sound.of_not_reads (r := r) hreads hsound
  | connect i c port => exact ⟨hsound.1, fun hi => by simp [JobPc.reads] at hreads; omega⟩
  | _ => trivial

/-- Every step of a job keeps what it will connect to good. -/
theorem JobStep.sound (hsound : pc.Sound last sh.hostAddr)
    (hstep : JobStep resolves w server sh pc e sh' pc') :
    pc'.Sound ((e.resolvedBy w).or last) sh'.hostAddr := by
  cases hstep with
  | resolved => simp [JobPc.Sound, Event.resolvedBy]
  | isLocalhost | isAnyHost | incorrect | unresolved | givenUp | gotIt => trivial
  | notLocalhost hne => exact ⟨hsound, hne⟩
  | notAnyHost hne => exact fun _ => ⟨hsound.1, hsound.2, hne⟩
  | attempt hi => exact ⟨hsound hi, fun _ => hsound hi⟩
  | noSocket | failed => exact hsound.2
  | _ => exact hsound

/-- A job changes the record by a lookup only. -/
theorem JobStep.record (hstep : JobStep resolves w server sh pc e sh' pc') :
    e = .resolved w sh'.hostAddr ∨ sh'.hostAddr = sh.hostAddr ∧ ∀ v, e.resolvedBy v = none := by
  cases hstep with
  | resolved => exact .inl rfl
  | _ => exact .inr ⟨rfl, fun _ => rfl⟩

/-- A thread changes the record by a lookup of its job only, since taking a job from the queue
does not touch it. -/
theorem WorkerStep.record (hstep : WorkerStep resolves w sh wpc e sh' wpc') :
    e = .resolved w sh'.hostAddr ∨ sh'.hostAddr = sh.hostAddr ∧ ∀ v, e.resolvedBy v = none := by
  cases hstep with
  | job hjob => exact hjob.record
  | _ => exact .inr ⟨rfl, fun _ => rfl⟩

/-- The main thread never looks anything up. It leaves the record as it is. -/
theorem MainStep.record (hstep : MainStep stdin sh mpc e stdin' sh' mpc') :
    sh'.hostAddr = sh.hostAddr ∧ ∀ v, e.resolvedBy v = none := by
  cases hstep <;> exact ⟨rfl, fun _ => rfl⟩

/-- What a thread connects to in its job, now or later, is good. This is the invariant of a
single thread. -/
def WorkerPc.Sound (last : Option IpAddr) (record : IpAddr) : WorkerPc → Prop
  | .job _ pc => pc.Sound last record
  | _ => True

/-- A thread that does not read the record again does not care about its contents. So another
thread may overwrite it. -/
theorem WorkerPc.Sound.of_not_reads (hreads : wpc.reads = false) (hsound : wpc.Sound last a) :
    wpc.Sound last b := by
  cases wpc with
  | job server pc =>
    have hjob : pc.Sound last a := hsound
    exact hjob.of_not_reads hreads
  | _ => trivial

/-- Every step of a thread keeps it sound. A job that has just been taken is sound as nothing
has been looked up. -/
theorem WorkerStep.sound (hsound : wpc.Sound last sh.hostAddr)
    (hstep : WorkerStep resolves w sh wpc e sh' wpc') :
    wpc'.Sound ((e.resolvedBy w).or last) sh'.hostAddr := by
  cases hstep with
  | job hjob => exact hjob.sound hsound
  | _ => trivial

/-- The newest event decides, if it is a lookup of the thread, and the older ones otherwise. -/
theorem lastResolved_cons : lastResolved w ((s, e) :: history) =
    (e.resolvedBy w).or (lastResolved w history) := by
  rw [lastResolved, List.findSome?_cons]
  cases e.resolvedBy w <;> rfl

/-- Where lookups do not disturb the other thread, each step keeps all threads sound. -/
theorem Step.sound (hund : Undisturbing s e)
    (hsound : ∀ w, (s.worker w).Sound (lastResolved w history) s.hostAddr)
    (hstep : Step resolves s e s') (w : Worker) :
    (s'.worker w).Sound (lastResolved w ((s, e) :: history)) s'.hostAddr := by
  rw [lastResolved_cons]
  cases hstep with
  | main hmain =>
    rw [hmain.record.2 w]
    exact hmain.record.1 ▸ hsound w
  | @signal v _ hv =>
    by_cases hw : w = v
    · simp [hw, WorkerPc.Sound]
    · simpa [hw, Event.resolvedBy] using hsound w
  | unheard => exact hsound w
  | @worker v _ _ _ _ hworker =>
    by_cases hw : w = v
    · subst hw
      simpa using hworker.sound (hsound w)
    · simp only [Function.update_of_ne hw]
      rcases hworker.record with rfl | ⟨hrecord, hnone⟩
      · simp only [Event.resolvedBy, if_neg (Ne.symm hw), Option.none_or]
        exact WorkerPc.Sound.of_not_reads (hund w hw) (hsound w)
      · simp only [hnone w, hrecord, Option.none_or]
        exact hsound w

/-- All threads are sound after every run without disturbing lookups. The induction is on the
run, with `Step.sound` for the last step. -/
theorem run_sound (hrun : Run (State.init stdin) (Step resolves) history s)
    (hund : EachStep Undisturbing history) :
    ∀ w, (s.worker w).Sound (lastResolved w history) s.hostAddr := by
  induction hrun with
  | start => exact fun _ => trivial
  | step _ hstep ih =>
    rw [eachStep_cons] at hund
    exact hstep.sound hund.1 (ih hund.2)

/-- Only a job connects, to the address that it read last. -/
theorem JobStep.connected {v : Worker}
    (hstep : JobStep resolves w server sh pc (.connected v a port) sh' pc') :
    v = w ∧ ∃ i, pc = .connect i a port := by
  cases hstep <;> exact ⟨rfl, _, rfl⟩

/-- Of a thread, only its job connects, and under the number of the thread. -/
theorem WorkerStep.connected {v : Worker}
    (hstep : WorkerStep resolves w sh wpc (.connected v a port) sh' wpc') :
    v = w ∧ ∃ server i, wpc = .job server (.connect i a port) := by
  cases hstep with
  | job hjob =>
    obtain ⟨hv, i, hpc⟩ := hjob.connected
    exact ⟨hv, _, i, by rw [hpc]⟩

/-- The main thread never connects to anything. -/
theorem MainStep.not_connected :
    ¬MainStep stdin sh mpc (.connected w a port) stdin' sh' mpc' := by
  intro hstep
  cases hstep

/-- So whoever connects has a job that stands before the call of `connect`, with the address
that it has read. -/
theorem Step.connected (hstep : Step resolves s (.connected w a port) s') :
    ∃ server i, s.worker w = .job server (.connect i a port) := by
  cases hstep with
  | main hmain => exact absurd hmain MainStep.not_connected
  | worker _ hworker =>
    obtain ⟨rfl, hpc⟩ := hworker.connected
    exact hpc

/-- In every run, whatever the order of steps, in which a lookup never comes between the lookup
and the last attempt of a job of the other thread: each connection is to the address that the
thread's own last lookup returned, and neither to `127.0.0.1` nor to `0.0.0.0`. -/
theorem connects_to_allowed (hrun : Run (State.init stdin) (Step resolves) history s)
    (hund : EachStep Undisturbing history) :
    ∀ later earlier s₀ w a port, history = later ++ (s₀, .connected w a port) :: earlier →
      lastResolved w earlier = some a ∧ a ≠ localhost ∧ a ≠ anyHost := by
  rintro later earlier s₀ w a port rfl
  obtain ⟨hearlier, s₁, hstep⟩ := hrun.before
  have hund' : EachStep Undisturbing earlier := fun x hx =>
    hund x (List.mem_append_right _ (List.mem_cons_of_mem _ hx))
  obtain ⟨server, i, hpc⟩ := hstep.connected
  have hsound := run_sound hearlier hund' w
  rw [hpc] at hsound
  exact hsound.1

/-- Thread 0 stands somewhere, and thread 1 at the beginning. These are the states of a run in
which one thread does all the work. -/
def first (wpc : WorkerPc) : Worker → WorkerPc := Function.update (fun _ => .idle) 0 wpc

/-- A state that a run without disturbing lookups can end in. -/
def Peaceful (stdin : Text) (s : State) : Prop :=
  ∃ history, Run (State.init stdin) (Step fun _ _ => True) history s ∧
    EachStep Undisturbing history

variable {stdin₀ : Text}

/-- Steps of the main thread look nothing up. They extend such a run, -/
theorem Peaceful.main (hpeace : Peaceful stdin₀ ⟨sh, stdin, mpc, first wpc⟩)
    (hstep : MainStep stdin sh mpc e stdin' sh' mpc') :
    Peaceful stdin₀ ⟨sh', stdin', mpc', first wpc⟩ := by
  obtain ⟨history, hrun, hund⟩ := hpeace
  refine ⟨_, hrun.step (.main hstep), eachStep_cons.mpr ⟨?_, hund⟩⟩
  cases hstep <;> trivial

/-- and so do the steps of thread 0, as long as its lookups disturb nobody. -/
theorem Peaceful.worker (hpeace : Peaceful stdin₀ ⟨sh, stdin, mpc, first wpc⟩)
    (hstep : WorkerStep (fun _ _ => True) 0 sh wpc e sh' wpc') (hmain : mpc ≠ .exited)
    (hund : Undisturbing ⟨sh, stdin, mpc, first wpc⟩ e) :
    Peaceful stdin₀ ⟨sh', stdin, mpc, first wpc'⟩ := by
  obtain ⟨history, hrun, hbefore⟩ := hpeace
  have hworker : WorkerStep (fun _ _ => True) 0 sh (first wpc 0) e sh' wpc' := by
    rwa [first, Function.update_self]
  have hnext : Step (fun _ _ => True) ⟨sh, stdin, mpc, first wpc⟩ e _ := .worker hmain hworker
  rw [first, Function.update_idem] at hnext
  exact ⟨_, hrun.step hnext, eachStep_cons.mpr ⟨hund, hbefore⟩⟩

/-- Thread 0 reaches a connection, while thread 1 has not begun. -/
theorem peaceful_connect : ∃ status,
    Peaceful "g\na/1\n".toList ⟨⟨none, [], status, 1⟩, [], .addSignal,
      first (.job "a/1".toList (.connect 0 1 1))⟩ := by
  have hmenu : MainStep "g\na/1\n".toList ⟨none, [], fun _ => [], 0⟩ .menu .input
      "a/1\n".toList ⟨none, [], fun _ => [], 0⟩ .askServer := .menu
  have hask : MainStep "a/1\n".toList ⟨none, [], fun _ => [], 0⟩ .askServer .input
      [] ⟨none, [], fun _ => [], 0⟩ (.addLock "a/1".toList) := .askServer
  have hinit : Peaceful "g\na/1\n".toList
      ⟨⟨none, [], fun _ => [], 0⟩, "g\na/1\n".toList, .menu, first .idle⟩ := by
    refine ⟨[], ?_, eachStep_nil⟩
    rw [first, Function.update_eq_self_iff.mpr rfl]
    exact .start
  have hadded := (((hinit.main hmenu).main hask).main (.addLock rfl)).main .addPush
  have hfound := ((hadded.main .addUnlock).worker (.lock rfl) (by simp) trivial).worker
    (.found (by simp)) (by simp) trivial
  have htook := (hfound.worker (.front rfl) (by simp) trivial).worker .popFront (by simp) trivial
  have hjob := (htook.worker (.got (by simp)) (by simp) trivial).worker .unlock (by simp) trivial
  have hlookup := hjob.worker (.job (.parsed (by decide : _ = some ("a".toList, 1#16)))) (by simp)
    trivial
  have hresolved := hlookup.worker (.job (@JobStep.resolved _ _ _ _ _ [] _ 1 trivial)) (by simp)
    (fun v hv => by simp [first, hv, WorkerPc.reads])
  have hchecked := (hresolved.worker (.job (.notLocalhost (by decide))) (by simp) trivial).worker
    (.job (.notAnyHost (by decide))) (by simp) trivial
  have hlocked := (hchecked.worker (.job (.attempt (by simp))) (by simp) trivial).worker
    (.job (.lock rfl)) (by simp) trivial
  have hreported := (hlocked.worker (.job .write) (by simp) trivial).worker (.job .unlock)
    (by simp) trivial
  exact ⟨_, hreported.worker (.job .socket) (by simp) trivial⟩

/-- It connects to the address that it has looked up. -/
theorem connects_to_allowed_once : ∃ history s₀ s,
    Run (State.init "g\na/1\n".toList) (Step fun _ _ => True)
      ((s₀, .connected 0 1 1) :: history) s ∧
    lastResolved 0 history = some 1 := by
  obtain ⟨status, history, hrun, hund⟩ := peaceful_connect
  have hworker : WorkerStep (fun _ _ => True) 0 ⟨none, [], status, 1⟩
      (first (.job "a/1".toList (.connect 0 1 1)) 0) (.connected 0 1 1) ⟨none, [], status, 1⟩
      (.job "a/1".toList (.lock [] (.attempt 1 1))) := .job (.failed [])
  have hrun' := hrun.step (.worker (by simp) hworker)
  have hallowed := connects_to_allowed hrun' (eachStep_cons.mpr ⟨trivial, hund⟩) []
  exact ⟨history, _, _, hrun', (hallowed history _ 0 1 1 rfl).1⟩

end UnixProgramming.GetFlag
