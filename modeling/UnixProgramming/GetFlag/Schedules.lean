import UnixProgramming.GetFlag.Service

/-!
# Schedules

Runs are built from the steps of one thread at a time. The first piece of each of them is a job
that is asked for in the menu and taken by a thread, while no other thread waits for one.
-/

namespace UnixProgramming.GetFlag

variable {resolves : Text → IpAddr → Prop} {stdin stdin' t : Text} {s s' : State} {w : Worker}
variable {sh sh' : Shared} {wpc wpc' : WorkerPc} {mpc mpc' : MainPc} {e : Event} {a : IpAddr}

/-- A text that can be asked for: a word that fits into the buffer. -/
def IsJob (t : Text) : Prop := IsWord t ∧ t.length ≤ 255

/-- A short text that is a job: a server and a port. -/
theorem isJob_short : IsJob "a/1".toList :=
  ⟨⟨by simp, by simp [isBlank, nul]⟩, by simp⟩

/-- `main` is at its menu, the mutex is free and the list is empty. -/
def calm (status : Worker → Text) (record : IpAddr) (stdin : Text) (worker : Worker → WorkerPc) :
    State where
  mutex := none
  jobs := []
  status := status
  hostAddr := record
  stdin := stdin
  main := .menu
  worker := worker

variable {status : Worker → Text} {f : Worker → WorkerPc}

/-- The lines that ask for a job. -/
def feed (t : Text) : Text := ['g', '\n'] ++ typed '\n' 255 t

/-- The line that names the server is read, whatever comes behind it. -/
theorem request_feed {rest : Text} (ht : IsJob t) :
    readLine '\n' 255 (typed '\n' 255 t ++ rest) = (typed '\n' 255 t, rest) :=
  readLine_typed (fun hmem => by simpa [isBlank] using (ht.1.2 _ hmem).1) ht.2

/-- A step of the main thread leads on, -/
theorem leads_main (hstep : MainStep stdin sh mpc e stdin' sh' mpc') :
    Leads (Step resolves) ⟨sh, stdin, mpc, f⟩ ⟨sh', stdin', mpc', f⟩ :=
  .single (.main hstep)

/-- and so does one of a thread, which changes its own place only. -/
theorem leads_worker (hstep : WorkerStep resolves w sh wpc e sh' wpc') (hmain : mpc ≠ .exited) :
    Leads (Step resolves) ⟨sh, stdin, mpc, Function.update f w wpc⟩
      ⟨sh', stdin, mpc, Function.update f w wpc'⟩ := by
  have hworker : WorkerStep resolves w sh (Function.update f w wpc w) e sh' wpc' := by
    rwa [Function.update_self]
  refine .single (l := e) ?_
  have hstep : Step resolves ⟨sh, stdin, mpc, Function.update f w wpc⟩ e _ := .worker hmain hworker
  rwa [Function.update_idem] at hstep

/-- A job is asked for and added, and `main` is about to signal. -/
theorem leads_push {rest : Text} (ht : IsJob t) :
    Leads (Step resolves) (calm status a (feed t ++ rest) f)
      ⟨⟨none, [t], status, a⟩, rest, .addSignal, f⟩ := by
  have hmenu : MainStep (feed t ++ rest) ⟨none, [], status, a⟩ .menu .input
      (typed '\n' 255 t ++ rest) ⟨none, [], status, a⟩ .askServer := by
    simpa [feed, readLine, command] using @MainStep.menu (feed t ++ rest) ⟨none, [], status, a⟩
  have hask : MainStep (typed '\n' 255 t ++ rest) ⟨none, [], status, a⟩ .askServer .input
      rest ⟨none, [], status, a⟩ (.addLock t) := by
    have hstep := @MainStep.askServer (typed '\n' 255 t ++ rest) ⟨none, [], status, a⟩
    have hword : firstWord ([] ++ typed '\n' 255 t) = some t :=
      firstWord_append ht.1 (by simp) (by split <;> simp [isBlank])
    rw [List.nil_append] at hword
    rw [request_feed ht, request, hword] at hstep
    exact hstep
  refine (leads_main hmenu).trans ((leads_main hask).trans ?_)
  exact (leads_main (.addLock rfl)).trans ((leads_main .addPush).trans (leads_main .addUnlock))

/-- A job is asked for while nobody waits. -/
theorem leads_add {rest : Text} (ht : IsJob t) (hnobody : ∀ v, f v ≠ .waiting) :
    Leads (Step resolves) (calm status a (feed t ++ rest) f)
      ⟨⟨none, [t], status, a⟩, rest, .menu, f⟩ :=
  (leads_push ht).trans (.single (.unheard rfl hnobody))

/-- A thread that is about to look takes the job that is asked for. -/
theorem leads_take {rest : Text} (ht : IsJob t) (hawake : ∀ v ≠ w, f v ≠ .waiting) :
    Leads (Step resolves) (calm status a (feed t ++ rest) (Function.update f w .idle))
      (calm status a rest (Function.update f w (.job t .parse))) := by
  have hnobody : ∀ v, Function.update f w .idle v ≠ .waiting := by
    intro v
    by_cases hv : v = w
    · simp [hv]
    · simpa [hv] using hawake v hv
  refine (leads_add ht hnobody).trans ?_
  refine (leads_worker (.lock rfl) (by simp)).trans ?_
  refine (leads_worker (.found (by simp)) (by simp)).trans ?_
  refine (leads_worker (.front (s := t) (by simp)) (by simp)).trans ?_
  refine (leads_worker .popFront (by simp)).trans ?_
  refine (leads_worker (.got ht.1.1) (by simp)).trans ?_
  exact leads_worker .unlock (by simp)

/-- A thread that finds no job waits. -/
theorem leads_wait : Leads (Step resolves) (calm status a stdin (Function.update f w .idle))
    (calm status a stdin (Function.update f w .waiting)) := by
  refine (leads_worker (.lock rfl) (by simp)).trans ?_
  refine (leads_worker (.empty (by simp)) (by simp)).trans ?_
  exact leads_worker .wait (by simp)

/-- So does a thread that is about to look while others stand elsewhere. -/
theorem leads_wait_of_idle (hidle : f w = .idle) :
    Leads (Step resolves) (calm status a stdin f)
      (calm status a stdin (Function.update f w .waiting)) := by
  have hwait : Leads (Step resolves) (calm status a stdin (Function.update f w .idle)) _ :=
    leads_wait
  rwa [← hidle, Function.update_eq_self] at hwait

/-- The process begins with both threads about to look. -/
theorem init_eq_calm (stdin : Text) (w : Worker) : State.init stdin =
    calm (fun _ => []) 0 stdin (Function.update (fun _ => .idle) w .idle) := by
  simp [State.init, calm]

end UnixProgramming.GetFlag
