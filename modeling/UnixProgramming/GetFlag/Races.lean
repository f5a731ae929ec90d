import UnixProgramming.GetFlag.Addresses

/-!
# What a race can connect to

While one thread stands between its checks, the other one can take further jobs, whose lookups
overwrite the record. An address is connected to in some run exactly when some server has it,
some server has an address that passes the first check and some server has one that passes the
second check; these may be three different servers.
-/

namespace UnixProgramming.GetFlag

variable {resolves : Text → IpAddr → Prop} {stdin stdin' server line t host behind : Text}
variable {s s' : State} {w : Worker} {sh sh' : Shared} {pc pc' : JobPc} {wpc wpc' : WorkerPc}
variable {mpc mpc' : MainPc} {e : Event} {a b : IpAddr} {port : Port} {r : Rest}

/-! ## What can be found -/

/-- The lookup of a job can return the address. -/
def Finds (resolves : Text → IpAddr → Prop) (t : Text) (a : IpAddr) : Prop :=
  ∃ host port behind, parseJob t = some (host, port) ∧ resolves (addrName behind host) a

/-- The lookup of some job can return the address. -/
def Findable (resolves : Text → IpAddr → Prop) (a : IpAddr) : Prop :=
  ∃ t, IsJob t ∧ Finds resolves t a

/-- Some server passes the first check. -/
def PassesLocalhost (resolves : Text → IpAddr → Prop) : Prop :=
  ∃ c, Findable resolves c ∧ c ≠ localhost

/-- Some server passes the second check. -/
def PassesAny (resolves : Text → IpAddr → Prop) : Prop := ∃ d, Findable resolves d ∧ d ≠ anyHost

/-- The address can be found, and so can some that pass the checks. -/
def Open (resolves : Text → IpAddr → Prop) (a : IpAddr) : Prop :=
  Findable resolves a ∧ PassesLocalhost resolves ∧ PassesAny resolves

/-- Some run connects to the address. -/
def Connectable (resolves : Text → IpAddr → Prop) (a : IpAddr) : Prop :=
  ∃ stdin history s, Run (State.init stdin) (Step resolves) history s ∧
    ∃ x ∈ history, ∃ w port, x.2 = .connected w a port

/-- Every request is a job. -/
theorem isJob_of_firstWord (hword : firstWord (readLine '\n' 255 stdin).1 = some t) : IsJob t :=
  ⟨isWord_of_firstWord hword, (length_firstWord_le hword).trans (length_readLine_le ..)⟩

/-! ## No more than that is connected to -/

/-- What the rest of a job needs to go on. -/
def Rest.Justified (resolves : Text → IpAddr → Prop) (record : IpAddr) : Rest → Prop
  | .attempt _ _ => Open resolves record
  | .socket _ a _ => Open resolves a ∧ Open resolves record
  | .done => True

/-- What a job has needed so far. -/
def JobPc.Justified (resolves : Text → IpAddr → Prop) (server : Text) (record : IpAddr) :
    JobPc → Prop
  | .parse => True
  | .lookup host port => parseJob server = some (host, port)
  | .checkLocalhost _ => Findable resolves record
  | .checkAny _ => Findable resolves record ∧ PassesLocalhost resolves
  | .rest r => r.Justified resolves record
  | .connect _ a _ => Open resolves a ∧ Open resolves record
  | .lock _ r => r.Justified resolves record
  | .write _ r => r.Justified resolves record
  | .unlock r => r.Justified resolves record

/-- Another address in the record justifies as much. -/
theorem Rest.Justified.of_findable (hb : Findable resolves b) (hr : r.Justified resolves a) :
    r.Justified resolves b := by
  cases r with
  | attempt => exact ⟨hb, hr.2⟩
  | socket => exact ⟨hr.1, hb, hr.2.2⟩
  | done => trivial

/-- What a job holds stays justified when the record gets another address that can be found. -/
theorem JobPc.Justified.of_findable (hb : Findable resolves b)
    (hpc : pc.Justified resolves server a) : pc.Justified resolves server b := by
  cases pc with
  | parse => trivial
  | lookup => exact hpc
  | checkLocalhost => exact hb
  | checkAny => exact ⟨hb, hpc.2⟩
  | connect => exact ⟨hpc.1, hb, hpc.2.2⟩
  | rest r | lock _ r | write _ r | unlock r => exact Rest.Justified.of_findable (r := r) hb hpc

/-- A job finds only what can be found. -/
theorem JobStep.findable (hserver : IsJob server)
    (hpc : pc.Justified resolves server sh.hostAddr)
    (hstep : JobStep resolves w server sh pc e sh' pc') :
    Findable resolves sh'.hostAddr ∨ sh'.hostAddr = sh.hostAddr := by
  cases hstep with
  | resolved hresolves => exact .inl ⟨server, hserver, _, _, _, hpc, hresolves⟩
  | _ => exact .inr rfl

/-- A step of a job keeps what it holds justified. -/
theorem JobStep.justified (hserver : IsJob server)
    (hpc : pc.Justified resolves server sh.hostAddr)
    (hstep : JobStep resolves w server sh pc e sh' pc') :
    pc'.Justified resolves server sh'.hostAddr := by
  cases hstep with
  | parsed hparse => exact hparse
  | resolved hresolves => exact ⟨server, hserver, _, _, _, hpc, hresolves⟩
  | notLocalhost hne => exact ⟨hpc, _, hpc, hne⟩
  | notAnyHost hne => exact ⟨hpc.1, hpc.2, _, hpc.1, hne⟩
  | attempt hi => exact ⟨hpc, hpc⟩
  | noSocket | failed => exact hpc.2
  | socket | lock | write | unlock => exact hpc
  | _ => trivial

/-- The text that a thread has, if it is a job. -/
def WorkerPc.held : WorkerPc → Option Text
  | .popFront s => some s
  | .test s => if s = [] then none else some s
  | .unlock s => some s
  | .job s _ => some s
  | _ => none

/-- What a thread has needed so far. -/
def WorkerPc.Justified (resolves : Text → IpAddr → Prop) (record : IpAddr) : WorkerPc → Prop
  | .job server pc => pc.Justified resolves server record
  | _ => True

/-- All texts are jobs, and all jobs are justified. -/
structure State.Justified (resolves : Text → IpAddr → Prop) (s : State) : Prop where
  adding : ∀ t, s.main.adding = some t → IsJob t
  jobs : ∀ t ∈ s.jobs, IsJob t
  held : ∀ w t, (s.worker w).held = some t → IsJob t
  worker : ∀ w, (s.worker w).Justified resolves s.hostAddr

/-- A thread holds nothing but jobs: it takes them from the queue, where nothing else is. -/
theorem WorkerStep.held (hjobs : ∀ t ∈ sh.jobs, IsJob t)
    (hheld : ∀ t, wpc.held = some t → IsJob t)
    (hstep : WorkerStep resolves w sh wpc e sh' wpc') : ∀ t, wpc'.held = some t → IsJob t := by
  intro t ht
  cases hstep with
  | front hhead =>
    obtain rfl : _ = t := Option.some.inj ht
    exact hjobs _ (List.mem_of_mem_head? hhead)
  | popFront =>
    simp only [WorkerPc.held, Option.ite_none_left_eq_some] at ht
    exact hheld t ht.2
  | got hne => exact hheld t (by simpa [WorkerPc.held, hne] using ht)
  | unlock | job => exact hheld t ht
  | _ => simp [WorkerPc.held] at ht

/-- The same as for a job, for the thread that does it. -/
theorem WorkerPc.Justified.of_findable (hb : Findable resolves b)
    (hpc : wpc.Justified resolves a) : wpc.Justified resolves b := by
  cases wpc with
  | job server pc =>
    have hjob : pc.Justified resolves server a := hpc
    exact hjob.of_findable hb
  | _ => trivial

/-- A step of a thread keeps what it holds justified, and the record then holds an address that
can be found or its old one. -/
theorem WorkerStep.justified (hheld : ∀ t, wpc.held = some t → IsJob t)
    (hpc : wpc.Justified resolves sh.hostAddr)
    (hstep : WorkerStep resolves w sh wpc e sh' wpc') :
    wpc'.Justified resolves sh'.hostAddr ∧
      (Findable resolves sh'.hostAddr ∨ sh'.hostAddr = sh.hostAddr) := by
  cases hstep with
  | job hjob => exact ⟨hjob.justified (hheld _ rfl) hpc, hjob.findable (hheld _ rfl) hpc⟩
  | _ => exact ⟨trivial, .inr rfl⟩

/-- Every step keeps all threads justified. One of them moves, and the others see another record
at most. -/
theorem Step.justified (hjust : s.Justified resolves) (hstep : Step resolves s e s') :
    s'.Justified resolves := by
  cases hstep with
  | main hmain =>
    have hrecord := hmain.record.1
    refine ⟨?_, ?_, hjust.held, fun w => hrecord ▸ hjust.worker w⟩
    · intro t ht
      rcases hmain.adding ht with hbefore | ⟨-, hline⟩
      · exact hjust.adding t hbefore
      · exact isJob_of_firstWord hline
    · intro u hu
      rcases hmain.jobs.2 with ⟨t, hpc, -, -, hjobs⟩ | ⟨hjobs, -⟩
      · rw [hjobs, List.mem_append, List.mem_singleton] at hu
        rcases hu with hu | rfl
        · exact hjust.jobs u hu
        · exact hjust.adding u (by rw [hpc]; rfl)
      · exact hjust.jobs u (hjobs ▸ hu)
  | @signal v =>
    refine ⟨fun t ht => by simp [MainPc.adding] at ht, hjust.jobs, fun w t ht => ?_, fun w => ?_⟩
    · by_cases hw : w = v
      · simp [hw, WorkerPc.held] at ht
      · exact hjust.held w t (by simpa [hw] using ht)
    · by_cases hw : w = v
      · simp [hw, WorkerPc.Justified]
      · simpa [hw] using hjust.worker w
  | unheard =>
    exact ⟨fun t ht => by simp [MainPc.adding] at ht, hjust.jobs, hjust.held, hjust.worker⟩
  | @worker v _ _ _ _ hworker =>
    obtain ⟨hpc, hrecord⟩ := hworker.justified (hjust.held v) (hjust.worker v)
    refine ⟨hjust.adding, fun u hu => ?_, fun w t ht => ?_, fun w => ?_⟩
    · rcases hworker.jobs.2 with ⟨t, -, -, -, hjobs⟩ | ⟨hjobs, -⟩
      · exact hjust.jobs u (List.mem_of_mem_tail (hjobs ▸ hu))
      · exact hjust.jobs u (hjobs ▸ hu)
    · by_cases hw : w = v
      · exact hworker.held hjust.jobs (hjust.held v) t (by simpa [hw] using ht)
      · exact hjust.held w t (by simpa [hw] using ht)
    · by_cases hw : w = v
      · simpa [hw] using hpc
      · simp only [Function.update_of_ne hw]
        rcases hrecord with hfound | heq
        · exact WorkerPc.Justified.of_findable hfound (hjust.worker w)
        · exact heq ▸ hjust.worker w

/-- So all threads are justified in every state that can be reached. -/
theorem reachable_justified (hreach : Reachable (State.init stdin) (Step resolves) s) :
    s.Justified resolves := by
  refine hreach.invariant ?_ fun _ _ _ hjust hstep => hstep.justified hjust
  refine ⟨fun t ht => ?_, fun t ht => ?_, fun w t ht => ?_, fun w => trivial⟩
  · simp [State.init, MainPc.adding] at ht
  · simp [State.init] at ht
  · simp [State.init, WorkerPc.held] at ht

/-- Whatever is connected to is open. -/
theorem open_of_connectable (hconn : Connectable resolves a) : Open resolves a := by
  obtain ⟨stdin, history, s, hrun, ⟨s₀, e⟩, hmem, w, port, rfl⟩ := hconn
  obtain ⟨later, earlier, rfl⟩ := List.append_of_mem hmem
  obtain ⟨hearlier, s₁, hstep⟩ := hrun.before
  obtain ⟨server, i, hpc⟩ := hstep.connected
  have hjust := (reachable_justified ⟨earlier, hearlier⟩).worker w
  rw [hpc] at hjust
  exact hjust.1

/-! ## All of that can be connected to -/

variable {status : Worker → Text} {f : Worker → WorkerPc}

/-- A step of a job outside of the mutex. -/
theorem leads_job {status' : Worker → Text}
    (hstep : JobStep resolves w t ⟨none, [], status, a⟩ pc e ⟨none, [], status', b⟩ pc') :
    Leads (Step resolves) (calm status a stdin (Function.update f w (.job t pc)))
      (calm status' b stdin (Function.update f w (.job t pc'))) :=
  leads_worker (.job hstep) (by simp)

/-- The lookup of a job. -/
theorem leads_lookup {rest : Text} (ht : IsJob t) (hfinds : Finds resolves t b)
    (hawake : ∀ v ≠ w, f v ≠ .waiting) :
    ∃ port, Leads (Step resolves) (calm status a (feed t ++ rest) (Function.update f w .idle))
      (calm status b rest (Function.update f w (.job t (.checkLocalhost port)))) := by
  obtain ⟨host, port, behind, hparse, hresolves⟩ := hfinds
  refine ⟨port, (leads_take ht hawake).trans ?_⟩
  exact (leads_job (.parsed hparse)).trans (leads_job (.resolved hresolves))

/-- An update of the status. -/
theorem leads_update {msg : Text} : ∃ status',
    Leads (Step resolves) (calm status a stdin (Function.update f w (.job t (.lock msg r))))
      (calm status' a stdin (Function.update f w (.job t (.rest r)))) := by
  refine ⟨Function.update status w (statusText t msg), ?_⟩
  refine (leads_worker (.job (.lock rfl)) (by simp)).trans ?_
  exact (leads_worker (.job .write) (by simp)).trans (leads_worker (.job .unlock) (by simp))

/-- A job whose status is reported for the last time. -/
theorem leads_last {msg : Text} : ∃ status',
    Leads (Step resolves) (calm status a stdin (Function.update f w (.job t (.lock msg .done))))
      (calm status' a stdin (Function.update f w .idle)) := by
  obtain ⟨status', hupdate⟩ := leads_update (r := .done)
  exact ⟨status', hupdate.trans (leads_worker .finish (by simp))⟩

/-- An attempt that gets no socket. -/
theorem leads_attempt {i : ℕ} (hi : i < 2) : ∃ status',
    Leads (Step resolves)
      (calm status a stdin (Function.update f w (.job t (.rest (.attempt i port)))))
      (calm status' a stdin (Function.update f w (.job t (.rest (.attempt (i + 1) port))))) := by
  obtain ⟨status₁, hconnecting⟩ := leads_update (r := .socket i a port)
  obtain ⟨status₂, hfailed⟩ := leads_update (r := .attempt (i + 1) port)
  refine ⟨status₂, (leads_job (.attempt hi)).trans (hconnecting.trans ?_)⟩
  exact (leads_job (.noSocket [])).trans hfailed

/-- Whatever the record holds, a job that checks it can end without a connection. -/
theorem leads_idle : ∃ status',
    Leads (Step resolves)
      (calm status a stdin (Function.update f w (.job t (.checkLocalhost port))))
      (calm status' a stdin (Function.update f w .idle)) := by
  by_cases hlocal : a = localhost
  · obtain ⟨status', hlast⟩ := leads_last
    exact ⟨status', (leads_job (.isLocalhost hlocal)).trans hlast⟩
  by_cases hany : a = anyHost
  · obtain ⟨status', hlast⟩ := leads_last
    refine ⟨status', (leads_job (.notLocalhost hlocal)).trans ?_⟩
    exact (leads_job (.isAnyHost hany)).trans hlast
  · obtain ⟨status₁, hfirst⟩ := leads_attempt (i := 0) (by omega)
    obtain ⟨status₂, hsecond⟩ := leads_attempt (i := 1) (by omega)
    refine ⟨status₂, (leads_job (.notLocalhost hlocal)).trans ?_⟩
    refine (leads_job (.notAnyHost hany)).trans (hfirst.trans (hsecond.trans ?_))
    exact (leads_job (.givenUp (by omega))).trans (leads_worker .finish (by simp))

/-- A thread that is about to look can put any address into the record that can be found. -/
theorem leads_record {rest : Text} (hw : f w = .idle) (hawake : ∀ v ≠ w, f v ≠ .waiting)
    (ht : IsJob t) (hfinds : Finds resolves t b) : ∃ status',
    Leads (Step resolves) (calm status a (feed t ++ rest) f) (calm status' b rest f) := by
  obtain ⟨port, hlookup⟩ := leads_lookup ht hfinds hawake
  obtain ⟨status', hidle⟩ := leads_idle
  refine ⟨status', ?_⟩
  rw [← Function.update_eq_self w f, hw]
  exact hlookup.trans hidle

/-- While thread 0 stands in a job, thread 1 puts addresses into the record. -/
theorem leads_beside {rest : Text} (ht : IsJob t) (hfinds : Finds resolves t b) : ∃ status',
    Leads (Step resolves)
      (calm status a (feed t ++ rest) (Function.update (fun _ => .idle) 0 (.job server pc)))
      (calm status' b rest (Function.update (fun _ => .idle) 0 (.job server pc))) := by
  have hother : ∀ v : Worker, v ≠ 1 → v = 0 := by decide
  refine leads_record (w := 1) rfl (fun v hv => ?_) ht hfinds
  rw [hother v hv]
  simp

/-- Three lookups of thread 1 pass the two checks of thread 0 and set the address. -/
theorem leads_connect (hopen : Open resolves a) : ∃ stdin stdin' t port status,
    Leads (Step resolves) (State.init stdin)
      (calm status a stdin' (Function.update (fun _ => .idle) 0 (.job t (.connect 0 a port)))) := by
  obtain ⟨⟨t, ht, hfinds⟩, ⟨c, ⟨u, hu, hfindsc⟩, hc⟩, ⟨d, ⟨v, hv, hfindsd⟩, hd⟩⟩ := hopen
  have hlookup : ∃ port, Leads (Step resolves)
      (calm (fun _ => []) 0 (feed t ++ (feed u ++ (feed v ++ (feed t ++ []))))
        (Function.update (fun _ => .idle) 0 .idle))
      (calm (fun _ => []) a (feed u ++ (feed v ++ (feed t ++ [])))
        (Function.update (fun _ => .idle) 0 (.job t (.checkLocalhost port)))) :=
    leads_lookup ht hfinds fun _ _ => by simp
  obtain ⟨port, hlookup⟩ := hlookup
  obtain ⟨status₁, hfirst⟩ := leads_beside hu hfindsc
  obtain ⟨status₂, hsecond⟩ := leads_beside hv hfindsd
  obtain ⟨status₃, hthird⟩ := leads_beside ht hfinds
  obtain ⟨status₄, hconnecting⟩ := leads_update (r := .socket 0 a port)
  refine ⟨feed t ++ (feed u ++ (feed v ++ (feed t ++ []))), [], t, port, status₄, ?_⟩
  rw [init_eq_calm _ 0]
  refine hlookup.trans (hfirst.trans ((leads_job (.notLocalhost hc)).trans ?_))
  refine hsecond.trans ((leads_job (.notAnyHost hd)).trans (hthird.trans ?_))
  refine (leads_job (.attempt (by omega))).trans (hconnecting.trans ?_)
  exact leads_job .socket

/-- An address is connected to in some run exactly when some job finds it, some job finds an
address that is not `127.0.0.1`, and some job finds one that is not `0.0.0.0`. -/
theorem connectable_iff : Connectable resolves a ↔
    Findable resolves a ∧ (∃ c, Findable resolves c ∧ c ≠ localhost) ∧
      ∃ d, Findable resolves d ∧ d ≠ anyHost := by
  refine ⟨open_of_connectable, fun hopen => ?_⟩
  obtain ⟨stdin, stdin', t, port, status, hleads⟩ := leads_connect hopen
  obtain ⟨history, hrun⟩ := hleads.reachable (reachable_init)
  have hjob : JobStep resolves 0 t ⟨none, [], status, a⟩ (.connect 0 a port)
      (.connected 0 a port) ⟨none, [], status, a⟩ (.lock [] (.attempt 1 port)) := .failed []
  have hstep : Step resolves
      (calm status a stdin' (Function.update (fun _ => .idle) 0 (.job t (.connect 0 a port))))
      (.connected 0 a port) _ :=
    .worker (w := 0) (by simp [calm]) (.job hjob)
  exact ⟨stdin, _, _, hrun.step hstep, _, List.mem_cons_self, 0, port, rfl⟩

end UnixProgramming.GetFlag
