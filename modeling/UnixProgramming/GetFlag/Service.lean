import UnixProgramming.Lib.Runs
import UnixProgramming.Lib.Tokens
import UnixProgramming.Libsolver.Load

/-!
# The GetFlag service

`main` reads commands and appends jobs to a list, and two threads take them from there. The
list and the two status texts are guarded by one mutex, and a thread that finds no job waits
on a condition variable. A job names a server, whose address is looked up, checked twice and
then connected to. `gethostbyname2` returns its answer in a static record, so the address
that a job checks and connects to is read from memory that the other thread shares.
-/

namespace UnixProgramming.GetFlag

open Libsolver (isSpace scanInt)

/-- A string of the program. -/
abbrev Text := List Char

/-- An address of the Internet, in host byte order. -/
abbrev IpAddr := BitVec 32

/-- A port. -/
abbrev Port := BitVec 16

/-- `0x7f000001`, from where nothing may be got. -/
def localhost : IpAddr := 0x7f000001#32

/-- `0.0.0.0`, from where nothing may be got either. -/
def anyHost : IpAddr := 0#32

/-- The argument of `threadproc`. -/
abbrev Worker := Fin 2

/-- The threads of the process. -/
inductive Thread
  | main
  | worker (w : Worker)
deriving DecidableEq

/-! ## Texts -/

/-- `atoi`. -/
def atoi (s : Text) : BitVec 32 := ((scanInt s).map Prod.fst).getD 0

/-- The server and the port of a job, in the first 1023 characters of its text. -/
def parseJob (server : Text) : Option (Text × Port) :=
  match strtok (· = '/') (server.take 1023) with
  | none => none
  | some (host, rest) => (strtok (· = '/') rest).map fun tok => (host, (atoi tok.1).setWidth 16)

/-- The name that `gethostbyname2` finds in `addr`. `strncpy` does not end a name of 64
characters or more, which then goes on with what is `behind` the array. -/
def addrName (behind host : Text) : Text :=
  if host.length < 64 then host else host.take 64 ++ behind

/-- `%u` of a number. -/
def decimal (n : ℕ) : Text := (toString n).toList

/-- The bytes of an address, as `NIPQUAD` prints them. -/
def nipquad (a : IpAddr) : Text :=
  decimal (a.toNat / 2 ^ 24) ++ ['.'] ++ decimal (a.toNat / 2 ^ 16 % 2 ^ 8) ++ ['.'] ++
    decimal (a.toNat / 2 ^ 8 % 2 ^ 8) ++ ['.'] ++ decimal (a.toNat % 2 ^ 8)

/-- The status of a job before its `i`-th attempt, counted from zero. -/
def connecting (a : IpAddr) (port : Port) (i : ℕ) : Text :=
  "Connecting to ".toList ++ nipquad a ++ [':'] ++ decimal port.toNat ++ " ... (".toList ++
    decimal (i + 1) ++ [')']

/-- What `update_status` stores. -/
def statusText (pfx msg : Text) : Text := ['['] ++ pfx ++ "] ".toList ++ msg

/-- `isprint`. -/
def isPrint (c : Char) : Bool := 32 ≤ c.toNat && c.toNat ≤ 126

/-- A character of an answer as it is shown. -/
def shown (c : Char) : Char := if isSpace c then ' ' else if isPrint c then c else '.'

/-! ## States -/

/-- What is left of `do_job` after `update_status`: the `i`-th attempt and those after it, the
rest of this attempt, or nothing. -/
inductive Rest
  | attempt (i : ℕ) (port : Port)
  | socket (i : ℕ) (a : IpAddr) (port : Port)
  | done

/-- Where a job stands. The last three places are those of `update_status`. -/
inductive JobPc
  | parse
  | lookup (host : Text) (port : Port)
  | checkLocalhost (port : Port)
  | checkAny (port : Port)
  | rest (r : Rest)
  | connect (i : ℕ) (a : IpAddr) (port : Port)
  | lock (msg : Text) (r : Rest)
  | write (msg : Text) (r : Rest)
  | unlock (r : Rest)

/-- Where `threadproc` stands. Only when a job has been taken is `s` not empty. -/
inductive WorkerPc
  | idle
  | getJob
  | front
  | popFront (s : Text)
  | test (s : Text)
  | waiting
  | woken
  | unlock (s : Text)
  | job (server : Text) (pc : JobPc)

/-- What `check_job` and `view_job` print. -/
inductive Listing
  | jobs
  | status

/-- Where `main` stands. -/
inductive MainPc
  | menu
  | askServer
  | addLock (s : Text)
  | addPush (s : Text)
  | addUnlock
  | addSignal
  | listLock (what : Listing)
  | list (what : Listing)
  | listUnlock
  | exited

/-- What the threads share. `hostAddr` is the address in the record of `gethostbyname2`. -/
structure Shared where
  mutex : Option Thread
  jobs : List Text
  status : Worker → Text
  hostAddr : IpAddr

/-- The state of the process, with the input that is still to be read. -/
structure State extends Shared where
  stdin : Text
  main : MainPc
  worker : Worker → WorkerPc

/-- The process when the threads have been created. -/
def State.init (stdin : Text) : State where
  mutex := none
  jobs := []
  status := fun _ => []
  hostAddr := 0
  stdin := stdin
  main := .menu
  worker := fun _ => .idle

/-- What can be observed of a step. -/
inductive Event
  | internal
  | input
  | spurious (w : Worker)
  | added (s : Text)
  | took (w : Worker) (s : Text)
  | resolved (w : Worker) (a : IpAddr)
  | connected (w : Worker) (a : IpAddr) (port : Port)
  | listed (jobs : List Text)
  | viewed (status : Worker → Text)

/-! ## Jobs -/

/-- One step of `do_job`. What a name resolves to and what becomes of a connection is up to the
network; a lookup that fails leaves the record as it is. -/
inductive JobStep (resolves : Text → IpAddr → Prop) (w : Worker) (server : Text) :
    Shared → JobPc → Event → Shared → JobPc → Prop
  | incorrect {sh : Shared} : parseJob server = none →
      JobStep resolves w server sh .parse .internal sh
        (.lock "Incorrect server input!".toList .done)
  | parsed {sh : Shared} {host : Text} {port : Port} : parseJob server = some (host, port) →
      JobStep resolves w server sh .parse .internal sh (.lookup host port)
  | resolved {sh : Shared} {host behind : Text} {port : Port} {a : IpAddr} :
      resolves (addrName behind host) a →
      JobStep resolves w server sh (.lookup host port) (.resolved w a)
        { sh with hostAddr := a } (.checkLocalhost port)
  | unresolved {sh : Shared} {host : Text} {port : Port} :
      JobStep resolves w server sh (.lookup host port) .internal sh
        (.lock "Resolve failed.".toList .done)
  | isLocalhost {sh : Shared} {port : Port} : sh.hostAddr = localhost →
      JobStep resolves w server sh (.checkLocalhost port) .internal sh
        (.lock "Get from localhost is not allowed!".toList .done)
  | notLocalhost {sh : Shared} {port : Port} : sh.hostAddr ≠ localhost →
      JobStep resolves w server sh (.checkLocalhost port) .internal sh (.checkAny port)
  | isAnyHost {sh : Shared} {port : Port} : sh.hostAddr = anyHost →
      JobStep resolves w server sh (.checkAny port) .internal sh
        (.lock "Get from * is not allowed!".toList .done)
  | notAnyHost {sh : Shared} {port : Port} : sh.hostAddr ≠ anyHost →
      JobStep resolves w server sh (.checkAny port) .internal sh (.rest (.attempt 0 port))
  | attempt {sh : Shared} {i : ℕ} {port : Port} : i < 2 →
      JobStep resolves w server sh (.rest (.attempt i port)) .internal sh
        (.lock (connecting sh.hostAddr port i) (.socket i sh.hostAddr port))
  | givenUp {sh : Shared} {i : ℕ} {port : Port} : ¬i < 2 →
      JobStep resolves w server sh (.rest (.attempt i port)) .internal sh (.rest .done)
  | noSocket {sh : Shared} {i : ℕ} {a : IpAddr} {port : Port} (errno : Text) :
      JobStep resolves w server sh (.rest (.socket i a port)) .internal sh
        (.lock errno (.attempt (i + 1) port))
  | socket {sh : Shared} {i : ℕ} {a : IpAddr} {port : Port} :
      JobStep resolves w server sh (.rest (.socket i a port)) .internal sh (.connect i a port)
  -- connect, write or read fails, or there is nothing to read
  | failed {sh : Shared} {i : ℕ} {a : IpAddr} {port : Port} (errno : Text) :
      JobStep resolves w server sh (.connect i a port) (.connected w a port) sh
        (.lock errno (.attempt (i + 1) port))
  | gotIt {sh : Shared} {i : ℕ} {a : IpAddr} {port : Port} (buf : Text) :
      buf ≠ [] → buf.length ≤ 1023 →
      JobStep resolves w server sh (.connect i a port) (.connected w a port) sh
        (.lock (buf.map shown) .done)
  | lock {sh : Shared} {msg : Text} {r : Rest} : sh.mutex = none →
      JobStep resolves w server sh (.lock msg r) .internal
        { sh with mutex := some (.worker w) } (.write msg r)
  | write {sh : Shared} {msg : Text} {r : Rest} :
      JobStep resolves w server sh (.write msg r) .internal
        { sh with status := Function.update sh.status w (statusText server msg) } (.unlock r)
  | unlock {sh : Shared} {r : Rest} :
      JobStep resolves w server sh (.unlock r) .internal { sh with mutex := none } (.rest r)

/-! ## Threads -/

/-- One step of `threadproc`. The front of an empty list is not defined, so there is no step. -/
inductive WorkerStep (resolves : Text → IpAddr → Prop) (w : Worker) :
    Shared → WorkerPc → Event → Shared → WorkerPc → Prop
  | lock {sh : Shared} : sh.mutex = none →
      WorkerStep resolves w sh .idle .internal { sh with mutex := some (.worker w) } .getJob
  | found {sh : Shared} : sh.jobs.length > 0 →
      WorkerStep resolves w sh .getJob .internal sh .front
  | empty {sh : Shared} : ¬sh.jobs.length > 0 →
      WorkerStep resolves w sh .getJob .internal sh (.test [])
  | front {sh : Shared} {s : Text} : sh.jobs.head? = some s →
      WorkerStep resolves w sh .front .internal sh (.popFront s)
  | popFront {sh : Shared} {s : Text} :
      WorkerStep resolves w sh (.popFront s) (.took w s) { sh with jobs := sh.jobs.tail }
        (.test s)
  -- pthread_cond_wait gives the mutex back
  | wait {sh : Shared} :
      WorkerStep resolves w sh (.test []) .internal { sh with mutex := none } .waiting
  | spurious {sh : Shared} : WorkerStep resolves w sh .waiting (.spurious w) sh .woken
  | relock {sh : Shared} : sh.mutex = none →
      WorkerStep resolves w sh .woken .internal { sh with mutex := some (.worker w) } .getJob
  | got {sh : Shared} {s : Text} : s ≠ [] →
      WorkerStep resolves w sh (.test s) .internal sh (.unlock s)
  | unlock {sh : Shared} {s : Text} :
      WorkerStep resolves w sh (.unlock s) .internal { sh with mutex := none } (.job s .parse)
  | job {sh sh' : Shared} {server : Text} {pc pc' : JobPc} {e : Event} :
      JobStep resolves w server sh pc e sh' pc' →
      WorkerStep resolves w sh (.job server pc) e sh' (.job server pc')
  | finish {sh : Shared} {server : Text} :
      WorkerStep resolves w sh (.job server (.rest .done)) .internal sh .idle

/-- What `main` does with the first character of a line of the menu. There is none at the end
of the input, where `menu` returns `'?'`. -/
def command : Option Char → MainPc
  | some 'q' => .exited
  | some 'g' => .askServer
  | some 'c' => .listLock .jobs
  | some 'v' => .listLock .status
  | _ => .menu

/-- What it does with the line that names a server. -/
def request (line : Text) : MainPc :=
  match firstWord line with
  | some ptr => .addLock ptr
  | none => .menu

/-- One step of `main`, on the input, the shared part and the place where it stands. To signal
is a step of the whole process. -/
inductive MainStep : Text → Shared → MainPc → Event → Text → Shared → MainPc → Prop
  | menu {stdin : Text} {sh : Shared} :
      MainStep stdin sh .menu .input (readLine '\n' 63 stdin).2 sh
        (command (readLine '\n' 63 stdin).1.head?)
  | askServer {stdin : Text} {sh : Shared} :
      MainStep stdin sh .askServer .input (readLine '\n' 255 stdin).2 sh
        (request (readLine '\n' 255 stdin).1)
  | addLock {stdin s : Text} {sh : Shared} : sh.mutex = none →
      MainStep stdin sh (.addLock s) .internal stdin { sh with mutex := some .main } (.addPush s)
  | addPush {stdin s : Text} {sh : Shared} :
      MainStep stdin sh (.addPush s) (.added s) stdin { sh with jobs := sh.jobs ++ [s] }
        .addUnlock
  | addUnlock {stdin : Text} {sh : Shared} :
      MainStep stdin sh .addUnlock .internal stdin { sh with mutex := none } .addSignal
  | listLock {stdin : Text} {sh : Shared} {what : Listing} : sh.mutex = none →
      MainStep stdin sh (.listLock what) .internal stdin { sh with mutex := some .main }
        (.list what)
  | listJobs {stdin : Text} {sh : Shared} :
      MainStep stdin sh (.list .jobs) (.listed sh.jobs) stdin sh .listUnlock
  | listStatus {stdin : Text} {sh : Shared} :
      MainStep stdin sh (.list .status)
        (.viewed fun w => if sh.status w = [] then "<none>".toList else sh.status w)
        stdin sh .listUnlock
  | listUnlock {stdin : Text} {sh : Shared} :
      MainStep stdin sh .listUnlock .internal stdin { sh with mutex := none } .menu

/-- A step of the process, which ends when `main` returns. A signal wakes one of the threads
that wait, if there are any. -/
inductive Step (resolves : Text → IpAddr → Prop) : State → Event → State → Prop
  | main {s : State} {e : Event} {stdin : Text} {sh : Shared} {pc : MainPc} :
      MainStep s.stdin s.toShared s.main e stdin sh pc →
      Step resolves s e { s with toShared := sh, stdin := stdin, main := pc }
  | signal {s : State} {w : Worker} : s.main = .addSignal → s.worker w = .waiting →
      Step resolves s .internal
        { s with main := .menu, worker := Function.update s.worker w .woken }
  | unheard {s : State} : s.main = .addSignal → (∀ w, s.worker w ≠ .waiting) →
      Step resolves s .internal { s with main := .menu }
  | worker {s : State} {w : Worker} {e : Event} {sh : Shared} {pc : WorkerPc} :
      s.main ≠ .exited → WorkerStep resolves w s.toShared (s.worker w) e sh pc →
      Step resolves s e { s with toShared := sh, worker := Function.update s.worker w pc }

end UnixProgramming.GetFlag
