import UnixProgramming.Logger.Blacklist
import UnixProgramming.Logger.Kernel

/-!
# The hijacked functions

`handle_symbolic_link`, `get_total_content`, `write_log_file` and the wrappers
`fopen`, `fread`, `fwrite`, `connect` and `getaddrinfo`. Every wrapper reads its
blacklist, calls the library function and only then adjusts the answer. Bytes that
the source leaves unspecified are arguments, and so is the text of the
configuration. Messages on standard error are left out.
-/

namespace UnixProgramming.Logger

/-- What all calls of a process share: the text of the file that `SOLVER_CONFIG`
names, `none` when it cannot be opened, and the process id. -/
structure Env where
  config : Option (List Char)
  pid : UInt32

/-- Memory that one call reads without having written it: whether `sb` looks like a
link when `lstat` fails, the bytes behind the terminator of `total_content`, the
bytes of `not_translate` behind the ones stored, and what follows a literal. -/
structure Unspecified where
  staleLink : Bool
  behindContent : List Char
  freshBuffer : List Char
  behindLiteral : ℕ → Char

/-- `PATH_MAX`. -/
def pathMax : ℕ := 4096

/-- `handle_symbolic_link`: one `readlink` step. A name that is not there is taken for
a link when the uninitialised `sb` says so, and then `readlink` fails. -/
def handleSymbolicLink (u : Unspecified) (stat : LinkStat) (filename : Path) :
    Except Fault Path :=
  match stat with
  | .missing => if u.staleLink then .error .exit else .ok filename
  | .other => .ok filename
  | .link target stSize => .ok (target.take (if stSize = 0 then pathMax else stSize + 1))

/-- `check_blacklist` with the markers of a function. -/
def Env.blacklist (env : Env) (a : Api) : Except Fault (Option (List (List Char))) :=
  checkBlacklist env.config a.beginMarker a.endMarker

/-! ## Logs -/

/-- The loop of `get_total_content`, on the memory from `p` on: the characters it
stores. After a newline the next character is stored unseen, a terminator as well. -/
def escapeLoop : List Char → List Char
  | [] => []
  | [c] => if c = '\x00' then [] else if c = '\n' then ['\\', 'n', '\x00'] else [c]
  | c :: d :: rest =>
    if c = '\x00' then []
    else if c = '\n' then '\\' :: 'n' :: d :: escapeLoop rest
    else c :: escapeLoop (d :: rest)

/-- `get_total_content`: the buffer `not_translate`, without a terminator of its own. -/
def getTotalContent (u : Unspecified) (memory : List Char) : List Char :=
  escapeLoop (cstring '\x00' memory ++ '\x00' :: u.behindContent) ++ u.freshBuffer

/-- The name `{pid}-{filename}-{functionname}.log`. -/
def logName (pid : UInt32) (filename functionname : List Char) : Path :=
  Nat.toDigits 10 pid.toNat ++ '-' :: filename ++ '-' :: functionname ++ ".log".toList

/-- `write_log_file`. The name is cut to the size of `log_filename`. -/
def writeLogFile (env : Env) (w : World) (filename content functionname : List Char) : World :=
  let log := (logName env.pid filename functionname).take 255
  { w with logs := Function.update w.logs log (w.logs log ++ content) }

/-- The name that the wrappers build for the descriptor of a stream. -/
def fdPath (stream : ℕ) : Path := "/proc/self/fd/".toList ++ Nat.toDigits 10 stream

/-- What `handle_symbolic_link` gives for the descriptor of an open stream. -/
theorem handleSymbolicLink_fd {u : Unspecified} {w : World} {s : Stream} {stream : ℕ}
    (hstream : w.streams[stream]? = some s) :
    handleSymbolicLink u (w.fdLink stream) (fdPath stream) =
      .ok (s.path.take (procLinkSize + 1)) := by
  rw [World.fdLink, hstream]
  rfl

/-- The two entries that log one call: the content and a newline. -/
def logCall (env : Env) (w : World) (filename content functionname : List Char) : World :=
  writeLogFile env (writeLogFile env w filename content functionname) filename ['\n'] functionname

/-! ## The wrappers -/

/-- `fopen`. -/
def fopen (env : Env) (u : Unspecified) (w : World) (filename mode : List Char) :
    Except Fault (Answer (Option ℕ) × World) := do
  let blacklist ← env.blacklist .fopen
  let realFilename ← handleSymbolicLink u (lstat w.files filename) filename
  let inBlacklist := compareBlacklist filename blacklist || compareBlacklist realFilename blacklist
  let (file, w) := w.fopen filename mode
  pure (if inBlacklist then ⟨none, some .eacces⟩ else file, w)

/-- The bytes that `memcpy(ptr, "\0", amount)` copies. -/
def literalBytes (u : Unspecified) (amount : ℕ) : List Char :=
  (List.range amount).map fun i => if i < 2 then '\x00' else u.behindLiteral i

/-- The offset `-size * nmemb` of a blocked read: computed in `size_t`, and taken as the
`long` that `fseek` asks for. -/
def seekOffset (size nmemb : ℕ) : ℤ := (-BitVec.ofNat 64 size * BitVec.ofNat 64 nmemb).toInt

/-- `fread`, with the memory at the pointer before and after the call. The keywords
are searched in everything that was asked for, and a blocked read moves the stream
back by that amount. When `fseek` refuses to, it replaces the error number. -/
def fread (env : Env) (u : Unspecified) (w : World) (memory : List Char)
    (size nmemb stream : ℕ) : Except Fault (Answer ℕ × List Char × World) := do
  let blacklist ← env.blacklist .fread
  let realPath ← handleSymbolicLink u (w.fdLink stream) (fdPath stream)
  let (onlyFilename, buffer) := handleFilename w.onlyFilename realPath 0
  let w := { w with onlyFilename := buffer }
  let bytes := w.transferred size nmemb stream
  let memory := bytes ++ memory.drop bytes.length
  let (answer, w) := w.fread size nmemb stream
  match blacklist with
  | none => .error .nullPointer
  | some blacklist =>
    if compareRead (cstring '\x00' (memory.take (size * nmemb))) blacklist then
      let offset := seekOffset size nmemb
      let errno := if w.AcceptsOffset stream offset then Errno.eacces else .einval
      pure (⟨0, some errno⟩, literalBytes u (size * nmemb) ++ memory.drop (size * nmemb),
        w.seekBy stream offset)
    else
      pure (answer, memory, logCall env w onlyFilename (cstring '\x00' memory) "read".toList)

/-- `fwrite`, with the memory at the pointer. -/
def fwrite (env : Env) (u : Unspecified) (w : World) (memory : List Char)
    (size nmemb stream : ℕ) : Except Fault (Answer ℕ × World) := do
  let blacklist ← env.blacklist .fwrite
  let realPath ← handleSymbolicLink u (w.fdLink stream) (fdPath stream)
  let (onlyFilename, buffer) := handleFilename w.onlyFilename realPath 0
  let w := { w with onlyFilename := buffer }
  let inBlacklist := compareBlacklist realPath blacklist
  let totalContent := getTotalContent u memory
  let (answer, w) := w.fwrite memory size nmemb stream
  if inBlacklist then pure (⟨0, some .eacces⟩, w)
  else
    let logContent := cstring '\x00' (totalContent.take (size * nmemb))
    pure (answer, logCall env w onlyFilename logContent "write".toList)

/-- `connect`. -/
def connect (env : Env) (w : World) (sockfd : ℕ) (addr : SockAddr) :
    Except Fault (Answer ℤ × World) := do
  let blacklist ← env.blacklist .connect
  let inBlacklist := compareBlacklist (inetNtoa addr) blacklist
  let (answer, w) := w.connect sockfd addr
  pure (if inBlacklist then ⟨-1, some .econnrefused⟩ else answer, w)

/-- `getaddrinfo`, with the list stored for the caller. -/
def getaddrinfo (env : Env) (w : World) (node : List Char) :
    Except Fault (Answer ℤ × List SockAddr × World) := do
  let blacklist ← env.blacklist .getaddrinfo
  let inBlacklist := compareBlacklist node blacklist
  let (answer, addresses) := w.getaddrinfo node
  pure (if inBlacklist then ⟨eaiNoname, some .eaiNoname⟩ else answer, addresses, w)

end UnixProgramming.Logger
