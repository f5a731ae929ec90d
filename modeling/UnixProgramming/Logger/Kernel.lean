import UnixProgramming.Lib.CStrings
import Mathlib.Logic.Function.Basic

/-!
# Files, streams and sockets

The library functions that the wrappers call: `fopen`, `fread`, `fwrite`, `fseek`,
`connect`, `getaddrinfo`, `lstat` and `readlink`, over the files, streams and
sockets of one process. A file system says what is found under every spelling of
a path, so that a directory may itself be reached through links.
-/

namespace UnixProgramming.Logger

/-- A path as the program spells it. -/
abbrev Path := List Char

/-- What stands at a path: a regular file or a symbolic link. -/
inductive Node
  | file (content : List Char)
  | link (target : Path)
  deriving DecidableEq, Repr

/-- The files and links, by path. -/
abbrev FileSystem := Path → Option Node

/-- The path that a link stands for: its text, taken from the directory of the link
unless it is absolute. -/
def targetPath (link target : Path) : Path :=
  if target.head? = some '/' then target else throughLast '/' link ++ target

/-- Following the links from a path to the end reaches the regular file at `last`. -/
inductive EndsAt (files : FileSystem) : Path → Path → Prop
  | file {path : Path} {content : List Char} :
      files path = some (.file content) → EndsAt files path path
  | link {path target last : Path} : files path = some (.link target) →
      EndsAt files (targetPath path target) last → EndsAt files path last

/-- The links that the kernel follows for one path at most. -/
def maxSymlinks : ℕ := 40

/-- The path behind the links, `none` when there are too many. -/
def resolve (files : FileSystem) : ℕ → Path → Option Path
  | 0, _ => none
  | n + 1, path =>
    match files path with
    | some (.link target) => resolve files n (targetPath path target)
    | _ => some path

/-- The error numbers that a call may leave in `errno`. -/
inductive Errno
  | eacces
  | econnrefused
  | eaiNoname
  | enoent
  | eexist
  | eloop
  | einval
  | ebadf
  | eisconn
  deriving DecidableEq, Repr

/-- What a call returns, and `errno` when the call sets it. -/
structure Answer (ρ : Type) where
  ret : ρ
  errno : Option Errno
  deriving DecidableEq, Repr

/-- An open stream of the process, with the bytes written through it so far. -/
structure Stream where
  path : Path
  position : ℕ
  readable : Bool
  writable : Bool
  append : Bool
  written : List Char
  deriving DecidableEq, Repr

/-- An IPv4 socket address. -/
structure SockAddr where
  sinAddr : UInt8 × UInt8 × UInt8 × UInt8
  sinPort : UInt16
  deriving DecidableEq, Repr

/-- A socket: a stream or a datagram socket, and the peer it is connected to. -/
structure Socket where
  stream : Bool
  peer : Option SockAddr
  deriving DecidableEq, Repr

/-- The state that the calls of one process work on. `creatable` says where a new
file can be created, `accepts` which peers accept a connection, `hosts` what the
name service answers. `onlyFilename` is the static buffer of `handle_filename`,
and `logs` holds the log files by name. -/
structure World where
  files : FileSystem
  creatable : Path → Bool
  streams : List Stream
  sockets : ℕ → Option Socket
  accepts : SockAddr → Bool
  hosts : List Char → Option (List SockAddr)
  onlyFilename : List Char
  logs : Path → List Char

/-! ## Opening -/

/-- What a mode string asks for. -/
structure OpenFlags where
  readable : Bool
  writable : Bool
  create : Bool
  truncate : Bool
  append : Bool
  exclusive : Bool
  deriving DecidableEq, Repr

/-- The mode strings of the library: `r`, `w` or `a`, then `+` and `x` among the
next six characters. Other characters are ignored. -/
def openFlags : List Char → Option OpenFlags
  | [] => none
  | kind :: options =>
    let update := (options.take 6).contains '+'
    let exclusive := (options.take 6).contains 'x'
    if kind = 'r' then some ⟨true, update, false, false, false, exclusive⟩
    else if kind = 'w' then some ⟨update, true, true, true, false, exclusive⟩
    else if kind = 'a' then some ⟨update, true, true, false, true, exclusive⟩
    else none

/-- Put a node at a path. -/
def World.setFile (w : World) (path : Path) (node : Node) : World :=
  { w with files := Function.update w.files path (some node) }

/-- Add an open stream. The new `FILE *` is its place in the list. -/
def World.addStream (w : World) (path : Path) (flags : OpenFlags) : Answer (Option ℕ) × World :=
  (⟨some w.streams.length, none⟩,
    { w with
      streams := w.streams ++ [⟨path, 0, flags.readable, flags.writable, flags.append, []⟩] })

/-- Create a file and open it. -/
def World.create (w : World) (path : Path) (flags : OpenFlags) : Answer (Option ℕ) × World :=
  if w.creatable path then (w.setFile path (.file [])).addStream path flags
  else (⟨none, some .enoent⟩, w)

/-- The library's `fopen`. An exclusive creation does not follow links. -/
def World.fopen (w : World) (filename mode : List Char) : Answer (Option ℕ) × World :=
  match openFlags mode with
  | none => (⟨none, some .einval⟩, w)
  | some flags =>
    if flags.create && flags.exclusive then
      if (w.files filename).isSome then (⟨none, some .eexist⟩, w) else w.create filename flags
    else
      match resolve w.files (maxSymlinks + 1) filename with
      | none => (⟨none, some .eloop⟩, w)
      | some path =>
        match w.files path with
        | some (.file _) =>
          if flags.truncate then (w.setFile path (.file [])).addStream path flags
          else w.addStream path flags
        | _ => if flags.create then w.create path flags else (⟨none, some .enoent⟩, w)

/-! ## Reading and writing -/

/-- The content of the file at a path. -/
def FileSystem.content (files : FileSystem) (path : Path) : List Char :=
  match files path with
  | some (.file content) => content
  | _ => []

/-- Write into a content at a position, with zeros in a gap before it. -/
def writeAt (content : List Char) (position : ℕ) (data : List Char) : List Char :=
  content.take position ++ List.replicate (position - content.length) '\x00' ++ data ++
    content.drop (position + data.length)

/-- Replace the content of a file that still exists. -/
def World.setContent (w : World) (path : Path) (content : List Char) : World :=
  match w.files path with
  | some (.file _) => w.setFile path (.file content)
  | _ => w

@[simp] theorem World.streams_setContent (w : World) (path : Path) (content : List Char) :
    (w.setContent path content).streams = w.streams := by
  unfold World.setContent
  split <;> rfl

@[simp] theorem World.onlyFilename_setContent (w : World) (path : Path) (content : List Char) :
    (w.setContent path content).onlyFilename = w.onlyFilename := by
  unfold World.setContent
  split <;> rfl

@[simp] theorem World.logs_setContent (w : World) (path : Path) (content : List Char) :
    (w.setContent path content).logs = w.logs := by
  unfold World.setContent
  split <;> rfl

/-- The state after the bytes `data` were put into an open stream. -/
def World.put (w : World) (stream : ℕ) (s : Stream) (data : List Char) : World :=
  let content := w.files.content s.path
  let start := if s.append then content.length else s.position
  let w := w.setContent s.path (writeAt content start data)
  let s := { s with position := start + data.length, written := s.written ++ data }
  { w with streams := w.streams.set stream s }

/-- The library's `fwrite`, with the memory at the pointer. -/
def World.fwrite (w : World) (memory : List Char) (size nmemb stream : ℕ) :
    Answer ℕ × World :=
  match w.streams[stream]? with
  | none => (⟨0, some .ebadf⟩, w)
  | some s =>
    let data := memory.take (size * nmemb)
    if data = [] then (⟨0, none⟩, w)
    else if s.writable then (⟨nmemb, none⟩, w.put stream s data)
    else (⟨0, some .ebadf⟩, w)

/-- The bytes that the library's `fread` transfers. -/
def World.transferred (w : World) (size nmemb stream : ℕ) : List Char :=
  match w.streams[stream]? with
  | none => []
  | some s =>
    if s.readable then ((w.files.content s.path).drop s.position).take (size * nmemb) else []

/-- Move the position of a stream. -/
def World.seek (w : World) (stream position : ℕ) : World :=
  { w with streams := w.streams.modify stream fun s => { s with position := position } }

/-- The position of a stream. -/
def World.position (w : World) (stream : ℕ) : ℕ :=
  match w.streams[stream]? with
  | none => 0
  | some s => s.position

/-- The library's `fread`: the number of whole items, and the position behind the bytes. -/
def World.fread (w : World) (size nmemb stream : ℕ) : Answer ℕ × World :=
  let bytes := w.transferred size nmemb stream
  (⟨bytes.length / size, none⟩, w.seek stream (w.position stream + bytes.length))

/-- `fseek` with `SEEK_CUR` takes an offset that does not lead before the start. -/
def World.AcceptsOffset (w : World) (stream : ℕ) (offset : ℤ) : Prop :=
  0 ≤ w.position stream + offset

instance (w : World) (stream : ℕ) (offset : ℤ) : Decidable (w.AcceptsOffset stream offset) :=
  inferInstanceAs (Decidable (_ ≤ _))

/-- `fseek(stream, offset, SEEK_CUR)`: a position before the start is refused. -/
def World.seekBy (w : World) (stream : ℕ) (offset : ℤ) : World :=
  if w.AcceptsOffset stream offset then w.seek stream (w.position stream + offset).toNat else w

/-! ## The network -/

/-- `inet_ntoa`: the dotted decimal text of an address. -/
def inetNtoa (a : SockAddr) : List Char :=
  let text (byte : UInt8) : List Char := Nat.toDigits 10 byte.toNat
  text a.sinAddr.1 ++ '.' :: text a.sinAddr.2.1 ++ '.' :: text a.sinAddr.2.2.1 ++
    '.' :: text a.sinAddr.2.2.2

/-- The state after a socket got a peer. -/
def World.setPeer (w : World) (sockfd : ℕ) (s : Socket) (addr : SockAddr) : World :=
  { w with sockets := Function.update w.sockets sockfd (some { s with peer := some addr }) }

/-- The library's `connect`. A datagram socket only records its peer. -/
def World.connect (w : World) (sockfd : ℕ) (addr : SockAddr) : Answer ℤ × World :=
  match w.sockets sockfd with
  | none => (⟨-1, some .ebadf⟩, w)
  | some s =>
    if s.stream then
      if s.peer.isSome then (⟨-1, some .eisconn⟩, w)
      else if w.accepts addr then (⟨0, none⟩, w.setPeer sockfd s addr)
      else (⟨-1, some .econnrefused⟩, w)
    else (⟨0, none⟩, w.setPeer sockfd s addr)

/-- `EAI_NONAME`. -/
def eaiNoname : ℤ := -2

/-- The library's `getaddrinfo`: the return value and the list stored for the caller. -/
def World.getaddrinfo (w : World) (node : List Char) : Answer ℤ × List SockAddr :=
  match w.hosts node with
  | none => (⟨eaiNoname, none⟩, [])
  | some addresses => (⟨0, none⟩, addresses)

/-! ## Links -/

/-- What `lstat` and `readlink` say about a name. -/
inductive LinkStat
  | missing
  | other
  | link (target : Path) (stSize : ℕ)
  deriving DecidableEq, Repr

/-- A name in the file system: `st_size` of a link is the length of its text. -/
def lstat (files : FileSystem) (path : Path) : LinkStat :=
  match files path with
  | none => .missing
  | some (.file _) => .other
  | some (.link target) => .link target target.length

/-- `st_size` of a link under `/proc/self/fd`. -/
def procLinkSize : ℕ := 64

/-- The link `/proc/self/fd/%d` of an open stream. -/
def World.fdLink (w : World) (stream : ℕ) : LinkStat :=
  match w.streams[stream]? with
  | none => .missing
  | some s => .link s.path procLinkSize

/-- The links from a path end at one file at most. -/
theorem EndsAt.unique {files : FileSystem} {path last last' : Path}
    (hends : EndsAt files path last) (hends' : EndsAt files path last') : last = last' := by
  induction hends with
  | file hfile =>
    cases hends' with
    | file => rfl
    | link hlink => simp [hfile] at hlink
  | link hlink _ ih =>
    cases hends' with
    | file hfile => simp [hlink] at hfile
    | link hlink' hrest =>
      rw [hlink, Option.some.injEq, Node.link.injEq] at hlink'
      exact ih (hlink' ▸ hrest)

end UnixProgramming.Logger
