import UnixProgramming.Logger.Links

/-!
# Blocked calls and their effects

A call whose argument is blacklisted must fail with the documented error and
change nothing. The wrappers call the library first and adjust the answer
afterwards, so a blocked call is without effect exactly when the library's own
call would change nothing.
-/

namespace UnixProgramming.Logger

/-- The calls that a blacklist of names can block. -/
inductive Call
  | fopen (filename mode : List Char)
  | fwrite (memory : List Char) (size nmemb stream : ℕ)
  | connect (sockfd : ℕ) (addr : SockAddr)
  | getaddrinfo (node : List Char)

/-- The files, the open streams, the sockets and the logs are as before. The library
may have added a stream. -/
structure Untouched (w w' : World) : Prop where
  files : w'.files = w.files
  streams : w.streams <+: w'.streams
  sockets : w'.sockets = w.sockets
  logs : w'.logs = w.logs

/-- The argument of a call is in the blacklist of its function. For `fwrite` it is
the file of the stream, for `connect` the text of the address. -/
def Blacklisted (env : Env) (w : World) : Call → Prop
  | .fopen filename _ => ∃ bl, env.blacklist .fopen = .ok bl ∧ Listed bl filename
  | .fwrite _ _ _ stream => ∃ bl, env.blacklist .fwrite = .ok bl ∧
      ∃ s, w.streams[stream]? = some s ∧ Listed bl s.path
  | .connect _ addr => ∃ bl, env.blacklist .connect = .ok bl ∧ Listed bl (inetNtoa addr)
  | .getaddrinfo node => ∃ bl, env.blacklist .getaddrinfo = .ok bl ∧ Listed bl node

/-- A call returns its documented error value and leaves everything as it was. -/
def RefusedWithoutEffect (env : Env) (u : Unspecified) (w : World) : Call → Prop
  | .fopen filename mode =>
    ∃ w', fopen env u w filename mode = .ok (⟨none, some .eacces⟩, w') ∧ Untouched w w'
  | .fwrite memory size nmemb stream =>
    ∃ w', fwrite env u w memory size nmemb stream = .ok (⟨0, some .eacces⟩, w') ∧ Untouched w w'
  | .connect sockfd addr =>
    ∃ w', connect env w sockfd addr = .ok (⟨-1, some .econnrefused⟩, w') ∧ Untouched w w'
  | .getaddrinfo node =>
    ∃ errno addresses w', getaddrinfo env w node = .ok (⟨eaiNoname, errno⟩, addresses, w') ∧
      Untouched w w'

/-- Opening with a mode neither empties a file nor creates one. -/
def OpensQuietly (w : World) (filename mode : List Char) : Prop :=
  ∀ flags, openFlags mode = some flags →
    if flags.create && flags.exclusive then
      (w.files filename).isSome = true ∨ w.creatable filename = false
    else
      ∀ path, resolve w.files (maxSymlinks + 1) filename = some path →
        match w.files path with
        | some (.file content) => flags.truncate = true → content = []
        | _ => flags.create = true → w.creatable path = false

/-- The inputs on which the library's own call changes nothing. A missing path must
not be taken for a link either. -/
def Quiet (u : Unspecified) (w : World) : Call → Prop
  | .fopen filename mode =>
    (w.files filename = none → u.staleLink = false) ∧ OpensQuietly w filename mode
  | .fwrite memory size nmemb stream =>
    memory.take (size * nmemb) = [] ∨
      ∀ s, w.streams[stream]? = some s → s.writable = false
  | .connect sockfd addr =>
    ∀ s, w.sockets sockfd = some s →
      if s.stream then s.peer.isSome = true ∨ w.accepts addr = false else s.peer = some addr
  | .getaddrinfo _ => True

variable {env : Env} {u : Unspecified} {w w' : World} {path filename mode memory : List Char}
variable {size nmemb stream sockfd : ℕ} {addr : SockAddr} {flags : OpenFlags}
variable {blacklist : Option (List (List Char))}

/-- Nothing happened. -/
theorem Untouched.refl (w : World) : Untouched w w :=
  ⟨rfl, List.prefix_refl _, rfl, rfl⟩

/-! ## The library's effects -/

/-- Opening an existing file as it is changes nothing. -/
theorem untouched_addStream : Untouched w (w.addStream path flags).2 :=
  ⟨rfl, List.prefix_append _ _, rfl, rfl⟩

/-- Emptying a file before opening it changes nothing when it was empty. -/
theorem untouched_truncate {content : List Char} (hfile : w.files path = some (.file content)) :
    Untouched w ((w.setFile path (.file [])).addStream path flags).2 ↔ content = [] := by
  constructor
  · intro huntouched
    have hsame : Function.update w.files path (some (.file [])) path = w.files path :=
      congrFun huntouched.files path
    rw [Function.update_self, hfile, Option.some.injEq, Node.file.injEq] at hsame
    exact hsame.symm
  · rintro rfl
    refine ⟨?_, List.prefix_append _ _, rfl, rfl⟩
    exact Function.update_eq_self_iff.mpr hfile.symm

/-- Creating a missing file changes nothing when it is refused. -/
theorem untouched_create (hmissing : w.files path = none) :
    Untouched w (w.create path flags).2 ↔ w.creatable path = false := by
  unfold World.create
  cases hcreatable : w.creatable path with
  | false => simp [Untouched.refl]
  | true =>
    simp only [if_true, Bool.true_eq_false, iff_false]
    intro huntouched
    have hsame : Function.update w.files path (some (.file [])) path = w.files path :=
      congrFun huntouched.files path
    rw [Function.update_self, hmissing] at hsame
    cases hsame

/-- Behind the links there is no link. -/
theorem resolve_ne_link {files : FileSystem} {n : ℕ} {target : Path}
    (hresolve : resolve files n filename = some path) : files path ≠ some (.link target) := by
  induction n generalizing filename with
  | zero => cases hresolve
  | succ n ih =>
    rw [resolve] at hresolve
    cases hnode : files filename with
    | none =>
      rw [hnode] at hresolve
      obtain rfl := Option.some.inj hresolve
      simp [hnode]
    | some node =>
      rw [hnode] at hresolve
      cases node with
      | file _ =>
        obtain rfl := Option.some.inj hresolve
        simp [hnode]
      | link _ => exact ih hresolve

/-- The library's `fopen` changes nothing exactly when it opens quietly. -/
theorem untouched_fopen : Untouched w (w.fopen filename mode).2 ↔ OpensQuietly w filename mode := by
  unfold World.fopen OpensQuietly
  cases hflags : openFlags mode with
  | none => simp [Untouched.refl]
  | some flags =>
    simp only [Option.some.injEq, forall_eq']
    by_cases hexclusive : (flags.create && flags.exclusive) = true
    · rw [if_pos hexclusive, if_pos hexclusive]
      cases hnode : w.files filename with
      | none =>
        rw [if_neg (by simp), untouched_create hnode]
        simp
      | some node => simp [Untouched.refl]
    · rw [if_neg hexclusive, if_neg hexclusive]
      cases hresolve : resolve w.files (maxSymlinks + 1) filename with
      | none => simp [Untouched.refl]
      | some path =>
        simp only [Option.some.injEq, forall_eq']
        cases hnode : w.files path with
        | none =>
          cases hcreate : flags.create with
          | false => simp [Untouched.refl]
          | true => simpa using untouched_create hnode
        | some node =>
          cases node with
          | link target => exact absurd hnode (resolve_ne_link hresolve)
          | file content =>
            cases htruncate : flags.truncate with
            | false => simpa using untouched_addStream
            | true => simpa using untouched_truncate hnode

/-- The library's `fwrite` changes nothing exactly when it has nothing to write or may
not write. -/
theorem untouched_fwrite {s : Stream} (hstream : w.streams[stream]? = some s) :
    Untouched w (w.fwrite memory size nmemb stream).2 ↔
      memory.take (size * nmemb) = [] ∨ s.writable = false := by
  simp only [World.fwrite, hstream]
  by_cases hdata : memory.take (size * nmemb) = []
  · simp [hdata, Untouched.refl]
  · rw [if_neg hdata]
    cases hwritable : s.writable with
    | false => simp [Untouched.refl]
    | true =>
      simp only [if_true, hdata, Bool.true_eq_false, or_self, iff_false]
      intro huntouched
      have hlength : w.streams.length =
          (w.put stream s (memory.take (size * nmemb))).streams.length := by
        simp [World.put]
      have hsame := huntouched.streams.eq_of_length hlength
      have hlt : stream < w.streams.length := (List.getElem?_eq_some_iff.mp hstream).1
      have hwritten := congrArg (fun l => l[stream]?.map Stream.written) hsame
      simp only [World.put, World.streams_setContent, hstream, List.getElem?_set_self hlt,
        Option.map_some, Option.some.injEq, List.self_eq_append_right] at hwritten
      exact hdata hwritten

/-- The library's `connect` changes nothing exactly when it is refused or the peer is
the same. -/
theorem untouched_connect {s : Socket} (hsocket : w.sockets sockfd = some s) :
    Untouched w (w.connect sockfd addr).2 ↔
      if s.stream then s.peer.isSome = true ∨ w.accepts addr = false else s.peer = some addr := by
  have hpeer : Untouched w (w.setPeer sockfd s addr) ↔ s.peer = some addr := by
    constructor
    · intro huntouched
      have hsame : Function.update w.sockets sockfd (some { s with peer := some addr }) sockfd =
          w.sockets sockfd := congrFun huntouched.sockets sockfd
      rw [Function.update_self, hsocket, Option.some.injEq] at hsame
      rw [← hsame]
    · intro hsame
      refine ⟨rfl, List.prefix_refl _, ?_, rfl⟩
      apply Function.update_eq_self_iff.mpr
      rw [hsocket, ← hsame]
  simp only [World.connect, hsocket]
  cases hkind : s.stream with
  | false => simpa using hpeer
  | true =>
    cases hconnected : s.peer with
    | some old => simp [Untouched.refl]
    | none =>
      cases haccepts : w.accepts addr with
      | false => simp [Untouched.refl]
      | true =>
        rw [hconnected] at hpeer
        simpa using hpeer

/-! ## Blocked calls -/

/-- The link step fails exactly on a missing path that is taken for a link. -/
theorem exists_handleSymbolicLink_iff :
    (∃ realFilename, handleSymbolicLink u (lstat w.files filename) filename = .ok realFilename) ↔
      (w.files filename = none → u.staleLink = false) := by
  cases hnode : w.files filename with
  | none => cases hstale : u.staleLink <;> simp [lstat, hnode, handleSymbolicLink, hstale]
  | some node => cases node <;> simp [lstat, hnode, handleSymbolicLink]

/-- A blacklisted `fopen` is refused without effect exactly when it is quiet. -/
theorem refused_fopen_iff (hread : env.blacklist .fopen = .ok blacklist)
    (hlisted : Listed blacklist filename) :
    RefusedWithoutEffect env u w (.fopen filename mode) ↔ Quiet u w (.fopen filename mode) := by
  have hreported : compareBlacklist filename blacklist = true :=
    compareBlacklist_of_listed hlisted (List.prefix_refl _)
  simp only [RefusedWithoutEffect, Quiet, ← exists_handleSymbolicLink_iff, ← untouched_fopen,
    fopen, hread, bind_eq_ok, Except.ok.injEq, exists_eq_left', hreported, Bool.true_or, if_true,
    pure_eq_ok, Prod.mk.injEq, true_and]
  constructor
  · rintro ⟨w', ⟨realFilename, hreal, rfl⟩, huntouched⟩
    exact ⟨⟨realFilename, hreal⟩, huntouched⟩
  · rintro ⟨⟨realFilename, hreal⟩, huntouched⟩
    exact ⟨_, ⟨realFilename, hreal, rfl⟩, huntouched⟩

/-- A blacklisted `fwrite` is refused without effect exactly when it is quiet. -/
theorem refused_fwrite_iff {s : Stream} (hread : env.blacklist .fwrite = .ok blacklist)
    (hstream : w.streams[stream]? = some s) (hlisted : Listed blacklist s.path) :
    RefusedWithoutEffect env u w (.fwrite memory size nmemb stream) ↔
      Quiet u w (.fwrite memory size nmemb stream) := by
  have hreported : compareBlacklist (s.path.take (procLinkSize + 1)) blacklist = true :=
    compareBlacklist_of_listed hlisted (List.take_prefix _ _)
  have hstatic (buffer : List Char) (w' : World) :
      Untouched w w' ↔ Untouched { w with onlyFilename := buffer } w' :=
    ⟨fun h => ⟨h.files, h.streams, h.sockets, h.logs⟩,
      fun h => ⟨h.files, h.streams, h.sockets, h.logs⟩⟩
  simp only [RefusedWithoutEffect, Quiet, fwrite, hread, handleSymbolicLink_fd hstream, bind_eq_ok,
    Except.ok.injEq, exists_eq_left', hreported, if_true, pure_eq_ok, Prod.mk.injEq, true_and,
    hstream, Option.some.injEq, forall_eq']
  rw [hstatic (handleFilename w.onlyFilename (s.path.take (procLinkSize + 1)) 0).2]
  exact untouched_fwrite hstream

/-- A blacklisted `connect` is refused without effect exactly when it is quiet. -/
theorem refused_connect_iff (hread : env.blacklist .connect = .ok blacklist)
    (hlisted : Listed blacklist (inetNtoa addr)) :
    RefusedWithoutEffect env u w (.connect sockfd addr) ↔ Quiet u w (.connect sockfd addr) := by
  have hreported : compareBlacklist (inetNtoa addr) blacklist = true :=
    compareBlacklist_of_listed hlisted (List.prefix_refl _)
  simp only [RefusedWithoutEffect, Quiet, connect, hread, bind_eq_ok, Except.ok.injEq,
    exists_eq_left', hreported, if_true, pure_eq_ok, Prod.mk.injEq, true_and]
  cases hsocket : w.sockets sockfd with
  | none => simp [World.connect, hsocket, Untouched.refl]
  | some s => simpa using untouched_connect hsocket

/-- A blacklisted `getaddrinfo` is always refused without effect. -/
theorem refused_getaddrinfo {node : List Char} (hread : env.blacklist .getaddrinfo = .ok blacklist)
    (hlisted : Listed blacklist node) :
    RefusedWithoutEffect env u w (.getaddrinfo node) := by
  have hreported : compareBlacklist node blacklist = true :=
    compareBlacklist_of_listed hlisted (List.prefix_refl _)
  refine ⟨some .eaiNoname, (w.getaddrinfo node).2, w, ?_, .refl w⟩
  simp only [getaddrinfo, hread, bind_eq_ok, Except.ok.injEq, exists_eq_left', hreported, if_true,
    pure_eq_ok]

/-- A blacklisted call is refused without effect exactly when the library's own call
would change nothing. -/
theorem refusedWithoutEffect_iff (c : Call) (hblacklisted : Blacklisted env w c) :
    RefusedWithoutEffect env u w c ↔ Quiet u w c := by
  cases c with
  | fopen filename mode =>
    obtain ⟨blacklist, hread, hlisted⟩ := hblacklisted
    exact refused_fopen_iff hread hlisted
  | fwrite memory size nmemb stream =>
    obtain ⟨blacklist, hread, s, hstream, hlisted⟩ := hblacklisted
    exact refused_fwrite_iff hread hstream hlisted
  | connect sockfd addr =>
    obtain ⟨blacklist, hread, hlisted⟩ := hblacklisted
    exact refused_connect_iff hread hlisted
  | getaddrinfo node =>
    obtain ⟨blacklist, hread, hlisted⟩ := hblacklisted
    exact iff_of_true (refused_getaddrinfo hread hlisted) trivial

/-- A call that empties `/bin/sh`, which `/bin/*` blacklists. -/
def truncatingCall : Call := .fopen "/bin/sh".toList "w".toList

/-- The call that empties `/bin/sh` is blacklisted. -/
theorem truncatingCall_blacklisted :
    Blacklisted openOnlyEnv (freshWorld chainedFiles) truncatingCall :=
  ⟨some ["/bin/*".toList], by decide +kernel, _, rfl, _, List.mem_singleton_self _, by decide⟩

/-- The call that empties `/bin/sh` is refused without effect exactly when it is quiet. -/
theorem refusedWithoutEffect_iff_truncating :
    RefusedWithoutEffect openOnlyEnv zeroMemory (freshWorld chainedFiles) truncatingCall ↔
      Quiet zeroMemory (freshWorld chainedFiles) truncatingCall :=
  refusedWithoutEffect_iff truncatingCall truncatingCall_blacklisted

/-- Opening a blacklisted file for writing is answered with `EACCES` and still empties it. -/
theorem not_refusedWithoutEffect_truncating :
    ¬ ∀ (env : Env) (u : Unspecified) (w : World) (c : Call), Blacklisted env w c →
      RefusedWithoutEffect env u w c := by
  intro hall
  obtain ⟨blacklist, hread, hlisted⟩ := truncatingCall_blacklisted
  have hquiet : OpensQuietly (freshWorld chainedFiles) "/bin/sh".toList "w".toList :=
    ((refused_fopen_iff hread hlisted).mp
      (hall _ zeroMemory _ _ truncatingCall_blacklisted)).2
  have hmode : openFlags "w".toList = some ⟨false, true, true, true, false, false⟩ := by decide
  have hresolve : resolve chainedFiles (maxSymlinks + 1) "/bin/sh".toList =
      some "/bin/sh".toList := by decide
  have hempty := hquiet _ hmode
  simp only [Bool.and_false, Bool.false_eq_true, if_false] at hempty
  have hfile : (freshWorld chainedFiles).files "/bin/sh".toList = some (.file "text".toList) := by
    decide
  have hcontent := hempty _ hresolve
  rw [hfile] at hcontent
  exact absurd (hcontent trivial) (by decide)

end UnixProgramming.Logger
