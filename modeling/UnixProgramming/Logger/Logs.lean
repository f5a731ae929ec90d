import UnixProgramming.Lib.Loops
import UnixProgramming.Lib.Runs
import UnixProgramming.Logger.Wrappers

/-!
# The logs of a process

Every `fread` and `fwrite` that is not blocked appends an entry to the log of the
file of its stream. Over a run of calls the logs hold exactly what was read and
the escaped text of what was written, as long as no call writes a newline, the
caller's memory holds a terminator, right behind the bytes where they were read,
and the static name buffer gives the file's name.
-/

namespace UnixProgramming.Logger

/-- A call that is logged, with the memory at its pointer. -/
inductive IoCall
  | fread (memory : List Char) (size nmemb stream : ℕ)
  | fwrite (memory : List Char) (size nmemb stream : ℕ)

/-- The function of a call, as its log is named. -/
def IoCall.function : IoCall → List Char
  | .fread .. => "read".toList
  | .fwrite .. => "write".toList

/-- The stream of a call. -/
def IoCall.stream : IoCall → ℕ
  | .fread _ _ _ stream => stream
  | .fwrite _ _ _ stream => stream

/-- The bytes that a call transfers. -/
def IoCall.bytes (w : World) : IoCall → List Char
  | .fread _ size nmemb stream => w.transferred size nmemb stream
  | .fwrite memory size nmemb _ => memory.take (size * nmemb)

/-- The text with every newline written as two characters. -/
def escape (text : List Char) : List Char :=
  text.flatMap fun c => if c = '\n' then ['\\', 'n'] else [c]

/-- What a call should add to the log of its file. -/
def IoCall.entry (w : World) (c : IoCall) : List Char :=
  match c with
  | .fread .. => c.bytes w ++ ['\n']
  | .fwrite .. => escape (c.bytes w) ++ ['\n']

/-- A call returns and is not blocked. -/
def IoCall.Passes (env : Env) (u : Unspecified) (w : World) (w' : World) : IoCall → Prop
  | .fread memory size nmemb stream => ∃ answer memory',
      Logger.fread env u w memory size nmemb stream = .ok (answer, memory', w') ∧
        answer.errno = none
  | .fwrite memory size nmemb stream => ∃ answer,
      Logger.fwrite env u w memory size nmemb stream = .ok (answer, w') ∧
        answer.errno ≠ some .eacces ∧ 0 < answer.ret

/-- The caller's memory holds the bytes that are asked for. -/
def IoCall.Fits : IoCall → Prop
  | .fread memory size nmemb _ => size * nmemb ≤ memory.length
  | .fwrite memory size nmemb _ => size * nmemb ≤ memory.length

/-- One logged call: it passes and transfers at least one byte of text. -/
structure Step (env : Env) (w : World) (call : Unspecified × IoCall) (w' : World) : Prop where
  fits : call.2.Fits
  passes : call.2.Passes env call.1 w w'
  transfers : call.2.bytes w ≠ []
  text : '\x00' ∉ call.2.bytes w

/-- The name of a file: its last path component without the extension. -/
def fileName (path : Path) : List Char :=
  match throughLast '.' (afterLast '/' path) with
  | [] => afterLast '/' path
  | c :: stem => (c :: stem).dropLast

/-- The path of the file that a call works on. -/
def IoCall.path (w : World) (c : IoCall) : Option Path := w.streams[c.stream]?.map Stream.path

/-- What the calls of a history should have added to a log, in their order. -/
def expectedLog (function : List Char) (path : Path) :
    List (World × (Unspecified × IoCall)) → List Char
  | [] => []
  | (w, call) :: history =>
    expectedLog function path history ++
      if call.2.path w = some path ∧ call.2.function = function then call.2.entry w else []

/-- The two functions that log. -/
def logged : List (List Char) := ["read".toList, "write".toList]

/-- The logs of all files are complete and exact. -/
def LogsExact (env : Env) (history : List (World × (Unspecified × IoCall))) (w : World) : Prop :=
  ∀ s ∈ w.streams, ∀ function ∈ logged,
    w.logs (logName env.pid (fileName s.path) function) = expectedLog function s.path history

/-- A process without logs whose open files have different names. -/
structure Fresh (w : World) : Prop where
  logs : w.logs = fun _ => []
  paths : ∀ s ∈ w.streams, '\x00' ∉ s.path
  names : ∀ s ∈ w.streams, ∀ t ∈ w.streams, fileName s.path = fileName t.path → s.path = t.path

/-- The name that `handle_filename` computes is the name of the file: `readlink` has
not cut it, and behind a name with extension the static buffer holds a terminator. -/
def NameKept (w : World) (path : Path) : Prop :=
  fileName (path.take (procLinkSize + 1)) = fileName path ∧
    ('.' ∈ afterLast '/' (path.take (procLinkSize + 1)) →
      w.onlyFilename[(fileName path).length]? = some '\x00')

/-- The memory behind the bytes that are read holds a terminator, and what is written has no
newline and lies in memory that holds a terminator. -/
def IoCall.Plain (w : World) : IoCall → Prop
  | .fread memory size nmemb stream =>
    memory[(w.transferred size nmemb stream).length]? = some '\x00'
  | .fwrite memory size nmemb _ => '\x00' ∈ memory ∧ '\n' ∉ memory.take (size * nmemb)

/-- The condition for an exact entry: the name is kept, and the memory is plain. -/
def Clean (w : World) (call : Unspecified × IoCall) : Prop :=
  (∀ path ∈ call.2.path w, NameKept w path) ∧ call.2.Plain w

instance (w : World) (path : Path) : Decidable (NameKept w path) :=
  inferInstanceAs (Decidable (_ ∧ _))

instance (w : World) (c : IoCall) : Decidable (c.Plain w) :=
  match c with
  | .fread .. => inferInstanceAs (Decidable (_ = _))
  | .fwrite .. => inferInstanceAs (Decidable (_ ∧ _))

instance (w : World) (call : Unspecified × IoCall) : Decidable (Clean w call) :=
  inferInstanceAs (Decidable (_ ∧ _))

variable {env : Env} {u : Unspecified} {w w' : World} {path filename content : List Char}
variable {function : List Char} {call : Unspecified × IoCall}

/-! ## Names -/

/-- The name of a file is no longer than its path. -/
theorem fileName_length_le (path : Path) : (fileName path).length ≤ path.length := by
  have hlast := (afterLast_suffix '/' path).length_le
  have hstem := (prefix_throughLast '.' (afterLast '/' path)).length_le
  unfold fileName
  split
  · exact hlast
  · rename_i c stem heq
    rw [heq] at hstem
    simp only [List.length_dropLast]
    omega

/-- No terminator comes into a name. -/
theorem nul_notMem_fileName (hpath : '\x00' ∉ path) : '\x00' ∉ fileName path := by
  have hlast : '\x00' ∉ afterLast '/' path :=
    fun hmem => hpath ((afterLast_suffix '/' path).subset hmem)
  unfold fileName
  split
  · exact hlast
  · rename_i c stem heq
    intro hmem
    have hin : '\x00' ∈ throughLast '.' (afterLast '/' path) := by
      rw [heq]
      exact List.dropLast_subset _ hmem
    exact hlast ((prefix_throughLast '.' _).subset hin)

/-- `handle_filename` gives the name of the file when it is kept. -/
theorem handleFilename_eq (hpath : '\x00' ∉ path) (hkept : NameKept w path) :
    (handleFilename w.onlyFilename (path.take (procLinkSize + 1)) 0).1 = fileName path := by
  obtain ⟨hsame, hstatic⟩ := hkept
  rw [← hsame] at hstatic ⊢
  have hseen : '\x00' ∉ path.take (procLinkSize + 1) :=
    fun hmem => hpath (List.mem_of_mem_take hmem)
  have hfree := nul_notMem_fileName hseen
  revert hstatic hfree
  generalize path.take (procLinkSize + 1) = seen
  intro hstatic hfree
  simp only [handleFilename, if_neg Nat.zero_ne_one]
  unfold fileName at hstatic hfree ⊢
  cases hstem : throughLast '.' (afterLast '/' seen) with
  | nil =>
    simp only [hstem] at hfree
    exact cstring_append hfree (by simp)
  | cons c stem =>
    simp only [hstem] at hfree hstatic
    have hdot : '.' ∈ afterLast '/' seen := by
      by_contra hno
      rw [throughLast_eq_nil_iff.mpr hno] at hstem
      cases hstem
    apply cstring_append hfree
    rw [List.head?_drop, hstatic hdot]
    simp

/-- A log name with the name of an open file is not cut. -/
theorem take_logName {pid : UInt32} (hname : filename.length ≤ procLinkSize + 1)
    (hfunction : function.length ≤ 5) :
    (logName pid filename function).take 255 = logName pid filename function := by
  have hdigits : (Nat.toDigits 10 pid.toNat).length ≤ 10 := by
    rw [Nat.length_toDigits_le_iff (by omega) (by omega)]
    have := pid.toNat_lt
    omega
  apply List.take_of_length_le
  unfold procLinkSize at hname
  simp only [logName, List.length_append, List.length_cons]
  have hsuffix : ".log".toList.length = 4 := by decide
  omega

/-- Different names or functions have different logs. -/
theorem logName_inj {pid : UInt32} {n n' f f' : List Char} (hf : f ∈ logged) (hf' : f' ∈ logged)
    (heq : logName pid n f = logName pid n' f') : n = n' ∧ f = f' := by
  have hcore : n ++ '-' :: f = n' ++ '-' :: f' := by
    apply List.append_cancel_right (show (n ++ '-' :: f) ++ ".log".toList = _ from ?_)
    simpa [logName] using heq
  have hlast : ('-' :: f).getLast? = ('-' :: f').getLast? := by
    have h := congrArg List.getLast? hcore
    rwa [List.getLast?_append_cons, List.getLast?_append_cons] at h
  have hsame : f = f' := by
    simp only [logged, List.mem_cons, List.not_mem_nil, or_false] at hf hf'
    obtain rfl | rfl := hf <;> obtain rfl | rfl := hf'
    · rfl
    · exact absurd hlast (by decide)
    · exact absurd hlast (by decide)
    · rfl
  subst hsame
  exact ⟨List.append_cancel_right hcore, rfl⟩

/-! ## One call -/

/-- The entry of a call and its newline are appended to one log. -/
theorem logs_logCall (hname : filename.length ≤ procLinkSize + 1)
    (hfunction : function.length ≤ 5) :
    (logCall env w filename content function).logs =
      Function.update w.logs (logName env.pid filename function)
        (w.logs (logName env.pid filename function) ++ (content ++ ['\n'])) := by
  simp only [logCall, writeLogFile, take_logName hname hfunction, Function.update_self,
    Function.update_idem, List.append_assoc]

/-- The loop of `get_total_content` keeps text without newlines. -/
theorem escapeLoop_append {data rest : List Char} (htext : '\x00' ∉ data) (hline : '\n' ∉ data) :
    escapeLoop (data ++ rest) = data ++ escapeLoop rest := by
  induction data with
  | nil => rfl
  | cons c data ih =>
    simp only [List.mem_cons, not_or] at htext hline
    have hstore (text : List Char) : escapeLoop (c :: text) = c :: escapeLoop text := by
      cases text <;> simp [escapeLoop, Ne.symm htext.1, Ne.symm hline.1]
    rw [List.cons_append, hstore, ih htext.2 hline.2, List.cons_append]

/-- Text without newlines is its own escaped form. -/
theorem escape_eq_self {data : List Char} (hline : '\n' ∉ data) : escape data = data := by
  induction data with
  | nil => rfl
  | cons c data ih =>
    simp only [List.mem_cons, not_or] at hline
    have hrest := ih hline.2
    simp only [escape] at hrest
    simp [escape, Ne.symm hline.1, hrest]

/-- The logged content of a `fwrite` without newlines is what was written. -/
theorem logContent_eq {memory : List Char} {amount : ℕ} (hfits : amount ≤ memory.length)
    (htext : '\x00' ∉ memory.take amount) (hline : '\n' ∉ memory.take amount) :
    cstring '\x00' ((getTotalContent u memory).take amount) = memory.take amount := by
  have hlength : (memory.take amount).length = amount := by simpa using hfits
  have hstring : cstring '\x00' memory =
      memory.take amount ++ cstring '\x00' (memory.drop amount) := by
    conv_lhs => rw [← List.take_append_drop amount memory]
    exact cstring_append_left htext _
  rw [getTotalContent, hstring, List.append_assoc, escapeLoop_append htext hline,
    List.append_assoc]
  rw [List.take_append_of_le_length (by omega), List.take_of_length_le (by omega)]
  exact cstring_eq_self htext

/-- A passing call works on an open stream. -/
theorem Step.exists_stream (hstep : Step env w call w') :
    ∃ s, w.streams[call.2.stream]? = some s := by
  obtain ⟨u, c⟩ := call
  have hbytes := hstep.transfers
  have hpasses := hstep.passes
  cases c with
  | fread memory size nmemb stream =>
    cases hstream : w.streams[stream]? with
    | none => simp [IoCall.bytes, World.transferred, hstream] at hbytes
    | some s => exact ⟨s, hstream⟩
  | fwrite memory size nmemb stream =>
    cases hstream : w.streams[stream]? with
    | some s => exact ⟨s, hstream⟩
    | none =>
      obtain ⟨answer, hanswer, herrno, hret⟩ := hpasses
      simp only [Logger.fwrite, bind_eq_ok, World.fwrite, hstream] at hanswer
      obtain ⟨blacklist, -, realPath, -, hanswer⟩ := hanswer
      split at hanswer
      · simp only [pure_eq_ok, Prod.mk.injEq] at hanswer
        exact absurd (hanswer.1 ▸ rfl) herrno
      · simp only [pure_eq_ok, Prod.mk.injEq] at hanswer
        rw [← hanswer.1] at hret
        exact absurd hret (Nat.lt_irrefl 0)

/-- Reading keeps the paths of the streams and the logs. -/
theorem fread_keeps (w : World) (size nmemb stream : ℕ) :
    (w.fread size nmemb stream).2.streams.map Stream.path = w.streams.map Stream.path ∧
      (w.fread size nmemb stream).2.logs = w.logs := by
  refine ⟨?_, rfl⟩
  apply List.ext_getElem?
  intro i
  simp only [World.fread, World.seek, List.getElem?_map, List.getElem?_modify]
  by_cases hi : stream = i <;> cases w.streams[i]? <;> simp [hi]

/-- Writing keeps the paths of the streams and the logs. -/
theorem fwrite_keeps (w : World) (memory : List Char) (size nmemb stream : ℕ) :
    (w.fwrite memory size nmemb stream).2.streams.map Stream.path =
        w.streams.map Stream.path ∧
      (w.fwrite memory size nmemb stream).2.logs = w.logs := by
  unfold World.fwrite
  split
  · exact ⟨rfl, rfl⟩
  · rename_i s hstream
    have hput (data : List Char) :
        (w.put stream s data).streams.map Stream.path = w.streams.map Stream.path ∧
          (w.put stream s data).logs = w.logs := by
      refine ⟨?_, World.logs_setContent _ _ _⟩
      apply List.ext_getElem?
      intro i
      simp only [World.put, World.streams_setContent, List.getElem?_map, List.getElem?_set]
      by_cases hi : stream = i
      · subst hi
        obtain ⟨hlt, heq⟩ := List.getElem?_eq_some_iff.mp hstream
        simp [hlt, heq]
      · simp [hi]
    dsimp only
    split
    · exact ⟨rfl, rfl⟩
    · split
      · exact hput _
      · exact ⟨rfl, rfl⟩

/-- The content that a passing call logs. -/
def IoCall.logContent (u : Unspecified) (w : World) : IoCall → List Char
  | .fread memory size nmemb stream =>
    cstring '\x00' (w.transferred size nmemb stream ++
      memory.drop (w.transferred size nmemb stream).length)
  | .fwrite memory size nmemb _ => cstring '\x00' ((getTotalContent u memory).take (size * nmemb))

/-- A passing call makes the library's call, which leaves the paths of the streams and the
logs alone, and then logs its content under the name that `handle_filename` computes. -/
theorem IoCall.Passes.logCall {c : IoCall} {s : Stream} (hpasses : c.Passes env u w w')
    (hstream : w.streams[c.stream]? = some s) :
    ∃ w₁ : World, w₁.streams.map Stream.path = w.streams.map Stream.path ∧ w₁.logs = w.logs ∧
      w' = Logger.logCall env w₁
        (handleFilename w.onlyFilename (s.path.take (procLinkSize + 1)) 0).1 (c.logContent u w)
        c.function := by
  cases c with
  | fread memory size nmemb stream =>
    replace hstream : w.streams[stream]? = some s := hstream
    obtain ⟨answer, memory', hanswer, herrno⟩ := hpasses
    simp only [Logger.fread, bind_eq_ok, handleSymbolicLink_fd hstream, Except.ok.injEq,
      exists_eq_left'] at hanswer
    obtain ⟨blacklist, -, hanswer⟩ := hanswer
    have hkeeps := fread_keeps
      { w with onlyFilename := (handleFilename w.onlyFilename
        (s.path.take (procLinkSize + 1)) 0).2 } size nmemb stream
    cases blacklist with
    | none => cases hanswer
    | some blacklist =>
      dsimp only at hanswer
      split at hanswer
      · simp only [pure_eq_ok, Prod.mk.injEq] at hanswer
        rw [← hanswer.1] at herrno
        cases herrno
      · simp only [pure_eq_ok, Prod.mk.injEq] at hanswer
        obtain ⟨-, -, rfl⟩ := hanswer
        exact ⟨_, hkeeps.1, hkeeps.2, rfl⟩
  | fwrite memory size nmemb stream =>
    replace hstream : w.streams[stream]? = some s := hstream
    obtain ⟨answer, hanswer, herrno, -⟩ := hpasses
    simp only [Logger.fwrite, bind_eq_ok, handleSymbolicLink_fd hstream, Except.ok.injEq,
      exists_eq_left'] at hanswer
    obtain ⟨blacklist, -, hanswer⟩ := hanswer
    have hkeeps := fwrite_keeps
      { w with onlyFilename := (handleFilename w.onlyFilename
        (s.path.take (procLinkSize + 1)) 0).2 } memory size nmemb stream
    split at hanswer
    · simp only [pure_eq_ok, Prod.mk.injEq] at hanswer
      exact absurd (hanswer.1 ▸ rfl) herrno
    · simp only [pure_eq_ok, Prod.mk.injEq] at hanswer
      obtain ⟨-, rfl⟩ := hanswer
      exact ⟨_, hkeeps.1, hkeeps.2, rfl⟩

/-- The content that a clean call logs is its entry, without the newline. -/
theorem Step.content_eq (hstep : Step env w call w') (hclean : Clean w call) :
    call.2.logContent call.1 w ++ ['\n'] = call.2.entry w := by
  obtain ⟨u, c⟩ := call
  have hplain := hclean.2
  cases c with
  | fread memory size nmemb stream =>
    have hnext : memory[(w.transferred size nmemb stream).length]? = some '\x00' := hplain
    have hread : cstring '\x00' (w.transferred size nmemb stream ++
        memory.drop (w.transferred size nmemb stream).length) =
          w.transferred size nmemb stream := by
      apply cstring_append hstep.text
      rw [List.head?_drop, hnext]
      simp
    exact congrArg (· ++ ['\n']) hread
  | fwrite memory size nmemb stream =>
    have hline : '\n' ∉ memory.take (size * nmemb) := hplain.2
    simp only [IoCall.logContent, IoCall.entry, IoCall.bytes]
    rw [logContent_eq hstep.fits hstep.text hline, escape_eq_self hline]

/-- The function of a call is one that logs. -/
theorem function_mem_logged (c : IoCall) : c.function ∈ logged := by
  cases c with
  | fread => exact List.mem_cons_self
  | fwrite => exact List.mem_cons_of_mem _ List.mem_cons_self

/-- The names of the functions that log are short. -/
theorem length_le_of_mem_logged : ∀ function ∈ logged, function.length ≤ 5 := by
  decide

/-- A passing call leaves the paths of the streams alone and appends one entry to the log of
its file. -/
theorem Step.logs_eq (hstep : Step env w call w') {s : Stream}
    (hstream : w.streams[call.2.stream]? = some s) (hpath : '\x00' ∉ s.path)
    (hclean : Clean w call) :
    w'.streams.map Stream.path = w.streams.map Stream.path ∧
      w'.logs = Function.update w.logs (logName env.pid (fileName s.path) call.2.function)
        (w.logs (logName env.pid (fileName s.path) call.2.function) ++ call.2.entry w) := by
  have hkept : NameKept w s.path := hclean.1 s.path (by simp [IoCall.path, hstream])
  have hshort : (fileName s.path).length ≤ procLinkSize + 1 := by
    rw [← hkept.1]
    have := fileName_length_le (s.path.take (procLinkSize + 1))
    have := List.length_take_le (procLinkSize + 1) s.path
    omega
  have hfunction := length_le_of_mem_logged _ (function_mem_logged call.2)
  obtain ⟨w₁, hpaths, hlogs, rfl⟩ := hstep.passes.logCall hstream
  refine ⟨hpaths, ?_⟩
  rw [handleFilename_eq hpath hkept, logs_logCall hshort hfunction, hlogs, hstep.content_eq hclean]

/-! ## Runs of calls -/

variable {history : List (World × (Unspecified × IoCall))} {start : World}

/-- One clean call keeps the logs exact: its entry goes to the log of its file and of
no other file. -/
theorem logsExact_step (hexact : LogsExact env history w)
    (hpaths : ∀ s ∈ w.streams, '\x00' ∉ s.path)
    (hnames : ∀ s ∈ w.streams, ∀ t ∈ w.streams, fileName s.path = fileName t.path →
      s.path = t.path)
    (hstep : Step env w call w') (hclean : Clean w call) :
    w'.streams.map Stream.path = w.streams.map Stream.path ∧
      LogsExact env ((w, call) :: history) w' := by
  obtain ⟨s, hstream⟩ := hstep.exists_stream
  have hmem : s ∈ w.streams := List.mem_of_getElem? hstream
  obtain ⟨hkeeps, hlogs⟩ := hstep.logs_eq hstream (hpaths s hmem) hclean
  refine ⟨hkeeps, ?_⟩
  intro t' ht' function hfunction
  obtain ⟨t, ht, hpath⟩ : ∃ t ∈ w.streams, t.path = t'.path := by
    have hin : t'.path ∈ w.streams.map Stream.path := hkeeps ▸ List.mem_map_of_mem ht'
    exact List.mem_map.mp hin
  rw [← hpath, hlogs, expectedLog, ← hexact t ht function hfunction]
  have hcall : call.2.path w = some s.path := by simp [IoCall.path, hstream]
  by_cases hsame : s.path = t.path ∧ call.2.function = function
  · obtain ⟨hsamePath, hsameFunction⟩ := hsame
    rw [if_pos ⟨hcall.trans (congrArg some hsamePath), hsameFunction⟩, ← hsamePath,
      ← hsameFunction, Function.update_self]
  · have hother : logName env.pid (fileName t.path) function ≠
        logName env.pid (fileName s.path) call.2.function := by
      intro heq
      obtain ⟨hname, hfun⟩ := logName_inj hfunction (function_mem_logged call.2) heq
      exact hsame ⟨(hnames t ht s hmem hname).symm, hfun.symm⟩
    rw [Function.update_of_ne hother, if_neg, List.append_nil]
    rintro ⟨hon, hfun⟩
    rw [hcall, Option.some.injEq] at hon
    exact hsame ⟨hon, hfun⟩

/-- In every run of clean calls the logs of all files are complete and exact. -/
theorem logsExact_run (hfresh : Fresh start) (hrun : Run start (Step env) history w)
    (hclean : EachStep Clean history) : LogsExact env history w := by
  suffices hkept : w.streams.map Stream.path = start.streams.map Stream.path ∧
      LogsExact env history w from hkept.2
  induction hrun with
  | start => exact ⟨rfl, fun s _ function _ => by rw [hfresh.logs, expectedLog]⟩
  | @step history w w' call _ hstep ih =>
    obtain ⟨hcall, hbefore⟩ := eachStep_cons.mp hclean
    obtain ⟨hkeeps, hexact⟩ := ih hbefore
    have hback : ∀ s ∈ w.streams, ∃ s' ∈ start.streams, s'.path = s.path := by
      intro s hs
      have hin : s.path ∈ start.streams.map Stream.path := hkeeps ▸ List.mem_map_of_mem hs
      exact List.mem_map.mp hin
    have hpaths : ∀ s ∈ w.streams, '\x00' ∉ s.path := by
      intro s hs
      obtain ⟨s', hs', heq⟩ := hback s hs
      exact heq ▸ hfresh.paths s' hs'
    have hnames : ∀ s ∈ w.streams, ∀ t ∈ w.streams, fileName s.path = fileName t.path →
        s.path = t.path := by
      intro s hs t ht
      obtain ⟨s', hs', heqs⟩ := hback s hs
      obtain ⟨t', ht', heqt⟩ := hback t ht
      rw [← heqs, ← heqt]
      exact hfresh.names s' hs' t' ht'
    obtain ⟨hkeeps', hexact'⟩ := logsExact_step hexact hpaths hnames hstep hcall
    exact ⟨hkeeps'.trans hkeeps, hexact'⟩

/-- The number that a call returns, with its error number. -/
def IoCall.answer (env : Env) (u : Unspecified) (w : World) : IoCall → Option (Answer ℕ)
  | .fread memory size nmemb stream =>
    (Logger.fread env u w memory size nmemb stream).toOption.map Prod.fst
  | .fwrite memory size nmemb stream =>
    (Logger.fwrite env u w memory size nmemb stream).toOption.map Prod.fst

/-- The state that a call leaves. -/
def IoCall.after (env : Env) (u : Unspecified) (w : World) : IoCall → World
  | .fread memory size nmemb stream =>
    ((Logger.fread env u w memory size nmemb stream).toOption.map fun r => r.2.2).getD w
  | .fwrite memory size nmemb stream =>
    ((Logger.fwrite env u w memory size nmemb stream).toOption.map Prod.snd).getD w

/-- A call that returns a positive number without an error passes. -/
theorem IoCall.passes_of_answer {c : IoCall} {n : ℕ}
    (hanswer : c.answer env u w = some ⟨n + 1, none⟩) : c.Passes env u w (c.after env u w) := by
  cases c with
  | fread memory size nmemb stream =>
    simp only [IoCall.answer, IoCall.after] at hanswer ⊢
    cases hcall : Logger.fread env u w memory size nmemb stream with
    | error fault => simp [hcall, Except.toOption] at hanswer
    | ok result =>
      have hreturns : result.1 = ⟨n + 1, none⟩ := by
        simpa [hcall, Except.toOption] using hanswer
      exact ⟨result.1, result.2.1, hcall, by rw [hreturns]⟩
  | fwrite memory size nmemb stream =>
    simp only [IoCall.answer, IoCall.after] at hanswer ⊢
    cases hcall : Logger.fwrite env u w memory size nmemb stream with
    | error fault => simp [hcall, Except.toOption] at hanswer
    | ok result =>
      have hreturns : result.1 = ⟨n + 1, none⟩ := by
        simpa [hcall, Except.toOption] using hanswer
      refine ⟨result.1, hcall, ?_, ?_⟩
      · rw [hreturns]
        simp
      · rw [hreturns]
        exact Nat.succ_pos n

/-- A process that has opened an empty file for writing and a file of text for reading. -/
def loggingWorld : World where
  files := fun path =>
    if path = "/tmp/out.txt".toList then some (.file [])
    else if path = "/tmp/src.txt".toList then some (.file "a line".toList) else none
  creatable := fun _ => true
  streams := [⟨"/tmp/out.txt".toList, 0, false, true, false, []⟩,
    ⟨"/tmp/src.txt".toList, 0, true, false, false, []⟩]
  sockets := fun _ => none
  accepts := fun _ => true
  hosts := fun _ => none
  onlyFilename := List.replicate 100 '\x00'
  logs := fun _ => []

/-- A configuration that blocks writing to one file and reading one word. -/
def loggingEnv : Env where
  config := some ("BEGIN write-blacklist\n/etc/passwd\nEND write-blacklist\n" ++
    "BEGIN read-blacklist\nkey\nEND read-blacklist\n").toList
  pid := 100

/-- Memory of zeros, wherever a call reads what it has not written. -/
def zeroedMemory : Unspecified := ⟨false, [], [], fun _ => '\x00'⟩

/-- A `fwrite` of a string to the first file. -/
def writeCall (text : List Char) : Unspecified × IoCall :=
  (zeroedMemory, .fwrite (text ++ ['\x00']) 1 text.length 0)

/-- A `fread` of some characters of the second file, into memory that is zeroed. -/
def readCall (amount : ℕ) : Unspecified × IoCall :=
  (zeroedMemory, .fread (List.replicate (amount + 1) '\x00') 1 amount 1)

/-- The process of `loggingWorld` is fresh. -/
theorem loggingWorld_fresh : Fresh loggingWorld := by
  refine ⟨rfl, ?_, ?_⟩ <;> decide +kernel

/-- A `fwrite` or `fread` that is seen to pass and to transfer text is a step. -/
theorem step_of_answer {n : ℕ} (hfits : call.2.Fits)
    (hanswer : call.2.answer env call.1 w = some ⟨n + 1, none⟩)
    (htransfers : call.2.bytes w ≠ []) (htext : '\x00' ∉ call.2.bytes w) :
    Step env w call (call.2.after env call.1 w) :=
  ⟨hfits, IoCall.passes_of_answer hanswer, htransfers, htext⟩

/-- Writing a line without its newline, reading from the other file and writing again are
logged exactly. -/
theorem logsExact_run_line : ∃ history w,
    history.map Prod.snd = [writeCall "bye".toList, readCall 4, writeCall "hello".toList] ∧
      Run loggingWorld (Step loggingEnv) history w ∧ LogsExact loggingEnv history w := by
  let w₁ := (writeCall "hello".toList).2.after loggingEnv zeroedMemory loggingWorld
  let w₂ := (readCall 4).2.after loggingEnv zeroedMemory w₁
  have hwrite : Step loggingEnv loggingWorld (writeCall "hello".toList) w₁ :=
    step_of_answer (n := 4) (by simp [writeCall, IoCall.Fits]) (by decide +kernel)
      (by decide +kernel) (by decide +kernel)
  have hread : Step loggingEnv w₁ (readCall 4) w₂ :=
    step_of_answer (n := 3) (by simp [readCall, IoCall.Fits]) (by decide +kernel)
      (by decide +kernel) (by decide +kernel)
  have hagain : Step loggingEnv w₂ (writeCall "bye".toList) _ :=
    step_of_answer (n := 2) (by simp [writeCall, IoCall.Fits]) (by decide +kernel)
      (by decide +kernel) (by decide +kernel)
  have hrun := Run.step (Run.step (Run.step .start hwrite) hread) hagain
  refine ⟨_, _, rfl, hrun, logsExact_run loggingWorld_fresh hrun ?_⟩
  simp only [eachStep_cons, eachStep_nil, and_true]
  refine ⟨?_, ?_, ?_⟩ <;> decide +kernel

/-- The log of a written newline ends with a lone backslash. -/
theorem not_logsExact_newline :
    ¬ ∀ (env : Env) (start w : World) (history : List (World × (Unspecified × IoCall))),
      Fresh start → Run start (Step env) history w → LogsExact env history w := by
  intro hall
  have hstep : Step loggingEnv loggingWorld (writeCall "a\n".toList) _ :=
    step_of_answer (n := 1) (by simp [writeCall, IoCall.Fits]) (by decide +kernel)
      (by decide +kernel) (by decide +kernel)
  have hexact := hall _ _ _ _ loggingWorld_fresh (.step .start hstep)
    ⟨"/tmp/out.txt".toList, 2, false, true, false, "a\n".toList⟩ (by decide +kernel)
    "write".toList (by decide)
  revert hexact
  decide +kernel

end UnixProgramming.Logger
