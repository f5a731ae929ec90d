import UnixProgramming.Lib.Loops
import UnixProgramming.Logger.Wrappers
import Mathlib.Algebra.Ring.Nat

/-!
# Blocked reads

`fread` searches its keywords in a copy of the whole memory that the caller asked to fill, up
to the first zero. A short read leaves older bytes of the caller behind the ones that were
read, and bytes behind a zero are not searched. A blocked read moves the stream back by what
was asked for, and copies from a literal of two bytes over the memory.
-/

namespace UnixProgramming.Logger

/-- The memory that was asked for and that the read has not reached. -/
def World.stale (w : World) (memory : List Char) (size nmemb stream : ℕ) : List Char :=
  (memory.take (size * nmemb)).drop (w.transferred size nmemb stream).length

/-- One of the keywords is a contiguous part of a text. -/
def ContainsAny (keywords : List (List Char)) (text : List Char) : Prop :=
  ∃ keyword ∈ keywords, keyword <:+: text

/-- A keyword is found in the memory that was asked for, up to the first zero. -/
def FindsKeyword (w : World) (keywords : List (List Char)) (memory : List Char)
    (size nmemb stream : ℕ) : Prop :=
  ContainsAny keywords (cstring '\x00'
    (w.transferred size nmemb stream ++ w.stale memory size nmemb stream))

/-- The position behind the bytes is far enough from the start to move back by what was
asked for. -/
def SeeksBack (w : World) (size nmemb stream : ℕ) : Prop :=
  0 ≤ ((w.position stream + (w.transferred size nmemb stream).length : ℕ) : ℤ) +
    seekOffset size nmemb

instance (w : World) (size nmemb stream : ℕ) : Decidable (SeeksBack w size nmemb stream) :=
  inferInstanceAs (Decidable (_ ≤ _))

/-- `fread` reports a block: it returns 0 with `EACCES`. -/
def ReportsBlock (env : Env) (u : Unspecified) (w : World) (memory : List Char)
    (size nmemb stream : ℕ) : Prop :=
  ∃ memory' w', fread env u w memory size nmemb stream = .ok (⟨0, some .eacces⟩, memory', w')

/-- A block is reported exactly when the bytes that were read contain a keyword. -/
def FilterExact (env : Env) (u : Unspecified) (w : World) (keywords : List (List Char))
    (memory : List Char) (size nmemb stream : ℕ) : Prop :=
  ReportsBlock env u w memory size nmemb stream ↔
    ContainsAny keywords (w.transferred size nmemb stream)

/-- When `fread` blocks a read, the stream stands where it stood, and every byte that was read
is gone from the memory or was cleared. -/
def UndoesBlocked (env : Env) (u : Unspecified) (w : World) (memory : List Char)
    (size nmemb stream : ℕ) : Prop :=
  ∀ errno memory' w',
    fread env u w memory size nmemb stream = .ok (⟨0, some errno⟩, memory', w') →
      w'.position stream = w.position stream ∧
        ∀ (i : ℕ) (c : Char), (w.transferred size nmemb stream)[i]? = some c →
          memory'[i]? = some c → c = '\x00'

variable {env : Env} {u : Unspecified} {w : World} {s : Stream} {memory : List Char}
variable {keywords : List (List Char)} {size nmemb stream : ℕ}

/-- A keyword in a part of a text is in the text. -/
theorem ContainsAny.mono {text text' : List Char} (hfound : ContainsAny keywords text)
    (hin : text <:+: text') : ContainsAny keywords text' := by
  obtain ⟨keyword, hmem, hkeyword⟩ := hfound
  exact ⟨keyword, hmem, hkeyword.trans hin⟩

/-! ## The position -/

/-- Moving an open stream sets its position. -/
theorem World.position_seek (hstream : w.streams[stream]? = some s) (position : ℕ) :
    (w.seek stream position).position stream = position := by
  simp [World.position, World.seek, hstream]

/-- The library's `fread` moves the position behind the bytes. -/
theorem World.position_fread (hstream : w.streams[stream]? = some s) (size nmemb : ℕ) :
    (w.fread size nmemb stream).2.position stream =
      w.position stream + (w.transferred size nmemb stream).length :=
  w.position_seek hstream _

/-- Moving an open stream by an offset that leads before the start leaves it where it is. -/
theorem World.position_seekBy (hstream : w.streams[stream]? = some s) (offset : ℤ) :
    ((w.seekBy stream offset).position stream : ℤ) =
      if w.AcceptsOffset stream offset then w.position stream + offset else w.position stream := by
  by_cases haccepts : w.AcceptsOffset stream offset
  · rw [World.seekBy, if_pos haccepts, if_pos haccepts, w.position_seek hstream]
    exact Int.toNat_of_nonneg haccepts
  · rw [World.seekBy, if_neg haccepts, if_neg haccepts]

/-- For every amount that memory can hold, the unsigned product is the negative amount. -/
theorem seekOffset_eq (hmemory : size * nmemb < 2 ^ 63) :
    seekOffset size nmemb = -((size * nmemb : ℕ) : ℤ) := by
  rw [seekOffset, BitVec.neg_mul, ← BitVec.ofNat_mul, BitVec.toInt_neg, BitVec.toInt_ofNat']
  generalize size * nmemb = amount at hmemory ⊢
  have hamount : (amount : ℤ).bmod (2 ^ 64) = amount := Int.bmod_eq_of_le (by omega) (by omega)
  rw [hamount]
  exact Int.bmod_eq_of_le (by omega) (by omega)

/-- For every amount that memory can hold, a stream seeks back when it stands behind that many
bytes at least. -/
theorem seeksBack_iff (hmemory : size * nmemb < 2 ^ 63) :
    SeeksBack w size nmemb stream ↔
      size * nmemb ≤ w.position stream + (w.transferred size nmemb stream).length := by
  rw [SeeksBack, seekOffset_eq hmemory]
  omega

/-- A read never transfers more than was asked for. -/
theorem World.length_transferred_le (w : World) (size nmemb stream : ℕ) :
    (w.transferred size nmemb stream).length ≤ size * nmemb := by
  unfold World.transferred
  split
  · simp
  · split <;> simp

/-! ## One call -/

/-- The memory that was asked for, after the read. -/
theorem take_memory (w : World) (memory : List Char) (size nmemb stream : ℕ) :
    (w.transferred size nmemb stream ++
        memory.drop (w.transferred size nmemb stream).length).take (size * nmemb) =
      w.transferred size nmemb stream ++ w.stale memory size nmemb stream := by
  have hlength := w.length_transferred_le size nmemb stream
  rw [List.take_append, List.take_of_length_le hlength, World.stale, List.drop_take]

/-- A stream that was read is still open. -/
theorem World.exists_stream_fread (hstream : w.streams[stream]? = some s) (size nmemb : ℕ) :
    ∃ s', (w.fread size nmemb stream).2.streams[stream]? = some s' := by
  simp [World.fread, World.seek, hstream]

/-- The search of `fread` in what it copied. -/
theorem compareRead_iff : compareRead (cstring '\x00'
      ((w.transferred size nmemb stream ++
        memory.drop (w.transferred size nmemb stream).length).take (size * nmemb)))
      keywords = true ↔
    FindsKeyword w keywords memory size nmemb stream := by
  rw [take_memory]
  simp [compareRead, FindsKeyword, ContainsAny]

/-- The state after the library's call, in which the name of the file was computed before. -/
def afterRead (w : World) (s : Stream) (size nmemb stream : ℕ) : World :=
  (World.fread { w with
    onlyFilename := (handleFilename w.onlyFilename (s.path.take (procLinkSize + 1)) 0).2 }
    size nmemb stream).2

/-- After the library's call the stream is open, and stands behind the bytes. -/
theorem afterRead_stream (hstream : w.streams[stream]? = some s) :
    (∃ s', (afterRead w s size nmemb stream).streams[stream]? = some s') ∧
      (afterRead w s size nmemb stream).position stream =
        w.position stream + (w.transferred size nmemb stream).length :=
  ⟨World.exists_stream_fread (w := { w with onlyFilename := _ }) hstream size nmemb,
    World.position_fread (w := { w with onlyFilename := _ }) hstream size nmemb⟩

/-- After the library's call, `fseek` succeeds when the stream seeks back. -/
theorem acceptsOffset_afterRead (hstream : w.streams[stream]? = some s) :
    (afterRead w s size nmemb stream).AcceptsOffset stream (seekOffset size nmemb) ↔
      SeeksBack w size nmemb stream := by
  rw [World.AcceptsOffset, (afterRead_stream hstream).2, SeeksBack]

/-- A read that finds a keyword is blocked. -/
theorem fread_of_finds (u : Unspecified) (hstream : w.streams[stream]? = some s)
    (hblacklist : env.blacklist .fread = .ok (some keywords))
    (hfinds : FindsKeyword w keywords memory size nmemb stream) :
    ∃ rest, fread env u w memory size nmemb stream =
      .ok (⟨0, some (if SeeksBack w size nmemb stream then .eacces else .einval)⟩,
        literalBytes u (size * nmemb) ++ rest,
        (afterRead w s size nmemb stream).seekBy stream (seekOffset size nmemb)) := by
  have hseek : (afterRead w s size nmemb stream).AcceptsOffset stream (seekOffset size nmemb) ↔
      SeeksBack w size nmemb stream := acceptsOffset_afterRead hstream
  simp only [Logger.fread, hblacklist, handleSymbolicLink_fd hstream, ok_bind, ← hseek]
  exact ⟨_, if_pos (compareRead_iff.mpr hfinds)⟩

/-- A read that finds no keyword sets no error number. -/
theorem fread_of_not_finds (u : Unspecified) (hstream : w.streams[stream]? = some s)
    (hblacklist : env.blacklist .fread = .ok (some keywords))
    (hfinds : ¬FindsKeyword w keywords memory size nmemb stream) :
    ∃ answer memory' w', fread env u w memory size nmemb stream = .ok (answer, memory', w') ∧
      answer.errno = none := by
  simp only [Logger.fread, hblacklist, handleSymbolicLink_fd hstream, ok_bind]
  exact ⟨_, _, _, if_neg (compareRead_iff.not.mpr hfinds), rfl⟩

/-- A block is reported when a keyword is found and the stream seeks back: otherwise `fseek`
replaces the error number. -/
theorem reportsBlock_iff (hstream : w.streams[stream]? = some s)
    (hblacklist : env.blacklist .fread = .ok (some keywords)) :
    ReportsBlock env u w memory size nmemb stream ↔
      FindsKeyword w keywords memory size nmemb stream ∧ SeeksBack w size nmemb stream := by
  by_cases hfinds : FindsKeyword w keywords memory size nmemb stream
  · obtain ⟨rest, hcall⟩ := fread_of_finds u hstream hblacklist hfinds
    rw [ReportsBlock, hcall]
    by_cases hback : SeeksBack w size nmemb stream <;> simp [hfinds, hback]
  · obtain ⟨answer, memory', w', hcall, herrno⟩ := fread_of_not_finds u hstream hblacklist hfinds
    rw [ReportsBlock, hcall]
    refine iff_of_false ?_ fun h => hfinds h.1
    rintro ⟨_, _, heq⟩
    rw [(Prod.mk.inj (Except.ok.inj heq)).1] at herrno
    cases herrno

/-! ## The filter -/

/-- A process that has opened a file for reading. -/
def readingWorld (content : List Char) : World where
  files := fun path => if path = "/tmp/in.txt".toList then some (.file content) else none
  creatable := fun _ => true
  streams := [⟨"/tmp/in.txt".toList, 0, true, false, false, []⟩]
  sockets := fun _ => none
  accepts := fun _ => true
  hosts := fun _ => none
  onlyFilename := List.replicate 100 '\x00'
  logs := fun _ => []

/-- A configuration that blocks reading one word. -/
def readEnv : Env := ⟨some "BEGIN read-blacklist\nkey\nEND read-blacklist\n".toList, 100⟩

theorem readEnv_blacklist : readEnv.blacklist .fread = .ok (some ["key".toList]) := by
  decide +kernel

/-- Memory without special bytes. -/
def plainMemory : Unspecified := ⟨false, [], [], fun _ => 'x'⟩

/-- The byte that a blocked read leaves at an index of the memory. -/
theorem literalBytes_getElem? {i amount : ℕ} (hi : i < amount) (rest : List Char) :
    (literalBytes u amount ++ rest)[i]? = some (if i < 2 then '\x00' else u.behindLiteral i) := by
  rw [List.getElem?_append_left (by simpa [literalBytes] using hi)]
  simp [literalBytes, hi]

/-- The position of a blocked read is restored when the offset takes back what was read, or
nothing was read and the stream does not seek back. -/
theorem position_afterRead_iff (hstream : w.streams[stream]? = some s) :
    ((afterRead w s size nmemb stream).seekBy stream (seekOffset size nmemb)).position stream =
        w.position stream ↔
      seekOffset size nmemb = -((w.transferred size nmemb stream).length : ℤ) ∨
        (w.transferred size nmemb stream).length = 0 ∧ ¬SeeksBack w size nmemb stream := by
  obtain ⟨⟨s', hopen⟩, -⟩ : (∃ s', (afterRead w s size nmemb stream).streams[stream]? =
      some s') ∧ _ := afterRead_stream hstream
  rw [← Int.natCast_inj, World.position_seekBy hopen, (afterRead_stream hstream).2]
  by_cases hseeks : SeeksBack w size nmemb stream
  · rw [if_pos ((acceptsOffset_afterRead hstream).mpr hseeks)]
    simp only [hseeks, not_true_eq_false, and_false, or_false]
    omega
  · rw [if_neg ((acceptsOffset_afterRead hstream).not.mpr hseeks)]
    have hbefore : ¬0 ≤ ((w.position stream + (w.transferred size nmemb stream).length : ℕ) : ℤ) +
      seekOffset size nmemb := hseeks
    simp only [hseeks, not_false_eq_true, and_true]
    omega

/-- Nothing that was read is left, except zeros, exactly when behind the second byte it differs
from what stands behind the literal. -/
theorem cleared_iff (rest : List Char) :
    (∀ (i : ℕ) (c : Char), (w.transferred size nmemb stream)[i]? = some c →
        (literalBytes u (size * nmemb) ++ rest)[i]? = some c → c = '\x00') ↔
      ∀ i, 2 ≤ i → (w.transferred size nmemb stream)[i]? = some (u.behindLiteral i) →
        u.behindLiteral i = '\x00' := by
  have hread {i : ℕ} {c : Char} (hbyte : (w.transferred size nmemb stream)[i]? = some c) :
      i < size * nmemb :=
    (List.getElem?_eq_some_iff.mp hbyte).1.trans_le (w.length_transferred_le _ _ _)
  constructor
  · intro hcleared i htwo hbyte
    refine hcleared i _ hbyte ?_
    rw [literalBytes_getElem? (hread hbyte), if_neg (by omega)]
  · intro hliteral i c hbyte hleft
    rw [literalBytes_getElem? (hread hbyte), Option.some.injEq] at hleft
    by_cases htwo : i < 2
    · rw [← hleft, if_pos htwo]
    · rw [if_neg htwo] at hleft
      rw [← hleft] at hbyte ⊢
      exact hliteral i (by omega) hbyte

/-- A read that finds no keyword has nothing to undo. -/
theorem undoesBlocked_of_not_finds (u : Unspecified) (hstream : w.streams[stream]? = some s)
    (hblacklist : env.blacklist .fread = .ok (some keywords))
    (hfinds : ¬FindsKeyword w keywords memory size nmemb stream) :
    UndoesBlocked env u w memory size nmemb stream := by
  obtain ⟨answer, memory', w', hcall, herrno⟩ := fread_of_not_finds u hstream hblacklist hfinds
  intro errno _ _ heq
  rw [hcall] at heq
  rw [(Prod.mk.inj (Except.ok.inj heq)).1] at herrno
  cases herrno

end UnixProgramming.Logger
