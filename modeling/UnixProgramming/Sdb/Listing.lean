import UnixProgramming.Sdb.Edits

/-!
# The listing

`disassemble` prints five instructions from an address on. The sixteen bytes for each are
two words, read from the tracee or, where a breakpoint is active at the address of a word,
taken from its entry. The saved word of a breakpoint is as old as the breakpoint, and a
breakpoint inside of a word is not looked for, so that a listing may show both old bytes
and `int3`s. The disassembler is a parameter that looks at the bytes of one instruction.
-/

namespace UnixProgramming.Sdb

/-- The fields of `cs_insn` that are printed, apart from address and bytes. -/
structure Insn where
  size : ℕ
  mnemonic : String
  opStr : String
  deriving DecidableEq

/-- `cs_disasm` for one instruction: its address and the bytes from there on. -/
abbrev Disassembler := Addr → List (BitVec 8) → Option Insn

/-- What `disassemble` prints. -/
inductive Line
  | outOfRange
  | failed
  | insn (address : Addr) (bytes : List (BitVec 8)) (mnemonic opStr : String)
  deriving DecidableEq

/-- `NUM_INTRUCTIONS`. -/
def numInstructions : ℕ := 5

/-- `sizeof(code)`. -/
def codeSize : ℕ := 16

variable {γ δ : Type}

/-- The word of the listing at an address: the one that the first active breakpoint there has
saved, or the one in memory. -/
def Session.shownWord (s : Session γ δ) (a : Addr) : Word :=
  match s.activeAt a with
  | some j => (s.breakpoints j).originalCode
  | none => s.mem.peek a 8

/-- The address of the word that byte `k` of `code` belongs to. -/
def wordAddr (a : Addr) (k : ℕ) : Addr := a + BitVec.ofNat 64 (8 * (k / 8))

/-- The array `code`. -/
def Session.shownCode (s : Session γ δ) (a : Addr) : List (BitVec 8) :=
  (List.range codeSize).map fun k => byteOf (s.shownWord (wordAddr a k)) (k % 8)

/-- The loop of `disassemble`, for the given number of instructions. -/
def disassembleLoop (csDisasm : Disassembler) (endAddress : Addr) (s : Session γ δ) :
    ℕ → Addr → List Line
  | 0, _ => []
  | n + 1, a =>
    if endAddress < a then [.outOfRange]
    else
      let code := s.shownCode a
      match csDisasm a code with
      | some insn => .insn a (code.take insn.size) insn.mnemonic insn.opStr ::
          disassembleLoop csDisasm endAddress s n (a + BitVec.ofNat 64 insn.size)
      | none => .failed :: disassembleLoop csDisasm endAddress s n a

/-- `disassemble`. -/
def disassemble (csDisasm : Disassembler) (endAddress : Addr) (s : Session γ δ) (address : Addr) :
    List Line :=
  disassembleLoop csDisasm endAddress s numInstructions address

/-- An instruction that is printed has the bytes of the memory at its address. -/
def Line.Shows (logical : ByteMemory 64) : Line → Prop
  | .insn a bytes _ _ => ∀ k b, bytes[k]? = some b → b = logical (a + BitVec.ofNat 64 k)
  | _ => True

/-- The disassembler decodes an instruction from its own bytes only. -/
structure DecodesOwnBytes (csDisasm : Disassembler) : Prop where
  size_le : ∀ a code insn, csDisasm a code = some insn → insn.size ≤ code.length
  own : ∀ a code code' insn, csDisasm a code = some insn →
    code'.take insn.size = code.take insn.size → csDisasm a code' = some insn

/-- Sixteen bytes of a memory. -/
def logicalCode (logical : ByteMemory 64) (a : Addr) : List (BitVec 8) :=
  (List.range codeSize).map fun k => logical (a + BitVec.ofNat 64 k)

/-- Byte `k` of a listed instruction is not disturbed: a breakpoint at the address of its word
has saved it, and if there is none, the byte has no breakpoint of its own, or is an `int3`
of the program. -/
structure Undisturbed (s : Session γ δ) (logical : ByteMemory 64) (a : Addr) (k : ℕ) : Prop where
  saved : ∀ j, s.Active j → (s.breakpoints j).addr = wordAddr a k →
    byteOf (s.breakpoints j).originalCode (k % 8) = logical (a + BitVec.ofNat 64 k)
  plain : ¬s.ActiveAt (wordAddr a k) → s.ActiveAt (a + BitVec.ofNat 64 k) →
    logical (a + BitVec.ofNat 64 k) = 0xcc#8

instance (s : Session γ δ) (logical : ByteMemory 64) (a : Addr) (k : ℕ) :
    Decidable (Undisturbed s logical a k) :=
  decidable_of_iff
    ((∀ j < s.numBreakpoints, s.Active j → (s.breakpoints j).addr = wordAddr a k →
        byteOf (s.breakpoints j).originalCode (k % 8) = logical (a + BitVec.ofNat 64 k)) ∧
      (¬s.ActiveAt (wordAddr a k) → s.ActiveAt (a + BitVec.ofNat 64 k) →
        logical (a + BitVec.ofNat 64 k) = 0xcc#8))
    ⟨fun h => ⟨fun j hj => h.1 j hj.1 hj, h.2⟩, fun h => ⟨fun j _ => h.saved j, h.plain⟩⟩

/-- The instructions of the memory, as far as they are listed, have undisturbed bytes; or
nothing is listed, because the address is out of range or the sixteen bytes that stand for an
instruction cannot be decoded. -/
def ListsUndisturbed (csDisasm : Disassembler) (endAddress : Addr) (s : Session γ δ)
    (logical : ByteMemory 64) : ℕ → Addr → Prop
  | 0, _ => True
  | n + 1, a =>
    endAddress < a ∨ csDisasm a (s.shownCode a) = none ∨
      ∃ insn, csDisasm a (logicalCode logical a) = some insn ∧
        (∀ k < insn.size, Undisturbed s logical a k) ∧
        ListsUndisturbed csDisasm endAddress s logical n (a + BitVec.ofNat 64 insn.size)

instance decidableListsUndisturbed (csDisasm : Disassembler) (endAddress : Addr)
    (s : Session γ δ) (logical : ByteMemory 64) :
    ∀ n a, Decidable (ListsUndisturbed csDisasm endAddress s logical n a)
  | 0, _ => .isTrue trivial
  | n + 1, a =>
    have := decidableListsUndisturbed csDisasm endAddress s logical n
    decidable_of_iff (endAddress < a ∨ csDisasm a (s.shownCode a) = none ∨
      ∃ insn ∈ csDisasm a (logicalCode logical a), (∀ k < insn.size, Undisturbed s logical a k) ∧
        ListsUndisturbed csDisasm endAddress s logical n (a + BitVec.ofNat 64 insn.size)) Iff.rfl

variable {csDisasm : Disassembler} {endAddress a : Addr} {s : Session γ δ} {logical : ByteMemory 64}
variable {k n : ℕ}

/-- A byte that is shown is the logical one exactly when it is undisturbed. -/
theorem shown_eq_iff (hover : Overlaid s logical) (k : ℕ) :
    byteOf (s.shownWord (wordAddr a k)) (k % 8) = logical (a + BitVec.ofNat 64 k) ↔
      Undisturbed s logical a k := by
  have haddr : wordAddr a k + BitVec.ofNat 64 (k % 8) = a + BitVec.ofNat 64 k := by
    rw [wordAddr, BitVec.add_assoc, ← BitVec.ofNat_add, Nat.div_add_mod]
  unfold Session.shownWord
  cases hfind : s.activeAt (wordAddr a k) with
  | some j =>
    obtain ⟨hj, hja⟩ := active_of_activeAt hfind
    constructor
    · intro heq
      refine ⟨fun i hi hia => ?_, fun hnone => absurd ⟨j, hj, hja⟩ hnone⟩
      rw [hover.distinct i j hi hj (hia.trans hja.symm)]
      exact heq
    · exact fun hundisturbed => hundisturbed.saved j hj hja
  | none =>
    have hnone := activeAt_eq_none.mp hfind
    dsimp only
    rw [ByteMemory.byteOf_peek (Nat.mod_lt k (by decide)), haddr]
    constructor
    · intro heq
      refine ⟨fun i hi hia => absurd ⟨i, hi, hia⟩ hnone, fun _ hactive => ?_⟩
      rw [← heq, hover.trap _ hactive]
    · intro hundisturbed
      by_cases hactive : s.ActiveAt (a + BitVec.ofNat 64 k)
      · rw [hover.trap _ hactive, hundisturbed.plain hnone hactive]
      · exact hover.plain _ hactive

/-- The first bytes that are shown are the logical ones exactly when they are undisturbed. -/
theorem take_shownCode_iff (hover : Overlaid s logical) {m : ℕ} (hm : m ≤ codeSize) :
    (s.shownCode a).take m = (logicalCode logical a).take m ↔
      ∀ k < m, Undisturbed s logical a k := by
  constructor
  · intro heq k hk
    rw [← shown_eq_iff hover]
    have hget := congrArg (·[k]?) heq
    simpa [Session.shownCode, logicalCode, List.getElem?_take, hk, hk.trans_le hm] using hget
  · intro hall
    apply List.ext_getElem?
    intro k
    by_cases hk : k < m
    · have hbyte := (shown_eq_iff hover k).mpr (hall k hk)
      simp [Session.shownCode, logicalCode, hk, hk.trans_le hm, hbyte]
    · simp [hk]

/-- The line of an instruction shows its bytes of the memory when these are the bytes shown. -/
theorem shows_insn_iff {m : ℕ} (hm : m ≤ codeSize) {mnemonic opStr : String} :
    (Line.insn a ((s.shownCode a).take m) mnemonic opStr).Shows logical ↔
      (s.shownCode a).take m = (logicalCode logical a).take m := by
  have hlogical : ∀ k < m, ((logicalCode logical a).take m)[k]? =
      some (logical (a + BitVec.ofNat 64 k)) := by
    intro k hk
    simp [logicalCode, hk, hk.trans_le hm]
  have hlen : ((s.shownCode a).take m).length = m := by
    simp [Session.shownCode, hm]
  constructor
  · intro hshows
    apply List.ext_getElem?
    intro k
    by_cases hk : k < m
    · have hget := List.getElem?_eq_getElem (hlen.symm ▸ hk)
      rw [hget, hlogical k hk, hshows k _ hget]
    · simp [hk]
  · intro heq k b hb
    have hk : k < m := hlen ▸ (List.getElem?_eq_some_iff.mp hb).1
    rw [heq, hlogical k hk] at hb
    exact (Option.some.inj hb).symm

/-- From an address whose bytes cannot be decoded, the listing does not get on. -/
theorem shows_of_failed (hfailed : csDisasm a (s.shownCode a) = none) :
    ∀ line ∈ disassembleLoop csDisasm endAddress s n a, line.Shows logical := by
  induction n with
  | zero => exact fun _ hline => absurd hline (List.not_mem_nil)
  | succ n ih =>
    intro line hline
    rw [disassembleLoop] at hline
    split at hline
    · rw [List.mem_singleton.mp hline]
      trivial
    · simp only [hfailed] at hline
      rcases List.mem_cons.mp hline with rfl | hline
      · trivial
      · exact ih line hline

/-- The loop shows the logical memory exactly when what it lists is undisturbed. The induction
is on the number of instructions. -/
theorem disassembleLoop_shows_iff (hdecodes : DecodesOwnBytes csDisasm)
    (hover : Overlaid s logical) :
    (∀ line ∈ disassembleLoop csDisasm endAddress s n a, line.Shows logical) ↔
      ListsUndisturbed csDisasm endAddress s logical n a := by
  induction n generalizing a with
  | zero => simp [disassembleLoop, ListsUndisturbed]
  | succ n ih =>
    rw [ListsUndisturbed]
    by_cases hend : endAddress < a
    · refine iff_of_true (fun line hline => ?_) (.inl hend)
      rw [disassembleLoop, if_pos hend] at hline
      rw [List.mem_singleton.mp hline]
      trivial
    cases hdecode : csDisasm a (s.shownCode a) with
    | none => exact iff_of_true (shows_of_failed hdecode) (.inr (.inl rfl))
    | some insn =>
      have hsize : insn.size ≤ codeSize := by
        simpa [Session.shownCode] using hdecodes.size_le a _ insn hdecode
      have hloop : disassembleLoop csDisasm endAddress s (n + 1) a =
          .insn a ((s.shownCode a).take insn.size) insn.mnemonic insn.opStr ::
            disassembleLoop csDisasm endAddress s n (a + BitVec.ofNat 64 insn.size) := by
        rw [disassembleLoop, if_neg hend]
        simp only [hdecode]
      simp only [hloop, List.forall_mem_cons, shows_insn_iff hsize, ih,
        take_shownCode_iff hover hsize, hend, false_or, reduceCtorEq]
      constructor
      · rintro ⟨hbytes, hrest⟩
        have heq := (take_shownCode_iff hover hsize).mpr hbytes
        exact ⟨insn, hdecodes.own a _ _ insn hdecode heq.symm, hbytes, hrest⟩
      · rintro ⟨insn', hdecode', hbytes, hrest⟩
        have hsize' : insn'.size ≤ codeSize := by
          simpa [logicalCode] using hdecodes.size_le a _ insn' hdecode'
        have heq := (take_shownCode_iff hover hsize').mpr hbytes
        -- the same instruction is decoded from the bytes shown
        have hsame : some insn = some insn' := hdecode ▸ hdecodes.own a _ _ insn' hdecode' heq
        obtain rfl := Option.some.inj hsame
        exact ⟨hbytes, hrest⟩

/-- For every session whose memory is a logical memory with `0xCC` at the active breakpoints, and
every address: the instructions that `disassemble` prints have the bytes of the logical
memory exactly when what is listed is undisturbed. -/
theorem disassemble_shows_iff (hdecodes : DecodesOwnBytes csDisasm) (s : Session γ δ)
    (logical : ByteMemory 64) (hover : Overlaid s logical) (endAddress a : Addr) :
    (∀ line ∈ disassemble csDisasm endAddress s a, line.Shows logical) ↔
      ListsUndisturbed csDisasm endAddress s logical numInstructions a :=
  disassembleLoop_shows_iff hdecodes hover

/-- A disassembler for three instructions. -/
def sampleDisasm : Disassembler
  | _, 0x00#8 :: 0x00#8 :: _ => some ⟨2, "add", "byte ptr [rax], al"⟩
  | _, 0x90#8 :: _ => some ⟨1, "nop", ""⟩
  | _, 0xcc#8 :: _ => some ⟨1, "int3", ""⟩
  | _, _ => none

theorem sampleDisasm_ownBytes : DecodesOwnBytes sampleDisasm where
  size_le a code insn hdecode := by
    unfold sampleDisasm at hdecode
    split at hdecode <;> cases hdecode <;> simp
  own a code code' insn hdecode heq := by
    have happend : code' = code.take insn.size ++ code'.drop insn.size := by
      rw [← heq, List.take_append_drop]
    rw [happend]
    unfold sampleDisasm at hdecode
    split at hdecode <;> cases hdecode <;> rfl

/-- A listing over a breakpoint and a patched byte shows the bytes of the logical memory. -/
theorem disassemble_shows_edits :
    (disassemble sampleDisasm 0xff sampleEdits.session 0).getLast? =
        some (.insn 8 [0x90] "nop" "") ∧
      ∀ line ∈ disassemble sampleDisasm 0xff sampleEdits.session 0,
        line.Shows sampleEdits.logical := by
  have hset : setBreakpoints (withBp (sampleSession 0) 0) 0x10 =
      .ok ([.set 0x10], withBp (withBp (sampleSession 0) 0) 0x10) := rfl
  have harmed : Armed sampleEdits.session none sampleEdits.logical :=
    (sample_armed.setBreakpoints hset).patchMemory 8 0x90 (by decide)
  exact ⟨by decide, (disassemble_shows_iff sampleDisasm_ownBytes _ _
    (armed_none_iff.mp harmed).1 0xff 0).mpr (by decide)⟩

/-- A byte that is patched behind a breakpoint: the listing shows the one that was there when
the breakpoint was set. -/
theorem not_disassemble_shows : ¬∀ csDisasm : Disassembler, DecodesOwnBytes csDisasm →
    ∀ e, Reachable sampleEdited (EditStep sampleProgram) e → Overlaid e.session e.logical →
      ∀ endAddress a, ∀ line ∈ disassemble csDisasm endAddress e.session a,
        line.Shows e.logical := by
  intro hall
  let e₁ : Edited Unit Unit := ⟨withBp (sampleSession 0) 0, fun _ => 0⟩
  let e₂ : Edited Unit Unit :=
    ⟨(patchMemory e₁.session 1 0xab 1).2, e₁.logical.overwrite 1 0xab#64 1⟩
  have hbreak : EditStep sampleProgram sampleEdited (.brk 0) e₁ := ⟨rfl, ⟨0, _, rfl⟩, rfl⟩
  have hpatch : EditStep sampleProgram e₁ (.patch 1 0xab 1 (by decide)) e₂ :=
    ⟨rfl, ⟨0, _, rfl⟩, rfl⟩
  have hover : Overlaid e₂.session e₂.logical :=
    (armed_none_iff.mp (sample_armed.patchMemory 1 0xab (by decide))).1
  have hline : (disassemble sampleDisasm 0xff e₂.session 0).head? =
      some (.insn 0 [0, 0] "add" "byte ptr [rax], al") := by decide
  have hreach := (reachable_init.step hbreak).step hpatch
  have hshows := hall sampleDisasm sampleDisasm_ownBytes e₂ hreach hover 0xff 0 _
    (List.mem_of_head? hline) 1 0 rfl
  exact absurd hshows (by decide)

end UnixProgramming.Sdb
