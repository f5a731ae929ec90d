import UnixProgramming.Sdb.Listing

/-!
# Listing a section

`readelf` keeps the limit of the listing as an address near the end of `.text`, two bytes
before it. For a section that decodes into instructions, this file compares what
`disassemble` prints from an instruction on with the next five instructions of the section
and the message behind the last one.
-/

namespace UnixProgramming.Sdb

variable {γ δ : Type}

/-- The bytes of a list of instructions. -/
def codeLength (insns : List Insn) : ℕ := (insns.map Insn.size).sum

/-- The memory from an address on is a list of instructions, one behind the other. -/
def DecodesTo (csDisasm : Disassembler) (logical : ByteMemory 64) : Addr → List Insn → Prop
  | _, [] => True
  | a, insn :: insns =>
    csDisasm a (logicalCode logical a) = some insn ∧ 0 < insn.size ∧
      DecodesTo csDisasm logical (a + BitVec.ofNat 64 insn.size) insns

/-- A `.text` section of the memory that fully decodes into instructions. -/
structure TextSection (csDisasm : Disassembler) (logical : ByteMemory 64) where
  shAddr : Addr
  insns : List Insn
  decodes : DecodesTo csDisasm logical shAddr insns
  fits : shAddr.toNat + codeLength insns < 2 ^ 64

variable {csDisasm : Disassembler} {logical : ByteMemory 64}

/-- `sh_size` of the section. -/
def TextSection.shSize (text : TextSection csDisasm logical) : Addr :=
  BitVec.ofNat 64 (codeLength text.insns)

/-- `end_addr`, as `readelf` computes it. -/
def TextSection.endAddr (text : TextSection csDisasm logical) : Addr :=
  text.shAddr + text.shSize - 2

/-- The address behind the first instructions of the section. -/
def TextSection.boundary (text : TextSection csDisasm logical) (before : List Insn) : Addr :=
  text.shAddr + BitVec.ofNat 64 (codeLength before)

/-- The line of an instruction of the memory. -/
def insnLine (logical : ByteMemory 64) (a : Addr) (insn : Insn) : Line :=
  .insn a ((logicalCode logical a).take insn.size) insn.mnemonic insn.opStr

/-- The listing of the instructions that remain in a section: up to the given number of them,
and the message when there are fewer. -/
def remaining (logical : ByteMemory 64) : ℕ → Addr → List Insn → List Line
  | 0, _, _ => []
  | _ + 1, _, [] => [.outOfRange]
  | n + 1, a, insn :: insns =>
    insnLine logical a insn :: remaining logical n (a + BitVec.ofNat 64 insn.size) insns

/-- The bytes of the first instructions from an address on are undisturbed. -/
def RemainUndisturbed (s : Session γ δ) (logical : ByteMemory 64) : ℕ → Addr → List Insn → Prop
  | n + 1, a, insn :: insns =>
    (∀ k < insn.size, Undisturbed s logical a k) ∧
      RemainUndisturbed s logical n (a + BitVec.ofNat 64 insn.size) insns
  | _, _, _ => True

/-- The last instruction of a section is not shorter than the two bytes that `readelf` takes
off, or there are enough instructions before it. -/
def LastReached (n : ℕ) (insns : List Insn) : Prop :=
  n < insns.length ∨ ∀ insn, insns.getLast? = some insn → 2 ≤ insn.size

variable {s : Session γ δ} {endAddress a : Addr} {insn : Insn} {insns before : List Insn} {n : ℕ}

@[simp] theorem codeLength_nil : codeLength [] = 0 := rfl

@[simp] theorem codeLength_cons : codeLength (insn :: insns) = insn.size + codeLength insns := rfl

theorem codeLength_append :
    codeLength (before ++ insns) = codeLength before + codeLength insns := by
  simp [codeLength]

@[simp] theorem remainUndisturbed_nil : RemainUndisturbed s logical n a [] := by
  cases n <;> trivial

/-- Behind some of its instructions a section goes on with the others. -/
theorem DecodesTo.drop (hdecodes : DecodesTo csDisasm logical a (before ++ insns)) :
    DecodesTo csDisasm logical (a + BitVec.ofNat 64 (codeLength before)) insns := by
  induction before generalizing a with
  | nil => simpa using hdecodes
  | cons insn before ih =>
    rw [codeLength_cons, BitVec.ofNat_add, ← BitVec.add_assoc]
    exact ih hdecodes.2.2

/-- The loop prints the line of an instruction first exactly when its bytes are undisturbed. -/
theorem disassembleLoop_eq_cons_iff (hown : DecodesOwnBytes csDisasm) (hover : Overlaid s logical)
    (hdecode : csDisasm a (logicalCode logical a) = some insn) (hin : ¬endAddress < a)
    {lines : List Line} :
    disassembleLoop csDisasm endAddress s (n + 1) a = insnLine logical a insn :: lines ↔
      (∀ k < insn.size, Undisturbed s logical a k) ∧
        disassembleLoop csDisasm endAddress s n (a + BitVec.ofNat 64 insn.size) = lines := by
  have hsize : insn.size ≤ codeSize := by
    simpa [logicalCode] using hown.size_le a _ insn hdecode
  rw [disassembleLoop, if_neg hin, ← take_shownCode_iff hover hsize]
  constructor
  · intro hlines
    cases hshown : csDisasm a (s.shownCode a) with
    | none => simp [hshown, insnLine] at hlines
    | some insn' =>
      simp only [hshown, insnLine, List.cons.injEq, Line.insn.injEq, true_and] at hlines
      obtain ⟨⟨hbytes, -, -⟩, htail⟩ := hlines
      have hsize' : insn'.size ≤ codeSize := by
        simpa [Session.shownCode] using hown.size_le a _ insn' hshown
      have hlength : insn'.size = insn.size := by
        have := congrArg List.length hbytes
        simpa [Session.shownCode, logicalCode, hsize, hsize'] using this
      rw [hlength] at hbytes
      have hsame := hown.own a _ _ insn hdecode hbytes
      obtain rfl := Option.some.inj (hshown.symm.trans hsame)
      exact ⟨hbytes, htail⟩
  · rintro ⟨hbytes, htail⟩
    simp only [hown.own a _ _ insn hdecode hbytes, insnLine, hbytes, htail]

/-- Behind the last instruction only the message is printed. -/
theorem disassembleLoop_end (logical : ByteMemory 64) (hend : endAddress < a) :
    disassembleLoop csDisasm endAddress s n a = remaining logical n a [] := by
  cases n with
  | zero => rfl
  | succ n => rw [disassembleLoop, if_pos hend, remaining]

/-- Below the last address of all the message is not printed. -/
theorem disassembleLoop_ne_end (logical : ByteMemory 64) (hin : ¬endAddress < a) :
    disassembleLoop csDisasm endAddress s (n + 1) a ≠ remaining logical (n + 1) a [] := by
  rw [disassembleLoop, if_neg hin, remaining]
  cases hshown : csDisasm a (s.shownCode a) <;> simp [hshown]

/-- The message is printed behind the last two bytes of a section. -/
theorem endAddr_lt_iff {total m : ℕ} (htotal : total < 2 ^ 64) (htwo : 2 ≤ total)
    (hm : a.toNat + m = total) : BitVec.ofNat 64 total - 2#64 < a ↔ m < 2 := by
  have hlimit : (BitVec.ofNat 64 total - 2#64).toNat = total - 2 := by
    rw [BitVec.toNat_sub, BitVec.toNat_ofNat, BitVec.toNat_ofNat]
    omega
  rw [BitVec.lt_def, hlimit]
  omega

/-- The loop lists what remains of a section exactly when it is undisturbed and its last
instruction is reached. The induction is on the number of lines. -/
theorem disassembleLoop_eq_remaining_iff (hown : DecodesOwnBytes csDisasm)
    (hover : Overlaid s logical) {total : ℕ} (htotal : total < 2 ^ 64) (htwo : 2 ≤ total)
    (hdecodes : DecodesTo csDisasm logical a insns) (hne : insns ≠ [])
    (hend : a.toNat + codeLength insns = total) :
    disassembleLoop csDisasm (BitVec.ofNat 64 total - 2#64) s n a = remaining logical n a insns ↔
      RemainUndisturbed s logical n a insns ∧ LastReached n insns := by
  induction n generalizing a insns with
  | zero =>
    have hreached : LastReached 0 insns := .inl (List.length_pos_of_ne_nil hne)
    simp [disassembleLoop, remaining, RemainUndisturbed, hreached]
  | succ n ih =>
    obtain ⟨insn, insns, rfl⟩ := List.exists_cons_of_ne_nil hne
    obtain ⟨hdecode, hpos, hrest⟩ := hdecodes
    rw [codeLength_cons] at hend
    have hnext (hlt : a.toNat + insn.size < 2 ^ 64) :
        (a + BitVec.ofNat 64 insn.size).toNat = a.toNat + insn.size := by
      rw [BitVec.toNat_add, BitVec.toNat_ofNat]
      omega
    rw [remaining, RemainUndisturbed]
    cases insns with
    | nil =>
      rw [codeLength_nil, Nat.add_zero] at hend
      by_cases hsize : 2 ≤ insn.size
      · have hin : ¬BitVec.ofNat 64 total - 2#64 < a := by
          rw [endAddr_lt_iff htotal htwo hend]
          omega
        have hout : BitVec.ofNat 64 total - 2#64 < a + BitVec.ofNat 64 insn.size := by
          rw [endAddr_lt_iff (m := 0) htotal htwo (by rw [hnext (by omega), hend, Nat.add_zero])]
          omega
        rw [disassembleLoop_eq_cons_iff hown hover hdecode hin, disassembleLoop_end logical hout]
        simp [LastReached, hsize]
      · have hout : BitVec.ofNat 64 total - 2#64 < a := by
          rw [endAddr_lt_iff htotal htwo hend]
          omega
        simp [disassembleLoop_end logical hout, remaining, insnLine, LastReached, hsize]
    | cons next insns =>
      have hnextPos := hrest.2.1
      rw [codeLength_cons] at hend
      have hin : ¬BitVec.ofNat 64 total - 2#64 < a := by
        rw [endAddr_lt_iff htotal htwo hend]
        omega
      rw [disassembleLoop_eq_cons_iff hown hover hdecode hin,
        ih hrest (List.cons_ne_nil _ _) (by rw [hnext (by omega), codeLength_cons]; omega)]
      simp [LastReached, and_assoc]

/-- The limit that `readelf` computes, from the number of bytes before it. -/
theorem TextSection.endAddr_eq (text : TextSection csDisasm logical) :
    text.endAddr = BitVec.ofNat 64 (text.shAddr.toNat + codeLength text.insns) - 2#64 := by
  rw [endAddr, shSize, BitVec.ofNat_add, BitVec.ofNat_toNat, BitVec.setWidth_eq]
  rfl

/-- The address behind some of the instructions. -/
theorem TextSection.boundary_toNat (text : TextSection csDisasm logical)
    (hsplit : text.insns = before ++ insns) :
    (text.boundary before).toNat = text.shAddr.toNat + codeLength before := by
  have hfits := text.fits
  rw [hsplit, codeLength_append] at hfits
  rw [boundary, BitVec.toNat_add, BitVec.toNat_ofNat]
  omega

/-- A single byte is a single instruction. -/
theorem DecodesTo.single (hdecodes : DecodesTo csDisasm logical a insns) (hne : insns ≠ [])
    (hbyte : codeLength insns ≤ 1) : ∃ insn, insns = [insn] ∧ insn.size = 1 := by
  obtain ⟨insn, insns, rfl⟩ := List.exists_cons_of_ne_nil hne
  obtain ⟨-, hpos, hrest⟩ := hdecodes
  rw [codeLength_cons] at hbyte
  cases insns with
  | nil => exact ⟨insn, rfl, by omega⟩
  | cons next insns =>
    have hnextPos := hrest.2.1
    rw [codeLength_cons] at hbyte
    omega

/-- `disassemble` lists the section from one of its instructions on: up to five instructions
without a gap, and the message when fewer than five remain. -/
def ListsSection (csDisasm : Disassembler) (s : Session γ δ)
    (text : TextSection csDisasm logical) (before insns : List Insn) : Prop :=
  disassemble csDisasm text.endAddr s (text.boundary before) =
    remaining logical numInstructions (text.boundary before) insns

/-- For every section that decodes, and every instruction of it: the listing from there on is the
one of the section exactly when the bytes that it shows are undisturbed, and six instructions
remain or the last one of the section has at least two bytes. -/
theorem listsSection_iff (hown : DecodesOwnBytes csDisasm) (s : Session γ δ)
    (hover : Overlaid s logical) (text : TextSection csDisasm logical)
    (before insns : List Insn) (hsplit : text.insns = before ++ insns) (hne : insns ≠ []) :
    ListsSection csDisasm s text before insns ↔
      RemainUndisturbed s logical numInstructions (text.boundary before) insns ∧
        LastReached numInstructions insns := by
  have hdecodes : DecodesTo csDisasm logical (text.boundary before) insns :=
    DecodesTo.drop (hsplit ▸ text.decodes)
  have hstart := text.boundary_toNat hsplit
  have hfits := text.fits
  rw [ListsSection, disassemble, text.endAddr_eq]
  obtain ⟨total, htotal⟩ : ∃ total, total = text.shAddr.toNat + codeLength text.insns := ⟨_, rfl⟩
  rw [← htotal]
  rw [hsplit, codeLength_append] at hfits htotal
  by_cases htwo : 2 ≤ total
  · exact disassembleLoop_eq_remaining_iff hown hover (by omega) htwo hdecodes hne (by omega)
  · -- one byte at address 0: the limit is the last address, and the message never comes
    obtain ⟨insn, rfl, hsize⟩ := hdecodes.single hne (by omega)
    have hone : total = 1 := by
      rw [codeLength_cons] at htotal
      omega
    have hin (b : Addr) : ¬BitVec.ofNat 64 total - 2#64 < b := by
      rw [hone, BitVec.not_lt]
      exact BitVec.le_def.mpr (Nat.le_of_lt_succ b.isLt)
    rw [numInstructions, remaining, disassembleLoop_eq_cons_iff hown hover hdecodes.1 (hin _)]
    simp [disassembleLoop_ne_end logical (hin _), LastReached, hsize]

/-- A section of two instructions in a memory of zeros. -/
def zeroText : TextSection sampleDisasm fun _ => 0 where
  shAddr := 0x10
  insns := [⟨2, "add", "byte ptr [rax], al"⟩, ⟨2, "add", "byte ptr [rax], al"⟩]
  decodes := by
    refine ⟨?_, ?_, ?_, ?_, trivial⟩ <;> decide
  fits := by decide

/-- Listing a section whose last instruction has two bytes. -/
theorem listsSection_zeroText :
    ListsSection sampleDisasm (sampleSession 0x10) zeroText [] zeroText.insns ↔
      RemainUndisturbed (sampleSession 0x10) (fun _ => 0) numInstructions (zeroText.boundary [])
        zeroText.insns ∧ LastReached numInstructions zeroText.insns :=
  listsSection_iff sampleDisasm_ownBytes _
    (armed_none_iff.mp (armed_load (fun _ => 0) ⟨0x10, 0, 0, ()⟩ ())).1 zeroText [] zeroText.insns
    rfl (List.cons_ne_nil _ _)

/-- A memory with the one-byte instruction `nop` at one address. -/
def nopMemory : ByteMemory 64 := fun a => if a = 0x12 then 0x90 else 0

/-- A section that ends with the `nop`. -/
def nopText : TextSection sampleDisasm nopMemory where
  shAddr := 0x10
  insns := [⟨2, "add", "byte ptr [rax], al"⟩, ⟨1, "nop", ""⟩]
  decodes := by
    refine ⟨?_, ?_, ?_, ?_, trivial⟩ <;> decide
  fits := by decide

/-- A last instruction of one byte is left out: the message stands in its place. -/
theorem not_listsSection_nop : ¬∀ csDisasm : Disassembler, DecodesOwnBytes csDisasm →
    ∀ (logical : ByteMemory 64) (s : Session Unit Unit), Overlaid s logical →
      ∀ (text : TextSection csDisasm logical) (before insns : List Insn),
        text.insns = before ++ insns → insns ≠ [] → ListsSection csDisasm s text before insns := by
  intro hall
  let s : Session Unit Unit := .load nopMemory ⟨0x10, 0, 0, ()⟩ ()
  have hover : Overlaid s nopMemory := (armed_none_iff.mp (armed_load _ _ _)).1
  have hlists := hall sampleDisasm sampleDisasm_ownBytes nopMemory s hover nopText [] nopText.insns
    rfl (List.cons_ne_nil _ _)
  have hshown : (disassemble sampleDisasm nopText.endAddr s (nopText.boundary []))[1]? =
      some .outOfRange := by decide
  rw [ListsSection.eq_def] at hlists
  rw [hlists] at hshown
  exact absurd hshown (by decide)

end UnixProgramming.Sdb
