import UnixProgramming.Lib.Numerals
import UnixProgramming.Lib.ProcessorRules

/-!
# Binary digits

`05.s` writes the binary digits of `ax` as characters, the last one first. Each pass of its loop
writes the lowest bit that is left and shifts it out.
-/

namespace UnixProgramming.Assembly

open Labels Processor

/-- The labels of `05.s`. -/
inductive DigitLabel
  | L1 | zeroBit | nextBit
  deriving DecidableEq

/-- `05.s`. -/
def digitProgram : List (AsmLine DigitLabel) :=
  [.op (.lea (.dword .rdi) ⟨none, 0x60000F⟩),
   .op (.mov (.dword .rcx) (.imm 16)),
   .label .L1,
   .op (.test (.word .rax) (.imm 1)),
   .jump (.jcc .e) .zeroBit,
   .op (.store ⟨some (.dword .rdi), 0⟩ (.imm (49 : BitVec 8) : Value 1)),
   .jump .jmp .nextBit,
   .label .zeroBit,
   .op (.store ⟨some (.dword .rdi), 0⟩ (.imm (48 : BitVec 8) : Value 1)),
   .label .nextBit,
   .op (.shr (.word .rax)),
   .op (.dec (.dword .rdi)),
   .jump .loop .L1]

/-- The character of bit `i`. -/
def digit (ax : BitVec 16) (i : ℕ) : BitVec 8 := if ax.getLsbD i then 49 else 48

variable {c c' : Cpu} {ax : BitVec 16} {k : ℕ}

/-- The lowest bit that is left. -/
theorem and_one_eq_zero_iff (ax : BitVec 16) (k : ℕ) :
    (ax >>> k) &&& 1 = 0 ↔ ax.getLsbD k = false := by
  have hand : (ax >>> k) &&& 1 = BitVec.setWidth 16 (BitVec.ofBool ((ax >>> k).getLsbD 0)) :=
    BitVec.and_one_eq_setWidth_ofBool_getLsbD
  rw [hand, BitVec.getLsbD_ushiftRight, Nat.add_zero]
  cases ax.getLsbD k <;> decide

/-- The digit of a pass is written. -/
theorem executes_digit (hax : c.get (.word .rax) = ax >>> k) : ∃ c',
    Executes (asmStep digitProgram) ⟨c, 2⟩ ⟨c', 7⟩ ∧ c'.reg = c.reg ∧
      c'.mem = c.mem.poke (n := 1) (c.address ⟨some (.dword .rdi), 0⟩) (digit ax k) := by
  let c₁ := runOps c [.test (.word .rax) (.imm 1)]
  have htest : Executes (asmStep digitProgram) ⟨c, 2⟩ ⟨c₁, 3⟩ := executes_ops _ ⟨_, rfl⟩
  have hflags : c₁.flags = some (resultFlags (ax >>> k &&& 1) false) := by rw [← hax]; rfl
  have hzero : Cond.e.holds (resultFlags (ax >>> k &&& 1) false) = !ax.getLsbD k := by
    rw [Cond.holds, resultFlags, Bool.eq_iff_iff, decide_eq_true_eq, and_one_eq_zero_iff,
      Bool.not_eq_true']
  cases hbit : ax.getLsbD k with
  | true =>
    have hjz : Next (asmStep digitProgram) ⟨c₁, 3⟩ ⟨c₁, 4⟩ :=
      next_jcc_skipped rfl hflags (by rw [hzero, hbit]; rfl)
    let c₂ := runOps c₁ [.store ⟨some (.dword .rdi), 0⟩ (.imm (49 : BitVec 8) : Value 1)]
    have hstore : Executes (asmStep digitProgram) ⟨c₁, 4⟩ ⟨c₂, 5⟩ := executes_ops _ ⟨_, rfl⟩
    have hjmp : Next (asmStep digitProgram) ⟨c₂, 5⟩ ⟨c₂, 7⟩ := next_jmp (l := .nextBit) rfl rfl
    refine ⟨_, htest.trans (.head hjz (hstore.trans (.single hjmp))), rfl, ?_⟩
    rw [digit, if_pos hbit]
    rfl
  | false =>
    have hjz : Next (asmStep digitProgram) ⟨c₁, 3⟩ ⟨c₁, 6⟩ :=
      next_jcc_taken rfl rfl hflags (by rw [hzero, hbit]; rfl)
    let c₂ := runOps c₁ [.store ⟨some (.dword .rdi), 0⟩ (.imm (48 : BitVec 8) : Value 1)]
    have hstore : Executes (asmStep digitProgram) ⟨c₁, 6⟩ ⟨c₂, 7⟩ := executes_ops _ ⟨_, rfl⟩
    refine ⟨_, htest.trans (.head hjz hstore), rfl, ?_⟩
    rw [digit, if_neg (by simp [hbit])]
    rfl

/-- The next bit becomes the lowest one. -/
theorem executes_shift (c : Cpu) : ∃ c', Executes (asmStep digitProgram) ⟨c, 7⟩ ⟨c', 9⟩ ∧
    c'.get (.word .rax) = c.get (.word .rax) >>> 1 ∧
      c'.get (.dword .rdi) = c.get (.dword .rdi) - 1 ∧ c'.reg .rcx = c.reg .rcx ∧
      c'.mem = c.mem := by
  refine ⟨_, executes_ops [.shr (.word .rax), .dec (.dword .rdi)] ⟨_, rfl⟩, ?_, ?_, ?_, ?_⟩
  · simp (disch := decide) [runOps, Op.effect, Cpu.result]
  · simp (disch := decide) [runOps, Op.effect, Cpu.result]
  · simp (disch := decide) [runOps, Op.effect, Cpu.result]
  · simp [runOps, Op.effect, Cpu.result]

/-- The address of digit `i`. -/
def digitAddress (i : ℕ) : BitVec 64 := 0x60000F - .ofNat 64 i

/-- After `k` passes, `k` digits are written and the other bits are left. -/
structure Written (ax : BitVec 16) (mem : ByteMemory 64) (k : ℕ) (c : Cpu) : Prop where
  left : c.get (.word .rax) = ax >>> k
  place : c.get (.dword .rdi) = 0x60000F - .ofNat 32 k
  digits : ∀ i < k, c.mem (digitAddress i) = digit ax i
  frame : ∀ a, 16 ≤ (a - 0x600000).toNat → c.mem a = mem a

/-- The digits are stored downwards from `0x60000F`, -/
theorem toNat_digitAddress (hk : k < 16) : (digitAddress k).toNat = 0x60000F - k := by
  have hbase : (0x60000F : BitVec 64).toNat = 0x60000F := rfl
  rw [digitAddress, BitVec.toNat_sub, BitVec.toNat_ofNat, hbase]
  omega

/-- each at an address of its own, -/
theorem digitAddress_ne {i : ℕ} (hne : i ≠ k) (hi : i < 16) (hk : k < 16) :
    digitAddress i ≠ digitAddress k := by
  intro heq
  have hnat := congrArg BitVec.toNat heq
  rw [toNat_digitAddress hi, toNat_digitAddress hk] at hnat
  omega

/-- so that the lowest bit stands at the end of the text. -/
theorem digitAddress_sub (hk : k < 16) : (digitAddress k - 0x600000).toNat = 15 - k := by
  have hbase : (0x600000 : BitVec 64).toNat = 0x600000 := rfl
  rw [BitVec.toNat_sub, toNat_digitAddress hk, hbase]
  omega

/-- A digit goes to its address. -/
theorem address_eq (hk : k < 16) (hplace : c.get (.dword .rdi) = 0x60000F - .ofNat 32 k) :
    c.address ⟨some (.dword .rdi), 0⟩ = digitAddress k := by
  have hbase : (0x60000F : BitVec 32).toNat = 0x60000F := rfl
  have heffective : c.effective ⟨some (.dword .rdi), 0⟩ = 0x60000F - .ofNat 32 k :=
    (BitVec.add_zero _).trans hplace
  apply BitVec.eq_of_toNat_eq
  rw [toNat_digitAddress hk, Cpu.address, heffective, BitVec.toNat_setWidth, BitVec.toNat_sub,
    BitVec.toNat_ofNat, hbase]
  omega

/-- One pass of the loop. -/
theorem executes_pass {mem : ByteMemory 64} (hk : k < 16) (hinv : Written ax mem k c) :
    ∃ c₁, Executes (asmStep digitProgram) ⟨c, 2⟩ ⟨c₁, 9⟩ ∧ c₁.reg .rcx = c.reg .rcx ∧
      Written ax mem (k + 1) c₁.countDown := by
  obtain ⟨c₀, hdigit, hreg, hmem⟩ := executes_digit hinv.left
  obtain ⟨c₁, hshift, hax, hplace, hcount, hmem₁⟩ := executes_shift c₀
  rw [address_eq hk hinv.place] at hmem
  have hbyte : ∀ a, c₁.mem a = if a = digitAddress k then digit ax k else c.mem a := by
    intro a
    rw [hmem₁, hmem]
    exact ByteMemory.poke_byte _ _ _ _
  refine ⟨c₁, hdigit.trans hshift, hcount.trans (congrFun hreg _), ?_, ?_, ?_, ?_⟩
  · rw [Cpu.get_countDown_of_ne (by decide), hax, Cpu.get_congr (congrFun hreg _), hinv.left,
      BitVec.shiftRight_add]
  · rw [Cpu.get_countDown_of_ne (by decide), hplace, Cpu.get_congr (congrFun hreg _), hinv.place,
      BitVec.ofNat_add, ← sub_sub]
    rfl
  · intro i hi
    rw [Cpu.mem_countDown, hbyte]
    by_cases heq : i = k
    · rw [heq, if_pos rfl]
    · rw [if_neg (digitAddress_ne heq (by omega) hk), hinv.digits i (by omega)]
  · intro a ha
    have hne : a ≠ digitAddress k := by
      rintro rfl
      exact absurd (digitAddress_sub hk) (by omega)
    rw [Cpu.mem_countDown, hbyte, if_neg hne, hinv.frame a ha]

/-- The bytes from `0x600000` on as characters. -/
def digitText (c : Cpu) : List Char :=
  (List.range 16).map fun i => Char.ofNat (c.mem (0x600000 + .ofNat 64 i)).toNat

/-- The same addresses, counted upwards from the start of the text. -/
theorem digitAddress_eq {i : ℕ} (hi : i < 16) :
    0x600000 + .ofNat 64 i = digitAddress (15 - i) := by
  have hbase : (0x600000 : BitVec 64).toNat = 0x600000 := rfl
  apply BitVec.eq_of_toNat_eq
  rw [toNat_digitAddress (by omega), BitVec.toNat_add, BitVec.toNat_ofNat, hbase]
  omega

/-- The digits after the last pass. -/
theorem Written.digitText_eq {mem : ByteMemory 64} (hinv : Written ax mem 16 c) :
    digitText c = (List.range 16).map fun i => bitChar (ax.toNat.testBit (16 - 1 - i)) := by
  refine List.map_congr_left fun i hi => ?_
  rw [digitAddress_eq (List.mem_range.mp hi), hinv.digits _ (by omega), digit, BitVec.getLsbD]
  cases ax.toNat.testBit (15 - i) <;> rfl

/-- From any state, `05.s` halts with the sixteen binary digits of `ax` from `0x600000` on, and
the rest of the memory stays. -/
theorem digitProgram_halts (c : Cpu) : ∃ s', HaltsIn (asmStep digitProgram) ⟨c, 0⟩ s' ∧
    (∀ ch ∈ digitText s'.cpu, ch = '0' ∨ ch = '1') ∧
    numeralValue 2 (digitText s'.cpu) = (c.get (.word .rax)).toNat ∧
    ∀ a, 16 ≤ (a - 0x600000).toNat → s'.cpu.mem a = c.mem a := by
  let c₁ := runOps c [.lea (.dword .rdi) ⟨none, 0x60000F⟩, .mov (.dword .rcx) (.imm 16)]
  have hstart : Executes (asmStep digitProgram) ⟨c, 0⟩ ⟨c₁, 2⟩ := executes_ops _ ⟨_, rfl⟩
  have hcount : c₁.reg .rcx = 16 := by
    simp [c₁, runOps, Op.effect, Cpu.value, Cpu.set]
  have hinit : Written (c.get (.word .rax)) c.mem 0 c₁ := by
    refine ⟨?_, ?_, ?_, ?_⟩
    · simp (disch := decide) [c₁, runOps, Op.effect]
    · simp (disch := decide) [c₁, runOps, Op.effect, Cpu.effective]
    · exact fun i hi => absurd hi i.not_lt_zero
    · intro a _
      simp [c₁, runOps, Op.effect]
  obtain ⟨c', hloop, hinv⟩ := executes_counted (l := .L1) rfl rfl
    (fun _ hi _ hinv => executes_pass hi hinv) (by decide) (by decide) hcount hinit
  refine ⟨_, ⟨hstart.trans hloop, rfl⟩, ?_, ?_, hinv.frame⟩
  · intro ch hch
    rw [hinv.digitText_eq] at hch
    obtain ⟨i, -, rfl⟩ := List.mem_map.mp hch
    cases (c.get (.word .rax)).toNat.testBit (16 - 1 - i)
    · exact .inl rfl
    · exact .inr rfl
  · rw [hinv.digitText_eq, numeralValue_bits]
    exact Nat.mod_eq_of_lt (c.get (.word .rax)).isLt

end UnixProgramming.Assembly
