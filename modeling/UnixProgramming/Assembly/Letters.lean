import UnixProgramming.Lib.ProcessorRules

/-!
# Upper and lower case

`09.s` copies fifteen characters in lower case. `22.s` is meant to swap the case of `ch`, but adds
to another register when the letter is in upper case. Both compare bytes as signed numbers.
-/

namespace UnixProgramming.Assembly

open Labels Processor

/-- The labels of `09.s`. -/
inductive LowerLabel
  | L1 | noConvert
  deriving DecidableEq

/-- `09.s`. -/
def lowerProgram : List (AsmLine LowerLabel) :=
  [.op (.lea (.dword .rsi) ⟨none, 0x600000⟩),
   .op (.lea (.dword .rdi) ⟨none, 0x600010⟩),
   .op (.mov (.dword .rcx) (.imm 15)),
   .label .L1,
   .op (.load (.low .rax) ⟨some (.dword .rsi), 0⟩),
   .op (.cmp (.low .rax) (.imm 65)),
   .jump (.jcc .l) .noConvert,
   .op (.cmp (.low .rax) (.imm 90)),
   .jump (.jcc .g) .noConvert,
   .op (.add (.low .rax) (.imm 32)),
   .label .noConvert,
   .op (.store ⟨some (.dword .rdi), 0⟩ (.reg (.low .rax))),
   .op (.inc (.dword .rsi)),
   .op (.inc (.dword .rdi)),
   .jump .loop .L1]

/-- The labels of `22.s`. -/
inductive SwapLabel
  | lowercase | notConvert
  deriving DecidableEq

/-- `22.s`, where `'A'` is `65`, `'Z'` is `90`, `'a'` is `97` and `'z'` is `122`. -/
def swapProgram : List (AsmLine SwapLabel) :=
  [.op (.mov (.low .rcx) (.reg (.high .rcx))),
   .op (.cmp (.low .rcx) (.imm 65)),
   .jump (.jcc .l) .notConvert,
   .op (.cmp (.low .rcx) (.imm 90)),
   .jump (.jcc .g) .lowercase,
   -- the slip: the letter is in `cl`
   .op (.add (.low .rax) (.imm 32)),
   .label .lowercase,
   .op (.cmp (.low .rcx) (.imm 97)),
   .jump (.jcc .l) .notConvert,
   .op (.cmp (.low .rcx) (.imm 122)),
   .jump (.jcc .g) .notConvert,
   .op (.sub (.low .rcx) (.imm 32)),
   .label .notConvert,
   .op (.mov (.high .rcx) (.reg (.low .rcx)))]

/-- A byte as a character. -/
def charOf (b : BitVec 8) : Char := Char.ofNat b.toNat

/-- The bytes that the programs take for letters in upper case. -/
def IsUpper (b : BitVec 8) : Prop := 65 ≤ b.toInt ∧ b.toInt ≤ 90

instance (b : BitVec 8) : Decidable (IsUpper b) := inferInstanceAs (Decidable (_ ∧ _))

/-- The bytes that they take for letters in lower case. -/
def IsLower (b : BitVec 8) : Prop := 97 ≤ b.toInt ∧ b.toInt ≤ 122

instance (b : BitVec 8) : Decidable (IsLower b) := inferInstanceAs (Decidable (_ ∧ _))

/-- A fact about all bytes, from the numbers below 256. These are few enough to be checked one
by one. -/
theorem forall_byte {p : BitVec 8 → Prop} (h : ∀ n < 256, p (BitVec.ofNat 8 n)) (b : BitVec 8) :
    p b := by
  have hb := h b.toNat b.isLt
  rwa [BitVec.ofNat_toNat, BitVec.setWidth_eq] at hb

/-- Adding 32 to an upper case letter is what `Char.toLower` does. The other characters stay. -/
theorem charOf_toLower (b : BitVec 8) :
    (charOf b).toLower = charOf (if IsUpper b then b + 32 else b) := by
  revert b
  refine forall_byte ?_
  decide +kernel

/-- Subtracting 32 from a lower case letter is what `Char.toUpper` does. -/
theorem charOf_toUpper (b : BitVec 8) :
    (charOf b).toUpper = charOf (if IsLower b then b - 32 else b) := by
  revert b
  refine forall_byte ?_
  decide +kernel

variable {c : Cpu} {k : ℕ}

/-- Both programs look whether a character is in a range by two comparisons and two jumps. -/
theorem executes_range {L : Type} [DecidableEq L] (prog : List (AsmLine L)) (pc : ℕ) (d : Reg 1)
    (lo hi : BitVec 8) {l l' : L} {t t' : ℕ}
    (hlo : (code prog)[pc]? = some (.op (.cmp d (.imm lo))))
    (hjl : (code prog)[pc + 1]? = some (.jump (.jcc .l) l))
    (hhi : (code prog)[pc + 2]? = some (.op (.cmp d (.imm hi))))
    (hjg : (code prog)[pc + 3]? = some (.jump (.jcc .g) l'))
    (ht : target l prog = some t) (ht' : target l' prog = some t') (c : Cpu) :
    ∃ flags, ((c.get d).toInt < lo.toInt ∧
        Executes (asmStep prog) ⟨c, pc⟩ ⟨c.setFlags flags, t⟩) ∨
      (hi.toInt < (c.get d).toInt ∧
        Executes (asmStep prog) ⟨c, pc⟩ ⟨c.setFlags flags, t'⟩) ∨
      (lo.toInt ≤ (c.get d).toInt ∧ (c.get d).toInt ≤ hi.toInt ∧
        Executes (asmStep prog) ⟨c, pc⟩ ⟨c.setFlags flags, pc + 4⟩) := by
  by_cases hlow : (c.get d).toInt < lo.toInt
  · have htaken := executes_cmp_taken (c := c) hlo hjl ht
      ((holds_l_subFlags (by decide) _ _).trans (decide_eq_true hlow))
    exact ⟨_, .inl ⟨hlow, htaken⟩⟩
  have hskipped := executes_cmp_skipped (c := c) hlo hjl
    ((holds_l_subFlags (by decide) _ _).trans (decide_eq_false hlow))
  have hsame : (c.compared d (.imm lo)).get d = c.get d := Cpu.get_setFlags _ _ _
  by_cases hhigh : hi.toInt < (c.get d).toInt
  · have htaken := executes_cmp_taken (c := c.compared d (.imm lo)) hhi hjg ht'
      ((holds_g_subFlags (by decide) _ _).trans (decide_eq_true (by rw [hsame]; exact hhigh)))
    exact ⟨_, .inr (.inl ⟨hhigh, hskipped.trans htaken⟩)⟩
  · have hskipped' := executes_cmp_skipped (c := c.compared d (.imm lo)) hhi hjg
      ((holds_g_subFlags (by decide) _ _).trans (decide_eq_false (by rw [hsame]; exact hhigh)))
    exact ⟨_, .inr (.inr ⟨by omega, by omega, hskipped.trans hskipped'⟩)⟩

/-- The character in `al` is converted. -/
theorem executes_convert (c : Cpu) : ∃ c', Executes (asmStep lowerProgram) ⟨c, 4⟩ ⟨c', 9⟩ ∧
    charOf (c'.get (.low .rax)) = (charOf (c.get (.low .rax))).toLower ∧
      (∀ r ≠ .rax, c'.reg r = c.reg r) ∧ c'.mem = c.mem := by
  rw [charOf_toLower]
  obtain ⟨flags, ⟨hlow, hexec⟩ | ⟨hhigh, hexec⟩ | ⟨hlow, hhigh, hexec⟩⟩ :=
    executes_range lowerProgram 4 (.low .rax) 65 90 rfl rfl rfl rfl rfl rfl c
  · refine ⟨_, hexec, ?_, fun r _ => rfl, rfl⟩
    rw [if_neg fun hupper => hupper.1.not_gt hlow, Cpu.get_setFlags]
  · refine ⟨_, hexec, ?_, fun r _ => rfl, rfl⟩
    rw [if_neg fun hupper => hupper.2.not_gt hhigh, Cpu.get_setFlags]
  · have hadd : Executes (asmStep lowerProgram) ⟨c.setFlags flags, 8⟩ ⟨_, 9⟩ :=
      executes_ops [.add (.low .rax) (.imm 32)] ⟨_, rfl⟩
    refine ⟨_, hexec.trans hadd, ?_, fun r hr => Cpu.reg_set_of_ne (d := .low .rax) hr, rfl⟩
    rw [if_pos ⟨hlow, hhigh⟩]
    simp [runOps, Op.effect, Cpu.result, Cpu.value]

/-- The address of character `i` of the text at `base`. -/
def charAddress (base : BitVec 32) (i : ℕ) : BitVec 64 := (base + .ofNat 32 i).setWidth 64

/-- After `k` passes, `k` characters are copied. -/
structure Lowered (mem : ByteMemory 64) (k : ℕ) (c : Cpu) : Prop where
  source : c.get (.dword .rsi) = 0x600000 + .ofNat 32 k
  dest : c.get (.dword .rdi) = 0x600010 + .ofNat 32 k
  copied : ∀ i < k, charOf (c.mem (charAddress 0x600010 i)) =
    (charOf (mem (charAddress 0x600000 i))).toLower
  frame : ∀ a, 15 ≤ (a - 0x600010).toNat → c.mem a = mem a

/-- The addresses of the characters do not wrap around when the text ends below `2 ^ 32`. -/
theorem toNat_charAddress {base : BitVec 32} {i : ℕ} (hi : base.toNat + i < 2 ^ 32) :
    (charAddress base i).toNat = base.toNat + i := by
  rw [charAddress, BitVec.toNat_setWidth, BitVec.toNat_add, BitVec.toNat_ofNat]
  omega

/-- So the address of a character is the one of the text, extended by zeros, plus its index. -/
theorem charAddress_eq {base : BitVec 32} {i : ℕ} (hbase : base.toNat + 15 < 2 ^ 32)
    (hi : i < 15) : charAddress base i = base.setWidth 64 + .ofNat 64 i := by
  apply BitVec.eq_of_toNat_eq
  rw [toNat_charAddress (by omega), BitVec.toNat_add, BitVec.toNat_setWidth, BitVec.toNat_ofNat]
  omega

/-- The texts do not overlap. -/
theorem source_apart (hk : k < 15) : 15 ≤ (charAddress 0x600000 k - 0x600010).toNat := by
  have hbase : (0x600010 : BitVec 64).toNat = 0x600010 := rfl
  have hsource : (0x600000 : BitVec 32).toNat = 0x600000 := rfl
  rw [BitVec.toNat_sub, toNat_charAddress (by omega), hbase, hsource]
  omega

/-- The index of a character is its distance from the start of the result. -/
theorem dest_sub (hk : k < 15) : (charAddress 0x600010 k - 0x600010).toNat = k := by
  have hbase : (0x600010 : BitVec 64).toNat = 0x600010 := rfl
  have hdest : (0x600010 : BitVec 32).toNat = 0x600010 := rfl
  rw [BitVec.toNat_sub, toNat_charAddress (by omega), hbase, hdest]
  omega

/-- A register that has been counted up points to the next character. -/
theorem address_of_base {r : Gpr} {base : BitVec 32}
    (hbase : c.get (.dword r) = base + .ofNat 32 k) :
    c.address ⟨some (.dword r), 0⟩ = charAddress base k := by
  have heffective : c.effective ⟨some (.dword r), 0⟩ = base + .ofNat 32 k :=
    (BitVec.add_zero _).trans hbase
  rw [Cpu.address, heffective, charAddress]

/-- The character in `al` is written, and the pointers move on. -/
theorem executes_write (c : Cpu) : ∃ c', Executes (asmStep lowerProgram) ⟨c, 9⟩ ⟨c', 12⟩ ∧
    c'.get (.dword .rsi) = c.get (.dword .rsi) + 1 ∧
      c'.get (.dword .rdi) = c.get (.dword .rdi) + 1 ∧ c'.reg .rcx = c.reg .rcx ∧
      c'.mem = c.mem.poke (c.address ⟨some (.dword .rdi), 0⟩) (c.get (.low .rax)) := by
  refine ⟨_, executes_ops [.store ⟨some (.dword .rdi), 0⟩ (.reg (.low .rax)), .inc (.dword .rsi),
    .inc (.dword .rdi)] ⟨_, rfl⟩, ?_, ?_, ?_, ?_⟩
  · simp (disch := decide) [runOps, Op.effect, Cpu.result]
  · simp (disch := decide) [runOps, Op.effect, Cpu.result]
  · simp (disch := decide) [runOps, Op.effect, Cpu.result]
  · simp [runOps, Op.effect, Cpu.result, Cpu.value]

/-- One pass of the loop. -/
theorem Lowered.executes_pass {mem : ByteMemory 64} (hk : k < 15) (hinv : Lowered mem k c) :
    ∃ c₁, Executes (asmStep lowerProgram) ⟨c, 3⟩ ⟨c₁, 12⟩ ∧ c₁.reg .rcx = c.reg .rcx ∧
      Lowered mem (k + 1) c₁.countDown := by
  let c₀ := runOps c [.load (.low .rax) ⟨some (.dword .rsi), 0⟩]
  have hload : Executes (asmStep lowerProgram) ⟨c, 3⟩ ⟨c₀, 4⟩ := executes_ops _ ⟨_, rfl⟩
  have hkept : ∀ r ≠ .rax, c₀.reg r = c.reg r := fun r hr =>
    Cpu.reg_set_of_ne (d := .low .rax) hr
  have hal : c₀.get (.low .rax) = mem (charAddress 0x600000 k) := by
    have hbyte : c₀.get (.low .rax) = c.mem.peek (c.address ⟨some (.dword .rsi), 0⟩) 1 :=
      Cpu.get_set c (.low .rax) _
    rw [hbyte, ByteMemory.peek_byte, address_of_base hinv.source, hinv.frame _ (source_apart hk)]
  obtain ⟨c₁, hconvert, hchar, hkept₁, hmem₁⟩ := executes_convert c₀
  obtain ⟨c₂, hwrite, hsource, hdest, hcount, hmem₂⟩ := executes_write c₁
  have hreg : ∀ r ≠ .rax, c₁.reg r = c.reg r := fun r hr => (hkept₁ r hr).trans (hkept r hr)
  have hsource₁ : c₁.get (.dword .rsi) = _ := (Cpu.get_congr (hreg _ (by decide))).trans hinv.source
  have hdest₁ : c₁.get (.dword .rdi) = _ := (Cpu.get_congr (hreg _ (by decide))).trans hinv.dest
  have hbyte : ∀ a, c₂.mem a =
      if a = charAddress 0x600010 k then c₁.get (.low .rax) else c.mem a := by
    intro a
    rw [hmem₂, hmem₁, address_of_base hdest₁, ByteMemory.poke_byte]
    rfl
  have hcount' : c₂.reg .rcx = c.reg .rcx := hcount.trans (hreg _ (by decide))
  refine ⟨c₂, hload.trans (hconvert.trans hwrite), hcount', ?_, ?_, ?_, ?_⟩
  · rw [Cpu.get_countDown_of_ne (by decide), hsource, hsource₁, BitVec.ofNat_add, ← add_assoc]
    rfl
  · rw [Cpu.get_countDown_of_ne (by decide), hdest, hdest₁, BitVec.ofNat_add, ← add_assoc]
    rfl
  · intro i hi
    rw [Cpu.mem_countDown, hbyte]
    by_cases heq : i = k
    · rw [heq, if_pos rfl, hchar, hal]
    · have hne : charAddress 0x600010 i ≠ charAddress 0x600010 k := by
        intro haddr
        have hsub := dest_sub (k := i) (by omega)
        rw [haddr, dest_sub hk] at hsub
        exact heq hsub.symm
      rw [if_neg hne, hinv.copied i (by omega)]
  · intro a ha
    have hne : a ≠ charAddress 0x600010 k := by
      rintro rfl
      exact absurd (dest_sub hk) (by omega)
    rw [Cpu.mem_countDown, hbyte, if_neg hne, hinv.frame a ha]

/-- From any state, `09.s` halts with a copy of the fifteen characters at `0x600000` in lower case
at `0x600010`, and the rest of the memory stays. -/
theorem lowerProgram_halts (c : Cpu) : ∃ s', HaltsIn (asmStep lowerProgram) ⟨c, 0⟩ s' ∧
    (∀ i < 15, charOf (s'.cpu.mem (0x600010 + .ofNat 64 i)) =
      (charOf (c.mem (0x600000 + .ofNat 64 i))).toLower) ∧
    ∀ a, 15 ≤ (a - 0x600010).toNat → s'.cpu.mem a = c.mem a := by
  let c₁ := runOps c [.lea (.dword .rsi) ⟨none, 0x600000⟩, .lea (.dword .rdi) ⟨none, 0x600010⟩,
    .mov (.dword .rcx) (.imm 15)]
  have hstart : Executes (asmStep lowerProgram) ⟨c, 0⟩ ⟨c₁, 3⟩ := executes_ops _ ⟨_, rfl⟩
  have hcount : c₁.reg .rcx = 15 := by simp [c₁, runOps, Op.effect, Cpu.value, Cpu.set]
  have hinit : Lowered c.mem 0 c₁ := by
    refine ⟨?_, ?_, ?_, ?_⟩
    · simp (disch := decide) [c₁, runOps, Op.effect, Cpu.effective]
    · simp (disch := decide) [c₁, runOps, Op.effect, Cpu.effective]
    · exact fun i hi => absurd hi i.not_lt_zero
    · intro a _
      simp [c₁, runOps, Op.effect]
  obtain ⟨c', hloop, hinv⟩ := executes_counted (l := .L1) rfl rfl
    (fun _ hi _ hinv => hinv.executes_pass hi) (by decide) (by decide) hcount hinit
  refine ⟨_, ⟨hstart.trans hloop, rfl⟩, fun i hi => ?_, hinv.frame⟩
  have hcopied := hinv.copied i hi
  rwa [charAddress_eq (by decide) hi, charAddress_eq (by decide) hi] at hcopied

/-- Whichever letters are in upper case, the first half of `22.s` leaves `cl`. -/
theorem executes_uppercase (c : Cpu) : ∃ c', c'.reg .rcx = c.reg .rcx ∧
    (Executes (asmStep swapProgram) ⟨c, 1⟩ ⟨c', 6⟩ ∨
      (c.get (.low .rcx)).toInt < 65 ∧ Executes (asmStep swapProgram) ⟨c, 1⟩ ⟨c', 11⟩) := by
  obtain ⟨flags, ⟨hlow, hexec⟩ | ⟨-, hexec⟩ | ⟨-, -, hexec⟩⟩ :=
    executes_range swapProgram 1 (.low .rcx) 65 90 rfl rfl rfl rfl rfl rfl c
  · exact ⟨c.setFlags flags, rfl, .inr ⟨hlow, hexec⟩⟩
  · exact ⟨c.setFlags flags, rfl, .inl hexec⟩
  · let c' := runOps (c.setFlags flags) [.add (.low .rax) (.imm 32)]
    have hadd : Executes (asmStep swapProgram) ⟨c.setFlags flags, 5⟩ ⟨c', 6⟩ :=
      executes_ops _ ⟨_, rfl⟩
    have hkept : c'.reg .rcx = c.reg .rcx := by
      simp (disch := decide) [c', runOps, Op.effect, Cpu.result]
    exact ⟨c', hkept, .inl (hexec.trans hadd)⟩

/-- The second half converts `cl`. -/
theorem executes_lowercase (c : Cpu) : ∃ c', Executes (asmStep swapProgram) ⟨c, 6⟩ ⟨c', 11⟩ ∧
    charOf (c'.get (.low .rcx)) = (charOf (c.get (.low .rcx))).toUpper := by
  rw [charOf_toUpper]
  obtain ⟨flags, ⟨hlow, hexec⟩ | ⟨hhigh, hexec⟩ | ⟨hlow, hhigh, hexec⟩⟩ :=
    executes_range swapProgram 6 (.low .rcx) 97 122 rfl rfl rfl rfl rfl rfl c
  · refine ⟨_, hexec, ?_⟩
    rw [if_neg fun hlower => hlower.1.not_gt hlow, Cpu.get_setFlags]
  · refine ⟨_, hexec, ?_⟩
    rw [if_neg fun hlower => hlower.2.not_gt hhigh, Cpu.get_setFlags]
  · have hsub : Executes (asmStep swapProgram) ⟨c.setFlags flags, 10⟩ ⟨_, 11⟩ :=
      executes_ops [.sub (.low .rcx) (.imm 32)] ⟨_, rfl⟩
    refine ⟨_, hexec.trans hsub, ?_⟩
    rw [if_pos ⟨hlow, hhigh⟩]
    simp [runOps, Op.effect, Cpu.result, Cpu.value]

/-- `22.s` puts the character of `ch` in upper case. -/
theorem swapProgram_toUpper (c : Cpu) : ∃ s', HaltsIn (asmStep swapProgram) ⟨c, 0⟩ s' ∧
    charOf (s'.cpu.get (.high .rcx)) = (charOf (c.get (.high .rcx))).toUpper := by
  let c₀ := runOps c [.mov (.low .rcx) (.reg (.high .rcx))]
  have hmov : Executes (asmStep swapProgram) ⟨c, 0⟩ ⟨c₀, 1⟩ := executes_ops _ ⟨_, rfl⟩
  have hcl : c₀.get (.low .rcx) = c.get (.high .rcx) := Cpu.get_set c (.low .rcx) _
  suffices hconverted : ∃ c', Executes (asmStep swapProgram) ⟨c₀, 1⟩ ⟨c', 11⟩ ∧
      charOf (c'.get (.low .rcx)) = (charOf (c₀.get (.low .rcx))).toUpper by
    obtain ⟨c', hexec, hchar⟩ := hconverted
    have hback : Executes (asmStep swapProgram) ⟨c', 11⟩ ⟨_, 12⟩ :=
      executes_ops [.mov (.high .rcx) (.reg (.low .rcx))] ⟨_, rfl⟩
    refine ⟨_, ⟨hmov.trans (hexec.trans hback), rfl⟩, ?_⟩
    have hch : (runOps c' [.mov (.high .rcx) (.reg (.low .rcx))]).get (.high .rcx) =
      c'.get (.low .rcx) := Cpu.get_set c' (.high .rcx) _
    rw [hch, hchar, hcl]
  obtain ⟨c₁, hkept, hexec | ⟨hlow, hexec⟩⟩ := executes_uppercase c₀
  · obtain ⟨c₂, hexec', hchar⟩ := executes_lowercase c₁
    exact ⟨c₂, hexec.trans hexec', by rw [hchar, Cpu.get_congr hkept]⟩
  · refine ⟨c₁, hexec, ?_⟩
    rw [Cpu.get_congr hkept, charOf_toUpper, if_neg fun hlower => absurd hlower.1 (by omega)]

/-- The other case of a letter. -/
def swapCase (ch : Char) : Char := if ch.isUpper then ch.toLower else ch.toUpper

/-- Upper case is the other case of what is not in upper case. -/
theorem charOf_toUpper_eq_swapCase_iff (b : BitVec 8) :
    (charOf b).toUpper = swapCase (charOf b) ↔ (charOf b).isUpper = false := by
  revert b
  refine forall_byte ?_
  decide +kernel

/-- `22.s` leaves the character of `ch` in upper case, so that it has swapped the case exactly
when it was no letter in upper case. -/
theorem swapProgram_swaps_iff (c : Cpu) : ∃ s', HaltsIn (asmStep swapProgram) ⟨c, 0⟩ s' ∧
    charOf (s'.cpu.get (.high .rcx)) = (charOf (c.get (.high .rcx))).toUpper ∧
    (charOf (s'.cpu.get (.high .rcx)) = swapCase (charOf (c.get (.high .rcx))) ↔
      (charOf (c.get (.high .rcx))).isUpper = false) := by
  obtain ⟨s', hhalts, hupper⟩ := swapProgram_toUpper c
  refine ⟨s', hhalts, hupper, ?_⟩
  rw [hupper]
  exact charOf_toUpper_eq_swapCase_iff _

end UnixProgramming.Assembly
