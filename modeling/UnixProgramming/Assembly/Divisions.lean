import UnixProgramming.Lib.ProcessorRules

/-!
# Divisions

`12.s`, `13.s` and `14.s` divide by a value that they compute. The divisors of the last two
are compared with zero, but a quotient can also be too large: in `12.s` when `edx`, which
the program does not set, is not below the divisor, and in the others when the least
integer is divided by -1.
-/

namespace UnixProgramming.Assembly

open Labels Processor

/-- The labels of the programs. -/
inductive DivLabel
  | idivByZero | storeResult
  deriving DecidableEq

/-- `12.s`. -/
def program12 : List (AsmLine DivLabel) :=
  [.op (.load .eax (absolute 0x600000)),
   .op (.imulLow .eax (.imm 5)),
   .op (.load .ebx (absolute 0x600004)),
   .op (.sub .ebx (.imm 3)),
   .op (.div .ebx),
   .op (.store (absolute 0x600008) (.reg .eax))]

/-- `13.s`. -/
def program13 : List (AsmLine DivLabel) :=
  [.op (.load .eax (absolute 0x600004)),
   .op (.neg .eax),
   .op (.load .ecx (absolute 0x600008)),
   .op .cdq,
   .op (.idiv .ecx),
   .op (.mov .ebx (.reg .edx)),
   .op (.load .eax (absolute 0x600000)),
   .op (.imulLow .eax (.imm (-5))),
   .op (.cmp .ebx (.imm 0)),
   .jump (.jcc .e) .idivByZero,
   .op .cdq,
   .op (.idiv .ebx),
   .jump .jmp .storeResult,
   .label .idivByZero,
   .op (.mov .eax (.imm 0)),
   .label .storeResult,
   .op (.store (absolute 0x60000c) (.reg .eax))]

/-- `14.s`. -/
def program14 : List (AsmLine DivLabel) :=
  [.op (.load .eax (absolute 0x600000)),
   .op (.load .edx (absolute 0x600004)),
   .op (.neg .edx),
   .op (.imul .edx),
   .op (.load .ecx (absolute 0x600008)),
   .op (.sub .ecx (.reg .ebx)),
   .op (.cmp .ecx (.imm 0)),
   .jump (.jcc .e) .idivByZero,
   .op .cdq,
   .op (.idiv .ecx),
   .jump .jmp .storeResult,
   .label .idivByZero,
   .op (.mov .eax (.imm 0)),
   .label .storeResult,
   .op (.store (absolute 0x600008) (.reg .eax))]

/-- The three programs. -/
inductive DivExercise
  | ex12 | ex13 | ex14

/-- The code of an exercise. -/
def DivExercise.program : DivExercise → List (AsmLine DivLabel)
  | ex12 => program12
  | ex13 => program13
  | ex14 => program14

/-- The divisor that is written in the program. -/
def DivExercise.inputDivisor (c : Cpu) : DivExercise → BitVec 32
  | ex12 => c.dword 0x600004 - 3
  | ex13 => c.dword 0x600008
  | ex14 => c.dword 0x600008 - c.get .ebx

/-- The program reaches its end: no division faults. -/
def Completes (prog : List (AsmLine DivLabel)) (c : Cpu) : Prop :=
  ∃ s', HaltsIn (asmStep prog) ⟨c, 0⟩ s'

/-- The inputs with which the quotients fit: `edx` is below the divisor of `12.s`, and no
signed division is one of the least integer by -1. -/
def DivExercise.QuotientsFit (c : Cpu) : DivExercise → Prop
  | ex12 => c.get .edx < c.dword 0x600004 - 3
  | ex13 =>
    ¬(c.dword 0x600004 = BitVec.intMin 32 ∧ c.dword 0x600008 = -1) ∧
      ¬(c.dword 0x600000 = BitVec.intMin 32 ∧
        (-c.dword 0x600004).srem (c.dword 0x600008) = -1)
  | ex14 =>
    ¬(c.dword 0x600000 * -c.dword 0x600004 = BitVec.intMin 32 ∧
      c.dword 0x600008 - c.get .ebx = -1)

variable {prog : List (AsmLine DivLabel)} {c c' : Cpu} {k t : ℕ} {r : Reg 4} {m : MemRef}

/-- `12.s` reaches its end when `edx` is below the divisor. -/
theorem completes12_iff (hd : c.dword 0x600004 - 3 ≠ 0) :
    Completes program12 c ↔ c.get .edx < c.dword 0x600004 - 3 := by
  let c₁ := runOps c [.load .eax (absolute 0x600000), .imulLow .eax (.imm 5),
    .load .ebx (absolute 0x600004), .sub .ebx (.imm 3)]
  have hexec : Executes (asmStep program12) ⟨c, 0⟩ ⟨c₁, 4⟩ := executes_ops _ ⟨_, rfl⟩
  have hedx : c₁.get .edx = c.get .edx := by
    simp (disch := decide) [c₁, runOps, Op.effect, Cpu.result]
  have hebx : c₁.get .ebx = c.dword 0x600004 - 3 := by
    simp (disch := decide) [c₁, runOps, Op.effect, Cpu.result, Cpu.dword]
  have hfits : DivFits (c₁.get .edx) (c₁.get .eax) (c₁.get .ebx) ↔
      c.get .edx < c.dword 0x600004 - 3 := by
    rw [hedx, hebx]
    exact divFits_iff hd
  rw [Completes, ← hfits]
  constructor
  · intro hhalts
    by_contra hnot
    exact hexec.not_halts (faultsWith_div rfl hnot) hhalts
  · intro hdiv
    let c₂ := c₁.divide (c₁.get .ebx)
    have hnext : Next (asmStep program12) ⟨c₁, 4⟩ ⟨c₂, 5⟩ := next_div rfl hdiv
    have hstore : Next (asmStep program12) ⟨c₂, 5⟩ ⟨_, 6⟩ := next_effect rfl rfl
    exact ⟨_, hexec.trans (.head hnext (.single hstore)), rfl⟩

/-- The guarded division at the end of `13.s` and `14.s`. -/
structure GuardedDivision (prog : List (AsmLine DivLabel)) (k : ℕ) (r : Reg 4) (m : MemRef) :
    Prop where
  reg_ne : r.gpr ≠ .rdx
  cmp : (code prog)[k]? = some (.op (.cmp r (.imm 0)))
  je : (code prog)[k + 1]? = some (.jump (.jcc .e) .idivByZero)
  cdq : (code prog)[k + 2]? = some (.op .cdq)
  idiv : (code prog)[k + 3]? = some (.op (.idiv r))
  jmp : (code prog)[k + 4]? = some (.jump .jmp .storeResult)
  zero : (code prog)[k + 5]? = some (.op (.mov .eax (.imm 0)))
  store : (code prog)[k + 6]? = some (.op (.store m (.reg .eax)))
  halt : (code prog)[k + 7]? = none
  idivByZero : target .idivByZero prog = some (k + 5)
  storeResult : target .storeResult prog = some (k + 6)

/-- The store that ends the program. -/
theorem GuardedDivision.halts (hguard : GuardedDivision prog k r m) (c : Cpu) :
    ∃ s', HaltsIn (asmStep prog) ⟨c, k + 6⟩ s' := by
  refine ⟨_, .single (next_effect hguard.store rfl), ?_⟩
  rw [asmStep, step, hguard.halt]
  rfl

/-- The guarded division reaches the end unless the least integer is divided by -1. -/
theorem GuardedDivision.halts_iff (hguard : GuardedDivision prog k r m) (c : Cpu) :
    (∃ s', HaltsIn (asmStep prog) ⟨c, k⟩ s') ↔
      ¬(c.get .eax = BitVec.intMin 32 ∧ c.get r = -1) := by
  let c₁ := c.compared r (.imm 0)
  by_cases hzero : c.get r = 0
  · have hje : Executes (asmStep prog) ⟨c, k⟩ ⟨c₁, k + 5⟩ :=
      executes_cmp_taken hguard.cmp hguard.je hguard.idivByZero
        ((holds_e_subFlags _ _).trans (decide_eq_true hzero))
    have hmov : Next (asmStep prog) ⟨c₁, k + 5⟩ ⟨_, k + 6⟩ := next_effect hguard.zero rfl
    obtain ⟨s', hhalts⟩ := hguard.halts ((Op.mov .eax (.imm 0)).effect c₁)
    refine iff_of_true ⟨s', ?_⟩ fun h => absurd (hzero.symm.trans h.2) (by decide)
    exact (hje.trans (.single hmov)).haltsIn_iff.mpr hhalts
  · have hje : Executes (asmStep prog) ⟨c, k⟩ ⟨c₁, k + 2⟩ :=
      executes_cmp_skipped hguard.cmp hguard.je
        ((holds_e_subFlags _ _).trans (decide_eq_false hzero))
    let c₂ := c₁.set .edx (signHalf (c.get .eax))
    have hcdq : Next (asmStep prog) ⟨c₁, k + 2⟩ ⟨c₂, k + 3⟩ := next_op hguard.cdq rfl
    have hexec := hje.trans (.single hcdq)
    have hsame {d : Reg 4} (hd : d.gpr ≠ .rdx) : c₂.get d = c.get d :=
      (Cpu.get_set_of_ne hd).trans (Cpu.get_setFlags _ _ _)
    have hfits : IdivFits (c₂.get .edx) (c₂.get .eax) (c₂.get r) ↔
        ¬(c.get .eax = BitVec.intMin 32 ∧ c.get r = -1) := by
      rw [Cpu.get_set, hsame (by decide), hsame hguard.reg_ne]
      exact idivFits_iff hzero
    rw [← hfits]
    constructor
    · intro hhalts
      by_contra hnot
      exact hexec.not_halts (faultsWith_idiv hguard.idiv hnot) hhalts
    · intro hdiv
      obtain ⟨s', hhalts⟩ := hguard.halts (c₂.idivide (c₂.get r))
      have hidiv : Next (asmStep prog) ⟨c₂, k + 3⟩ ⟨_, k + 4⟩ := next_idiv hguard.idiv hdiv
      refine ⟨s', (hexec.trans (.head hidiv (.single ?_))).haltsIn_iff.mpr hhalts⟩
      exact next_jmp hguard.jmp hguard.storeResult

theorem guarded13 : GuardedDivision program13 8 .ebx (absolute 0x60000c) :=
  ⟨by decide, rfl, rfl, rfl, rfl, rfl, rfl, rfl, rfl, rfl, rfl⟩

theorem guarded14 : GuardedDivision program14 6 .ecx (absolute 0x600008) :=
  ⟨by decide, rfl, rfl, rfl, rfl, rfl, rfl, rfl, rfl, rfl, rfl⟩

/-- Multiplying by -5 reaches the least integer from itself only. -/
theorem mul_neg_five_eq_intMin {v : BitVec 32} :
    v * -5 = BitVec.intMin 32 ↔ v = BitVec.intMin 32 := by
  have hinv : (-5 : BitVec 32) * 858993459 = 1 := by decide
  constructor
  · intro h
    have hv : v * -5 * 858993459 = v := by rw [BitVec.mul_assoc, hinv]; exact BitVec.mul_one v
    rw [← hv, h]
    decide
  · rintro rfl
    decide

/-- The first division of `13.s`, which leaves its remainder in `ebx`. -/
theorem completes13_iff (hd : c.dword 0x600008 ≠ 0) :
    Completes program13 c ↔ DivExercise.ex13.QuotientsFit c := by
  let c₁ := runOps c [.load .eax (absolute 0x600004), .neg .eax,
    .load .ecx (absolute 0x600008), .cdq]
  have hexec₁ : Executes (asmStep program13) ⟨c, 0⟩ ⟨c₁, 4⟩ := executes_ops _ ⟨_, rfl⟩
  have heax₁ : c₁.get .eax = -c.dword 0x600004 := by
    simp (disch := decide) [c₁, runOps, Op.effect, Cpu.result, Cpu.dword]
  have hedx₁ : c₁.get .edx = signHalf (-c.dword 0x600004) := by
    simp (disch := decide) [c₁, runOps, Op.effect, Cpu.result, Cpu.dword]
  have hecx₁ : c₁.get .ecx = c.dword 0x600008 := by
    simp (disch := decide) [c₁, runOps, Op.effect, Cpu.result, Cpu.dword]
  have hfits : IdivFits (c₁.get .edx) (c₁.get .eax) (c₁.get .ecx) ↔
      ¬(c.dword 0x600004 = BitVec.intMin 32 ∧ c.dword 0x600008 = -1) := by
    rw [hedx₁, heax₁, hecx₁, ← BitVec.neg_eq_intMin]
    exact idivFits_iff hd
  by_cases hfirst : IdivFits (c₁.get .edx) (c₁.get .eax) (c₁.get .ecx)
  · let c₂ := c₁.idivide (c₁.get .ecx)
    have hidiv : Next (asmStep program13) ⟨c₁, 4⟩ ⟨c₂, 5⟩ := next_idiv rfl hfirst
    have hedx₂ : c₂.get .edx = (-c.dword 0x600004).srem (c.dword 0x600008) := by
      rw [← hecx₁]
      exact Cpu.get_edx_idivide hedx₁ heax₁
    let c₃ := runOps c₂ [.mov .ebx (.reg .edx), .load .eax (absolute 0x600000),
      .imulLow .eax (.imm (-5))]
    have hexec₃ : Executes (asmStep program13) ⟨c₂, 5⟩ ⟨c₃, 8⟩ := executes_ops _ ⟨_, rfl⟩
    have hebx₃ : c₃.get .ebx = (-c.dword 0x600004).srem (c.dword 0x600008) := by
      rw [← hedx₂]
      simp (disch := decide) [c₃, runOps, Op.effect, Cpu.result]
    have heax₃ : c₃.get .eax = c.dword 0x600000 * -5 := by
      simp (disch := decide) [c₃, c₂, c₁, runOps, Op.effect, Cpu.result, Cpu.dword]
    have hleast : c₃.get .eax = BitVec.intMin 32 ↔ c.dword 0x600000 = BitVec.intMin 32 := by
      rw [heax₃]
      exact mul_neg_five_eq_intMin
    have hexec := hexec₁.trans (.head hidiv hexec₃)
    rw [Completes, DivExercise.QuotientsFit, and_iff_right (hfits.mp hfirst)]
    simp only [hexec.haltsIn_iff, guarded13.halts_iff, hebx₃, hleast]
  · have hfault : FaultsWith (asmStep program13) ⟨c₁, 4⟩ (.machine .divideError) :=
      faultsWith_idiv rfl hfirst
    exact iff_of_false (hexec₁.not_halts hfault) fun hquotients =>
      hfirst (hfits.mpr hquotients.1)

/-- `14.s` reaches its end unless it divides the least integer by -1. -/
theorem completes14_iff (c : Cpu) : Completes program14 c ↔ DivExercise.ex14.QuotientsFit c := by
  let c₁ := runOps c [.load .eax (absolute 0x600000), .load .edx (absolute 0x600004),
    .neg .edx, .imul .edx, .load .ecx (absolute 0x600008), .sub .ecx (.reg .ebx)]
  have hexec : Executes (asmStep program14) ⟨c, 0⟩ ⟨c₁, 6⟩ := executes_ops _ ⟨_, rfl⟩
  have heax : c₁.get .eax = c.dword 0x600000 * -c.dword 0x600004 := by
    simp (disch := decide) [c₁, runOps, Op.effect, Cpu.result, Cpu.setPair, Cpu.dword,
      extractLsb'_product]
  have hecx : c₁.get .ecx = c.dword 0x600008 - c.get .ebx := by
    simp (disch := decide) [c₁, runOps, Op.effect, Cpu.result, Cpu.setPair, Cpu.dword]
  simp only [Completes, hexec.haltsIn_iff, guarded14.halts_iff, heax, hecx,
    DivExercise.QuotientsFit]

/-- With a divisor other than zero, a program reaches its end exactly when the quotients
fit. -/
theorem completes_iff_quotientsFit (e : DivExercise) (c : Cpu) (hd : e.inputDivisor c ≠ 0) :
    Completes e.program c ↔ e.QuotientsFit c := by
  cases e with
  | ex12 => exact completes12_iff hd
  | ex13 => exact completes13_iff hd
  | ex14 => exact completes14_iff c

/-- A processor with the given first three words, all else zero. -/
def cpuWith (v₀ v₁ v₂ : BitVec 32) : Cpu :=
  (((⟨fun _ => 0, none, fun _ => 0⟩ : Cpu).store (k := 4) 0x600000 v₀).store (k := 4) 0x600004
    v₁).store (k := 4) 0x600008 v₂

/-- `13.s` reaches its end on the words 2, 7 and 5. -/
theorem completes_sample : Completes program13 (cpuWith 2 7 5) :=
  (completes_iff_quotientsFit .ex13 (cpuWith 2 7 5) (by decide)).mpr ⟨by decide, by decide⟩

/-- `12.s` divides 2 ^ 32 by 1 when `edx` is 1 and the words are 0 and 4. -/
theorem not_completes_stale : ¬∀ e c, DivExercise.inputDivisor c e ≠ 0 → Completes e.program c := by
  intro hall
  have hbelow := (completes12_iff (c := (cpuWith 0 4 0).set .edx 1) (by decide)).mp
    (hall .ex12 _ (by decide))
  exact absurd hbelow (by decide)

end UnixProgramming.Assembly
