import Mathlib.Algebra.Ring.Nat
import Mathlib.Algebra.Order.Ring.Int
import UnixProgramming.Lib.ByteMemory
import UnixProgramming.Lib.Labels

/-!
# A processor with operands of one, two, four and eight bytes

The part of the x86-64 instruction set that short assembly programs use. A register has parts:
writing a byte or a word of it keeps the rest, and writing a doubleword clears the high half.
`loop` counts in all 64 bits of `rcx`. A division faults when its divisor is zero or its quotient
does not fit, and a jump on flags that the last instruction left undefined faults too.
-/

namespace UnixProgramming.Processor

open Labels

/-! ## Registers and memory -/

/-- The general registers. -/
inductive Gpr
  | rax | rbx | rcx | rdx | rsi | rdi
  deriving DecidableEq

/-- A part of a register, by its number of bytes: `al`, `ah`, `ax`, `eax` and `rax`. -/
inductive Reg : ℕ → Type
  | low (r : Gpr) : Reg 1
  | high (r : Gpr) : Reg 1
  | word (r : Gpr) : Reg 2
  | dword (r : Gpr) : Reg 4
  | qword (r : Gpr) : Reg 8

namespace Reg

/-- The low half of `rax`. -/
abbrev eax : Reg 4 := .dword .rax

/-- The low half of `rbx`. -/
abbrev ebx : Reg 4 := .dword .rbx

/-- The low half of `rcx`. -/
abbrev ecx : Reg 4 := .dword .rcx

/-- The low half of `rdx`. -/
abbrev edx : Reg 4 := .dword .rdx

/-- The low half of `rsi`. -/
abbrev esi : Reg 4 := .dword .rsi

/-- The low half of `rdi`. -/
abbrev edi : Reg 4 := .dword .rdi

/-- The register of a part. -/
def gpr : {k : ℕ} → Reg k → Gpr
  | _, .low r => r
  | _, .high r => r
  | _, .word r => r
  | _, .dword r => r
  | _, .qword r => r

end Reg

/-- The zero, sign and overflow flags. -/
structure Flags where
  zf : Bool
  sf : Bool
  of : Bool
  deriving DecidableEq

/-- The registers, the flags unless they are undefined, and the memory. -/
structure Cpu where
  reg : Gpr → BitVec 64
  flags : Option Flags
  mem : ByteMemory 64

/-- Replace the bits from `off` on by those of `v`. -/
def insertBits {n : ℕ} (x : BitVec 64) (off : ℕ) (v : BitVec n) : BitVec 64 :=
  (x &&& ~~~((BitVec.allOnes n).setWidth 64 <<< off)) ||| (v.setWidth 64 <<< off)

namespace Cpu

/-- Assign a register. -/
def setGpr (c : Cpu) (r : Gpr) (v : BitVec 64) : Cpu :=
  { c with reg := Function.update c.reg r v }

/-- The contents of a part of a register. -/
def get (c : Cpu) : {k : ℕ} → Reg k → BitVec (8 * k)
  | _, .low r => (c.reg r).extractLsb' 0 8
  | _, .high r => (c.reg r).extractLsb' 8 8
  | _, .word r => (c.reg r).extractLsb' 0 16
  | _, .dword r => (c.reg r).extractLsb' 0 32
  | _, .qword r => c.reg r

/-- Write a part of a register. -/
def set (c : Cpu) : {k : ℕ} → Reg k → BitVec (8 * k) → Cpu
  | _, .low r, v => c.setGpr r (insertBits (c.reg r) 0 v)
  | _, .high r, v => c.setGpr r (insertBits (c.reg r) 8 v)
  | _, .word r, v => c.setGpr r (insertBits (c.reg r) 0 v)
  | _, .dword r, v => c.setGpr r (v.setWidth 64)
  | _, .qword r, v => c.setGpr r v

/-- Set the flags, or leave them undefined. -/
def setFlags (c : Cpu) (flags : Option Flags) : Cpu := { c with flags := flags }

/-- Write a word of `k` bytes to the memory. -/
def store (c : Cpu) {k : ℕ} (a : BitVec 64) (v : BitVec (8 * k)) : Cpu :=
  { c with mem := c.mem.poke a v }

/-- The doubleword at an address. -/
def dword (c : Cpu) (a : BitVec 64) : BitVec 32 := c.mem.peek a 4

end Cpu

/-! ## Instructions -/

/-- A register or a constant. -/
inductive Value (k : ℕ)
  | reg (r : Reg k)
  | imm (v : BitVec (8 * k))

/-- The operand `[base + disp]` or `[disp]`, with an address of 32 bits. -/
structure MemRef where
  base : Option (Reg 4)
  disp : BitVec 32

/-- The operand `[disp]`. -/
def absolute (disp : BitVec 32) : MemRef := ⟨none, disp⟩

/-- The instructions that go on to the next one. -/
inductive Op : Type
  /-- `mov` to a register, from the memory and to the memory. -/
  | mov {k : ℕ} (d : Reg k) (v : Value k)
  | load {k : ℕ} (d : Reg k) (m : MemRef)
  | store {k : ℕ} (m : MemRef) (v : Value k)
  | lea (d : Reg 4) (m : MemRef)
  | add {k : ℕ} (d : Reg k) (v : Value k)
  | sub {k : ℕ} (d : Reg k) (v : Value k)
  | cmp {k : ℕ} (d : Reg k) (v : Value k)
  | test {k : ℕ} (d : Reg k) (v : Value k)
  /-- `shr` by one bit. -/
  | shr {k : ℕ} (d : Reg k)
  | inc {k : ℕ} (d : Reg k)
  | dec {k : ℕ} (d : Reg k)
  | neg {k : ℕ} (d : Reg k)
  /-- `imul` with two operands, which keeps the low half of the product. -/
  | imulLow {k : ℕ} (d : Reg k) (v : Value k)
  /-- `imul` with one operand, which puts the product into `edx:eax`. -/
  | imul (r : Reg 4)
  | cdq
  | div (r : Reg 4)
  | idiv (r : Reg 4)

/-- The conditions of `je`, `jl`, `jg` and `jle`. -/
inductive Cond
  | e | l | g | le

/-- The jumps. -/
inductive Jump
  | jmp
  | jcc (c : Cond)
  | loop

/-- The ways in which an instruction fails. -/
inductive CpuFault
  | divideError
  | undefinedFlags

/-- The flags of a result with the given overflow. -/
def resultFlags {n : ℕ} (v : BitVec n) (overflow : Bool) : Flags := ⟨v = 0, v.msb, overflow⟩

/-- The flags after `a + b`. -/
def addFlags {n : ℕ} (a b : BitVec n) : Flags := resultFlags (a + b) (BitVec.saddOverflow a b)

/-- The flags after `a - b`. -/
def subFlags {n : ℕ} (a b : BitVec n) : Flags := resultFlags (a - b) (BitVec.ssubOverflow a b)

/-- The condition of a jump. -/
def Cond.holds : Cond → Flags → Bool
  | .e, f => f.zf
  | .l, f => f.sf != f.of
  | .g, f => !f.zf && f.sf == f.of
  | .le, f => f.zf || f.sf != f.of

/-- The quotient of an unsigned division of `hi:lo` fits into 32 bits, and the divisor is not
zero. -/
def DivFits (hi lo d : BitVec 32) : Prop :=
  d ≠ 0 ∧ (hi ++ lo).toNat / d.toNat < 2 ^ 32

/-- The quotient of a signed division of `hi:lo` fits into 32 bits, and the divisor is not
zero. -/
def IdivFits (hi lo d : BitVec 32) : Prop :=
  d ≠ 0 ∧ -2 ^ 31 ≤ (hi ++ lo).toInt.tdiv d.toInt ∧ (hi ++ lo).toInt.tdiv d.toInt < 2 ^ 31

instance (hi lo d : BitVec 32) : Decidable (DivFits hi lo d) :=
  inferInstanceAs (Decidable (_ ∧ _))

instance (hi lo d : BitVec 32) : Decidable (IdivFits hi lo d) :=
  inferInstanceAs (Decidable (_ ∧ _ ∧ _))

/-- The high half of a sign extension. -/
def signHalf (v : BitVec 32) : BitVec 32 := (v.signExtend 64).extractLsb' 32 32

/-- The signed product of two doublewords. -/
def product (a b : BitVec 32) : BitVec 64 := a.signExtend 64 * b.signExtend 64

namespace Cpu

/-- A register or a constant as an operand. -/
def value (c : Cpu) {k : ℕ} : Value k → BitVec (8 * k)
  | .reg r => c.get r
  | .imm v => v

/-- The effective address of 32 bits. -/
def effective (c : Cpu) (m : MemRef) : BitVec 32 := (m.base.elim 0 c.get) + m.disp

/-- The address of a memory operand. -/
def address (c : Cpu) (m : MemRef) : BitVec 64 := (c.effective m).setWidth 64

/-- A result with its flags. -/
def result (c : Cpu) {k : ℕ} (d : Reg k) (v : BitVec (8 * k)) (flags : Option Flags) : Cpu :=
  (c.set d v).setFlags flags

/-- A result in `edx:eax`, which leaves the flags undefined. -/
def setPair (c : Cpu) (eax edx : BitVec 32) : Cpu :=
  ((c.set .eax eax).set .edx edx).setFlags none

end Cpu

/-- The quotient and the remainder of `edx:eax` by `d`, as unsigned integers, -/
def Cpu.divide (c : Cpu) (d : BitVec 32) : Cpu :=
  let dividend : BitVec 64 := (c.get .edx : BitVec 32) ++ (c.get .eax : BitVec 32)
  c.setPair (.ofNat 32 (dividend.toNat / d.toNat)) (.ofNat 32 (dividend.toNat % d.toNat))

/-- and as signed ones. -/
def Cpu.idivide (c : Cpu) (d : BitVec 32) : Cpu :=
  let dividend : BitVec 64 := (c.get .edx : BitVec 32) ++ (c.get .eax : BitVec 32)
  c.setPair (.ofInt 32 (dividend.toInt.tdiv d.toInt)) (.ofInt 32 (dividend.toInt.tmod d.toInt))

/-- The effect of an instruction that goes on to the next one. The multiplications and divisions
leave the flags undefined. -/
def Op.effect (c : Cpu) : Op → Cpu
  | mov d v => c.set d (c.value v)
  | load d m => c.set d (c.mem.peek (c.address m) _)
  | store m v => c.store (c.address m) (c.value v)
  | lea d m => c.set d (c.effective m)
  | add d v => c.result d (c.get d + c.value v) (some (addFlags (c.get d) (c.value v)))
  | sub d v => c.result d (c.get d - c.value v) (some (subFlags (c.get d) (c.value v)))
  | cmp d v => c.setFlags (some (subFlags (c.get d) (c.value v)))
  | test d v => c.setFlags (some (resultFlags (c.get d &&& c.value v) false))
  | shr d => c.result d (c.get d >>> 1) (some (resultFlags (c.get d >>> 1) (c.get d).msb))
  | inc d => c.result d (c.get d + 1) (some (addFlags (c.get d) 1))
  | dec d => c.result d (c.get d - 1) (some (subFlags (c.get d) 1))
  | neg d => c.result d (-c.get d) (some (subFlags 0 (c.get d)))
  | imulLow d v => c.result d (c.get d * c.value v) none
  | imul r =>
    let p := product (c.get .eax) (c.get r)
    c.setPair (p.extractLsb' 0 32) (p.extractLsb' 32 32)
  | cdq => c.set .edx (signHalf (c.get .eax))
  | div r => c.divide (c.get r)
  | idiv r => c.idivide (c.get r)

/-- The divisions fault when the quotient does not fit. -/
def Op.fault (c : Cpu) : Op → Option CpuFault
  | div r => if DivFits (c.get .edx) (c.get .eax) (c.get r) then none else some .divideError
  | idiv r => if IdivFits (c.get .edx) (c.get .eax) (c.get r) then none else some .divideError
  | _ => none

/-- An instruction that goes on to the next one, unless it faults. -/
def Op.exec (c : Cpu) (o : Op) : Except CpuFault Cpu :=
  match o.fault c with
  | some f => .error f
  | none => .ok (o.effect c)

/-- The addresses of the words that an instruction reads or writes. -/
def Op.accesses (c : Cpu) : Op → List (BitVec 64)
  | load _ m => [c.address m]
  | store m _ => [c.address m]
  | _ => []

/-- `rcx` after `loop`. -/
def Cpu.countDown (c : Cpu) : Cpu := c.setGpr .rcx (c.reg .rcx - 1)

/-- Whether a jump is taken, and the state after it. -/
def Jump.taken (c : Cpu) : Jump → Except CpuFault (Bool × Cpu)
  | jmp => .ok (true, c)
  | jcc cond =>
    match c.flags with
    | none => .error .undefinedFlags
    | some f => .ok (cond.holds f, c)
  | loop => .ok (c.reg .rcx - 1 ≠ 0, c.countDown)

/-! ## Programs -/

/-- The machine of these instructions. -/
def machine : Machine Cpu Op Jump CpuFault where
  exec o c := o.exec c
  branch j c := j.taken c

/-- A line of a program with labels in `L`. -/
abbrev AsmLine (L : Type) := Line Op Jump L

/-- One step of a program. -/
abbrev asmStep {L : Type} [DecidableEq L] (prog : List (AsmLine L)) := step machine prog

/-- The effect of a block. -/
def runOps (c : Cpu) (ops : List Op) : Cpu := ops.foldl Op.effect c

/-- The addresses of the words that the next instruction reads or writes. -/
def accesses {L : Type} (prog : List (AsmLine L)) (s : State Cpu) : List (BitVec 64) :=
  match (code prog)[s.pc]? with
  | some (.op o) => o.accesses s.cpu
  | _ => []

end UnixProgramming.Processor
