import Mathlib.Tactic.Ring
import UnixProgramming.Lib.Processor

/-!
# Rules for programs of the processor

A part of a register that has been written is read back, and the parts apart from it stay. What
the flags of a comparison say holds in every width. A division fits unless its quotient is too
large, and blocks and jumps compose.
-/

namespace UnixProgramming.Processor

open Labels

variable {c c' : Cpu} {k m n : ℕ} {r r' : Gpr} {i off : ℕ}

/-! ## Parts of registers -/

/-- A bit of a register after some of its bits have been replaced: it is one of the new bits from
`off` on, and an old one elsewhere. -/
theorem getLsbD_insertBits {x : BitVec 64} {v : BitVec n} (hi : i < 64) :
    (insertBits x off v).getLsbD i =
      if off ≤ i ∧ i < off + n then v.getLsbD (i - off) else x.getLsbD i := by
  simp only [insertBits, BitVec.getLsbD_or, BitVec.getLsbD_and, BitVec.getLsbD_not,
    BitVec.getLsbD_shiftLeft, BitVec.getLsbD_setWidth, BitVec.getLsbD_allOnes, hi, decide_true,
    Bool.true_and]
  by_cases hlow : i < off
  · simp [hlow]
  · have hsub : i - off < 64 := by omega
    by_cases hin : i - off < n
    · have hlt : i < off + n := by omega
      simp [hlow, hsub, hin, hlt, Nat.not_lt.mp hlow]
    · have hge : ¬i < off + n := by omega
      simp [hlow, hin, hge, BitVec.getLsbD_of_ge v _ (Nat.not_lt.mp hin)]

/-- Bits that have been replaced are read back, as long as they fit into the register. This is
what makes `al`, `ah` and `ax` readable after they were written. -/
theorem extractLsb'_insertBits {x : BitVec 64} {v : BitVec n} (hfits : off + n ≤ 64) :
    (insertBits x off v).extractLsb' off n = v := by
  refine BitVec.eq_of_getLsbD_eq fun i hi => ?_
  rw [BitVec.getLsbD_extractLsb', getLsbD_insertBits (by omega),
    if_pos ⟨Nat.le_add_right _ _, by omega⟩, Nat.add_sub_cancel_left, decide_eq_true hi,
    Bool.true_and]

namespace Cpu

/-- A register that has been assigned holds the value. -/
@[simp] theorem reg_setGpr (c : Cpu) (r : Gpr) (v : BitVec 64) : (c.setGpr r v).reg r = v := by
  simp [setGpr]

/-- Every other register holds what it held before. -/
@[simp] theorem reg_setGpr_of_ne {v : BitVec 64} (hr : r' ≠ r) :
    (c.setGpr r v).reg r' = c.reg r' := by
  simp [setGpr, hr]

/-- Writing a part of a register leaves the memory alone, -/
@[simp] theorem mem_set (c : Cpu) (d : Reg k) (v : BitVec (8 * k)) : (c.set d v).mem = c.mem := by
  cases d <;> rfl

/-- and so does setting the flags. -/
@[simp] theorem mem_setFlags (c : Cpu) (flags : Option Flags) :
    (c.setFlags flags).mem = c.mem := rfl

/-- The registers depend on no flag, in whole -/
@[simp] theorem reg_setFlags (c : Cpu) (flags : Option Flags) :
    (c.setFlags flags).reg = c.reg := rfl

/-- and in their parts. -/
@[simp] theorem get_setFlags (c : Cpu) (flags : Option Flags) (d : Reg k) :
    (c.setFlags flags).get d = c.get d := by
  cases d <;> rfl

/-- Writing to the memory changes no register. -/
@[simp] theorem reg_store (c : Cpu) (a : BitVec 64) (v : BitVec (8 * k)) :
    (c.store a v).reg = c.reg := rfl

/-- The memory is the old one with the bytes of the word in place. -/
@[simp] theorem mem_store (c : Cpu) (a : BitVec 64) (v : BitVec (8 * k)) :
    (c.store a v).mem = c.mem.poke a v := rfl

/-- No part of a register depends on the memory. -/
@[simp] theorem get_store (c : Cpu) (a : BitVec 64) (v : BitVec (8 * k)) (d : Reg m) :
    (c.store a v).get d = c.get d := by
  cases d <;> rfl

/-- A part that has been written is read back. A doubleword is the low half of the whole register
that its write sets. -/
@[simp] theorem get_set (c : Cpu) (d : Reg k) (v : BitVec (8 * k)) : (c.set d v).get d = v := by
  cases d with
  | low r | high r | word r =>
    simp only [set, get, reg_setGpr]
    exact extractLsb'_insertBits (by decide)
  | dword r =>
    simp only [set, get, reg_setGpr]
    refine BitVec.eq_of_getLsbD_eq fun i hi => ?_
    have hi' : i < 32 := hi
    have hlong : i < 64 := by omega
    rw [BitVec.getLsbD_extractLsb', BitVec.getLsbD_setWidth]
    simp [hi', hlong]
  | qword r => simp only [set, get, reg_setGpr]

/-- Writing a part of a register leaves the other registers alone. Together with `get_congr` this
is the frame rule for registers. -/
@[simp] theorem reg_set_of_ne {d : Reg k} {v : BitVec (8 * k)} (hr : r ≠ d.gpr) :
    (c.set d v).reg r = c.reg r := by
  cases d <;> exact reg_setGpr_of_ne hr

/-- A part of a register depends on that register only. -/
theorem get_congr {d : Reg m} (hreg : c'.reg d.gpr = c.reg d.gpr) : c'.get d = c.get d := by
  cases d <;> simp only [Reg.gpr] at hreg <;> simp only [get, hreg]

/-- Parts of other registers stay when a part of a register is written. -/
@[simp] theorem get_set_of_ne {d : Reg k} {d' : Reg m} {v : BitVec (8 * k)}
    (hr : d'.gpr ≠ d.gpr) : (c.set d v).get d' = c.get d' :=
  get_congr (reg_set_of_ne hr)

/-- A result in `edx:eax` leaves the memory alone. -/
@[simp] theorem mem_setPair (c : Cpu) (eax edx : BitVec 32) : (c.setPair eax edx).mem = c.mem := by
  simp [setPair]

/-- So does a signed division. -/
@[simp] theorem mem_idivide (c : Cpu) (d : BitVec 32) : (c.idivide d).mem = c.mem :=
  mem_setPair _ _ _

/-- The value of an operand that is a register -/
@[simp] theorem value_reg (c : Cpu) (r : Reg k) : c.value (.reg r) = c.get r := rfl

/-- or a constant. -/
@[simp] theorem value_imm (c : Cpu) (v : BitVec (8 * k)) : c.value (.imm v) = v := rfl

/-- The address of an operand without base is its displacement, extended by zeros. -/
@[simp] theorem address_absolute (c : Cpu) (disp : BitVec 32) :
    c.address (absolute disp) = disp.setWidth 64 := by
  simp [address, effective, absolute]

/-- A doubleword that has been written is read back, -/
theorem dword_store (c : Cpu) (a : BitVec 64) (v : BitVec 32) :
    (c.store (k := 4) a v).dword a = v :=
  c.mem.peek_poke_self (n := 4) a v (by decide)

/-- and doublewords apart from it stay. The distance is taken in both directions, since addresses
wrap around. -/
theorem dword_store_of_apart {x y : BitVec 64} {v : BitVec 32} (hafter : 4 ≤ (y - x).toNat)
    (hbefore : 4 ≤ (x - y).toNat) : (c.store (k := 4) x v).dword y = c.dword y :=
  c.mem.peek_poke_of_apart (n := 4) v hafter hbefore

/-- Counting down changes `rcx` only, so that the memory stays. -/
@[simp] theorem mem_countDown (c : Cpu) : c.countDown.mem = c.mem := rfl

/-- `rcx` is less by one, in all of its 64 bits. -/
@[simp] theorem reg_countDown (c : Cpu) : c.countDown.reg .rcx = c.reg .rcx - 1 := reg_setGpr _ _ _

/-- The other registers stay, -/
theorem reg_countDown_of_ne (hr : r ≠ .rcx) : c.countDown.reg r = c.reg r := reg_setGpr_of_ne hr

/-- and so do their parts. -/
theorem get_countDown_of_ne {d : Reg k} (hr : d.gpr ≠ .rcx) : c.countDown.get d = c.get d :=
  get_congr (reg_countDown_of_ne hr)

end Cpu

/-! ## Comparisons -/

/-- The sign of a difference is wrong exactly when it overflows. So the two flags together tell
how the operands compare as signed integers. -/
theorem msb_sub_bne_overflow (hn : 0 < n) (a b : BitVec n) :
    ((a - b).msb != BitVec.ssubOverflow a b) = decide (a.toInt < b.toInt) := by
  obtain ⟨m, rfl⟩ : ∃ m, n = m + 1 := ⟨n - 1, by omega⟩
  have ha := a.le_toInt
  have ha' := a.toInt_lt
  have hb := b.le_toInt
  have hb' := b.toInt_lt
  have hpow : (2 : ℤ) ^ (m + 1) = 2 * 2 ^ m := by ring
  have hpow' : (2 : ℕ) ^ (m + 1) = 2 * 2 ^ m := by ring
  have hcast : ((2 ^ m : ℕ) : ℤ) = 2 ^ m := by push_cast; rfl
  simp only [Nat.add_sub_cancel] at ha ha' hb hb'
  rw [BitVec.msb_eq_toInt, BitVec.ssubOverflow, BitVec.toInt_sub, Nat.add_sub_cancel, hpow']
  generalize a.toInt = x at *
  generalize b.toInt = y at *
  have hsign := Int.bmod_neg_iff (m := 2 * 2 ^ m) (x := x - y) (by push_cast; omega)
    (by push_cast; omega)
  rw [Bool.eq_iff_iff, bne_iff_ne, ne_eq, Bool.eq_iff_iff]
  simp only [decide_eq_true_eq, Bool.or_eq_true, hsign]
  push_cast
  omega

/-- After a comparison, `e` asks whether the operands are equal, -/
theorem holds_e_subFlags (a b : BitVec n) : Cond.e.holds (subFlags a b) = decide (a = b) := by
  simp [Cond.holds, subFlags, resultFlags, BitVec.sub_eq_iff_eq_add]

/-- `l` whether the first is less than the second as a signed integer, -/
theorem holds_l_subFlags (hn : 0 < n) (a b : BitVec n) :
    Cond.l.holds (subFlags a b) = decide (a.toInt < b.toInt) :=
  msb_sub_bne_overflow hn a b

/-- `g` whether it is greater, -/
theorem holds_g_subFlags (hn : 0 < n) (a b : BitVec n) :
    Cond.g.holds (subFlags a b) = decide (b.toInt < a.toInt) := by
  have hg : ∀ f, Cond.g.holds f = (!Cond.e.holds f && !Cond.l.holds f) := by
    rintro ⟨zf, sf, of⟩
    cases zf <;> cases sf <;> cases of <;> rfl
  rw [hg, holds_e_subFlags, holds_l_subFlags hn, Bool.eq_iff_iff]
  simp only [← BitVec.toInt_inj, Bool.and_eq_true, Bool.not_eq_true', decide_eq_false_iff_not,
    decide_eq_true_eq]
  omega

/-- and `le` whether it is not. -/
theorem holds_le_subFlags (hn : 0 < n) (a b : BitVec n) :
    Cond.le.holds (subFlags a b) = decide (a.toInt ≤ b.toInt) := by
  have hle : ∀ f, Cond.le.holds f = (Cond.e.holds f || Cond.l.holds f) := fun _ => rfl
  rw [hle, holds_e_subFlags, holds_l_subFlags hn, Bool.eq_iff_iff]
  simp only [← BitVec.toInt_inj, Bool.or_eq_true, decide_eq_true_eq]
  omega

/-! ## Divisions -/

section Divisions

variable {a b d hi lo : BitVec 32}

/-- The integer that two halves stand for, without sign. -/
theorem toNat_halves (hi lo : BitVec 32) : (hi ++ lo).toNat = 2 ^ 32 * hi.toNat + lo.toNat := by
  rw [BitVec.toNat_append, Nat.shiftLeft_eq, Nat.mul_comm, Nat.two_pow_add_eq_or_of_lt lo.isLt]

/-- The quotient of an unsigned division fits when the high half of the dividend is below
the divisor. -/
theorem divFits_iff (hd : d ≠ 0) : DivFits hi lo d ↔ hi < d := by
  have hpos : 0 < d.toNat := by
    rw [Nat.pos_iff_ne_zero]
    exact fun hzero => hd (BitVec.eq_of_toNat_eq hzero)
  have hlow := lo.isLt
  rw [DivFits, and_iff_right hd, Nat.div_lt_iff_lt_mul hpos, toNat_halves, BitVec.lt_def]
  constructor
  · exact fun h => Nat.lt_of_mul_lt_mul_left (lt_of_le_of_lt (Nat.le_add_right _ _) h)
  · intro h
    have hstep := Nat.mul_le_mul_left (2 ^ 32) (Nat.succ_le_of_lt h)
    rw [Nat.mul_succ] at hstep
    omega

/-- Only the least integer divided by -1 has a quotient outside the range. -/
theorem tdiv_range {x y : ℤ} (hx : -2 ^ 31 ≤ x) (hx' : x < 2 ^ 31) :
    -2 ^ 31 ≤ x.tdiv y ∧ (x.tdiv y < 2 ^ 31 ↔ ¬(x = -2 ^ 31 ∧ y = -1)) := by
  have habs : (x.tdiv y).natAbs = x.natAbs / y.natAbs := Int.natAbs_tdiv x y
  have hle : x.natAbs / y.natAbs ≤ x.natAbs := Nat.div_le_self _ _
  refine ⟨by omega, fun h => ?_, fun h => ?_⟩
  · rintro ⟨rfl, rfl⟩
    exact absurd h (by decide)
  · by_contra hge
    have hx₀ : x = -2 ^ 31 := by omega
    have hy : y.natAbs < 2 := by
      by_contra hy
      have hhalf : x.natAbs / y.natAbs ≤ x.natAbs / 2 := Nat.div_le_div_left (by omega) (by decide)
      omega
    obtain rfl | rfl | rfl : y = 0 ∨ y = 1 ∨ y = -1 := by omega
    · rw [Int.tdiv_zero] at hge
      omega
    · rw [Int.tdiv_one] at hge
      omega
    · exact h ⟨hx₀, rfl⟩

/-- The halves of a sign extension are `signHalf` and the doubleword itself, as `cdq` leaves them
in `edx` and `eax`. -/
theorem signHalf_append (a : BitVec 32) : signHalf a ++ a = a.signExtend 64 := by
  refine BitVec.eq_of_getLsbD_eq fun i hi => ?_
  rw [BitVec.getLsbD_append]
  by_cases hlow : i < 32
  · have hi' : i < 64 := hi
    rw [if_pos hlow, BitVec.getLsbD_signExtend, decide_eq_true hi', Bool.true_and, if_pos hlow]
  · have hsum : 32 + (i - 32) = i := by omega
    have hrest : i - 32 < 32 := by omega
    rw [if_neg hlow, signHalf, BitVec.getLsbD_extractLsb', hsum, decide_eq_true hrest,
      Bool.true_and]

/-- The signed value of a sign-extended dividend. -/
theorem toInt_signHalf_append (a : BitVec 32) : (signHalf a ++ a).toInt = a.toInt := by
  rw [signHalf_append, BitVec.toInt_signExtend_of_le (by decide)]

/-- The quotient of a sign-extended dividend fits unless it is the least integer by -1. -/
theorem idivFits_iff (hd : d ≠ 0) :
    IdivFits (signHalf a) a d ↔ ¬(a = BitVec.intMin 32 ∧ d = -1) := by
  obtain ⟨hlow, hhigh⟩ := tdiv_range (y := d.toInt) a.le_toInt a.toInt_lt
  rw [IdivFits, and_iff_right hd, toInt_signHalf_append, and_iff_right hlow, hhigh,
    ← BitVec.toInt_inj (x := a), ← BitVec.toInt_inj (x := d)]
  rfl

/-- The low half of the product of sign-extended factors is the product of the factors. -/
theorem extractLsb'_product (a b : BitVec 32) : (product a b).extractLsb' 0 32 = a * b := by
  have hext : ∀ v : BitVec 32, (v.signExtend 64).setWidth 32 = v := by
    intro v
    refine BitVec.eq_of_getLsbD_eq fun i hi => ?_
    have hi' : i < 64 := by omega
    simp only [BitVec.getLsbD_setWidth, BitVec.getLsbD_signExtend, hi, hi', decide_true,
      Bool.true_and, if_true]
  rw [product, ← BitVec.setWidth_eq_extractLsb' (by decide), BitVec.setWidth_mul _ _ (by decide),
    hext, hext]

/-- A signed division of a sign-extended dividend leaves the remainder in `edx`. -/
theorem Cpu.get_edx_idivide (hhigh : c.get .edx = signHalf a) (hlow : c.get .eax = a) :
    (c.idivide d).get .edx = a.srem d := by
  have hpair : (c.idivide d).get .edx = .ofInt 32
      (((c.get .edx : BitVec 32) ++ (c.get .eax : BitVec 32)).toInt.tmod d.toInt) := by
    rw [idivide, setPair, get_setFlags, get_set]
  have hdividend : ((c.get .edx : BitVec 32) ++ (c.get .eax : BitVec 32)).toInt = a.toInt := by
    rw [hhigh, hlow, toInt_signHalf_append]
  rw [hpair, hdividend, ← BitVec.toInt_srem, BitVec.ofInt_toInt]

end Divisions

/-! ## Programs -/

section Programs

variable {L : Type} [DecidableEq L] {prog : List (AsmLine L)} {l : L} {pc t : ℕ} {cond : Cond}
variable {flags : Flags} {o : Op} {f : CpuFault}

/-- The instructions that never fault: all but the divisions. -/
def Op.total : Op → Bool
  | div _ => false
  | idiv _ => false
  | _ => true

/-- They have their effect in every state. -/
theorem Op.exec_of_total (htotal : o.total = true) (c : Cpu) : o.exec c = .ok (o.effect c) := by
  cases o with
  | div | idiv => cases htotal
  | _ => rfl

/-- A block of them runs as a whole, and leaves the state that its effects lead to. -/
theorem executes_ops (ops : List Op) (hcode : ops.map .op <+: (code prog).drop pc)
    (htotal : ops.all Op.total = true := by rfl) :
    Executes (asmStep prog) ⟨c, pc⟩ ⟨runOps c ops, pc + ops.length⟩ := by
  refine executes_block ops hcode ?_
  clear hcode
  induction ops generalizing c with
  | nil => rfl
  | cons o ops ih =>
    rw [List.all_cons, Bool.and_eq_true] at htotal
    have hexec : machine.exec o c = .ok (o.effect c) := o.exec_of_total htotal.1 c
    rw [runBlock, hexec]
    exact ih htotal.2

/-- An instruction that faults ends the execution. -/
theorem faultsWith_op (hcode : (code prog)[pc]? = some (.op o)) (hfault : o.fault c = some f) :
    FaultsWith (asmStep prog) ⟨c, pc⟩ (.machine f) := by
  have hexec : machine.exec o c = .error f := by
    simp only [machine, Op.exec, hfault]
  refine ⟨_, .refl _, ?_⟩
  simp only [step, hcode, Option.map_some, Instr.exec, hexec]

/-- An instruction that does not fault has its effect. -/
theorem next_effect (hcode : (code prog)[pc]? = some (.op o)) (hfault : o.fault c = none) :
    Next (asmStep prog) ⟨c, pc⟩ ⟨o.effect c, pc + 1⟩ :=
  next_op hcode (by simp only [machine, Op.exec, hfault])

/-- A division whose quotient does not fit faults, without sign -/
theorem faultsWith_div {r : Reg 4} (hcode : (code prog)[pc]? = some (.op (.div r)))
    (hfits : ¬DivFits (c.get .edx) (c.get .eax) (c.get r)) :
    FaultsWith (asmStep prog) ⟨c, pc⟩ (.machine .divideError) :=
  faultsWith_op hcode (if_neg hfits)

/-- or with it. -/
theorem faultsWith_idiv {r : Reg 4} (hcode : (code prog)[pc]? = some (.op (.idiv r)))
    (hfits : ¬IdivFits (c.get .edx) (c.get .eax) (c.get r)) :
    FaultsWith (asmStep prog) ⟨c, pc⟩ (.machine .divideError) :=
  faultsWith_op hcode (if_neg hfits)

/-- One whose quotient fits puts quotient and remainder into `eax` and `edx`. -/
theorem next_div {r : Reg 4} (hcode : (code prog)[pc]? = some (.op (.div r)))
    (hfits : DivFits (c.get .edx) (c.get .eax) (c.get r)) :
    Next (asmStep prog) ⟨c, pc⟩ ⟨c.divide (c.get r), pc + 1⟩ :=
  next_effect hcode (if_pos hfits)

/-- The same for a signed division, with the quotient rounded towards zero. -/
theorem next_idiv {r : Reg 4} (hcode : (code prog)[pc]? = some (.op (.idiv r)))
    (hfits : IdivFits (c.get .edx) (c.get .eax) (c.get r)) :
    Next (asmStep prog) ⟨c, pc⟩ ⟨c.idivide (c.get r), pc + 1⟩ :=
  next_effect hcode (if_pos hfits)

/-- `jmp` goes to its label. -/
theorem next_jmp (hcode : (code prog)[pc]? = some (.jump .jmp l))
    (htarget : target l prog = some t) : Next (asmStep prog) ⟨c, pc⟩ ⟨c, t⟩ :=
  next_taken hcode htarget rfl

/-- A conditional jump is taken when its condition holds, -/
theorem next_jcc_taken (hcode : (code prog)[pc]? = some (.jump (.jcc cond) l))
    (htarget : target l prog = some t) (hflags : c.flags = some flags)
    (hholds : cond.holds flags = true) : Next (asmStep prog) ⟨c, pc⟩ ⟨c, t⟩ :=
  next_taken hcode htarget (by simp only [machine, Jump.taken, hflags, hholds])

/-- and skipped otherwise. -/
theorem next_jcc_skipped (hcode : (code prog)[pc]? = some (.jump (.jcc cond) l))
    (hflags : c.flags = some flags) (hholds : cond.holds flags = false) :
    Next (asmStep prog) ⟨c, pc⟩ ⟨c, pc + 1⟩ :=
  next_skipped hcode (by simp only [machine, Jump.taken, hflags, hholds])

/-- The state after a comparison. -/
def Cpu.compared (c : Cpu) (d : Reg k) (v : Value k) : Cpu :=
  c.setFlags (some (subFlags (c.get d) (c.value v)))

section Comparisons

variable {d : Reg k} {v : Value k} (hcmp : (code prog)[pc]? = some (.op (.cmp d v)))
  (hjump : (code prog)[pc + 1]? = some (.jump (.jcc cond) l))

include hcmp hjump

/-- A comparison whose condition holds jumps, -/
theorem executes_cmp_taken (htarget : target l prog = some t)
    (hholds : cond.holds (subFlags (c.get d) (c.value v)) = true) :
    Executes (asmStep prog) ⟨c, pc⟩ ⟨c.compared d v, t⟩ :=
  .head (next_op hcmp rfl) (.single (next_jcc_taken hjump htarget rfl hholds))

/-- and otherwise goes on. -/
theorem executes_cmp_skipped
    (hholds : cond.holds (subFlags (c.get d) (c.value v)) = false) :
    Executes (asmStep prog) ⟨c, pc⟩ ⟨c.compared d v, pc + 2⟩ :=
  .head (next_op hcmp rfl) (.single (next_jcc_skipped hjump rfl hholds))

end Comparisons

/-- `loop` goes back unless the counter reaches zero. -/
theorem next_loop_taken (hcode : (code prog)[pc]? = some (.jump .loop l))
    (htarget : target l prog = some t) (hcount : c.reg .rcx - 1 ≠ 0) :
    Next (asmStep prog) ⟨c, pc⟩ ⟨c.countDown, t⟩ :=
  next_taken hcode htarget (by simp only [machine, Jump.taken, hcount, ne_eq, not_false_eq_true,
    decide_true])

/-- `loop` goes back while passes are left: it counts them in `rcx`. -/
theorem branch_loop (hn : n < 2 ^ 64) (hm : m < n) (hcount : c.reg .rcx = .ofNat 64 (n - m)) :
    machine.branch .loop c = .ok (decide (m + 1 < n), c.countDown) ∧
      c.countDown.reg .rcx = .ofNat 64 (n - (m + 1)) := by
  have hnext : c.reg .rcx - 1 = .ofNat 64 (n - (m + 1)) := by
    rw [hcount]
    apply BitVec.eq_of_toNat_eq
    have hone : (1 : BitVec 64).toNat = 1 := rfl
    simp only [BitVec.toNat_sub, BitVec.toNat_ofNat, hone]
    omega
  have hleft : c.reg .rcx - 1 ≠ 0 ↔ m + 1 < n := by
    have hzero : (0 : BitVec 64).toNat = 0 := rfl
    rw [hnext, ne_eq, BitVec.toNat_eq.not, hzero, BitVec.toNat_ofNat]
    omega
  refine ⟨?_, by rw [Cpu.reg_countDown, hnext]⟩
  simp only [machine, Jump.taken, hleft]

/-- A `loop` whose passes keep the counter and an invariant makes as many passes as it counts. -/
theorem executes_counted {I : ℕ → Cpu → Prop} {e : ℕ}
    (hcode : (code prog)[e]? = some (.jump .loop l)) (htarget : target l prog = some t)
    (hpass : ∀ i < n, ∀ c, I i c → ∃ c₁, Executes (asmStep prog) ⟨c, t⟩ ⟨c₁, e⟩ ∧
      c₁.reg .rcx = c.reg .rcx ∧ I (i + 1) c₁.countDown)
    (hpos : 0 < n) (hn : n < 2 ^ 64) (hcount : c.reg .rcx = .ofNat 64 n) (hinit : I 0 c) :
    ∃ c', Executes (asmStep prog) ⟨c, t⟩ ⟨c', e + 1⟩ ∧ I n c' := by
  have hpass' : ∀ i < n, ∀ c : Cpu, c.reg .rcx = .ofNat 64 (n - i) ∧ I i c → ∃ c₁ c₂,
      Executes (asmStep prog) ⟨c, t⟩ ⟨c₁, e⟩ ∧
        machine.branch .loop c₁ = .ok (decide (i + 1 < n), c₂) ∧
        c₂.reg .rcx = .ofNat 64 (n - (i + 1)) ∧ I (i + 1) c₂ := by
    rintro i hi c ⟨hcount, hinv⟩
    obtain ⟨c₁, hexec, hkept, hinv'⟩ := hpass i hi c hinv
    obtain ⟨hbranch, hcount'⟩ := branch_loop hn hi (hkept.trans hcount)
    exact ⟨c₁, _, hexec, hbranch, hcount', hinv'⟩
  obtain ⟨c', hexec, -, hinv⟩ := executes_loop hcode htarget hpass' hpos ⟨hcount, hinit⟩
  exact ⟨c', hexec, hinv⟩

end Programs

end UnixProgramming.Processor
