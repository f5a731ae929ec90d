import Mathlib.Tactic.LinearCombination
import UnixProgramming.Lib.ProcessorRules

/-!
# A linear recurrence

`18.s` computes `r(n) = 2 r(n - 1) + 3 r(n - 2)` in eight-byte registers for a number that is a
constant of the program. The values grow like powers of three, and from `n = 42` on they do not
fit.
-/

namespace UnixProgramming.Assembly

open Labels Processor

/-- The label of `18.s`. -/
inductive RecurrenceLabel
  | L
  deriving DecidableEq

/-- `18.s`, where `n` is `23`. -/
def recurrenceProgram (n : BitVec 64) : List (AsmLine RecurrenceLabel) :=
  [.op (.mov (.qword .rax) (.imm 1)),
   .op (.mov (.qword .rbx) (.imm 0)),
   .op (.mov (.qword .rdx) (.imm 2)),
   .label .L,
   .op (.mov (.qword .rcx) (.reg (.qword .rax))),
   .op (.add (.qword .rax) (.reg (.qword .rax))),
   .op (.add (.qword .rax) (.reg (.qword .rbx))),
   .op (.add (.qword .rax) (.reg (.qword .rbx))),
   .op (.add (.qword .rax) (.reg (.qword .rbx))),
   .op (.mov (.qword .rbx) (.reg (.qword .rcx))),
   .op (.inc (.qword .rdx)),
   .op (.cmp (.qword .rdx) (.imm n)),
   .jump (.jcc .le) .L]

/-- The function `r` of the comment in `18.s`. -/
def recurrence : ℕ → ℕ
  | 0 => 0
  | 1 => 1
  | n + 2 => 2 * recurrence (n + 1) + 3 * recurrence n

variable {c : Cpu} {n k : ℕ}

/-- The closed form. -/
theorem four_mul_recurrence (n : ℕ) : (4 * recurrence n : ℤ) = 3 ^ n - (-1) ^ n := by
  induction n using Nat.twoStepInduction with
  | zero => rfl
  | one => rfl
  | more n ih₀ ih₁ =>
    rw [recurrence]
    push_cast
    linear_combination 2 * ih₁ + 3 * ih₀

/-- The values never decrease. -/
theorem recurrence_le_succ (n : ℕ) : recurrence n ≤ recurrence (n + 1) := by
  cases n with
  | zero => decide
  | succ n =>
    rw [recurrence]
    omega

/-- The values fit into eight bytes up to `n = 41`. -/
theorem recurrence_lt_iff (n : ℕ) : recurrence n < 2 ^ 64 ↔ n ≤ 41 := by
  have hmono := monotone_nat_of_le_succ recurrence_le_succ
  have hlast := four_mul_recurrence 41
  have hnext := four_mul_recurrence 42
  norm_num at hlast hnext
  constructor
  · intro hlt
    by_contra hn
    have hle := hmono (show 42 ≤ n by omega)
    omega
  · intro hn
    have hle := hmono hn
    omega

/-- After `k` passes the registers hold two neighbouring values. -/
structure Neighbours (k : ℕ) (c : Cpu) : Prop where
  rax : c.reg .rax = .ofNat 64 (recurrence (k + 1))
  rbx : c.reg .rbx = .ofNat 64 (recurrence k)
  rdx : c.reg .rdx = .ofNat 64 (k + 2)

/-- The body of the loop up to the comparison. -/
theorem executes_values (bound : BitVec 64) (c : Cpu) : ∃ c',
    Executes (asmStep (recurrenceProgram bound)) ⟨c, 3⟩ ⟨c', 10⟩ ∧
      c'.reg .rax = c.reg .rax + c.reg .rax + c.reg .rbx + c.reg .rbx + c.reg .rbx ∧
      c'.reg .rbx = c.reg .rax ∧ c'.reg .rdx = c.reg .rdx + 1 := by
  refine ⟨_, executes_ops [.mov (.qword .rcx) (.reg (.qword .rax)),
    .add (.qword .rax) (.reg (.qword .rax)), .add (.qword .rax) (.reg (.qword .rbx)),
    .add (.qword .rax) (.reg (.qword .rbx)), .add (.qword .rax) (.reg (.qword .rbx)),
    .mov (.qword .rbx) (.reg (.qword .rcx)), .inc (.qword .rdx)] ⟨_, rfl⟩, ?_, ?_, ?_⟩
  · simp [runOps, Op.effect, Cpu.result, Cpu.set, Cpu.get, Cpu.value]
  · simp [runOps, Op.effect, Cpu.result, Cpu.set, Cpu.get, Cpu.value]
  · simp [runOps, Op.effect, Cpu.result, Cpu.set, Cpu.get, Cpu.value]

/-- A number below `2 ^ 63` is not negative as a quadword. -/
theorem toInt_ofNat (hk : k < 2 ^ 63) : (BitVec.ofNat 64 k).toInt = k := by
  have htoNat : (BitVec.ofNat 64 k).toNat = k := Nat.mod_eq_of_lt (by omega)
  rw [BitVec.toInt_eq_toNat_of_lt (by omega), htoNat]

/-- One pass of the loop. -/
theorem Neighbours.executes_pass (hn : n < 2 ^ 31) (hk : k < n - 1) (hinv : Neighbours k c) :
    ∃ c₁ c₂, Executes (asmStep (recurrenceProgram (.ofNat 64 n))) ⟨c, 3⟩ ⟨c₁, 11⟩ ∧
      machine.branch (.jcc .le) c₁ = .ok (decide (k + 1 < n - 1), c₂) ∧
      Neighbours (k + 1) c₂ := by
  obtain ⟨c₁, hexec, hrax, hrbx, hrdx⟩ := executes_values (.ofNat 64 n) c
  let c₂ := c₁.compared (.qword .rdx) (.imm (.ofNat 64 n))
  have hcmp : Next (asmStep (recurrenceProgram (.ofNat 64 n))) ⟨c₁, 10⟩ ⟨c₂, 11⟩ :=
    next_op rfl rfl
  have hrdx' : c₁.reg .rdx = .ofNat 64 (k + 3) := by
    rw [hrdx, hinv.rdx]
    exact (BitVec.ofNat_add _ _).symm
  have hflags : c₂.flags = some (subFlags (c₁.reg .rdx) (.ofNat 64 n)) := rfl
  have hle : Cond.le.holds (subFlags (c₁.reg .rdx) (.ofNat 64 n)) = decide (k + 1 < n - 1) := by
    rw [holds_le_subFlags (by decide), hrdx', toInt_ofNat (by omega), toInt_ofNat (by omega)]
    exact decide_eq_decide.mpr (by omega)
  refine ⟨c₂, c₂, hexec.trans (.single hcmp), ?_, ⟨?_, hrbx.trans hinv.rax, hrdx'⟩⟩
  · simp only [machine, Jump.taken, hflags, hle]
  · have hsum : recurrence (k + 2) = recurrence (k + 1) + recurrence (k + 1) + recurrence k +
        recurrence k + recurrence k := by
      rw [recurrence]
      ring
    rw [hsum]
    simp only [BitVec.ofNat_add, ← hinv.rax, ← hinv.rbx]
    exact hrax

/-- For `n` from two on, `18.s` halts with `r(n)` in `rax`, wrapped around to eight bytes. The
register holds `r(n)` itself exactly up to `n = 41`. -/
theorem recurrenceProgram_halts (hn : 2 ≤ n) (hn' : n < 2 ^ 31) (c : Cpu) :
    ∃ s', HaltsIn (asmStep (recurrenceProgram (.ofNat 64 n))) ⟨c, 0⟩ s' ∧
      s'.cpu.reg .rax = .ofNat 64 (recurrence n) ∧
      ((s'.cpu.reg .rax).toNat = recurrence n ↔ n ≤ 41) := by
  let c₁ := runOps c [.mov (.qword .rax) (.imm 1), .mov (.qword .rbx) (.imm 0),
    .mov (.qword .rdx) (.imm 2)]
  have hstart : Executes (asmStep (recurrenceProgram (.ofNat 64 n))) ⟨c, 0⟩ ⟨c₁, 3⟩ :=
    executes_ops _ ⟨_, rfl⟩
  have hinit : Neighbours 0 c₁ := ⟨rfl, rfl, rfl⟩
  obtain ⟨c', hloop, hinv⟩ := executes_loop (l := .L) rfl rfl
    (fun _ hk _ hinv => hinv.executes_pass hn' hk) (by omega) hinit
  have hrax : c'.reg .rax = .ofNat 64 (recurrence n) := by
    have hlast : n - 1 + 1 = n := by omega
    rw [hinv.rax, hlast]
  refine ⟨_, ⟨hstart.trans hloop, rfl⟩, hrax, ?_⟩
  rw [← recurrence_lt_iff, hrax, BitVec.toNat_ofNat]
  exact Nat.mod_eq_iff_lt (by decide)

/-- The source has the constant 23, for which the result does not overflow. -/
theorem recurrenceProgram_source : 2 ≤ 23 ∧ 23 < 2 ^ 31 ∧
    ∃ s', HaltsIn (asmStep (recurrenceProgram (.ofNat 64 23)))
      ⟨⟨fun _ => 0, none, fun _ => 0⟩, 0⟩ s' ∧
      s'.cpu.reg .rax = .ofNat 64 (recurrence 23) ∧
      ((s'.cpu.reg .rax).toNat = recurrence 23 ↔ 23 ≤ 41) :=
  ⟨by decide, by decide, recurrenceProgram_halts (by decide) (by decide) _⟩

end UnixProgramming.Assembly
