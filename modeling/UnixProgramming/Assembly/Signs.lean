import UnixProgramming.Lib.ProcessorRules

/-!
# The sign test

`17.s` stores the sign of each of four registers. The code for a non-negative last
register is followed by the code for a negative first one, which overwrites the first
word and starts over at the second register. The program therefore does what it is
written for exactly when the last register is negative.
-/

namespace UnixProgramming.Assembly

open Labels Processor

/-- The labels of `17.s`. -/
inductive SignLabel
  | var2 | var3 | var4 | notVar1 | notVar2 | notVar3 | notVar4
  deriving DecidableEq

/-- `17.s`. -/
def signProgram : List (AsmLine SignLabel) :=
  [.op (.cmp .eax (.imm 0)),
   .jump (.jcc .l) .notVar1,
   .op (.store (absolute 0x600000) (.imm 1 : Value 4)),
   .label .var2,
   .op (.cmp .ebx (.imm 0)),
   .jump (.jcc .l) .notVar2,
   .op (.store (absolute 0x600004) (.imm 1 : Value 4)),
   .label .var3,
   .op (.cmp .ecx (.imm 0)),
   .jump (.jcc .l) .notVar3,
   .op (.store (absolute 0x600008) (.imm 1 : Value 4)),
   .label .var4,
   .op (.cmp .edx (.imm 0)),
   .jump (.jcc .l) .notVar4,
   .op (.store (absolute 0x60000c) (.imm 1 : Value 4)),
   .label .notVar1,
   .op (.store (absolute 0x600000) (.imm (-1) : Value 4)),
   .jump .jmp .var2,
   .label .notVar2,
   .op (.store (absolute 0x600004) (.imm (-1) : Value 4)),
   .jump .jmp .var3,
   .label .notVar3,
   .op (.store (absolute 0x600008) (.imm (-1) : Value 4)),
   .jump .jmp .var4,
   .label .notVar4,
   .op (.store (absolute 0x60000c) (.imm (-1) : Value 4))]

/-- The word that stands for the sign of a register. -/
def signWord (v : BitVec 32) : BitVec 32 := if v.toInt < 0 then -1 else 1

/-- The registers with the addresses of their words. -/
def signOutputs : List (Reg 4 × BitVec 32) :=
  [(.eax, 0x600000), (.ebx, 0x600004), (.ecx, 0x600008), (.edx, 0x60000c)]

/-- The program halts with the sign of each register in its word. -/
def StoresSigns (c : Cpu) : Prop :=
  ∃ s', HaltsIn (asmStep signProgram) ⟨c, 0⟩ s' ∧
    ∀ x ∈ signOutputs, s'.cpu.dword (x.2.setWidth 64) = signWord (c.get x.1)

variable {c c' c₀ : Cpu} {r : Reg 4} {a b : BitVec 32} {k n : ℕ} {l : SignLabel} {s' : State Cpu}

/-- The registers are those of `c₀`, and each listed word holds the sign of its register. -/
def Stored (c₀ c : Cpu) (xs : List (Reg 4 × BitVec 32)) : Prop :=
  c.reg = c₀.reg ∧ ∀ x ∈ xs, c.dword (x.2.setWidth 64) = signWord (c₀.get x.1)

/-- Two words do not overlap. -/
def Apart (a b : BitVec 32) : Prop :=
  4 ≤ (a.setWidth 64 - b.setWidth 64).toNat ∧ 4 ≤ (b.setWidth 64 - a.setWidth 64).toNat

instance : Decidable (Apart a b) := inferInstanceAs (Decidable (_ ∧ _))

/-- Storing the sign of one more register keeps the words that are apart from its word. -/
theorem Stored.store {xs : List (Reg 4 × BitVec 32)} (hstored : Stored c₀ c xs)
    (hreg : c'.reg = c.reg)
    (hmem : c'.mem = (c.store (k := 4) (a.setWidth 64) (signWord (c.get r))).mem)
    (hapart : ∀ x ∈ xs, Apart x.2 a) : Stored c₀ c' ((r, a) :: xs) := by
  have hsame : c.get r = c₀.get r := Cpu.get_congr (congrFun hstored.1 _)
  have hword : ∀ b,
      c'.dword b = (c.store (k := 4) (a.setWidth 64) (signWord (c.get r))).dword b := by
    intro b
    simp only [Cpu.dword, hmem]
  refine ⟨hreg.trans hstored.1, List.forall_mem_cons.mpr ⟨?_, fun x hx => ?_⟩⟩
  · rw [hword, Cpu.dword_store, hsame]
  · rw [hword, Cpu.dword_store_of_apart (hapart x hx).1 (hapart x hx).2, hstored.2 x hx]

/-- The test of a register whose word is stored after a comparison with zero. -/
structure TestAt (k n : ℕ) (r : Reg 4) (a : BitVec 32) (l : SignLabel) : Prop where
  cmp : (code signProgram)[k]? = some (.op (.cmp r (.imm 0)))
  jl : (code signProgram)[k + 1]? = some (.jump (.jcc .l) l)
  positive : (code signProgram)[k + 2]? = some (.op (.store (absolute a) (.imm 1 : Value 4)))
  label : target l signProgram = some n
  negative : (code signProgram)[n]? = some (.op (.store (absolute a) (.imm (-1) : Value 4)))

/-- The registers and the memory after the sign of a register has been stored. -/
def StoresSign (c c' : Cpu) (r : Reg 4) (a : BitVec 32) : Prop :=
  c'.reg = c.reg ∧ c'.mem = (c.store (k := 4) (a.setWidth 64) (signWord (c.get r))).mem

/-- A register that is not negative is handled in place, -/
theorem TestAt.executes_nonneg (htest : TestAt k n r a l) (hr : ¬(c.get r).toInt < 0) :
    ∃ c', Executes (asmStep signProgram) ⟨c, k⟩ ⟨c', k + 3⟩ ∧ StoresSign c c' r a := by
  let c₁ := c.compared r (.imm 0)
  have htested : Executes (asmStep signProgram) ⟨c, k⟩ ⟨c₁, k + 2⟩ :=
    executes_cmp_skipped htest.cmp htest.jl
      ((holds_l_subFlags (by decide) _ _).trans (decide_eq_false hr))
  have hstore : Next (asmStep signProgram) ⟨c₁, k + 2⟩
      ⟨c₁.store (k := 4) (a.setWidth 64) 1, k + 3⟩ := by
    rw [← c₁.address_absolute a]
    exact next_op htest.positive rfl
  refine ⟨_, htested.trans (.single hstore), rfl, ?_⟩
  rw [signWord, if_neg hr]
  rfl

/-- and a negative one at its label. -/
theorem TestAt.executes_neg (htest : TestAt k n r a l) (hr : (c.get r).toInt < 0) :
    ∃ c', Executes (asmStep signProgram) ⟨c, k⟩ ⟨c', n + 1⟩ ∧ StoresSign c c' r a := by
  let c₁ := c.compared r (.imm 0)
  have htested : Executes (asmStep signProgram) ⟨c, k⟩ ⟨c₁, n⟩ :=
    executes_cmp_taken htest.cmp htest.jl htest.label
      ((holds_l_subFlags (by decide) _ _).trans (decide_eq_true hr))
  have hstore : Next (asmStep signProgram) ⟨c₁, n⟩
      ⟨c₁.store (k := 4) (a.setWidth 64) (-1), n + 1⟩ := by
    rw [← c₁.address_absolute a]
    exact next_op htest.negative rfl
  refine ⟨_, htested.trans (.single hstore), rfl, ?_⟩
  rw [signWord, if_pos hr]
  rfl

/-- The code at the label of a test that is not the last one jumps back behind the test. -/
theorem TestAt.executes {m : SignLabel} (htest : TestAt k n r a l)
    (hjmp : (code signProgram)[n + 1]? = some (.jump .jmp m))
    (htarget : target m signProgram = some (k + 3)) (c : Cpu) :
    ∃ c', Executes (asmStep signProgram) ⟨c, k⟩ ⟨c', k + 3⟩ ∧ StoresSign c c' r a := by
  by_cases hr : (c.get r).toInt < 0
  · obtain ⟨c', hexec, hstores⟩ := htest.executes_neg hr
    exact ⟨c', hexec.trans (.single (next_jmp hjmp htarget)), hstores⟩
  · exact htest.executes_nonneg hr

theorem testAt_eax : TestAt 0 12 .eax 0x600000 .notVar1 := ⟨rfl, rfl, rfl, rfl, rfl⟩

theorem testAt_ebx : TestAt 3 14 .ebx 0x600004 .notVar2 := ⟨rfl, rfl, rfl, rfl, rfl⟩

theorem testAt_ecx : TestAt 6 16 .ecx 0x600008 .notVar3 := ⟨rfl, rfl, rfl, rfl, rfl⟩

theorem testAt_edx : TestAt 9 18 .edx 0x60000c .notVar4 := ⟨rfl, rfl, rfl, rfl, rfl⟩

/-- From the second test on, the program comes to the last one with the words before it
stored. -/
theorem executes_to_var4 (hstored : Stored c₀ c [(.eax, 0x600000)]) :
    ∃ c', Executes (asmStep signProgram) ⟨c, 3⟩ ⟨c', 9⟩ ∧
      Stored c₀ c' [(.ecx, 0x600008), (.ebx, 0x600004), (.eax, 0x600000)] := by
  obtain ⟨c₁, hexec₁, hreg₁, hmem₁⟩ := testAt_ebx.executes (m := .var3) rfl rfl c
  obtain ⟨c₂, hexec₂, hreg₂, hmem₂⟩ := testAt_ecx.executes (m := .var4) rfl rfl c₁
  exact ⟨c₂, hexec₁.trans hexec₂, (hstored.store hreg₁ hmem₁ (by decide)).store hreg₂ hmem₂
    (by decide)⟩

/-- The first test comes before the others. -/
theorem executes_to_var2 (c : Cpu) :
    ∃ c', Executes (asmStep signProgram) ⟨c, 0⟩ ⟨c', 3⟩ ∧ Stored c c' [(.eax, 0x600000)] := by
  obtain ⟨c', hexec, hreg, hmem⟩ := testAt_eax.executes (m := .var2) rfl rfl c
  have hnone : Stored c c [] := ⟨rfl, by simp⟩
  exact ⟨c', hexec, hnone.store hreg hmem (by simp)⟩

/-- With a negative last register the program halts after the last test. -/
theorem haltsIn_of_neg (hneg : (c.get .edx).toInt < 0) : StoresSigns c := by
  obtain ⟨c₁, hexec₁, hstored₁⟩ := executes_to_var2 c
  obtain ⟨c₂, hexec₂, hstored₂⟩ := executes_to_var4 hstored₁
  have hedx : c₂.get .edx = c.get .edx := Cpu.get_congr (congrFun hstored₂.1 _)
  obtain ⟨c₃, hexec₃, hreg₃, hmem₃⟩ := testAt_edx.executes_neg (hedx ▸ hneg)
  have hstored₃ := hstored₂.store hreg₃ hmem₃ (by decide)
  have hall : signOutputs.reverse =
      [(.edx, 0x60000c), (.ecx, 0x600008), (.ebx, 0x600004), (.eax, 0x600000)] := rfl
  refine ⟨⟨c₃, 19⟩, ⟨hexec₁.trans (hexec₂.trans hexec₃), rfl⟩, fun x hx => ?_⟩
  exact hstored₃.2 x (hall ▸ List.mem_reverse.mpr hx)

/-- Otherwise it returns to the second test again and again. -/
theorem not_haltsIn_of_nonneg (hnonneg : ¬(c.get .edx).toInt < 0) :
    ¬HaltsIn (asmStep signProgram) ⟨c, 0⟩ s' := by
  obtain ⟨c₁, hexec₁, hreg₁, _⟩ := executes_to_var2 c
  rw [hexec₁.haltsIn_iff]
  refine not_haltsIn_of_returns (I := fun s => s.pc = 3 ∧ s.cpu.reg = c.reg) ?_ ⟨rfl, hreg₁⟩
  rintro ⟨c₂, _⟩ ⟨rfl, hreg₂ : c₂.reg = c.reg⟩
  obtain ⟨c₃, hexec₃, hreg₃, _⟩ := testAt_ebx.executes (m := .var3) rfl rfl c₂
  obtain ⟨c₄, hexec₄, hreg₄, _⟩ := testAt_ecx.executes (m := .var4) rfl rfl c₃
  have hedx : c₄.get .edx = c.get .edx :=
    Cpu.get_congr (congrFun (hreg₄.trans (hreg₃.trans hreg₂)) _)
  obtain ⟨c₅, hexec₅, hreg₅, _⟩ := testAt_edx.executes_nonneg (hedx ▸ hnonneg)
  -- the code of a negative first register follows
  have hstore : Next (asmStep signProgram) ⟨c₅, 12⟩
      ⟨c₅.store (k := 4) (c₅.address (absolute 0x600000)) (-1), 13⟩ :=
    next_op (o := .store (absolute 0x600000) (.imm (-1) : Value 4)) rfl rfl
  have hback := (hexec₃.trans (hexec₄.trans hexec₅)).trans (.single hstore)
  refine ⟨_, hback.proceeds (next_jmp (l := .var2) rfl rfl), rfl, ?_⟩
  exact hreg₅.trans (hreg₄.trans (hreg₃.trans hreg₂))

/-- The program stores the signs of all four registers exactly when the last one is
negative. -/
theorem storesSigns_iff (c : Cpu) : StoresSigns c ↔ (c.get .edx).toInt < 0 := by
  refine ⟨fun hstores => ?_, haltsIn_of_neg⟩
  obtain ⟨s', hhalts, _⟩ := hstores
  by_contra hnonneg
  exact not_haltsIn_of_nonneg hnonneg hhalts

/-- All registers zero. -/
def zeroCpu : Cpu := ⟨fun _ => 0, none, fun _ => 0⟩

/-- With four zero registers the program runs forever. -/
theorem not_storesSigns_zero : ¬∀ c, StoresSigns c := by
  intro hall
  obtain ⟨s', hhalts, _⟩ := hall zeroCpu
  exact not_haltsIn_of_nonneg (by decide) hhalts

end UnixProgramming.Assembly
