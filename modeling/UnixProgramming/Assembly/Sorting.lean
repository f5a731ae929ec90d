import UnixProgramming.Lib.ProcessorRules

/-!
# The bubble sort

`02.s` counts both of its loops in `ecx`. The inner loop always leaves zero there, so the
outer `loop` wraps the counter around and jumps, whatever the ten words are. The next pass
starts below the array, and the program never halts.
-/

namespace UnixProgramming.Assembly

open Labels Processor

/-- The labels of `02.s`. -/
inductive SortLabel
  | L1 | L2 | bubble | exit
  deriving DecidableEq

/-- `02.s`. -/
def sortProgram : List (AsmLine SortLabel) :=
  [.op (.lea .esi (absolute 0x600000)),
   .op (.mov .ecx (.imm 10)),
   .label .L1,
   .op (.mov .edi (.reg .esi)),
   .op (.mov .ecx (.imm 9)),
   .label .L2,
   .op (.load .eax ⟨some .edi, 0⟩),
   .op (.load .ebx ⟨some .edi, 4⟩),
   .op (.cmp .eax (.reg .ebx)),
   .jump (.jcc .g) .bubble,
   .op (.add .edi (.imm 4)),
   .jump .loop .L2,
   .op (.sub .esi (.imm 4)),
   .jump .loop .L1,
   .jump .jmp .exit,
   .label .bubble,
   .op (.mov .edx (.reg .eax)),
   .op (.mov .eax (.reg .ebx)),
   .op (.mov .ebx (.reg .edx)),
   .op (.store ⟨some .edi, 0⟩ (.reg .eax)),
   .op (.store ⟨some .edi, 4⟩ (.reg .ebx)),
   .jump .jmp .L2,
   .label .exit]

/-- The addresses of the ten words. -/
def wordAddresses : List (BitVec 64) := (List.range 10).map fun i => 0x600000 + .ofNat 64 (4 * i)

/-- The contents of the ten words. -/
def sortWords (c : Cpu) : List (BitVec 32) := wordAddresses.map c.dword

/-- The program halts after accessing the ten words only, and leaves them in ascending
signed order. -/
def SortsInPlace (c : Cpu) : Prop :=
  ∃ s', HaltsIn (asmStep sortProgram) ⟨c, 0⟩ s' ∧
    (∀ s, Executes (asmStep sortProgram) ⟨c, 0⟩ s →
      ∀ a ∈ accesses sortProgram s, a ∈ wordAddresses) ∧
    (sortWords s'.cpu).Pairwise (fun v w => v.toInt ≤ w.toInt) ∧
    (sortWords s'.cpu).Perm (sortWords c)

variable {c : Cpu} {s' : State Cpu}

/-- The first word of the pair that the inner loop compares, -/
def first (c : Cpu) : BitVec 32 := c.dword (c.address ⟨some .edi, 0⟩)

/-- and the second. -/
def second (c : Cpu) : BitVec 32 := c.dword (c.address ⟨some .edi, 4⟩)

/-- The counter and the base pointer are the same. -/
structure SameLoop (c c' : Cpu) : Prop where
  counter : c'.reg .rcx = c.reg .rcx
  base : c'.get .esi = c.get .esi

theorem SameLoop.trans {c₁ c₂ c₃ : Cpu} (h₁ : SameLoop c₁ c₂) (h₂ : SameLoop c₂ c₃) :
    SameLoop c₁ c₃ := ⟨h₂.counter.trans h₁.counter, h₂.base.trans h₁.base⟩

/-- The two words of a pair do not overlap. -/
theorem pair_apart (c : Cpu) :
    4 ≤ (c.address ⟨some .edi, 0⟩ - c.address ⟨some .edi, 4⟩).toNat ∧
      4 ≤ (c.address ⟨some .edi, 4⟩ - c.address ⟨some .edi, 0⟩).toNat := by
  let edi : BitVec 32 := c.get .edi
  have hlt := edi.isLt
  have haddress (disp : BitVec 32) :
      (c.address ⟨some .edi, disp⟩).toNat = (edi.toNat + disp.toNat) % 2 ^ 32 := by
    have hsum : c.address ⟨some .edi, disp⟩ = (edi + disp).setWidth 64 := rfl
    rw [hsum, BitVec.toNat_setWidth, BitVec.toNat_add]
    omega
  have hzero : (0 : BitVec 32).toNat = 0 := rfl
  have hfour : (4 : BitVec 32).toNat = 4 := rfl
  simp only [BitVec.toNat_sub, haddress, hzero, hfour]
  omega

/-- The pair is compared. -/
theorem executes_cmp (c : Cpu) : ∃ c', Executes (asmStep sortProgram) ⟨c, 4⟩ ⟨c', 7⟩ ∧
    c'.flags = some (subFlags (first c) (second c)) ∧ c'.get .eax = first c ∧
    c'.get .ebx = second c ∧ SameLoop c c' := by
  let c₁ := c.set .eax (first c)
  have hedi : c₁.address ⟨some .edi, 4⟩ = c.address ⟨some .edi, 4⟩ := by
    simp (disch := decide) [c₁, Cpu.address, Cpu.effective]
  let c₂ := c₁.set .ebx (c₁.dword (c₁.address ⟨some .edi, 4⟩))
  have hebx : c₂.get .ebx = second c := by
    rw [Cpu.get_set, hedi]
    rfl
  have heax : c₂.get .eax = first c := by simp (disch := decide) [c₂, c₁]
  refine ⟨c₂.compared .eax (.reg .ebx), executes_ops [.load .eax ⟨some .edi, 0⟩,
    .load .ebx ⟨some .edi, 4⟩, .cmp .eax (.reg .ebx)] ⟨_, rfl⟩, ?_, ?_, ?_, ?_⟩
  · rw [← hebx, ← heax]
    rfl
  · exact (Cpu.get_setFlags _ _ _).trans heax
  · exact (Cpu.get_setFlags _ _ _).trans hebx
  · exact ⟨by simp (disch := decide) [Cpu.compared, c₂, c₁],
      by simp (disch := decide) [Cpu.compared, c₂, c₁]⟩

/-- A pair in order is passed. -/
theorem executes_ordered (hordered : ¬(second c).toInt < (first c).toInt) :
    ∃ c', Executes (asmStep sortProgram) ⟨c, 4⟩ ⟨c', 9⟩ ∧ SameLoop c c' := by
  obtain ⟨c₁, hexec, hflags, _, _, hsame⟩ := executes_cmp c
  have hjg : Next (asmStep sortProgram) ⟨c₁, 7⟩ ⟨c₁, 8⟩ :=
    next_jcc_skipped (l := .bubble) rfl hflags
      ((holds_g_subFlags (by decide) _ _).trans (decide_eq_false hordered))
  have hadd : Executes (asmStep sortProgram) ⟨c₁, 8⟩ ⟨_, 9⟩ :=
    executes_ops [.add .edi (.imm 4)] ⟨_, rfl⟩
  refine ⟨_, hexec.trans (.head hjg hadd), hsame.trans ⟨?_, ?_⟩⟩
  · simp (disch := decide) [runOps, Op.effect, Cpu.result]
  · simp (disch := decide) [runOps, Op.effect, Cpu.result]

/-- The words of a pair are exchanged in the registers. -/
theorem executes_exchange (c : Cpu) : ∃ c', Executes (asmStep sortProgram) ⟨c, 13⟩ ⟨c', 16⟩ ∧
    c'.get .eax = c.get .ebx ∧ c'.get .ebx = c.get .eax ∧ SameLoop c c' := by
  refine ⟨_, executes_ops [.mov .edx (.reg .eax), .mov .eax (.reg .ebx),
    .mov .ebx (.reg .edx)] ⟨_, rfl⟩, ?_, ?_, ⟨?_, ?_⟩⟩
  all_goals simp (disch := decide) [runOps, Op.effect]

/-- A pair out of order is swapped and compared again. -/
theorem executes_swap (hswap : (second c).toInt < (first c).toInt) :
    ∃ c', Executes (asmStep sortProgram) ⟨c, 4⟩ ⟨c', 4⟩ ∧ first c' = second c ∧
      second c' = first c ∧ SameLoop c c' := by
  obtain ⟨c₁, hexec₁, hflags, heax₁, hebx₁, hsame₁⟩ := executes_cmp c
  have hjg : Next (asmStep sortProgram) ⟨c₁, 7⟩ ⟨c₁, 13⟩ :=
    next_jcc_taken (l := .bubble) rfl rfl hflags
      ((holds_g_subFlags (by decide) _ _).trans (decide_eq_true hswap))
  obtain ⟨c₂, hexec₂, heax₂, hebx₂, hsame₂⟩ := executes_exchange c₁
  let c₃ := c₂.store (k := 4) (c₂.address ⟨some .edi, 0⟩) (c₂.get .eax)
  have hstore₀ : Next (asmStep sortProgram) ⟨c₂, 16⟩ ⟨c₃, 17⟩ :=
    next_op (o := .store ⟨some .edi, 0⟩ (.reg .eax)) rfl rfl
  let c₄ := c₃.store (k := 4) (c₂.address ⟨some .edi, 4⟩) (c₂.get .ebx)
  have hstore₄ : Next (asmStep sortProgram) ⟨c₃, 17⟩ ⟨c₄, 18⟩ :=
    next_op (o := .store ⟨some .edi, 4⟩ (.reg .ebx)) rfl rfl
  have hjmp : Next (asmStep sortProgram) ⟨c₄, 18⟩ ⟨c₄, 4⟩ := next_jmp (l := .L2) rfl rfl
  have hexec := hexec₂.trans (.head hstore₀ (.head hstore₄ (.single hjmp)))
  refine ⟨c₄, hexec₁.trans (.head hjg hexec), ?_, ?_, hsame₁.trans (hsame₂.trans ⟨rfl, rfl⟩)⟩
  · have hapart : c₄.dword (c₂.address ⟨some .edi, 0⟩) = c₃.dword (c₂.address ⟨some .edi, 0⟩) :=
      Cpu.dword_store_of_apart (pair_apart c₂).1 (pair_apart c₂).2
    calc first c₄ = c₃.dword (c₂.address ⟨some .edi, 0⟩) := hapart
      _ = c₂.get .eax := Cpu.dword_store ..
      _ = second c := heax₂.trans hebx₁
  · calc second c₄ = c₂.get .ebx := Cpu.dword_store ..
      _ = first c := hebx₂.trans heax₁

/-- Every pair is passed. -/
theorem executes_pair (c : Cpu) :
    ∃ c', Executes (asmStep sortProgram) ⟨c, 4⟩ ⟨c', 9⟩ ∧ SameLoop c c' := by
  by_cases hswap : (second c).toInt < (first c).toInt
  · obtain ⟨c₁, hexec₁, hfirst, hsecond, hsame₁⟩ := executes_swap hswap
    obtain ⟨c₂, hexec₂, hsame₂⟩ := executes_ordered (c := c₁) (by rw [hfirst, hsecond]; omega)
    exact ⟨c₂, hexec₁.trans hexec₂, hsame₁.trans hsame₂⟩
  · exact executes_ordered hswap

/-- The inner loop makes its nine passes and ends with a counter of zero. -/
theorem executes_inner (hcount : c.reg .rcx = 9) :
    ∃ c', Executes (asmStep sortProgram) ⟨c, 4⟩ ⟨c', 10⟩ ∧ c'.reg .rcx = 0 ∧
      c'.get .esi = c.get .esi := by
  have hpass : ∀ i < 9, ∀ c₀ : Cpu,
      c₀.reg .rcx = .ofNat 64 (9 - i) ∧ c₀.get .esi = c.get .esi →
        ∃ c₁, Executes (asmStep sortProgram) ⟨c₀, 4⟩ ⟨c₁, 9⟩ ∧ c₁.reg .rcx = c₀.reg .rcx ∧
          c₁.countDown.reg .rcx = .ofNat 64 (9 - (i + 1)) ∧
          c₁.countDown.get .esi = c.get .esi := by
    rintro i hi c₀ ⟨hcount₀, hbase⟩
    obtain ⟨c₁, hexec, hsame⟩ := executes_pair c₀
    obtain ⟨-, hcount₁⟩ := branch_loop (by decide) hi (hsame.counter.trans hcount₀)
    refine ⟨c₁, hexec, hsame.counter, hcount₁, ?_⟩
    rw [Cpu.get_countDown_of_ne (by decide), hsame.base, hbase]
  exact executes_counted (l := .L2) rfl rfl hpass (by decide) (by decide) hcount ⟨hcount, rfl⟩

/-- The start of a pass. -/
theorem executes_start (c : Cpu) : ∃ c', Executes (asmStep sortProgram) ⟨c, 2⟩ ⟨c', 4⟩ ∧
    c'.reg .rcx = 9 ∧ c'.get .esi = c.get .esi ∧ c'.get .edi = c.get .esi := by
  refine ⟨_, executes_ops [.mov .edi (.reg .esi), .mov .ecx (.imm 9)] ⟨_, rfl⟩, ?_, ?_, ?_⟩
  · simp [runOps, Op.effect, Cpu.set]
  · simp (disch := decide) [runOps, Op.effect]
  · simp (disch := decide) [runOps, Op.effect]

/-- A pass is followed by another one, four bytes below. -/
theorem proceeds_pass (c : Cpu) : ∃ c', Proceeds (asmStep sortProgram) ⟨c, 2⟩ ⟨c', 2⟩ ∧
    c'.get .esi = c.get .esi - 4 := by
  obtain ⟨c₁, hexec₁, hcount₁, hbase₁, _⟩ := executes_start c
  obtain ⟨c₂, hexec₂, hcount₂, hbase₂⟩ := executes_inner hcount₁
  let c₃ := runOps c₂ [.sub .esi (.imm 4)]
  have hsub : Executes (asmStep sortProgram) ⟨c₂, 10⟩ ⟨c₃, 11⟩ := executes_ops _ ⟨_, rfl⟩
  have hcount₃ : c₃.reg .rcx = 0 := by
    rw [← hcount₂]
    simp (disch := decide) [c₃, runOps, Op.effect, Cpu.result]
  have hloop : Next (asmStep sortProgram) ⟨c₃, 11⟩ ⟨c₃.countDown, 2⟩ :=
    next_loop_taken (l := .L1) rfl rfl (by rw [hcount₃]; decide)
  refine ⟨_, (hexec₁.trans (hexec₂.trans hsub)).proceeds hloop, ?_⟩
  rw [Cpu.get_countDown_of_ne (by decide), ← hbase₁, ← hbase₂]
  simp [c₃, runOps, Op.effect, Cpu.result]

/-- The first pass starts at the array. -/
theorem executes_first (c : Cpu) :
    ∃ c', Executes (asmStep sortProgram) ⟨c, 0⟩ ⟨c', 2⟩ ∧ c'.get .esi = 0x600000 := by
  refine ⟨_, executes_ops [.lea .esi (absolute 0x600000), .mov .ecx (.imm 10)] ⟨_, rfl⟩, ?_⟩
  simp (disch := decide) [runOps, Op.effect, Cpu.effective, absolute]

/-- The program never halts, -/
theorem not_haltsIn_sort : ¬HaltsIn (asmStep sortProgram) ⟨c, 0⟩ s' := by
  obtain ⟨c₁, hexec, _⟩ := executes_first c
  rw [hexec.haltsIn_iff]
  refine not_haltsIn_of_returns (I := fun s => s.pc = 2) ?_ rfl
  rintro ⟨c₂, _⟩ rfl
  obtain ⟨c₃, hproceeds, _⟩ := proceeds_pass c₂
  exact ⟨_, hproceeds, rfl⟩

/-- and its second pass reads the word below the array. -/
theorem accesses_below (c : Cpu) : ∃ s, Executes (asmStep sortProgram) ⟨c, 0⟩ s ∧
    0x5ffffc ∈ accesses sortProgram s := by
  obtain ⟨c₁, hexec₁, hbase₁⟩ := executes_first c
  obtain ⟨c₂, hproceeds, hbase₂⟩ := proceeds_pass c₁
  obtain ⟨c₃, hexec₃, _, _, hedi⟩ := executes_start c₂
  refine ⟨_, hexec₁.trans (.trans hproceeds.to_reflTransGen hexec₃), ?_⟩
  have haddress : c₃.address ⟨some .edi, 0⟩ = 0x5ffffc := by
    simp only [Cpu.address, Cpu.effective, Option.elim, hedi, hbase₂, hbase₁]
    decide
  rw [← haddress]
  exact List.mem_singleton_self _

/-- The program sorts no contents of the ten words: it does not halt, and it leaves the
array. -/
theorem not_sortsInPlace (c : Cpu) : ¬SortsInPlace c := by
  rintro ⟨s', hhalts, _⟩
  exact not_haltsIn_sort hhalts

/-- Also ten zero words, which are in order, are not left alone. -/
theorem not_sortsInPlace_zero : ¬∀ c, SortsInPlace c := by
  intro hall
  obtain ⟨_, _, hwords, _⟩ := hall ⟨fun _ => 0, none, fun _ => 0⟩
  obtain ⟨s, hexec, hbelow⟩ := accesses_below ⟨fun _ => 0, none, fun _ => 0⟩
  exact absurd (hwords s hexec _ hbelow) (by decide)

end UnixProgramming.Assembly
