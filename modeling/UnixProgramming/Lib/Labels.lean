import UnixProgramming.Lib.Executions

/-!
# Programs with labels

An assembly program is a list of labels and instructions, and runs on a machine that says what
its operations do and which of its jumps are taken. A block of operations runs as a whole, a jump
goes where the machine says, and a loop runs by an invariant for each of its passes.
-/

namespace UnixProgramming.Labels

/-- What the operations of a machine do, and whether a jump is taken. -/
structure Machine (σ Op Jump φ : Type*) where
  exec : Op → σ → Except φ σ
  branch : Jump → σ → Except φ (Bool × σ)

/-- An instruction goes on to the next one, or may jump to a label. -/
inductive Instr (Op Jump L : Type*)
  | op (o : Op)
  | jump (j : Jump) (l : L)

/-- A line of a program. -/
inductive Line (Op Jump L : Type*)
  | label (l : L)
  | op (o : Op)
  | jump (j : Jump) (l : L)

/-- A jump to a label that the program does not have, or a fault of the machine. -/
inductive Fault (φ : Type*)
  | unknownLabel
  | machine (f : φ)

variable {σ Op Jump φ L : Type*}

/-- The instructions of a program. -/
def code : List (Line Op Jump L) → List (Instr Op Jump L)
  | [] => []
  | .label _ :: lines => code lines
  | .op o :: lines => .op o :: code lines
  | .jump j l :: lines => .jump j l :: code lines

/-- The number of the instruction that follows a label. -/
def target [DecidableEq L] (l : L) : List (Line Op Jump L) → Option ℕ
  | [] => none
  | .label l' :: lines => if l' = l then some 0 else target l lines
  | .op _ :: lines => (target l lines).map (· + 1)
  | .jump _ _ :: lines => (target l lines).map (· + 1)

/-- The machine and the number of the next instruction. -/
structure State (σ : Type*) where
  cpu : σ
  pc : ℕ

variable [DecidableEq L] (M : Machine σ Op Jump φ) (prog : List (Line Op Jump L))

/-- The effect of an instruction. -/
def Instr.exec (s : State σ) : Instr Op Jump L → Except (Fault φ) (State σ)
  | op o =>
    match M.exec o s.cpu with
    | .error f => .error (.machine f)
    | .ok c => .ok ⟨c, s.pc + 1⟩
  | jump j l =>
    match M.branch j s.cpu with
    | .error f => .error (.machine f)
    | .ok (true, c) =>
      match target l prog with
      | none => .error .unknownLabel
      | some pc => .ok ⟨c, pc⟩
    | .ok (false, c) => .ok ⟨c, s.pc + 1⟩

/-- One step of a program, which stops after its last instruction. -/
def step (s : State σ) : Option (Except (Fault φ) (State σ)) :=
  (code prog)[s.pc]?.map (Instr.exec M prog s)

/-- The effect of consecutive operations. -/
def runBlock (c : σ) : List Op → Except φ σ
  | [] => .ok c
  | o :: ops =>
    match M.exec o c with
    | .error f => .error f
    | .ok c' => runBlock c' ops

variable {M prog} {c c' : σ} {k t : ℕ} {o : Op} {ops : List Op} {j : Jump} {l : L}

theorem next_op (hcode : (code prog)[k]? = some (.op o)) (hexec : M.exec o c = .ok c') :
    Next (step M prog) ⟨c, k⟩ ⟨c', k + 1⟩ := by
  simp only [Next, step, hcode, Option.map_some, Instr.exec, hexec]

/-- A block runs as a whole. -/
theorem executes_block (ops : List Op) (hcode : ops.map .op <+: (code prog).drop k)
    (hrun : runBlock M c ops = .ok c') : Executes (step M prog) ⟨c, k⟩ ⟨c', k + ops.length⟩ := by
  induction ops generalizing c k with
  | nil =>
    obtain rfl : c = c' := Except.ok.inj hrun
    exact .refl _
  | cons o ops ih =>
    obtain ⟨rest, hrest⟩ := hcode
    have hfirst : (code prog)[k]? = some (.op o) := by
      rw [← List.head?_drop, ← hrest]
      rfl
    have hafter : ops.map .op <+: (code prog).drop (k + 1) := by
      rw [← List.tail_drop, ← hrest]
      exact ⟨rest, rfl⟩
    cases hexec : M.exec o c with
    | error f => simp [runBlock, hexec] at hrun
    | ok c₁ =>
      rw [List.length_cons, Nat.add_comm _ 1, ← Nat.add_assoc]
      exact .head (next_op hfirst hexec) (ih hafter (by simpa [runBlock, hexec] using hrun))

/-- A jump is taken when the machine says so, -/
theorem next_taken (hcode : (code prog)[k]? = some (.jump j l))
    (htarget : target l prog = some t) (hbranch : M.branch j c = .ok (true, c')) :
    Next (step M prog) ⟨c, k⟩ ⟨c', t⟩ := by
  simp only [Next, step, hcode, Option.map_some, Instr.exec, hbranch, htarget]

/-- and skipped otherwise. -/
theorem next_skipped (hcode : (code prog)[k]? = some (.jump j l))
    (hbranch : M.branch j c = .ok (false, c')) :
    Next (step M prog) ⟨c, k⟩ ⟨c', k + 1⟩ := by
  simp only [Next, step, hcode, Option.map_some, Instr.exec, hbranch]

/-- The loop rule: when each pass of a body keeps an invariant and the jump after it goes back
before all passes but the last, the loop ends with the invariant of the last pass. -/
theorem executes_loop {I : ℕ → σ → Prop} {n e : ℕ} (hcode : (code prog)[e]? = some (.jump j l))
    (htarget : target l prog = some t)
    (hpass : ∀ i < n, ∀ c, I i c → ∃ c₁ c₂, Executes (step M prog) ⟨c, t⟩ ⟨c₁, e⟩ ∧
      M.branch j c₁ = .ok (decide (i + 1 < n), c₂) ∧ I (i + 1) c₂)
    (hn : 0 < n) (hinit : I 0 c) :
    ∃ c', Executes (step M prog) ⟨c, t⟩ ⟨c', e + 1⟩ ∧ I n c' := by
  -- a pass that is not the last one leaves fewer passes
  have hrest : ∀ r i, i + (r + 1) = n → ∀ c, I i c →
      ∃ c', Executes (step M prog) ⟨c, t⟩ ⟨c', e + 1⟩ ∧ I n c' := by
    intro r
    induction r with
    | zero =>
      intro i hi c hinv
      obtain ⟨c₁, c₂, hexec, hbranch, hinv'⟩ := hpass i (hi ▸ i.lt_succ_self) c hinv
      rw [hi, decide_eq_false (Nat.lt_irrefl n)] at hbranch
      exact ⟨c₂, hexec.trans (.single (next_skipped hcode hbranch)), hi ▸ hinv'⟩
    | succ r ih =>
      intro i hi c hinv
      have hlt : i + 1 < n := by omega
      obtain ⟨c₁, c₂, hexec, hbranch, hinv'⟩ := hpass i (Nat.lt_of_succ_lt hlt) c hinv
      rw [decide_eq_true hlt] at hbranch
      obtain ⟨c', hexec', hlast⟩ := ih (i + 1) (by omega) c₂ hinv'
      exact ⟨c', hexec.trans (.head (next_taken hcode htarget hbranch) hexec'), hlast⟩
  exact hrest (n - 1) 0 (by omega) c hinit

end UnixProgramming.Labels
