import UnixProgramming.Sdb.Patches

/-!
# Edits compose

While the tracee stays stopped, `break`, `delete` and `patch` are meant to leave the
memory as the patches alone would, with an `int3` at the active breakpoints. `break`
and `patch` always do. `delete` writes a whole saved word back, so it does exactly when
that word is still fresh.
-/

namespace UnixProgramming.Sdb

variable {γ δ : Type} {P : Program γ δ} {s s' : Session γ δ} {code : ByteMemory 64}
variable {out : List Output}

/-- A session together with the memory it stands for: the initial bytes overwritten by
the patches so far. -/
structure Edited (γ δ : Type) where
  session : Session γ δ
  logical : ByteMemory 64

/-- The logical memory after a command. -/
def logicalAfter (logical : ByteMemory 64) : Command → ByteMemory 64
  | .patch addr value len _ => logical.overwrite addr value len
  | _ => logical

/-- A `break`, `delete` or `patch` command that comes back to the prompt. -/
def EditStep (P : Program γ δ) (e : Edited γ δ) (c : Command) (e' : Edited γ δ) : Prop :=
  c.edits = true ∧ Step P e.session c e'.session ∧ e'.logical = logicalAfter e.logical c

/-- The edits of a program that has just been loaded. -/
def Edited.load (mem : ByteMemory 64) (regs : Regs γ) (data : δ) : Edited γ δ :=
  ⟨.load mem regs data, mem⟩

/-- The memory is the logical memory with `0xCC` at exactly the addresses of the active
breakpoints. -/
structure Composed (e : Edited γ δ) : Prop where
  trap : ∀ a, e.session.ActiveAt a → e.session.mem a = 0xcc#8
  logical : ∀ a, ¬e.session.ActiveAt a → e.session.mem a = e.logical a

/-- What the table of breakpoints says about the logical memory. -/
structure TableFits (s : Session γ δ) (code : ByteMemory 64) : Prop where
  distinct : ∀ i j, s.Active i → s.Active j → (s.breakpoints i).addr = (s.breakpoints j).addr →
    i = j
  saved : ∀ i, s.Active i → byteOf (s.breakpoints i).originalCode 0 = code (s.breakpoints i).addr
  trap : ∀ i < s.numBreakpoints, byteOf (s.breakpoints i).int3Code 0 = byteOf int3 0

/-- With no breakpoint lifted, a session is armed when its memory and its table are as
they should be. -/
theorem armed_iff {e : Edited γ δ} :
    Armed e.session none e.logical ↔ Composed e ∧ TableFits e.session e.logical := by
  rw [armed_none_iff]
  constructor
  · rintro ⟨hover, hplants⟩
    exact ⟨⟨hover.trap, hover.plain⟩, hover.distinct, hover.saved, hplants⟩
  · rintro ⟨hcomposed, htable⟩
    have hover : Overlaid e.session e.logical :=
      ⟨htable.distinct, hcomposed.trap, hcomposed.logical, htable.saved⟩
    exact ⟨hover, htable.trap⟩

/-- The logical memory and the active addresses determine the memory. -/
theorem Composed.mem_eq {e e' : Edited γ δ} (hcomposed : Composed e) (hcomposed' : Composed e')
    (hlogical : e'.logical = e.logical) {a : Addr}
    (hactive : e'.session.ActiveAt a ↔ e.session.ActiveAt a) :
    e'.session.mem a = e.session.mem a := by
  by_cases ha : e.session.ActiveAt a
  · rw [hcomposed.trap a ha, hcomposed'.trap a (hactive.mpr ha)]
  · rw [hcomposed.logical a ha, hcomposed'.logical a (mt hactive.mp ha), hlogical]

/-- Writing back a word leaves the memory as it is exactly when all of its bytes are there. -/
theorem poke_saved_eq_self {i : ℕ} (hinactive : (s.breakpoints i).active = false) :
    s.poke (s.breakpoints i).addr (s.breakpoints i).originalCode = s ↔ SavedFresh s i := by
  refine ⟨fun hsame => ?_, fun hfresh => poke_saved_inactive hfresh hinactive⟩
  have hbyte : ∀ k < 8, byteOf (s.breakpoints i).originalCode k =
      s.mem ((s.breakpoints i).addr + BitVec.ofNat 64 k) := by
    intro k hk
    have hmem := congrFun (congrArg Session.mem hsame) ((s.breakpoints i).addr + BitVec.ofNat 64 k)
    rw [← hmem]
    exact (ByteMemory.poke_add (n := 8) (by decide) hk).symm
  exact ⟨fun k _ hk => hbyte k hk, fun _ => by simpa using hbyte 0 (by decide)⟩

/-- Deleting an active breakpoint leaves the memory composed exactly when the saved word
is fresh. -/
theorem composed_withoutBp_iff {e e' : Edited γ δ} {i : ℕ} (hcomposed : Composed e)
    (htable : TableFits e.session e.logical) (hi : e.session.Active i)
    (hsession : e'.session = withoutBp e.session i) (hlogical : e'.logical = e.logical) :
    Composed e' ↔ SavedFresh e.session i := by
  have harmed := armed_iff.mpr ⟨hcomposed, htable⟩
  constructor
  · intro hcomposed'
    refine ⟨fun k hk hk' => ?_, fun hinactive => absurd hi.2 (by simp [hinactive])⟩
    have hne : (e.session.breakpoints i).addr + BitVec.ofNat 64 k ≠
        (e.session.breakpoints i).addr := by
      intro heq
      have hdist : (_ - _ : Addr).toNat = k :=
        ByteMemory.distance_add (e.session.breakpoints i).addr (by omega)
      rw [heq, BitVec.sub_self, BitVec.toNat_zero] at hdist
      omega
    have hsame := hcomposed.mem_eq hcomposed' hlogical
      (a := (e.session.breakpoints i).addr + BitVec.ofNat 64 k) ?_
    · rw [← hsame, hsession]
      exact (ByteMemory.poke_add (n := 8) (by decide) hk').symm
    · rw [hsession]
      constructor
      · rintro ⟨j, hj, haddr⟩
        rw [(withoutBp_breakpoints _ _ _).1] at haddr
        exact ⟨j, (withoutBp_active.mp hj).1, haddr⟩
      · rintro ⟨j, hj, haddr⟩
        have hji : j ≠ i := fun heq => hne (by rw [← haddr, heq])
        exact ⟨j, withoutBp_active.mpr ⟨hj, hji⟩, by rwa [(withoutBp_breakpoints _ _ _).1]⟩
  · intro hfresh
    have harmed' : Armed e'.session none e'.logical := by
      rw [hsession, hlogical]
      exact harmed.withoutBp hi hfresh
    exact (armed_iff.mp harmed').1

/-- Writing back the word of an inactive breakpoint leaves the memory composed exactly
when that word is fresh. -/
theorem composed_poke_iff {e e' : Edited γ δ} {i : ℕ} (hcomposed : Composed e)
    (hinactive : (e.session.breakpoints i).active = false)
    (hsession : e'.session = e.session.poke (e.session.breakpoints i).addr
      (e.session.breakpoints i).originalCode) (hlogical : e'.logical = e.logical) :
    Composed e' ↔ SavedFresh e.session i := by
  rw [← poke_saved_eq_self hinactive, ← hsession]
  constructor
  · intro hcomposed'
    have hmem : e'.session.mem = e.session.mem :=
      funext fun a => hcomposed.mem_eq hcomposed' hlogical (by rw [hsession]; rfl)
    have htable : e'.session = { e.session with mem := e'.session.mem } := by
      rw [hsession]
      rfl
    rw [htable, hmem]
  · intro hsame
    obtain ⟨s, logical⟩ := e
    obtain ⟨s', logical'⟩ := e'
    simp only at hsame hlogical
    rw [hsame, hlogical]
    exact hcomposed

/-- One edit keeps the memory composed exactly when it deletes no stale word, and then the
table fits as well. -/
theorem composed_step {e e' : Edited γ δ} {c : Command} (hcomposed : Composed e)
    (htable : TableFits e.session e.logical) (hstep : EditStep P e c e') :
    (Composed e' ↔ DeletesFresh e.session c) ∧
      (Composed e' → TableFits e'.session e'.logical) := by
  have harmed := armed_iff.mpr ⟨hcomposed, htable⟩
  obtain ⟨hedit, ⟨steps, out, hok⟩, hlogical⟩ := hstep
  have hkept : Armed e'.session none e'.logical → DeletesFresh e.session c →
      (Composed e' ↔ DeletesFresh e.session c) ∧
        (Composed e' → TableFits e'.session e'.logical) := by
    intro harmed' hfresh
    obtain ⟨hcomposed', htable'⟩ := armed_iff.mp harmed'
    exact ⟨iff_of_true hcomposed' hfresh, fun _ => htable'⟩
  cases c with
  | resume r => cases hedit
  | brk a =>
    refine hkept ?_ trivial
    rw [hlogical]
    exact harmed.setBreakpoints hok
  | patch addr value len hlen =>
    refine hkept ?_ trivial
    simp only [perform, Except.ok.injEq] at hok
    rw [hlogical, show e'.session = (patchMemory e.session addr value len).2 by rw [hok]]
    exact harmed.patchMemory addr value hlen.2
  | delete id =>
    have hlogical' : e'.logical = e.logical := hlogical
    obtain ⟨hge, hsame⟩ | ⟨i, rfl, hi, ⟨hinactive, hsession⟩ | ⟨hactive, hsession⟩⟩ :=
      deleteBreakpoint_cases hok
    · refine hkept ?_ fun i hid hi => ?_
      · rw [hsame, hlogical']
        exact harmed
      · omega
    all_goals
      have hfresh : DeletesFresh e.session (.delete i) ↔ SavedFresh e.session i := by
        refine ⟨fun h => h i rfl hi, fun h j hij _ => ?_⟩
        rwa [show j = i by omega]
    · have hiff := composed_poke_iff hcomposed hinactive hsession hlogical'
      refine ⟨hiff.trans hfresh.symm, fun hcomposed' => ?_⟩
      rw [hsession, poke_saved_inactive (hiff.mp hcomposed') hinactive, hlogical']
      exact htable
    · have hiff := composed_withoutBp_iff hcomposed htable ⟨hi, hactive⟩ hsession hlogical'
      refine ⟨hiff.trans hfresh.symm, fun hcomposed' => ?_⟩
      rw [hsession, hlogical']
      have harmed' : Armed (withoutBp e.session i) none e.logical :=
        harmed.withoutBp ⟨hi, hactive⟩ (hiff.mp hcomposed')
      exact ⟨harmed'.distinct, harmed'.saved, harmed'.trap⟩

/-- For every initial memory and every sequence of `break`, `delete` and `patch`, the memory
is composed after each of them exactly when every `delete` of an existing number finds
its saved word fresh. -/
theorem composed_run_iff (mem : ByteMemory 64) (regs : Regs γ) (data : δ)
    {history : List (Edited γ δ × Command)} {e : Edited γ δ}
    (hrun : Run (.load mem regs data) (EditStep P) history e) :
    Throughout Composed history e ↔ EachStep (fun e c => DeletesFresh e.session c) history := by
  have hinit := armed_iff (e := Edited.load mem regs data).mp (armed_load mem regs data)
  exact hrun.throughout_iff (J := fun e => TableFits e.session e.logical) ⟨hinit.2, hinit.1⟩
    fun _ _ _ htable hcomposed hstep => composed_step hcomposed htable hstep

/-- Edits that come back to the prompt one after another are a run. -/
theorem reachable_edits {init e : Edited γ δ} {steps : ℕ} {cs : List Command}
    (hedits : ∀ c ∈ cs, c.edits = true) (hok : script P steps e.session cs = .ok s')
    (hreach : Reachable init (EditStep P) e) :
    Reachable init (EditStep P) ⟨s', cs.foldl logicalAfter e.logical⟩ := by
  induction cs generalizing e with
  | nil =>
    obtain rfl : e.session = s' := Except.ok.inj hok
    exact hreach
  | cons c cs ih =>
    obtain ⟨s₁, hstep, hrest⟩ := script_cons hok
    exact ih (e := ⟨s₁, logicalAfter e.logical c⟩)
      (fun c' hc' => hedits c' (List.mem_cons_of_mem c hc')) hrest
      (hreach.step ⟨hedits c List.mem_cons_self, hstep, rfl⟩)

/-- The sample program before its first edit. -/
def sampleEdited : Edited Unit Unit := .load (fun _ => 0) ⟨0, 0, 0, ()⟩ ()

/-- A session in which two breakpoints have been set and a byte between them patched. -/
def sampleEdits : Edited Unit Unit :=
  ⟨(patchMemory (withBp (withBp (sampleSession 0) 0) 0x10) 8 0x90 1).2,
    ByteMemory.overwrite (fun _ => 0) 8 0x90#64 1⟩

/-- Two breakpoints are set, a byte between them is patched, and the first one is deleted. -/
theorem composed_run_iff_break : ∃ history,
    history.map Prod.snd =
        [Command.delete 0, .patch 8 0x90 1 (by decide), .brk 0x10, .brk 0] ∧
      Run sampleEdited (EditStep sampleProgram) history
        ⟨withoutBp sampleEdits.session 0, sampleEdits.logical⟩ ∧
      Throughout Composed history ⟨withoutBp sampleEdits.session 0, sampleEdits.logical⟩ := by
  let e₁ : Edited Unit Unit := ⟨withBp (sampleSession 0) 0, fun _ => 0⟩
  let e₂ : Edited Unit Unit := ⟨withBp e₁.session 0x10, fun _ => 0⟩
  have hfirst : EditStep sampleProgram sampleEdited (.brk 0) e₁ := ⟨rfl, ⟨0, _, rfl⟩, rfl⟩
  have hsecond : EditStep sampleProgram e₁ (.brk 0x10) e₂ := ⟨rfl, ⟨0, _, rfl⟩, rfl⟩
  have hpatch : EditStep sampleProgram e₂ (.patch 8 0x90 1 (by decide)) sampleEdits :=
    ⟨rfl, ⟨0, _, rfl⟩, rfl⟩
  have hdelete : EditStep sampleProgram sampleEdits (.delete 0)
      ⟨withoutBp sampleEdits.session 0, sampleEdits.logical⟩ := ⟨rfl, ⟨0, _, rfl⟩, rfl⟩
  have hrun := Run.step (Run.step (Run.step (Run.step .start hfirst) hsecond) hpatch) hdelete
  refine ⟨_, rfl, hrun, (composed_run_iff _ _ _ hrun).mpr ?_⟩
  have hfresh : SavedFresh sampleEdits.session 0 := by
    refine ⟨?_, ?_⟩
    · intro k hpos hlt
      interval_cases k <;> decide
    · intro hinactive
      exact absurd hinactive (by decide)
  simp only [eachStep_cons, eachStep_nil, DeletesFresh, and_true]
  rintro i hi -
  obtain rfl : i = 0 := by omega
  exact hfresh

/-- Two breakpoints at neighbouring addresses, the first of which is deleted: the second
one is no longer in memory. -/
theorem not_composed_neighbours :
    ¬∀ e, Reachable sampleEdited (EditStep sampleProgram) e → Composed e := by
  intro hall
  let cs : List Command := [.brk 0, .brk 1, .delete 0]
  obtain ⟨s, hok⟩ := exists_ok_of_isSome
    (show (script sampleProgram 0 sampleEdited.session cs).toOption.isSome = true by decide)
  have hmem : (script sampleProgram 0 sampleEdited.session cs).toOption.map
      (fun s => (s.mem 1, (s.breakpoints 1).addr, (s.breakpoints 1).active, s.numBreakpoints)) =
        some (0, 1, true, 2) := by decide
  rw [hok] at hmem
  simp only [Except.toOption, Option.map_some, Option.some.injEq, Prod.mk.injEq] at hmem
  obtain ⟨hmem, haddr, hactive, hnum⟩ := hmem
  have hcomposed := hall _ (reachable_edits (by simp [cs, Command.edits]) hok reachable_init)
  have htrap := hcomposed.trap 1 ⟨1, ⟨by simp [hnum], hactive⟩, haddr⟩
  simp only [hmem] at htrap
  exact absurd htrap (by decide)

/-! ## Deleting nothing -/

/-- Deleting a deleted breakpoint once more changes nothing exactly when its saved word is
still in memory. -/
theorem deleteBreakpoint_twice_iff {i : ℕ} (hi : i < s.numBreakpoints)
    (hinactive : (s.breakpoints i).active = false) :
    deleteBreakpoint s i = .ok ([.doesNotExist i], s) ↔ SavedFresh s i := by
  rw [← poke_saved_eq_self hinactive]
  unfold deleteBreakpoint
  rw [if_neg (by omega), if_neg (by omega)]
  simp only [Int.toNat_natCast, hinactive, if_true, Except.ok.injEq, Prod.mk.injEq, true_and]

/-- For every session and every number that no active breakpoint has: `delete_breakpoint`
reports that there is none and changes nothing exactly when the number is too large, or is
that of a deleted breakpoint whose saved word is still in memory. -/
theorem deleteBreakpoint_nothing_iff (s : Session γ δ) (id : ℤ)
    (hnone : ∀ i : ℕ, id = i → ¬s.Active i) :
    deleteBreakpoint s id = .ok ([.doesNotExist id], s) ↔
      (s.numBreakpoints : ℤ) ≤ id ∨ ∃ i : ℕ, id = i ∧ SavedFresh s i := by
  by_cases hge : id ≥ s.numBreakpoints
  · unfold deleteBreakpoint
    rw [if_pos hge]
    exact iff_of_true rfl (.inl hge)
  by_cases hneg : id < 0
  · unfold deleteBreakpoint
    rw [if_neg hge, if_pos hneg]
    apply iff_of_false (by simp)
    rintro (hle | ⟨i, rfl, _⟩) <;> omega
  obtain ⟨i, rfl⟩ : ∃ i : ℕ, id = i := ⟨id.toNat, by omega⟩
  have hi : i < s.numBreakpoints := by omega
  have hinactive : (s.breakpoints i).active = false := by
    by_contra hactive
    exact hnone i rfl ⟨hi, by simpa using hactive⟩
  rw [deleteBreakpoint_twice_iff hi hinactive]
  constructor
  · exact fun hfresh => .inr ⟨i, rfl, hfresh⟩
  · rintro (hle | ⟨j, hj, hfresh⟩)
    · exact absurd hle hge
    · obtain rfl : i = j := by omega
      exact hfresh

/-- The first of two breakpoints is deleted once more, after a byte between them was patched. -/
theorem deleteBreakpoint_nothing_again :
    deleteBreakpoint (withoutBp sampleEdits.session 0) 0 =
      .ok ([.doesNotExist 0], withoutBp sampleEdits.session 0) := by
  refine (deleteBreakpoint_nothing_iff _ 0 ?_).mpr (.inr ⟨0, rfl, ?_, ?_⟩)
  · rintro i hi hactive
    obtain rfl : i = 0 := by omega
    exact absurd hactive.2 (by decide)
  · intro k hpos hlt
    interval_cases k <;> decide
  · exact fun _ => by decide

/-- A byte that is patched after a breakpoint at the address before it has been deleted: when
this is deleted once more, the patch is lost. -/
theorem not_deleteBreakpoint_nothing :
    ¬∀ e, Reachable sampleEdited (EditStep sampleProgram) e → ∀ id : ℤ,
      (∀ i : ℕ, id = i → ¬e.session.Active i) →
        deleteBreakpoint e.session id = .ok ([.doesNotExist id], e.session) := by
  intro hall
  let cs : List Command := [.brk 0, .delete 0, .patch 1 0xab 1 (by decide)]
  obtain ⟨s, hok⟩ := exists_ok_of_isSome
    (show (script sampleProgram 0 sampleEdited.session cs).toOption.isSome = true by decide)
  have hvalues : (script sampleProgram 0 sampleEdited.session cs).toOption.map
      (fun s => (s.mem 1, byteOf (s.breakpoints 0).originalCode 1, (s.breakpoints 0).addr,
        (s.breakpoints 0).active, s.numBreakpoints)) = some (0xab, 0, 0, false, 1) := by decide
  rw [hok] at hvalues
  simp only [Except.toOption, Option.map_some, Option.some.injEq, Prod.mk.injEq] at hvalues
  obtain ⟨hmem, hsaved, haddr, hactive, hnum⟩ := hvalues
  have hinactive : ∀ i : ℕ, (0 : ℤ) = i → ¬s.Active i := by
    rintro i hi hbp
    obtain rfl : i = 0 := by omega
    exact absurd hbp.2 (by simp [hactive])
  have hreach := reachable_edits (by simp [cs, Command.edits]) hok reachable_init
  have hnothing := hall _ hreach 0 hinactive
  have hfresh := ((deleteBreakpoint_twice_iff (s := s) (i := 0) (by omega) hactive).mp hnothing).1 1
    le_rfl (by decide)
  rw [hsaved, haddr] at hfresh
  have hzero : (0 : BitVec 8) = 0xab := hfresh.trans hmem
  exact absurd hzero (by decide)

end UnixProgramming.Sdb
