import UnixProgramming.Sdb.Debugger

/-!
# Planted breakpoints

The memory of the tracee is meant to be the code of the program with an `int3` at
every active breakpoint, except for the one that is lifted because the tracee stands
on it. `Armed` says this together with what has to be saved for it; the operations on
breakpoints keep it or move the lifted breakpoint.
-/

namespace UnixProgramming.Sdb

variable {γ δ : Type} {s s' s₁ : Session γ δ} {lifted : Option ℕ} {code : ByteMemory 64}
variable {a : Addr} {i j : ℕ} {out : List Output}

/-- Breakpoint `i` exists and is active. -/
def Session.Active (s : Session γ δ) (i : ℕ) : Prop :=
  i < s.numBreakpoints ∧ (s.breakpoints i).active = true

/-- Some active breakpoint has the address. -/
def Session.ActiveAt (s : Session γ δ) (a : Addr) : Prop :=
  ∃ i, s.Active i ∧ (s.breakpoints i).addr = a

instance (s : Session γ δ) (i : ℕ) : Decidable (s.Active i) :=
  inferInstanceAs (Decidable (_ ∧ _))

instance (s : Session γ δ) (a : Addr) : Decidable (s.ActiveAt a) :=
  decidable_of_iff (∃ i < s.numBreakpoints, s.Active i ∧ (s.breakpoints i).addr = a)
    ⟨fun ⟨i, _, hi⟩ => ⟨i, hi⟩, fun ⟨i, hi⟩ => ⟨i, hi.1.1, hi⟩⟩

/-- The memory is `code` with an `int3` at every active breakpoint that is not lifted.
No two active breakpoints share an address, and the saved words hold the bytes that
lifting and planting put into memory. -/
structure Armed (s : Session γ δ) (lifted : Option ℕ) (code : ByteMemory 64) : Prop where
  distinct : ∀ i j, s.Active i → s.Active j → (s.breakpoints i).addr = (s.breakpoints j).addr →
    i = j
  lifted_active : ∀ i, lifted = some i → s.Active i
  planted : ∀ i, s.Active i → lifted ≠ some i → s.mem (s.breakpoints i).addr = byteOf int3 0
  plain : ∀ a, (∀ i, s.Active i → (s.breakpoints i).addr = a → lifted = some i) →
    s.mem a = code a
  saved : ∀ i, s.Active i → byteOf (s.breakpoints i).originalCode 0 = code (s.breakpoints i).addr
  trap : ∀ i < s.numBreakpoints, byteOf (s.breakpoints i).int3Code 0 = byteOf int3 0

/-- The saved word of a breakpoint still agrees with the memory, except for the byte of
the breakpoint itself while it is active. -/
def SavedFresh (s : Session γ δ) (i : ℕ) : Prop :=
  (∀ k, 1 ≤ k → k < 8 → byteOf (s.breakpoints i).originalCode k =
    s.mem ((s.breakpoints i).addr + BitVec.ofNat 64 k)) ∧
  ((s.breakpoints i).active = false →
    byteOf (s.breakpoints i).originalCode 0 = s.mem (s.breakpoints i).addr)

/-- A `delete` of an existing number finds the saved word fresh. -/
def DeletesFresh (s : Session γ δ) : Command → Prop
  | .delete id => ∀ i : ℕ, id = i → i < s.numBreakpoints → SavedFresh s i
  | _ => True

theorem byteOf_int3 : byteOf int3 0 = 0xcc#8 := by decide

/-- The search finds an active breakpoint with the address, -/
theorem active_of_activeAt (hfind : s.activeAt a = some i) :
    s.Active i ∧ (s.breakpoints i).addr = a := by
  obtain ⟨hhit, hmem, _⟩ := List.find?_range_eq_some.mp hfind
  simp only [Bool.and_eq_true, decide_eq_true_eq] at hhit
  exact ⟨⟨List.mem_range.mp hmem, hhit.1⟩, hhit.2⟩

/-- and none exactly when there is none. -/
theorem activeAt_eq_none : s.activeAt a = none ↔ ¬s.ActiveAt a := by
  simp only [Session.activeAt, List.find?_range_eq_none, Session.ActiveAt, Session.Active]
  simp only [Bool.not_eq_true', Bool.and_eq_false_iff, decide_eq_false_iff_not]
  constructor
  · rintro hnone ⟨i, ⟨hi, hactive⟩, haddr⟩
    obtain h | h := hnone i hi
    · simp [hactive] at h
    · exact h haddr
  · intro hnone i hi
    by_contra hboth
    rw [not_or, not_not] at hboth
    exact hnone ⟨i, ⟨hi, by simpa using hboth.1⟩, hboth.2⟩

/-- `POKETEXT` of a word read with another lowest byte changes that byte only. -/
theorem pokeLow_mem (s : Session γ δ) (a : Addr) (v : Word) :
    (s.pokeLow a v).mem = Function.update s.mem a (byteOf v 0) :=
  ByteMemory.poke_withLow s.mem a v

/-- The entry says the same about memory as before: only the id and the flag of a
breakpoint may differ. -/
def Bp.SameCode (b b' : Bp) : Prop :=
  b'.addr = b.addr ∧ b'.active = b.active ∧ b'.originalCode = b.originalCode ∧
    b'.int3Code = b.int3Code

/-- A session with the same memory and a table that says the same about it is armed
as well. -/
theorem Armed.congr (harmed : Armed s lifted code) (hmem : s'.mem = s.mem)
    (hnum : s'.numBreakpoints = s.numBreakpoints)
    (hbps : ∀ i, (s.breakpoints i).SameCode (s'.breakpoints i)) : Armed s' lifted code := by
  have hactive : ∀ i, s'.Active i ↔ s.Active i := by
    intro i
    rw [Session.Active, Session.Active, hnum, (hbps i).2.1]
  have haddr := fun i => (hbps i).1
  obtain ⟨h₁, h₂, h₃, h₄, h₅, h₆⟩ := harmed
  refine ⟨?_, ?_, ?_, ?_, ?_, ?_⟩
  · simpa only [hactive, haddr] using h₁
  · simpa only [hactive] using h₂
  · simpa only [hactive, haddr, hmem] using h₃
  · simpa only [hactive, haddr, hmem] using h₄
  · simpa only [hactive, haddr, fun i => (hbps i).2.2.1] using h₅
  · simpa only [hnum, fun i => (hbps i).2.2.2] using h₆

/-- A session with the same memory and the same table is armed as well. -/
theorem Armed.of_eq (harmed : Armed s lifted code) (hmem : s'.mem = s.mem)
    (hnum : s'.numBreakpoints = s.numBreakpoints) (hbps : s'.breakpoints = s.breakpoints) :
    Armed s' lifted code :=
  harmed.congr hmem hnum fun i => by rw [hbps]; exact ⟨rfl, rfl, rfl, rfl⟩

/-- Only one active breakpoint has the address of breakpoint `i`. -/
theorem Armed.addr_ne (harmed : Armed s lifted code) (hi : s.Active i) (hj : s.Active j)
    (hne : j ≠ i) : (s.breakpoints j).addr ≠ (s.breakpoints i).addr :=
  fun haddr => hne (harmed.distinct j i hj hi haddr)

/-- Lifting a breakpoint. -/
theorem Armed.restoreOriginal (harmed : Armed s none code) (hi : s.Active i) :
    Armed (s.restoreOriginal i) (some i) code := by
  have hmem : (s.restoreOriginal i).mem =
      Function.update s.mem (s.breakpoints i).addr (code (s.breakpoints i).addr) := by
    rw [Session.restoreOriginal, pokeLow_mem, harmed.saved i hi]
  refine ⟨harmed.distinct, ?_, fun j hj hne => ?_, fun a hplain => ?_, harmed.saved, harmed.trap⟩
  · rintro j hj
    exact Option.some.inj hj ▸ hi
  · have hji : j ≠ i := fun heq => hne (heq ▸ rfl)
    rw [hmem]
    exact (Function.update_of_ne (harmed.addr_ne hi hj hji) ..).trans
      (harmed.planted j hj (by simp))
  · rw [hmem]
    by_cases ha : a = (s.breakpoints i).addr
    · rw [ha, Function.update_self]
    · rw [Function.update_of_ne ha]
      refine harmed.plain a fun j hj haddr => ?_
      have hji : i = j := Option.some.inj (hplain j hj haddr)
      exact absurd (hji ▸ haddr.symm) ha

/-- Planting a breakpoint that is lifted, or one whose address has an active one. -/
theorem Armed.plantAgain (harmed : Armed s lifted code) (hi : i < s.numBreakpoints)
    (hlifted : lifted = none ∨ lifted = some i)
    (hactive : s.ActiveAt (s.breakpoints i).addr) : Armed (s.plantAgain i) none code := by
  have hmem : (s.plantAgain i).mem =
      Function.update s.mem (s.breakpoints i).addr (byteOf int3 0) := by
    rw [Session.plantAgain, pokeLow_mem, harmed.trap i hi]
  refine ⟨harmed.distinct, by simp, fun j hj _ => ?_, fun a hplain => ?_, harmed.saved,
    harmed.trap⟩
  · rw [hmem]
    show Function.update s.mem _ _ (s.breakpoints j).addr = _
    by_cases haddr : (s.breakpoints j).addr = (s.breakpoints i).addr
    · rw [haddr, Function.update_self]
    · rw [Function.update_of_ne haddr]
      refine harmed.planted j hj fun heq => haddr ?_
      obtain hnone | hsome := hlifted
      · simp [hnone] at heq
      · rw [Option.some.inj (hsome.symm.trans heq)]
  · rw [hmem]
    have ha : a ≠ (s.breakpoints i).addr := by
      rintro rfl
      obtain ⟨j, hj, haddr⟩ := hactive
      simpa using hplain j hj haddr
    rw [Function.update_of_ne ha]
    exact harmed.plain a fun j hj haddr => by simpa using hplain j hj haddr

/-- Clearing the flag of a breakpoint changes neither memory nor addresses. -/
theorem Armed.setBp {b : Bp} (harmed : Armed s lifted code)
    (hsame : (s.breakpoints i).SameCode b) : Armed (s.setBp i b) lifted code := by
  refine harmed.congr rfl rfl fun j => ?_
  by_cases hji : j = i
  · subst hji
    simpa [Session.setBp] using hsame
  · simp only [Session.setBp, Function.update_of_ne hji]
    exact ⟨rfl, rfl, rfl, rfl⟩

/-- The breakpoint that `set_breakpoints` enters into the table. -/
def newBp (s : Session γ δ) (a : Addr) : Bp where
  id := s.numBreakpoints
  addr := a
  originalCode := s.mem.peek a 8
  int3Code := withLow (s.mem.peek a 8) int3
  active := true
  ignoreRipEqualBreak := s.rip = a

/-- The session after `set_breakpoints` has entered a breakpoint. -/
def withBp (s : Session γ δ) (a : Addr) : Session γ δ :=
  { (s.pokeLow a int3).setBp s.numBreakpoints (newBp s a) with
    numBreakpoints := s.numBreakpoints + 1 }

/-- `set_breakpoints` finds an active breakpoint at the address or enters a new one. -/
theorem setBreakpoints_cases (hok : setBreakpoints s a = .ok (out, s')) :
    s.ActiveAt a ∧ s' = s ∨ ¬s.ActiveAt a ∧ s' = withBp s a := by
  unfold setBreakpoints at hok
  split at hok
  · next hsome =>
    cases hok
    refine .inl ⟨?_, rfl⟩
    by_contra hnone
    simp [activeAt_eq_none.mpr hnone] at hsome
  · next hnone =>
    dsimp only at hok
    split at hok
    · cases hok
    · cases hok
      exact .inr ⟨activeAt_eq_none.mp (by simpa using hnone), rfl⟩

/-- The entries before the new one stay as they are. -/
theorem withBp_breakpoints (hi : i < s.numBreakpoints) :
    (withBp s a).breakpoints i = s.breakpoints i :=
  Function.update_of_ne hi.ne ..

@[simp] theorem withBp_new (s : Session γ δ) (a : Addr) :
    (withBp s a).breakpoints s.numBreakpoints = newBp s a := Function.update_self ..

/-- The new breakpoint is active, and the others are as active as before. -/
theorem withBp_active :
    (withBp s a).Active i ↔ i = s.numBreakpoints ∨ s.Active i := by
  unfold Session.Active
  show i < s.numBreakpoints + 1 ∧ _ ↔ _
  by_cases hi : i = s.numBreakpoints
  · subst hi
    simp [newBp]
  · constructor
    · rintro ⟨hlt, hactive⟩
      have hlt' : i < s.numBreakpoints := by omega
      rw [withBp_breakpoints hlt'] at hactive
      exact .inr ⟨hlt', hactive⟩
    · rintro (heq | ⟨hlt, hactive⟩)
      · exact absurd heq hi
      · exact ⟨by omega, by rwa [withBp_breakpoints hlt]⟩

/-- `set_breakpoints` keeps a session armed. -/
theorem Armed.setBreakpoints (harmed : Armed s lifted code)
    (hok : setBreakpoints s a = .ok (out, s')) : Armed s' lifted code := by
  obtain ⟨_, rfl⟩ | ⟨hfree, rfl⟩ := setBreakpoints_cases hok
  · exact harmed
  have hmem : (withBp s a).mem = Function.update s.mem a (byteOf int3 0) := pokeLow_mem s a int3
  have hold : ∀ i, s.Active i → (withBp s a).breakpoints i = s.breakpoints i :=
    fun i hi => withBp_breakpoints hi.1
  have hne : ∀ i, s.Active i → (s.breakpoints i).addr ≠ a := fun i hi haddr => hfree ⟨i, hi, haddr⟩
  have hplain : s.mem a = code a :=
    harmed.plain a fun i hi haddr => absurd haddr (hne i hi)
  refine ⟨?_, ?_, ?_, ?_, ?_, ?_⟩
  · intro i j hi hj haddr
    obtain rfl | hi := withBp_active.mp hi <;> obtain rfl | hj := withBp_active.mp hj
    · rfl
    · rw [withBp_new, hold j hj] at haddr
      exact absurd haddr.symm (hne j hj)
    · rw [withBp_new, hold i hi] at haddr
      exact absurd haddr (hne i hi)
    · rw [hold i hi, hold j hj] at haddr
      exact harmed.distinct i j hi hj haddr
  · exact fun i hi => withBp_active.mpr (.inr (harmed.lifted_active i hi))
  · intro i hi hlifted
    obtain rfl | hi := withBp_active.mp hi
    · rw [withBp_new, hmem]
      exact Function.update_self ..
    · rw [hold i hi, hmem, Function.update_of_ne (hne i hi)]
      exact harmed.planted i hi hlifted
  · intro x hx
    have hxa : x ≠ a := by
      rintro rfl
      have hnew := hx s.numBreakpoints (withBp_active.mpr (.inl rfl)) (by simp [newBp])
      exact absurd (harmed.lifted_active _ hnew).1 (lt_irrefl _)
    rw [hmem, Function.update_of_ne hxa]
    refine harmed.plain x fun i hi haddr => hx i (withBp_active.mpr (.inr hi)) ?_
    rwa [hold i hi]
  · intro i hi
    obtain rfl | hi := withBp_active.mp hi
    · rw [withBp_new]
      have hlow : byteOf (newBp s a).originalCode 0 = s.mem (a + BitVec.ofNat 64 0) :=
        ByteMemory.byteOf_peek (by decide)
      rw [hlow]
      simpa [newBp] using hplain
    · rw [hold i hi]
      exact harmed.saved i hi
  · intro i hi
    by_cases hnew : i = s.numBreakpoints
    · subst hnew
      rw [withBp_new]
      exact byteOf_withLow_zero _ _
    · have hi' : i < s.numBreakpoints := by
        have : i < s.numBreakpoints + 1 := hi
        omega
      rw [withBp_breakpoints hi']
      exact harmed.trap i hi'

/-- The session after `delete_breakpoint` has made a breakpoint inactive. -/
def withoutBp (s : Session γ δ) (i : ℕ) : Session γ δ :=
  (s.poke (s.breakpoints i).addr (s.breakpoints i).originalCode).setBp i
    { s.breakpoints i with active := false }

/-- `delete_breakpoint` finds no entry with the number, or writes the saved word back and
makes an active breakpoint inactive. -/
theorem deleteBreakpoint_cases {id : ℤ} (hok : deleteBreakpoint s id = .ok (out, s')) :
    (s.numBreakpoints : ℤ) ≤ id ∧ s' = s ∨
      ∃ i : ℕ, id = i ∧ i < s.numBreakpoints ∧
        ((s.breakpoints i).active = false ∧
            s' = s.poke (s.breakpoints i).addr (s.breakpoints i).originalCode ∨
          (s.breakpoints i).active = true ∧ s' = withoutBp s i) := by
  unfold deleteBreakpoint at hok
  split at hok
  · next hge =>
    cases hok
    exact .inl ⟨hge, rfl⟩
  · next hlt =>
    split at hok
    · cases hok
    · next hnonneg =>
      refine .inr ⟨id.toNat, by omega, by omega, ?_⟩
      dsimp only at hok
      split at hok
      · next hinactive =>
        cases hok
        exact .inl ⟨hinactive, rfl⟩
      · next hactive =>
        cases hok
        exact .inr ⟨by simpa using hactive, rfl⟩

/-- Nothing is planted in a program that has just been loaded. -/
theorem armed_load (mem : ByteMemory 64) (regs : Regs γ) (data : δ) :
    Armed (Session.load mem regs data) none mem := by
  have hnone : ∀ i, ¬(Session.load mem regs data).Active i :=
    fun i hi => absurd hi.1 (Nat.not_lt_zero i)
  exact ⟨fun i _ hi => absurd hi (hnone i), by simp, fun i hi => absurd hi (hnone i),
    fun _ _ => rfl, fun i hi => absurd hi (hnone i), fun i hi => absurd hi (Nat.not_lt_zero i)⟩

/-- The deleted breakpoint is no longer active, and the others are as active as before. -/
theorem withoutBp_active : (withoutBp s i).Active j ↔ s.Active j ∧ j ≠ i := by
  by_cases hji : j = i
  · subst hji
    simp [Session.Active, withoutBp, Session.setBp]
  · simp [Session.Active, withoutBp, Session.setBp, Session.poke, hji]

/-- Its entry keeps its address and its words. -/
theorem withoutBp_breakpoints (s : Session γ δ) (i j : ℕ) :
    ((withoutBp s i).breakpoints j).addr = (s.breakpoints j).addr ∧
      ((withoutBp s i).breakpoints j).originalCode = (s.breakpoints j).originalCode ∧
      ((withoutBp s i).breakpoints j).int3Code = (s.breakpoints j).int3Code := by
  by_cases hji : j = i
  · subst hji
    simp [withoutBp, Session.setBp]
  · simp [withoutBp, Session.setBp, Session.poke, hji]

/-- Writing back a word that is still fresh changes at most the byte of the breakpoint. -/
theorem poke_saved_mem (hfresh : SavedFresh s i) :
    (s.poke (s.breakpoints i).addr (s.breakpoints i).originalCode).mem =
      Function.update s.mem (s.breakpoints i).addr (byteOf (s.breakpoints i).originalCode 0) :=
  ByteMemory.poke_eq_update (by decide) hfresh.1

/-- Deleting an inactive breakpoint whose saved word is fresh changes nothing. -/
theorem poke_saved_inactive (hfresh : SavedFresh s i)
    (hinactive : (s.breakpoints i).active = false) :
    s.poke (s.breakpoints i).addr (s.breakpoints i).originalCode = s := by
  have hmem := poke_saved_mem hfresh
  rw [hfresh.2 hinactive, Function.update_eq_self] at hmem
  cases s
  simpa [Session.poke] using hmem

/-- Deleting an active breakpoint whose saved word is fresh keeps a session armed; if it
was the lifted one, none is lifted afterwards. -/
theorem Armed.withoutBp (harmed : Armed s lifted code) (hi : s.Active i)
    (hfresh : SavedFresh s i) :
    Armed (withoutBp s i) (lifted.filter (· ≠ i)) code := by
  have hmem : (Sdb.withoutBp s i).mem =
      Function.update s.mem (s.breakpoints i).addr (code (s.breakpoints i).addr) := by
    rw [← harmed.saved i hi]
    exact poke_saved_mem hfresh
  have hbps := withoutBp_breakpoints s i
  refine ⟨?_, ?_, ?_, ?_, ?_, ?_⟩
  · intro j k hj hk
    rw [(hbps j).1, (hbps k).1]
    exact harmed.distinct j k (withoutBp_active.mp hj).1 (withoutBp_active.mp hk).1
  · intro j hj
    obtain ⟨hlifted, hne⟩ := Option.filter_eq_some_iff.mp hj
    exact withoutBp_active.mpr ⟨harmed.lifted_active j hlifted, by simpa using hne⟩
  · intro j hj hlifted
    obtain ⟨hj, hji⟩ := withoutBp_active.mp hj
    rw [(hbps j).1, hmem, Function.update_of_ne (harmed.addr_ne hi hj hji)]
    refine harmed.planted j hj fun heq => hlifted ?_
    exact Option.filter_eq_some_iff.mpr ⟨heq, by simpa using hji⟩
  · intro a hplain
    rw [hmem]
    by_cases ha : a = (s.breakpoints i).addr
    · rw [ha, Function.update_self]
    · rw [Function.update_of_ne ha]
      refine harmed.plain a fun j hj haddr => ?_
      have hji : j ≠ i := fun heq => ha (heq ▸ haddr.symm)
      have hfilter := hplain j (withoutBp_active.mpr ⟨hj, hji⟩) (by rwa [(hbps j).1])
      exact (Option.filter_eq_some_iff.mp hfilter).1
  · intro j hj
    rw [(hbps j).1, (hbps j).2.1]
    exact harmed.saved j (withoutBp_active.mp hj).1
  · intro j hj
    rw [(hbps j).2.2]
    exact harmed.trap j hj

/-- The entries have the addresses they had, and are as active. -/
def SameTable (s s' : Session γ δ) : Prop :=
  s'.numBreakpoints = s.numBreakpoints ∧ ∀ i, (s'.breakpoints i).addr = (s.breakpoints i).addr ∧
    (s'.breakpoints i).active = (s.breakpoints i).active

theorem SameTable.of_eq (hnum : s'.numBreakpoints = s.numBreakpoints)
    (hbps : s'.breakpoints = s.breakpoints) : SameTable s s' :=
  ⟨hnum, fun i => by rw [hbps]; exact ⟨rfl, rfl⟩⟩

theorem SameTable.trans (h : SameTable s s₁) (h' : SameTable s₁ s') : SameTable s s' :=
  ⟨h'.1.trans h.1, fun i => ⟨(h'.2 i).1.trans (h.2 i).1, (h'.2 i).2.trans (h.2 i).2⟩⟩

/-- Overwriting an entry with one that has its address and is as active. -/
theorem SameTable.of_update {b : Bp} (hnum : s'.numBreakpoints = s.numBreakpoints)
    (hbps : s'.breakpoints = Function.update s.breakpoints i b)
    (haddr : b.addr = (s.breakpoints i).addr) (hactive : b.active = (s.breakpoints i).active) :
    SameTable s s' := by
  refine ⟨hnum, fun j => ?_⟩
  rw [hbps]
  by_cases hji : j = i
  · subst hji
    rw [Function.update_self]
    exact ⟨haddr, hactive⟩
  · rw [Function.update_of_ne hji]
    exact ⟨rfl, rfl⟩

/-- The same entries are active. -/
theorem SameTable.active (hsame : SameTable s s') : s'.Active i ↔ s.Active i := by
  rw [Session.Active, Session.Active, hsame.1, (hsame.2 i).2]

end UnixProgramming.Sdb
