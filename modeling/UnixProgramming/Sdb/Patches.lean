import UnixProgramming.Sdb.Arming

/-!
# Patches under breakpoints

`patch_memory` replaces the bytes of a range one after another. A byte under an active
breakpoint goes into the saved word, and the breakpoint is planted again. The memory stays
what the debugger means it to be: the logical memory with an `int3` at every active
breakpoint.
-/

namespace UnixProgramming.Sdb

variable {γ δ : Type} {s s' : Session γ δ} {code : ByteMemory 64} {a : Addr} {i j len : ℕ}

/-- The memory is the logical memory with `0xCC` at exactly the addresses of the active
breakpoints, of which no two share one, as `set_breakpoints` makes sure; and the lowest byte
that each of them has saved is the logical one. -/
structure Overlaid (s : Session γ δ) (code : ByteMemory 64) : Prop where
  distinct : ∀ i j, s.Active i → s.Active j → (s.breakpoints i).addr = (s.breakpoints j).addr →
    i = j
  trap : ∀ a, s.ActiveAt a → s.mem a = 0xcc#8
  plain : ∀ a, ¬s.ActiveAt a → s.mem a = code a
  saved : ∀ i, s.Active i → byteOf (s.breakpoints i).originalCode 0 = code (s.breakpoints i).addr

/-- What planting again puts into memory is an `int3`. -/
def PlantsInt3 (s : Session γ δ) : Prop :=
  ∀ i < s.numBreakpoints, byteOf (s.breakpoints i).int3Code 0 = byteOf int3 0

/-- With no breakpoint lifted, to be armed is to be overlaid and to plant `int3`s. -/
theorem armed_none_iff : Armed s none code ↔ Overlaid s code ∧ PlantsInt3 s := by
  constructor
  · intro harmed
    refine ⟨⟨harmed.distinct, ?_, fun a ha => ?_, harmed.saved⟩, harmed.trap⟩
    · rintro a ⟨i, hi, rfl⟩
      exact (harmed.planted i hi (by simp)).trans byteOf_int3
    · exact harmed.plain a fun i hi haddr => absurd ⟨i, hi, haddr⟩ ha
  · rintro ⟨hover, hplants⟩
    refine ⟨hover.distinct, by simp, fun i hi _ => ?_, fun a ha => ?_, hover.saved, hplants⟩
    · exact (hover.trap _ ⟨i, hi, rfl⟩).trans byteOf_int3.symm
    · apply hover.plain a
      rintro ⟨i, hi, haddr⟩
      simpa using ha i hi haddr

/-- The entry that `patch_memory` leaves for a breakpoint at a patched address. -/
def patchedBp (b : Bp) (mem : ByteMemory 64) (v : Word) : Bp :=
  { b with
    originalCode := withLow (mem.peek b.addr 8) v
    int3Code := withLow ((mem.poke (n := 8) b.addr (withLow (mem.peek b.addr 8) v)).peek b.addr 8)
      int3 }

/-- The session after one byte has been patched at the address of breakpoint `j`: written,
saved, and covered again. -/
def patchUnder (s : Session γ δ) (j : ℕ) (v : Word) : Session γ δ :=
  ((s.pokeLow (s.breakpoints j).addr v).pokeLow (s.breakpoints j).addr int3).setBp j
    (patchedBp (s.breakpoints j) s.mem v)

/-- One pass of the loop of `patch_memory` finds no active breakpoint at its address, or
patches under one. -/
theorem patchByte_cases (s : Session γ δ) (addr : Addr) (value : Word) (i : ℕ) :
    ¬s.ActiveAt (addr + BitVec.ofNat 64 i) ∧
        patchByte s addr value i = s.pokeLow (addr + BitVec.ofNat 64 i) (value >>> (i * 8)) ∨
      ∃ j, s.Active j ∧ (s.breakpoints j).addr = addr + BitVec.ofNat 64 i ∧
        patchByte s addr value i = patchUnder s j (value >>> (i * 8)) := by
  have hfinds : ∀ w : Word, (s.poke (addr + BitVec.ofNat 64 i) w).activeAt
      (addr + BitVec.ofNat 64 i) = s.activeAt (addr + BitVec.ofNat 64 i) := fun _ => rfl
  unfold patchByte
  dsimp only
  rw [hfinds]
  cases hfind : s.activeAt (addr + BitVec.ofNat 64 i) with
  | none => exact .inl ⟨activeAt_eq_none.mp hfind, rfl⟩
  | some j =>
    obtain ⟨hj, haddr⟩ := active_of_activeAt hfind
    refine .inr ⟨j, hj, haddr, ?_⟩
    rw [← haddr]
    rfl

/-- A patch changes saved words only. -/
theorem patchByte_sameTable (s : Session γ δ) (addr : Addr) (value : Word) (i : ℕ) :
    SameTable s (patchByte s addr value i) ∧
      (patchByte s addr value i).bpAgain = s.bpAgain ∧
      (patchByte s addr value i).whichBp = s.whichBp := by
  unfold patchByte
  dsimp only
  split
  · exact ⟨.of_eq rfl rfl, rfl, rfl⟩
  · next j _ => exact ⟨.of_update (i := j) rfl rfl rfl rfl, rfl, rfl⟩

/-- The bytes are patched one after another. -/
theorem patchBytes_sameTable (s : Session γ δ) (addr : Addr) (value : Word) (is : List ℕ) :
    SameTable s (is.foldl (fun s i => patchByte s addr value i) s) ∧
      (is.foldl (fun s i => patchByte s addr value i) s).bpAgain = s.bpAgain ∧
      (is.foldl (fun s i => patchByte s addr value i) s).whichBp = s.whichBp := by
  induction is generalizing s with
  | nil => exact ⟨.of_eq rfl rfl, rfl, rfl⟩
  | cons i is ih =>
    obtain ⟨hsame, hagain, hwhich⟩ := patchByte_sameTable s addr value i
    obtain ⟨hsame', hagain', hwhich'⟩ := ih (patchByte s addr value i)
    exact ⟨hsame.trans hsame', hagain'.trans hagain, hwhich'.trans hwhich⟩

/-! ## One byte -/

/-- Writing a byte where no breakpoint is active changes that byte of the code. -/
theorem Overlaid.pokeLow (hover : Overlaid s code) (hfree : ¬s.ActiveAt a) (v : Word) :
    Overlaid (s.pokeLow a v) (Function.update code a (byteOf v 0)) := by
  have hne : ∀ x, s.ActiveAt x → x ≠ a := fun x hx heq => hfree (heq ▸ hx)
  refine ⟨hover.distinct, fun x hx => ?_, fun x hx => ?_, fun j hj => ?_⟩
  · rw [pokeLow_mem, Function.update_of_ne (hne x hx)]
    exact hover.trap x hx
  · rw [pokeLow_mem]
    by_cases hxa : x = a
    · rw [hxa, Function.update_self, Function.update_self]
    · rw [Function.update_of_ne hxa, Function.update_of_ne hxa]
      exact hover.plain x hx
  · exact (hover.saved j hj).trans (Function.update_of_ne (hne _ ⟨j, hj, rfl⟩) ..).symm

theorem patchUnder_sameTable (s : Session γ δ) (j : ℕ) (v : Word) :
    SameTable s (patchUnder s j v) :=
  .of_update (i := j) (b := patchedBp (s.breakpoints j) s.mem v) rfl rfl rfl rfl

/-- The breakpoint covers the byte again. -/
theorem patchUnder_mem (s : Session γ δ) (j : ℕ) (v : Word) :
    (patchUnder s j v).mem = Function.update s.mem (s.breakpoints j).addr (byteOf int3 0) := by
  change ((s.pokeLow (s.breakpoints j).addr v).pokeLow (s.breakpoints j).addr int3).mem = _
  rw [pokeLow_mem, pokeLow_mem, Function.update_idem]

/-- Writing a byte under an active breakpoint, saving it and planting the breakpoint again
changes that byte of the code. -/
theorem Overlaid.patchUnder (hover : Overlaid s code) (hj : s.Active j) (v : Word) :
    Overlaid (patchUnder s j v) (Function.update code (s.breakpoints j).addr (byteOf v 0)) := by
  have hsame := patchUnder_sameTable s j v
  have hactive : ∀ x, (Sdb.patchUnder s j v).ActiveAt x ↔ s.ActiveAt x := fun x => by
    simp only [Session.ActiveAt, hsame.active, (hsame.2 _).1]
  -- the breakpoint was planted before and is planted again
  have hmem : (Sdb.patchUnder s j v).mem = s.mem := by
    rw [patchUnder_mem, byteOf_int3, ← hover.trap _ ⟨j, hj, rfl⟩, Function.update_eq_self]
  refine ⟨fun i k hi hk haddr => ?_, fun x hx => ?_, fun x hx => ?_, fun i hi => ?_⟩
  · rw [(hsame.2 i).1, (hsame.2 k).1] at haddr
    exact hover.distinct i k (hsame.active.mp hi) (hsame.active.mp hk) haddr
  · rw [hmem]
    exact hover.trap x ((hactive x).mp hx)
  · rw [hactive] at hx
    have hxj : x ≠ (s.breakpoints j).addr := fun heq => hx ⟨j, hj, heq.symm⟩
    rw [hmem, Function.update_of_ne hxj]
    exact hover.plain x hx
  · rw [(hsame.2 i).1]
    by_cases hij : i = j
    · subst hij
      rw [Function.update_self]
      have hnew : (Sdb.patchUnder s i v).breakpoints i = patchedBp (s.breakpoints i) s.mem v :=
        Function.update_self ..
      rw [hnew]
      exact byteOf_withLow_zero _ _
    · have hi' := hsame.active.mp hi
      have hne : (s.breakpoints i).addr ≠ (s.breakpoints j).addr :=
        fun haddr => hij (hover.distinct i j hi' hj haddr)
      have hold : (Sdb.patchUnder s j v).breakpoints i = s.breakpoints i :=
        Function.update_of_ne hij ..
      rw [hold, Function.update_of_ne hne]
      exact hover.saved i hi'

/-- One byte of a patch changes one byte of the logical memory, -/
theorem Overlaid.patchByte (hover : Overlaid s code) (addr : Addr) (value : Word) (i : ℕ) :
    Overlaid (patchByte s addr value i)
      (Function.update code (addr + BitVec.ofNat 64 i) (byteOf value i)) := by
  rw [← byteOf_ushiftRight]
  rcases patchByte_cases s addr value i with ⟨hfree, heq⟩ | ⟨j, hj, haddr, heq⟩
  · rw [heq]
    exact hover.pokeLow hfree _
  · rw [heq, ← haddr]
    exact hover.patchUnder hj _

/-- at most one byte of the memory, -/
theorem patchByte_mem (s : Session γ δ) (addr : Addr) (value : Word) (i : ℕ)
    (hne : a ≠ addr + BitVec.ofNat 64 i) : (patchByte s addr value i).mem a = s.mem a := by
  rcases patchByte_cases s addr value i with ⟨_, heq⟩ | ⟨j, _, haddr, heq⟩
  · rw [heq, pokeLow_mem, Function.update_of_ne hne]
  · rw [heq, patchUnder_mem, haddr, Function.update_of_ne hne]

/-- and nothing that is planted again. -/
theorem PlantsInt3.patchByte (hplants : PlantsInt3 s) (addr : Addr) (value : Word) (i : ℕ) :
    PlantsInt3 (patchByte s addr value i) := by
  intro k hk
  rw [(patchByte_sameTable s addr value i).1.1] at hk
  rcases patchByte_cases s addr value i with ⟨_, heq⟩ | ⟨j, _, _, heq⟩
  · rw [heq]
    exact hplants k hk
  · rw [heq]
    by_cases hkj : k = j
    · subst hkj
      have hnew : (patchUnder s k (value >>> (i * 8))).breakpoints k =
          patchedBp (s.breakpoints k) s.mem (value >>> (i * 8)) := Function.update_self ..
      rw [hnew]
      exact byteOf_withLow_zero _ _
    · have hold : (patchUnder s j (value >>> (i * 8))).breakpoints k = s.breakpoints k :=
        Function.update_of_ne hkj ..
      rw [hold]
      exact hplants k hk

/-! ## All bytes -/

/-- A rule for the loop of `patch_memory`, by induction on the bytes patched. -/
theorem patchMemory_induction {motive : ℕ → Session γ δ → Prop} (addr : Addr) (value : Word)
    (hinit : motive 0 s)
    (hbyte : ∀ i s, i < len → motive i s → motive (i + 1) (patchByte s addr value i)) :
    motive len (patchMemory s addr value len).2 := by
  unfold Sdb.patchMemory
  dsimp only
  induction len with
  | zero => exact hinit
  | succ len ih =>
    rw [List.range_succ, List.foldl_append]
    exact hbyte len _ (Nat.lt_succ_self len) (ih fun i s hi => hbyte i s (Nat.lt_succ_of_lt hi))

/-- A patch changes the logical memory as it says. -/
theorem Overlaid.patchMemory (hover : Overlaid s code) (addr : Addr) (value : Word)
    (hlen : len ≤ 8) :
    Overlaid (patchMemory s addr value len).2 (code.overwrite addr value len) := by
  refine patchMemory_induction (motive := fun i s => Overlaid s (code.overwrite addr value i)) addr
    value hover fun i s hi hover => ?_
  rw [ByteMemory.overwrite_succ _ _ _ (by omega)]
  exact hover.patchByte addr value i

/-- A patch keeps a session armed. -/
theorem Armed.patchMemory (harmed : Armed s none code) (addr : Addr) (value : Word)
    (hlen : len ≤ 8) :
    Armed (patchMemory s addr value len).2 none (code.overwrite addr value len) := by
  obtain ⟨hover, hplants⟩ := armed_none_iff.mp harmed
  refine armed_none_iff.mpr ⟨hover.patchMemory addr value hlen, ?_⟩
  exact patchMemory_induction (motive := fun _ s => PlantsInt3 s) addr value hplants
    fun i _ _ hplants => hplants.patchByte addr value i

/-- For every session whose memory is a logical memory with `0xCC` at the active breakpoints,
and every patch of at most eight bytes: afterwards the same holds for the logical memory with
these bytes replaced; the addresses and flags of the breakpoints and all other bytes stay. -/
theorem patchMemory_overlaid (s : Session γ δ) (code : ByteMemory 64) (hover : Overlaid s code)
    (addr : Addr) (value : Word) (len : ℕ) (hlen : 1 ≤ len ∧ len ≤ 8) :
    Overlaid (patchMemory s addr value len).2 (code.overwrite addr value len) ∧
      SameTable s (patchMemory s addr value len).2 ∧
      ∀ a, len ≤ (a - addr).toNat → (patchMemory s addr value len).2.mem a = s.mem a := by
  refine ⟨hover.patchMemory addr value hlen.2, (patchBytes_sameTable s addr value _).1, ?_⟩
  intro a ha
  refine patchMemory_induction (motive := fun _ s' => s'.mem a = s.mem a) addr value rfl
    fun i s' hi hmem => ?_
  rw [patchByte_mem _ _ _ _ ?_, hmem]
  rintro rfl
  have hdist : (addr + BitVec.ofNat 64 i - addr).toNat = i :=
    ByteMemory.distance_add addr (by omega)
  omega

/-- The sample program after its first breakpoint. -/
theorem sample_armed : Armed (withBp (sampleSession 0) 0) none fun _ => 0 := by
  have hset : setBreakpoints (sampleSession 0) 0 = .ok ([.set 0], withBp (sampleSession 0) 0) := rfl
  exact (armed_load (fun _ => 0) ⟨0, 0, 0, ()⟩ ()).setBreakpoints hset

/-- Two bytes under a breakpoint and behind it. -/
theorem patchMemory_overlaid_break :
    Overlaid (patchMemory (withBp (sampleSession 0) 0) 0 0x1234 2).2
        (ByteMemory.overwrite (fun _ => 0) 0 (0x1234 : Word) 2) ∧
      SameTable (withBp (sampleSession 0) 0)
        (patchMemory (withBp (sampleSession 0) 0) 0 0x1234 2).2 ∧
      ∀ a : Addr, 2 ≤ (a - 0).toNat →
        (patchMemory (withBp (sampleSession 0) 0) 0 0x1234 2).2.mem a =
          (withBp (sampleSession 0) 0).mem a :=
  patchMemory_overlaid _ _ (armed_none_iff.mp sample_armed).1 0 0x1234 2 (by decide)

end UnixProgramming.Sdb
