import Mathlib.Data.BitVec
import Mathlib.Tactic.Ring
import UnixProgramming.Lib.ByteMemory
import UnixProgramming.Libsolver.Solver
import UnixProgramming.Libsolver.Sections

/-!
# The GOT slots of the moves

`readelf` of `libsolver.c` takes the first symbol whose name begins with `main` for `main`
and computes the runtime addresses of the GOT slots from its value. With another symbol of
that kind before `main` it looks at words that are displaced by the difference of the two
values. It then finds the slots only if the displaced words happen to contain them.
-/

namespace UnixProgramming.Libsolver

open Elf

/-- `".symtab"`. -/
def symtabName : Name := ⟨ascii ".symtab", by decide⟩

/-- `".strtab"`. -/
def strtabName : Name := ⟨ascii ".strtab", by decide⟩

/-- `".got"`. -/
def gotName : Name := ⟨ascii ".got", by decide⟩

/-- The number of the move functions, `move_1` to `move_1200`. -/
def moveCount : ℕ := 1200

/-- `sizeof(Elf64_Addr)`. -/
def sizeofAddr : ℕ := 8

/-- What the variables that `readelf` and `get_section` do not initialise contain. -/
structure Uninitialised where
  shdr : Name → Shdr
  mainOffset : BitVec 64

/-- What the program that runs has in its memory: the pointer that it handed to the library,
the addresses of the moves, and the words that can be read. -/
structure Runtime where
  mazePtr : Addr
  moveAddress : ℕ → Addr
  memory : Addr → Option (BitVec 64)

/-- `memcmp` of the name of a symbol with `"main"` and a length of four. -/
def beginsWithMain (strtab : List UInt8) (sym : Sym) : Bool :=
  slice strtab sym.stName.toNat 4 = ascii "main"

/-- `i++` for the `int` of a loop. There is no result when it overflows. -/
def increment (i : ℕ) : Option ℕ := if i + 1 < 2 ^ 31 then some (i + 1) else none

/-- The loop over the symbols, with `n` symbols to go from number `i` on. -/
def mainLoop (symtab strtab : List UInt8) : ℕ → ℕ → BitVec 64 → Option (BitVec 64)
  | 0, _, mainOffset => some mainOffset
  | n + 1, i, mainOffset =>
    if i = 0 then do
      let i ← increment i
      mainLoop symtab strtab n i mainOffset
    else
      let sym := symbolAt symtab i
      if beginsWithMain strtab sym then some sym.stValue
      else do
        let i ← increment i
        mainLoop symtab strtab n i mainOffset

/-- `got_entries_to_move_n`, with no value where nothing has been stored. -/
abbrev Entries := ℕ → Option Addr

/-- The loop over the moves for a GOT entry and the address in it. -/
def recordMoves (moveAddress : ℕ → Addr) (functionAddress gotEntryAddr : Addr) (entries : Entries) :
    Entries :=
  (List.range' 1 moveCount).foldl (fun entries j =>
    if moveAddress j = functionAddress then Function.update entries j (some gotEntryAddr)
    else entries) entries

/-- The loop over the GOT entries, with `n` entries to go from number `i` on. There is no
result when an entry cannot be read. -/
def gotLoop (rt : Runtime) (mainOffset gotOffset : BitVec 64) : ℕ → ℕ → Entries → Option Entries
  | 0, _, entries => some entries
  | n + 1, i, entries => do
    let gotEntryOffset := gotOffset + BitVec.ofNat 64 (i * sizeofAddr)
    let gotEntryAddr := rt.mazePtr - mainOffset + gotEntryOffset
    let functionAddress ← rt.memory gotEntryAddr
    let entries := recordMoves rt.moveAddress functionAddress gotEntryAddr entries
    let i ← increment i
    gotLoop rt mainOffset gotOffset n i entries

/-- `readelf`. At its end it prints the word that the entry of `move_1` points to. -/
def readelf (file : List UInt8) (rt : Runtime) (un : Uninitialised) : Option Entries := do
  let symtab ← getSection file (un.shdr symtabName) symtabName
  let got ← getSection file (un.shdr gotName) gotName
  let strtab ← getSection file (un.shdr strtabName) strtabName
  let numSymbols := symtab.shSize.toNat / sizeofSym
  let mainOffset ←
    mainLoop (contents file symtab) (contents file strtab) numSymbols 0 un.mainOffset
  let entries ← gotLoop rt mainOffset got.shAddr (got.shSize.toNat / sizeofAddr) 0 fun _ => none
  let entry ← entries 1
  let _ ← rt.memory entry
  pure entries

/-- The maze program, as an image on disk and loaded at some address. -/
structure MazeProgram where
  file : List UInt8
  wellFormed : WellFormed file
  /-- The numbers of the sections, the first ones with their names. -/
  symtab : ℕ
  strtab : ℕ
  got : ℕ
  symtab_first : FirstNamed file symtabName symtab
  strtab_first : FirstNamed file strtabName strtab
  got_first : FirstNamed file gotName got
  symtab_inside : (sectionAt file symtab).shOffset.toNat + (sectionAt file symtab).shSize.toNat ≤
    file.length
  strtab_inside : (sectionAt file strtab).shOffset.toNat + (sectionAt file strtab).shSize.toNat ≤
    file.length
  /-- The symbol of `main`, the only one with that name. Symbol 0 is reserved. -/
  main : ℕ
  main_pos : 0 < main
  main_lt : main < (sectionAt file symtab).shSize.toNat / sizeofSym
  main_name : stringAt (contents file (sectionAt file strtab))
    (symbolAt (contents file (sectionAt file symtab)) main).stName.toNat = some (ascii "main")
  main_unique : ∀ i < (sectionAt file symtab).shSize.toNat / sizeofSym,
    stringAt (contents file (sectionAt file strtab))
      (symbolAt (contents file (sectionAt file symtab)) i).stName.toNat = some (ascii "main") →
    i = main
  /-- The difference between runtime addresses and those in the image. -/
  loadAddress : Addr
  moveAddress : ℕ → Addr
  memory : Addr → Option (BitVec 64)
  /-- The GOT can be read, and each move has one slot in it. -/
  got_readable : ∀ k < (sectionAt file got).shSize.toNat / sizeofAddr,
    (memory (loadAddress + (sectionAt file got).shAddr + BitVec.ofNat 64 (k * sizeofAddr))).isSome
  slot : ℕ → ℕ
  slot_lt : ∀ j, 1 ≤ j → j ≤ moveCount → slot j < (sectionAt file got).shSize.toNat / sizeofAddr
  slot_iff : ∀ j, 1 ≤ j → j ≤ moveCount →
    ∀ k < (sectionAt file got).shSize.toNat / sizeofAddr,
      (memory (loadAddress + (sectionAt file got).shAddr + BitVec.ofNat 64 (k * sizeofAddr)) =
        some (moveAddress j) ↔ k = slot j)
  distinct : ∀ j j', 1 ≤ j → j ≤ moveCount → 1 ≤ j' → j' ≤ moveCount →
    moveAddress j = moveAddress j' → j = j'

namespace MazeProgram

/-- The number of symbols. -/
def numSymbols (p : MazeProgram) : ℕ := (sectionAt p.file p.symtab).shSize.toNat / sizeofSym

/-- The number of GOT slots. -/
def numSlots (p : MazeProgram) : ℕ := (sectionAt p.file p.got).shSize.toNat / sizeofAddr

/-- Symbol `i`. -/
def symbol (p : MazeProgram) (i : ℕ) : Sym :=
  symbolAt (contents p.file (sectionAt p.file p.symtab)) i

/-- The runtime address of GOT slot `k`. -/
def slotAddress (p : MazeProgram) (k : ℕ) : Addr :=
  p.loadAddress + (sectionAt p.file p.got).shAddr + BitVec.ofNat 64 (k * sizeofAddr)

/-- The program in memory, after `maze_set_ptr(main)`. -/
def runtime (p : MazeProgram) : Runtime where
  mazePtr := p.loadAddress + (p.symbol p.main).stValue
  moveAddress := p.moveAddress
  memory := p.memory

/-- The name of the symbol begins with `main`, and no earlier name does, symbol 0 apart. -/
def FirstLikeMain (p : MazeProgram) (i : ℕ) : Prop :=
  1 ≤ i ∧ i < p.numSymbols ∧
    beginsWithMain (contents p.file (sectionAt p.file p.strtab)) (p.symbol i) = true ∧
    ∀ j, 1 ≤ j → j < i →
      beginsWithMain (contents p.file (sectionAt p.file p.strtab)) (p.symbol j) = false

/-- The words at the distance `d` from the GOT slots can be read, the slot of every move is
one of these words, and no later one of them contains the address of the move. -/
def CoveredAt (p : MazeProgram) (d : BitVec 64) : Prop :=
  (∀ k < p.numSlots, (p.memory (p.slotAddress k + d)).isSome) ∧
    ∀ j, 1 ≤ j → j ≤ moveCount → ∃ k < p.numSlots,
      p.slotAddress k + d = p.slotAddress (p.slot j) ∧
        ∀ k', k < k' → k' < p.numSlots →
          p.memory (p.slotAddress k' + d) ≠ some (p.moveAddress j)

/-- `readelf` stores the address of the slot of every move. -/
def LocatesSlots (p : MazeProgram) : Prop :=
  ∀ un, ∃ entries, readelf p.file p.runtime un = some entries ∧
    ∀ j, 1 ≤ j → j ≤ moveCount → entries j = some (p.slotAddress (p.slot j))

end MazeProgram

section Loops

variable {rt : Runtime} {mainOffset gotOffset : BitVec 64} {entries entries' : Entries}
variable {symtab strtab : List UInt8} {n i k j : ℕ}

/-- A loop that stores one value in some of the entries. -/
theorem foldl_store {P : ℕ → Prop} [DecidablePred P] (a : Addr) (l : List ℕ) (entries : Entries) :
    l.foldl (fun entries j => if P j then Function.update entries j (some a) else entries)
      entries j = if j ∈ l ∧ P j then some a else entries j := by
  induction l generalizing entries with
  | nil => simp
  | cons i l ih =>
    rw [List.foldl_cons, ih]
    by_cases hji : j = i
    · subst hji
      by_cases hP : P j <;> simp [hP]
    · by_cases hP : P i <;> simp [hP, hji]

/-- The entry of a move after one GOT entry. -/
theorem recordMoves_apply {moveAddress : ℕ → Addr} {functionAddress gotEntryAddr : Addr}
    (hj : 1 ≤ j) (hj' : j ≤ moveCount) :
    recordMoves moveAddress functionAddress gotEntryAddr entries j =
      if moveAddress j = functionAddress then some gotEntryAddr else entries j := by
  have hmem : j ∈ List.range' 1 moveCount := List.mem_range'_1.mpr ⟨hj, by omega⟩
  rw [recordMoves, foldl_store]
  simp [hmem]

/-- The address that the loop over the GOT entries computes for entry `k`. -/
def gotEntryAddr (rt : Runtime) (mainOffset gotOffset : BitVec 64) (k : ℕ) : Addr :=
  rt.mazePtr - mainOffset + (gotOffset + BitVec.ofNat 64 (k * sizeofAddr))

theorem increment_of_lt (hi : i + 1 < 2 ^ 31) : increment i = some (i + 1) := if_pos hi

/-- One round of the loop. -/
theorem gotLoop_succ (hi : i + 1 < 2 ^ 31) :
    gotLoop rt mainOffset gotOffset (n + 1) i entries =
      (rt.memory (gotEntryAddr rt mainOffset gotOffset i)).bind fun functionAddress =>
        gotLoop rt mainOffset gotOffset n (i + 1) (recordMoves rt.moveAddress functionAddress
          (gotEntryAddr rt mainOffset gotOffset i) entries) := by
  simp only [gotLoop, increment_of_lt hi, Option.bind_eq_bind, Option.bind_some, gotEntryAddr]

/-- A loop that ends has not counted too far. -/
theorem gotLoop_int (hi : i < 2 ^ 31)
    (hok : gotLoop rt mainOffset gotOffset n i entries = some entries') : i + n < 2 ^ 31 := by
  induction n generalizing i entries with
  | zero => exact hi
  | succ n ih =>
    simp only [gotLoop, Option.bind_eq_bind, Option.bind_eq_some_iff] at hok
    obtain ⟨functionAddress, _, i', hi', hok⟩ := hok
    unfold increment at hi'
    split at hi'
    · next hlt =>
      cases hi'
      have hint := ih hlt hok
      omega
    · cases hi'

/-- The loop ends when all of its words can be read, and only then. -/
theorem exists_gotLoop_iff (hint : i + n < 2 ^ 31) :
    (∃ entries', gotLoop rt mainOffset gotOffset n i entries = some entries') ↔
      ∀ k, i ≤ k → k < i + n → (rt.memory (gotEntryAddr rt mainOffset gotOffset k)).isSome := by
  induction n generalizing i entries with
  | zero =>
    refine iff_of_true ⟨entries, rfl⟩ fun k hk hk' => ?_
    omega
  | succ n ih =>
    rw [gotLoop_succ (by omega)]
    cases hread : rt.memory (gotEntryAddr rt mainOffset gotOffset i) with
    | none =>
      refine iff_of_false (by simp) fun h => ?_
      simpa [hread] using h i le_rfl (by omega)
    | some functionAddress =>
      rw [Option.bind_some, ih (by omega)]
      constructor
      · intro h k hk hk'
        by_cases hki : k = i
        · simp [hki, hread]
        · exact h k (by omega) (by omega)
      · exact fun h k hk hk' => h k (by omega) (by omega)

/-- Entry `k` is the last one of those from `i` on that contains the address of move `j`. -/
def LastWith (rt : Runtime) (mainOffset gotOffset : BitVec 64) (n i j k : ℕ) : Prop :=
  i ≤ k ∧ k < i + n ∧
    rt.memory (gotEntryAddr rt mainOffset gotOffset k) = some (rt.moveAddress j) ∧
    ∀ k', k < k' → k' < i + n →
      rt.memory (gotEntryAddr rt mainOffset gotOffset k') ≠ some (rt.moveAddress j)

/-- The loop stores the last entry that contains the address of a move, if there is one. -/
theorem gotLoop_entry (hj : 1 ≤ j) (hj' : j ≤ moveCount) (hint : i + n < 2 ^ 31)
    (hok : gotLoop rt mainOffset gotOffset n i entries = some entries') :
    (∃ k, LastWith rt mainOffset gotOffset n i j k ∧
        entries' j = some (gotEntryAddr rt mainOffset gotOffset k)) ∨
      (∀ k, i ≤ k → k < i + n →
        rt.memory (gotEntryAddr rt mainOffset gotOffset k) ≠ some (rt.moveAddress j)) ∧
        entries' j = entries j := by
  induction n generalizing i entries with
  | zero =>
    refine .inr ⟨fun k hk hk' => by omega, ?_⟩
    rw [← Option.some.inj hok]
  | succ n ih =>
    rw [gotLoop_succ (by omega), Option.bind_eq_some_iff] at hok
    obtain ⟨functionAddress, hread, hok⟩ := hok
    obtain ⟨k, ⟨hk, hk', hlast, hnone⟩, hentry⟩ | ⟨hnone, hentry⟩ := ih (by omega) hok
    · exact .inl ⟨k, ⟨by omega, by omega, hlast, fun k' h h' => hnone k' h (by omega)⟩, hentry⟩
    · rw [recordMoves_apply hj hj'] at hentry
      have hlater : ∀ k, i < k → k < i + (n + 1) →
          rt.memory (gotEntryAddr rt mainOffset gotOffset k) ≠ some (rt.moveAddress j) :=
        fun k h h' => hnone k (by omega) (by omega)
      by_cases hmove : rt.moveAddress j = functionAddress
      · rw [if_pos hmove] at hentry
        exact .inl ⟨i, ⟨le_rfl, by omega, hread.trans (congrArg some hmove.symm), hlater⟩, hentry⟩
      · rw [if_neg hmove] at hentry
        refine .inr ⟨fun k hk hk' => ?_, hentry⟩
        by_cases hki : k = i
        · rw [hki, hread]
          exact fun heq => hmove (Option.some.inj heq).symm
        · exact hlater k (by omega) hk'

/-- A symbol that the loop over the symbols goes past. -/
theorem mainLoop_skip
    (hskip : 1 ≤ i → beginsWithMain strtab (symbolAt symtab i) = false) :
    mainLoop symtab strtab (n + 1) i mainOffset =
      (increment i).bind fun i => mainLoop symtab strtab n i mainOffset := by
  by_cases hzero : i = 0
  · rw [mainLoop, if_pos hzero]
    rfl
  · rw [mainLoop, if_neg hzero]
    simp only [hskip (by omega), Bool.false_eq_true, if_false]
    rfl

/-- The loop takes the value of the first symbol that is like `main`, if it can count to it. -/
theorem mainLoop_found (hi : 1 ≤ k) (hik : i ≤ k) (hk : k < i + n)
    (hlike : beginsWithMain strtab (symbolAt symtab k) = true)
    (hfirst : ∀ j, 1 ≤ j → j < k → beginsWithMain strtab (symbolAt symtab j) = false)
    (hint : i < 2 ^ 31) :
    mainLoop symtab strtab n i mainOffset =
      if k < 2 ^ 31 then some (symbolAt symtab k).stValue else none := by
  induction n generalizing i with
  | zero => omega
  | succ n ih =>
    by_cases heq : i = k
    · subst heq
      rw [mainLoop, if_neg (by omega), if_pos hint]
      simp only [hlike, if_true]
    · rw [mainLoop_skip fun hi => hfirst i hi (by omega)]
      by_cases hlt : i + 1 < 2 ^ 31
      · rw [increment_of_lt hlt, Option.bind_some]
        exact ih (by omega) (by omega) hlt
      · rw [increment, if_neg hlt, Option.bind_none, if_neg (by omega)]

end Loops

namespace MazeProgram

variable {p : MazeProgram} {i j : ℕ}

/-- A string of a table starts the bytes at its offset. -/
theorem slice_of_stringAt {table name : List UInt8} {off : ℕ}
    (hname : stringAt table off = some name) : slice table off name.length = name := by
  unfold stringAt at hname
  split at hname
  · rw [← Option.some.inj hname, slice]
    exact (List.prefix_iff_eq_take.mp (cstring_prefix_self 0 _)).symm
  · cases hname

/-- Some symbol is the first one whose name begins with `main`. -/
theorem exists_firstLikeMain (p : MazeProgram) : ∃ i, p.FirstLikeMain i := by
  have hmain : beginsWithMain (contents p.file (sectionAt p.file p.strtab)) (p.symbol p.main) =
      true := by
    rw [beginsWithMain, decide_eq_true_eq]
    exact slice_of_stringAt p.main_name
  have hex : ∃ i, 1 ≤ i ∧ i < p.numSymbols ∧
      beginsWithMain (contents p.file (sectionAt p.file p.strtab)) (p.symbol i) = true :=
    ⟨p.main, p.main_pos, p.main_lt, hmain⟩
  obtain ⟨hpos, hlt, hlike⟩ := Nat.find_spec hex
  refine ⟨Nat.find hex, hpos, hlt, hlike, fun j hj hj' => ?_⟩
  have hmin := Nat.find_min hex hj'
  simpa [hj, hj'.trans hlt] using hmin

/-- `readelf` in an image that gives the number of its sections in the file header. -/
theorem readelf_eq (hnum : (ehdr p.file).eShnum ≠ 0) (hfirst : p.FirstLikeMain i)
    (un : Uninitialised) :
    readelf p.file p.runtime un =
      (if i < 2 ^ 31 then some (p.symbol i).stValue else none).bind fun mainOffset =>
        (gotLoop p.runtime mainOffset (sectionAt p.file p.got).shAddr p.numSlots 0
          fun _ => none).bind fun entries =>
            (entries 1).bind fun entry => (p.memory entry).bind fun _ => some entries := by
  obtain ⟨hpos, hlt, hlike, hbefore⟩ := hfirst
  have hmain : mainLoop (contents p.file (sectionAt p.file p.symtab))
      (contents p.file (sectionAt p.file p.strtab)) p.numSymbols 0 un.mainOffset =
        if i < 2 ^ 31 then some (p.symbol i).stValue else none :=
    mainLoop_found hpos (Nat.zero_le i) (by omega) hlike hbefore (by decide)
  simp only [readelf, getSection_of_firstNamed p.wellFormed hnum p.symtab_first,
    getSection_of_firstNamed p.wellFormed hnum p.strtab_first,
    getSection_of_firstNamed p.wellFormed hnum p.got_first, Option.bind_eq_bind, Option.bind_some]
  rw [show (sectionAt p.file p.symtab).shSize.toNat / sizeofSym = p.numSymbols from rfl, hmain]
  rfl

/-- The words that `readelf` looks at are displaced by the difference of the two values. -/
theorem gotEntryAddr_eq (k : ℕ) :
    gotEntryAddr p.runtime (p.symbol i).stValue (sectionAt p.file p.got).shAddr k =
      p.slotAddress k + ((p.symbol p.main).stValue - (p.symbol i).stValue) := by
  simp only [gotEntryAddr, runtime, slotAddress]
  ring

/-- Both loops count with an `int`, so that symbol and slots must have smaller numbers. -/
theorem LocatesSlots.int (hlocates : p.LocatesSlots) (hnum : (ehdr p.file).eShnum ≠ 0)
    (hfirst : p.FirstLikeMain i) : i < 2 ^ 31 ∧ p.numSlots < 2 ^ 31 := by
  obtain ⟨entries, hok, _⟩ := hlocates ⟨fun _ => zeroShdr, 0⟩
  rw [readelf_eq hnum hfirst, Option.bind_eq_some_iff] at hok
  obtain ⟨mainOffset, hmain, hok⟩ := hok
  obtain ⟨entries', hloop, _⟩ := Option.bind_eq_some_iff.mp hok
  have hslots := gotLoop_int (by decide) hloop
  split at hmain
  · next hi => exact ⟨hi, by omega⟩
  · cases hmain

/-- The slot of a move contains its address. -/
theorem memory_slot (hj : 1 ≤ j) (hj' : j ≤ moveCount) :
    p.memory (p.slotAddress (p.slot j)) = some (p.moveAddress j) :=
  (p.slot_iff j hj hj' _ (p.slot_lt j hj hj')).mpr rfl

/-- When the slots are located, the displaced words cover them. -/
theorem LocatesSlots.coveredAt (hlocates : p.LocatesSlots) (hnum : (ehdr p.file).eShnum ≠ 0)
    (hfirst : p.FirstLikeMain i) :
    p.CoveredAt ((p.symbol p.main).stValue - (p.symbol i).stValue) := by
  obtain ⟨hi, hint⟩ := hlocates.int hnum hfirst
  obtain ⟨entries, hok, hentries⟩ := hlocates ⟨fun _ => zeroShdr, 0⟩
  rw [readelf_eq hnum hfirst, if_pos hi, Option.bind_some, Option.bind_eq_some_iff] at hok
  obtain ⟨entries', hloop, hlast⟩ := hok
  simp only [Option.bind_eq_some_iff, Option.some.injEq] at hlast
  obtain ⟨_, _, _, _, rfl⟩ := hlast
  refine ⟨fun k hk => ?_, fun j hj hj' => ?_⟩
  · have hread := (exists_gotLoop_iff (by omega)).mp ⟨_, hloop⟩ k (Nat.zero_le k) (by omega)
    rwa [gotEntryAddr_eq] at hread
  · obtain ⟨k, ⟨_, hk, _, hlater⟩, hentry⟩ | ⟨_, hnone⟩ :=
      gotLoop_entry hj hj' (by omega) hloop
    · rw [hentries j hj hj', Option.some.injEq, gotEntryAddr_eq] at hentry
      refine ⟨k, by omega, hentry.symm, fun k' hkk' hk' => ?_⟩
      have hword := hlater k' hkk' (by omega)
      rwa [gotEntryAddr_eq] at hword
    · rw [hentries j hj hj'] at hnone
      cases hnone

/-- The loop over displaced words that cover the slots stores all of them. -/
theorem CoveredAt.exists_entries
    (hcovered : p.CoveredAt ((p.symbol p.main).stValue - (p.symbol i).stValue))
    (hint : p.numSlots < 2 ^ 31) :
    ∃ entries, gotLoop p.runtime (p.symbol i).stValue (sectionAt p.file p.got).shAddr p.numSlots 0
        (fun _ => none) = some entries ∧
      ∀ j, 1 ≤ j → j ≤ moveCount → entries j = some (p.slotAddress (p.slot j)) := by
  obtain ⟨hread, hcover⟩ := hcovered
  obtain ⟨entries, hloop⟩ : ∃ entries, gotLoop p.runtime (p.symbol i).stValue
      (sectionAt p.file p.got).shAddr p.numSlots 0 (fun _ => none) = some entries := by
    refine (exists_gotLoop_iff (by omega)).mpr fun k _ hk => ?_
    rw [gotEntryAddr_eq]
    exact hread k (by omega)
  refine ⟨entries, hloop, fun j hj hj' => ?_⟩
  obtain ⟨k, hk, haddress, hlater⟩ := hcover j hj hj'
  have hword : p.memory (p.slotAddress k + ((p.symbol p.main).stValue -
      (p.symbol i).stValue)) = some (p.moveAddress j) := by rw [haddress, memory_slot hj hj']
  obtain ⟨k₁, ⟨_, hk₁, hword₁, hlater₁⟩, hentry⟩ | ⟨hnone, _⟩ :=
    gotLoop_entry hj hj' (by omega) hloop
  · rw [gotEntryAddr_eq] at hword₁ hentry
    -- both are the last word with the address of the move
    have hsame : k₁ = k := by
      obtain hlt | heq | hlt := Nat.lt_trichotomy k₁ k
      · have hnot := hlater₁ k hlt (by omega)
        rw [gotEntryAddr_eq] at hnot
        exact absurd hword hnot
      · exact heq
      · exact absurd hword₁ (hlater k₁ hlt (by omega))
    rw [hentry, hsame, haddress]
  · have hnot := hnone k (Nat.zero_le k) (by omega)
    rw [gotEntryAddr_eq] at hnot
    exact absurd hword hnot

/-- Displaced words that cover the slots are enough for `readelf`. -/
theorem CoveredAt.locatesSlots (hnum : (ehdr p.file).eShnum ≠ 0) (hfirst : p.FirstLikeMain i)
    (hi : i < 2 ^ 31) (hint : p.numSlots < 2 ^ 31)
    (hcovered : p.CoveredAt ((p.symbol p.main).stValue - (p.symbol i).stValue)) :
    p.LocatesSlots := by
  intro un
  obtain ⟨entries, hloop, hentries⟩ := hcovered.exists_entries hint
  refine ⟨entries, ?_, hentries⟩
  rw [readelf_eq hnum hfirst, if_pos hi, Option.bind_some, hloop, Option.bind_some,
    hentries 1 le_rfl (by decide), Option.bind_some, memory_slot le_rfl (by decide),
    Option.bind_some]

/-- Without displacement the slots cover themselves. -/
theorem coveredAt_zero (p : MazeProgram) : p.CoveredAt 0 := by
  have hslot : ∀ k, p.slotAddress k + 0 = p.slotAddress k := fun k => BitVec.add_zero _
  simp only [CoveredAt, hslot]
  refine ⟨p.got_readable,
    fun j hj hj' => ⟨p.slot j, p.slot_lt j hj hj', rfl, fun k hk hk' heq => ?_⟩⟩
  exact hk.ne' ((p.slot_iff j hj hj' k hk').mp heq)

/-- Without the number of sections in the file header nothing need be located. -/
theorem not_locatesSlots_of_eShnum (hnum : (ehdr p.file).eShnum = 0) : ¬p.LocatesSlots := by
  intro hlocates
  -- the variables of `get_section` may contain zeros, so that the GOT looks empty
  obtain ⟨entries, hok, hentries⟩ := hlocates ⟨fun _ => zeroShdr, 0⟩
  simp only [readelf, Option.bind_eq_bind, Option.bind_eq_some_iff] at hok
  obtain ⟨symtab, _, got, hgot, strtab, _, mainOffset, _, entries', hloop, entry, hentry, _⟩ := hok
  have hsize : got.shSize.toNat / sizeofAddr = 0 := by
    rw [getSection_uninitialised hnum hgot]
    rfl
  rw [hsize, gotLoop, Option.some.injEq] at hloop
  rw [← hloop] at hentry
  cases hentry

/-- `readelf` locates the slots exactly when the file header gives the number of sections, an
`int` can count the slots and the symbols up to the first one whose name begins with `main`,
and that symbol has the value of `main`, or one that displaces the words to others that cover
the slots. -/
theorem locatesSlots_iff (p : MazeProgram) :
    p.LocatesSlots ↔ (ehdr p.file).eShnum ≠ 0 ∧ p.numSlots < 2 ^ 31 ∧
      ∃ i < 2 ^ 31, p.FirstLikeMain i ∧
        ((p.symbol i).stValue = (p.symbol p.main).stValue ∨
          p.CoveredAt ((p.symbol p.main).stValue - (p.symbol i).stValue)) := by
  constructor
  · intro hlocates
    have hnum : (ehdr p.file).eShnum ≠ 0 :=
      fun hnum => not_locatesSlots_of_eShnum hnum hlocates
    obtain ⟨i, hfirst⟩ := p.exists_firstLikeMain
    obtain ⟨hi, hint⟩ := hlocates.int hnum hfirst
    exact ⟨hnum, hint, i, hi, hfirst, .inr (hlocates.coveredAt hnum hfirst)⟩
  · rintro ⟨hnum, hint, i, hi, hfirst, hvalue | hcovered⟩
    · refine CoveredAt.locatesSlots hnum hfirst hi hint ?_
      rw [hvalue, BitVec.sub_self]
      exact p.coveredAt_zero
    · exact hcovered.locatesSlots hnum hfirst hi hint

end MazeProgram

/-- An image with a symbol `main_loop` of value 0x1100 before the symbol `main` of value
0x1200, and a GOT of 1200 slots. -/
def mainLoopImage : List UInt8 :=
  [ehdrBytes ⟨184, 64, 5, 4⟩, [0], ascii "main_loop", [0], ascii "main", [0],
    [0], ascii ".symtab", [0], ascii ".strtab", [0], ascii ".got", [0], ascii ".shstrtab", [0],
    symBytes ⟨0, 0⟩, symBytes ⟨1, 0x1100⟩, symBytes ⟨11, 0x1200⟩,
    shdrBytes zeroShdr, shdrBytes ⟨1, 2, 0, 0, 112, 72, 2, 1, 8, 24⟩,
    shdrBytes ⟨9, 3, 0, 0, 64, 16, 0, 0, 1, 0⟩, shdrBytes ⟨17, 8, 3, 0x4000, 0, 9600, 0, 0, 8, 8⟩,
    shdrBytes ⟨22, 3, 0, 0, 80, 32, 0, 0, 1, 0⟩].flatten

theorem wellFormed_mainLoop : WellFormed mainLoopImage where
  ident := by decide +kernel
  header := by decide +kernel
  size := by decide +kernel
  entsize := by decide +kernel
  noTable := by decide +kernel
  headers := by decide +kernel
  reserved := by decide +kernel
  extended := by decide +kernel
  escape := by decide +kernel
  names := by decide +kernel
  terminated := by decide +kernel

/-- The runtime address of the GOT of the sample. -/
def sampleGot : Addr := 0x555555558000

/-- The address of a move in the sample. -/
def sampleMove (j : ℕ) : Addr := BitVec.ofNat 64 (0x7ffff7fb0000 + 16 * j)

/-- Memory that is zero outside of the GOT; slot `k` belongs to move `k + 1`. -/
def sampleMemory (a : Addr) : Option (BitVec 64) :=
  if (a - sampleGot).toNat < 9600 then some (sampleMove ((a - sampleGot).toNat / 8 + 1)) else some 0

theorem sampleMove_inj {j j' : ℕ} (hj : j ≤ moveCount) (hj' : j' ≤ moveCount)
    (heq : sampleMove j = sampleMove j') : j = j' := by
  have hnat := congrArg BitVec.toNat heq
  simp only [sampleMove, BitVec.toNat_ofNat, moveCount] at hnat hj hj'
  omega

theorem sampleMemory_slot {k : ℕ} (hk : k < 1200) :
    sampleMemory (sampleGot + BitVec.ofNat 64 (k * sizeofAddr)) = some (sampleMove (k + 1)) := by
  have hdist := ByteMemory.distance_add sampleGot (k := k * sizeofAddr)
    (by simp only [sizeofAddr]; omega)
  have hlt : k * sizeofAddr < 9600 := by simp only [sizeofAddr]; omega
  have hdiv : k * sizeofAddr / 8 = k := Nat.mul_div_cancel k (by decide)
  rw [sampleMemory, hdist, if_pos hlt, hdiv]

theorem mainLoop_got : (sectionAt mainLoopImage 3).shAddr = 0x4000 ∧
    (sectionAt mainLoopImage 3).shSize.toNat / sizeofAddr = 1200 := by
  decide +kernel

/-- The contents of the GOT slots of the sample. -/
theorem sampleMemory_eq {k : ℕ} (hk : k < (sectionAt mainLoopImage 3).shSize.toNat / sizeofAddr) :
    sampleMemory (0x555555554000 + (sectionAt mainLoopImage 3).shAddr +
      BitVec.ofNat 64 (k * sizeofAddr)) = some (sampleMove (k + 1)) := by
  rw [mainLoop_got.1]
  exact sampleMemory_slot (mainLoop_got.2 ▸ hk)

/-- The image at the load address 0x555555554000. -/
def mainLoopProgram : MazeProgram where
  file := mainLoopImage
  wellFormed := wellFormed_mainLoop
  symtab := 1
  strtab := 2
  got := 3
  symtab_first := by unfold FirstNamed; decide +kernel
  strtab_first := by unfold FirstNamed; decide +kernel
  got_first := by unfold FirstNamed; decide +kernel
  symtab_inside := by decide +kernel
  strtab_inside := by decide +kernel
  main := 2
  main_pos := by decide
  main_lt := by decide +kernel
  main_name := by decide +kernel
  main_unique := by decide +kernel
  loadAddress := 0x555555554000
  moveAddress := sampleMove
  memory := sampleMemory
  got_readable k hk := by
    rw [sampleMemory_eq hk]
    rfl
  slot j := j - 1
  slot_lt j hj hj' := by
    rw [mainLoop_got.2]
    simp only [moveCount] at hj'
    omega
  slot_iff j hj hj' k hk := by
    have hk' : k < 1200 := mainLoop_got.2 ▸ hk
    rw [sampleMemory_eq hk, Option.some.injEq]
    constructor
    · intro heq
      have hjk := sampleMove_inj (Nat.succ_le_of_lt hk') hj' heq
      omega
    · rintro rfl
      rw [Nat.sub_add_cancel hj]
  distinct j j' _ hj _ hj' heq := sampleMove_inj hj hj' heq

theorem firstLikeMain_mainLoop : mainLoopProgram.FirstLikeMain 1 := by
  refine ⟨le_rfl, by decide +kernel, by decide +kernel, fun j hj hj' => by omega⟩

theorem mainLoop_slotAddress (k : ℕ) :
    mainLoopProgram.slotAddress k = sampleGot + BitVec.ofNat 64 (k * sizeofAddr) := by
  have hload : mainLoopProgram.slotAddress k = 0x555555554000 +
      (sectionAt mainLoopImage 3).shAddr + BitVec.ofNat 64 (k * sizeofAddr) := rfl
  rw [hload, mainLoop_got.1]
  rfl

/-- There `readelf` starts to look 0x100 bytes behind the slot of `move_1`. -/
theorem not_locatesSlots_mainLoop : ¬∀ p : MazeProgram, p.LocatesSlots := by
  intro hall
  have hcovered := (hall mainLoopProgram).coveredAt (by decide +kernel) firstLikeMain_mainLoop
  have hdisplaced : (mainLoopProgram.symbol mainLoopProgram.main).stValue -
      (mainLoopProgram.symbol 1).stValue = 0x100 := by decide +kernel
  obtain ⟨k, hk, haddress, _⟩ := hcovered.2 1 le_rfl (by decide)
  have hk' : k < 1200 := mainLoop_got.2 ▸ hk
  rw [hdisplaced, mainLoop_slotAddress, mainLoop_slotAddress] at haddress
  have hnat := congrArg BitVec.toNat haddress
  simp [sampleGot, sizeofAddr, mainLoopProgram] at hnat
  omega

end UnixProgramming.Libsolver
