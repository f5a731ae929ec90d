import UnixProgramming.Lib.Runs
import UnixProgramming.Logger.Memory

/-!
# Names and earlier calls

`handle_filename` keeps its two buffers from call to call. A name without extension is copied
with its terminator, but the part before an extension is copied without one, so that the
cells that earlier calls have left behind it are read as well. Over a run of calls, every
cell of `only_filename` is what the last call that reached it has stored there.
-/

namespace UnixProgramming.Logger

/-- A call of `handle_filename`. -/
structure NameCall where
  filename : CString
  extension : ℕ

/-- A call that returns, and the static buffers after it. -/
def NameStep (st : Statics) (call : NameCall) (st' : Statics) : Prop :=
  ∃ b, handleFilenameIn st call.filename call.extension = .ok (b, st')

/-- The characters that a call stores into `only_filename`, from the start on. -/
def NameCall.stored (call : NameCall) : List Char :=
  if call.extension = 1 then [] else
    match throughLast '.' (afterLast '/' call.filename.chars) with
    | [] => afterLast '/' call.filename.chars ++ ['\x00']
    | c :: stem => (c :: stem).dropLast

/-- What the last call that reached a cell of `only_filename` has stored there. -/
def lastStored (i : ℕ) : List (Statics × NameCall) → Char
  | [] => '\x00'
  | (_, call) :: history => (call.stored[i]?).getD (lastStored i history)

/-- `handle_filename(path, 0)` returns the last component of the path without its last
extension. -/
def ReturnsName (st : Statics) (path : CString) : Prop :=
  ∃ b st', handleFilenameIn st path 0 = .ok (b, st') ∧
    b.string '\x00' = some (fileName path.chars)

variable {st st' : Statics} {call : NameCall} {path : CString} {i : ℕ}
variable {history : List (Statics × NameCall)}

/-- A call that returns has a last component that fits. -/
theorem NameStep.fits (hstep : NameStep st call st') : LastPartFits call.filename := by
  by_contra hlong
  obtain ⟨b, hcall⟩ := hstep
  rw [handleFilenameIn_long hlong] at hcall
  cases hcall

/-- A call replaces the first cells of `only_filename`. -/
theorem NameStep.cells (hstep : NameStep st call st') :
    st'.onlyFilename.cells = call.stored ++ st.onlyFilename.cells.drop call.stored.length := by
  have hfits := hstep.fits
  obtain ⟨b, hcall⟩ := hstep
  by_cases hextension : call.extension = 1
  · obtain ⟨b', st₁, hcall', -, hkeep⟩ := handleFilenameIn_one st hfits
    rw [hextension, hcall'] at hcall
    obtain rfl := (Prod.mk.inj (Except.ok.inj hcall)).2
    simp [NameCall.stored, hextension, hkeep]
  · obtain ⟨st₁, hcall', hcells⟩ := handleFilenameIn_name st hfits hextension
    rw [hcall'] at hcall
    obtain rfl := (Prod.mk.inj (Except.ok.inj hcall)).2
    rw [hcells]
    simp only [handleFilename, NameCall.stored, if_neg hextension]
    cases throughLast '.' (afterLast '/' call.filename.chars) with
    | nil => simp [strcpy]
    | cons c stem => rfl

/-- In every run of calls from zeroed buffers, a cell holds what the last call that reached it
has stored there. -/
theorem run_cell (hrun : Run .zero NameStep history st) (hi : i < staticSize) :
    st.onlyFilename.cells[i]? = some (lastStored i history) := by
  induction hrun with
  | start => simp [Statics.zero, lastStored, hi]
  | @step history st st' call _ hstep ih =>
    rw [hstep.cells, lastStored, List.getElem?_append]
    by_cases hreach : i < call.stored.length
    · simp [hreach]
    · rw [if_neg hreach, List.getElem?_drop, Nat.add_sub_cancel' (Nat.not_lt.mp hreach), ih]
      simp [List.getElem?_eq_none (Nat.not_lt.mp hreach)]

/-- The name of a file is shorter than a static buffer when its last component is. -/
theorem length_fileName_lt (hfits : LastPartFits path) :
    (fileName path.chars).length < staticSize := by
  rw [LastPartFits] at hfits
  have hstem := (prefix_throughLast '.' (afterLast '/' path.chars)).length_le
  unfold fileName
  split
  · exact hfits
  · rename_i c stem heq
    rw [heq] at hstem
    rw [List.length_dropLast]
    omega

/-- The name is returned when it has no extension, or the cell behind it holds a terminator. -/
theorem returnsName_iff_cell (hfits : LastPartFits path) : ReturnsName st path ↔
    '.' ∉ afterLast '/' path.chars ∨
      st.onlyFilename.cells[(fileName path.chars).length]? = some '\x00' := by
  obtain ⟨st', hcall, hcells⟩ := handleFilenameIn_name st hfits Nat.zero_ne_one
  have hname := nul_notMem_fileName path.noNul
  have hreturns : ReturnsName st path ↔
      st'.onlyFilename.string '\x00' = some (fileName path.chars) := by
    rw [ReturnsName, hcall]
    simp
  have hdot : '.' ∉ afterLast '/' path.chars ↔ throughLast '.' (afterLast '/' path.chars) = [] :=
    throughLast_eq_nil_iff.symm
  rw [hreturns, Buffer.string_eq_some_iff, hcells, hdot]
  simp only [handleFilename, if_neg Nat.zero_ne_one]
  unfold fileName at hname ⊢
  cases hstem : throughLast '.' (afterLast '/' path.chars) with
  | nil =>
    simp only [hstem] at hname
    exact iff_of_true ⟨hname, _, rfl⟩ (.inl rfl)
  | cons c stem =>
    simp only [hstem] at hname
    simp only [strncpy, hname, not_false_eq_true, true_and, reduceCtorEq, false_or,
      List.append_cancel_left_eq, ← List.head?_drop, List.head?_eq_some_iff]

/-- In every run of calls from zeroed buffers, and for every path of which the last component
fits: the next call returns the name exactly when it has no extension, or the last call that
has reached the cell behind the name has stored a terminator there, or none has reached it. -/
theorem returnsName_run (history : List (Statics × NameCall)) (st : Statics)
    (hrun : Run .zero NameStep history st) (path : CString) (hfits : LastPartFits path) :
    ReturnsName st path ↔ '.' ∉ afterLast '/' path.chars ∨
      lastStored (fileName path.chars).length history = '\x00' := by
  rw [returnsName_iff_cell hfits, run_cell hrun (length_fileName_lt hfits), Option.some.injEq]

/-- A path with an extension. -/
def shortPath : CString := ⟨"/tmp/a.txt".toList, by decide⟩

theorem shortPath_fits : LastPartFits shortPath := by
  unfold LastPartFits
  decide +kernel

/-- A call for a file with a longer name. -/
def longCall : NameCall := ⟨⟨"/tmp/notes.txt".toList, by decide⟩, 0⟩

theorem longCall_fits : LastPartFits longCall.filename := by
  unfold LastPartFits
  decide +kernel

/-- A call for a file without extension. -/
def plainCall : NameCall := ⟨⟨"/tmp/b".toList, by decide⟩, 0⟩

theorem plainCall_fits : LastPartFits plainCall.filename := by
  unfold LastPartFits
  decide +kernel

/-- A call for a name that fits can be made. -/
theorem exists_nameStep (st : Statics) {path : CString} (hfits : LastPartFits path) :
    ∃ st', NameStep st ⟨path, 0⟩ st' := by
  obtain ⟨st', hcall, -⟩ := handleFilenameIn_name st hfits Nat.zero_ne_one
  exact ⟨st', _, hcall⟩

/-- After a longer name and one without extension, which stores its terminator, a short name is
returned. -/
theorem returnsName_run_plain : ∃ history st,
    history.map Prod.snd = [plainCall, longCall] ∧ Run .zero NameStep history st ∧
      ReturnsName st shortPath := by
  obtain ⟨st₁, hlong⟩ := exists_nameStep .zero longCall_fits
  obtain ⟨st₂, hplain⟩ := exists_nameStep st₁ plainCall_fits
  have hrun := Run.step (Run.step .start hlong) hplain
  refine ⟨_, st₂, rfl, hrun, (returnsName_run _ _ hrun _ shortPath_fits).mpr (.inr ?_)⟩
  have hreached : plainCall.stored[(fileName shortPath.chars).length]? = some '\x00' := by
    decide +kernel
  show (plainCall.stored[_]?).getD _ = _
  rw [hreached, Option.getD_some]

/-- After a longer name, a shorter one is returned with the end of it. -/
theorem not_returnsName_short : ¬∀ (history : List (Statics × NameCall)) (st : Statics),
    Run .zero NameStep history st → ∀ path, LastPartFits path → ReturnsName st path := by
  intro hall
  obtain ⟨st, hcall, hcells⟩ := handleFilenameIn_name .zero longCall_fits Nat.zero_ne_one
  have hreturns := hall _ st (.step .start (l := longCall) ⟨_, hcall⟩) shortPath shortPath_fits
  rw [returnsName_iff_cell shortPath_fits, hcells] at hreturns
  revert hreturns
  decide +kernel

end UnixProgramming.Logger
