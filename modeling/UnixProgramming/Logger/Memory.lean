import UnixProgramming.Lib.Buffers
import UnixProgramming.Lib.Loops
import UnixProgramming.Logger.Logs

/-!
# Names and rules in memory

`handle_filename` and `compare_blacklist` again, now over the arrays that they work on: the
two static buffers of 100 characters, the strings up to their terminators, the allocated
copy of a rule and the array of rules with its NULL. Every access is checked against the
size that the array was given. Where no access falls outside, the results are those of the
functions on lists.
-/

namespace UnixProgramming.Logger

/-- A C string: the characters before its terminator. -/
structure CString where
  chars : List Char
  noNul : '\x00' ∉ chars

/-- The memory of a C string, with the terminator. -/
def CString.cells (s : CString) : List Char := s.chars ++ ['\x00']

/-- An access that falls outside of its array does not return. -/
def access {α : Type} : Option α → Except Fault α
  | some a => .ok a
  | none => .error .outOfBounds

/-- The size of the static buffers. -/
def staticSize : ℕ := 100

/-- The static buffers of `handle_filename`. -/
structure Statics where
  lastPart : Buffer Char staticSize
  onlyFilename : Buffer Char staticSize

/-- The static buffers before the first call. -/
def Statics.zero : Statics := ⟨.filled '\x00' staticSize, .filled '\x00' staticSize⟩

/-- `handle_filename`: the static buffer that is returned, and both of them afterwards. -/
def handleFilenameIn (st : Statics) (filename : CString) (extension : ℕ) :
    Except Fault (Buffer Char staticSize × Statics) := do
  let lastPart ← access (st.lastPart.strcpy '\x00' (afterLast '/' filename.chars))
  if extension = 1 then pure (lastPart, { st with lastPart })
  else do
    let name ← access (lastPart.string '\x00')
    let onlyFilename ← access (
      match throughLast '.' name with
      | [] => st.onlyFilename.strcpy '\x00' name
      | c :: stem => st.onlyFilename.strncpy (c :: stem).dropLast)
    pure (onlyFilename, ⟨lastPart, onlyFilename⟩)

/-- The comparison loop on the memory from `filename` and `path` on: what is behind the
two positions where it stops. -/
def advanceIn : List Char → List Char → Option (List Char × List Char)
  | c :: filename, d :: path =>
    if c ≠ '\x00' ∧ d ≠ '*' ∧ c = d then advanceIn filename path
    else some (c :: filename, d :: path)
  | _, _ => none

/-- `new_path`: the rule without its last character, copied into `strlen(path)` bytes, and
whether the name contains it. -/
def containsNewPath (fresh : ℕ → Char) (filename path : CString) : Except Fault Bool := do
  let newPath : Buffer Char path.chars.length := .ofFn fresh _
  let newPath ← access (newPath.strncpy path.chars.dropLast)
  let newPath ← access (newPath.store (path.chars.length - 1) '\x00')
  let stem ← access (newPath.string '\x00')
  pure (stem <:+: filename.chars)

/-- Whether the rule ends with a `*` and the name contains what stands before it. An empty rule
has no last character: the index `strlen(path) - 1` is before the start of it. -/
def containsStemIn (fresh : ℕ → Char) (filename path : CString) : Except Fault Bool := do
  let last ← access path.chars.getLast?
  if last = '*' then containsNewPath fresh filename path else pure false

/-- The comparison of the last part of the name with a rule that starts with `./`. -/
def compareLastPart (st : Statics) (filename path : CString) : Except Fault (Bool × Statics) := do
  let (onlyFilename, st) ← handleFilenameIn st filename 1
  let name ← access (onlyFilename.string '\x00')
  pure (name = path.chars.drop 2, st)

/-- One pass of `compare_blacklist`. -/
def compareRuleIn (fresh : ℕ → Char) (st : Statics) (filename path : CString) :
    Except Fault (Bool × Statics) := do
  let (filenameLeft, pathLeft) ← access (advanceIn filename.cells path.cells)
  if pathLeft.head? = some '*' ∨ filenameLeft.head? = some '\x00' then pure (true, st)
  else do
    let found ← containsStemIn fresh filename path
    if found then pure (true, st)
    else if ['.', '/'] <+: path.chars then compareLastPart st filename path
    else pure (false, st)

/-- `compare_blacklist` on an array of rules, of which `none` is the NULL at the end. -/
def compareArray (fresh : ℕ → Char) (filename : CString) :
    Statics → List (Option CString) → Except Fault (Bool × Statics)
  | _, [] => .error .outOfBounds
  | st, none :: _ => .ok (false, st)
  | st, some path :: array => do
    let (inBlacklist, st) ← compareRuleIn fresh st filename path
    if inBlacklist then pure (true, st) else compareArray fresh filename st array

/-- `compare_blacklist`, with `none` for the NULL list. -/
def compareBlacklistIn (fresh : ℕ → Char) (st : Statics) (filename : CString) :
    Option (List (Option CString)) → Except Fault (Bool × Statics)
  | none => .ok (false, st)
  | some array => compareArray fresh filename st array

/-- The array of a list of rules, with its NULL. -/
def ruleArray (rules : List CString) : List (Option CString) := rules.map some ++ [none]

variable {st : Statics} {filename path : CString} {fresh : ℕ → Char} {extension : ℕ}

@[simp] theorem access_some {α : Type} (a : α) : access (some a) = .ok a := rfl

@[simp] theorem access_none {α : Type} : access (none : Option α) = .error .outOfBounds := rfl

/-- An access returns exactly what is found inside of the array. -/
theorem access_eq_ok {α : Type} {found : Option α} {a : α} :
    access found = .ok a ↔ found = some a := by
  cases found <;> simp

/-- Accesses one after another. -/
theorem access_bind {α β : Type} (found : Option α) (f : α → Option β) :
    access (found.bind f) = access found >>= fun a => access (f a) := by
  cases found <;> rfl

/-- The last component of a path fits into a static buffer. -/
def LastPartFits (filename : CString) : Prop := (afterLast '/' filename.chars).length < staticSize

/-! ## The file name -/

/-- No terminator is in the last part of a name. -/
theorem nul_notMem_lastPart (filename : CString) : '\x00' ∉ afterLast '/' filename.chars :=
  fun hmem => filename.noNul ((afterLast_suffix '/' filename.chars).subset hmem)

/-- A last part that is too long is copied behind the end of `last_part`. -/
theorem handleFilenameIn_long (hlong : ¬LastPartFits filename) :
    handleFilenameIn st filename extension = .error .outOfBounds := by
  have hnone : st.lastPart.strcpy '\x00' (afterLast '/' filename.chars) = none := by
    rw [Option.eq_none_iff_forall_ne_some]
    exact fun b hb => hlong (Buffer.strcpy_eq_some_iff.mp hb).1
  rw [handleFilenameIn, hnone]
  rfl

/-- A last part that fits is returned when the extension is kept. -/
theorem handleFilenameIn_one (st : Statics) (hfits : LastPartFits filename) :
    ∃ b st', handleFilenameIn st filename 1 = .ok (b, st') ∧
      b.string '\x00' = some (afterLast '/' filename.chars) ∧
      st'.onlyFilename = st.onlyFilename := by
  obtain ⟨b, hb, hcells⟩ := st.lastPart.exists_strcpy '\x00' hfits
  refine ⟨b, { st with lastPart := b }, ?_, ?_, rfl⟩
  · rw [handleFilenameIn, hb]
    rfl
  · exact Buffer.string_eq_some_iff.mpr ⟨nul_notMem_lastPart filename, _, hcells⟩

/-- A last part that fits gives the name, as on lists. -/
theorem handleFilenameIn_name (st : Statics) (hfits : LastPartFits filename)
    (hextension : extension ≠ 1) :
    ∃ st', handleFilenameIn st filename extension = .ok (st'.onlyFilename, st') ∧
      st'.onlyFilename.cells =
        (handleFilename st.onlyFilename.cells filename.chars extension).2 := by
  obtain ⟨b, hb, hcells⟩ := st.lastPart.exists_strcpy '\x00' hfits
  have hstring : b.string '\x00' = some (afterLast '/' filename.chars) :=
    Buffer.string_eq_some_iff.mpr ⟨nul_notMem_lastPart filename, _, hcells⟩
  simp only [handleFilenameIn, handleFilename, hb, hstring, access_some, ok_bind,
    if_neg hextension]
  cases hstem : throughLast '.' (afterLast '/' filename.chars) with
  | nil =>
    obtain ⟨b', hb', hcells'⟩ := st.onlyFilename.exists_strcpy '\x00' hfits
    refine ⟨⟨b, b'⟩, ?_, hcells'⟩
    simp only [hb', access_some, ok_bind]
    rfl
  | cons c stem =>
    have hlength : (c :: stem).dropLast.length ≤ staticSize := by
      have hpart := (prefix_throughLast '.' (afterLast '/' filename.chars)).length_le
      rw [hstem] at hpart
      rw [LastPartFits] at hfits
      rw [List.length_dropLast]
      omega
    obtain ⟨b', hb', hcells'⟩ := st.onlyFilename.exists_strncpy hlength
    refine ⟨⟨b, b'⟩, ?_, hcells'⟩
    simp only [hb', access_some, ok_bind]
    rfl

/-! ## The rules -/

/-- The comparison loop reports the name: it stops at a `*` or at the end of the name. -/
def StopsAtMatch (filename path : CString) : Prop :=
  (advance filename.chars path.chars).2.head? = some '*' ∨
    (advance filename.chars path.chars).1 = []

/-- The rule ends with a `*`, and the name contains what stands before it. -/
def ContainsStem (filename path : CString) : Prop :=
  path.chars.getLast? = some '*' ∧ path.chars.dropLast <:+: filename.chars

instance (filename path : CString) : Decidable (ContainsStem filename path) :=
  inferInstanceAs (Decidable (_ ∧ _))

/-- One pass stays inside of its arrays: the loop reports the name, or the rule is not empty,
and the last part of the name fits where it is compared. -/
def RuleInside (filename path : CString) : Prop :=
  StopsAtMatch filename path ∨
    path.chars ≠ [] ∧
      (ContainsStem filename path ∨ ¬['.', '/'] <+: path.chars ∨ LastPartFits filename)

/-- The loop on memory stops where the one on lists does. -/
theorem advanceIn_eq {f p : List Char} (hfree : '\x00' ∉ f) :
    advanceIn (f ++ ['\x00']) (p ++ ['\x00']) =
      some ((advance f p).1 ++ ['\x00'], (advance f p).2 ++ ['\x00']) := by
  induction f generalizing p with
  | nil => cases p <;> simp [advanceIn, advance]
  | cons c f ih =>
    simp only [List.mem_cons, not_or] at hfree
    have hc : c ≠ '\x00' := Ne.symm hfree.1
    cases p with
    | nil => simp [advanceIn, advance, hc]
    | cons d p =>
      by_cases hsame : d ≠ '*' ∧ c = d
      · rw [advance, if_pos hsame, ← ih hfree.2]
        simp only [List.cons_append, advanceIn, if_pos (And.intro hc hsame)]
      · rw [advance, if_neg hsame]
        simp only [List.cons_append, advanceIn, if_neg fun h => hsame (And.right h)]

/-- What is left of a name is a part of it. -/
theorem advance_suffix (f p : List Char) : (advance f p).1 <:+ f := by
  fun_induction advance f p with
  | case1 c f d p hsame ih => exact ih.trans (List.suffix_cons c f)
  | case2 => exact List.suffix_refl _
  | case3 => exact List.suffix_refl _

/-- The test behind the loop, on memory. -/
theorem stopsAtMatch_iff :
    (((advance filename.chars path.chars).2 ++ ['\x00']).head? = some '*' ∨
      ((advance filename.chars path.chars).1 ++ ['\x00']).head? = some '\x00') ↔
      StopsAtMatch filename path := by
  have hname : '\x00' ∉ (advance filename.chars path.chars).1 :=
    fun hmem => filename.noNul ((advance_suffix _ _).subset hmem)
  rw [StopsAtMatch]
  revert hname
  cases (advance filename.chars path.chars).2 <;> cases (advance filename.chars path.chars).1 <;>
    simp +contextual [eq_comm]

/-- The allocated copy of a rule that is not empty holds the rule without its last character. -/
theorem containsNewPath_eq (hne : path.chars ≠ []) :
    containsNewPath fresh filename path = .ok (path.chars.dropLast <:+: filename.chars) := by
  have hpos := List.length_pos_of_ne_nil hne
  have hlength : path.chars.dropLast.length = path.chars.length - 1 := List.length_dropLast
  obtain ⟨b, hb, hcells⟩ := (Buffer.ofFn fresh path.chars.length).exists_strncpy
    (s := path.chars.dropLast) (by omega)
  obtain ⟨b', hb', hcells'⟩ := b.exists_store (i := path.chars.length - 1) '\x00' (by omega)
  have htake : b.cells.take (path.chars.length - 1) = path.chars.dropLast := by
    rw [hcells, ← hlength, List.take_left]
  rw [htake] at hcells'
  have hstring : b'.string '\x00' = some path.chars.dropLast :=
    Buffer.string_eq_some_iff.mpr
      ⟨fun hmem => path.noNul (List.dropLast_subset _ hmem), _, hcells'⟩
  rw [containsNewPath, hb]
  simp only [access_some, ok_bind, hb', hstring]
  rfl

/-- The test for a final `*`, on a rule that is not empty. -/
theorem containsStemIn_eq (hne : path.chars ≠ []) :
    containsStemIn fresh filename path = .ok (ContainsStem filename path) := by
  simp only [containsStemIn, ContainsStem, List.getLast?_eq_getLast_of_ne_nil hne, access_some,
    ok_bind, Option.some.injEq]
  by_cases hstar : path.chars.getLast hne = '*'
  · simp [hstar, containsNewPath_eq hne]
  · simp [hstar]

/-- The last part of a name that fits is compared as on lists. -/
theorem compareLastPart_eq (st : Statics) (path : CString) (hfits : LastPartFits filename) :
    ∃ st', compareLastPart st filename path =
      .ok (afterLast '/' filename.chars = path.chars.drop 2, st') := by
  obtain ⟨b, st', hcall, hstring, -⟩ := handleFilenameIn_one st hfits
  refine ⟨st', ?_⟩
  simp only [compareLastPart, hcall, ok_bind, hstring, access_some]
  rfl

/-- Where the loop reports the name, the pass returns. -/
theorem compareRuleIn_stops (fresh : ℕ → Char) (st : Statics)
    (hstops : StopsAtMatch filename path) :
    compareRuleIn fresh st filename path = .ok (true, st) := by
  simp only [compareRuleIn, CString.cells, advanceIn_eq filename.noNul, access_some, ok_bind]
  rw [if_pos (stopsAtMatch_iff.mpr hstops)]
  rfl

/-- Where the loop does not report the name, the other tests are made. -/
theorem compareRuleIn_goes (fresh : ℕ → Char) (st : Statics)
    (hstops : ¬StopsAtMatch filename path) :
    compareRuleIn fresh st filename path = (containsStemIn fresh filename path >>= fun found =>
      if found then pure (true, st)
      else if ['.', '/'] <+: path.chars then compareLastPart st filename path
      else pure (false, st)) := by
  simp only [compareRuleIn, CString.cells, advanceIn_eq filename.noNul, access_some, ok_bind]
  rw [if_neg (stopsAtMatch_iff.not.mpr hstops)]

/-- What one pass reports. -/
theorem compareRule_eq_true_iff : compareRule filename.chars path.chars = true ↔
    StopsAtMatch filename path ∨ ContainsStem filename path ∨
      ['.', '/'] <+: path.chars ∧ afterLast '/' filename.chars = path.chars.drop 2 := by
  simp only [compareRule, StopsAtMatch, ContainsStem, handleFilename, if_true]
  split
  · simp [*]
  · split
    · simp [*]
    · split <;> simp [*]

/-- One pass that stays inside of its arrays compares as on lists. -/
theorem compareRuleIn_eq (fresh : ℕ → Char) (st : Statics)
    (hinside : RuleInside filename path) :
    ∃ st', compareRuleIn fresh st filename path =
      .ok (compareRule filename.chars path.chars, st') := by
  by_cases hstops : StopsAtMatch filename path
  · rw [compareRule_eq_true_iff.mpr (.inl hstops)]
    exact ⟨st, compareRuleIn_stops fresh st hstops⟩
  obtain hstops' | ⟨hne, hrest⟩ := hinside
  · exact absurd hstops' hstops
  rw [compareRuleIn_goes fresh st hstops, containsStemIn_eq hne, ok_bind]
  by_cases hstem : ContainsStem filename path
  · refine ⟨st, ?_⟩
    rw [if_pos (decide_eq_true hstem), compareRule_eq_true_iff.mpr (.inr (.inl hstem))]
    rfl
  rw [if_neg (mt of_decide_eq_true hstem)]
  by_cases hdot : ['.', '/'] <+: path.chars
  · have hfits : LastPartFits filename := by tauto
    obtain ⟨st', hlast⟩ := compareLastPart_eq st path hfits
    refine ⟨st', ?_⟩
    have hsame : compareRule filename.chars path.chars =
        decide (afterLast '/' filename.chars = path.chars.drop 2) := by
      rw [Bool.eq_iff_iff, compareRule_eq_true_iff]
      simp [hstops, hstem, hdot]
    rw [if_pos hdot, hlast, hsame]
  · refine ⟨st, ?_⟩
    have hno : compareRule filename.chars path.chars = false := by
      simp [← Bool.not_eq_true, compareRule_eq_true_iff, hstops, hstem, hdot]
    rw [if_neg hdot, hno]
    rfl

/-- One pass that does not stay inside of its arrays does not return. -/
theorem compareRuleIn_error (fresh : ℕ → Char) (st : Statics)
    (hinside : ¬RuleInside filename path) :
    compareRuleIn fresh st filename path = .error .outOfBounds := by
  rw [RuleInside, not_or, not_and_or, not_not] at hinside
  obtain ⟨hstops, hinside⟩ := hinside
  rw [compareRuleIn_goes fresh st hstops]
  by_cases hne : path.chars = []
  · simp [containsStemIn, hne, error_bind]
  · obtain hnil | hrest := hinside
    · exact absurd hnil hne
    simp only [not_or, not_not] at hrest
    obtain ⟨hstem, hdot, hlong⟩ := hrest
    rw [containsStemIn_eq hne, ok_bind, if_neg (mt of_decide_eq_true hstem), if_pos hdot,
      compareLastPart, handleFilenameIn_long hlong, error_bind]

/-- The rules of an array before its NULL. -/
def initialRules : List (Option CString) → List (List Char)
  | some path :: array => path.chars :: initialRules array
  | _ => []

/-- The passes over an array stay inside, up to the rule that reports the name or to the NULL. -/
def ArrayInside (filename : CString) : List (Option CString) → Prop
  | [] => False
  | none :: _ => True
  | some path :: array => RuleInside filename path ∧
      (compareRule filename.chars path.chars = true ∨ ArrayInside filename array)

variable {array : List (Option CString)} {rules : List CString}

@[simp] theorem initialRules_ruleArray (rules : List CString) :
    initialRules (ruleArray rules) = rules.map CString.chars := by
  induction rules with
  | nil => rfl
  | cons rule rules ih => exact congrArg (rule.chars :: ·) ih

/-- Passes that stay inside compare with the rules of the array as on lists. -/
theorem compareArray_eq (fresh : ℕ → Char) (st : Statics)
    (hinside : ArrayInside filename array) :
    ∃ st', compareArray fresh filename st array =
      .ok (compareBlacklist filename.chars (some (initialRules array)), st') := by
  induction array generalizing st with
  | nil => exact absurd hinside id
  | cons entry array ih =>
    cases entry with
    | none => exact ⟨st, rfl⟩
    | some path =>
      obtain ⟨hrule, hrest⟩ := hinside
      obtain ⟨st₁, hpass⟩ := compareRuleIn_eq fresh st hrule
      simp only [compareArray, hpass, ok_bind, initialRules, compareBlacklist, List.any_cons]
      cases hhit : compareRule filename.chars path.chars with
      | true => exact ⟨st₁, rfl⟩
      | false => simpa [compareBlacklist] using ih st₁ (by simpa [hhit] using hrest)

/-- Passes that do not stay inside do not return. -/
theorem compareArray_error (fresh : ℕ → Char) (st : Statics)
    (hinside : ¬ArrayInside filename array) :
    compareArray fresh filename st array = .error .outOfBounds := by
  induction array generalizing st with
  | nil => rfl
  | cons entry array ih =>
    cases entry with
    | none => exact absurd trivial hinside
    | some path =>
      rw [ArrayInside, not_and_or] at hinside
      by_cases hrule : RuleInside filename path
      · obtain hno | hrest := hinside
        · exact absurd hrule hno
        rw [not_or, Bool.not_eq_true] at hrest
        obtain ⟨st₁, hpass⟩ := compareRuleIn_eq fresh st hrule
        rw [compareArray, hpass, ok_bind, hrest.1]
        exact ih st₁ hrest.2
      · rw [compareArray, compareRuleIn_error fresh st hrule, error_bind]

/-- An array of rules with its NULL is searched inside when every pass stays inside. -/
theorem arrayInside_ruleArray (hrules : ∀ rule ∈ rules, RuleInside filename rule) :
    ArrayInside filename (ruleArray rules) := by
  induction rules with
  | nil => trivial
  | cons rule rules ih =>
    rw [List.forall_mem_cons] at hrules
    exact ⟨hrules.1, .inr (ih hrules.2)⟩

/-- On rules of which every pass stays inside, `compare_blacklist` compares as on lists. -/
theorem compareBlacklistIn_ruleArray (fresh : ℕ → Char) (st : Statics)
    (hrules : ∀ rule ∈ rules, RuleInside filename rule) :
    ∃ st', compareBlacklistIn fresh st filename (some (ruleArray rules)) =
      .ok (compareBlacklist filename.chars (some (rules.map CString.chars)), st') := by
  have harray := compareArray_eq fresh st (arrayInside_ruleArray hrules)
  rwa [initialRules_ruleArray] at harray

end UnixProgramming.Logger
