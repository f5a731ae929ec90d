import UnixProgramming.Lib.CStrings

/-!
# Buffers

A buffer has a fixed number of cells. Storing behind its last cell fails, and so does
reading a string that has no terminator inside of the buffer. `strcpy`, `strncpy` and
`strcat` store one cell after another; what they store, and when they fail, is said once
for all sequences of stores.
-/

namespace UnixProgramming

variable {α : Type*} {n : ℕ}

/-- The cells of an array with room for `n` values. -/
@[ext]
structure Buffer (α : Type*) (n : ℕ) where
  cells : List α
  length_eq : cells.length = n

namespace Buffer

/-- Memory of which the content is given by index, as `malloc` finds it. -/
def ofFn (fresh : ℕ → α) (n : ℕ) : Buffer α n := ⟨(List.range n).map fresh, by simp⟩

/-- A buffer with one value in all cells. -/
def filled (c : α) (n : ℕ) : Buffer α n := ⟨List.replicate n c, List.length_replicate⟩

/-- Store one value, `none` behind the end. -/
def store (b : Buffer α n) (i : ℕ) (c : α) : Option (Buffer α n) :=
  if i < n then some ⟨b.cells.set i c, by simp [b.length_eq]⟩ else none

/-- Store values one after another from an index on. -/
def storeAll (b : Buffer α n) : ℕ → List α → Option (Buffer α n)
  | _, [] => some b
  | i, c :: cs => (b.store i c).bind fun b => b.storeAll (i + 1) cs

variable [DecidableEq α]

/-- The string at the start of the buffer, `none` when no terminator is in it. -/
def string (nul : α) (b : Buffer α n) : Option (List α) :=
  if nul ∈ b.cells then some (cstring nul b.cells) else none

/-- `strcpy`: a string with its terminator. -/
def strcpy (nul : α) (b : Buffer α n) (s : List α) : Option (Buffer α n) :=
  b.storeAll 0 (s ++ [nul])

/-- `strncpy` of the first characters of a longer string, without a terminator. -/
def strncpy (b : Buffer α n) (s : List α) : Option (Buffer α n) := b.storeAll 0 s

/-- `strcat`: a string with its terminator, over the terminator of the string before. -/
def strcat (nul : α) (b : Buffer α n) (s : List α) : Option (Buffer α n) :=
  (b.string nul).bind fun t => b.storeAll t.length (s ++ [nul])

/-- `strcat` of several strings, one after another. -/
def strcatAll (nul : α) : Buffer α n → List (List α) → Option (Buffer α n)
  | b, [] => some b
  | b, s :: ss => (b.strcat nul s).bind fun b => b.strcatAll nul ss

variable {b b' : Buffer α n} {i : ℕ} {c nul : α} {cs s t rest : List α} {ss ss' : List (List α)}

omit [DecidableEq α]

@[simp] theorem cells_ofFn (fresh : ℕ → α) (n : ℕ) :
    (ofFn fresh n).cells = (List.range n).map fresh := rfl

@[simp] theorem cells_filled (c : α) (n : ℕ) : (filled c n).cells = List.replicate n c := rfl

/-- A store within the buffer replaces one cell. -/
theorem exists_store (b : Buffer α n) (c : α) (hi : i < n) :
    ∃ b', b.store i c = some b' ∧ b'.cells = b.cells.take i ++ c :: b.cells.drop (i + 1) := by
  refine ⟨⟨b.cells.set i c, by simp [b.length_eq]⟩, if_pos hi, ?_⟩
  exact List.set_eq_take_append_cons_drop.trans (if_pos (b.length_eq.symm ▸ hi))

/-- A store behind the end fails. -/
theorem store_eq_none (b : Buffer α n) (c : α) (hi : n ≤ i) : b.store i c = none :=
  if_neg (Nat.not_lt.mpr hi)

/-- A sequence of stores succeeds when it ends within the buffer, and replaces the cells there. -/
theorem storeAll_eq_some_iff : b.storeAll i cs = some b' ↔
    (cs ≠ [] → i + cs.length ≤ n) ∧
      b'.cells = b.cells.take i ++ cs ++ b.cells.drop (i + cs.length) := by
  induction cs generalizing b i with
  | nil =>
    rw [storeAll, Option.some.injEq, Buffer.ext_iff, eq_comm]
    simp
  | cons c cs ih =>
    rw [storeAll, store]
    by_cases hi : i < n
    · have hlength : i < b.cells.length := b.length_eq.symm ▸ hi
      have htake : (b.cells.set i c).take (i + 1) = b.cells.take i ++ [c] := by
        rw [List.take_add_one, List.take_set_of_le (Nat.le_refl i)]
        simp [hlength]
      have hdrop : (b.cells.set i c).drop (i + 1 + cs.length) =
          b.cells.drop (i + (c :: cs).length) := by
        rw [List.drop_set_of_lt (by omega), List.length_cons]
        congr 1
        omega
      have hbound : (cs ≠ [] → i + 1 + cs.length ≤ n) ↔ i + (c :: cs).length ≤ n := by
        rw [List.length_cons]
        cases cs with
        | nil => simp [Nat.succ_le_of_lt hi]
        | cons d cs =>
          simp only [ne_eq, reduceCtorEq, not_false_eq_true, forall_const]
          omega
      rw [if_pos hi, Option.bind_some, ih, htake, hdrop, hbound]
      simp
    · have hbound : ¬i + (c :: cs).length ≤ n := by
        rw [List.length_cons]
        omega
      rw [if_neg hi, Option.bind_none]
      exact iff_of_false (by simp) fun h => hbound (h.1 (List.cons_ne_nil c cs))

/-- Stores that end within the buffer succeed. -/
theorem exists_storeAll (h : i + cs.length ≤ n) : ∃ b', b.storeAll i cs = some b' ∧
    b'.cells = b.cells.take i ++ cs ++ b.cells.drop (i + cs.length) := by
  have hlength := b.length_eq
  refine ⟨⟨b.cells.take i ++ cs ++ b.cells.drop (i + cs.length), ?_⟩, ?_, rfl⟩
  · simp only [List.length_append, List.length_take, List.length_drop]
    omega
  · exact storeAll_eq_some_iff.mpr ⟨fun _ => h, rfl⟩

/-- `strcpy` needs room for the terminator. -/
theorem strcpy_eq_some_iff : b.strcpy nul s = some b' ↔
    s.length < n ∧ b'.cells = s ++ nul :: b.cells.drop (s.length + 1) := by
  have hroom : (s ++ [nul] ≠ [] → 0 + (s ++ [nul]).length ≤ n) ↔ s.length < n := by
    rw [forall_prop_of_true (by simp), List.length_append, List.length_singleton, Nat.zero_add]
    exact Nat.succ_le_iff
  rw [strcpy, storeAll_eq_some_iff, hroom]
  simp

/-- A string that fits with its terminator is copied. -/
theorem exists_strcpy (b : Buffer α n) (nul : α) (hfits : s.length < n) :
    ∃ b', b.strcpy nul s = some b' ∧ b'.cells = s ++ nul :: b.cells.drop (s.length + 1) := by
  have hroom : 0 + (s ++ [nul]).length ≤ n := by
    rw [List.length_append, List.length_singleton]
    omega
  obtain ⟨b', hb', -⟩ := exists_storeAll (b := b) hroom
  exact ⟨b', hb', (strcpy_eq_some_iff.mp hb').2⟩

/-- `strncpy` leaves the cells behind the characters as they are. -/
theorem strncpy_eq_some_iff : b.strncpy s = some b' ↔
    s.length ≤ n ∧ b'.cells = s ++ b.cells.drop s.length := by
  rw [strncpy, storeAll_eq_some_iff]
  cases s <;> simp

/-- Characters that fit are copied. -/
theorem exists_strncpy (b : Buffer α n) (hfits : s.length ≤ n) :
    ∃ b', b.strncpy s = some b' ∧ b'.cells = s ++ b.cells.drop s.length := by
  have hroom : 0 + s.length ≤ n := by omega
  obtain ⟨b', hb', -⟩ := exists_storeAll (b := b) hroom
  exact ⟨b', hb', (strncpy_eq_some_iff.mp hb').2⟩

variable [DecidableEq α]

/-- The string in a buffer stands before the first terminator. -/
theorem string_eq_some_iff : b.string nul = some s ↔
    nul ∉ s ∧ ∃ rest, b.cells = s ++ nul :: rest := by
  have hread (s rest : List α) (hfree : nul ∉ s) : cstring nul (s ++ nul :: rest) = s :=
    cstring_append hfree (by simp)
  constructor
  · intro hstring
    rw [string, Option.ite_none_right_eq_some, Option.some.injEq] at hstring
    obtain ⟨hmem, rfl⟩ := hstring
    obtain ⟨t, rest, hcells, hfree⟩ := List.eq_append_cons_of_mem hmem
    rw [hcells, hread t rest hfree]
    exact ⟨hfree, rest, rfl⟩
  · rintro ⟨hfree, rest, hcells⟩
    rw [string, if_pos (by simp [hcells]), hcells, hread s rest hfree]

/-- `strcat` needs room for both strings and a terminator. -/
theorem strcat_eq_some_iff (hstring : b.string nul = some t) : b.strcat nul s = some b' ↔
    (t ++ s).length < n ∧ b'.cells = t ++ s ++ nul :: b.cells.drop ((t ++ s).length + 1) := by
  obtain ⟨-, rest, hcells⟩ := string_eq_some_iff.mp hstring
  have htake : b.cells.take t.length = t := by simp [hcells]
  have hbound : (s ++ [nul] ≠ [] → t.length + (s ++ [nul]).length ≤ n) ↔
      (t ++ s).length < n := by
    simp only [ne_eq, List.append_eq_nil_iff, List.cons_ne_self, and_false, not_false_eq_true,
      forall_const, List.length_append, List.length_singleton]
    omega
  rw [strcat, hstring, Option.bind_some, storeAll_eq_some_iff, htake, hbound]
  simp [Nat.add_assoc]

/-- Strings that fit together with a terminator are joined. -/
theorem exists_strcat (hstring : b.string nul = some t) (hfree : nul ∉ s)
    (hfits : (t ++ s).length < n) :
    ∃ b', b.strcat nul s = some b' ∧ b'.string nul = some (t ++ s) := by
  obtain ⟨hnul, -⟩ := string_eq_some_iff.mp hstring
  have hroom : t.length + (s ++ [nul]).length ≤ n := by
    simp only [List.length_append, List.length_singleton] at hfits ⊢
    omega
  obtain ⟨b', hb', -⟩ := exists_storeAll (b := b) hroom
  have hcat : b.strcat nul s = some b' := by rw [strcat, hstring, Option.bind_some, hb']
  refine ⟨b', hcat, string_eq_some_iff.mpr ⟨?_, _, ((strcat_eq_some_iff hstring).mp hcat).2⟩⟩
  simp [hnul, hfree]

/-- Strings that do not fit together are not joined. -/
theorem strcat_eq_none (hstring : b.string nul = some t) (hlong : n ≤ (t ++ s).length) :
    b.strcat nul s = none := by
  rw [Option.eq_none_iff_forall_ne_some]
  intro b' hb'
  exact absurd ((strcat_eq_some_iff hstring).mp hb').1 (Nat.not_lt.mpr hlong)

/-- A buffer of terminators holds the empty string. -/
theorem string_filled (nul : α) (hn : 0 < n) : (filled nul n).string nul = some [] := by
  obtain ⟨m, rfl⟩ := Nat.exists_eq_add_of_lt hn
  refine string_eq_some_iff.mpr ⟨List.not_mem_nil, List.replicate (0 + m) nul, ?_⟩
  exact List.replicate_succ

/-- A string in a buffer is shorter than the buffer. -/
theorem length_lt_of_string (hstring : b.string nul = some t) : t.length < n := by
  obtain ⟨-, rest, hcells⟩ := string_eq_some_iff.mp hstring
  rw [← b.length_eq, hcells, List.length_append, List.length_cons]
  omega

/-- Several strings are added one part after the other. -/
theorem strcatAll_append :
    b.strcatAll nul (ss ++ ss') = (b.strcatAll nul ss).bind fun b => b.strcatAll nul ss' := by
  induction ss generalizing b with
  | nil => rfl
  | cons s ss ih =>
    rw [List.cons_append, strcatAll, strcatAll, Option.bind_assoc]
    exact congrArg _ (funext fun _ => ih)

/-- Several strings can be added exactly when there is room for all of them together. -/
theorem strcatAll_isSome_iff (hstring : b.string nul = some t) (hfree : ∀ s ∈ ss, nul ∉ s) :
    (b.strcatAll nul ss).isSome ↔ (t ++ ss.flatten).length < n := by
  induction ss generalizing b t with
  | nil => simp [strcatAll, length_lt_of_string hstring]
  | cons s ss ih =>
    rw [List.forall_mem_cons] at hfree
    rw [strcatAll, List.flatten_cons, ← List.append_assoc]
    by_cases hfits : (t ++ s).length < n
    · obtain ⟨b', hb', hjoined⟩ := exists_strcat hstring hfree.1 hfits
      rw [hb', Option.bind_some, ih hjoined hfree.2]
    · have hlonger : (t ++ s).length ≤ (t ++ s ++ ss.flatten).length :=
        (List.prefix_append _ _).length_le
      rw [strcat_eq_none hstring (Nat.not_lt.mp hfits)]
      simp only [Option.bind_none, Option.isSome_none, Bool.false_eq_true, false_iff]
      omega

end Buffer

end UnixProgramming
