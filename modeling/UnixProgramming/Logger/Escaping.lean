import UnixProgramming.Logger.Memory

/-!
# Escaping newlines

`get_total_content` over the two arrays that it allocates: `total_content`, of which the loop
reads one character after another, and `not_translate`, of which the string is returned. The
loop copies the character behind a newline without looking at it, and the terminator is
stored where `strlen` finds one already. Where the loop stays inside of its array, it stores
what the function over lists does, by `getTotalContent_of_ok`.
-/

namespace UnixProgramming.Logger

/-- The loop on the array from `p` on: the characters that are stored into `not_translate`,
`none` when `p` gets behind the array. -/
def escapeCells : List Char → Option (List Char)
  | [] => none
  | [c] => if c = '\x00' then some [] else none
  | c :: d :: cells =>
    if c = '\x00' then some []
    else if c = '\n' then (escapeCells cells).map fun stored => '\\' :: 'n' :: d :: stored
    else (escapeCells (d :: cells)).map (c :: ·)

/-- `get_total_content`: the array `not_translate`. Before the loop it holds what `malloc` finds.
`getTotalContent_of_ok` compares it with `getTotalContent`. -/
def getTotalContentIn (fresh : ℕ → Char) (ptr : CString) :
    Except Fault (Buffer Char (ptr.chars.length * 2)) := do
  let totalContent : Buffer Char (ptr.chars.length + 1) := .ofFn fresh _
  let totalContent ← access (totalContent.strncpy ptr.chars)
  let totalContent ← access (totalContent.store ptr.chars.length '\x00')
  let stored ← access (escapeCells totalContent.cells)
  let notTranslate : Buffer Char (ptr.chars.length * 2) := .ofFn fresh _
  let notTranslate ← access (notTranslate.storeAll 0 stored)
  let content ← access (notTranslate.string '\x00')
  access (notTranslate.store content.length '\x00')

/-- Every newline is followed by another character that is no newline. -/
def NewlinesFollowed : List Char → Prop
  | [] => True
  | [c] => c ≠ '\n'
  | c :: d :: text => (c = '\n' → d ≠ '\n') ∧ NewlinesFollowed (d :: text)

/-- `get_total_content` stays inside of its arrays and returns the escaped text, in which no
newline is left. -/
def EscapesRight (fresh : ℕ → Char) (ptr : CString) : Prop :=
  ∃ out text, getTotalContentIn fresh ptr = .ok out ∧ out.string '\x00' = some text ∧
    text = escape ptr.chars ∧ '\n' ∉ text

variable {c d : Char} {text cells stored : List Char} {fresh : ℕ → Char} {ptr : CString}

/-! ## The escaped text -/

/-- What `escape` makes of a text, by its first character: at the end there is nothing, -/
@[simp] theorem escape_nil : escape [] = [] := rfl

/-- a newline becomes two characters, -/
@[simp] theorem escape_newline : escape ('\n' :: text) = '\\' :: 'n' :: escape text := rfl

/-- and every other character stays. -/
theorem escape_cons (hline : c ≠ '\n') : escape (c :: text) = c :: escape text := by
  simp [escape, hline]

/-- No newline is left in an escaped text. -/
theorem newline_notMem_escape (text : List Char) : '\n' ∉ escape text := by
  induction text with
  | nil => simp
  | cons c text ih =>
    by_cases hline : c = '\n'
    · simp [hline, ih]
    · simp [escape_cons hline, ih, Ne.symm hline]

/-- Escaping brings no terminator into a text. -/
theorem nul_notMem_escape (htext : '\x00' ∉ text) : '\x00' ∉ escape text := by
  induction text with
  | nil => simp
  | cons c text ih =>
    simp only [List.mem_cons, not_or] at htext
    by_cases hline : c = '\n'
    · simp [hline, ih htext.2]
    · simp [escape_cons hline, ih htext.2, htext.1]

/-- In front of a text, a character that is no newline changes nothing. -/
theorem newlinesFollowed_cons (hline : c ≠ '\n') :
    NewlinesFollowed (c :: text) ↔ NewlinesFollowed text := by
  cases text <;> simp [NewlinesFollowed, hline]

/-- A newline must be followed by a character that is none. -/
theorem newlinesFollowed_newline : NewlinesFollowed ('\n' :: text) ↔
    ∃ d rest, text = d :: rest ∧ d ≠ '\n' ∧ NewlinesFollowed rest := by
  cases text with
  | nil => simp [NewlinesFollowed]
  | cons d rest =>
    by_cases hline : d = '\n'
    · simp [NewlinesFollowed, hline]
    · simp [NewlinesFollowed, hline, newlinesFollowed_cons hline]

/-- The escaped text of followed newlines is shorter than twice the text. -/
theorem length_escape_lt (hne : text ≠ []) (hfollowed : NewlinesFollowed text) :
    (escape text).length < text.length * 2 := by
  induction text using List.twoStepInduction with
  | nil => exact absurd rfl hne
  | singleton c => simp [escape_cons (show c ≠ '\n' from hfollowed)]
  | cons_cons c d rest ihRest ihNext =>
    by_cases hline : c = '\n'
    · subst hline
      obtain ⟨_, _, heq, hd, hrest⟩ := newlinesFollowed_newline.mp hfollowed
      obtain ⟨rfl, rfl⟩ := List.cons.inj heq
      rw [escape_newline, escape_cons hd]
      simp only [List.length_cons]
      cases hnil : rest with
      | nil => simp
      | cons e rest' =>
        have := ihRest (by simp [hnil]) hrest
        rw [hnil] at this
        simp only [List.length_cons] at this ⊢
        omega
    · rw [escape_cons hline]
      have := ihNext d (List.cons_ne_nil d rest) ((newlinesFollowed_cons hline).mp hfollowed)
      simp only [List.length_cons] at this ⊢
      omega

/-! ## The loop -/

/-- The same on cells. The loop ends at a terminator, -/
@[simp] theorem escapeCells_nul : escapeCells ('\x00' :: cells) = some [] := by
  cases cells <;> simp [escapeCells]

/-- copies a character that is not a newline, -/
theorem escapeCells_cons (hnul : c ≠ '\x00') (hline : c ≠ '\n') :
    escapeCells (c :: cells) = (escapeCells cells).map (c :: ·) := by
  cases cells <;> simp [escapeCells, hnul, hline]

/-- and copies the character behind a newline without a look at it. -/
@[simp] theorem escapeCells_newline : escapeCells ('\n' :: d :: cells) =
    (escapeCells cells).map fun stored => '\\' :: 'n' :: d :: stored := by
  simp [escapeCells]

/-- When every newline is followed, the loop stores the escaped text and stops at the
terminator. -/
theorem escapeCells_followed (htext : '\x00' ∉ text) (hfollowed : NewlinesFollowed text) :
    escapeCells (text ++ ['\x00']) = some (escape text) := by
  induction text using List.twoStepInduction with
  | nil => simp
  | singleton c =>
    have hnul : c ≠ '\x00' := by simpa [eq_comm] using htext
    simp [escapeCells_cons hnul hfollowed, escape_cons hfollowed]
  | cons_cons c d rest ihRest ihNext =>
    simp only [List.mem_cons, not_or] at htext
    by_cases hline : c = '\n'
    · subst hline
      obtain ⟨_, _, heq, hd, hrest⟩ := newlinesFollowed_newline.mp hfollowed
      obtain ⟨rfl, rfl⟩ := List.cons.inj heq
      simp [ihRest htext.2.2 hrest, escape_cons hd]
    · have hnext := ihNext d (by simpa using htext.2) ((newlinesFollowed_cons hline).mp hfollowed)
      rw [List.cons_append, escapeCells_cons (Ne.symm htext.1) hline, hnext, escape_cons hline]
      rfl

/-- What the loop stores holds no terminator, and a newline unless every newline is followed. -/
theorem followed_of_escapeCells (htext : '\x00' ∉ text)
    (hloop : escapeCells (text ++ ['\x00']) = some stored) :
    '\x00' ∉ stored ∧ ('\n' ∉ stored → NewlinesFollowed text) := by
  induction text using List.twoStepInduction generalizing stored with
  | nil =>
    obtain rfl : [] = stored := by simpa using hloop
    exact ⟨by simp, fun _ => trivial⟩
  | singleton c =>
    have hnul : c ≠ '\x00' := by simpa [eq_comm] using htext
    by_cases hline : c = '\n'
    · simp [hline, escapeCells] at hloop
    · simp only [List.cons_append, escapeCells_cons hnul hline, List.nil_append, escapeCells_nul,
        Option.map_some, Option.some.injEq] at hloop
      subst hloop
      exact ⟨by simpa using hnul.symm, fun _ => hline⟩
  | cons_cons c d rest ihRest ihNext =>
    simp only [List.mem_cons, not_or] at htext
    by_cases hline : c = '\n'
    · subst hline
      simp only [List.cons_append, escapeCells_newline, Option.map_eq_some_iff] at hloop
      obtain ⟨copied, hrest, rfl⟩ := hloop
      obtain ⟨hnul, hfollowed⟩ := ihRest htext.2.2 hrest
      refine ⟨by simp [hnul, htext.2.1], fun hclean => ?_⟩
      simp only [List.mem_cons, not_or] at hclean
      exact newlinesFollowed_newline.mpr
        ⟨d, rest, rfl, Ne.symm hclean.2.2.1, hfollowed hclean.2.2.2⟩
    · rw [List.cons_append, escapeCells_cons (Ne.symm htext.1) hline,
        Option.map_eq_some_iff] at hloop
      obtain ⟨copied, hrest, rfl⟩ := hloop
      obtain ⟨hnul, hfollowed⟩ := ihNext d (by simpa using htext.2) hrest
      refine ⟨by simp [hnul, htext.1], fun hclean => ?_⟩
      simp only [List.mem_cons, not_or] at hclean
      exact (newlinesFollowed_cons hline).mpr (hfollowed hclean.2)

/-- On memory that goes on behind the array, the loop on lists stores the same. -/
theorem escapeLoop_of_escapeCells (behind : List Char) (hloop : escapeCells cells = some stored) :
    escapeLoop (cells ++ behind) = stored := by
  induction cells using List.twoStepInduction generalizing stored with
  | nil => simp [escapeCells] at hloop
  | singleton c =>
    rw [escapeCells, Option.ite_none_right_eq_some, Option.some.injEq] at hloop
    obtain ⟨rfl, rfl⟩ := hloop
    cases behind <;> simp [escapeLoop]
  | cons_cons c d rest ihRest ihNext =>
    rw [escapeCells] at hloop
    simp only [List.cons_append, escapeLoop]
    split at hloop
    · rw [if_pos ‹_›]
      exact Option.some.inj hloop
    · rw [if_neg ‹_›]
      split at hloop
      · rw [if_pos ‹_›]
        obtain ⟨copied, hrest, rfl⟩ := Option.map_eq_some_iff.mp hloop
        rw [ihRest hrest]
      · rw [if_neg ‹_›]
        obtain ⟨copied, hrest, rfl⟩ := Option.map_eq_some_iff.mp hloop
        exact congrArg (c :: ·) (ihNext d hrest)

/-! ## The whole function -/

/-- `get_total_content` is the loop on a copy of the text, and the string behind what it stores. -/
theorem getTotalContentIn_eq (fresh : ℕ → Char) (ptr : CString) :
    getTotalContentIn fresh ptr = (do
      let stored ← access (escapeCells ptr.cells)
      let notTranslate ← access
        ((Buffer.ofFn fresh (ptr.chars.length * 2)).storeAll 0 stored)
      let content ← access (notTranslate.string '\x00')
      access (notTranslate.store content.length '\x00')) := by
  obtain ⟨b, hb, hcells⟩ := (Buffer.ofFn fresh (ptr.chars.length + 1)).exists_strncpy
    (s := ptr.chars) (by omega)
  obtain ⟨b', hb', hcells'⟩ := b.exists_store (i := ptr.chars.length) '\x00' (by omega)
  have hcopy : b'.cells = ptr.cells := by
    have hend : b.cells.drop (ptr.chars.length + 1) = [] := by
      rw [List.drop_eq_nil_iff, b.length_eq]
    rw [hcells', hend, hcells, List.take_left]
    rfl
  rw [getTotalContentIn, hb]
  simp only [access_some, ok_bind, hb', hcopy]

/-- Where `get_total_content` stays inside, the function on lists stores the same characters. -/
theorem getTotalContent_of_ok {out : Buffer Char (ptr.chars.length * 2)}
    (hcall : getTotalContentIn fresh ptr = .ok out) (u : Unspecified) :
    ∃ stored, access (escapeCells ptr.cells) = .ok stored ∧
      getTotalContent u ptr.cells = stored ++ u.freshBuffer := by
  rw [getTotalContentIn_eq, bind_eq_ok] at hcall
  obtain ⟨stored, hloop, -⟩ := hcall
  refine ⟨stored, hloop, ?_⟩
  have hstring : cstring '\x00' ptr.cells = ptr.chars := cstring_append ptr.noNul (by simp)
  have hlists := escapeLoop_of_escapeCells u.behindContent (access_eq_ok.mp hloop)
  rw [getTotalContent, hstring, ← hlists, CString.cells, List.append_assoc]
  rfl

/-- Storing the terminator of a string again leaves the string. -/
theorem string_store_length {n : ℕ} {b b' : Buffer Char n} {content : List Char}
    (hstring : b.string '\x00' = some content)
    (hstore : b.store content.length '\x00' = some b') : b' = b := by
  obtain ⟨-, rest, hcells⟩ := Buffer.string_eq_some_iff.mp hstring
  have hlength : content.length < n := by
    rw [← b.length_eq, hcells, List.length_append, List.length_cons]
    omega
  obtain ⟨b'', hb'', hcells'⟩ := b.exists_store '\x00' hlength
  obtain rfl := Option.some.inj (hstore.symm.trans hb'')
  have htake : (content ++ '\x00' :: rest).take content.length = content := List.take_left
  have hdrop : (content ++ '\x00' :: rest).drop (content.length + 1) = rest := by simp
  rw [hcells, htake, hdrop, ← hcells] at hcells'
  exact Buffer.ext hcells'

/-- The memory that `malloc` returns, from one of its cells on. -/
theorem drop_ofFn (fresh : ℕ → Char) {k n : ℕ} (hk : k < n) :
    (Buffer.ofFn fresh n).cells.drop k =
      fresh k :: (Buffer.ofFn fresh n).cells.drop (k + 1) := by
  rw [List.drop_eq_getElem_cons (by simpa using hk)]
  simp

/-- Where the escaped text is returned, no newline is skipped, and `malloc` has found a zero
behind the text. -/
theorem EscapesRight.followed (hright : EscapesRight fresh ptr) :
    ptr.chars ≠ [] ∧ NewlinesFollowed ptr.chars ∧ fresh (escape ptr.chars).length = '\x00' := by
  rw [EscapesRight, getTotalContentIn_eq] at hright
  obtain ⟨out, text, hcall, hstring, rfl, hclean⟩ := hright
  simp only [bind_eq_ok, access_eq_ok] at hcall
  obtain ⟨stored, hloop, b, hstored, content, hcontent, hstore⟩ := hcall
  obtain rfl := string_store_length hcontent hstore
  obtain ⟨hnul, hfollowed⟩ := followed_of_escapeCells ptr.noNul hloop
  obtain ⟨-, hcells⟩ := Buffer.storeAll_eq_some_iff.mp hstored
  obtain ⟨-, rest, hread⟩ := Buffer.string_eq_some_iff.mp hstring
  rw [List.take_zero, List.nil_append, Nat.zero_add] at hcells
  -- what was stored is the beginning of the string
  have hbegins : escape ptr.chars = stored ++ cstring '\x00'
      ((Buffer.ofFn fresh (ptr.chars.length * 2)).cells.drop stored.length) := by
    rw [← cstring_append_left hnul, ← hcells, hread]
    exact (cstring_append (nul_notMem_escape ptr.noNul) (by simp)).symm
  have hlines : NewlinesFollowed ptr.chars := by
    apply hfollowed
    intro hmem
    exact hclean (hbegins ▸ List.mem_append_left _ hmem)
  have hsame := escapeCells_followed ptr.noNul hlines
  obtain rfl := Option.some.inj (hloop.symm.trans hsame)
  have hne : ptr.chars ≠ [] := by
    intro hnil
    have hlength := out.length_eq
    rw [hread, hnil] at hlength
    simp at hlength
  refine ⟨hne, hlines, ?_⟩
  rw [hcells, drop_ofFn fresh (length_escape_lt hne hlines)] at hread
  exact (List.cons.inj (List.append_cancel_left hread)).1

/-- The zero that `malloc` has found ends the stored text. -/
theorem escapesRight_of_followed (hne : ptr.chars ≠ []) (hlines : NewlinesFollowed ptr.chars)
    (hzero : fresh (escape ptr.chars).length = '\x00') : EscapesRight fresh ptr := by
  have hlength := length_escape_lt hne hlines
  obtain ⟨b, hb, hcells⟩ := Buffer.exists_storeAll
    (b := Buffer.ofFn fresh (ptr.chars.length * 2)) (i := 0)
    (show 0 + (escape ptr.chars).length ≤ _ by omega)
  rw [List.take_zero, List.nil_append, Nat.zero_add, drop_ofFn fresh hlength, hzero] at hcells
  have hstring : b.string '\x00' = some (escape ptr.chars) :=
    Buffer.string_eq_some_iff.mpr ⟨nul_notMem_escape ptr.noNul, _, hcells⟩
  obtain ⟨b', hb', -⟩ := b.exists_store '\x00' hlength
  obtain rfl := string_store_length hstring hb'
  refine ⟨b', escape ptr.chars, ?_, hstring, rfl, newline_notMem_escape _⟩
  rw [getTotalContentIn_eq]
  simp only [CString.cells, escapeCells_followed ptr.noNul hlines, access_some, ok_bind, hb,
    hstring, hb']

/-- For every text, and whatever `malloc` finds: the escaped text is returned, and every access
stays inside, exactly when the text is not empty, every newline in it is followed by a
character that is no newline, and `malloc` finds a zero behind the escaped text. -/
theorem escapesRight_iff (fresh : ℕ → Char) (ptr : CString) :
    EscapesRight fresh ptr ↔
      ptr.chars ≠ [] ∧ NewlinesFollowed ptr.chars ∧ fresh (escape ptr.chars).length = '\x00' :=
  ⟨EscapesRight.followed, fun h => escapesRight_of_followed h.1 h.2.1 h.2.2⟩

/-- A line with its newline, as programs write it. -/
def helloLine : CString := ⟨"hello\n".toList, by decide⟩

/-- A text that ends with a newline is read behind its terminator. -/
theorem not_escapesRight_line :
    ¬∀ (fresh : ℕ → Char) (ptr : CString), EscapesRight fresh ptr := by
  intro hall
  obtain ⟨out, text, hcall, -⟩ := hall (fun _ => '\x00') helloLine
  have hfault : getTotalContentIn (fun _ => '\x00') helloLine = .error .outOfBounds := rfl
  rw [hfault] at hcall
  cases hcall

end UnixProgramming.Logger
