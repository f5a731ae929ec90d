import UnixProgramming.Sdb.CommandLine

/-!
# Scripts

Commands that are typed one after another do what `perform` does with them, whatever the buffer
and the locals held before. A line asks for the same in all of them exactly when its operands
are complete.
-/

namespace UnixProgramming.Sdb

open Libsolver (isSpace scanSign scanInt decimal scanSign_blanks scanInt_decimal isSpace_ends)

variable {γ δ : Type} {P : Program γ δ} {steps : ℕ} {s s' : Session γ δ} {c : Command}
variable {cs : List Command} {line rest command command' word blanks : Text}
variable {locals locals' : Locals} {v : BitVec 64}

/-! ## Operands -/

/-- `printf` with `%lx`. -/
def hex (v : BitVec 64) : Text := Nat.toDigits 16 v.toNat

/-- No mark is read from digits, -/
theorem skipMark_digits {digits : Text} (hne : digits ≠ [])
    (hdigits : ∀ c ∈ digits, isXDigit c = true)
    (hrest : ∀ c, rest.head? = some c → c ≠ 'x' ∧ c ≠ 'X') :
    skipMark (digits ++ rest) = digits ++ rest := by
  have hmark : ∀ c tail, digits ++ rest = '0' :: c :: tail → c ≠ 'x' ∧ c ≠ 'X' := by
    intro c tail heq
    obtain ⟨d, tail', rfl⟩ := List.exists_cons_of_ne_nil hne
    have htail : tail' ++ rest = c :: tail := (List.cons.inj heq).2
    cases tail' with
    | nil => exact hrest c (by simpa using congrArg List.head? htail)
    | cons e tail' =>
      obtain rfl : e = c := (List.cons.inj htail).1
      have he := hdigits e (by simp)
      refine ⟨?_, ?_⟩ <;> rintro rfl <;> simp [isXDigit] at he
  unfold skipMark
  split
  · next heq => exact absurd rfl (hmark _ _ heq).1
  · next heq => exact absurd rfl (hmark _ _ heq).2
  · rfl

/-- so `%lx` reads what it prints. -/
theorem scanHex_hex (hblanks : ∀ c ∈ blanks, isSpace c = true)
    (hrest : ∀ c, rest.head? = some c → isXDigit c = false ∧ c ≠ 'x' ∧ c ≠ 'X') :
    scanHex (blanks ++ (hex v ++ rest)) = some (v, rest) := by
  have hne : hex v ≠ [] := toDigits_ne_nil 16 v.toNat
  have hdigits : ∀ c ∈ hex v, isXDigit c = true := isXDigit_of_mem_toDigits (by omega) le_rfl
  have hvalue : numeralValue 16 (hex v) = v.toNat := numeralValue_toDigits (by omega) le_rfl _
  obtain ⟨htake, hdrop⟩ := span_append hdigits fun c hc => (hrest c hc).1
  have hsign := @scanSign_blanks blanks _ rest hblanks hne hdigits
  have hmark := skipMark_digits hne hdigits fun c hc => (hrest c hc).2
  simp only [scanHex, hsign, hmark, htake, hdrop, if_neg hne, hvalue, if_pos v.isLt,
    Bool.false_eq_true, if_false, BitVec.ofNat_toNat, BitVec.setWidth_eq]

/-! ## Lines -/

/-- A word is compared with the line alone, -/
theorem begins_stored (hword : nul ∉ word) :
    begins (stored command line) word = word.isPrefixOf line := by
  have hiff : word <+: line ++ nul :: command.drop (line.length + 1) ↔ word <+: line := by
    refine ⟨fun hprefix => ?_, fun hprefix => hprefix.trans (List.prefix_append _ _)⟩
    rcases List.prefix_or_prefix_of_prefix hprefix (List.prefix_append line _) with h | h
    · exact h
    · obtain ⟨tail, rfl⟩ := h
      rw [List.prefix_append_right_inj] at hprefix
      cases tail with
      | nil => simp
      | cons c tail =>
        obtain rfl : c = nul := (List.cons_prefix_cons.mp hprefix).1
        exact absurd (by simp) hword
  rw [begins, stored, Bool.eq_iff_iff, List.isPrefixOf_iff_prefix, List.isPrefixOf_iff_prefix, hiff]

/-- and an operand that begins before its end is read from it. -/
theorem operand_stored {n : ℕ} (hn : n ≤ line.length) :
    operand (stored command line) n = cstring nul (line.drop n) := by
  rw [operand, stored, List.drop_append_of_le_length hn]
  by_cases hmem : nul ∈ line.drop n
  · exact cstring_append_of_mem hmem _
  · rw [cstring_append hmem (by simp), cstring_eq_self hmem]

/-! ## Commands -/

/-- How a command is typed. -/
def Command.text : Command → Text
  | .brk addr => ['b', 'r', 'e', 'a', 'k', ' '] ++ hex addr
  | .delete id => ['d', 'e', 'l', 'e', 't', 'e', ' '] ++ decimal id
  | .patch addr value len _ =>
    ['p', 'a', 't', 'c', 'h', ' '] ++ (hex addr ++ ' ' :: (hex value ++ ' ' :: decimal len))
  | .resume .si => ['s', 'i']
  | .resume .cont => ['c', 'o', 'n', 't']
  | .resume .syscall => ['s', 'y', 's', 'c', 'a', 'l', 'l']

/-- What a command that is typed asks for. -/
def Command.request : Command → Request
  | .brk addr => .brk addr
  | .delete id => .delete (BitVec.ofInt 32 id)
  | .patch addr value len _ => .patch addr value (BitVec.ofNat 32 len)
  | .resume cmd => .resume cmd

/-- The number of a breakpoint is an `int`. -/
def Command.Typable : Command → Prop
  | .delete id => -2 ^ 31 ≤ id ∧ id < 2 ^ 31
  | _ => True

/-- Numbers have no spaces and no terminators in them. -/
theorem digit_ne {ch : Char} (hch : isXDigit ch = true ∨ ch = '-') : ch ≠ nul ∧ ch ≠ '\n' := by
  have hlow : '-'.toNat ≤ ch.toNat := by
    rcases hch with hch | rfl
    · exact le_trans (by decide) (le_toNat_of_isXDigit hch)
    · exact le_rfl
  refine ⟨?_, ?_⟩ <;> rintro rfl <;> exact absurd hlow (by decide)

theorem isXDigit_of_mem_hex {ch : Char} (hch : ch ∈ hex v) : isXDigit ch = true :=
  isXDigit_of_mem_toDigits (by omega) le_rfl ch hch

theorem isXDigit_of_mem_decimal {i : ℤ} {ch : Char} (hch : ch ∈ decimal i) :
    isXDigit ch = true ∨ ch = '-' := by
  have hdigits := @isXDigit_of_mem_toDigits 10 i.natAbs (by omega) (by omega)
  unfold decimal at hch
  split at hch
  · rcases List.mem_cons.mp hch with rfl | hch
    · exact .inr rfl
    · exact .inl (hdigits ch hch)
  · exact .inl (hdigits ch hch)

/-- A command is typed on one line without terminators. -/
theorem Command.text_ne {ch : Char} (hch : ch ∈ c.text) : ch ≠ nul ∧ ch ≠ '\n' := by
  have hhex : ∀ {v : BitVec 64}, ch ∈ hex v → ch ≠ nul ∧ ch ≠ '\n' := fun hch =>
    digit_ne (.inl (isXDigit_of_mem_hex hch))
  have hdecimal : ∀ {i : ℤ}, ch ∈ decimal i → ch ≠ nul ∧ ch ≠ '\n' := fun hch =>
    digit_ne (isXDigit_of_mem_decimal hch)
  have hword : ∀ word : Text, (∀ c ∈ word, c ≠ nul ∧ c ≠ '\n') → ch ∈ word →
      ch ≠ nul ∧ ch ≠ '\n' := fun word hword hch => hword ch hch
  cases c with
  | brk addr =>
    rcases List.mem_append.mp hch with hch | hch
    · exact hword _ (by simp [nul]) hch
    · exact hhex hch
  | delete id =>
    rcases List.mem_append.mp hch with hch | hch
    · exact hword _ (by simp [nul]) hch
    · exact hdecimal hch
  | patch addr value len hlen =>
    rcases List.mem_append.mp hch with hch | hch
    · exact hword _ (by simp [nul]) hch
    rcases List.mem_append.mp hch with hch | hch
    · exact hhex hch
    rcases List.mem_cons.mp hch with rfl | hch
    · simp [nul]
    rcases List.mem_append.mp hch with hch | hch
    · exact hhex hch
    rcases List.mem_cons.mp hch with rfl | hch
    · simp [nul]
    · exact hdecimal hch
  | resume cmd => cases cmd <;> exact hword _ (by simp [nul, Command.text]) hch

/-- A line with an operand asks for the number that is scanned from it, -/
theorem request_brk (hline : ['b', 'r', 'e', 'a', 'k'] <+: line) :
    request locals (stored command line) =
      .brk (((scanHex (operand (stored command line) 6)).map Prod.fst).getD locals.addr) := by
  obtain ⟨rest, rfl⟩ := hline
  simp [request, begins_stored, nul]

theorem request_delete (hline : ['d', 'e', 'l', 'e', 't', 'e'] <+: line) :
    request locals (stored command line) =
      .delete (((scanInt (operand (stored command line) 7)).map Prod.fst).getD locals.id) := by
  obtain ⟨rest, rfl⟩ := hline
  simp [request, begins_stored, nul]

theorem request_patch (hline : ['p', 'a', 't', 'c', 'h'] <+: line) :
    request locals (stored command line) =
      .patch (scanPatch locals (operand (stored command line) 6)).1
        (scanPatch locals (operand (stored command line) 6)).2.1
        (scanPatch locals (operand (stored command line) 6)).2.2 := by
  obtain ⟨rest, rfl⟩ := hline
  simp [request, begins_stored, nul]

/-- The string in a rest that begins with a space begins with it, or is empty. -/
theorem head_cstring {ch : Char} (hch : (cstring nul rest).head? = some ch) :
    rest.head? = some ch := by
  obtain ⟨tail, htail⟩ := cstring_prefix_self nul rest
  rw [← htail, List.head?_append, hch]
  rfl

/-- What is typed as a command asks for it, with other spaces behind it as well. -/
theorem request_text (hc : c.Typable) (hrest : ∀ ch, rest.head? = some ch → isSpace ch = true) :
    request locals (stored command (c.text ++ rest)) = c.request := by
  have hends := fun ch hch => isSpace_ends (hrest ch (@head_cstring rest ch hch))
  have hoperand : ∀ (word number : Text) (n : ℕ), word.length = n → nul ∉ number →
      operand (stored command (word ++ number ++ rest)) n = number ++ cstring nul rest := by
    rintro word number n rfl hfree
    rw [operand_stored (by simp), List.append_assoc, List.drop_left, cstring_append_left hfree]
  have hhex : ∀ v : BitVec 64, nul ∉ hex v := fun v hmem =>
    (digit_ne (.inl (isXDigit_of_mem_hex hmem))).1 rfl
  have hdecimal : ∀ i : ℤ, nul ∉ decimal i := fun i hmem =>
    (digit_ne (isXDigit_of_mem_decimal hmem)).1 rfl
  cases c with
  | brk addr =>
    have hline : ['b', 'r', 'e', 'a', 'k'] <+: (Command.brk addr).text ++ rest :=
      ⟨' ' :: hex addr ++ rest, by simp [Command.text]⟩
    have hscan := @scanHex_hex (cstring nul rest) [] addr (by simp) fun ch hch =>
      ⟨(hends ch hch).1, (hends ch hch).2.1, (hends ch hch).2.2.1⟩
    rw [request_brk hline, Command.text, hoperand _ _ 6 rfl (hhex addr)]
    rw [List.nil_append] at hscan
    rw [hscan]
    rfl
  | delete id =>
    have hline : ['d', 'e', 'l', 'e', 't', 'e'] <+: (Command.delete id).text ++ rest :=
      ⟨' ' :: decimal id ++ rest, by simp [Command.text]⟩
    have hscan := @scanInt_decimal id [] (cstring nul rest) (by simp) (by have := hc.1; omega)
      (by have := hc.2; omega) fun ch hch => (hends ch hch).2.2.2
    rw [request_delete hline, Command.text, hoperand _ _ 7 rfl (hdecimal id)]
    rw [List.nil_append] at hscan
    rw [hscan]
    rfl
  | patch addr value len hlen =>
    have hline : ['p', 'a', 't', 'c', 'h'] <+: (Command.patch addr value len hlen).text ++ rest :=
      ⟨' ' :: (hex addr ++ ' ' :: (hex value ++ ' ' :: decimal len)) ++ rest,
        by simp [Command.text]⟩
    have hspace : ∀ text : Text, ∀ ch, (' ' :: text).head? = some ch →
        isXDigit ch = false ∧ ch ≠ 'x' ∧ ch ≠ 'X' := by
      rintro text ch hch
      obtain rfl : ' ' = ch := Option.some.inj hch
      decide
    have hfree : nul ∉ hex addr ++ ' ' :: (hex value ++ ' ' :: decimal len) := by
      simp only [List.mem_append, List.mem_cons, hhex, hdecimal, or_false, false_or]
      decide
    have haddr := @scanHex_hex (' ' :: (hex value ++ ' ' :: (decimal len ++ cstring nul rest))) []
      addr (by simp) (hspace _)
    have hvalue := @scanHex_hex (' ' :: (decimal len ++ cstring nul rest)) [' '] value
      (by simp [isSpace]) (hspace _)
    have hscan := @scanInt_decimal len [' '] (cstring nul rest) (by simp [isSpace]) (by omega)
      (by omega) fun ch hch => (hends ch hch).2.2.2
    rw [request_patch hline, Command.text, hoperand _ _ 6 rfl hfree]
    simp only [List.nil_append, List.cons_append, List.append_assoc] at haddr hvalue hscan ⊢
    simp only [scanPatch, haddr, hvalue, hscan]
    rfl
  | resume cmd => cases cmd <;> simp [request, begins_stored, Command.text, nul, Command.request]

/-- It is then carried out. -/
theorem serve_request (hc : c.Typable) :
    serve P steps s c.request = answer (perform P steps s c) := by
  cases c with
  | brk addr => rfl
  | delete id =>
    have hid : (BitVec.ofInt 32 id).toInt = id := by
      rw [BitVec.toInt_ofInt]
      exact Int.bmod_eq_of_le (by have := hc.1; omega) (by have := hc.2; omega)
    simp only [serve, Command.request, hid, perform]
  | patch addr value len hlen =>
    have hint : (BitVec.ofNat 32 len).toInt = len := by
      obtain ⟨hpos, hle⟩ := hlen
      interval_cases len <;> rfl
    simp only [serve, Command.request, hint, perform, Int.toNat_natCast]
    rw [if_pos (by omega)]
  | resume cmd => rfl

/-! ## Scripts -/

/-- Commands one after another, with everything that they print. -/
def transcript (P : Program γ δ) (steps : ℕ) (s : Session γ δ) :
    List Command → Except Halt (List Output × Session γ δ)
  | [] => .ok ([], s)
  | c :: cs => do
    let (out, s) ← perform P steps s c
    let (rest, s) ← transcript P steps s cs
    pure (out ++ rest, s)

/-- The lines of a script, before the one with `q`. -/
theorem serveLines_commands (lines : List Text) (hline : ['q'] <+: line)
    (hcs : ∀ c ∈ cs, c.Typable) (locals : ℕ → Locals) (command : Text) (s : Session γ δ) :
    serveLines P steps (cs.map (fun c => c.text ++ ['\n']) ++ line :: lines) locals command s =
      answer (transcript P steps s cs) := by
  induction cs generalizing locals command s with
  | nil =>
    obtain ⟨rest, rfl⟩ := hline
    simp [serveLines, begins_stored, nul, transcript, answer]
  | cons c cs ih =>
    have hc := hcs c List.mem_cons_self
    have hrest := ih fun d hd => hcs d (List.mem_cons_of_mem c hd)
    have hquit : begins (stored command (c.text ++ ['\n'])) ['q'] = false := by
      rw [begins_stored (by simp [nul])]
      rcases c with _ | _ | _ | _ | _ | _ <;> rfl
    have hrequest := @request_text c ['\n'] command (locals 0) hc (by simp [isSpace])
    rw [List.map_cons, List.cons_append, serveLines]
    simp only [hquit, hrequest, serve_request hc, hrest, Bool.false_eq_true, if_false, transcript]
    cases perform P steps s c with
    | error h => rfl
    | ok result =>
      obtain ⟨out, s₁⟩ := result
      cases htail : transcript P steps s₁ cs with
      | error h => simp only [answer, ok_bind, error_bind, htail]
      | ok tail => simp only [answer, ok_bind, htail, pure, Except.pure, List.map_append]

/-- A path that is typed behind `load`. -/
def IsPath (path : Text) : Prop := path ≠ [] ∧ ∀ ch ∈ path, isSpace ch = false ∧ ch ≠ nul

/-- A line that loads a program is answered by the lines behind it, -/
theorem loadLines_load {images : Text → Option (Image γ δ)} {image : Image γ δ} {path : Text}
    (hpath : IsPath path) (himage : images path = some image) (lines : List Text)
    (locals : ℕ → Locals) (command : Text) :
    ∃ command', loadLines P images steps
      ((['l', 'o', 'a', 'd', ' '] ++ path ++ ['\n']) :: lines) locals command =
        (serveLines P steps lines locals command' (.load image.mem image.regs image.data)).map
          fun r => (.loaded path image.regs.rip :: r.1, r.2) := by
  obtain ⟨hne, hword⟩ := hpath
  have hfree : nul ∉ path ++ ['\n'] := by
    simp only [List.mem_append, List.mem_singleton, not_or]
    exact ⟨fun hmem => (hword nul hmem).2 rfl, by decide⟩
  have hoperand : operand (stored command (['l', 'o', 'a', 'd', ' '] ++ path ++ ['\n'])) 5 =
      path ++ ['\n'] := by
    rw [operand_stored (by simp)]
    exact cstring_eq_self hfree
  have hscan : scanPath (path ++ ['\n']) = path := by
    obtain ⟨ch, tail, rfl⟩ := List.exists_cons_of_ne_nil hne
    have hskip : (ch :: tail ++ ['\n']).dropWhile isSpace = ch :: tail ++ ['\n'] :=
      List.dropWhile_cons_of_neg (by simp [(hword ch List.mem_cons_self).1])
    rw [scanPath, hskip]
    exact (span_append (fun c hc => by simp [(hword c hc).1]) (by simp [isSpace])).1
  refine ⟨stored command (['l', 'o', 'a', 'd', ' '] ++ path ++ ['\n']), ?_⟩
  rw [loadLines, if_pos (by simp [begins_stored, nul]), hoperand, hscan]
  simp only [loadProgram, himage, ok_bind, if_neg hne, List.append_nil, List.singleton_append]
  rfl

/-- and lines that load nothing before it are answered one by one. -/
theorem loadLines_earlier {images : Text → Option (Image γ δ)} {earlier : List Text}
    (hearlier : ∀ line ∈ earlier, ¬['l', 'o', 'a', 'd'] <+: line) (lines : List Text)
    (locals : ℕ → Locals) (command : Text) :
    ∃ command', loadLines P images steps (earlier ++ lines) locals command =
      (loadLines P images steps lines locals command').map
        fun r => (List.replicate earlier.length .loadFirst ++ r.1, r.2) := by
  induction earlier generalizing command with
  | nil =>
    refine ⟨command, ?_⟩
    rw [List.nil_append]
    cases loadLines P images steps lines locals command <;> rfl
  | cons line earlier ih =>
    obtain ⟨command', hrest⟩ := ih (fun l hl => hearlier l (List.mem_cons_of_mem line hl))
      (stored command line)
    have hload : begins (stored command line) ['l', 'o', 'a', 'd'] = false := by
      rw [begins_stored (by simp [nul])]
      refine Bool.eq_false_iff.mpr fun hprefix => hearlier line List.mem_cons_self ?_
      exact List.isPrefixOf_iff_prefix.mp hprefix
    refine ⟨command', ?_⟩
    rw [List.cons_append, loadLines]
    simp only [hload, Bool.false_eq_true, if_false, hrest]
    cases loadLines P images steps lines locals command' <;> rfl

/-- What is typed to have a program loaded and commands carried out. -/
def typedScript (earlier : List Text) (path : Text) (cs : List Command) : List Text :=
  earlier ++ (['l', 'o', 'a', 'd', ' '] ++ path) :: cs.map Command.text

/-- A command is short. -/
theorem Command.length_text_lt (hc : c.Typable) : c.text.length < bufferSize - 1 := by
  have hhex : ∀ v : BitVec 64, (hex v).length ≤ 16 := fun v =>
    (Nat.length_toDigits_le_iff (by omega) (by omega)).mpr (by have := v.isLt; omega)
  have hdecimal : ∀ i : ℤ, -2 ^ 31 ≤ i → i < 2 ^ 31 → (decimal i).length ≤ 11 := by
    intro i hlow hhigh
    have hdigits : (Nat.toDigits 10 i.natAbs).length ≤ 10 :=
      (Nat.length_toDigits_le_iff (by omega) (by omega)).mpr (by omega)
    unfold decimal
    split
    · rw [List.length_cons]
      omega
    · omega
  rw [bufferSize]
  cases c with
  | brk addr =>
    have := hhex addr
    simp only [Command.text, List.length_append, List.length_cons, List.length_nil]
    omega
  | delete id =>
    have := hdecimal id hc.1 hc.2
    simp only [Command.text, List.length_append, List.length_cons, List.length_nil]
    omega
  | patch addr value len hlen =>
    have haddr := hhex addr
    have hvalue := hhex value
    have := hdecimal len (by omega) (by omega)
    simp only [Command.text, List.length_append, List.length_cons, List.length_nil]
    omega
  | resume cmd => cases cmd <;> simp [Command.text]

/-- `main` carries out the commands of a script in their order, up to the first line that begins
with `q`, whatever its locals hold. -/
theorem main_script {images : Text → Option (Image γ δ)} {image : Image γ δ} {path : Text}
    {earlier : List Text} (hearlier : ∀ line ∈ earlier, ¬['l', 'o', 'a', 'd'] <+: line ∧
      '\n' ∉ line ∧ line.length < bufferSize - 1)
    (hpath : IsPath path) (hlen : path.length < bufferSize - 6) (himage : images path = some image)
    (hcs : ∀ c ∈ cs, c.Typable) (locals : ℕ → Locals) :
    main P images steps locals
        ((typedScript earlier path cs).flatMap (· ++ ['\n']) ++ 'q' :: rest) =
      (answer (transcript P steps (.load image.mem image.regs image.data) cs)).map fun r =>
        (List.replicate earlier.length .loadFirst ++ .loaded path image.regs.rip :: r.1, r.2) := by
  have hlines : ∀ line ∈ typedScript earlier path cs,
      '\n' ∉ line ∧ line.length < bufferSize - 1 := by
    intro line hline
    rcases List.mem_append.mp hline with hline | hline
    · exact (hearlier line hline).2
    rcases List.mem_cons.mp hline with rfl | hline
    · have hfits : (['l', 'o', 'a', 'd', ' '] ++ path).length < bufferSize - 1 := by
        simp only [bufferSize, List.length_append, List.length_cons, List.length_nil] at hlen ⊢
        omega
      refine ⟨fun hmem => ?_, hfits⟩
      rcases List.mem_append.mp hmem with hmem | hmem
      · revert hmem
        decide
      · simpa [isSpace] using (hpath.2 _ hmem).1
    · obtain ⟨c, hc, rfl⟩ := List.mem_map.mp hline
      exact ⟨fun hmem => (c.text_ne hmem).2 rfl, c.length_text_lt (hcs c hc)⟩
  obtain ⟨fuel, hfuel, hread⟩ := @readLines_newlines Char _ '\n' (bufferSize - 1) _ ('q' :: rest) _
    hlines le_rfl
  obtain ⟨line, lines, hquit⟩ := @readLines_cons Char _ '\n' (bufferSize - 1) fuel (by decide)
    (lt_of_lt_of_le (by simp) hfuel) 'q' rest
  have hscript : (typedScript earlier path cs).map (· ++ ['\n']) ++ ('q' :: line) :: lines =
      earlier.map (· ++ ['\n']) ++ (['l', 'o', 'a', 'd', ' '] ++ path ++ ['\n']) ::
        (cs.map (fun c => c.text ++ ['\n']) ++ ('q' :: line) :: lines) := by
    simp [typedScript, Function.comp_def]
  have hnone : ∀ line ∈ earlier.map (· ++ ['\n']), ¬['l', 'o', 'a', 'd'] <+: line := by
    intro line hline hload
    obtain ⟨line, hmem, rfl⟩ := List.mem_map.mp hline
    refine (hearlier line hmem).1 ((List.prefix_concat_iff.mp hload).resolve_left fun heq => ?_)
    simpa using congrArg List.getLast? heq
  rw [main, hread, hquit, hscript]
  obtain ⟨command, hfirst⟩ := @loadLines_earlier _ _ P steps images _ hnone
    ((['l', 'o', 'a', 'd', ' '] ++ path ++ ['\n']) ::
      (cs.map (fun c => c.text ++ ['\n']) ++ ('q' :: line) :: lines)) locals
    (List.replicate bufferSize nul)
  obtain ⟨command', hload⟩ := @loadLines_load _ _ P steps images image path hpath himage
    (cs.map (fun c => c.text ++ ['\n']) ++ ('q' :: line) :: lines) locals command
  have hprefix : ['q'] <+: 'q' :: line := ⟨line, rfl⟩
  rw [hfirst, hload, serveLines_commands lines hprefix hcs, List.length_map]
  cases answer (transcript P steps (.load image.mem image.regs image.data) cs) <;> rfl

theorem main_script_help : ∃ images : Text → Option (Image Unit Unit), ∃ locals,
    main sampleProgram images 5 locals
        ((typedScript [['h', 'e', 'l', 'p']] ['a'] [.brk 0x200, .delete (-1), .resume .si]).flatMap
          (· ++ ['\n']) ++ ['q']) =
      (answer (transcript sampleProgram 5 (sampleSession 0x100)
        [.brk 0x200, .delete (-1), .resume .si])).map fun r =>
          (List.replicate 1 .loadFirst ++ .loaded ['a'] 0x100 :: r.1, r.2) :=
  ⟨fun _ => some ⟨fun _ => 0, ⟨0x100, 0, 0, ()⟩, ()⟩, fun _ => ⟨0, 0, 0, 0⟩,
    main_script (by simp [bufferSize]) ⟨by simp, by simp [isSpace, nul]⟩ (by simp [bufferSize]) rfl
      (by simp [Command.Typable]) _⟩

/-! ## Incomplete lines -/

/-- A line asks for the same whatever the buffer and the locals hold. -/
def Determined (line : Text) : Prop :=
  ∀ locals locals' (command command' : Text), command.length = bufferSize →
    command'.length = bufferSize →
      request locals (stored command line) = request locals' (stored command' line)

/-- Three numbers, as `patch` needs them. -/
def HasPatch (text : Text) : Prop :=
  ∃ addr text₁ value text₂, scanHex text = some (addr, text₁) ∧
    scanHex text₁ = some (value, text₂) ∧ (scanInt text₂).isSome = true

/-- A line has the operands of its command, in front of its terminator. -/
def Complete (line : Text) : Prop :=
  (['b', 'r', 'e', 'a', 'k'] <+: line → (scanHex (cstring nul (line.drop 6))).isSome = true) ∧
  (['d', 'e', 'l', 'e', 't', 'e'] <+: line →
    (scanInt (cstring nul (line.drop 7))).isSome = true) ∧
  (['p', 'a', 't', 'c', 'h'] <+: line → HasPatch (cstring nul (line.drop 6)))

/-- Behind a line that is read first there are only terminators. -/
theorem operand_first (line : Text) (n : ℕ) :
    operand (stored (List.replicate bufferSize nul) line) n = cstring nul (line.drop n) := by
  by_cases hn : n ≤ line.length
  · exact operand_stored hn
  · have hrest : ∀ ch ∈ (stored (List.replicate bufferSize nul) line).drop n, ch = nul := by
      rw [stored, List.drop_append, List.drop_eq_nil_of_le (by omega), List.nil_append]
      intro ch hch
      rcases List.mem_cons.mp (List.mem_of_mem_drop hch) with rfl | hch
      · rfl
      · exact List.eq_of_mem_replicate (List.mem_of_mem_drop hch)
    have hnil : line.drop n = [] := List.drop_eq_nil_of_le (by omega)
    rw [operand, hnil]
    cases hcase : (stored (List.replicate bufferSize nul) line).drop n with
    | nil => rfl
    | cons ch tail => simp [cstring, hrest ch (by simp [hcase])]

/-- Operands that are complete are read from the line. -/
theorem operand_complete {n : ℕ} (hne : cstring nul (line.drop n) ≠ []) :
    operand (stored command line) n = cstring nul (line.drop n) := by
  refine operand_stored ?_
  by_contra hn
  exact hne (by rw [List.drop_eq_nil_of_le (by omega)]; rfl)

theorem scanPatch_eq_iff (text : Text) :
    (∀ locals locals', scanPatch locals text = scanPatch locals' text) ↔ HasPatch text := by
  refine ⟨fun hsame => ?_, ?_⟩
  · have hdiff := hsame ⟨0, 0, 0, 0⟩ ⟨1, 1, 1, 1⟩
    unfold scanPatch at hdiff
    cases haddr : scanHex text with
    | none => simp [haddr] at hdiff
    | some addr =>
      cases hvalue : scanHex addr.2 with
      | none => simp [haddr, hvalue] at hdiff
      | some value =>
        refine ⟨addr.1, addr.2, value.1, value.2, haddr, hvalue, ?_⟩
        cases hlen : scanInt value.2 with
        | none => simp [haddr, hvalue, hlen] at hdiff
        | some len => rfl
  · rintro ⟨addr, text₁, value, text₂, haddr, hvalue, hlen⟩ locals locals'
    obtain ⟨len, hlen⟩ := Option.isSome_iff_exists.mp hlen
    simp [scanPatch, haddr, hvalue, hlen]

/-- In the first pass of the loop, what a line asks for comes from the locals where it is not
complete. -/
theorem Determined.complete (hsame : Determined line) : Complete line := by
  have hfirst := fun locals locals' => hsame locals locals' (List.replicate bufferSize nul)
    (List.replicate bufferSize nul) List.length_replicate List.length_replicate
  refine ⟨fun hline => ?_, fun hline => ?_, fun hline => ?_⟩
  · have hdiff := hfirst ⟨0, 0, 0, 0⟩ ⟨1, 1, 1, 1⟩
    rw [request_brk hline, request_brk hline, operand_first] at hdiff
    cases hscan : scanHex (cstring nul (line.drop 6)) with
    | none => simp [hscan] at hdiff
    | some addr => rfl
  · have hdiff := hfirst ⟨0, 0, 0, 0⟩ ⟨1, 1, 1, 1⟩
    rw [request_delete hline, request_delete hline, operand_first] at hdiff
    cases hscan : scanInt (cstring nul (line.drop 7)) with
    | none => simp [hscan] at hdiff
    | some id => rfl
  · refine (scanPatch_eq_iff _).mp fun locals locals' => ?_
    have hequal := hfirst locals locals'
    rw [request_patch hline, request_patch hline, operand_first] at hequal
    simpa [Prod.ext_iff] using hequal

/-- Complete operands are read before the terminator of the line. -/
theorem Complete.determined (hcomplete : Complete line) : Determined line := by
  obtain ⟨hbrk, hdelete, hpatch⟩ := hcomplete
  rintro locals locals' command command' - -
  have hscans : scanHex [] = none ∧ scanInt [] = none := ⟨rfl, rfl⟩
  by_cases hline : ['b', 'r', 'e', 'a', 'k'] <+: line
  · have hne : cstring nul (line.drop 6) ≠ [] := fun hnil => by
      simpa [hnil, hscans] using hbrk hline
    obtain ⟨addr, haddr⟩ := Option.isSome_iff_exists.mp (hbrk hline)
    rw [request_brk hline, request_brk hline, operand_complete hne, operand_complete hne, haddr]
    rfl
  by_cases hline' : ['d', 'e', 'l', 'e', 't', 'e'] <+: line
  · have hne : cstring nul (line.drop 7) ≠ [] := fun hnil => by
      simpa [hnil, hscans] using hdelete hline'
    obtain ⟨id, hid⟩ := Option.isSome_iff_exists.mp (hdelete hline')
    rw [request_delete hline', request_delete hline', operand_complete hne, operand_complete hne,
      hid]
    rfl
  by_cases hline'' : ['p', 'a', 't', 'c', 'h'] <+: line
  · have hne : cstring nul (line.drop 6) ≠ [] := by
      intro hnil
      obtain ⟨addr, text₁, value, text₂, haddr, -⟩ := hpatch hline''
      simp [hnil, hscans] at haddr
    have hscan := (scanPatch_eq_iff _).mpr (hpatch hline'') locals locals'
    rw [request_patch hline'', request_patch hline'', operand_complete hne,
      operand_complete hne, hscan]
  · have hbegins : ∀ word : Text, nul ∉ word →
        begins (stored command line) word = begins (stored command' line) word :=
      fun word hword => (begins_stored hword).trans (begins_stored hword).symm
    have hno : ∀ word : Text, nul ∉ word → ¬word <+: line →
        begins (stored command' line) word = false := by
      intro word hword hnot
      rw [begins_stored hword]
      exact Bool.eq_false_iff.mpr fun h => hnot (List.isPrefixOf_iff_prefix.mp h)
    have hno₁ := hno _ (by decide) hline
    have hno₂ := hno _ (by decide) hline'
    have hno₃ := hno _ (by decide) hline''
    simp [request, hbegins, hno₁, hno₂, hno₃, nul]

/-- A line asks for the same in all buffers and locals exactly when it is complete. -/
theorem determined_iff : Determined line ↔ Complete line :=
  ⟨Determined.complete, Complete.determined⟩

end UnixProgramming.Sdb
