import UnixProgramming.Lib.Fields
import UnixProgramming.Libsolver.Numbers
import UnixProgramming.Mazemod.ProcRead

/-!
# The text of `/proc/maze`

`mazemod_proc_read` prints a header with eight numbers for each maze, and then its rows without
any quoting. The sizes in the header say how long the rows are, so that the text shows
everything that has been printed.
-/

namespace UnixProgramming.Mazemod

open Libsolver (decimal)

/-- `printf` with `%0wd` for a number that is not negative. -/
def padded (w n : ℕ) : List Char :=
  List.replicate (w - (Nat.toDigits 10 n).length) '0' ++ Nat.toDigits 10 n

/-- The rows of a maze from row `j` on. -/
def rowsText : ℕ → List (List Char) → List Char
  | _, [] => []
  | j, row :: rows =>
    "- ".toList ++ padded 3 j ++ ": ".toList ++ row ++ "\n".toList ++ rowsText (j + 1) rows

/-- What is printed between the numbers of a header. -/
def headerSeps : List (List Char) :=
  [" - [", " x ", "]: (", ", ", ") -> (", ", ", ") @ (", ", ", ")\n"].map String.toList

/-- What is printed before the two numbers after `ONLY_FOR_Q3`, -/
def question3Head : List Char := "Only for Question3: ".toList

/-- and behind them. -/
def question3Seps : List (List Char) := [" ".toList, "\n".toList]

/-- What is printed for a slot without a process, -/
def vacancyText (i : Slot) : List Char := "#".toList ++ padded 2 i ++ ": vacancy\n\n".toList

/-- for one with a process, -/
def userText (i : Slot) (pid : ℕ) (size start stop pos : Coord) (rows : List (List Char)) :
    List Char :=
  "#".toList ++ padded 2 i ++ ": pid ".toList ++
    fieldsText decimal
      [pid, size.x, size.y, start.x, start.y, stop.x, stop.y, pos.x, pos.y] headerSeps ++
    rowsText 0 rows ++ "\n".toList

/-- and after `ONLY_FOR_Q3`. -/
def question3Text (size : Coord) (rows : List (List Char)) : List Char :=
  question3Head ++ fieldsText decimal [size.x, size.y] question3Seps ++ rowsText 0 rows ++
    "\n".toList

/-- What `mazemod_proc_read` prints for an entry. -/
def ProcEntry.text : ProcEntry → List Char
  | vacancy i => vacancyText i
  | user i pid size start stop pos rows => userText i pid size start stop pos rows
  | question3 size rows => question3Text size rows

/-- The text of `/proc/maze`. -/
def procText (entries : List ProcEntry) : List Char := entries.flatMap ProcEntry.text

/-- The characters of a number. -/
def InNumber (c : Char) : Prop := isXDigit c = true ∨ c = '-'

instance (c : Char) : Decidable (InNumber c) := inferInstanceAs (Decidable (_ ∨ _))

/-- The digits of a number are characters of a number, -/
theorem inNumber_of_mem_toDigits {n : ℕ} : ∀ c ∈ Nat.toDigits 10 n, InNumber c :=
  fun c hc => .inl (isXDigit_of_mem_toDigits (by decide) (by decide) c hc)

/-- and tell it apart from all others. -/
theorem toDigits_injective {n m : ℕ} (heq : Nat.toDigits 10 n = Nat.toDigits 10 m) : n = m := by
  have hvalue := congrArg (numeralValue 10) heq
  rwa [numeralValue_toDigits (by decide) (by decide),
    numeralValue_toDigits (by decide) (by decide)] at hvalue

/-- No number begins with a sign and is not negative. -/
theorem toDigits_ne_sign (n : ℕ) (text : List Char) : '-' :: text ≠ Nat.toDigits 10 n := by
  intro heq
  have hsign : '-' ∈ Nat.toDigits 10 n := heq ▸ List.mem_cons_self
  have hdigit := isXDigit_of_mem_toDigits (by decide) (by decide) '-' hsign
  exact absurd hdigit (by decide)

/-- So decimal numbers are fields that can be cut off again where their characters end. -/
theorem printable_decimal : Printable decimal InNumber where
  injective := by
    intro i j heq
    simp only [decimal] at heq
    split_ifs at heq with hi hj hj
    · have hsame := toDigits_injective (List.cons.inj heq).2
      omega
    · exact absurd heq (toDigits_ne_sign _ _)
    · exact absurd heq.symm (toDigits_ne_sign _ _)
    · have hsame := toDigits_injective heq
      omega
  kind := by
    intro i c hc
    simp only [decimal] at hc
    split_ifs at hc with hi
    · obtain rfl | hc := List.mem_cons.mp hc
      · exact .inr rfl
      · exact inNumber_of_mem_toDigits c hc
    · exact inNumber_of_mem_toDigits c hc

/-- The rows have the sides of the maze. -/
def ProcEntry.Shaped : ProcEntry → Prop
  | vacancy _ => True
  | user _ _ size _ _ _ rows | question3 size rows =>
    rows.length = size.y.toNat ∧ ∀ row ∈ rows, row.length = size.x.toNat

variable {s s' t t' : State} {es es' : List ProcEntry} {e e' : ProcEntry} {r r' : List Char}
  {i i' : Slot}

/-- The number of a slot has two characters. -/
theorem padded_slot (heq : padded 2 i ++ r = padded 2 i' ++ r') : i = i' ∧ r = r' := by
  have hlength : ∀ j : Slot, (padded 2 j).length = 2 := by decide
  have hinj : ∀ j j' : Slot, padded 2 j = padded 2 j' → j = j' := by decide
  obtain ⟨hsame, hrest⟩ := List.append_inj heq ((hlength i).trans (hlength i').symm)
  exact ⟨hinj i i' hsame, hrest⟩

/-- Rows of known lengths are determined by their text. -/
theorem rowsText_eq {w j : ℕ} {rows rows' : List (List Char)}
    (hrows : ∀ row ∈ rows, row.length = w) (hrows' : ∀ row ∈ rows', row.length = w)
    (hlength : rows.length = rows'.length) (heq : rowsText j rows ++ r = rowsText j rows' ++ r') :
    rows = rows' ∧ r = r' := by
  induction rows generalizing rows' j with
  | nil =>
    obtain rfl := List.eq_nil_of_length_eq_zero hlength.symm
    exact ⟨rfl, heq⟩
  | cons row rows ih =>
    obtain ⟨row', rows', rfl⟩ := List.exists_cons_of_length_eq_add_one hlength.symm
    simp only [rowsText, List.append_assoc] at heq
    have hrest := List.append_cancel_left (List.append_cancel_left (List.append_cancel_left heq))
    have hsame : row.length = row'.length := by
      rw [hrows row List.mem_cons_self, hrows' row' List.mem_cons_self]
    obtain ⟨rfl, htail⟩ := List.append_inj hrest hsame
    obtain ⟨rfl, hr⟩ := ih (fun x hx => hrows x (List.mem_cons_of_mem _ hx))
      (fun x hx => hrows' x (List.mem_cons_of_mem _ hx)) (by simpa using hlength)
      (List.append_cancel_left htail)
    exact ⟨rfl, hr⟩

/-- The literal texts of a header begin with characters that are in no number. -/
theorem headerSeps_apart : ∀ sep ∈ headerSeps, ∃ c, sep.head? = some c ∧ ¬InNumber c := by
  intro sep hsep
  simp only [headerSeps, List.map_cons, List.map_nil, List.mem_cons, List.not_mem_nil,
    or_false] at hsep
  rcases hsep with rfl | rfl | rfl | rfl | rfl | rfl | rfl | rfl | rfl <;>
    exact ⟨_, rfl, by decide⟩

/-- Each text between two numbers begins with a character that is in no number. -/
theorem question3Seps_apart : ∀ sep ∈ question3Seps, ∃ c, sep.head? = some c ∧ ¬InNumber c := by
  intro sep hsep
  simp only [question3Seps, List.mem_cons, List.not_mem_nil, or_false] at hsep
  rcases hsep with rfl | rfl <;> exact ⟨_, rfl, by decide⟩

/-- The first character tells what is printed after `ONLY_FOR_Q3` from what is printed for a
slot, -/
theorem ProcEntry.head_text (e : ProcEntry) (r : List Char) :
    (e.text ++ r).head? = some (match e with | question3 _ _ => 'O' | _ => '#') := by
  cases e <;> rfl

/-- and the second character after the number of a slot tells whether it is vacant. -/
theorem vacancyText_ne_userText {pid : ℕ} {size start stop pos : Coord} {rows : List (List Char)} :
    vacancyText i ++ r ≠ userText i' pid size start stop pos rows ++ r' := by
  intro heq
  simp only [vacancyText, userText, List.append_assoc] at heq
  obtain ⟨-, hrest⟩ := padded_slot (List.append_cancel_left heq)
  have hletter : some 'v' = some 'p' := congrArg (fun text => text[2]?) hrest
  exact absurd hletter (by decide)

/-- An entry for a vacant slot is read back from the text that begins with it. -/
theorem vacancyText_eq (heq : vacancyText i ++ r = vacancyText i' ++ r') : i = i' ∧ r = r' := by
  simp only [vacancyText, List.append_assoc] at heq
  obtain ⟨rfl, hrest⟩ := padded_slot (List.append_cancel_left heq)
  exact ⟨rfl, List.append_cancel_left hrest⟩

/-- Rows of the same maze sides are determined by their text. -/
theorem rowsText_eq_of_size {size : Coord} {rows rows' : List (List Char)}
    (hrows : rows.length = size.y.toNat ∧ ∀ row ∈ rows, row.length = size.x.toNat)
    (hrows' : rows'.length = size.y.toNat ∧ ∀ row ∈ rows', row.length = size.x.toNat)
    (heq : rowsText 0 rows ++ ("\n".toList ++ r) = rowsText 0 rows' ++ ("\n".toList ++ r')) :
    rows = rows' ∧ r = r' := by
  obtain ⟨rfl, hrest⟩ := rowsText_eq hrows.2 hrows'.2 (hrows.1.trans hrows'.1.symm) heq
  exact ⟨rfl, List.append_cancel_left hrest⟩

/-- The text of an entry shows where it ends and what it is. -/
theorem ProcEntry.Shaped.eq_of_append (hshaped : e.Shaped) (hshaped' : e'.Shaped)
    (heq : e.text ++ r = e'.text ++ r') : e = e' ∧ r = r' := by
  have hhead := congrArg List.head? heq
  rw [head_text, head_text] at hhead
  cases e with
  | vacancy i =>
    cases e' with
    | vacancy i' =>
      obtain ⟨rfl, hrest⟩ := vacancyText_eq heq
      exact ⟨rfl, hrest⟩
    | user => exact absurd heq vacancyText_ne_userText
    | question3 => exact absurd hhead (by simp)
  | user i pid size start stop pos rows =>
    cases e' with
    | vacancy i' => exact absurd heq.symm vacancyText_ne_userText
    | user i' pid' size' start' stop' pos' rows' =>
      simp only [ProcEntry.text, userText, List.append_assoc] at heq
      obtain ⟨rfl, hrest⟩ := padded_slot (List.append_cancel_left heq)
      have hbody := List.append_cancel_left hrest
      obtain ⟨hfields, hrows⟩ := printable_decimal.fields_eq headerSeps_apart (by rfl) (by rfl)
        hbody
      cases size
      cases size'
      cases start
      cases start'
      cases stop
      cases stop'
      cases pos
      cases pos'
      simp only [List.cons.injEq, Nat.cast_inj, and_true] at hfields
      obtain ⟨rfl, rfl, rfl, rfl, rfl, rfl, rfl, rfl, rfl⟩ := hfields
      obtain ⟨rfl, hr⟩ := rowsText_eq_of_size hshaped hshaped' hrows
      exact ⟨rfl, hr⟩
    | question3 => exact absurd hhead (by simp)
  | question3 size rows =>
    cases e' with
    | vacancy => exact absurd hhead (by simp)
    | user => exact absurd hhead (by simp)
    | question3 size' rows' =>
      simp only [ProcEntry.text, question3Text, List.append_assoc] at heq
      have hbody := List.append_cancel_left heq
      obtain ⟨hfields, hrows⟩ := printable_decimal.fields_eq question3Seps_apart (by rfl) (by rfl)
        hbody
      cases size
      cases size'
      simp only [List.cons.injEq, and_true] at hfields
      obtain ⟨rfl, rfl⟩ := hfields
      obtain ⟨rfl, hr⟩ := rowsText_eq_of_size hshaped hshaped' hrows
      exact ⟨rfl, hr⟩

/-- A text determines its entries. -/
theorem eq_of_procText_eq (hes : ∀ e ∈ es, e.Shaped) (hes' : ∀ e ∈ es', e.Shaped)
    (htext : procText es = procText es') : es = es' := by
  induction es generalizing es' with
  | nil =>
    cases es' with
    | nil => rfl
    | cons e' es' =>
      have hhead := congrArg List.head? htext
      rw [procText, procText, List.flatMap_nil, List.flatMap_cons, ProcEntry.head_text] at hhead
      simp at hhead
  | cons e es ih =>
    cases es' with
    | nil =>
      have hhead := congrArg List.head? htext
      rw [procText, procText, List.flatMap_nil, List.flatMap_cons, ProcEntry.head_text] at hhead
      simp at hhead
    | cons e' es' =>
      rw [procText, procText, List.flatMap_cons, List.flatMap_cons] at htext
      obtain ⟨rfl, hrest⟩ := (hes e List.mem_cons_self).eq_of_append
        (hes' e' List.mem_cons_self) htext
      rw [ih (fun x hx => hes x (List.mem_cons_of_mem _ hx))
        (fun x hx => hes' x (List.mem_cons_of_mem _ hx)) hrest]

/-- The rows that are printed have the sides of the maze. -/
theorem procRows_shaped {m : MazeInfo} {rows : List (List Char)} (hok : procRows m = .ok rows) :
    rows.length = m.coord.y.toNat ∧ ∀ row ∈ rows, row.length = m.coord.x.toNat := by
  have hupTo : ∀ n : ℤ, (upTo n).length = n.toNat := fun n => by simp [upTo]
  refine ⟨(length_of_mapM_eq_ok hok).trans (hupTo _), ?_⟩
  refine forall_of_mapM_eq_ok hok fun j _ row hrow => ?_
  exact (length_of_mapM_eq_ok hrow).trans (hupTo _)

/-- Every entry that is printed has rows of the width that it names. -/
theorem mazemodProcRead_shaped (hread : mazemodProcRead s = .ok (.proc es, t)) :
    ∀ e ∈ es, e.Shaped := by
  simp only [mazemodProcRead] at hread
  split_ifs at hread with hflag
  · simp only [bind_eq_ok, pure_eq_ok, Prod.mk.injEq, Reply.proc.injEq] at hread
    obtain ⟨m, -, rows, hrows, rfl, -⟩ := hread
    simpa [ProcEntry.Shaped] using procRows_shaped hrows
  · simp only [bind_eq_ok, pure_eq_ok, Prod.mk.injEq, Reply.proc.injEq] at hread
    obtain ⟨entries, hentries, rfl, -⟩ := hread
    refine forall_of_mapM_eq_ok hentries fun i _ e he => ?_
    simp only [procSlot] at he
    split_ifs at he with hpid
    · obtain rfl := Except.ok.inj he
      trivial
    · simp only [bind_eq_ok, pure_eq_ok] at he
      obtain ⟨m, -, rows, hrows, rfl⟩ := he
      exact procRows_shaped hrows

/-- Two mazes have the same size and the same cells inside it. -/
def SameMap (m m' : MazeInfo) : Prop :=
  m.coord = m'.coord ∧
    ∀ j ∈ upTo m.coord.y, ∀ k ∈ upTo m.coord.x, m.maze.cell j k = m'.maze.cell j k

/-- The process of a slot is the same in two states, and so is what it can see of its maze. -/
def SameSlot (s s' : State) (i : Slot) : Prop :=
  s.pids i = s'.pids i ∧ (s.pids i ≠ 0 → ∃ m m', derefInfo s i = .ok m ∧
    derefInfo s' i = .ok m' ∧ SameMap m m' ∧ m.coordPos = m'.coordPos ∧
    (m.maze.sx, m.maze.sy, m.maze.ex, m.maze.ey) = (m'.maze.sx, m'.maze.sy, m'.maze.ex, m'.maze.ey))

/-- What `/proc/maze` is to show is the same in two states. -/
def ShowsSame (s s' : State) : Prop :=
  s.onlyForQ3 = s'.onlyForQ3 ∧
    if s.onlyForQ3 then
      ∃ m m', derefInfo s 0 = .ok m ∧ derefInfo s' 0 = .ok m' ∧ SameMap m m'
    else ∀ i, SameSlot s s' i

/-- The rows show the cells. -/
theorem procRows_eq_iff {m m' : MazeInfo} {rows : List (List Char)} (hcoord : m.coord = m'.coord)
    (hrows : procRows m = .ok rows) : procRows m' = .ok rows ↔ SameMap m m' := by
  constructor
  · intro hrows'
    rw [procRows, ← hcoord] at hrows'
    refine ⟨hcoord, fun j hj => ?_⟩
    obtain ⟨row, hrow⟩ := exists_mapM_eq_ok.mp ⟨rows, hrows⟩ j hj
    have hsame := eq_of_mapM_eq_ok hrows hrows' j hj
    exact eq_of_mapM_eq_ok hrow (hsame.symm.trans hrow)
  · rintro ⟨-, hcells⟩
    rw [← hrows, procRows, procRows, ← hcoord]
    exact mapM_congr fun j hj => mapM_congr fun k hk => (hcells j hj k hk).symm

/-- What is printed for a slot in use: the fields of its maze and the rows of it. -/
theorem procSlot_eq_ok_iff (hpid : s.pids i ≠ 0) : procSlot s i = .ok e ↔ ∃ m rows,
    derefInfo s i = .ok m ∧ procRows m = .ok rows ∧ .user i (s.pids i) m.coord
      ⟨m.maze.sx, m.maze.sy⟩ ⟨m.maze.ex, m.maze.ey⟩ m.coordPos rows = e := by
  simp only [procSlot, if_neg hpid, bind_eq_ok, pure_eq_ok, exists_and_left]

/-- An entry shows its slot. -/
theorem procSlot_eq_iff (hok : procSlot s i = .ok e) :
    procSlot s' i = .ok e ↔ SameSlot s s' i := by
  by_cases hpid : s.pids i = 0
  · have hvacant : e = .vacancy i := by
      rw [procSlot, if_pos hpid] at hok
      exact (Except.ok.inj hok).symm
    subst hvacant
    constructor
    · intro hok'
      by_cases hpid' : s'.pids i = 0
      · exact ⟨hpid.trans hpid'.symm, fun hne => absurd hpid hne⟩
      · obtain ⟨m', rows', -, -, heq⟩ := (procSlot_eq_ok_iff hpid').mp hok'
        cases heq
    · rintro ⟨hsame, -⟩
      rw [procSlot, if_pos (hsame ▸ hpid)]
  · obtain ⟨m, rows, hm, hrows, rfl⟩ := (procSlot_eq_ok_iff hpid).mp hok
    constructor
    · intro hok'
      by_cases hpid' : s'.pids i = 0
      · rw [procSlot, if_pos hpid'] at hok'
        cases hok'
      · obtain ⟨m', rows', hm', hrows', heq⟩ := (procSlot_eq_ok_iff hpid').mp hok'
        simp only [ProcEntry.user.injEq, Coord.mk.injEq, true_and] at heq
        obtain ⟨hpids, hcoord, ⟨hsx, hsy⟩, ⟨hex, hey⟩, hpos, rfl⟩ := heq
        refine ⟨hpids.symm, fun _ => ⟨m, m', hm, hm', ?_, hpos.symm, ?_⟩⟩
        · exact (procRows_eq_iff hcoord.symm hrows).mp hrows'
        · rw [hsx, hsy, hex, hey]
    · rintro ⟨hpids, hsame⟩
      obtain ⟨m₁, m', hm₁, hm', hmap, hpos, hends⟩ := hsame hpid
      obtain rfl : m = m₁ := Except.ok.inj (hm.symm.trans hm₁)
      refine (procSlot_eq_ok_iff (hpids ▸ hpid)).mpr ⟨m', rows, hm', ?_, ?_⟩
      · exact (procRows_eq_iff hmap.1 hrows).mpr hmap
      · simp only [Prod.mk.injEq] at hends
        obtain ⟨hsx, hsy, hex, hey⟩ := hends
        rw [hpids, hmap.1, hpos, hsx, hsy, hex, hey]

/-- A read with the flag of `ONLY_FOR_Q3` prints the maze of slot 0, -/
theorem mazemodProcRead_question3 (hflag : s.onlyForQ3 = true) :
    mazemodProcRead s = .ok (.proc es, t) ↔ ∃ m rows, derefInfo s 0 = .ok m ∧
      procRows m = .ok rows ∧ [.question3 m.coord rows] = es ∧
      { s with onlyForQ3 := false } = t := by
  simp only [mazemodProcRead, hflag, if_true, bind_eq_ok, pure_eq_ok, Prod.mk.injEq,
    Reply.proc.injEq, exists_and_left]

/-- and one without it all slots. -/
theorem mazemodProcRead_slots (hflag : s.onlyForQ3 = false) :
    mazemodProcRead s = .ok (.proc es, t) ↔
      (List.finRange mazeMaxUser).mapM (procSlot s) = .ok es ∧ s = t := by
  rw [mazemodProcRead, if_neg (by rw [hflag]; decide)]
  simp only [bind_eq_ok, pure_eq_ok, Prod.mk.injEq, Reply.proc.injEq]
  constructor
  · rintro ⟨entries, hentries, rfl, rfl⟩
    exact ⟨hentries, rfl⟩
  · rintro ⟨hentries, rfl⟩
    exact ⟨es, hentries, rfl, rfl⟩

/-- The text of `/proc/maze` is the same in two states exactly when it is to show the same. -/
theorem procText_eq_iff (hread : mazemodProcRead s = .ok (.proc es, t))
    (hread' : mazemodProcRead s' = .ok (.proc es', t')) :
    procText es = procText es' ↔ ShowsSame s s' := by
  have hentries : procText es = procText es' ↔ es = es' :=
    ⟨eq_of_procText_eq (mazemodProcRead_shaped hread) (mazemodProcRead_shaped hread'),
      congrArg procText⟩
  rw [hentries]
  cases hflag : s.onlyForQ3 with
  | true =>
    obtain ⟨m, rows, hm, hrows, rfl, -⟩ := (mazemodProcRead_question3 hflag).mp hread
    cases hflag' : s'.onlyForQ3 with
    | true =>
      obtain ⟨m', rows', hm', hrows', rfl, -⟩ := (mazemodProcRead_question3 hflag').mp hread'
      simp only [ShowsSame, hflag, hflag', if_true, true_and, List.cons.injEq, and_true,
        ProcEntry.question3.injEq]
      constructor
      · rintro ⟨hcoord, rfl⟩
        exact ⟨m, m', hm, hm', (procRows_eq_iff hcoord hrows).mp hrows'⟩
      · rintro ⟨m₁, m₁', hm₁, hm₁', hmap⟩
        obtain rfl : m = m₁ := Except.ok.inj (hm.symm.trans hm₁)
        obtain rfl : m' = m₁' := Except.ok.inj (hm'.symm.trans hm₁')
        have hsame := (procRows_eq_iff hmap.1 hrows).mpr hmap
        exact ⟨hmap.1, Except.ok.inj (hsame.symm.trans hrows')⟩
    | false =>
      have hlength := length_of_mapM_eq_ok ((mazemodProcRead_slots hflag').mp hread').1
      constructor
      · rintro rfl
        exact absurd hlength (by simp [mazeMaxUser])
      · rintro ⟨hflags, -⟩
        exact absurd (hflag.symm.trans (hflags.trans hflag')) (by decide)
  | false =>
    obtain ⟨hslots, -⟩ := (mazemodProcRead_slots hflag).mp hread
    cases hflag' : s'.onlyForQ3 with
    | true =>
      obtain ⟨m', rows', -, -, rfl, -⟩ := (mazemodProcRead_question3 hflag').mp hread'
      have hlength := length_of_mapM_eq_ok hslots
      constructor
      · rintro rfl
        exact absurd hlength (by simp [mazeMaxUser])
      · rintro ⟨hflags, -⟩
        exact absurd (hflag.symm.trans (hflags.trans hflag')) (by decide)
    | false =>
      obtain ⟨hslots', -⟩ := (mazemodProcRead_slots hflag').mp hread'
      have hslot : ∀ i, ∃ e, procSlot s i = .ok e := fun i =>
        exists_mapM_eq_ok.mp ⟨es, hslots⟩ i (List.mem_finRange i)
      simp only [ShowsSame, hflag, hflag', Bool.false_eq_true, if_false, true_and]
      constructor
      · rintro rfl i
        obtain ⟨e, he⟩ := hslot i
        have hsame := eq_of_mapM_eq_ok hslots hslots' i (List.mem_finRange i)
        exact (procSlot_eq_iff he).mp (hsame.symm.trans he)
      · intro hsame
        have hcongr : (List.finRange mazeMaxUser).mapM (procSlot s) =
            (List.finRange mazeMaxUser).mapM (procSlot s') := by
          refine mapM_congr fun i _ => ?_
          obtain ⟨e, he⟩ := hslot i
          rw [he, (procSlot_eq_iff he).mpr (hsame i)]
        exact Except.ok.inj (hslots.symm.trans (hcongr.trans hslots'))

/-- A process with a maze of one cell in slot 0. -/
def oneUser : State :=
  { State.init with
    pids := fun i => if i = 0 then 7 else 0
    mazeUserInfo := fun i => if i = 0 then some ⟨0, ⟨⟨1, 1⟩, ⟨0, 0⟩, .zero⟩⟩ else none }

/-- A device with one user is told apart from a fresh one. -/
theorem procText_eq_iff_oneUser :
    procText [.vacancy 0, .vacancy 1, .vacancy 2] =
      procText [.user 0 7 ⟨1, 1⟩ ⟨0, 0⟩ ⟨0, 0⟩ ⟨0, 0⟩ [['\x00']], .vacancy 1, .vacancy 2] ↔
        ShowsSame .init oneUser := by
  have hread : mazemodProcRead .init = .ok (.proc _, .init) := rfl
  have hread' : mazemodProcRead oneUser = .ok (.proc _, oneUser) := rfl
  exact procText_eq_iff hread hread'

end UnixProgramming.Mazemod
