import UnixProgramming.Fortune.Sandbox

/-!
# Which files can be shown

Between two characters that a thread reads, `main` can carry out any number of commands. A file
is opened for the user in some run exactly when its path is woven of checked paths and so is the
path of some file that belongs to the user. While no name is copied before all threads are done,
only checked paths of files that belong to the user are opened.
-/

namespace UnixProgramming.Fortune

variable {cfg : Config} {stdin line path name fn text : Text} {s s' : State} {e : Event} {i : ℕ}
variable {pc pc' : ThreadPc} {mpc : MainPc} {history : List (State × Event)} {fortune : ℕ → Char}
variable {C : State → Event → Prop} {threads : List ThreadPc}

/-! ## Schedules -/

/-- What is typed begins no other command, and the first word of it is the name. -/
def Names (line name : Text) : Prop :=
  (∃ c rest, line = c :: rest ∧ c ≠ 'L' ∧ c ≠ 'R' ∧ c ≠ 'Q') ∧ firstWord line = some name

/-- A word on a line of its own is its first word, -/
theorem firstWord_typed (front : Text) (hname : IsWord name)
    (hfront : ∀ c ∈ front, isBlank c = true) :
    firstWord (typed '\n' (pathMax - 1) (front ++ name)) = some name := by
  have hword : firstWord
      (front ++ (name ++ if (front ++ name).length < pathMax - 1 then ['\n'] else [])) =
        some name := firstWord_append hname hfront (by split <;> simp [isBlank])
  rwa [← List.append_assoc] at hword

/-- so every askable name can be typed. -/
theorem Askable.typed (hname : Askable name) : ∃ text : Text, '\n' ∉ text ∧
    text.length ≤ pathMax - 1 ∧ Names (UnixProgramming.typed '\n' (pathMax - 1) text) name := by
  have hfree : ∀ name : Text, IsWord name → '\n' ∉ name := fun name hword hmem => by
    simpa [isBlank] using (hword.2 _ hmem).1
  rcases hname with ⟨hword, hlen⟩ | ⟨hword, hlen, hhead⟩
  · refine ⟨' ' :: name, by simpa using hfree name hword, by rw [List.length_cons]; omega, ?_, ?_⟩
    · exact ⟨' ', _, rfl, by decide⟩
    · exact firstWord_typed [' '] hword (by simp [isBlank])
  · obtain ⟨c, rest, rfl⟩ := List.exists_cons_of_ne_nil hword.1
    refine ⟨c :: rest, hfree _ hword, by omega, ?_, ?_⟩
    · exact ⟨c, _, rfl, by simpa using hhead⟩
    · exact firstWord_typed [] hword (by simp)

/-- A line that names a checked path is followed by its copy. -/
theorem command_of_names {line : Text} (hline : Names line name)
    (hpath : cfg.files.realpath ((cfg.base ++ ['/'] ++ name).take (2 * pathMax - 1)) = some fn)
    (hbase : fn.take cfg.base.length = cfg.base) (haccess : cfg.files.access fn = true) :
    Command cfg line (.copy fn 0) := by
  obtain ⟨⟨c, rest, rfl, hL, hR, hQ⟩, hword⟩ := hline
  have hne := (isWord_of_firstWord hword).1
  have hread : readFortune cfg (firstWord (c :: rest)) = .copy fn 0 := by
    obtain ⟨d, tail, rfl⟩ := List.exists_cons_of_ne_nil hne
    simp only [hword, readFortune, hpath, hbase, haccess, ne_eq, not_true_eq_false, if_false,
      Bool.true_eq_false]
  exact hread ▸ .name hL hR hQ

/-- The copy ends with the characters of the path in the array. -/
theorem leads_copy (hC : ∀ s e, s.threads = threads → C s e) (k : ℕ) :
    ∀ i fortune, i + k = pathMax → ∃ fortune',
      (∀ j < pathMax, fortune' j = if j < i then fortune j else cell fn j) ∧
      Leads (Under C (Step cfg)) ⟨fortune, stdin, .copy fn i, threads⟩
        ⟨fortune', stdin, .copy fn pathMax, threads⟩ := by
  induction k with
  | zero =>
    rintro i fortune rfl
    refine ⟨fortune, fun j hj => by rw [if_pos (by omega)], ?_⟩
    exact Relation.ReflTransGen.refl
  | succ k ih =>
    intro i fortune hi
    obtain ⟨fortune', hcells, hrest⟩ :=
      ih (i + 1) (Function.update fortune i (cell fn i)) (by omega)
    refine ⟨fortune', fun j hj => ?_, .trans (.single ⟨hC _ _ rfl, .copy rfl (by omega)⟩) hrest⟩
    rw [hcells j hj]
    by_cases hji : j = i
    · simp [hji]
    · have hlt : j < i + 1 ↔ j < i := by omega
      simp [hji, hlt]

/-- A checked path can be put into the array, which creates a thread. -/
theorem leads_store (hfn : Checked cfg fn) : ∃ input : Text, ∀ (fortune : ℕ → Char) (rest : Text)
    (threads : List ThreadPc), (∀ s e, s.threads = threads → C s e) → ∃ fortune',
      (∀ j < pathMax, fortune' j = cell fn j) ∧
      Leads (Under C (Step cfg)) ⟨fortune, input ++ rest, .command, threads⟩
        ⟨fortune', rest, .command, threads ++ [.stat []]⟩ := by
  obtain ⟨name, hname, hpath, hbase, haccess⟩ := hfn
  obtain ⟨text, hfree, hlen, hnames⟩ := hname.typed
  refine ⟨typed '\n' (pathMax - 1) text, fun fortune rest threads hC => ?_⟩
  have hcommand :
      Step cfg ⟨fortune, typed '\n' (pathMax - 1) text ++ rest, .command, threads⟩ .input
        ⟨fortune, rest, .copy fn 0, threads⟩ := by
    have hread := command_of_names hnames hpath hbase haccess
    have hstep := @Step.command cfg
      ⟨fortune, typed '\n' (pathMax - 1) text ++ rest, .command, threads⟩ (.copy fn 0) rfl
    rw [readLine_typed hfree hlen] at hstep
    exact hstep hread
  obtain ⟨fortune', hcells, hcopy⟩ :=
    @leads_copy cfg rest fn C threads hC pathMax 0 fortune (Nat.zero_add _)
  refine ⟨fortune', fun j hj => by simpa using hcells j hj, ?_⟩
  refine .trans (.single ⟨hC _ _ rfl, hcommand⟩) (hcopy.trans ?_)
  refine .trans (.single ⟨hC _ _ rfl, .copied rfl (by simp)⟩) ?_
  exact .single ⟨hC _ _ rfl, .create rfl⟩

/-- Every order of steps. -/
def anyOrder (_ : State) (_ : Event) : Prop := True

/-- A thread that reads `fortune` for one of its two calls. -/
def Reads (cfg : Config) (K : Text → ThreadPc) : Prop :=
  ∀ fortune path, fortune path.length ≠ nul →
    ThreadStep cfg fortune (K path) .internal (K (path ++ [fortune path.length]))

variable {K : Text → ThreadPc} {rest : Text} {q : Text}

theorem Woven.spelled (hpath : Woven cfg path) : Spelled cfg path :=
  ⟨hpath.1, fun i hi => hpath.2 i hi.le⟩

/-- One more path is put into the array while thread 0 stands where it is. -/
theorem leads_beside (hfn : Checked cfg fn) : ∃ input : Text, ∀ (fortune : ℕ → Char) (rest : Text)
    (pc : ThreadPc) (junk : List ThreadPc), ∃ fortune' junk',
      (∀ j < pathMax, fortune' j = cell fn j) ∧
      Leads (Under anyOrder (Step cfg)) ⟨fortune, input ++ rest, .command, pc :: junk⟩
        ⟨fortune', rest, .command, pc :: junk'⟩ := by
  obtain ⟨input, hinput⟩ := leads_store (C := anyOrder) hfn
  refine ⟨input, fun fortune rest pc junk => ?_⟩
  obtain ⟨fortune', hcells, hleads⟩ := hinput fortune rest (pc :: junk) fun _ _ _ => trivial
  exact ⟨fortune', junk ++ [ThreadPc.stat []], hcells, hleads⟩

/-- Thread 0 moves. -/
theorem leads_thread {junk : List ThreadPc} (hthread : ThreadStep cfg fortune pc e pc') :
    Leads (Under anyOrder (Step cfg)) ⟨fortune, rest, .command, pc :: junk⟩
      ⟨fortune, rest, .command, pc' :: junk⟩ :=
  .single (l := e) ⟨trivial, .thread (i := 0) (by simp) rfl hthread⟩

/-- A woven path is read character by character, with another path in the array each time. -/
theorem leads_take (hK : Reads cfg K) (hpath : Woven cfg path) (n : ℕ) (hn : n ≤ path.length) :
    ∃ input : Text, ∀ (fortune : ℕ → Char) (rest : Text) (junk : List ThreadPc),
      ∃ fortune' junk',
        Leads (Under anyOrder (Step cfg)) ⟨fortune, input ++ rest, .command, K [] :: junk⟩
          ⟨fortune', rest, .command, K (path.take n) :: junk'⟩ := by
  induction n with
  | zero => exact ⟨[], fun fortune rest junk => ⟨fortune, junk, Relation.ReflTransGen.refl⟩⟩
  | succ n ih =>
    obtain ⟨before, hbefore⟩ := ih (by omega)
    obtain ⟨fn, hfn, hcell⟩ := hpath.2 n (by omega)
    obtain ⟨input, hinput⟩ := leads_beside hfn
    refine ⟨before ++ input, fun fortune rest junk => ?_⟩
    obtain ⟨fortune₁, junk₁, hleads₁⟩ := hbefore fortune (input ++ rest) junk
    obtain ⟨fortune₂, junk₂, hcells, hleads₂⟩ := hinput fortune₁ rest (K (path.take n)) junk₁
    have hlen : (path.take n).length = n := by simp only [List.length_take]; omega
    have hlt := hpath.spelled.length_lt
    have hchar : fortune₂ (path.take n).length = path[n] := by
      rw [hlen, hcells n (by omega), hcell, cell_of_lt (by omega)]
    have hnul : fortune₂ (path.take n).length ≠ nul := by
      rw [hchar]
      exact fun heq => hpath.1 (heq ▸ List.getElem_mem _)
    have hread := hK fortune₂ (path.take n) hnul
    rw [hchar, List.take_append_getElem] at hread
    refine ⟨fortune₂, junk₂, ?_⟩
    rw [List.append_assoc]
    exact hleads₁.trans (hleads₂.trans (leads_thread hread))

/-- At last its terminator is in the array. -/
theorem leads_read (hK : Reads cfg K) (hpath : Woven cfg path) :
    ∃ input : Text, ∀ (fortune : ℕ → Char) (rest : Text) (junk : List ThreadPc),
      ∃ fortune' junk', fortune' path.length = nul ∧
        Leads (Under anyOrder (Step cfg)) ⟨fortune, input ++ rest, .command, K [] :: junk⟩
          ⟨fortune', rest, .command, K path :: junk'⟩ := by
  obtain ⟨before, hbefore⟩ := leads_take hK hpath path.length le_rfl
  obtain ⟨fn, hfn, hcell⟩ := hpath.2 path.length le_rfl
  obtain ⟨input, hinput⟩ := leads_beside hfn
  refine ⟨before ++ input, fun fortune rest junk => ?_⟩
  obtain ⟨fortune₁, junk₁, hleads₁⟩ := hbefore fortune (input ++ rest) junk
  rw [List.take_length] at hleads₁
  obtain ⟨fortune₂, junk₂, hcells, hleads₂⟩ := hinput fortune₁ rest (K path) junk₁
  refine ⟨fortune₂, junk₂, ?_, ?_⟩
  · rw [hcells _ hpath.spelled.length_lt, hcell, cell_of_le le_rfl]
  · rw [List.append_assoc]
    exact hleads₁.trans hleads₂

/-- A woven path is opened after the owner of another woven path was asked for. -/
theorem opened_of_woven (hpath : Woven cfg path) (hreadable : cfg.files.readable path = true)
    (hq : Woven cfg q) (howner : cfg.files.owner q = some cfg.myuid) :
    ∃ stdin history s s', Run (State.init stdin) (Step cfg) ((s, .opened path) :: history) s' := by
  obtain ⟨fn, hfn, -⟩ := hq.2 0 (Nat.zero_le _)
  obtain ⟨input₀, hstore⟩ := leads_store (C := anyOrder) hfn
  obtain ⟨input₁, hstat⟩ := leads_read (K := .stat) (fun _ _ => .statRead) hq
  obtain ⟨input₂, hopen⟩ := leads_read (K := .openFile) (fun _ _ => .openRead) hpath
  obtain ⟨fortune₀, -, hleads₀⟩ := hstore (fun _ => nul) (input₁ ++ (input₂ ++ [])) []
    fun _ _ _ => trivial
  obtain ⟨fortune₁, junk₁, hend₁, hleads₁⟩ := hstat fortune₀ (input₂ ++ []) []
  obtain ⟨fortune₂, junk₂, hend₂, hleads₂⟩ := hopen fortune₁ [] junk₁
  have hchecked : Leads (Under anyOrder (Step cfg))
      ⟨fortune₁, input₂ ++ [], .command, .stat q :: junk₁⟩
      ⟨fortune₁, input₂ ++ [], .command, .openFile [] :: junk₁⟩ :=
    (leads_thread (.statted hend₁ howner)).trans (leads_thread (.own rfl))
  have hall := hleads₀.trans (hleads₁.trans (hchecked.trans hleads₂))
  obtain ⟨history, hrun⟩ := hall.reachable reachable_init
  exact ⟨_, history, _, _, hrun.of_under.1.step
    (.thread (i := 0) (by simp) rfl (.opened hend₂ hreadable))⟩

/-- In every run, whatever the order of steps, every path that is handed to `stat` or `open`
begins with the base, and each of its characters, the terminator included, is the one that some
checked path has in this place. -/
theorem paths_in_base {x : State × Event} (hrun : Run (State.init stdin) (Step cfg) history s)
    (hx : x ∈ history) (hpath : x.2.handed = some path) :
    path.take cfg.base.length = cfg.base ∧ Woven cfg path := by
  obtain ⟨s₀, e⟩ := x
  obtain ⟨later, earlier, rfl⟩ := List.append_of_mem hx
  obtain ⟨hearlier, s₁, hstep⟩ := hrun.before
  have hwoven := hstep.woven (reachable_justified ⟨earlier, hearlier⟩) hpath
  exact ⟨hwoven.base, hwoven⟩

/-- A service with one fortune, `f`. -/
def oneFortune : Config where
  files :=
    { realpath := fun path => if path = ['/', 'b', '/', 'f'] then some path else none
      access := fun _ => true
      owner := fun _ => some 1
      readable := fun _ => true
      realpath_fits := by
        rintro path fn hpath
        obtain ⟨rfl, rfl⟩ : path = ['/', 'b', '/', 'f'] ∧ path = fn := by simpa using hpath
        simp [pathMax, nul] }
  base := ['/', 'b']
  myuid := 1

theorem checked_oneFortune : Checked oneFortune ['/', 'b', '/', 'f'] := by
  refine ⟨['f'], .inr ⟨⟨by simp, by simp [isBlank, nul]⟩, by simp [pathMax], by simp⟩, ?_, rfl, rfl⟩
  rw [List.take_of_length_le (by simp [oneFortune, pathMax])]
  rfl

/-- A checked path is woven of itself. -/
theorem Checked.woven (hfn : Checked cfg fn) : Woven cfg fn :=
  ⟨hfn.fits.2.2, fun _ _ => ⟨fn, hfn, rfl⟩⟩

/-- In some run of this service a path is handed to the file system. -/
theorem paths_in_base_oneFortune : ∃ stdin history s x,
    Run (State.init stdin) (Step oneFortune) history s ∧ x ∈ history ∧
    x.2.handed = some ['/', 'b', '/', 'f'] ∧ Woven oneFortune ['/', 'b', '/', 'f'] := by
  have hwoven := checked_oneFortune.woven
  obtain ⟨stdin, history, s, s', hrun⟩ := opened_of_woven hwoven rfl hwoven rfl
  exact ⟨stdin, _, s', _, hrun, List.mem_cons_self, rfl,
    (paths_in_base hrun List.mem_cons_self rfl).2⟩

/-- A file is opened for the user in some run exactly when it can be opened, its path is woven
of checked paths, and so is the path of some file that belongs to the user. -/
theorem opened_iff :
    (∃ stdin history s, Run (State.init stdin) (Step cfg) history s ∧
      ∃ x ∈ history, x.2 = .opened path) ↔
    Woven cfg path ∧ cfg.files.readable path = true ∧
      ∃ q, Woven cfg q ∧ cfg.files.owner q = some cfg.myuid := by
  constructor
  · rintro ⟨stdin, history, s, hrun, ⟨s₀, e⟩, hmem, rfl⟩
    obtain ⟨later, earlier, rfl⟩ := List.append_of_mem hmem
    obtain ⟨hearlier, s₁, hstep⟩ := hrun.before
    have hjust := reachable_justified ⟨earlier, hearlier⟩
    have hhanded : (Event.opened path).handed = some path := rfl
    obtain ⟨pc, hpc, pc', hthread⟩ := hstep.of_path hhanded
    exact ⟨hstep.woven hjust rfl, hthread.opened_owner (hjust.threads pc hpc)⟩
  · rintro ⟨hpath, hreadable, q, hq, howner⟩
    obtain ⟨stdin, history, s, s', hrun⟩ := opened_of_woven hpath hreadable hq howner
    exact ⟨stdin, _, s', hrun, _, List.mem_cons_self, rfl⟩

end UnixProgramming.Fortune
