import UnixProgramming.Fortune.Service

/-!
# The sandbox

A thread reads `fortune` one character at a time, at any speed, so the path that it asks for
or opens can be woven of several names that were checked. It still begins with the base.
-/

namespace UnixProgramming.Fortune

variable {cfg : Config} {stdin line path name fn : Text} {s s' : State} {e : Event} {i : ℕ}
variable {pc pc' : ThreadPc} {mpc : MainPc} {history : List (State × Event)} {fortune : ℕ → Char}

/-- Before the end of a text its cells are its characters, -/
theorem cell_of_lt {s : Text} (hi : i < s.length) : cell s i = s[i] := by
  simp [cell, hi]

/-- and from there on they are terminators. -/
theorem cell_of_le {s : Text} (hi : s.length ≤ i) : cell s i = nul := by
  simp [cell, hi]

/-! ## What is copied -/

/-- What is copied passes the checks. -/
theorem readFortune_eq_copy {fname : Option Text} (hcopy : readFortune cfg fname = .copy fn i) :
    i = 0 ∧ ∃ name, fname = some name ∧
      cfg.files.realpath ((cfg.base ++ ['/'] ++ name).take (2 * pathMax - 1)) = some fn ∧
      fn.take cfg.base.length = cfg.base ∧ cfg.files.access fn = true := by
  unfold readFortune at hcopy
  split at hcopy
  · cases hcopy
  · cases hcopy
  · split at hcopy
    · cases hcopy
    · next hpath =>
      split at hcopy
      · cases hcopy
      · next hbase =>
        split at hcopy
        · cases hcopy
        · next haccess =>
          obtain ⟨rfl, rfl⟩ := MainPc.copy.inj hcopy
          exact ⟨rfl, _, rfl, hpath, not_not.mp hbase, by simpa using haccess⟩

/-- No thread is created before the path has been copied. -/
theorem readFortune_ne_create {fname : Option Text} : readFortune cfg fname ≠ .create := by
  unfold readFortune
  repeat' split
  all_goals simp

/-- Digits are no blanks. -/
theorem isBlank_of_isDigit {c : Char} (hc : c.isDigit = true) : isBlank c = false ∧ c ≠ nul := by
  have hne : ∀ d : Char, d.isDigit = false → c ≠ d := by
    rintro d hd rfl
    simp [hd] at hc
  simp only [isBlank, hne ' ' rfl, hne '\t' rfl, hne '\r' rfl, hne '\n' rfl, decide_false,
    Bool.or_false, ne_eq, hne nul rfl, not_false_eq_true, and_self]

/-- A random name is a word, -/
theorem isWord_randomName (n : ℕ) : IsWord (randomName n) := by
  refine ⟨by simp [randomName], fun c hc => ?_⟩
  simp only [randomName, List.leftpad, List.mem_append, List.mem_replicate] at hc
  rcases hc with hc | ⟨-, rfl⟩ | hc
  · have hletters : ∀ c ∈ ['f', 'o', 'r', 't', 'u', 'n', 'e'], isBlank c = false ∧ c ≠ nul := by
      simp [isBlank, nul]
    exact hletters c hc
  · exact isBlank_of_isDigit rfl
  · exact isBlank_of_isDigit (Nat.isDigit_of_mem_toDigits (by omega) le_rfl hc)

/-- and can be typed as well. -/
theorem askable_randomName {n : ℕ} (hn : n < 2 ^ 31) : Askable (randomName n) := by
  have hdigits : (Nat.toDigits 10 n).length ≤ 10 :=
    (Nat.length_toDigits_le_iff (by omega) (by omega)).mpr (by omega)
  have hlen : (randomName n).length ≤ 20 := by
    simp only [randomName, List.leftpad, List.length_append, List.length_replicate,
      List.length_cons, List.length_nil]
    omega
  have hfits : (randomName n).length < pathMax - 1 := by
    rw [pathMax]
    omega
  exact Or.inl ⟨isWord_randomName n, hfits⟩

/-- A line that is no other command can be asked for with its first word. -/
theorem askable_firstWord {c : Char} {rest : Text} (hc : c ≠ 'L' ∧ c ≠ 'R' ∧ c ≠ 'Q')
    (hlen : (c :: rest).length ≤ pathMax - 1) (hword : firstWord (c :: rest) = some name) :
    Askable name := by
  have hle := length_firstWord_le hword
  rcases firstWord_head hword with hhead | hlt
  · refine .inr ⟨isWord_of_firstWord hword, by simp only [pathMax] at *; omega, ?_⟩
    simpa [hhead] using hc
  · exact .inl ⟨isWord_of_firstWord hword, by omega⟩

/-- Only checked paths are copied. -/
theorem Command.checked (hlen : line.length ≤ pathMax - 1) (hcommand : Command cfg line mpc) :
    mpc ≠ .create ∧ ∀ fn i, mpc = .copy fn i → i = 0 ∧ Checked cfg fn := by
  cases hcommand with
  | random n hn =>
    refine ⟨readFortune_ne_create, fun fn i hcopy => ?_⟩
    obtain ⟨rfl, name, hname, hchecks⟩ := readFortune_eq_copy hcopy
    obtain rfl := Option.some.inj hname
    exact ⟨rfl, _, askable_randomName hn, hchecks⟩
  | name hL hR hQ =>
    refine ⟨readFortune_ne_create, fun fn i hcopy => ?_⟩
    obtain ⟨rfl, name, hname, hchecks⟩ := readFortune_eq_copy hcopy
    exact ⟨rfl, name, askable_firstWord ⟨hL, hR, hQ⟩ hlen hname, hchecks⟩
  | _ => exact ⟨by simp, fun fn i hcopy => by cases hcopy⟩

/-- A checked path begins with the base, ends before the last place and has no terminator. -/
theorem Checked.fits (hfn : Checked cfg fn) :
    fn.take cfg.base.length = cfg.base ∧ fn.length < pathMax ∧ nul ∉ fn := by
  obtain ⟨name, -, hpath, hbase, -⟩ := hfn
  exact ⟨hbase, cfg.files.realpath_fits _ _ hpath⟩

/-- Behind the end of a checked path there is nothing but terminators. -/
theorem Checked.cell_eq_nul_iff (hfn : Checked cfg fn) : cell fn i = nul ↔ fn.length ≤ i := by
  refine ⟨fun hcell => ?_, cell_of_le⟩
  by_contra hi
  rw [cell_of_lt (by omega)] at hcell
  exact hfn.fits.2.2 (hcell ▸ List.getElem_mem _)

/-! ## What is read -/

/-- The characters of a checked path, or of several ones, so far. -/
def Spelled (cfg : Config) (path : Text) : Prop :=
  nul ∉ path ∧ ∀ i < path.length, ∃ fn, Checked cfg fn ∧ cell fn i = cell path i

/-- A path that is being read stays within the array. -/
theorem Spelled.length_lt (hpath : Spelled cfg path) : path.length < pathMax := by
  by_contra hlen
  obtain ⟨fn, hfn, hcell⟩ := hpath.2 (pathMax - 1) (by simp only [pathMax] at *; omega)
  have hfits := hfn.fits.2.1
  rw [cell_of_le (by omega), cell_of_lt (by simp only [pathMax] at *; omega)] at hcell
  exact hpath.1 (hcell ▸ List.getElem_mem _)

/-- At first nothing has been read. -/
theorem spelled_nil : Spelled cfg [] := ⟨by simp, fun i hi => by simp at hi⟩

/-- The next character is one of a checked path, too, -/
theorem Spelled.append {c : Char} (hpath : Spelled cfg path) (hc : c ≠ nul)
    (hnext : ∃ fn, Checked cfg fn ∧ c = cell fn path.length) : Spelled cfg (path ++ [c]) := by
  refine ⟨by simpa [hc.symm] using hpath.1, fun i hi => ?_⟩
  rw [List.length_append, List.length_singleton] at hi
  rcases Nat.lt_succ_iff_lt_or_eq.mp hi with hlt | rfl
  · obtain ⟨fn, hfn, hcell⟩ := hpath.2 i hlt
    exact ⟨fn, hfn, by rw [hcell, cell, cell, List.getElem?_append_left hlt]⟩
  · obtain ⟨fn, hfn, hcell⟩ := hnext
    exact ⟨fn, hfn, by rw [← hcell]; simp [cell]⟩

/-- and so is the terminator. -/
theorem Spelled.woven (hpath : Spelled cfg path)
    (hnext : ∃ fn, Checked cfg fn ∧ nul = cell fn path.length) : Woven cfg path := by
  refine ⟨hpath.1, fun i hi => ?_⟩
  rcases Nat.lt_or_eq_of_le hi with hlt | rfl
  · exact hpath.2 i hlt
  · obtain ⟨fn, hfn, hcell⟩ := hnext
    exact ⟨fn, hfn, by rw [← hcell, cell_of_le le_rfl]⟩

/-- A woven path begins with the base, too. -/
theorem Woven.base (hpath : Woven cfg path) : path.take cfg.base.length = cfg.base := by
  obtain ⟨fn, hfn, hend⟩ := hpath.2 path.length le_rfl
  rw [cell_of_le le_rfl, hfn.cell_eq_nul_iff] at hend
  have hlen : cfg.base.length ≤ path.length := by
    refine le_trans ?_ hend
    have := congrArg List.length hfn.fits.1
    simp only [List.length_take] at this
    omega
  refine List.ext_getElem (by simp [hlen]) fun i hi hbase => ?_
  obtain ⟨fn, hfn, hcell⟩ := hpath.2 i (by omega)
  have hcell' : cell fn i = cell cfg.base i := by
    conv_rhs => rw [← hfn.fits.1]
    rw [cell, cell, List.getElem?_take_of_lt hbase]
  rw [List.getElem_take, ← cell_of_lt (by omega), ← hcell, hcell', cell_of_lt hbase]

/-! ## Every order of steps -/

/-- What a thread has needed so far. -/
def ThreadPc.Justified (cfg : Config) : ThreadPc → Prop
  | .stat path => Spelled cfg path
  | .check uid => ∃ path, Woven cfg path ∧ cfg.files.owner path = some uid
  | .openFile path => Spelled cfg path ∧ ∃ q, Woven cfg q ∧ cfg.files.owner q = some cfg.myuid
  | .done => True

/-- The first path has been copied as far as this place. -/
def State.Written (s : State) (j : ℕ) : Prop :=
  s.threads ≠ [] ∨ s.main = .create ∨ ∃ fn i, s.main = .copy fn i ∧ j < i

/-- Only checked paths are copied, so what has been written and read is woven of them. -/
structure State.Justified (cfg : Config) (s : State) : Prop where
  copying : ∀ fn i, s.main = .copy fn i → Checked cfg fn
  cells : ∀ j < pathMax, s.Written j → ∃ fn, Checked cfg fn ∧ s.fortune j = cell fn j
  threads : ∀ pc ∈ s.threads, pc.Justified cfg

/-- The path that a step hands to the file system. -/
def Event.handed : Event → Option Text
  | .statted path => some path
  | .opened path => some path
  | .refused path => some path
  | _ => none

/-- A thread reads what is woven, -/
theorem ThreadStep.justified
    (hcells : ∀ j < pathMax, ∃ fn, Checked cfg fn ∧ fortune j = cell fn j)
    (hpc : pc.Justified cfg) (hstep : ThreadStep cfg fortune pc e pc') : pc'.Justified cfg := by
  cases hstep with
  | statRead hc =>
    exact Spelled.append hpc hc (hcells _ (Spelled.length_lt hpc))
  | statted hc howner =>
    exact ⟨_, Spelled.woven hpc (hc ▸ hcells _ (Spelled.length_lt hpc)), howner⟩
  | own huid =>
    subst huid
    exact ⟨spelled_nil, hpc⟩
  | openRead hc => exact ⟨Spelled.append hpc.1 hc (hcells _ hpc.1.length_lt), hpc.2⟩
  | _ => trivial

/-- and hands it to the file system when it has read it. -/
theorem ThreadStep.woven
    (hcells : ∀ j < pathMax, ∃ fn, Checked cfg fn ∧ fortune j = cell fn j)
    (hpc : pc.Justified cfg) (hstep : ThreadStep cfg fortune pc e pc')
    (hpath : e.handed = some path) : Woven cfg path := by
  cases hstep with
  | statted hc | statError hc =>
    obtain rfl := Option.some.inj hpath
    exact Spelled.woven hpc (hc ▸ hcells _ (Spelled.length_lt hpc))
  | opened hc | openError hc =>
    obtain rfl := Option.some.inj hpath
    exact hpc.1.woven (hc ▸ hcells _ hpc.1.length_lt)
  | _ => cases hpath

/-- A file that is opened is so after another one, or the same, belonged to the user. -/
theorem ThreadStep.opened_owner (hpc : pc.Justified cfg)
    (hstep : ThreadStep cfg fortune pc (.opened path) pc') :
    cfg.files.readable path = true ∧ ∃ q, Woven cfg q ∧ cfg.files.owner q = some cfg.myuid := by
  cases hstep with
  | opened _ hreadable => exact ⟨hreadable, hpc.2⟩

/-- At the beginning no thread runs and the buffer is empty. -/
theorem State.Justified.init (stdin : Text) : (State.init stdin).Justified cfg where
  copying fn i hcopy := by cases hcopy
  cells j _ hwritten := by simp [State.Written, State.init] at hwritten
  threads pc hpc := by simp [State.init] at hpc

/-- Every step keeps all cells justified: they come from a name that has passed or passes the
checks. -/
theorem Step.justified (hjust : s.Justified cfg) (hstep : Step cfg s e s') :
    s'.Justified cfg := by
  cases hstep with
  | command hmain hcommand =>
    have hchecked := hcommand.checked (length_readLine_le ..)
    refine ⟨fun fn i hcopy => (hchecked.2 fn i hcopy).2, fun j hj hwritten => ?_, hjust.threads⟩
    rcases hwritten with hthreads | hcreate | ⟨fn, i, hcopy, hlt⟩
    · exact hjust.cells j hj (.inl hthreads)
    · exact absurd hcreate hchecked.1
    · have := (hchecked.2 fn i hcopy).1
      omega
  | @copy fn i hmain hi =>
    have hfn := hjust.copying fn i hmain
    refine ⟨fun fn' i' hcopy => ?_, fun j hj hwritten => ?_, hjust.threads⟩
    · obtain ⟨rfl, -⟩ := MainPc.copy.inj hcopy
      exact hfn
    · by_cases hji : j = i
      · exact ⟨fn, hfn, by simp [hji]⟩
      · simp only [Function.update_of_ne hji]
        refine hjust.cells j hj ?_
        rcases hwritten with hthreads | hcreate | ⟨fn', i', hcopy, hlt⟩
        · exact .inl hthreads
        · cases hcreate
        · obtain ⟨rfl, rfl⟩ := MainPc.copy.inj hcopy
          exact .inr (.inr ⟨fn, i, hmain, by omega⟩)
  | @copied fn i hmain hi =>
    refine ⟨fun fn' i' hcopy => (by cases hcopy), fun j hj _ => ?_, hjust.threads⟩
    exact hjust.cells j hj (.inr (.inr ⟨fn, i, hmain, by omega⟩))
  | create hmain =>
    refine ⟨fun fn i hcopy => (by cases hcopy), fun j hj _ => hjust.cells j hj (.inr (.inl hmain)),
      fun pc hpc => ?_⟩
    rcases List.mem_append.mp hpc with hpc | hpc
    · exact hjust.threads pc hpc
    · rw [List.mem_singleton.mp hpc]
      exact spelled_nil
  | notCreated hmain =>
    refine ⟨fun fn i hcopy => (by cases hcopy), fun j hj _ => hjust.cells j hj (.inr (.inl hmain)),
      hjust.threads⟩
  | @thread i pc pc' e _ hpc hthread =>
    have hne : s.threads ≠ [] := by
      intro hnil
      simp [hnil] at hpc
    have hcells := fun j hj => hjust.cells j hj (.inl hne)
    refine ⟨hjust.copying, fun j hj _ => hcells j hj, fun pc'' hmem => ?_⟩
    rcases List.mem_or_eq_of_mem_set hmem with hmem | rfl
    · exact hjust.threads pc'' hmem
    · exact hthread.justified hcells (hjust.threads pc (List.mem_of_getElem? hpc))

/-- So they are justified in every state that can be reached. -/
theorem reachable_justified (hreach : Reachable (State.init stdin) (Step cfg) s) :
    s.Justified cfg :=
  hreach.invariant (State.Justified.init stdin) fun _ _ _ hjust hstep => hstep.justified hjust

/-- A step that hands a path to the file system is one of a thread. -/
theorem Step.of_path (hstep : Step cfg s e s') (hpath : e.handed = some path) :
    ∃ pc ∈ s.threads, ∃ pc', ThreadStep cfg s.fortune pc e pc' := by
  cases hstep with
  | thread _ hpc hthread => exact ⟨_, List.mem_of_getElem? hpc, _, hthread⟩
  | _ => cases hpath

/-- What a thread opens is woven of such names, character by character. -/
theorem Step.woven (hjust : s.Justified cfg) (hstep : Step cfg s e s')
    (hpath : e.handed = some path) : Woven cfg path := by
  obtain ⟨pc, hpc, pc', hthread⟩ := hstep.of_path hpath
  have hcells := fun j hj => hjust.cells j hj (.inl (List.ne_nil_of_mem hpc))
  exact hthread.woven hcells (hjust.threads pc hpc) hpath

end UnixProgramming.Fortune
