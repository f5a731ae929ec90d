import UnixProgramming.Fortune.Races

/-!
# One file at a time

If `main` waited for a thread to end before it copies the next path, every file that is opened
would be one that was checked and that belongs to the user.
-/

namespace UnixProgramming.Fortune

variable {cfg : Config} {stdin line path name fn text : Text} {s s' : State} {e : Event} {i : ℕ}
variable {pc pc' : ThreadPc} {mpc : MainPc} {history : List (State × Event)} {fortune : ℕ → Char}

/-- No character is stored before all threads are done. -/
def Serial (s : State) : Event → Prop
  | .stored => ∀ pc ∈ s.threads, pc = .done
  | _ => True

/-- The array holds the path. -/
def Holds (fortune : ℕ → Char) (fn : Text) : Prop := ∀ j < pathMax, fortune j = cell fn j

/-- The thread has read this path only. -/
def ThreadPc.Follows (cfg : Config) (fn : Text) : ThreadPc → Prop
  | .stat path => path <+: fn
  | .check uid => cfg.files.owner fn = some uid
  | .openFile path => path <+: fn ∧ cfg.files.owner fn = some cfg.myuid
  | .done => True

/-- What has been read is the beginning of the path, and so is what has been read next. -/
theorem prefix_read (hfn : Checked cfg fn) (hholds : Holds fortune fn) (hpath : path <+: fn)
    (hc : fortune path.length ≠ nul) : path ++ [fortune path.length] <+: fn := by
  have hlen : path.length < fn.length := by
    by_contra hge
    have hle := hpath.length_le
    have hfits := hfn.fits.2.1
    exact hc (by rw [hholds _ (by omega), cell_of_le (by omega)])
  have hcell : fortune path.length = fn[path.length] := by
    rw [hholds _ (hlen.trans hfn.fits.2.1), cell_of_lt hlen]
  obtain ⟨tail, rfl⟩ := hpath
  cases tail with
  | nil => simp at hlen
  | cons c tail => exact ⟨tail, by simp [hcell]⟩

/-- When the terminator is read, the path has been read. -/
theorem prefix_end (hfn : Checked cfg fn) (hholds : Holds fortune fn) (hpath : path <+: fn)
    (hc : fortune path.length = nul) : path = fn := by
  refine hpath.eq_of_length_le ?_
  have hlen := hpath.length_le
  have hfits := hfn.fits.2.1
  rwa [hholds _ (by omega), hfn.cell_eq_nul_iff] at hc

/-- A thread keeps to the path that is in the array, -/
theorem ThreadStep.follows (hfn : Checked cfg fn) (hholds : Holds fortune fn)
    (hpc : pc.Follows cfg fn) (hstep : ThreadStep cfg fortune pc e pc') : pc'.Follows cfg fn := by
  cases hstep with
  | statRead hc => exact prefix_read hfn hholds hpc hc
  | statted hc howner =>
    obtain rfl := prefix_end hfn hholds hpc hc
    exact howner
  | own huid =>
    subst huid
    exact ⟨List.nil_prefix, hpc⟩
  | openRead hc => exact ⟨prefix_read hfn hholds hpc.1 hc, hpc.2⟩
  | _ => trivial

/-- and opens no other one. -/
theorem ThreadStep.opens_own (hfn : Checked cfg fn) (hholds : Holds fortune fn)
    (hpc : pc.Follows cfg fn) (hstep : ThreadStep cfg fortune pc (.opened path) pc') :
    path = fn ∧ cfg.files.owner fn = some cfg.myuid := by
  cases hstep with
  | opened hc _ => exact ⟨prefix_end hfn hholds hpc.1 hc, hpc.2⟩

/-- Either all threads are done or the array holds the path that they follow. -/
structure State.Orderly (cfg : Config) (s : State) : Prop where
  copying : ∀ fn i, s.main = .copy fn i → Checked cfg fn ∧
    (0 < i → ∀ pc ∈ s.threads, pc = .done) ∧ ∀ j < i, j < pathMax → s.fortune j = cell fn j
  creating : s.main = .create →
    (∀ pc ∈ s.threads, pc = .done) ∧ ∃ fn, Checked cfg fn ∧ Holds s.fortune fn
  threads : (∀ pc ∈ s.threads, pc = .done) ∨
    ∃ fn, Checked cfg fn ∧ Holds s.fortune fn ∧ ∀ pc ∈ s.threads, pc.Follows cfg fn

theorem State.Orderly.init (stdin : Text) : (State.init stdin).Orderly cfg where
  copying fn i hcopy := by cases hcopy
  creating hcreate := by cases hcreate
  threads := .inl fun pc hpc => by simp [State.init] at hpc

/-- A thread that is not done follows a path that is in the array. -/
theorem State.Orderly.follows (hord : s.Orderly cfg) (hpc : pc ∈ s.threads) (hne : pc ≠ .done) :
    ∃ fn, Checked cfg fn ∧ Holds s.fortune fn ∧ ∀ pc ∈ s.threads, pc.Follows cfg fn := by
  rcases hord.threads with hdone | hfollow
  · exact absurd (hdone pc hpc) hne
  · exact hfollow

theorem ThreadStep.ne_done (hstep : ThreadStep cfg fortune pc e pc') : pc ≠ .done := by
  cases hstep <;> simp

theorem Step.orderly (hord : s.Orderly cfg) (hserial : Serial s e) (hstep : Step cfg s e s') :
    s'.Orderly cfg := by
  cases hstep with
  | command hmain hcommand =>
    have hchecked := hcommand.checked (length_readLine_le ..)
    refine ⟨fun fn i hcopy => ?_, fun hcreate => absurd hcreate hchecked.1, hord.threads⟩
    obtain ⟨rfl, hfn⟩ := hchecked.2 fn i hcopy
    exact ⟨hfn, fun hpos => absurd hpos (by omega), fun j hj => absurd hj (by omega)⟩
  | @copy fn i hmain hi =>
    obtain ⟨hfn, -, hcells⟩ := hord.copying fn i hmain
    refine ⟨fun fn' i' hcopy => ?_, fun hcreate => (by cases hcreate), .inl hserial⟩
    obtain ⟨rfl, rfl⟩ := MainPc.copy.inj hcopy
    refine ⟨hfn, fun _ => hserial, fun j hj hlt => ?_⟩
    by_cases hji : j = i
    · simp [hji]
    · simpa [hji] using hcells j (by omega) hlt
  | @copied fn i hmain hi =>
    obtain ⟨hfn, hdone, hcells⟩ := hord.copying fn i hmain
    have hpos : 0 < i := by
      simp only [pathMax] at hi
      omega
    exact ⟨fun fn' i' hcopy => (by cases hcopy),
      fun _ => ⟨hdone hpos, fn, hfn, fun j hj => hcells j (by omega) hj⟩, .inl (hdone hpos)⟩
  | create hmain =>
    obtain ⟨hdone, fn, hfn, hholds⟩ := hord.creating hmain
    refine ⟨fun fn' i' hcopy => (by cases hcopy), fun hcreate => (by cases hcreate),
      .inr ⟨fn, hfn, hholds, fun pc hpc => ?_⟩⟩
    rcases List.mem_append.mp hpc with hpc | hpc
    · rw [hdone pc hpc]
      trivial
    · rw [List.mem_singleton.mp hpc]
      exact List.nil_prefix
  | notCreated hmain =>
    exact ⟨fun fn' i' hcopy => (by cases hcopy), fun hcreate => (by cases hcreate), hord.threads⟩
  | @thread i pc pc' _ _ hpc hthread =>
    obtain ⟨fn, hfn, hholds, hfollow⟩ :=
      hord.follows (List.mem_of_getElem? hpc) hthread.ne_done
    have halive : ¬∀ pc ∈ s.threads, pc = .done := fun hdone =>
      hthread.ne_done (hdone pc (List.mem_of_getElem? hpc))
    refine ⟨fun fn' i' hcopy => ?_, fun hcreate => ?_, .inr ⟨fn, hfn, hholds, fun u hu => ?_⟩⟩
    · obtain ⟨hfn', hdone, hcells⟩ := hord.copying fn' i' hcopy
      exact ⟨hfn', fun hpos => absurd (hdone hpos) halive, hcells⟩
    · exact absurd (hord.creating hcreate).1 halive
    · rcases List.mem_or_eq_of_mem_set hu with hu | rfl
      · exact hfollow u hu
      · exact hthread.follows hfn hholds (hfollow pc (List.mem_of_getElem? hpc))

/-! ## A run with one file -/

/-- A path that stays in the array is read as it is. -/
theorem leads_whole {K : Text → ThreadPc} (hK : Reads cfg K) (hfn : Checked cfg fn)
    (hholds : Holds fortune fn) (n : ℕ) (hn : n ≤ fn.length) :
    Leads (Under Serial (Step cfg)) ⟨fortune, [], .command, [K []]⟩
      ⟨fortune, [], .command, [K (fn.take n)]⟩ := by
  induction n with
  | zero => exact Relation.ReflTransGen.refl
  | succ n ih =>
    have hlen : (fn.take n).length = n := by simp only [List.length_take]; omega
    have hchar : fortune (fn.take n).length = fn[n] := by
      rw [hlen, hholds n (by have := hfn.fits.2.1; omega), cell_of_lt (by omega)]
    have hread := hK fortune (fn.take n) (by
      rw [hchar]
      exact fun heq => hfn.fits.2.2 (heq ▸ List.getElem_mem _))
    rw [hchar, List.take_append_getElem] at hread
    exact (ih (by omega)).trans (.single (l := .internal)
      ⟨trivial, .thread (i := 0) (by simp) rfl hread⟩)

/-- The file of a checked path that belongs to the user is opened in a serial run. -/
theorem exists_serial_run (hfn : Checked cfg fn) (howner : cfg.files.owner fn = some cfg.myuid)
    (hreadable : cfg.files.readable fn = true) : ∃ stdin history s s',
      Run (State.init stdin) (Step cfg) ((s, .opened fn) :: history) s' ∧
      EachStep Serial ((s, .opened fn) :: history) := by
  obtain ⟨input, hstore⟩ := leads_store (C := Serial) hfn
  obtain ⟨fortune, hholds, hleads⟩ := hstore (fun _ => nul) [] [] fun s e hs => by
    cases e <;> simp [Serial, hs]
  have hend : fortune fn.length = nul := by rw [hholds _ hfn.fits.2.1, cell_of_le le_rfl]
  have hstat := leads_whole (K := .stat) (fun _ _ => .statRead) hfn hholds _ le_rfl
  have hopen := leads_whole (K := .openFile) (fun _ _ => .openRead) hfn hholds _ le_rfl
  rw [List.take_length] at hstat hopen
  have hchecked : Leads (Under Serial (Step cfg)) ⟨fortune, [], .command, [.stat fn]⟩
      ⟨fortune, [], .command, [.openFile []]⟩ :=
    .trans (.single (l := .statted fn)
        ⟨trivial, .thread (i := 0) (by simp) rfl (.statted hend howner)⟩)
      (.single (l := .internal) ⟨trivial, .thread (i := 0) (by simp) rfl (.own rfl)⟩)
  obtain ⟨history, hrun⟩ :=
    (hleads.trans (hstat.trans (hchecked.trans hopen))).reachable reachable_init
  obtain ⟨hrun, hserial⟩ := hrun.of_under
  refine ⟨_, history, _, _, hrun.step (.thread (i := 0) (by simp) rfl (.opened hend hreadable)), ?_⟩
  exact eachStep_cons.mpr ⟨trivial, hserial⟩

/-- In every run, whatever the order of steps, in which no character is stored before all
threads are done, every file that is opened has a checked path and belongs to the user. -/
theorem opened_own {x : State × Event} (hrun : Run (State.init stdin) (Step cfg) history s)
    (hserial : EachStep Serial history) (hx : x ∈ history) (hopened : x.2 = .opened path) :
    Checked cfg path ∧ cfg.files.owner path = some cfg.myuid := by
  obtain ⟨s₀, e⟩ := x
  obtain rfl : e = .opened path := hopened
  have hord : s₀.Orderly cfg := (hrun.throughout_of_step (State.Orderly.init stdin)
    (fun _ _ _ hord hserial hstep => hstep.orderly hord hserial) hserial).2 _ hx
  obtain ⟨later, earlier, rfl⟩ := List.append_of_mem hx
  obtain ⟨-, s₁, hstep⟩ := hrun.before
  have hhanded : (Event.opened path).handed = some path := rfl
  obtain ⟨pc, hpc, pc', hthread⟩ := hstep.of_path hhanded
  obtain ⟨fn, hfn, hholds, hfollow⟩ := hord.follows hpc hthread.ne_done
  obtain ⟨rfl, howner⟩ := hthread.opens_own hfn hholds (hfollow pc hpc)
  exact ⟨hfn, howner⟩

/-- In some serial run of the service with one fortune, its file is opened. -/
theorem opened_own_oneFortune : ∃ stdin history s x,
    Run (State.init stdin) (Step oneFortune) history s ∧ EachStep Serial history ∧ x ∈ history ∧
    x.2 = .opened ['/', 'b', '/', 'f'] ∧ oneFortune.files.owner ['/', 'b', '/', 'f'] = some 1 := by
  obtain ⟨stdin, history, s, s', hrun, hserial⟩ := exists_serial_run checked_oneFortune rfl rfl
  exact ⟨stdin, _, s', _, hrun, hserial, List.mem_cons_self, rfl,
    (opened_own hrun hserial List.mem_cons_self rfl).2⟩

end UnixProgramming.Fortune
