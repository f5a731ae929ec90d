import UnixProgramming.Lib.Loops
import UnixProgramming.Logger.Wrappers

/-!
# Opening through links

A request is forbidden when a rule names the requested path or the file at the end
of its links. The wrapper compares the requested path and the text of the first
link only, so it answers every forbidden request exactly when that text, or the
path itself, is already reported.
-/

namespace UnixProgramming.Logger

variable {env : Env} {u : Unspecified} {w : World} {filename mode target : List Char}
variable {blacklist : Option (List (List Char))}

/-- The wrapper hands out no file and sets `errno` to `EACCES`. -/
def Blocked (result : Except Fault (Answer (Option ℕ) × World)) : Prop :=
  ∃ w', result = .ok (⟨none, some .eacces⟩, w')

/-- A rule names the requested path or the file that following its links reaches. -/
def Forbidden (blacklist : Option (List (List Char))) (files : FileSystem) (filename : Path) :
    Prop :=
  Listed blacklist filename ∨ ∃ last, EndsAt files filename last ∧ Listed blacklist last

/-- A forbidden request is never handed out. -/
def NeverHandsOut (env : Env) (u : Unspecified) (w : World) (filename mode : List Char) : Prop :=
  ∀ blacklist, env.blacklist .fopen = .ok blacklist → Forbidden blacklist w.files filename →
    Blocked (fopen env u w filename mode)

/-- One step shows what the links lead to: a path that is not there and looks like a
link is not listed, and a link to a listed file is reported by itself or by its text. -/
def ShownByOneStep (blacklist : Option (List (List Char))) (u : Unspecified) (files : FileSystem)
    (filename : Path) : Prop :=
  match files filename with
  | none => u.staleLink = true → ¬ Listed blacklist filename
  | some (.file _) => True
  | some (.link target) =>
    (∃ last, EndsAt files filename last ∧ Listed blacklist last) →
      compareBlacklist filename blacklist = true ∨ compareBlacklist target blacklist = true

/-- The library never refuses a file with `EACCES` here. -/
theorem fopen_errno (w : World) (filename mode : List Char) :
    (w.fopen filename mode).1 ≠ ⟨none, some .eacces⟩ := by
  unfold World.fopen World.create World.addStream
  split
  · simp
  · split
    · split
      · simp
      · split <;> simp
    · split
      · simp
      · split
        · split <;> simp
        · split
          · split <;> simp
          · simp

/-- The wrapper blocks a request exactly when the path or the text that one
`readlink` step gives is reported. -/
theorem blocked_iff (hread : env.blacklist .fopen = .ok blacklist) :
    Blocked (fopen env u w filename mode) ↔
      ∃ realFilename, handleSymbolicLink u (lstat w.files filename) filename = .ok realFilename ∧
        (compareBlacklist filename blacklist = true ∨
          compareBlacklist realFilename blacklist = true) := by
  unfold Blocked fopen
  simp only [hread, bind_eq_ok, Except.ok.injEq, exists_eq_left', pure_eq_ok, Prod.mk.injEq]
  constructor
  · rintro ⟨w', realFilename, hreal, hanswer, -⟩
    refine ⟨realFilename, hreal, ?_⟩
    by_contra hneither
    rw [← Bool.or_eq_true] at hneither
    rw [if_neg hneither] at hanswer
    exact fopen_errno w filename mode hanswer
  · rintro ⟨realFilename, hreal, hreported⟩
    rw [← Bool.or_eq_true] at hreported
    exact ⟨(w.fopen filename mode).2, realFilename, hreal, if_pos hreported, rfl⟩

/-- One step on a link gives its whole text. -/
theorem handleSymbolicLink_link (hlink : w.files filename = some (.link target)) :
    handleSymbolicLink u (lstat w.files filename) filename = .ok target := by
  simp only [lstat, hlink, handleSymbolicLink]
  congr 1
  by_cases hempty : target.length = 0
  · rw [List.eq_nil_of_length_eq_zero hempty, List.take_nil]
  · rw [if_neg hempty, List.take_of_length_le (Nat.le_succ _)]

/-- A file ends its own links. -/
theorem EndsAt.eq_of_file {files : FileSystem} {path last : Path} {content : List Char}
    (hends : EndsAt files path last) (hfile : files path = some (.file content)) :
    last = path :=
  hends.unique (.file hfile)

/-- The end of the links is there. -/
theorem EndsAt.isSome {files : FileSystem} {path last : Path} (hends : EndsAt files path last) :
    (files path).isSome = true := by
  cases hends with
  | file hfile => simp [hfile]
  | link hlink => simp [hlink]

/-- The wrapper never hands out a forbidden file exactly when one step shows what the
links lead to. -/
theorem neverHandsOut_iff (hread : env.blacklist .fopen = .ok blacklist) :
    NeverHandsOut env u w filename mode ↔ ShownByOneStep blacklist u w.files filename := by
  have hsingle : NeverHandsOut env u w filename mode ↔
      (Forbidden blacklist w.files filename → Blocked (fopen env u w filename mode)) := by
    constructor
    · exact fun hnever => hnever blacklist hread
    · intro hblocks blacklist' hread' hforbidden
      rw [hread, Except.ok.injEq] at hread'
      exact hblocks (hread' ▸ hforbidden)
  rw [hsingle, blocked_iff hread, Forbidden, ShownByOneStep]
  cases hnode : w.files filename with
  | none =>
    have hnothing : ¬ ∃ last, EndsAt w.files filename last ∧ Listed blacklist last := by
      rintro ⟨last, hends, -⟩
      have := hends.isSome
      simp [hnode] at this
    simp only [lstat, hnode, handleSymbolicLink, or_iff_left hnothing]
    cases hstale : u.staleLink with
    | false =>
      simpa using fun hlisted => compareBlacklist_of_listed hlisted (List.prefix_refl _)
    | true => simp
  | some node =>
    cases node with
    | file content =>
      simp only [lstat, hnode, handleSymbolicLink, iff_true]
      intro hforbidden
      refine ⟨filename, rfl, .inl ?_⟩
      obtain hlisted | ⟨last, hends, hlisted⟩ := hforbidden
      · exact compareBlacklist_of_listed hlisted (List.prefix_refl _)
      · rw [hends.eq_of_file hnode] at hlisted
        exact compareBlacklist_of_listed hlisted (List.prefix_refl _)
    | link target =>
      simp only [handleSymbolicLink_link hnode, Except.ok.injEq, exists_eq_left']
      constructor
      · exact fun hblocks hreaches => hblocks (.inr hreaches)
      · rintro hshown (hlisted | hreaches)
        · exact .inl (compareBlacklist_of_listed hlisted (List.prefix_refl _))
        · exact hshown hreaches

/-- Links that name a regular file by an absolute path are always seen through. -/
theorem shownByOneStep_of_absolute {content : List Char}
    (hlink : w.files filename = some (.link target)) (habsolute : target.head? = some '/')
    (hfile : w.files target = some (.file content)) :
    ShownByOneStep blacklist u w.files filename := by
  rw [ShownByOneStep, hlink]
  rintro ⟨last, hends, hlisted⟩
  have htarget : EndsAt w.files filename target := by
    apply EndsAt.link hlink
    rw [targetPath, if_pos habsolute]
    exact .file hfile
  rw [hends.unique htarget] at hlisted
  exact .inr (compareBlacklist_of_listed hlisted (List.prefix_refl _))

/-- Two links, one behind the other, to a file below `/bin`. -/
def chainedFiles : FileSystem := fun path =>
  if path = "/tmp/a".toList then some (.link "/tmp/b".toList)
  else if path = "/tmp/b".toList then some (.link "/bin/sh".toList)
  else if path = "/bin/sh".toList then some (.file "text".toList)
  else none

/-- A process without open streams on some files. -/
def freshWorld (files : FileSystem) : World where
  files := files
  creatable := fun _ => true
  streams := []
  sockets := fun _ => none
  accepts := fun _ => true
  hosts := fun _ => none
  onlyFilename := List.replicate 100 '\x00'
  logs := fun _ => []

/-- Unspecified memory that holds zeros. -/
def zeroMemory : Unspecified := ⟨false, [], [], fun _ => '\x00'⟩

/-- The process that reads the rule `/bin/*`. -/
def openOnlyEnv : Env := ⟨some (openOnly.render true), 100⟩

/-- The end of the links of `chainedFiles`. -/
theorem chainedFiles_endsAt : EndsAt chainedFiles "/tmp/a".toList "/bin/sh".toList := by
  have hfirst : targetPath "/tmp/a".toList "/tmp/b".toList = "/tmp/b".toList := by decide
  have hsecond : targetPath "/tmp/b".toList "/bin/sh".toList = "/bin/sh".toList := by decide
  apply EndsAt.link (show chainedFiles "/tmp/a".toList = some (.link "/tmp/b".toList) by decide)
  rw [hfirst]
  apply EndsAt.link (show chainedFiles "/tmp/b".toList = some (.link "/bin/sh".toList) by decide)
  rw [hsecond]
  exact .file (show chainedFiles "/bin/sh".toList = some (.file "text".toList) by decide)

/-- On `chainedFiles` the first step does not show that `/bin/sh` is reached. -/
theorem neverHandsOut_iff_chain :
    NeverHandsOut openOnlyEnv zeroMemory (freshWorld chainedFiles) "/tmp/a".toList "r".toList ↔
      ShownByOneStep (some ["/bin/*".toList]) zeroMemory chainedFiles "/tmp/a".toList :=
  neverHandsOut_iff (by decide +kernel)

/-- The wrapper opens `/bin/sh` through two links although `/bin/*` is blacklisted. -/
theorem not_neverHandsOut_chain :
    ¬ ∀ (env : Env) (u : Unspecified) (w : World) (filename mode : List Char),
      NeverHandsOut env u w filename mode := by
  intro hall
  have hread : openOnlyEnv.blacklist .fopen = .ok (some ["/bin/*".toList]) := by
    decide +kernel
  have hlisted : Listed (some ["/bin/*".toList]) "/bin/sh".toList :=
    ⟨_, rfl, _, List.mem_singleton_self _, by decide⟩
  have hblocked := hall openOnlyEnv zeroMemory (freshWorld chainedFiles) "/tmp/a".toList
    "r".toList _ hread (.inr ⟨_, chainedFiles_endsAt, hlisted⟩)
  obtain ⟨realFilename, hreal, hreported⟩ := (blocked_iff hread).mp hblocked
  have hlink : (freshWorld chainedFiles).files "/tmp/a".toList = some (.link "/tmp/b".toList) := by
    decide
  rw [handleSymbolicLink_link hlink, Except.ok.injEq] at hreal
  subst hreal
  revert hreported
  decide

end UnixProgramming.Logger
