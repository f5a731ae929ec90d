import Mathlib.Data.Nat.Find
import UnixProgramming.Lib.Elf

/-!
# Section lookup

`get_section` of `libsolver.c`, which `sdb.c` has as well. Its loop reads the section headers
into one variable, leaves when the name matches and returns the variable. Without a match it
returns the last header, and the loop does not run at all when `e_shnum` is zero, as it is in
an image with very many sections.
-/

namespace UnixProgramming.Libsolver

open Elf

/-- `fseek` and `fread` of a section header. There is no result when the header is not
inside the file: the code goes on with what is in its variable. -/
def readShdr (file : List UInt8) (off : ℕ) : Option Shdr :=
  if off % 2 ^ 64 + sizeofShdr ≤ file.length then
    some (shdrOfBytes (slice file (off % 2 ^ 64) sizeofShdr))
  else none

/-- The loop of `get_section`, with `n` headers to go from number `i` on. There is no result
when `strcmp` leaves the table of the names. -/
def sectionLoop (file table name : List UInt8) : ℕ → ℕ → Shdr → Option Shdr
  | 0, _, shdr => some shdr
  | n + 1, i, _ => do
    let shdr ← readShdr file ((ehdr file).eShoff + i * sizeofShdr)
    let sectionName ← stringAt table shdr.shName.toNat
    if sectionName = name then pure shdr else sectionLoop file table name n (i + 1) shdr

/-- `get_section`. `shdr` is the content of the variable that the function declares without
an initial value. -/
def getSection (file : List UInt8) (shdr : Shdr) (name : Name) : Option Shdr := do
  let shdrSectionName ←
    readShdr file ((ehdr file).eShoff + (ehdr file).eShstrndx * sizeofShdr)
  let sectionNameTable := contents file shdrSectionName
  sectionLoop file sectionNameTable name (ehdr file).eShnum 0 shdr

/-- Section `i` is the first one with the name. -/
def FirstNamed (file : List UInt8) (name : Name) (i : ℕ) : Prop :=
  i < sectionCount file ∧ sectionName file i = some name.val ∧
    ∀ j < i, sectionName file j ≠ some name.val

/-- The lookup returns the header of the first section with the name, and something else
than the header of a section if there is none. -/
def FindsSection (file : List UInt8) (name : Name) : Prop :=
  ∀ shdr, ∃ h, getSection file shdr name = some h ∧
    ((∃ i, FirstNamed file name i ∧ h = sectionAt file i) ∨
      (∀ i < sectionCount file, sectionName file i ≠ some name.val ∧ h ≠ sectionAt file i))

variable {file table : List UInt8} {name : Name} {n i k : ℕ} {shdr : Shdr} {names : ℕ → List UInt8}

/-- The loop reads the headers from number `i` on, whose names are given. -/
def Reads (file table : List UInt8) (names : ℕ → List UInt8) (n i : ℕ) : Prop :=
  ∀ j, i ≤ j → j < i + n →
    readShdr file ((ehdr file).eShoff + j * sizeofShdr) = some (sectionAt file j) ∧
      stringAt table (sectionAt file j).shName.toNat = some (names j)

theorem Reads.tail (hreads : Reads file table names (n + 1) i) :
    Reads file table names n (i + 1) :=
  fun j hj hj' => hreads j (by omega) (by omega)

/-- One round of the loop. -/
theorem sectionLoop_succ (hreads : Reads file table names (n + 1) i) :
    sectionLoop file table name (n + 1) i shdr =
      if names i = name then some (sectionAt file i)
      else sectionLoop file table name n (i + 1) (sectionAt file i) := by
  obtain ⟨hread, hname⟩ := hreads i le_rfl (by omega)
  simp only [sectionLoop, hread, hname, Option.bind_eq_bind, Option.bind_some, Option.pure_def]

/-- The loop stops at the first match, -/
theorem sectionLoop_found (hreads : Reads file table names n i) (hk : i ≤ k) (hk' : k < i + n)
    (hname : names k = name) (hfirst : ∀ j, i ≤ j → j < k → names j ≠ name) :
    sectionLoop file table name n i shdr = some (sectionAt file k) := by
  induction n generalizing i shdr with
  | zero => omega
  | succ n ih =>
    rw [sectionLoop_succ hreads]
    by_cases hik : i = k
    · rw [if_pos (hik ▸ hname), hik]
    · rw [if_neg (hfirst i le_rfl (by omega))]
      exact ih hreads.tail (by omega) (by omega) fun j hj => hfirst j (by omega)

/-- and without a match it leaves the last header that it has read. -/
theorem sectionLoop_missing (hreads : Reads file table names n i)
    (hmissing : ∀ j, i ≤ j → j < i + n → names j ≠ name) :
    sectionLoop file table name n i shdr =
      some (if n = 0 then shdr else sectionAt file (i + n - 1)) := by
  induction n generalizing i shdr with
  | zero => rfl
  | succ n ih =>
    rw [sectionLoop_succ hreads, if_neg (hmissing i le_rfl (by omega)),
      ih hreads.tail fun j hj hj' => hmissing j (by omega) (by omega)]
    cases n with
    | zero => rfl
    | succ n =>
      have hlast : i + 1 + (n + 1) - 1 = i + (n + 1 + 1) - 1 := by omega
      rw [if_neg (Nat.succ_ne_zero _), if_neg (Nat.succ_ne_zero _), hlast]

/-- Whatever the names are, the result of the loop is its variable or a header it has read. -/
theorem sectionLoop_result {h : Shdr} {target : List UInt8}
    (hread : ∀ j < i + n, readShdr file ((ehdr file).eShoff + j * sizeofShdr) =
      some (sectionAt file j))
    (hok : sectionLoop file table target n i shdr = some h) :
    n = 0 ∧ h = shdr ∨ ∃ j < i + n, h = sectionAt file j := by
  induction n generalizing i shdr with
  | zero => exact .inl ⟨rfl, (Option.some.inj hok).symm⟩
  | succ n ih =>
    refine .inr ?_
    simp only [sectionLoop, hread i (by omega), Option.bind_eq_bind, Option.bind_some,
      Option.pure_def, Option.bind_eq_some_iff] at hok
    obtain ⟨sectionName, _, hok⟩ := hok
    split at hok
    · exact ⟨i, by omega, (Option.some.inj hok).symm⟩
    · obtain ⟨_, rfl⟩ | ⟨j, hj, rfl⟩ := ih (fun j hj => hread j (by omega)) hok
      · exact ⟨i, by omega, rfl⟩
      · exact ⟨j, by omega, rfl⟩

/-- Headers inside the table can be read. -/
theorem readShdr_sectionAt (hwf : WellFormed file) (hoff : (ehdr file).eShoff ≠ 0)
    (hi : i < max 1 (sectionCount file)) :
    readShdr file ((ehdr file).eShoff + i * sizeofShdr) = some (sectionAt file i) := by
  have hheaders := hwf.headers hoff
  have hsize := hwf.size
  have hinside : (ehdr file).eShoff + i * sizeofShdr + sizeofShdr ≤ file.length := by
    have hmul := Nat.mul_le_mul_left sizeofShdr (Nat.succ_le_of_lt hi)
    rw [Nat.mul_succ, Nat.mul_comm sizeofShdr i] at hmul
    omega
  have hmod : ((ehdr file).eShoff + i * sizeofShdr) % 2 ^ 64 =
      (ehdr file).eShoff + i * sizeofShdr := Nat.mod_eq_of_lt (by omega)
  rw [readShdr, hmod, if_pos hinside, sectionAt, Nat.mul_comm i]

/-- An image that gives the number of its sections in the file header has that many. -/
theorem sectionCount_eq (hwf : WellFormed file) (hnum : (ehdr file).eShnum ≠ 0) :
    (ehdr file).eShoff ≠ 0 ∧ sectionCount file = (ehdr file).eShnum := by
  have hoff : (ehdr file).eShoff ≠ 0 := fun hoff => hnum (hwf.noTable hoff)
  exact ⟨hoff, by rw [sectionCount, if_neg hoff, if_neg hnum]⟩

/-- Such an image has the number of its name section in the file header too. -/
theorem namesIndex_eq (hwf : WellFormed file) (hnum : (ehdr file).eShnum ≠ 0) :
    namesIndex file = (ehdr file).eShstrndx := by
  have hcount := (sectionCount_eq hwf hnum).2
  have hreserved := hwf.reserved
  rw [namesIndex]
  split
  · next hescape =>
    obtain hlow | ⟨_, hlink⟩ := hwf.escape
    · omega
    · have hnames := hwf.names
      rw [namesIndex, if_pos hescape] at hnames
      omega
  · rfl

/-- There the loop runs over the sections, with the names of the name section. -/
theorem getSection_eq (hwf : WellFormed file) (hnum : (ehdr file).eShnum ≠ 0) :
    getSection file shdr name =
      sectionLoop file (contents file (sectionAt file (namesIndex file))) name
        (sectionCount file) 0 shdr := by
  obtain ⟨hoff, hcount⟩ := sectionCount_eq hwf hnum
  have hlt : namesIndex file < max 1 (sectionCount file) := by
    have hnames := hwf.names
    omega
  rw [getSection, ← namesIndex_eq hwf hnum, readShdr_sectionAt hwf hoff hlt, hcount]
  rfl

/-- A name that a section has belongs to a first section. -/
theorem exists_firstNamed (hnamed : ∃ i < sectionCount file, sectionName file i = some name.val) :
    ∃ i, FirstNamed file name i := by
  classical
  have hspec := Nat.find_spec hnamed
  refine ⟨Nat.find hnamed, hspec.1, hspec.2, fun j hj hname => ?_⟩
  exact Nat.find_min hnamed hj ⟨hj.trans hspec.1, hname⟩

/-- The first section with a name is unique. -/
theorem FirstNamed.unique {i' : ℕ} (hfirst : FirstNamed file name i)
    (hfirst' : FirstNamed file name i') : i = i' := by
  obtain ⟨_, hname, hbefore⟩ := hfirst
  obtain ⟨_, hname', hbefore'⟩ := hfirst'
  obtain hlt | rfl | hlt := Nat.lt_trichotomy i i'
  · exact absurd hname (hbefore' i hlt)
  · rfl
  · exact absurd hname' (hbefore i' hlt)

/-- With a name section, every section has a name, -/
theorem sectionName_eq_getD (hwf : WellFormed file) (hindex : namesIndex file ≠ 0)
    (hi : i < sectionCount file) : sectionName file i = some ((sectionName file i).getD []) := by
  obtain ⟨bs, hbs⟩ := Option.isSome_iff_exists.mp (hwf.terminated hindex i hi)
  rw [hbs, Option.getD_some]

/-- and the loop reads all of them. -/
theorem reads_sections (hwf : WellFormed file) (hnum : (ehdr file).eShnum ≠ 0)
    (hindex : namesIndex file ≠ 0) :
    Reads file (contents file (sectionAt file (namesIndex file)))
      (fun j => (sectionName file j).getD []) (sectionCount file) 0 := by
  intro j _ hj
  refine ⟨readShdr_sectionAt hwf (sectionCount_eq hwf hnum).1 (by omega), ?_⟩
  rw [← sectionName_eq_getD hwf hindex (by omega), sectionName, if_neg hindex]

/-- The lookup of a name that a section has returns the first such section, -/
theorem getSection_of_firstNamed (hwf : WellFormed file) (hnum : (ehdr file).eShnum ≠ 0)
    (hfirst : FirstNamed file name i) (shdr : Shdr) :
    getSection file shdr name = some (sectionAt file i) := by
  obtain ⟨hlt, hname, hbefore⟩ := hfirst
  have hindex : namesIndex file ≠ 0 := by
    intro hzero
    rw [sectionName, if_pos hzero] at hname
    cases hname
  rw [getSection_eq hwf hnum]
  refine sectionLoop_found (reads_sections hwf hnum hindex) (Nat.zero_le i) (by omega)
    (by rw [hname, Option.getD_some]) fun j _ hj heq => hbefore j hj ?_
  rw [sectionName_eq_getD hwf hindex (hj.trans hlt), heq]

/-- and that of any other name returns the last section. -/
theorem getSection_of_missing (hwf : WellFormed file) (hnum : (ehdr file).eShnum ≠ 0)
    (hindex : namesIndex file ≠ 0)
    (hmissing : ∀ i < sectionCount file, sectionName file i ≠ some name.val) (shdr : Shdr) :
    getSection file shdr name = some (sectionAt file (sectionCount file - 1)) := by
  have hcount : sectionCount file ≠ 0 := (sectionCount_eq hwf hnum).2 ▸ hnum
  rw [getSection_eq hwf hnum, sectionLoop_missing (reads_sections hwf hnum hindex), if_neg hcount,
    Nat.zero_add]
  intro j _ hj heq
  refine hmissing j (by omega) ?_
  rw [sectionName_eq_getD hwf hindex (by omega), heq]

/-- Every lookup in an image that gives the number of its sections in the file header
returns the header of a section, if it returns. -/
theorem getSection_result {h : Shdr} (hwf : WellFormed file) (hnum : (ehdr file).eShnum ≠ 0)
    (hok : getSection file shdr name = some h) : ∃ j < sectionCount file, h = sectionAt file j := by
  obtain ⟨hoff, hcount⟩ := sectionCount_eq hwf hnum
  rw [getSection_eq hwf hnum] at hok
  have hread : ∀ j < 0 + sectionCount file,
      readShdr file ((ehdr file).eShoff + j * sizeofShdr) = some (sectionAt file j) :=
    fun j hj => readShdr_sectionAt hwf hoff (by omega)
  obtain ⟨hzero, _⟩ | hsection := sectionLoop_result hread hok
  · exact absurd (hcount.symm.trans hzero) hnum
  · simpa using hsection

/-- Without a number in the file header the lookup returns its variable, if it returns. -/
theorem getSection_uninitialised {h : Shdr} (hnum : (ehdr file).eShnum = 0)
    (hok : getSection file shdr name = some h) : h = shdr := by
  simp only [getSection, hnum, sectionLoop, Option.bind_eq_bind, Option.bind_eq_some_iff] at hok
  obtain ⟨_, _, hok⟩ := hok
  exact (Option.some.inj hok).symm

/-- In an image without sections it does return. -/
theorem getSection_of_empty (hwf : WellFormed file) (hempty : sectionCount file = 0) :
    getSection file shdr name = some shdr := by
  have hnum : (ehdr file).eShnum = 0 := by
    by_contra hnum
    exact hnum ((sectionCount_eq hwf hnum).2.symm.trans hempty)
  have hstrndx : (ehdr file).eShstrndx = 0 := by
    have hnames := hwf.names
    have hescape := hwf.escape
    rw [namesIndex] at hnames
    split at hnames <;> omega
  have hread : readShdr file ((ehdr file).eShoff + 0 * sizeofShdr) ≠ none := by
    by_cases hoff : (ehdr file).eShoff = 0
    · simp [hoff, readShdr, sizeofShdr, hwf.header]
    · rw [readShdr_sectionAt hwf hoff (by omega)]
      exact Option.some_ne_none _
  obtain ⟨h, hh⟩ := Option.ne_none_iff_exists'.mp hread
  simp only [getSection, hstrndx, hh, hnum, sectionLoop, Option.bind_eq_bind, Option.bind_some]

/-- A lookup that meets its purpose with a number of sections in the file header was for a
name that a section has. -/
theorem FindsSection.exists_named (hfinds : FindsSection file name) (hwf : WellFormed file)
    (hnum : (ehdr file).eShnum ≠ 0) :
    ∃ i < sectionCount file, sectionName file i = some name.val := by
  obtain ⟨h, hok, ⟨i, hfirst, _⟩ | hother⟩ := hfinds (sectionAt file 0)
  · exact ⟨i, hfirst.1, hfirst.2.1⟩
  · obtain ⟨j, hj, rfl⟩ := getSection_result hwf hnum hok
    exact absurd rfl (hother j hj).2

/-- Without that number it meets its purpose only when there are no sections: the variable
can look like the header of the first section, or of no section at all. -/
theorem FindsSection.sectionCount_eq_zero (hfinds : FindsSection file name)
    (hnum : (ehdr file).eShnum = 0) : sectionCount file = 0 := by
  by_contra hcount
  obtain ⟨h, hok, ⟨i, hfirst, _⟩ | hother⟩ := hfinds (sectionAt file 0)
  · let junk : Shdr := { sectionAt file i with shName := (sectionAt file i).shName + 1 }
    obtain ⟨h', hok', ⟨i', hfirst', heq⟩ | hother⟩ := hfinds junk
    · rw [getSection_uninitialised hnum hok', ← hfirst.unique hfirst'] at heq
      have hname := congrArg Shdr.shName heq
      simp [junk] at hname
    · exact (hother i hfirst.1).1 hfirst.2.1
  · exact (hother 0 (Nat.pos_of_ne_zero hcount)).2 (getSection_uninitialised hnum hok)

/-- The lookup meets its purpose exactly when the file header gives the number of sections
and a section has the name, or when there are no sections at all. -/
theorem findsSection_iff (hwf : WellFormed file) :
    FindsSection file name ↔
      ((ehdr file).eShnum ≠ 0 ∧ ∃ i < sectionCount file, sectionName file i = some name.val) ∨
        sectionCount file = 0 := by
  constructor
  · intro hfinds
    by_cases hnum : (ehdr file).eShnum = 0
    · exact .inr (hfinds.sectionCount_eq_zero hnum)
    · exact .inl ⟨hnum, hfinds.exists_named hwf hnum⟩
  · rintro (⟨hnum, hnamed⟩ | hempty) shdr
    · obtain ⟨i, hfirst⟩ := exists_firstNamed hnamed
      exact ⟨_, getSection_of_firstNamed hwf hnum hfirst shdr, .inl ⟨i, hfirst, rfl⟩⟩
    · exact ⟨shdr, getSection_of_empty hwf hempty, .inr fun i hi => absurd hi (by omega)⟩

/-- A stripped image: the empty section and the section of the names `""` and `".shstrtab"`.
The names are at offset 64, the section headers at offset 80. -/
def strippedImage : List UInt8 :=
  [ehdrBytes ⟨80, 64, 2, 1⟩, [0], ascii ".shstrtab", toBytes 6 0,
    shdrBytes zeroShdr, shdrBytes ⟨1, 3, 0, 0, 64, 11, 0, 0, 1, 0⟩].flatten

theorem wellFormed_stripped : WellFormed strippedImage where
  ident := by decide +kernel
  header := by decide +kernel
  size := by decide +kernel
  entsize := by decide +kernel
  noTable := by decide +kernel
  headers := by decide +kernel
  reserved := by decide +kernel
  extended := by decide +kernel
  escape := by decide +kernel
  names := by decide +kernel
  terminated := by decide +kernel

/-- The section names are found in it, -/
theorem findsSection_stripped :
    FindsSection strippedImage ⟨ascii ".shstrtab", by decide⟩ :=
  (findsSection_iff wellFormed_stripped).mpr (.inl ⟨by decide, 1, by decide, by decide⟩)

/-- and the lookup of `".symtab"` returns their header as well. -/
theorem not_findsSection_stripped : ¬∀ file name, WellFormed file → FindsSection file name := by
  intro hall
  have hmissing : ∀ i < sectionCount strippedImage,
      sectionName strippedImage i ≠ some (ascii ".symtab") := by decide
  obtain ⟨h, hok, ⟨i, hfirst, _⟩ | hother⟩ :=
    hall strippedImage ⟨ascii ".symtab", by decide⟩ wellFormed_stripped zeroShdr
  · exact hmissing i hfirst.1 hfirst.2.1
  · rw [getSection_of_missing wellFormed_stripped (by decide) (by decide) hmissing] at hok
    exact (hother 1 (by decide)).2 (Option.some.inj hok).symm

end UnixProgramming.Libsolver
