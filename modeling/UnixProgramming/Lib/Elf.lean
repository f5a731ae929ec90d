import Mathlib.Algebra.Ring.Nat
import UnixProgramming.Lib.CStrings

/-!
# ELF64 images

The parts of the format that a lookup of sections and symbols depends on: the file header,
the table of section headers, the table of their names, and symbols. Numbers are
little-endian. An image with 0xff00 sections or more has zero in `e_shnum` and the number
of its sections in the first section header.
-/

namespace UnixProgramming.Elf

/-- The number with the given bytes, lowest first. -/
def littleEndian : List UInt8 → ℕ
  | [] => 0
  | b :: bs => b.toNat + 256 * littleEndian bs

/-- A number in `n` bytes, lowest first. -/
def toBytes : ℕ → ℕ → List UInt8
  | 0, _ => []
  | n + 1, v => .ofNat v :: toBytes n (v / 256)

/-- The bytes from an offset on, `n` at most. -/
def slice (bs : List UInt8) (off n : ℕ) : List UInt8 := (bs.drop off).take n

/-- A number inside a record. -/
def field (bs : List UInt8) (off n : ℕ) : ℕ := littleEndian (slice bs off n)

/-- The fields of `Elf64_Ehdr` that locate the section headers. -/
structure Ehdr where
  eShoff : ℕ
  eShentsize : ℕ
  eShnum : ℕ
  eShstrndx : ℕ

/-- The header at the start of an image. -/
def ehdr (file : List UInt8) : Ehdr where
  eShoff := field file 40 8
  eShentsize := field file 58 2
  eShnum := field file 60 2
  eShstrndx := field file 62 2

/-- `Elf64_Shdr`. -/
structure Shdr where
  shName : BitVec 32
  shType : BitVec 32
  shFlags : BitVec 64
  shAddr : BitVec 64
  shOffset : BitVec 64
  shSize : BitVec 64
  shLink : BitVec 32
  shInfo : BitVec 32
  shAddralign : BitVec 64
  shEntsize : BitVec 64
  deriving DecidableEq

/-- A file header that is zero where it does not concern the sections, apart from the
identification of a shared object for x86-64. -/
def ehdrBytes (h : Ehdr) : List UInt8 :=
  [[0x7f, 0x45, 0x4c, 0x46, 2, 1, 1, 0], toBytes 8 0, toBytes 2 3, toBytes 2 62, toBytes 4 1,
    toBytes 16 0, toBytes 8 h.eShoff, toBytes 4 0, toBytes 2 64, toBytes 4 0,
    toBytes 2 h.eShentsize, toBytes 2 h.eShnum, toBytes 2 h.eShstrndx].flatten

/-- `sizeof(Elf64_Shdr)`. -/
def sizeofShdr : ℕ := 64

/-- A section header in memory. -/
def shdrOfBytes (bs : List UInt8) : Shdr where
  shName := .ofNat _ (field bs 0 4)
  shType := .ofNat _ (field bs 4 4)
  shFlags := .ofNat _ (field bs 8 8)
  shAddr := .ofNat _ (field bs 16 8)
  shOffset := .ofNat _ (field bs 24 8)
  shSize := .ofNat _ (field bs 32 8)
  shLink := .ofNat _ (field bs 40 4)
  shInfo := .ofNat _ (field bs 44 4)
  shAddralign := .ofNat _ (field bs 48 8)
  shEntsize := .ofNat _ (field bs 56 8)

/-- The bytes of a section header. -/
def shdrBytes (h : Shdr) : List UInt8 :=
  [toBytes 4 h.shName.toNat, toBytes 4 h.shType.toNat, toBytes 8 h.shFlags.toNat,
    toBytes 8 h.shAddr.toNat, toBytes 8 h.shOffset.toNat, toBytes 8 h.shSize.toNat,
    toBytes 4 h.shLink.toNat, toBytes 4 h.shInfo.toNat, toBytes 8 h.shAddralign.toNat,
    toBytes 8 h.shEntsize.toNat].flatten

/-- The section header that starts the table. -/
def zeroShdr : Shdr := ⟨0, 0, 0, 0, 0, 0, 0, 0, 0, 0⟩

/-- The fields of `Elf64_Sym` that name a symbol and give its value. -/
structure Sym where
  stName : BitVec 32
  stValue : BitVec 64
  deriving DecidableEq

/-- `sizeof(Elf64_Sym)`. -/
def sizeofSym : ℕ := 24

/-- A symbol in memory. -/
def symOfBytes (bs : List UInt8) : Sym where
  stName := .ofNat _ (field bs 0 4)
  stValue := .ofNat _ (field bs 8 8)

/-- The bytes of a symbol that is zero apart from its name and its value. -/
def symBytes (s : Sym) : List UInt8 :=
  [toBytes 4 s.stName.toNat, toBytes 4 0, toBytes 8 s.stValue.toNat, toBytes 8 0].flatten

/-- Symbol `i` in the contents of a symbol table. -/
def symbolAt (bs : List UInt8) (i : ℕ) : Sym := symOfBytes (slice bs (sizeofSym * i) sizeofSym)

/-- The string at an offset of a string table, if it ends inside the table. -/
def stringAt (table : List UInt8) (off : ℕ) : Option (List UInt8) :=
  if 0 ∈ table.drop off then some (cstring 0 (table.drop off)) else none

/-- A string that can be compared with the strings of a table. -/
abbrev Name := { bs : List UInt8 // 0 ∉ bs }

/-- The bytes of a string of ASCII characters. -/
def ascii (s : String) : List UInt8 := s.toList.map fun c => .ofNat c.toNat

variable (file : List UInt8)

/-- The header of section `i`. -/
def sectionAt (i : ℕ) : Shdr :=
  shdrOfBytes (slice file ((ehdr file).eShoff + sizeofShdr * i) sizeofShdr)

/-- The number of sections. -/
def sectionCount : ℕ :=
  if (ehdr file).eShoff = 0 then 0
  else if (ehdr file).eShnum = 0 then (sectionAt file 0).shSize.toNat
  else (ehdr file).eShnum

/-- The number of the section with the section names, or zero if there is none. -/
def namesIndex : ℕ :=
  if (ehdr file).eShstrndx = 0xffff then (sectionAt file 0).shLink.toNat else (ehdr file).eShstrndx

/-- The contents of a section. -/
def contents (h : Shdr) : List UInt8 := slice file h.shOffset.toNat h.shSize.toNat

/-- The name of section `i`. -/
def sectionName (i : ℕ) : Option (List UInt8) :=
  if namesIndex file = 0 then none
  else stringAt (contents file (sectionAt file (namesIndex file))) (sectionAt file i).shName.toNat

/-- The rules of the format for the file header, the section headers and the section
names. -/
structure WellFormed : Prop where
  ident : slice file 0 6 = [0x7f, 0x45, 0x4c, 0x46, 2, 1]
  header : 64 ≤ file.length
  size : file.length < 2 ^ 63
  entsize : (ehdr file).eShoff ≠ 0 → (ehdr file).eShentsize = sizeofShdr
  noTable : (ehdr file).eShoff = 0 → (ehdr file).eShnum = 0
  headers : (ehdr file).eShoff ≠ 0 →
    (ehdr file).eShoff + sizeofShdr * max 1 (sectionCount file) ≤ file.length
  reserved : (ehdr file).eShnum < 0xff00
  extended : (ehdr file).eShnum = 0 → sectionCount file = 0 ∨ 0xff00 ≤ sectionCount file
  escape : (ehdr file).eShstrndx < 0xff00 ∨
    (ehdr file).eShstrndx = 0xffff ∧ 0xff00 ≤ (sectionAt file 0).shLink.toNat
  names : namesIndex file = 0 ∨ namesIndex file < sectionCount file
  terminated : namesIndex file ≠ 0 → ∀ i < sectionCount file, (sectionName file i).isSome

end UnixProgramming.Elf
