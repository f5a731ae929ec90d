import UnixProgramming.Libsolver.Numbers

/-!
# The text of a maze

The texts that `maze_load` accepts are those with enough numbers: six for the size, the start and
the end, and one for each cell, row by row. What is behind them is not read, and blanks of any
kind may stand between them. Every grid that fits is read back from its text, shifted by 20.
-/

namespace UnixProgramming.Libsolver

variable {mz mz' : Maze} {st st' : Maze × List Char} {text text' text₁ rest tail : List Char}
variable {blk : ℤ → ℤ → BitVec 32} {i j n : ℕ} {ns ms row : List (BitVec 32)} {k : BitVec 32}
variable {rows : List (List (BitVec 32))}

/-! ## Numbers one after another -/

/-- Numbers that are scanned one after another, and what is behind them. -/
inductive Scans : List Char → List (BitVec 32) → List Char → Prop
  | done {text : List Char} : Scans text [] text
  | next {text text₁ rest : List Char} {n : BitVec 32} {ns : List (BitVec 32)} :
      scanInt text = some (n, text₁) → Scans text₁ ns rest → Scans text (n :: ns) rest

/-- Scanning no number leaves the text as it is, -/
theorem scans_nil : Scans text [] rest ↔ rest = text :=
  ⟨fun h => by cases h; rfl, fun h => h ▸ .done⟩

/-- scanning one more begins with it, -/
theorem scans_cons : Scans text (k :: ns) rest ↔
    ∃ text₁, scanInt text = some (k, text₁) ∧ Scans text₁ ns rest := by
  constructor
  · rintro ⟨⟩
    exact ⟨_, ‹_›, ‹_›⟩
  · rintro ⟨text₁, hscan, hrest⟩
    exact .next hscan hrest

/-- and scanning two lists scans one after the other. -/
theorem scans_append : Scans text (ns ++ ms) rest ↔
    ∃ text₁, Scans text ns text₁ ∧ Scans text₁ ms rest := by
  induction ns generalizing text with
  | nil => simp [scans_nil]
  | cons k ns ih =>
    simp only [List.cons_append, scans_cons, ih]
    constructor
    · rintro ⟨text₁, hscan, text₂, hns, hms⟩
      exact ⟨text₂, ⟨text₁, hscan, hns⟩, hms⟩
    · rintro ⟨text₂, ⟨text₁, hscan, hns⟩, hms⟩
      exact ⟨text₁, hscan, text₂, hns, hms⟩

/-- `fscanf` with one number is a step. -/
theorem readInt_eq_ok : readInt text = .ok (k, rest) ↔ Scans text [k] rest := by
  simp only [scans_cons, scans_nil, readInt]
  cases scanInt text with
  | none => simp
  | some r => simp [Prod.ext_iff, eq_comm]

/-! ## Rows -/

/-- The maze with numbers that have been read for some of its cells. -/
def Maze.fill (mz : Maze) (cell : ℤ → ℤ → Option (BitVec 32)) : Maze :=
  { mz with blk := fun y x => ((cell y x).map fun k : BitVec 32 => k <<< 20).getD (mz.blk y x) }

/-- The numbers of row `i`. -/
def inRow (i : ℕ) (row : List (BitVec 32)) (y x : ℤ) : Option (BitVec 32) :=
  if y = i ∧ 0 ≤ x then row[x.toNat]? else none

/-- The numbers of the first rows. -/
def inRows (rows : List (List (BitVec 32))) (y x : ℤ) : Option (BitVec 32) :=
  if 0 ≤ y ∧ 0 ≤ x then rows[y.toNat]?.bind fun row => row[x.toNat]? else none

/-- Reading one more cell of the row, -/
theorem fill_inRow_concat : mz.fill (inRow i (row ++ [k])) =
    (mz.fill (inRow i row)).setBlk row.length i (k <<< 20) := by
  unfold Maze.fill Maze.setBlk
  congr 1
  funext y x
  by_cases hy : y = i
  · subst hy
    rw [Function.update_self]
    by_cases hx : x = row.length
    · subst hx
      simp [inRow]
    · rw [Function.update_of_ne hx]
      by_cases hlow : 0 ≤ x
      · have hne : x.toNat ≠ row.length := by omega
        rcases lt_or_gt_of_ne hne with hlt | hgt
        · simp [inRow, hlow, List.getElem?_append_left hlt]
        · have hge : row.length + 1 ≤ x.toNat := hgt
          simp [inRow, hlow, List.getElem?_eq_none, hge, Nat.le_of_succ_le hge]
      · simp [inRow, hlow]
  · rw [Function.update_of_ne hy]
    simp [inRow, hy]

/-- and one more row. -/
theorem fill_inRows_concat : mz.fill (inRows (rows ++ [row])) =
    (mz.fill (inRows rows)).fill (inRow rows.length row) := by
  unfold Maze.fill
  congr 1
  funext y x
  by_cases hin : 0 ≤ y ∧ 0 ≤ x
  · by_cases hy : y = rows.length
    · subst hy
      cases hcell : row[x.toNat]? <;> simp [inRows, inRow, hin.2, hcell]
    · have hne : y.toNat ≠ rows.length := by omega
      rcases lt_or_gt_of_ne hne with hlt | hgt
      · simp [inRows, inRow, hin, hy, List.getElem?_append_left hlt]
      · have hge : rows.length + 1 ≤ y.toNat := hgt
        simp [inRows, inRow, hin, hy, List.getElem?_eq_none, hge, Nat.le_of_succ_le hge]
  · have hnot : ¬(y = rows.length ∧ 0 ≤ x) := by omega
    simp [inRows, inRow, hin, hnot]

/-- A pass of the inner loop reads one number into a cell of `blk`. -/
theorem readCell_eq_ok : readCell i (mz, text) j = .ok st' ↔
    ∃ k, Scans text [k] st'.2 ∧ i < mazeMaxY ∧ j < mazeMaxX ∧ st'.1 = mz.setBlk j i (k <<< 20) := by
  obtain ⟨mz', rest⟩ := st'
  simp only [readCell, bind_eq_ok]
  constructor
  · rintro ⟨⟨k, rest'⟩, hread, hstore⟩
    dsimp only at hstore
    split at hstore
    · next hin =>
      obtain ⟨rfl, rfl⟩ := Prod.mk.inj (pure_eq_ok.mp hstore)
      exact ⟨k, readInt_eq_ok.mp hread, hin.1, hin.2, rfl⟩
    · cases hstore
  · rintro ⟨k, hscan, hi, hj, rfl⟩
    exact ⟨(k, rest), readInt_eq_ok.mpr hscan, by simp [hi, hj]⟩

/-- The inner loop reads a row. -/
theorem readCells_eq_ok : (List.range n).foldlM (readCell i) (mz, text) = .ok st' ↔
    ∃ row : List (BitVec 32), row.length = n ∧ Scans text row st'.2 ∧
      (0 < n → i < mazeMaxY ∧ n ≤ mazeMaxX) ∧ st'.1 = mz.fill (inRow i row) := by
  induction n generalizing st' with
  | zero =>
    obtain ⟨mz', rest⟩ := st'
    have hnone : mz.fill (inRow i []) = mz := by simp [Maze.fill, inRow]
    simp only [List.range_zero, List.foldlM_nil, pure_eq_ok, List.length_eq_zero_iff,
      lt_irrefl, false_imp_iff, true_and, exists_eq_left, scans_nil, hnone, Prod.mk.injEq]
    exact ⟨fun h => ⟨h.2.symm, h.1.symm⟩, fun h => ⟨h.2.symm, h.1.symm⟩⟩
  | succ n ih =>
    rw [foldlM_range_succ_eq_ok]
    constructor
    · rintro ⟨⟨mz₁, text₁⟩, hcells, hcell⟩
      obtain ⟨row, hlen, hrow, hfits, rfl⟩ := ih.mp hcells
      obtain ⟨k, hk, hi, hn, hmz⟩ := readCell_eq_ok.mp hcell
      refine ⟨row ++ [k], by simp [hlen], scans_append.mpr ⟨text₁, hrow, hk⟩, fun _ => ⟨hi, hn⟩, ?_⟩
      rw [hmz, fill_inRow_concat, hlen]
    · rintro ⟨row, hlen, hrow, hfits, hmz⟩
      obtain rfl | ⟨row, k, rfl⟩ := List.eq_nil_or_concat' row
      · cases hlen
      obtain ⟨text₁, hcells, hk⟩ := scans_append.mp hrow
      obtain ⟨hi, hn⟩ := hfits (Nat.succ_pos n)
      have hlen' : row.length = n := by simpa using hlen
      refine ⟨(mz.fill (inRow i row), text₁),
        ih.mpr ⟨row, hlen', hcells, fun _ => ⟨hi, by omega⟩, rfl⟩, readCell_eq_ok.mpr
          ⟨k, hk, hi, hn, ?_⟩⟩
      rw [hmz, fill_inRow_concat, hlen']

/-- The outer loop reads all rows. -/
theorem readRows_eq_ok : (List.range n).foldlM readRow (mz, text) = .ok st' ↔
    ∃ rows : List (List (BitVec 32)), rows.length = n ∧ (∀ row ∈ rows, row.length = mz.w.toNat) ∧
      Scans text rows.flatten st'.2 ∧
      (0 < n → 0 < mz.w.toNat → n ≤ mazeMaxY ∧ mz.w.toNat ≤ mazeMaxX) ∧
      st'.1 = mz.fill (inRows rows) := by
  induction n generalizing st' with
  | zero =>
    obtain ⟨mz', rest⟩ := st'
    have hnone : mz.fill (inRows []) = mz := by simp [Maze.fill, inRows]
    constructor
    · intro hdone
      obtain ⟨rfl, rfl⟩ := Prod.mk.inj (pure_eq_ok.mp hdone)
      exact ⟨[], rfl, by simp, .done, by simp, hnone.symm⟩
    · rintro ⟨rows, hlen, -, hscans, -, rfl⟩
      obtain rfl := List.length_eq_zero_iff.mp hlen
      obtain rfl := scans_nil.mp hscans
      rw [hnone]
      rfl
  | succ n ih =>
    rw [foldlM_range_succ_eq_ok]
    constructor
    · rintro ⟨⟨mz₁, text₁⟩, hrows, hrow⟩
      obtain ⟨rows, hlen, hwidth, hscans, hfits, rfl⟩ := ih.mp hrows
      obtain ⟨row, hlen', hscan, hfits', hmz⟩ := readCells_eq_ok.mp hrow
      have hwidth' : row.length = mz.w.toNat := hlen'
      refine ⟨rows ++ [row], by simp [hlen], ?_, ?_, fun _ hw => ?_, ?_⟩
      · simpa [or_imp, forall_and, hwidth'] using hwidth
      · rw [List.flatten_append, List.flatten_singleton]
        exact scans_append.mpr ⟨text₁, hscans, hscan⟩
      · have hnext := hfits' hw
        exact ⟨hnext.1, hnext.2⟩
      · rw [hmz, fill_inRows_concat, hlen]
    · rintro ⟨rows, hlen, hwidth, hscans, hfits, hmz⟩
      obtain rfl | ⟨rows, row, rfl⟩ := List.eq_nil_or_concat' rows
      · cases hlen
      rw [List.flatten_append, List.flatten_singleton] at hscans
      obtain ⟨text₁, hrows, hrow⟩ := scans_append.mp hscans
      have hlen' : rows.length = n := by simpa using hlen
      have hwidth' : row.length = mz.w.toNat := hwidth row (by simp)
      refine ⟨(mz.fill (inRows rows), text₁), ih.mpr ⟨rows, hlen',
        fun r hr => hwidth r (by simp [hr]), hrows, fun _ hw => ?_, rfl⟩,
        readCells_eq_ok.mpr ⟨row, hwidth', hrow, fun hw => ?_, ?_⟩⟩
      · obtain ⟨hh, hw'⟩ := hfits (Nat.succ_pos n) hw
        exact ⟨by omega, hw'⟩
      · obtain ⟨hh, hw'⟩ := hfits (Nat.succ_pos n) hw
        exact ⟨hh, hw'⟩
      · rw [hmz, fill_inRows_concat, hlen']

/-! ## The whole text -/

/-- A maze of which only the first six numbers have been read. -/
def Maze.unread (w h sx sy ex ey : BitVec 32) (blk : ℤ → ℤ → BitVec 32) : Maze :=
  ⟨w.toInt, h.toInt, sx.toInt, sy.toInt, ex.toInt, ey.toInt, sx.toInt, sy.toInt, blk⟩

/-- The first part of `maze_load` reads six numbers. -/
theorem readDimensions_scans : readDimensions text blk = .ok (mz, rest) ↔
    ∃ w h sx sy ex ey, Scans text [w, h, sx, sy, ex, ey] rest ∧
      mz = .unread w h sx sy ex ey blk := by
  simp only [readDimensions, bind_eq_ok, Prod.exists, readInt_eq_ok, pure_eq_ok, scans_cons,
    scans_nil]
  constructor
  · rintro ⟨w, t₁, ⟨_, hw, rfl⟩, h, t₂, ⟨_, hh, rfl⟩, sx, t₃, ⟨_, hsx, rfl⟩, sy, t₄, ⟨_, hsy, rfl⟩,
      ex, t₅, ⟨_, hex, rfl⟩, ey, t₆, ⟨_, hey, rfl⟩, hdone⟩
    obtain ⟨rfl, rfl⟩ := Prod.mk.inj hdone
    exact ⟨w, h, sx, sy, ex, ey, ⟨_, hw, _, hh, _, hsx, _, hsy, _, hex, _, hey, rfl⟩, rfl⟩
  · rintro ⟨w, h, sx, sy, ex, ey, ⟨t₁, hw, t₂, hh, t₃, hsx, t₄, hsy, t₅, hex, t₆, hey, rfl⟩, rfl⟩
    exact ⟨w, t₁, ⟨_, hw, rfl⟩, h, t₂, ⟨_, hh, rfl⟩, sx, t₃, ⟨_, hsx, rfl⟩, sy, t₄, ⟨_, hsy, rfl⟩,
      ex, t₅, ⟨_, hex, rfl⟩, ey, _, ⟨_, hey, rfl⟩, rfl⟩

/-- The numbers of a text: six for the fields, and then `h` rows of `w` numbers. -/
structure TextOf (text : List Char) (w h sx sy ex ey : BitVec 32)
    (rows : List (List (BitVec 32))) : Prop where
  scans : ∃ rest, Scans text ([w, h, sx, sy, ex, ey] ++ rows.flatten) rest
  height : rows.length = h.toInt.toNat
  width : ∀ row ∈ rows, row.length = w.toInt.toNat
  /-- Every row and every column of the maze has a place in `blk`. -/
  fits : 0 < h.toInt → 0 < w.toInt → h.toInt ≤ mazeMaxY ∧ w.toInt ≤ mazeMaxX

/-- A text that begins with the numbers of a maze is read, -/
theorem TextOf.readMaze {w h sx sy ex ey : BitVec 32} (htext : TextOf text w h sx sy ex ey rows)
    (blk : ℤ → ℤ → BitVec 32) : readMaze text blk =
      .ok ((Maze.unread w h sx sy ex ey blk).fill (inRows rows)) := by
  obtain ⟨⟨rest, hscans⟩, hlen, hwidth, hfits⟩ := htext
  obtain ⟨text₁, hdims, hrows⟩ := scans_append.mp hscans
  simp only [Libsolver.readMaze, bind_eq_ok, Prod.exists, readDimensions_scans, readRows_eq_ok,
    pure_eq_ok]
  refine ⟨_, text₁, ⟨w, h, sx, sy, ex, ey, hdims, rfl⟩, _, rest, ⟨rows, hlen, hwidth, hrows,
    fun hh hw => ?_, rfl⟩, rfl⟩
  simp only [Maze.unread] at hh hw ⊢
  have hbounds := hfits (by omega) (by omega)
  omega

/-- and no other. -/
theorem exists_textOf (hok : readMaze text blk = .ok mz) :
    ∃ w h sx sy ex ey rows, TextOf text w h sx sy ex ey rows ∧
      mz = (Maze.unread w h sx sy ex ey blk).fill (inRows rows) := by
  simp only [readMaze, bind_eq_ok, Prod.exists, readDimensions_scans, readRows_eq_ok,
    pure_eq_ok] at hok
  obtain ⟨mz₀, text₁, ⟨w, h, sx, sy, ex, ey, hdims, rfl⟩, mz₁, rest, ⟨rows, hlen, hwidth, hrows,
    hfits, rfl⟩, rfl⟩ := hok
  refine ⟨w, h, sx, sy, ex, ey, rows, ⟨⟨rest, scans_append.mpr ⟨text₁, hdims, hrows⟩⟩, hlen, hwidth,
    fun hh hw => ?_⟩, rfl⟩
  have hpos : 0 < h.toInt.toNat ∧ 0 < w.toInt.toNat := by omega
  obtain ⟨hle, hle'⟩ := hfits hpos.1 hpos.2
  simp only [Maze.unread] at hle hle'
  omega

/-- `maze_load` reads a maze exactly from a text that begins with its numbers. -/
theorem readMaze_eq_ok_iff : readMaze text blk = .ok mz ↔
    ∃ w h sx sy ex ey rows, TextOf text w h sx sy ex ey rows ∧
      mz = (Maze.unread w h sx sy ex ey blk).fill (inRows rows) := by
  constructor
  · exact exists_textOf
  · rintro ⟨w, h, sx, sy, ex, ey, rows, htext, rfl⟩
    exact htext.readMaze blk

/-! ## Writing a maze -/

/-- Numbers with blanks in front of each, and a rest. -/
def spelled : List (List Char × ℤ) → List Char → List Char
  | [], tail => tail
  | (blanks, i) :: items, tail => blanks ++ (decimal i ++ spelled items tail)

/-- There are blanks between the numbers, and no digit follows the last one. -/
structure Spaced (items : List (List Char × ℤ)) (tail : List Char) : Prop where
  blanks : ∀ x ∈ items, ∀ c ∈ x.1, isSpace c = true
  apart : ∀ x ∈ items.tail, x.1 ≠ []
  long : ∀ x ∈ items, -2 ^ 63 ≤ x.2 ∧ x.2 < 2 ^ 63
  ends : ∀ c, tail.head? = some c → c.isDigit = false

variable {items : List (List Char × ℤ)}

/-- Numbers that are apart are scanned one after another. -/
theorem Spaced.scans (hspaced : Spaced items tail) :
    Scans (spelled items tail) (items.map fun x => BitVec.ofInt 32 x.2) tail := by
  induction items with
  | nil => exact .done
  | cons x items ih =>
    obtain ⟨blanks, i⟩ := x
    obtain ⟨hblanks, hapart, hlong, hends⟩ := hspaced
    have hafter : Spaced items tail :=
      ⟨fun x hx => hblanks x (List.mem_cons_of_mem _ hx),
        fun x hx => hapart x (List.mem_of_mem_tail hx),
        fun x hx => hlong x (List.mem_cons_of_mem _ hx), hends⟩
    have hnext : ∀ c, (spelled items tail).head? = some c → c.isDigit = false := by
      intro c hc
      cases items with
      | nil => exact hends c hc
      | cons y items =>
        obtain ⟨d, blanks', heq⟩ := List.exists_cons_of_ne_nil (hapart y List.mem_cons_self)
        have hspace := hblanks y (List.mem_cons_of_mem _ List.mem_cons_self) d (by simp [heq])
        rw [spelled, heq] at hc
        obtain rfl := Option.some.inj hc
        exact (isSpace_ends hspace).2.2.2
    obtain ⟨hlow, hhigh⟩ := hlong _ List.mem_cons_self
    exact .next (scanInt_decimal (hblanks _ List.mem_cons_self) hlow hhigh hnext) (ih hafter)

/-- A grid of numbers that fits into `blk`, with a start and an end that are pairs of `int`. -/
structure Grid where
  w : ℕ
  h : ℕ
  start : Cell
  exit : Cell
  rows : List (List ℤ)
  width_le : w ≤ mazeMaxX
  height_le : h ≤ mazeMaxY
  height : rows.length = h
  width : ∀ row ∈ rows, row.length = w
  int : ∀ i ∈ [start.1, start.2, exit.1, exit.2], -2 ^ 31 ≤ i ∧ i < 2 ^ 31

namespace Grid

/-- The numbers of a grid, in the order of its text. -/
def numbers (g : Grid) : List ℤ :=
  [(g.w : ℤ), (g.h : ℤ), g.start.1, g.start.2, g.exit.1, g.exit.2] ++ g.rows.flatten

/-- The maze has the fields of the grid, and its numbers shifted by 20 in the cells. -/
structure Describes (g : Grid) (mz : Maze) : Prop where
  size : mz.w = g.w ∧ mz.h = g.h
  start : mz.start = g.start
  exit : mz.exit = g.exit
  current : (mz.cx, mz.cy) = g.start
  cell : ∀ (y x : ℕ) (row : List ℤ) (i : ℤ), g.rows[y]? = some row → row[x]? = some i →
    mz.blk y x = BitVec.ofInt 32 i <<< 20

/-- `int` as it is read. -/
theorem toInt_ofInt {i : ℤ} (hlow : -2 ^ 31 ≤ i) (hhigh : i < 2 ^ 31) :
    (BitVec.ofInt 32 i).toInt = i := by
  rw [BitVec.toInt_ofInt]
  exact Int.bmod_eq_of_le (by omega) (by omega)

/-- The sides of a grid fit into an `int`: its width -/
theorem toInt_w (g : Grid) : (BitVec.ofInt 32 g.w).toInt = g.w := by
  have hle : g.w ≤ 101 := g.width_le
  exact toInt_ofInt (by omega) (by omega)

/-- and its height. -/
theorem toInt_h (g : Grid) : (BitVec.ofInt 32 g.h).toInt = g.h := by
  have hle : g.h ≤ 101 := g.height_le
  exact toInt_ofInt (by omega) (by omega)

/-- The text of a grid has its numbers, whatever blanks there are and whatever follows. -/
theorem textOf (g : Grid) (hspaced : Spaced items tail)
    (hitems : items.map Prod.snd = g.numbers) :
    TextOf (spelled items tail) (.ofInt 32 g.w) (.ofInt 32 g.h) (.ofInt 32 g.start.1)
      (.ofInt 32 g.start.2) (.ofInt 32 g.exit.1) (.ofInt 32 g.exit.2)
      (g.rows.map (List.map (BitVec.ofInt 32))) := by
  have hmap : items.map (fun x => BitVec.ofInt 32 x.2) = g.numbers.map (BitVec.ofInt 32) := by
    rw [← hitems, List.map_map]
    rfl
  have hscans := hspaced.scans
  rw [hmap, numbers, List.map_append, List.map_flatten] at hscans
  refine ⟨⟨tail, hscans⟩, ?_, fun row hrow => ?_, fun _ _ => ?_⟩
  · rw [List.length_map, g.toInt_h, Int.toNat_natCast, g.height]
  · obtain ⟨row, hmem, rfl⟩ := List.mem_map.mp hrow
    rw [List.length_map, g.toInt_w, Int.toNat_natCast, g.width row hmem]
  · rw [g.toInt_h, g.toInt_w]
    exact ⟨by exact_mod_cast g.height_le, by exact_mod_cast g.width_le⟩

/-- A grid is read back from its text. -/
theorem readMaze_spelled (g : Grid) (hspaced : Spaced items tail)
    (hitems : items.map Prod.snd = g.numbers) (blk : ℤ → ℤ → BitVec 32) :
    ∃ mz, readMaze (spelled items tail) blk = .ok mz ∧ g.Describes mz := by
  have hint : ∀ i ∈ [g.start.1, g.start.2, g.exit.1, g.exit.2], (BitVec.ofInt 32 i).toInt = i :=
    fun i hi => toInt_ofInt (g.int i hi).1 (g.int i hi).2
  simp only [List.forall_mem_cons] at hint
  obtain ⟨hsx, hsy, hex, hey, -⟩ := hint
  refine ⟨_, (g.textOf hspaced hitems).readMaze blk, ⟨g.toInt_w, g.toInt_h⟩,
    Prod.ext hsx hsy, Prod.ext hex hey, Prod.ext hsx hsy, fun y x row i hrow hi => ?_⟩
  simp [Maze.fill, inRows, hrow, hi]

/-- Two open cells side by side. -/
def twoCells : Grid where
  w := 4
  h := 3
  start := (1, 1)
  exit := (2, 1)
  rows := [[1, 1, 1, 1], [1, 0, 0, 1], [1, 1, 1, 1]]
  width_le := by decide
  height_le := by decide
  height := rfl
  width := by decide
  int := by decide

/-- Its numbers with a blank in front of each. -/
def twoCellsItems : List (List Char × ℤ) := twoCells.numbers.map fun i => ([' '], i)

/-- The sample numbers are spaced so that they can be told apart, -/
theorem spaced_twoCellsItems : Spaced twoCellsItems ['\n'] := by
  refine ⟨?_, ?_, ?_, by simp⟩
  · simp [twoCellsItems, isSpace]
  · intro x hx
    obtain ⟨i, -, rfl⟩ := List.mem_map.mp (List.mem_of_mem_tail hx)
    simp
  · simp [twoCellsItems, twoCells, numbers]

/-- they are the numbers of the sample grid, -/
theorem numbers_twoCellsItems : twoCellsItems.map Prod.snd = twoCells.numbers := by
  simp [twoCellsItems, Function.comp_def]

/-- and they are read back as the sample grid. -/
theorem readMaze_spelled_twoCells :
    ∃ mz, readMaze (spelled twoCellsItems ['\n']) (fun _ _ => 0) = .ok mz ∧
      twoCells.Describes mz :=
  readMaze_spelled twoCells spaced_twoCellsItems numbers_twoCellsItems _

end Grid

end UnixProgramming.Libsolver
