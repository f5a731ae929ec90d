import UnixProgramming.Lib.TreeGrowth
import UnixProgramming.Mazemod.Generate

/-!
# Carving a maze

The purpose of `dfs`, stated on sets of open cells: rooms are the cells with two
odd coordinates, passages lie between two rooms, and opening a closed room next
to an open one together with the passage between them keeps the open cells a
tree. The grid and the shuffled order of the directions play no part here.
-/

namespace UnixProgramming.Mazemod

/-- A row and a column number. -/
abbrev Cell := ℤ × ℤ

/-- Cells that share a side. -/
def gridGraph : SimpleGraph Cell where
  Adj p q := (p.1 = q.1 ∧ (p.2 = q.2 + 1 ∨ q.2 = p.2 + 1)) ∨
    (p.2 = q.2 ∧ (p.1 = q.1 + 1 ∨ q.1 = p.1 + 1))
  symm := ⟨fun p q h => by omega⟩
  loopless := ⟨fun p h => by omega⟩

/-- The neighbour of a cell in a direction. -/
def passage (p : Cell) (dir : Fin 4) : Cell := (p.1 + dirX dir, p.2 + dirY dir)

/-- The room two cells away in a direction. -/
def nextRoom (p : Cell) (dir : Fin 4) : Cell := (p.1 + dirX dir * 2, p.2 + dirY dir * 2)

/-- Both coordinates are odd. -/
def IsRoom (p : Cell) : Prop := p.1 % 2 = 1 ∧ p.2 % 2 = 1

/-- The cell is not on the border of the maze, nor outside it. -/
def Interior (coord : Coord) (p : Cell) : Prop :=
  1 ≤ p.1 ∧ p.1 < coord.y - 1 ∧ 1 ≤ p.2 ∧ p.2 < coord.x - 1

/-- A direction changes one coordinate by one. -/
theorem dir_cases (dir : Fin 4) :
    (dirX dir = -1 ∧ dirY dir = 0) ∨ (dirX dir = 1 ∧ dirY dir = 0) ∨
      (dirX dir = 0 ∧ dirY dir = -1) ∨ (dirX dir = 0 ∧ dirY dir = 1) := by
  fin_cases dir <;> simp [dirX, dirY]

/-- A room shares no side with another room. -/
theorem IsRoom.not_adj {p q : Cell} (hp : IsRoom p) (hq : IsRoom q) : ¬gridGraph.Adj p q := by
  obtain ⟨hp1, hp2⟩ := hp
  obtain ⟨hq1, hq2⟩ := hq
  simp only [gridGraph]
  omega

/-- The next room in a direction is a room. -/
theorem IsRoom.nextRoom {p : Cell} (hp : IsRoom p) (dir : Fin 4) : IsRoom (nextRoom p dir) := by
  obtain ⟨hp1, hp2⟩ := hp
  simp only [IsRoom, Mazemod.nextRoom]
  omega

/-- A passage touches the room it starts from. -/
theorem adj_passage (p : Cell) (dir : Fin 4) : gridGraph.Adj p (passage p dir) := by
  have := dir_cases dir
  simp only [gridGraph, passage]
  omega

/-- A passage touches the room it leads to. -/
theorem passage_adj_nextRoom (p : Cell) (dir : Fin 4) :
    gridGraph.Adj (passage p dir) (nextRoom p dir) := by
  have := dir_cases dir
  simp only [gridGraph, passage, nextRoom]
  omega

/-- Besides its two rooms a passage only touches cells that differ from the rooms in
the parity of both coordinates. -/
theorem adj_passage_cases {p q : Cell} {dir : Fin 4} (hadj : gridGraph.Adj q (passage p dir)) :
    q = p ∨ q = nextRoom p dir ∨ (q.1 % 2 ≠ p.1 % 2 ∧ q.2 % 2 ≠ p.2 % 2) := by
  simp only [gridGraph, passage, nextRoom, Prod.ext_iff] at hadj ⊢
  -- one direction at a time
  obtain ⟨hx, hy⟩ | ⟨hx, hy⟩ | ⟨hx, hy⟩ | ⟨hx, hy⟩ := dir_cases dir <;>
    rw [hx, hy] at hadj ⊢ <;> omega

/-- A passage between interior rooms is interior. -/
theorem Interior.passage {coord : Coord} {p : Cell} {dir : Fin 4} (hp : Interior coord p)
    (hnext : Interior coord (nextRoom p dir)) : Interior coord (passage p dir) := by
  have := dir_cases dir
  simp only [Interior, nextRoom, Mazemod.passage] at hp hnext ⊢
  omega

/-- A passage keeps one odd coordinate of its room. -/
theorem IsRoom.passage_odd {p : Cell} (hp : IsRoom p) (dir : Fin 4) :
    (passage p dir).1 % 2 = 1 ∨ (passage p dir).2 % 2 = 1 := by
  obtain ⟨hp1, hp2⟩ := hp
  have := dir_cases dir
  simp only [passage]
  omega

/-- What holds of the open cells while the maze is carved: they form a tree in the
interior, none has two even coordinates, and an open passage has open rooms at
both ends. -/
structure Carved (coord : Coord) (root : Cell) (S : Set Cell) : Prop where
  tree : SpansTree gridGraph root S
  interior : ∀ p ∈ S, Interior coord p
  odd : ∀ p ∈ S, p.1 % 2 = 1 ∨ p.2 % 2 = 1
  ends : ∀ p ∈ S, ∀ q, IsRoom q → gridGraph.Adj p q → q ∈ S

/-- A single open room is carved. -/
theorem Carved.singleton {coord : Coord} {root : Cell} (hroom : IsRoom root)
    (hinterior : Interior coord root) : Carved coord root {root} where
  tree := .singleton gridGraph root
  interior := by
    rintro p rfl
    exact hinterior
  odd := by
    rintro p rfl
    exact Or.inl hroom.1
  ends := by
    rintro p rfl q hq hadj
    exact absurd hadj (hroom.not_adj hq)

variable {coord : Coord} {root p : Cell} {S : Set Cell} {dir : Fin 4}

/-- The passage to a closed room is closed. -/
theorem Carved.passage_notMem (hcarved : Carved coord root S) (hroom : IsRoom p)
    (hclosed : nextRoom p dir ∉ S) : passage p dir ∉ S := fun hmem =>
  hclosed (hcarved.ends _ hmem _ (hroom.nextRoom dir) (passage_adj_nextRoom p dir))

/-- Opening a closed room and the passage to it from an open room keeps the cells carved. -/
theorem Carved.open_nextRoom (hcarved : Carved coord root S) (hp : p ∈ S) (hroom : IsRoom p)
    (hinterior : Interior coord (nextRoom p dir)) (hclosed : nextRoom p dir ∉ S) :
    Carved coord root (insert (nextRoom p dir) (insert (passage p dir) S)) := by
  have hnext := hroom.nextRoom dir
  have hpassage := hcarved.passage_notMem hroom hclosed
  -- the open room is the only open neighbour of the passage
  have htree : SpansTree gridGraph root (insert (passage p dir) S) := by
    refine hcarved.tree.insert_leaf hp hpassage (adj_passage p dir) fun q hq hadj => ?_
    rcases adj_passage_cases hadj with rfl | rfl | hparity
    · rfl
    · exact absurd hq hclosed
    · have := hcarved.odd q hq
      obtain ⟨hp1, hp2⟩ := hroom
      omega
  -- the passage is the only open neighbour of the new room
  have hfresh : nextRoom p dir ∉ insert (passage p dir) S := by
    rintro (heq | hmem)
    · exact (passage_adj_nextRoom p dir).ne heq.symm
    · exact hclosed hmem
  refine ⟨?_, ?_, ?_, ?_⟩
  · refine htree.insert_leaf (Or.inl rfl) hfresh (passage_adj_nextRoom p dir) ?_
    rintro q (rfl | hq) hadj
    · rfl
    · exact absurd (hcarved.ends q hq _ hnext hadj) hclosed
  · rintro q (rfl | rfl | hq)
    · exact hinterior
    · exact (hcarved.interior p hp).passage hinterior
    · exact hcarved.interior q hq
  · rintro q (rfl | rfl | hq)
    · exact Or.inl hnext.1
    · exact hroom.passage_odd dir
    · exact hcarved.odd q hq
  · rintro q (rfl | rfl | hq) r hr hadj
    · exact absurd hadj (hnext.not_adj hr)
    · rcases adj_passage_cases hadj.symm with rfl | rfl | hparity
      · exact Or.inr (Or.inr hp)
      · exact Or.inl rfl
      · obtain ⟨hp1, hp2⟩ := hroom
        obtain ⟨hr1, hr2⟩ := hr
        omega
    · exact Or.inr (Or.inr (hcarved.ends q hq r hr hadj))

/-- The number of steps between two cells. -/
def distance (p q : Cell) : ℕ := (q.1 - p.1).natAbs + (q.2 - p.2).natAbs

/-- An interior room other than `p` is the next room of an interior room closer to `p`. -/
theorem exists_closer {q : Cell} (hp : IsRoom p) (hpin : Interior coord p) (hq : IsRoom q)
    (hqin : Interior coord q) (hne : q ≠ p) :
    ∃ r dir, IsRoom r ∧ Interior coord r ∧ nextRoom r dir = q ∧ distance p r < distance p q := by
  obtain ⟨pr, pc⟩ := p
  obtain ⟨qr, qc⟩ := q
  simp only [IsRoom, Interior, ne_eq, Prod.mk.injEq, nextRoom, distance] at hp hpin hq hqin hne ⊢
  rcases lt_trichotomy qr pr with hrow | hrow | hrow
  · exact ⟨(qr + 2, qc), 0, by simp [dirX, dirY]; omega⟩
  · rcases lt_or_gt_of_ne (fun heq => hne ⟨hrow, heq⟩ : qc ≠ pc) with hcol | hcol
    · exact ⟨(qr, qc + 2), 2, by simp [dirX, dirY]; omega⟩
    · exact ⟨(qr, qc - 2), 3, by simp [dirX, dirY]; omega⟩
  · exact ⟨(qr - 2, qc), 1, by simp [dirX, dirY]; omega⟩

/-- All interior rooms are open when one is and no open room has a closed
neighbouring room. The induction is on the distance to the open room. -/
theorem mem_of_closed {q : Cell}
    (hclosed : ∀ p ∈ S, IsRoom p → ∀ dir, Interior coord (nextRoom p dir) → nextRoom p dir ∈ S)
    (hp : p ∈ S) (hroom : IsRoom p) (hin : Interior coord p) (hq : IsRoom q)
    (hqin : Interior coord q) : q ∈ S := by
  induction hn : distance p q using Nat.strong_induction_on generalizing q with
  | _ n ih =>
    by_cases heq : q = p
    · exact heq ▸ hp
    obtain ⟨r, dir, hr, hrin, rfl, hcloser⟩ := exists_closer hroom hin hq hqin heq
    exact hclosed r (ih _ (hn ▸ hcloser) hr hrin rfl) hr dir hqin

end UnixProgramming.Mazemod
