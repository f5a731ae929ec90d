import UnixProgramming.Libsolver.Search

/-!
# When the solver wins

The directions that `dfs` records lead to the end when `main` makes its moves. They fit
into the 1200 slots, on the way as well as at the end, exactly when the depth-first search
meets no path that is longer; the depth-first path is not the shortest one, so that a
large room is enough to overrun the slots.
-/

namespace UnixProgramming.Libsolver

/-- A unit step to an open cell. -/
def Maze.Step (mz : Maze) (p q : Cell) : Prop :=
  mz.Open q ∧ ∃ d : Direction, q = (p.1 + d.dirx, p.2 + d.diry)

/-- At most `n` unit steps lead from one cell to another. -/
def Maze.Within (mz : Maze) : ℕ → Cell → Cell → Prop
  | 0, p, q => p = q
  | n + 1, p, q => p = q ∨ ∃ r, mz.Step p r ∧ mz.Within n r q

/-- A maze as `maze_load` reads it, which stores the numbers of the file shifted by 20, that
fits into `blk`, has walls all around, and starts and ends at two open cells. -/
structure Enclosed (mz : Maze) : Prop where
  width : mz.w ≤ 101
  height : mz.h ≤ 101
  read : ∀ p ∈ mz.cells, ∃ k : BitVec 32, mz.blk p.2 p.1 = k <<< 20
  current : mz.cx = mz.sx ∧ mz.cy = mz.sy
  border : ∀ p ∈ mz.cells, p.1 = 0 ∨ p.1 = mz.w - 1 ∨ p.2 = 0 ∨ p.2 = mz.h - 1 →
    mz.blk p.2 p.1 ≠ 0
  start_open : mz.Open mz.start
  exit_open : mz.Open mz.exit
  distinct : mz.start ≠ mz.exit

/-- No index is out of bounds, and `main` reaches the end of the maze. -/
def Wins (gotEntriesToMoveN slotOf : ℕ → Addr) (got : Addr → Routine) (rand : ℕ → Direction)
    (mz : Maze) : Prop :=
  ∃ mz' got', solve gotEntriesToMoveN got mz = .ok (mz', got') ∧
    ∃ mz'', makeMoves got' slotOf rand moveNumbers mz' = .bingo mz'' ∧
      (mz''.cx, mz''.cy) = mz.exit

variable {mz mz' : Maze} {A : Set Cell} {p q : Cell} {s : Solver} {es : List Direction}
variable {gotEntriesToMoveN slotOf : ℕ → Addr} {got got' : Addr → Routine}
variable {rand : ℕ → Direction} {d : Direction} {k m n : ℕ}

/-! ## Mazes with walls all around -/

/-- A number that is read is not the mark. -/
theorem shifted_ne_two (k : BitVec 32) : k <<< 20 ≠ 2 := by
  intro htwo
  have hbit := congrArg (BitVec.getLsbD · 1) htwo
  simp at hbit

theorem Enclosed.blk_ne_two (henclosed : Enclosed mz) (hp : p ∈ mz.cells) :
    mz.blk p.2 p.1 ≠ 2 := by
  obtain ⟨k, hk⟩ := henclosed.read p hp
  exact hk ▸ shifted_ne_two k

/-- In such a maze the valid cells are the open ones. -/
theorem Enclosed.isValid_iff (henclosed : Enclosed mz) :
    isValid mz p.1 p.2 = true ↔ mz.Open p := by
  refine ⟨open_of_isValid, fun ⟨hp, hopen⟩ => ?_⟩
  have hinner := mt (henclosed.border p hp) (not_not.mpr hopen)
  obtain ⟨hx, hxw, hy, hyh⟩ := hp
  refine Libsolver.isValid_iff.mpr ⟨?_, ?_, ?_, ?_, hopen⟩ <;> omega

/-- The search can reach what unit steps can. -/
theorem Enclosed.reaches (henclosed : Enclosed mz) (hwithin : mz.Within n p q) :
    Relation.ReflTransGen (fun a b => ∃ d, mz.next a d = some b) p q := by
  induction n generalizing p with
  | zero =>
    obtain rfl : p = q := hwithin
    exact .refl
  | succ n ih =>
    obtain rfl | ⟨r, ⟨hopen, d, hr⟩, hrest⟩ := hwithin
    · exact .refl
    · exact .head ⟨d, next_eq_some.mpr ⟨henclosed.isValid_iff.mpr hopen, hr⟩⟩ (ih hrest)

/-! ## The moves -/

/-- `check_path` fills the slots of the recorded directions, if there are so many and these
are different. The induction is on their number. -/
theorem checkPath_eq_ok (hle : s.maxDepth ≤ maxMoves) :
    ∃ got', checkPath s gotEntriesToMoveN got = .ok got' ∧
      (Set.InjOn gotEntriesToMoveN (Set.Icc 1 maxMoves) →
        ∀ i < s.maxDepth, ∀ d, s.moveDirections i = some d →
          got' (gotEntriesToMoveN (i + 1)) = .direction d) := by
  unfold checkPath
  generalize s.maxDepth = n at hle
  induction n with
  | zero => exact ⟨got, rfl, fun _ i hi => absurd hi (Nat.not_lt_zero i)⟩
  | succ n ih =>
    obtain ⟨got', hloop, hfilled⟩ := ih (by omega)
    have hpass : ∃ got'', patchSlot s gotEntriesToMoveN got' n = .ok got'' ∧
        (Set.InjOn gotEntriesToMoveN (Set.Icc 1 maxMoves) →
          ∀ i < n + 1, ∀ d, s.moveDirections i = some d →
            got'' (gotEntriesToMoveN (i + 1)) = .direction d) := by
      rw [patchSlot, if_neg (by omega), if_neg (by omega)]
      refine ⟨_, rfl, fun hinj i hi d hd => ?_⟩
      by_cases hin : i = n
      · rw [hin, Function.update_self, ← hin, hd]
      · have hne : gotEntriesToMoveN (i + 1) ≠ gotEntriesToMoveN (n + 1) := by
          intro heq
          have hidx := hinj (Set.mem_Icc.mpr (by omega)) (Set.mem_Icc.mpr (by omega)) heq
          omega
        rw [Function.update_of_ne hne]
        exact hfilled hinj i (by omega) d hd
    obtain ⟨got'', hpatched, hfilled'⟩ := hpass
    refine ⟨got'', ?_, hfilled'⟩
    rw [List.range_succ, List.foldlM_append, hloop]
    exact foldlM_cons_eq_ok.mpr ⟨got'', hpatched, rfl⟩

/-- A move to a valid cell succeeds. -/
theorem moveDir_of_next (hnext : mz.next p d = some q) :
    moveDir { mz with cx := p.1, cy := p.2 } d =
      ({ mz with cx := q.1, cy := q.2 }, decide (q = mz.exit)) := by
  obtain ⟨hvalid, hq⟩ := next_eq_some.mp hnext
  have hopen := (open_of_isValid hvalid).2
  have hx : p.1 + d.dirx = q.1 := by rw [hq]
  have hy : p.2 + d.diry = q.2 := by rw [hq]
  simp only [moveDir, hx, hy, hopen, ne_eq, not_true, if_false, Prod.ext_iff, Maze.exit]

/-- Moves along a path end at its last cell. The induction is on the path. -/
theorem makeMoves_eq_bingo (hpath : SimplePath mz.next A p es mz.exit) (hne : p ≠ mz.exit)
    (hslots : ∀ i d, es[i]? = some d → got (slotOf (k + i)) = .direction d)
    (hle : es.length ≤ m) :
    ∃ mz',
      makeMoves got slotOf rand (List.range' k m) { mz with cx := p.1, cy := p.2 } = .bingo mz' ∧
        (mz'.cx, mz'.cy) = mz.exit := by
  induction es generalizing A p k m with
  | nil =>
    cases hpath
    exact absurd rfl hne
  | cons d es ih =>
    obtain ⟨m, rfl⟩ : ∃ n, m = n + 1 := ⟨m - 1, by simp at hle; omega⟩
    cases hpath with
    | @cons _ _ q _ _ _ _ hnext hrest =>
    have hslot : got (slotOf k) = .direction d := hslots 0 d rfl
    rw [List.range'_succ, makeMoves, hslot]
    simp only [moveDir_of_next hnext, decide_eq_true_eq]
    split
    · next hreached => exact ⟨_, rfl, hreached⟩
    · next hreached =>
      refine ih hrest hreached (fun i d' hd' => ?_) (by simpa using hle)
      have hidx : k + 1 + i = k + (i + 1) := by omega
      rw [hidx]
      exact hslots (i + 1) d' hd'

/-! ## The condition -/

/-- What the call of `dfs` in `maze_load` does, from an open start. -/
theorem solve_outcome (hopen : mz.Open mz.start) :
    Outcome mz (some maxMoves) ∅ mz.start 0 ⟨mz, fun _ => none, 0⟩
      (Searched mz.next mz.exit ∅ mz.start) (Exhausted mz.next ∅ mz.start)
      (dfs (some maxMoves) (mz.w.toNat * mz.h.toNat + 1) ⟨mz, fun _ => none, 0⟩ mz.sx mz.sy 0) :=
  dfs_outcome (.refl mz) hopen (Set.notMem_empty _) (Set.notMem_empty _)
    (fun _ _ => Nat.zero_le _) (Nat.lt_succ_of_le (cellsLeft_le mz ∅))

/-- While no index is out of bounds, the paths of the search have at most 1200 steps. -/
theorem length_le_of_solve (hopen : mz.Open mz.start) {r : Maze × (Addr → Routine)}
    (hok : solve gotEntriesToMoveN got mz = .ok r)
    (hsearched : Searched mz.next mz.exit ∅ mz.start es) : es.length ≤ maxMoves := by
  obtain ⟨x, hdfs, _⟩ := bind_eq_ok.mp hok
  have ho := solve_outcome hopen
  rw [hdfs] at ho
  cases ho with
  | found hshort | exhausted hshort => simpa using hshort es hsearched

/-- Paths of at most 1200 steps bring `main` to the end. -/
theorem Enclosed.wins (henclosed : Enclosed mz)
    (hreach : Relation.ReflTransGen (fun a b => ∃ d, mz.next a d = some b) mz.start mz.exit)
    (hslots : ∀ n ∈ Set.Icc 1 maxMoves, gotEntriesToMoveN n = slotOf n)
    (hinj : Set.InjOn slotOf (Set.Icc 1 maxMoves))
    (hshort : ∀ ds, Searched mz.next mz.exit ∅ mz.start ds → ds.length ≤ maxMoves) :
    Wins gotEntriesToMoveN slotOf got rand mz := by
  have ho := solve_outcome henclosed.start_open
  generalize hdfs : dfs _ _ _ _ _ _ = r at ho
  cases ho with
  | @overrun ds hsearched hlong =>
    exact absurd (hshort ds hsearched) (by simpa using hlong)
  | @exhausted s' M _ hdone hexit =>
    exact absurd (hdone.mem_of_reaches hreach) hexit
  | @found s' es M _ hpath hes hrec hdepth _ hmarked =>
    rw [Nat.zero_add] at hdepth
    have hle : es.length ≤ maxMoves := by simpa using hes
    have hinj' : Set.InjOn gotEntriesToMoveN (Set.Icc 1 maxMoves) :=
      hinj.congr fun n hn => (hslots n hn).symm
    obtain ⟨got', hpatched, hfilled⟩ :=
      checkPath_eq_ok (s := { s' with mz := s'.mz.unmark }) (hdepth ▸ hle)
    have hsolve : solve gotEntriesToMoveN got mz = .ok (mz, got') := by
      refine bind_eq_ok.mpr ⟨_, hdfs, bind_eq_ok.mpr ⟨got', hpatched, ?_⟩⟩
      rw [hmarked.unmark fun p hp => henclosed.blk_ne_two hp]
      rfl
    have hcur : { mz with cx := mz.start.1, cy := mz.start.2 } = mz := by
      obtain ⟨hx, hy⟩ := henclosed.current
      cases mz
      simp_all [Maze.start]
    have hslot : ∀ i d, es[i]? = some d → got' (slotOf (1 + i)) = .direction d := by
      intro i d hd
      have hi : i < es.length := (List.getElem?_eq_some_iff.mp hd).1
      have hrec' := hrec i hi
      rw [Nat.zero_add, hd] at hrec'
      rw [Nat.add_comm, ← hslots _ (Set.mem_Icc.mpr (by omega))]
      exact hfilled hinj' i (hdepth ▸ hi) d hrec'
    refine ⟨mz, got', hsolve, ?_⟩
    rw [← hcur]
    exact makeMoves_eq_bingo hpath henclosed.distinct hslot hle

/-- For every maze with walls all around whose end can be reached: no index is out of bounds
and `main` reaches the end, exactly when the paths of the depth-first search have at most
1200 steps, whatever the routines called by chance would do. -/
theorem wins_iff (mz : Maze) (henclosed : Enclosed mz) (hwithin : mz.Within n mz.start mz.exit)
    (hslots : ∀ n ∈ Set.Icc 1 maxMoves, gotEntriesToMoveN n = slotOf n)
    (hinj : Set.InjOn slotOf (Set.Icc 1 maxMoves)) :
    Wins gotEntriesToMoveN slotOf got rand mz ↔
      ∀ ds, Searched mz.next mz.exit ∅ mz.start ds → ds.length ≤ maxMoves := by
  constructor
  · rintro ⟨mz', got', hok, _⟩ ds hsearched
    exact length_le_of_solve henclosed.start_open hok hsearched
  · exact henclosed.wins (henclosed.reaches hwithin) hslots hinj

/-- A simple path has no more steps than there are cells left. -/
theorem length_lt_cellsLeft (hpath : SimplePath mz.next A p es q) (hp : p ∈ mz.cells) :
    es.length < cellsLeft mz A := by
  induction hpath with
  | @nil A p hfresh =>
    exact (Nat.zero_le _).trans_lt (cellsLeft_lt hp hfresh (Set.subset_univ _))
  | @cons A p r q d es hfresh hnext _ ih =>
    have hshorter := ih (open_of_isValid (next_eq_some.mp hnext).1).1
    have hlt := cellsLeft_lt hp hfresh subset_rfl
    rw [List.length_cons]
    omega

/-! ## Rooms without inner walls -/

/-- A room without inner walls. -/
def emptyRoom (w h sx sy ex ey : ℤ) : Maze where
  w := w
  h := h
  sx := sx
  sy := sy
  ex := ex
  ey := ey
  cx := sx
  cy := sy
  blk y x := if 0 < x ∧ x < w - 1 ∧ 0 < y ∧ y < h - 1 then 0 else 1 <<< 20

variable {w h sx sy ex ey x y : ℤ}

theorem emptyRoom_isValid : isValid (emptyRoom w h sx sy ex ey) x y = true ↔
    0 < x ∧ x < w - 1 ∧ 0 < y ∧ y < h - 1 := by
  rw [isValid_iff]
  simp only [emptyRoom]
  split
  · next hinner =>
    refine iff_of_true ⟨?_, ?_, ?_, ?_, rfl⟩ hinner <;> omega
  · next hwall =>
    refine iff_of_false ?_ hwall
    rintro ⟨_, _, _, _, hopen⟩
    exact absurd hopen (by decide)

theorem emptyRoom_enclosed (hw : w ≤ 101) (hh : h ≤ 101)
    (hs : 0 < sx ∧ sx < w - 1 ∧ 0 < sy ∧ sy < h - 1)
    (he : 0 < ex ∧ ex < w - 1 ∧ 0 < ey ∧ ey < h - 1) (hne : (sx, sy) ≠ (ex, ey)) :
    Enclosed (emptyRoom w h sx sy ex ey) where
  width := hw
  height := hh
  read p _ := by
    simp only [emptyRoom]
    split
    · exact ⟨0, rfl⟩
    · exact ⟨1, rfl⟩
  current := ⟨rfl, rfl⟩
  border p _ hborder := by
    simp only [emptyRoom] at hborder ⊢
    rw [if_neg (by omega)]
    decide
  start_open := open_of_isValid (emptyRoom_isValid.mpr hs)
  exit_open := open_of_isValid (emptyRoom_isValid.mpr he)
  distinct := hne

theorem ofNat_injOn : Set.InjOn (BitVec.ofNat 64) (Set.Icc 1 maxMoves) := by
  intro i hi j hj heq
  have hnat := congrArg BitVec.toNat heq
  simp only [Set.mem_Icc, maxMoves] at hi hj
  simp only [BitVec.toNat_ofNat] at hnat
  omega

/-- A room with two cells side by side. -/
theorem wins_iff_two_cells : Wins (BitVec.ofNat 64) (BitVec.ofNat 64) (fun _ => .null)
    (fun _ => .up) (emptyRoom 4 3 1 1 2 1) := by
  have henclosed : Enclosed (emptyRoom 4 3 1 1 2 1) :=
    emptyRoom_enclosed (by decide) (by decide) (by decide) (by decide) (by decide)
  have hwithin : (emptyRoom 4 3 1 1 2 1).Within 1 (1, 1) (2, 1) :=
    .inr ⟨(2, 1), ⟨henclosed.exit_open, .right, rfl⟩, rfl⟩
  refine (wins_iff _ henclosed hwithin (fun _ _ => rfl) ofNat_injOn).mpr ?_
  rintro ds ⟨⟨u, hpath, _⟩, _⟩
  have hlt := length_lt_cellsLeft hpath henclosed.start_open.1
  have hle := cellsLeft_le (emptyRoom 4 3 1 1 2 1) ∅
  have hcells : (emptyRoom 4 3 1 1 2 1).w.toNat * (emptyRoom 4 3 1 1 2 1).h.toNat ≤ maxMoves := by
    decide
  omega

/-- The cells of a path through a room of 99 rows, up and down its columns from the bottom
right corner on. -/
def snake (r : ℕ) : Cell :=
  (99 - (r / 99 : ℕ), if r / 99 % 2 = 0 then 99 - (r % 99 : ℕ) else 1 + (r % 99 : ℕ))

/-- The direction of its next step. -/
def snakeTurn (r : ℕ) : Direction :=
  if r % 99 = 98 then .left else if r / 99 % 2 = 0 then .up else .down

theorem snake_injective {r r' : ℕ} (heq : snake r = snake r') : r = r' := by
  obtain ⟨hx, hy⟩ := Prod.ext_iff.mp heq
  simp only [snake] at hx hy
  have hcol : r / 99 = r' / 99 := by omega
  rw [hcol] at hy
  split at hy <;> omega

/-- The large room, from the bottom right corner to the bottom left one. -/
abbrev largeRoom : Maze := emptyRoom 101 101 99 99 1 99

/-- The first columns of the path are in the room. -/
theorem snake_next {r : ℕ} (hr : r < 1201) :
    largeRoom.next (snake r) (snakeTurn r) = some (snake (r + 1)) := by
  rw [next_eq_some, emptyRoom_isValid]
  simp only [snake, snakeTurn, Prod.ext_iff]
  split <;> split <;> split <;> simp only [Direction.dirx, Direction.diry] <;> omega

/-- A direction that is tried earlier leads back or to a wall. -/
theorem snake_smaller {r : ℕ} {d : Direction} (hd : d < snakeTurn r)
    (hnext : largeRoom.next (snake r) d = some q) : ∃ r' < r, q = snake r' := by
  obtain ⟨hvalid, hq⟩ := next_eq_some.mp hnext
  rw [emptyRoom_isValid] at hvalid
  rw [Prod.ext_iff] at hq
  refine ⟨r - 1, ?_⟩
  rw [Prod.ext_iff]
  simp only [snake, snakeTurn] at hd hq ⊢
  by_cases heven : r / 99 % 2 = 0
  · rw [if_pos heven] at hq
    by_cases hcorner : r % 99 = 98
    · -- at the top of a column the only other way is back down
      have hprev : (r - 1) / 99 % 2 = 0 := by omega
      rw [if_pos hcorner] at hd
      rw [if_pos hprev]
      cases d with
      | up | down =>
        simp only [Direction.dirx, Direction.diry] at hq
        omega
      | left | right => exact absurd hd (by decide)
    · rw [if_neg hcorner, if_pos heven] at hd
      exact absurd hd (by cases d <;> decide)
  · rw [if_neg heven] at hq
    by_cases hcorner : r % 99 = 98
    · have hprev : ¬(r - 1) / 99 % 2 = 0 := by omega
      rw [if_pos hcorner] at hd
      rw [if_neg hprev]
      cases d with
      | up | down =>
        simp only [Direction.dirx, Direction.diry] at hq
        omega
      | left | right => exact absurd hd (by decide)
    · rw [if_neg hcorner, if_neg heven] at hd
      cases d with
      | up =>
        -- in the first row of a column this is a wall
        simp only [Direction.dirx, Direction.diry] at hq
        have hprev : ¬(r - 1) / 99 % 2 = 0 := by omega
        rw [if_neg hprev]
        omega
      | down | left | right => exact absurd hd (by decide)

/-- The search goes along the path, as far as the 1200 steps and one more. The induction is
on the steps that are left. -/
theorem snake_greedy {n r : ℕ} (hle : r + n ≤ 1201) : ∃ ds : List Direction, ds.length = n ∧
    Greedy largeRoom.next largeRoom.exit {p | ∃ r' < r, p = snake r'} (snake r) ds := by
  have hfresh : ∀ r, snake r ∉ {p | ∃ r' < r, p = snake r'} := by
    rintro r ⟨r', hlt, heq⟩
    exact hlt.ne (snake_injective heq).symm
  induction n generalizing r with
  | zero => exact ⟨[], rfl, .nil (hfresh r)⟩
  | succ n ih =>
    obtain ⟨ds, hlen, hgreedy⟩ := ih (show r + 1 + n ≤ 1201 by omega)
    have hvisited : insert (snake r) {p | ∃ r' < r, p = snake r'} =
        {p | ∃ r' < r + 1, p = snake r'} := by
      ext p
      simp only [Set.mem_insert_iff, Set.mem_ofPred_eq, Nat.lt_succ_iff_lt_or_eq]
      aesop
    have hne : snake r ≠ largeRoom.exit := by
      intro heq
      have hx := congrArg Prod.fst heq
      simp only [snake, emptyRoom, Maze.exit] at hx
      omega
    refine ⟨snakeTurn r :: ds, by rw [List.length_cons, hlen], ?_⟩
    refine .cons (hfresh r) hne (snake_next (by omega)) (fun d hd q hnext => ?_)
      (hvisited ▸ hgreedy)
    exact Set.mem_insert_of_mem _ (snake_smaller hd hnext)

/-- Along the bottom row, the end of the large room is 98 steps away. -/
theorem largeRoom_within {k n : ℕ} (hk : k ≤ 98) (hn : k ≤ n) :
    largeRoom.Within n (1 + k, 99) (1, 99) := by
  induction k generalizing n with
  | zero =>
    cases n with
    | zero => rfl
    | succ n => exact .inl rfl
  | succ k ih =>
    obtain ⟨n, rfl⟩ : ∃ m, n = m + 1 := ⟨n - 1, by omega⟩
    have hopen : largeRoom.Open (1 + k, 99) := by
      refine open_of_isValid (emptyRoom_isValid.mpr ?_)
      dsimp only
      omega
    refine .inr ⟨(1 + k, 99), ⟨hopen, .left, ?_⟩, ih (by omega) (by omega)⟩
    simp only [Direction.dirx, Direction.diry, Prod.mk.injEq]
    omega

/-- In the large room the search goes up and down the columns, past the end of
`move_directions`. -/
theorem not_wins_largeRoom : ¬∀ mz : Maze, Enclosed mz → mz.Within 1200 mz.start mz.exit →
    Wins (BitVec.ofNat 64) (BitVec.ofNat 64) (fun _ => .null) (fun _ => .up) mz := by
  intro hall
  have henclosed : Enclosed largeRoom :=
    emptyRoom_enclosed (by decide) (by decide) (by decide) (by decide) (by decide)
  have hwithin : largeRoom.Within 1200 largeRoom.start largeRoom.exit :=
    largeRoom_within (k := 98) le_rfl (by decide)
  obtain ⟨mz', got', hok, _⟩ := hall largeRoom henclosed hwithin
  obtain ⟨ds, hlen, hgreedy⟩ := snake_greedy (r := 0) (show 0 + 1201 ≤ 1201 by decide)
  have hnone : {p | ∃ r' < 0, p = snake r'} = ∅ := by simp
  rw [hnone] at hgreedy
  have hle : ds.length ≤ maxMoves := length_le_of_solve henclosed.start_open hok hgreedy.searched
  rw [hlen] at hle
  exact absurd hle (by decide)

end UnixProgramming.Libsolver
