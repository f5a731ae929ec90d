import UnixProgramming.Lib.FirstPaths
import UnixProgramming.Libsolver.Solver
import Mathlib.Data.Finset.Prod

/-!
# What `dfs` finds

A call of `dfs` goes along exactly the paths of a depth-first search in the unmarked maze
that avoids the cells marked before: it runs out of `move_directions` when one of these
paths is too long, and otherwise records a simple path to the end or marks everything
that can be reached. Each call marks a cell, so a recursion through all cells is enough.
-/

namespace UnixProgramming.Libsolver

/-- A column and a row. -/
abbrev Cell := ℤ × ℤ

/-- The order in which the loop of `dfs` tries the directions. -/
instance : LinearOrder Direction :=
  LinearOrder.lift' Direction.toNat fun a b h => by
    cases a <;> cases b <;> simp_all [Direction.toNat]

/-- The start of the maze. -/
def Maze.start (mz : Maze) : Cell := (mz.sx, mz.sy)

/-- The end of the maze. -/
def Maze.exit (mz : Maze) : Cell := (mz.ex, mz.ey)

/-- The cell in a direction, if it is valid. -/
def Maze.next (mz : Maze) (p : Cell) (d : Direction) : Option Cell :=
  if isValid mz (p.1 + d.dirx) (p.2 + d.diry) then some (p.1 + d.dirx, p.2 + d.diry) else none

/-- The cells of the maze. -/
def Maze.cells (mz : Maze) : Set Cell := {p | 0 ≤ p.1 ∧ p.1 < mz.w ∧ 0 ≤ p.2 ∧ p.2 < mz.h}

/-- The cell is one of the maze, and open. -/
def Maze.Open (mz : Maze) (p : Cell) : Prop := p ∈ mz.cells ∧ mz.blk p.2 p.1 = 0

/-- The second maze is the first one with some of its open cells set to 2. -/
structure Marked (mz : Maze) (A : Set Cell) (mz' : Maze) : Prop where
  fields : mz' = { mz with blk := mz'.blk }
  mark : ∀ p ∈ A, mz'.blk p.2 p.1 = 2
  plain : ∀ p ∉ A, mz'.blk p.2 p.1 = mz.blk p.2 p.1
  isOpen : ∀ p ∈ A, mz.Open p

open scoped Classical in
/-- The number of cells that are not marked. -/
noncomputable def cellsLeft (mz : Maze) (A : Set Cell) : ℕ :=
  ((Finset.range mz.w.toNat ×ˢ Finset.range mz.h.toNat).filter
    fun p => ((p.1, p.2) : Cell) ∉ A).card

/-- So many entries of `move_directions` exist. -/
def Fits (size : Option ℕ) (n : ℕ) : Prop := ∀ m ∈ size, n ≤ m

/-- What a search does that goes along the given paths from `v`: one of them is too long;
or a simple path to the end is recorded from the depth of the call on; or there is none,
and `done` holds of the cells then marked. -/
inductive Outcome (mz : Maze) (size : Option ℕ) (A : Set Cell) (v : Cell) (depth : ℕ) (s : Solver)
    (paths : List Direction → Prop) (done : Set Cell → Prop) : Except Fault (Bool × Solver) → Prop
  | overrun {ds : List Direction} : paths ds → ¬Fits size (depth + ds.length) →
      Outcome mz size A v depth s paths done (.error .outOfBounds)
  | found {s' : Solver} {es : List Direction} {M : Set Cell} :
      (∀ ds, paths ds → Fits size (depth + ds.length)) → SimplePath mz.next A v es mz.exit →
      Fits size (depth + es.length) → (∀ i < es.length, s'.moveDirections (depth + i) = es[i]?) →
      s'.maxDepth = depth + es.length → (∀ i < depth, s'.moveDirections i = s.moveDirections i) →
      Marked mz M s'.mz → Outcome mz size A v depth s paths done (.ok (true, s'))
  | exhausted {s' : Solver} {M : Set Cell} :
      (∀ ds, paths ds → Fits size (depth + ds.length)) → done M → mz.exit ∉ M →
      s'.maxDepth = s.maxDepth → (∀ i < depth, s'.moveDirections i = s.moveDirections i) →
      Marked mz M s'.mz → Outcome mz size A v depth s paths done (.ok (false, s'))

variable {mz mz' : Maze} {size : Option ℕ} {A B M : Set Cell} {p q v n : Cell} {depth fuel : ℕ}
variable {s s' : Solver} {d : Direction} {ds : List Direction}

/-! ## Marks -/

/-- A step to a neighbour is one that `isValid` lets pass. -/
theorem next_eq_some : mz.next p d = some q ↔
    isValid mz q.1 q.2 = true ∧ q = (p.1 + d.dirx, p.2 + d.diry) := by
  unfold Maze.next
  split
  · next hvalid =>
    constructor
    · rintro ⟨⟩
      exact ⟨hvalid, rfl⟩
    · rintro ⟨_, rfl⟩
      rfl
  · next hvalid =>
    simp only [reduceCtorEq, false_iff, not_and]
    rintro hvalid' rfl
    exact hvalid hvalid'

/-- A valid cell holds 0 and is not in the row or the column 0, since both coordinates are compared
with 0 by `>`. -/
theorem isValid_iff {x y : ℤ} : isValid mz x y = true ↔
    0 < x ∧ x < mz.w ∧ 0 < y ∧ y < mz.h ∧ mz.blk y x = 0 := by
  simp [isValid, and_assoc]

/-- A valid cell is open. -/
theorem open_of_isValid (hvalid : isValid mz p.1 p.2 = true) : mz.Open p := by
  obtain ⟨hx, hxw, hy, hyh, hopen⟩ := isValid_iff.mp hvalid
  exact ⟨⟨hx.le, hxw, hy.le, hyh⟩, hopen⟩

/-- No cell is marked at the beginning. -/
theorem Marked.refl (mz : Maze) : Marked mz ∅ mz where
  fields := rfl
  mark _ hp := absurd hp (Set.notMem_empty _)
  plain _ _ := rfl
  isOpen _ hp := absurd hp (Set.notMem_empty _)

/-- In a marked maze the valid cells are those that are not marked. -/
theorem Marked.isValid_iff (hmarked : Marked mz A mz') :
    isValid mz' p.1 p.2 = true ↔ isValid mz p.1 p.2 = true ∧ p ∉ A := by
  have hw : mz'.w = mz.w := by rw [hmarked.fields]
  have hh : mz'.h = mz.h := by rw [hmarked.fields]
  rw [Libsolver.isValid_iff, Libsolver.isValid_iff, hw, hh]
  by_cases hp : p ∈ A
  · simp [hp, hmarked.mark p hp]
  · simp [hp, hmarked.plain p hp]

/-- Marking one more cell. -/
theorem Marked.setBlk (hmarked : Marked mz A mz') (hopen : mz.Open v) :
    Marked mz (insert v A) (mz'.setBlk v.1 v.2 2) := by
  have hself : (mz'.setBlk v.1 v.2 2).blk v.2 v.1 = 2 := by simp [Maze.setBlk]
  have hother : ∀ p : Cell, p ≠ v → (mz'.setBlk v.1 v.2 2).blk p.2 p.1 = mz'.blk p.2 p.1 := by
    intro p hp
    by_cases hrow : p.2 = v.2
    · have hcol : p.1 ≠ v.1 := fun h => hp (Prod.ext h hrow)
      simp [Maze.setBlk, hrow, hcol]
    · simp [Maze.setBlk, hrow]
  refine ⟨?_, ?_, fun p hp => ?_, ?_⟩
  · rw [Maze.setBlk, hmarked.fields]
  · rintro p (rfl | hp)
    · exact hself
    · by_cases hpv : p = v
      · rw [hpv, hself]
      · rw [hother p hpv, hmarked.mark p hp]
  · rw [hother p fun h => hp (h ▸ Set.mem_insert v A)]
    exact hmarked.plain p fun h => hp (Set.mem_insert_of_mem v h)
  · rintro p (rfl | hp)
    · exact hopen
    · exact hmarked.isOpen p hp

/-- Setting the visited cells back gives the maze before, in which no cell is 2. -/
theorem Marked.unmark (hmarked : Marked mz A mz') (hblk : ∀ p ∈ mz.cells, mz.blk p.2 p.1 ≠ 2) :
    mz'.unmark = mz := by
  have hcell : mz'.unmark.blk = mz.blk := by
    have hw : mz'.w = mz.w := by rw [hmarked.fields]
    have hh : mz'.h = mz.h := by rw [hmarked.fields]
    funext y x
    simp only [Maze.unmark, hw, hh]
    by_cases hp : ((x, y) : Cell) ∈ A
    · obtain ⟨⟨hx, hxw, hy, hyh⟩, hopen⟩ := hmarked.isOpen _ hp
      have hmark : mz'.blk y x = 2 := hmarked.mark _ hp
      rw [if_pos ⟨hy, hyh, hx, hxw, hmark⟩]
      exact hopen.symm
    · have hplain : mz'.blk y x = mz.blk y x := hmarked.plain _ hp
      rw [if_neg, hplain]
      rintro ⟨hy, hyh, hx, hxw, hmark⟩
      exact hblk (x, y) ⟨hx, hxw, hy, hyh⟩ (hplain ▸ hmark)
  have hfields : mz'.unmark = { mz with blk := mz'.unmark.blk } := by
    rw [Maze.unmark, hmarked.fields]
  rw [hfields, hcell]

/-- Marking a cell leaves fewer. -/
theorem cellsLeft_lt (hv : v ∈ mz.cells) (hv' : v ∉ A) (hsub : insert v A ⊆ M) :
    cellsLeft mz M < cellsLeft mz A := by
  classical
  obtain ⟨hx, hxw, hy, hyh⟩ := hv
  have hcast : ((v.1.toNat, v.2.toNat) : Cell) = v := by
    rw [Int.toNat_of_nonneg hx, Int.toNat_of_nonneg hy]
  refine Finset.card_lt_card
    (Finset.ssubset_iff_of_subset ?_ |>.mpr ⟨(v.1.toNat, v.2.toNat), ?_, ?_⟩)
  · intro p hp
    simp only [Finset.mem_filter] at hp ⊢
    exact ⟨hp.1, fun h => hp.2 (hsub (Set.mem_insert_of_mem v h))⟩
  · simp only [Finset.mem_filter, Finset.mem_product, Finset.mem_range, hcast]
    exact ⟨by omega, hv'⟩
  · simp only [Finset.mem_filter, hcast, not_and, not_not]
    exact fun _ => hsub (Set.mem_insert v A)

/-- At most all cells are left, which bounds the depth of the search. -/
theorem cellsLeft_le (mz : Maze) (A : Set Cell) : cellsLeft mz A ≤ mz.w.toNat * mz.h.toNat := by
  classical
  refine (Finset.card_filter_le _ _).trans ?_
  rw [Finset.card_product, Finset.card_range, Finset.card_range]

/-! ## The loop over the directions -/

/-- The list holds the directions after those that are not in it, in order. -/
def Upper (is : List Direction) : Prop :=
  is.Pairwise (· < ·) ∧ ∀ p ∉ is, ∀ q ∈ is, p < q

/-- The loop begins with all directions, -/
theorem upper_all : Upper Direction.all :=
  ⟨by decide, fun p hp => absurd (by cases p <;> decide) hp⟩

/-- where those that have been tried are the ones below the next one, -/
theorem Upper.below {is : List Direction} (hupper : Upper (d :: is)) (p : Direction) :
    p ∉ d :: is ↔ p < d := by
  refine ⟨fun hp => hupper.2 p hp d List.mem_cons_self, fun hlt hp => ?_⟩
  obtain rfl | hp := List.mem_cons.mp hp
  · exact lt_irrefl _ hlt
  · exact lt_asymm hlt ((List.pairwise_cons.mp hupper.1).1 p hp)

/-- and this stays so when it goes on. -/
theorem Upper.tail {is : List Direction} (hupper : Upper (d :: is)) : Upper is := by
  obtain ⟨hfirst, hsorted⟩ := List.pairwise_cons.mp hupper.1
  refine ⟨hsorted, fun p hp q hq => ?_⟩
  by_cases hpd : p = d
  · exact hpd ▸ hfirst q hq
  · exact hupper.2 p (by simp [hpd, hp]) q (List.mem_cons_of_mem d hq)

/-- Trying the first direction leaves the others to be tried. -/
theorem Upper.tried {is : List Direction} (hupper : Upper (d :: is)) :
    {p | p ∉ is} = insert d {p | p ∉ d :: is} := by
  have hd : d ∉ is := fun h => lt_irrefl d ((List.pairwise_cons.mp hupper.1).1 d h)
  ext p
  simp only [Set.mem_ofPred_eq, Set.mem_insert_iff, List.mem_cons, not_or]
  constructor
  · intro hp
    by_cases hpd : p = d
    · exact .inl hpd
    · exact .inr ⟨hpd, hp⟩
  · rintro (rfl | hp)
    · exact hd
    · exact hp.2

/-- The paths of the search from `v` that begin with one of the directions. -/
def Along (mz : Maze) (A : Set Cell) (v : Cell) (is : List Direction) (ds : List Direction) :
    Prop :=
  ∃ d ∈ is, ∃ ds', ds = d :: ds' ∧ Searched mz.next mz.exit A v ds

/-- A path begins with the first of the directions or with a later one. -/
theorem along_cons {is : List Direction} : Along mz A v (d :: is) ds ↔
    (∃ ds', ds = d :: ds' ∧ Searched mz.next mz.exit A v ds) ∨ Along mz A v is ds := by
  simp [Along]

/-- An outcome for later directions is one for all directions, where the search along the
others has not failed. -/
theorem Outcome.after {paths paths' : List Direction → Prop} {done done' : Set Cell → Prop}
    {r : Except Fault (Bool × Solver)} (s₁ : Solver)
    (ho : Outcome mz size A v depth s₁ paths done r) (hmax : s₁.maxDepth = s.maxDepth)
    (hframe : ∀ i < depth, s₁.moveDirections i = s.moveDirections i)
    (hpaths : ∀ ds, paths ds → paths' ds)
    (hfits : ∀ ds, paths' ds → paths ds ∨ Fits size (depth + ds.length))
    (hdone : ∀ M, done M → done' M) : Outcome mz size A v depth s paths' done' r := by
  have hall : (∀ ds, paths ds → Fits size (depth + ds.length)) →
      ∀ ds, paths' ds → Fits size (depth + ds.length) :=
    fun h ds hds => (hfits ds hds).elim (h ds) id
  cases ho with
  | overrun hds hlong => exact .overrun (hpaths _ hds) hlong
  | found hshort hpath hes hrec hdepth hframe' hmarked =>
    exact .found (hall hshort) hpath hes hrec hdepth
      (fun i hi => (hframe' i hi).trans (hframe i hi)) hmarked
  | exhausted hshort hM hexit hmax' hframe' hmarked =>
    exact .exhausted (hall hshort) (hdone _ hM) hexit (hmax'.trans hmax)
      (fun i hi => (hframe' i hi).trans (hframe i hi)) hmarked

/-- Without a number of entries there is no bound on the depth. -/
@[simp] theorem fits_none {n : ℕ} : Fits none n := fun _ h => by cases h

/-- With one, the depth may reach it. -/
@[simp] theorem fits_some {m n : ℕ} : Fits (some m) n ↔ n ≤ m := by
  simp only [Fits, Option.mem_def, Option.some.injEq, forall_eq']

/-- The test before an entry is written asks whether one more fits. -/
theorem all_fits_iff : (size.all fun n => decide (depth < n)) = true ↔ Fits size (depth + 1) := by
  cases size with
  | none => simp
  | some n =>
    simp only [Option.all_some, decide_eq_true_eq, fits_some]
    omega

/-- Along a direction that leads to an unmarked cell, the search goes on as one from there. -/
theorem searched_follow {is : List Direction} (hv : v ∉ A) (hupper : Upper (d :: is))
    (htried : Tried mz.next A v {p | p ∉ d :: is} M) (hexit : mz.exit ∉ M)
    (hnext : mz.next v d = some n) (hfresh : n ∉ M) :
    Searched mz.next mz.exit A v (d :: ds) ↔ Searched mz.next mz.exit M n ds := by
  rw [Searched.cons_iff htried hv hexit hupper.below, hnext]
  simp [hfresh]

/-- The outcome of a recursive call, after which the loop ends or goes on with `rest`. -/
theorem Outcome.follow {is : List Direction} {r : Except Fault (Bool × Solver)}
    {rest : Solver → Except Fault (Bool × Solver)} (hv : v ∉ A) (hupper : Upper (d :: is))
    (htried : Tried mz.next A v {p | p ∉ d :: is} M) (hexit : mz.exit ∉ M)
    (hnext : mz.next v d = some n) (hfresh : n ∉ M)
    (ho : Outcome mz size M n (depth + 1)
      ⟨s.mz, Function.update s.moveDirections depth (some d), s.maxDepth⟩
      (Searched mz.next mz.exit M n) (Exhausted mz.next M n) r)
    (hrest : ∀ s' M', Tried mz.next A v {p | p ∉ is} M' → Marked mz M' s'.mz → mz.exit ∉ M' →
      Outcome mz size A v depth s' (Along mz A v is) (Tried mz.next A v Set.univ) (rest s')) :
    Outcome mz size A v depth s (Along mz A v (d :: is)) (Tried mz.next A v Set.univ)
      (r >>= fun x => if x.1 then pure (true, x.2) else rest x.2) := by
  have hgo : ∀ {ds}, Searched mz.next mz.exit A v (d :: ds) ↔ Searched mz.next mz.exit M n ds :=
    searched_follow hv hupper htried hexit hnext hfresh
  -- an index after `depth` is one step later in the path from `n`
  have hlen : ∀ ds : List Direction, depth + (d :: ds).length = depth + 1 + ds.length := by
    intro ds
    rw [List.length_cons]
    omega
  have hkeep : ∀ i < depth, Function.update s.moveDirections depth (some d) i =
      s.moveDirections i := fun i hi => Function.update_of_ne hi.ne ..
  cases ho with
  | @overrun ds hds hlong =>
    have halong : Along mz A v (d :: is) (d :: ds) :=
      ⟨d, List.mem_cons_self, ds, rfl, hgo.mpr hds⟩
    exact .overrun halong (hlen ds ▸ hlong)
  | @found s' es M' hshort hpath hes hrec hdepth hframe hmarked =>
    have hpath' : SimplePath mz.next A v (d :: es) mz.exit :=
      .cons hv hnext (hpath.anti htried.subset)
    refine .found (fun ds hds => ?_) hpath' (hlen es ▸ hes) (fun i hi => ?_)
      (hdepth.trans (hlen es).symm) (fun i hi => ?_) hmarked
    · obtain ⟨ds', rfl, hsearched⟩ | ⟨e, he, ds', rfl, hsearched⟩ := along_cons.mp hds
      · exact hlen ds' ▸ hshort ds' (hgo.mp hsearched)
      · -- the recorded path precedes those along later directions
        have hlt := (List.pairwise_cons.mp hupper.1).1 e he
        exact absurd (.rel hlt) (hsearched.2 _ hpath')
    · cases i with
      | zero => exact (hframe depth (Nat.lt_succ_self _)).trans (Function.update_self ..)
      | succ i =>
        have hidx : depth + (i + 1) = depth + 1 + i := by omega
        rw [hidx, hrec i (Nat.lt_of_succ_lt_succ hi)]
        rfl
    · exact (hframe i (Nat.lt_succ_of_lt hi)).trans (hkeep i hi)
  | @exhausted s' M' hshort hdone hexit' hmax hframe hmarked =>
    have htried' := htried.follow hv hnext hdone
    rw [← hupper.tried] at htried'
    refine (hrest s' M' htried' hmarked hexit').after s' hmax
      (fun i hi => (hframe i (Nat.lt_succ_of_lt hi)).trans (hkeep i hi))
      (fun ds hds => along_cons.mpr (.inr hds)) (fun ds hds => ?_) fun _ htried => htried
    obtain ⟨ds', rfl, hsearched⟩ | hds := along_cons.mp hds
    · exact .inr (hlen ds' ▸ hshort ds' (hgo.mp hsearched))
    · exact .inl hds

/-- The loop of `dfs` does what a search does along the remaining directions. The induction
is on these, and `hsearch` says what the recursive call does. -/
theorem tryDirections_outcome {search : Solver → ℤ → ℤ → Except Fault (Bool × Solver)}
    (hv : v ∉ A) {is : List Direction} (hupper : Upper is)
    (hsearch : ∀ {s n M}, insert v A ⊆ M → Marked mz M s.mz → isValid mz n.1 n.2 = true → n ∉ M →
      mz.exit ∉ M → Fits size (depth + 1) →
      Outcome mz size M n (depth + 1) s (Searched mz.next mz.exit M n) (Exhausted mz.next M n)
        (search s n.1 n.2))
    (htried : Tried mz.next A v {p | p ∉ is} M) (hmarked : Marked mz M s.mz)
    (hexit : mz.exit ∉ M) :
    Outcome mz size A v depth s (Along mz A v is) (Tried mz.next A v Set.univ)
      (tryDirections search size v.1 v.2 depth is s) := by
  induction is generalizing s M with
  | nil =>
    refine .exhausted ?_ ?_ hexit rfl (fun _ _ => rfl) hmarked
    · rintro ds ⟨d, hd, _⟩
      exact absurd hd List.not_mem_nil
    · simpa using htried
  | cons d is ih =>
    rw [tryDirections]
    dsimp only
    split
    · next hvalid =>
      generalize hn : ((v.1 + d.dirx, v.2 + d.diry) : Cell) = n
      obtain ⟨hvalid', hfresh⟩ := (hmarked.isValid_iff (p := n)).mp (hn ▸ hvalid)
      have hnext : mz.next v d = some n := next_eq_some.mpr ⟨hvalid', hn.symm⟩
      split
      · next hfits =>
        have hx : v.1 + d.dirx = n.1 := congrArg Prod.fst hn
        have hy : v.2 + d.diry = n.2 := congrArg Prod.snd hn
        rw [hx, hy]
        have ho := hsearch
          (s := ⟨s.mz, Function.update s.moveDirections depth (some d), s.maxDepth⟩)
          htried.subset hmarked hvalid' hfresh hexit (all_fits_iff.mp hfits)
        exact ho.follow hv hupper htried hexit hnext hfresh
          fun s' M' htried' hmarked' hexit' => ih hupper.tail htried' hmarked' hexit'
      · next hfull =>
        have hfirst : Searched mz.next mz.exit A v [d] :=
          (searched_follow hv hupper htried hexit hnext hfresh).mpr (.nil hfresh)
        have halong : Along mz A v (d :: is) [d] := ⟨d, List.mem_cons_self, [], rfl, hfirst⟩
        exact .overrun halong fun hfits => hfull (all_fits_iff.mpr hfits)
    · next hinvalid =>
      have hblocked : ∀ n, mz.next v d = some n → n ∈ M := by
        intro n hnext
        obtain ⟨hvalid', rfl⟩ := next_eq_some.mp hnext
        by_contra hfresh
        exact hinvalid (hmarked.isValid_iff.mpr ⟨hvalid', hfresh⟩)
      have htried' := htried.skip hblocked
      rw [← hupper.tried] at htried'
      refine (ih hupper.tail htried' hmarked hexit).after s rfl (fun _ _ => rfl)
        (fun ds hds => along_cons.mpr (.inr hds)) (fun ds hds => ?_) fun _ htried => htried
      obtain ⟨ds', rfl, hsearched⟩ | hds := along_cons.mp hds
      · obtain ⟨n, hnext, hfresh, _⟩ :=
          (Searched.cons_iff htried hv hexit hupper.below).mp hsearched
        exact absurd (hblocked n hnext) hfresh
      · exact .inl hds

/-! ## The recursion -/

/-- `dfs` does what a search from its cell does, if a recursion through all unmarked cells is
granted. The induction is on the calls granted. -/
theorem dfs_outcome (hmarked : Marked mz A s.mz) (hopen : mz.Open v) (hv : v ∉ A)
    (hexit : mz.exit ∉ A) (hfits : Fits size depth) (hfuel : cellsLeft mz A < fuel) :
    Outcome mz size A v depth s (Searched mz.next mz.exit A v) (Exhausted mz.next A v)
      (dfs size fuel s v.1 v.2 depth) := by
  induction fuel generalizing s A v depth with
  | zero => exact absurd hfuel (Nat.not_lt_zero _)
  | succ fuel ih =>
    have hend : (v.1 = s.mz.ex ∧ v.2 = s.mz.ey) ↔ v = mz.exit := by
      rw [hmarked.fields, Prod.ext_iff]
      rfl
    rw [dfs]
    split
    · next hreached =>
      obtain rfl := hend.mp hreached
      refine .found (fun ds hds => ?_) (.nil hv) hfits (fun i hi => absurd hi (by simp)) rfl
        (fun _ _ => rfl) hmarked
      cases ds with
      | nil => exact hfits
      | cons => exact absurd hds (not_searched_cons_self hv)
    · next hreached =>
      have hne : mz.exit ∉ insert v A := by
        rintro (heq | hmem)
        · exact hreached (hend.mpr heq.symm)
        · exact hexit hmem
      have hall : (∅ : Set Direction) = {p | p ∉ Direction.all} := by
        ext p
        cases p <;> simp [Direction.all]
      have hstart : Tried mz.next A v {p | p ∉ Direction.all} (insert v A) := hall ▸ .start
      refine (tryDirections_outcome hv upper_all ?_ hstart (hmarked.setBlk hopen) hne).after
        { s with mz := s.mz.setBlk v.1 v.2 2 } rfl (fun _ _ => rfl) ?_ ?_ ?_
      · intro s' n M hsub hmarked' hvalid hfresh hexit' hfits'
        have hlt := cellsLeft_lt hopen.1 hv hsub
        exact ih hmarked' (open_of_isValid hvalid) hfresh hexit' hfits' (by omega)
      · rintro ds ⟨_, _, _, _, hsearched⟩
        exact hsearched
      · intro ds hsearched
        cases ds with
        | nil => exact .inr hfits
        | cons d ds => exact .inl ⟨d, by cases d <;> simp [Direction.all], ds, rfl, hsearched⟩
      · exact fun M htried => htried.exhausted hv Set.mem_univ

end UnixProgramming.Libsolver
