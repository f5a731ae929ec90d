import Mathlib.Combinatorics.SimpleGraph.Acyclic

/-!
# Trees grown by leaves

A set of vertices of a graph spans a tree when its inner edges connect it
without a cycle. A vertex with exactly one neighbour in such a set can be added,
and the result is again a tree. This is the form in which a search that opens
one cell after another builds a maze.
-/

namespace UnixProgramming

variable {V : Type*} {G : SimpleGraph V} {S : Set V} {root u v : V}

/-- The edges of `G` with both ends in `S`. -/
def within (G : SimpleGraph V) (S : Set V) : SimpleGraph V where
  Adj u v := u ∈ S ∧ v ∈ S ∧ G.Adj u v
  symm := ⟨fun _ _ h => ⟨h.2.1, h.1, h.2.2.symm⟩⟩
  loopless := ⟨fun _ h => h.2.2.ne rfl⟩

@[simp] theorem within_adj : (within G S).Adj u v ↔ u ∈ S ∧ v ∈ S ∧ G.Adj u v := Iff.rfl

/-- The inner edges of `S` form a tree on `S`. -/
structure SpansTree (G : SimpleGraph V) (root : V) (S : Set V) : Prop where
  root_mem : root ∈ S
  acyclic : (within G S).IsAcyclic
  reachable : ∀ v ∈ S, (within G S).Reachable root v

/-- A single vertex is a tree. -/
theorem SpansTree.singleton (G : SimpleGraph V) (root : V) : SpansTree G root {root} where
  root_mem := rfl
  acyclic := by
    have hbot : within G {root} = ⊥ := by
      ext a b
      simp only [within_adj, Set.mem_singleton_iff, SimpleGraph.bot_adj, iff_false]
      rintro ⟨rfl, rfl, hadj⟩
      exact hadj.ne rfl
    rw [hbot]
    exact SimpleGraph.isAcyclic_bot
  reachable := by
    rintro v rfl
    exact .refl _

/-- Adding a vertex with one neighbour adds one edge. -/
theorem within_insert (hu : u ∈ S) (hadj : G.Adj u v)
    (honly : ∀ w ∈ S, G.Adj w v → w = u) :
    within G (insert v S) = within G S ⊔ SimpleGraph.edge u v := by
  ext a b
  simp only [within_adj, Set.mem_insert_iff, SimpleGraph.sup_adj, SimpleGraph.edge_adj]
  constructor
  · rintro ⟨rfl | ha, rfl | hb, hab⟩
    · exact absurd rfl hab.ne
    · exact Or.inr ⟨Or.inr ⟨rfl, honly b hb hab.symm⟩, hab.ne⟩
    · exact Or.inr ⟨Or.inl ⟨honly a ha hab, rfl⟩, hab.ne⟩
    · exact Or.inl ⟨ha, hb, hab⟩
  · rintro (⟨ha, hb, hab⟩ | ⟨⟨rfl, rfl⟩ | ⟨rfl, rfl⟩, _⟩)
    · exact ⟨Or.inr ha, Or.inr hb, hab⟩
    · exact ⟨Or.inr hu, Or.inl rfl, hadj⟩
    · exact ⟨Or.inl rfl, Or.inr hu, hadj.symm⟩

/-- A vertex outside `S` is reached by no inner edge of `S`. -/
theorem not_reachable_of_notMem (hv : v ∉ S) (huv : u ≠ v) : ¬(within G S).Reachable u v := by
  rintro ⟨walk⟩
  cases walk.reverse with
  | nil => exact huv rfl
  | cons hadj _ => exact hv hadj.1

/-- Adding a leaf to a tree gives a tree. -/
theorem SpansTree.insert_leaf (htree : SpansTree G root S) (hu : u ∈ S) (hv : v ∉ S)
    (hadj : G.Adj u v) (honly : ∀ w ∈ S, G.Adj w v → w = u) :
    SpansTree G root (insert v S) := by
  have hinsert := within_insert hu hadj honly
  have hle : within G S ≤ within G (insert v S) := hinsert ▸ le_sup_left
  have hnew : (within G (insert v S)).Adj u v := ⟨Or.inr hu, Or.inl rfl, hadj⟩
  refine ⟨Or.inr htree.root_mem, ?_, ?_⟩
  · rw [hinsert]
    exact htree.acyclic.sup_edge_of_not_reachable (not_reachable_of_notMem hv hadj.ne)
  · rintro w (rfl | hw)
    · exact ((htree.reachable u hu).mono hle).trans hnew.reachable
    · exact (htree.reachable w hw).mono hle

/-- Two vertices of a tree are joined by exactly one simple path inside it. -/
theorem SpansTree.existsUnique_path (htree : SpansTree G root S) (hu : u ∈ S) (hv : v ∈ S) :
    ∃! walk : (within G S).Walk u v, walk.IsPath := by
  classical
  obtain ⟨walk⟩ := (htree.reachable u hu).symm.trans (htree.reachable v hv)
  refine ⟨walk.bypass, walk.bypass_isPath, fun other hother => ?_⟩
  have hunique := htree.acyclic.subsingleton_path u v
  exact congrArg Subtype.val
    (hunique.elim ⟨other, hother⟩ ⟨walk.bypass, walk.bypass_isPath⟩)

end UnixProgramming
