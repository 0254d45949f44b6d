import CodeAtlas.Proofs.Graph.Tally

/-!
# Adding edges in a row

What a row of edges adds to a graph is decided by the members of the row alone: order and
repetition make no difference (`addEdges_congr`), so a row that is added once more changes nothing
(`addEdges_addEdges`). The nodes and their kinds stay, and the count of edges grows by the number of
those that were not there before (`edgeCount_add_card_sdiff`).

The graph may be any, grown or not: the two sides of its edges need not agree.
-/

namespace CodeAtlas.SymbolGraph

variable {g g₁ g₂ : SymbolGraph} {es es' : List (NodeId × NodeId)} {a b : NodeId}

/-! ## What is added -/

theorem keptIn_addEdges (g : SymbolGraph) (es : List (NodeId × NodeId)) :
    g.KeptIn (g.addEdges es) :=
  List.foldlRecOn es _ (.refl g) fun _ kept e _ => kept.trans (keptIn_addEdge e.1 e.2)

theorem mem_dependencies_addEdges :
    b ∈ (g.addEdges es).dependencies a ↔ b ∈ g.dependencies a ∨ (g.admits a b ∧ (a, b) ∈ es) := by
  rw [← hasEdge_iff, hasEdge_addEdges, hasEdge_iff]

theorem mem_dependents_addEdges :
    a ∈ (g.addEdges es).dependents b ↔ a ∈ g.dependents b ∨ (g.admits a b ∧ (a, b) ∈ es) := by
  refine addEdges_iff (P := fun g => a ∈ g.dependents b) ?_
  intro g c d
  rw [mem_dependents_addEdge, and_comm (a := d = b)]

/-- Two graphs that keep all of `g` and have no other nodes are equal if they have the same
edges on both sides. -/
theorem eq_of_keptIn (kept₁ : g.KeptIn g₁) (kept₂ : g.KeptIn g₂)
    (nodes₁ : ∀ id, g₁.contains id = g.contains id) (nodes₂ : ∀ id, g₂.contains id = g.contains id)
    (out : ∀ a b, b ∈ g₁.dependencies a ↔ b ∈ g₂.dependencies a)
    (into : ∀ a b, a ∈ g₁.dependents b ↔ a ∈ g₂.dependents b) : g₁ = g₂ := by
  refine congrArg SymbolGraph.mk (Std.ExtTreeMap.ext_getElem? fun id => ?_)
  change g₁.get? id = g₂.get? id
  cases hr : g.get? id with
  | none =>
    have absent : ¬ g.contains id := by simp [contains_iff, hr]
    have absent₁ : g₁.get? id = none := by
      rwa [← nodes₁, contains_iff, Option.not_isSome_iff_eq_none] at absent
    have absent₂ : g₂.get? id = none := by
      rwa [← nodes₂, contains_iff, Option.not_isSome_iff_eq_none] at absent
    rw [absent₁, absent₂]
  | some r =>
    obtain ⟨⟨id₁, kind₁, out₁, into₁⟩, h₁, keeps₁⟩ := kept₁ id r hr
    obtain ⟨⟨id₂, kind₂, out₂, into₂⟩, h₂, keeps₂⟩ := kept₂ id r hr
    have hid : id₁ = id₂ := keeps₁.id.trans keeps₂.id.symm
    have hkind : kind₁ = kind₂ := keeps₁.kind.trans keeps₂.kind.symm
    have hout : out₁ = out₂ := by
      refine Std.ExtTreeSet.ext_mem fun b => ?_
      simpa [dependencies, h₁, h₂] using out id b
    have hinto : into₁ = into₂ := by
      refine Std.ExtTreeSet.ext_mem fun a => ?_
      simpa [dependents, h₁, h₂] using into a id
    rw [h₁, h₂, hid, hkind, hout, hinto]

theorem contains_addEdges_eq (g : SymbolGraph) (es : List (NodeId × NodeId)) (id : NodeId) :
    (g.addEdges es).contains id = g.contains id :=
  Bool.eq_iff_iff.mpr contains_addEdges

/-- What a row of edges adds depends on its members alone: neither order nor repetition makes a
difference. -/
theorem addEdges_congr (h : ∀ e, e ∈ es ↔ e ∈ es') : g.addEdges es = g.addEdges es' := by
  refine eq_of_keptIn (keptIn_addEdges g es) (keptIn_addEdges g es') (contains_addEdges_eq g es)
    (contains_addEdges_eq g es') ?_ ?_
  · intro a b
    rw [mem_dependencies_addEdges, mem_dependencies_addEdges, h]
  · intro a b
    rw [mem_dependents_addEdges, mem_dependents_addEdges, h]

theorem addEdges_append (g : SymbolGraph) (es es' : List (NodeId × NodeId)) :
    g.addEdges (es ++ es') = (g.addEdges es).addEdges es' :=
  List.foldl_append

theorem addEdges_addEdges (g : SymbolGraph) (es : List (NodeId × NodeId)) :
    (g.addEdges es).addEdges es = g.addEdges es := by
  rw [← addEdges_append]
  exact addEdges_congr fun e => by rw [List.mem_append, or_self]

/-! ## How many are new -/

/-- The edges of a graph. -/
def edges (g : SymbolGraph) : Finset (NodeId × NodeId) :=
  (pairsOf NodeRecord.dependencies g.toList).toFinset

theorem mem_edges : (a, b) ∈ g.edges ↔ g.hasEdge a b := by
  rw [edges, List.mem_toFinset, mem_pairsOf_dependencies]

theorem card_edges (g : SymbolGraph) : g.edges.card = g.edgeCount :=
  (edgeCount_eq_card fun _ _ => mem_pairsOf_dependencies.symm).symm

theorem edges_subset_addEdges (g : SymbolGraph) (es : List (NodeId × NodeId)) :
    g.edges ⊆ (g.addEdges es).edges := by
  rintro ⟨a, b⟩ h
  rw [mem_edges] at h ⊢
  exact hasEdge_addEdges.mpr (.inl h)

theorem edgeCount_add_card_sdiff (h : g₁.edges ⊆ g₂.edges) :
    g₁.edgeCount + (g₂.edges \ g₁.edges).card = g₂.edgeCount := by
  rw [← card_edges, ← card_edges, Nat.add_comm]
  exact Finset.card_sdiff_add_card_eq_card h

end CodeAtlas.SymbolGraph
