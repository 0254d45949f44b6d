import CodeAtlas.Graph.Basic

/-!
# Graphs that grow from the empty one

A graph grows by three steps: the node of a file, the node of a declaration with that of its
file, and an edge. `WellFormed` is what every step keeps (`wellFormed_apply`), hence what every
graph has that some steps lead to (`Grown.wellFormed`): an edge is recorded on both sides, it
ends at a node, and a declaration has the node of its file.

The steps are described once, by what they do to `contains`, `dependencies` and `dependents`;
nothing below or in other modules looks at the map behind them.
-/

namespace CodeAtlas

/-- One step of the growth of a graph. -/
inductive Growth where
  | ensureFile (path : String)
  | ensureSymbol (path name : String) (kind : SymbolKind)
  | addEdge (a b : NodeId)

/-- The graph after a step. -/
def Growth.apply (g : SymbolGraph) : Growth → SymbolGraph
  | ensureFile path => g.ensureFile path
  | ensureSymbol path name kind => g.ensureSymbol path name kind
  | addEdge a b => g.addEdge a b

namespace SymbolGraph

/-- A graph that some steps lead to from the empty one. -/
def Grown (g : SymbolGraph) : Prop := ∃ steps : List Growth, steps.foldl Growth.apply ∅ = g

/-- The nodes that `a` refers to; none if `a` is no node. -/
def dependencies (g : SymbolGraph) (a : NodeId) : NodeSet :=
  ((g.get? a).map NodeRecord.dependencies).getD ∅

/-- The nodes that refer to `a`; none if `a` is no node. -/
def dependents (g : SymbolGraph) (a : NodeId) : NodeSet :=
  ((g.get? a).map NodeRecord.dependents).getD ∅

/-! ## Look-up -/

theorem contains_iff {g : SymbolGraph} {a : NodeId} : g.contains a ↔ (g.get? a).isSome := by
  simp only [contains, get?, ← Std.ExtTreeMap.isSome_getElem?_eq_contains]

theorem hasEdge_iff {g : SymbolGraph} {a b : NodeId} :
    g.hasEdge a b ↔ b ∈ g.dependencies a := by
  unfold hasEdge dependencies
  cases g.get? a with
  | none => simp
  | some r => exact Std.ExtTreeSet.contains_iff_mem

theorem dependencies_of_not_contains {g : SymbolGraph} {a : NodeId} (h : ¬ g.contains a) :
    g.dependencies a = ∅ := by
  rw [contains_iff, Option.not_isSome_iff_eq_none] at h
  simp [dependencies, h]

theorem dependents_of_not_contains {g : SymbolGraph} {a : NodeId} (h : ¬ g.contains a) :
    g.dependents a = ∅ := by
  rw [contains_iff, Option.not_isSome_iff_eq_none] at h
  simp [dependents, h]

theorem contains_of_hasEdge {g : SymbolGraph} {a b : NodeId} (h : g.hasEdge a b) :
    g.contains a := by
  refine Decidable.byContradiction fun hn => ?_
  rw [hasEdge_iff, dependencies_of_not_contains hn] at h
  simp at h

theorem mem_keys_iff {g : SymbolGraph} {a : NodeId} : a ∈ g.nodes.keys ↔ g.contains a := by
  rw [Std.ExtTreeMap.mem_keys, contains, Std.ExtTreeMap.contains_iff_mem]

theorem mem_nodesOf {g : SymbolGraph} {path : String} {a : NodeId} :
    a ∈ g.nodesOf path ↔ g.contains a ∧ a.path = path := by
  rw [nodesOf, List.mem_filter, mem_keys_iff, beq_iff_eq]

/-! ## The empty graph -/

theorem not_contains_empty (a : NodeId) : ¬ (∅ : SymbolGraph).contains a := by
  change ¬ (∅ : Std.ExtTreeMap NodeId NodeRecord).contains a
  simp

/-! ## Nodes -/

/-- Only a node that is not there yet gets a record; one that is keeps its kind and its edges. -/
theorem get?_ensure (g : SymbolGraph) (id a : NodeId) (kind : SymbolKind) :
    (g.ensure id kind).get? a =
      if id = a ∧ ¬ g.contains a then some (.new id kind) else g.get? a := by
  unfold ensure
  by_cases h : g.contains id
  · rw [if_pos h, if_neg]
    rintro ⟨rfl, hn⟩
    exact hn h
  · rw [if_neg h]
    simp only [get?, Std.ExtTreeMap.getElem?_insert, Std.LawfulEqCmp.compare_eq_iff_eq]
    by_cases he : id = a
    · subst he
      simp [h]
    · simp [he]

theorem contains_ensure {g : SymbolGraph} {id a : NodeId} {kind : SymbolKind} :
    (g.ensure id kind).contains a ↔ id = a ∨ g.contains a := by
  rw [contains_iff, get?_ensure]
  split
  · rename_i h
    simp [h.1]
  · rename_i h
    rw [← contains_iff]
    constructor
    · exact .inr
    · rintro (rfl | ha)
      · exact Decidable.byContradiction fun hn => h ⟨rfl, hn⟩
      · exact ha

theorem dependencies_ensure (g : SymbolGraph) (id a : NodeId) (kind : SymbolKind) :
    (g.ensure id kind).dependencies a = g.dependencies a := by
  by_cases h : id = a ∧ ¬ g.contains a
  · rw [dependencies_of_not_contains h.2]
    simp [dependencies, get?_ensure, h, NodeRecord.new]
  · simp only [dependencies, get?_ensure, if_neg h]

theorem dependents_ensure (g : SymbolGraph) (id a : NodeId) (kind : SymbolKind) :
    (g.ensure id kind).dependents a = g.dependents a := by
  by_cases h : id = a ∧ ¬ g.contains a
  · rw [dependents_of_not_contains h.2]
    simp [dependents, get?_ensure, h, NodeRecord.new]
  · simp only [dependents, get?_ensure, if_neg h]

/-! ## Edges -/

theorem admits_iff {g : SymbolGraph} {a b : NodeId} :
    g.admits a b ↔ g.contains a ∧ g.contains b := by
  simp [admits]

/-- An edge changes the records of its two ends, one on either side, and a self-edge changes both
sides of one record. -/
theorem get?_addEdge {g : SymbolGraph} {a b : NodeId} (h : g.admits a b) (c : NodeId) :
    (g.addEdge a b).get? c = (g.get? c).map fun r =>
      { r with
        dependencies := if a = c then r.dependencies.insert b else r.dependencies
        dependents := if b = c then r.dependents.insert a else r.dependents } := by
  rw [addEdge, if_pos h]
  simp only [get?, Std.ExtTreeMap.getElem?_modify, Std.LawfulEqCmp.compare_eq_iff_eq]
  by_cases hb : b = c <;> by_cases ha : a = c <;> simp [hb, ha, Function.comp_def]

theorem contains_addEdge {g : SymbolGraph} {a b c : NodeId} :
    (g.addEdge a b).contains c ↔ g.contains c := by
  by_cases h : g.admits a b
  · simp [contains_iff, get?_addEdge h]
  · rw [addEdge, if_neg h]

/-- One edge more is listed at the node that it leaves, if both ends are nodes; nothing else changes
on this side. -/
theorem mem_dependencies_addEdge {g : SymbolGraph} {a b c d : NodeId} :
    d ∈ (g.addEdge a b).dependencies c ↔
      d ∈ g.dependencies c ∨ (g.admits a b ∧ a = c ∧ b = d) := by
  by_cases h : g.admits a b
  · obtain ⟨r, hr⟩ := Option.isSome_iff_exists.mp (contains_iff.mp (admits_iff.mp h).1)
    simp only [dependencies, get?_addEdge h, h, true_and]
    by_cases ha : a = c
    · subst ha
      simp [hr, Std.ExtTreeSet.mem_insert, or_comm]
    · cases g.get? c <;> simp [ha]
  · rw [addEdge, if_neg h]
    simp [h]

theorem mem_dependents_addEdge {g : SymbolGraph} {a b c d : NodeId} :
    d ∈ (g.addEdge a b).dependents c ↔
      d ∈ g.dependents c ∨ (g.admits a b ∧ b = c ∧ a = d) := by
  by_cases h : g.admits a b
  · obtain ⟨r, hr⟩ := Option.isSome_iff_exists.mp (contains_iff.mp (admits_iff.mp h).2)
    simp only [dependents, get?_addEdge h, h, true_and]
    by_cases hb : b = c
    · subst hb
      simp [hr, Std.ExtTreeSet.mem_insert, or_comm]
    · cases g.get? c <;> simp [hb]
  · rw [addEdge, if_neg h]
    simp [h]

theorem hasEdge_ensure {g : SymbolGraph} {id a b : NodeId} {kind : SymbolKind} :
    (g.ensure id kind).hasEdge a b ↔ g.hasEdge a b := by
  rw [hasEdge_iff, dependencies_ensure, hasEdge_iff]

theorem hasEdge_addEdge {g : SymbolGraph} {a b c d : NodeId} :
    (g.addEdge a b).hasEdge c d ↔ g.hasEdge c d ∨ (g.admits a b ∧ a = c ∧ b = d) := by
  rw [hasEdge_iff, mem_dependencies_addEdge, hasEdge_iff]

theorem contains_addEdges {g : SymbolGraph} {edges : List (NodeId × NodeId)} {c : NodeId} :
    (g.addEdges edges).contains c ↔ g.contains c := by
  unfold addEdges
  induction edges generalizing g with
  | nil => rfl
  | cons e edges ih => rw [List.foldl_cons, ih, contains_addEdge]

theorem admits_addEdge {g : SymbolGraph} {a b c d : NodeId} :
    (g.addEdge a b).admits c d ↔ g.admits c d := by
  rw [admits_iff, admits_iff, contains_addEdge, contains_addEdge]

/-- What one edge adds decides what a row of edges adds, by induction on the row. -/
theorem addEdges_iff {P : SymbolGraph → Prop} {c d : NodeId}
    (hstep : ∀ g a b, P (g.addEdge a b) ↔ P g ∨ (g.admits a b ∧ a = c ∧ b = d))
    {g : SymbolGraph} {edges : List (NodeId × NodeId)} :
    P (g.addEdges edges) ↔ P g ∨ (g.admits c d ∧ (c, d) ∈ edges) := by
  unfold addEdges
  induction edges generalizing g with
  | nil => simp
  | cons e edges ih =>
    obtain ⟨a, b⟩ := e
    rw [List.foldl_cons, ih, hstep, admits_addEdge, List.mem_cons, Prod.mk.injEq]
    constructor
    · rintro ((h | ⟨h, rfl, rfl⟩) | ⟨h, hm⟩)
      · exact .inl h
      · exact .inr ⟨h, .inl ⟨rfl, rfl⟩⟩
      · exact .inr ⟨h, .inr hm⟩
    · rintro (h | ⟨h, ⟨rfl, rfl⟩ | hm⟩)
      · exact .inl (.inl h)
      · exact .inl (.inr ⟨h, rfl, rfl⟩)
      · exact .inr ⟨h, hm⟩

theorem hasEdge_addEdges {g : SymbolGraph} {edges : List (NodeId × NodeId)} {c d : NodeId} :
    (g.addEdges edges).hasEdge c d ↔ g.hasEdge c d ∨ (g.admits c d ∧ (c, d) ∈ edges) :=
  addEdges_iff (P := (·.hasEdge c d)) fun _ _ _ => hasEdge_addEdge

/-! ## What growth keeps -/

/-- The two records of an edge agree, an edge ends at a node, and the file of a declaration is a
node. -/
structure WellFormed (g : SymbolGraph) : Prop where
  mirrored : ∀ a b, b ∈ g.dependencies a ↔ a ∈ g.dependents b
  target : ∀ a b, b ∈ g.dependencies a → g.contains b
  owner : ∀ path name, g.contains (.symbol path name) → g.contains (.file path)

theorem wellFormed_empty : WellFormed ∅ where
  mirrored a b := by
    rw [dependencies_of_not_contains (not_contains_empty a),
      dependents_of_not_contains (not_contains_empty b)]
    simp
  target a b h := by
    rw [dependencies_of_not_contains (not_contains_empty a)] at h
    simp at h
  owner _ _ h := absurd h (not_contains_empty _)

/-- A new node keeps a graph well formed, if it is a file or if that of its declaration is there. -/
theorem WellFormed.ensure {g : SymbolGraph} (hg : g.WellFormed) {id : NodeId}
    (kind : SymbolKind) (hid : id.isFile ∨ g.contains id.toFile) :
    (g.ensure id kind).WellFormed where
  mirrored a b := by
    rw [dependencies_ensure, dependents_ensure]
    exact hg.mirrored a b
  target a b h := by
    rw [dependencies_ensure] at h
    exact contains_ensure.mpr (.inr (hg.target a b h))
  owner path name h := by
    rcases contains_ensure.mp h with rfl | h
    · exact contains_ensure.mpr (.inr (hid.resolve_left (by simp [NodeId.isFile])))
    · exact contains_ensure.mpr (.inr (hg.owner path name h))

/-- An edge keeps a graph well formed: it is recorded on both sides or not at all. -/
theorem WellFormed.addEdge {g : SymbolGraph} (hg : g.WellFormed) (a b : NodeId) :
    (g.addEdge a b).WellFormed where
  mirrored c d := by
    rw [mem_dependencies_addEdge, mem_dependents_addEdge, hg.mirrored c d,
      and_comm (a := a = c)]
  target c d h := by
    rw [contains_addEdge]
    rcases mem_dependencies_addEdge.mp h with h | ⟨hab, -, rfl⟩
    · exact hg.target c d h
    · exact (admits_iff.mp hab).2
  owner path name h := by
    rw [contains_addEdge] at h ⊢
    exact hg.owner path name h

/-- Every step of growth keeps a graph well formed. It is the only place where the steps are told
apart. -/
theorem wellFormed_apply {g : SymbolGraph} (hg : g.WellFormed) (step : Growth) :
    (step.apply g).WellFormed := by
  cases step with
  | ensureFile path => exact hg.ensure .file (.inl rfl)
  | ensureSymbol path name kind =>
    exact (hg.ensure .file (.inl rfl)).ensure kind (.inr (contains_ensure.mpr (.inl rfl)))
  | addEdge a b => exact hg.addEdge a b

theorem wellFormed_foldl {g : SymbolGraph} (hg : g.WellFormed) (steps : List Growth) :
    (steps.foldl Growth.apply g).WellFormed := by
  induction steps generalizing g with
  | nil => exact hg
  | cons step steps ih => exact ih (wellFormed_apply hg step)

theorem Grown.wellFormed {g : SymbolGraph} (hg : g.Grown) : g.WellFormed := by
  obtain ⟨steps, rfl⟩ := hg
  exact wellFormed_foldl wellFormed_empty steps

theorem grown_empty : Grown ∅ := ⟨[], rfl⟩

theorem Grown.apply {g : SymbolGraph} (hg : g.Grown) (step : Growth) : (step.apply g).Grown := by
  obtain ⟨steps, rfl⟩ := hg
  exact ⟨steps ++ [step], List.foldl_append⟩

theorem Grown.addEdges {g : SymbolGraph} (hg : g.Grown) (edges : List (NodeId × NodeId)) :
    (g.addEdges edges).Grown :=
  List.foldlRecOn (motive := Grown) edges _ hg fun _ grown e _ => grown.apply (.addEdge e.1 e.2)

end SymbolGraph

end CodeAtlas
