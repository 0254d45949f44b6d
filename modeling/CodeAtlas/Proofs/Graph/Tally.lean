import CodeAtlas.Proofs.Graph.Growth
import Mathlib.Algebra.Ring.Nat
import Mathlib.Data.Finset.Card
import Mathlib.Data.List.Nodup

/-!
# The counts of a graph that grows

The edges of a grown graph are the pairs that `addEdge` accepted on the way (`hasEdge_foldl`),
each recorded once on either side. All counts therefore count one set of pairs: the edges listed
from the nodes they leave and the edges listed from the nodes they reach are two lists without
duplicates and with the same members. Every record names the node it is stored under
(`Labelled`), and no step takes anything back (`KeptIn`). Together with `WellFormed` this is
`run_tally`.

A graph may have self-edges, and a run may add an edge any number of times; it counts once.
-/

namespace CodeAtlas

/-- The edge that a step adds to `g`, unless one of its ends is no node of `g`. -/
def Growth.accepted (g : SymbolGraph) : Growth → List (NodeId × NodeId)
  | addEdge a b => if g.admits a b then [(a, b)] else []
  | _ => []

/-- The node, its kind and its edges are found again in `r'`. -/
structure NodeRecord.KeptIn (r r' : NodeRecord) : Prop where
  id : r'.id = r.id
  kind : r'.kind = r.kind
  dependencies : ∀ b ∈ r.dependencies, b ∈ r'.dependencies
  dependents : ∀ b ∈ r.dependents, b ∈ r'.dependents

theorem NodeRecord.KeptIn.refl (r : NodeRecord) : r.KeptIn r :=
  ⟨rfl, rfl, fun _ h => h, fun _ h => h⟩

theorem NodeRecord.KeptIn.trans {r s t : NodeRecord} (h : r.KeptIn s) (h' : s.KeptIn t) :
    r.KeptIn t where
  id := h'.id.trans h.id
  kind := h'.kind.trans h.kind
  dependencies b hb := h'.dependencies b (h.dependencies b hb)
  dependents b hb := h'.dependents b (h.dependents b hb)

namespace SymbolGraph

variable {g g' g'' : SymbolGraph} {a b : NodeId}

/-! ## The edges of a run -/

/-- The edges that `addEdge` accepts while `steps` lead on from `g`, in order. -/
def acceptedEdges (g : SymbolGraph) : List Growth → List (NodeId × NodeId)
  | [] => []
  | step :: steps => step.accepted g ++ acceptedEdges (step.apply g) steps

theorem not_hasEdge_empty : ¬ (∅ : SymbolGraph).hasEdge a b :=
  fun h => not_contains_empty a (contains_of_hasEdge h)

theorem hasEdge_apply {step : Growth} :
    (step.apply g).hasEdge a b ↔ g.hasEdge a b ∨ (a, b) ∈ step.accepted g := by
  cases step with
  | ensureFile path =>
    rw [Growth.apply, ensureFile, hasEdge_ensure]
    simp [Growth.accepted]
  | ensureSymbol path name kind =>
    rw [Growth.apply, ensureSymbol, hasEdge_ensure, ensureFile, hasEdge_ensure]
    simp [Growth.accepted]
  | addEdge c d =>
    rw [Growth.apply, hasEdge_addEdge, Growth.accepted]
    by_cases h : g.admits c d
    · rw [if_pos h, List.mem_singleton, Prod.mk.injEq, eq_comm (a := a), eq_comm (a := b)]
      simp only [h, true_and]
    · simp [h]

/-- The edges of a run are those that `addEdge` accepted on the way; an edge whose ends were not
both there yet is lost, even if they come later. -/
theorem hasEdge_foldl {steps : List Growth} :
    (steps.foldl Growth.apply g).hasEdge a b ↔
      g.hasEdge a b ∨ (a, b) ∈ acceptedEdges g steps := by
  induction steps generalizing g with
  | nil => simp [acceptedEdges]
  | cons step steps ih =>
    rw [List.foldl_cons, ih, hasEdge_apply, acceptedEdges, List.mem_append, or_assoc]

/-! ## Records under their own name -/

/-- Every record names the node that it is stored under. -/
def Labelled (g : SymbolGraph) : Prop := ∀ id r, g.get? id = some r → r.id = id

theorem labelled_empty : Labelled ∅ := by
  intro id r h
  have stored : (∅ : SymbolGraph).contains id := contains_iff.mpr (Option.isSome_of_eq_some h)
  exact absurd stored (not_contains_empty id)

theorem Labelled.ensure (hg : g.Labelled) (id : NodeId) (kind : SymbolKind) :
    (g.ensure id kind).Labelled := by
  intro c r h
  rw [get?_ensure] at h
  split at h
  · rename_i new
    obtain rfl := Option.some.inj h
    exact new.1
  · exact hg c r h

theorem Labelled.addEdge (hg : g.Labelled) (a b : NodeId) : (g.addEdge a b).Labelled := by
  intro c r h
  by_cases hab : g.admits a b
  · rw [get?_addEdge hab] at h
    obtain ⟨old, hold, rfl⟩ := Option.map_eq_some_iff.mp h
    exact hg c old hold
  · rw [SymbolGraph.addEdge, if_neg hab] at h
    exact hg c r h

/-- Every step keeps a record under the name that it tells, since records are only made for new
nodes and only their edges change. -/
theorem labelled_apply (hg : g.Labelled) (step : Growth) : (step.apply g).Labelled := by
  cases step with
  | ensureFile path => exact hg.ensure _ _
  | ensureSymbol path name kind => exact (hg.ensure _ _).ensure _ _
  | addEdge a b => exact hg.addEdge a b

theorem labelled_foldl (hg : g.Labelled) (steps : List Growth) :
    (steps.foldl Growth.apply g).Labelled :=
  List.foldlRecOn steps Growth.apply hg fun _ labelled step _ => labelled_apply labelled step

theorem Grown.labelled (hg : g.Grown) : g.Labelled := by
  obtain ⟨steps, rfl⟩ := hg
  exact labelled_foldl labelled_empty steps

/-! ## Nothing is taken back -/

/-- Every node of `g` is a node of `g'`, of the same kind and with at least the same edges. -/
def KeptIn (g g' : SymbolGraph) : Prop :=
  ∀ id r, g.get? id = some r → ∃ r', g'.get? id = some r' ∧ r.KeptIn r'

theorem KeptIn.refl (g : SymbolGraph) : g.KeptIn g := fun _ r h => ⟨r, h, .refl r⟩

theorem KeptIn.trans (h : g.KeptIn g') (h' : g'.KeptIn g'') : g.KeptIn g'' := by
  intro id r hr
  obtain ⟨s, hs, hrs⟩ := h id r hr
  obtain ⟨t, ht, hst⟩ := h' id s hs
  exact ⟨t, ht, hrs.trans hst⟩

theorem keptIn_ensure (id : NodeId) (kind : SymbolKind) : g.KeptIn (g.ensure id kind) := by
  intro c r hr
  have stored : g.contains c := contains_iff.mpr (Option.isSome_of_eq_some hr)
  refine ⟨r, ?_, .refl r⟩
  rw [get?_ensure, if_neg (fun new => new.2 stored), hr]

/-- An edge takes nothing away from any record, not even where it is refused. -/
theorem keptIn_addEdge (a b : NodeId) : g.KeptIn (g.addEdge a b) := by
  by_cases hab : g.admits a b
  · intro c r hr
    have found := get?_addEdge hab c
    rw [hr, Option.map_some] at found
    refine ⟨_, found, rfl, rfl, ?_, ?_⟩
    · intro d hd
      dsimp only
      split
      · exact Std.ExtTreeSet.mem_insert.mpr (.inr hd)
      · exact hd
    · intro d hd
      dsimp only
      split
      · exact Std.ExtTreeSet.mem_insert.mpr (.inr hd)
      · exact hd
  · rw [addEdge, if_neg hab]
    exact .refl g

theorem keptIn_apply (step : Growth) : g.KeptIn (step.apply g) := by
  cases step with
  | ensureFile path => exact keptIn_ensure _ _
  | ensureSymbol path name kind => exact (keptIn_ensure _ _).trans (keptIn_ensure _ _)
  | addEdge a b => exact keptIn_addEdge a b

theorem keptIn_foldl (steps : List Growth) : g.KeptIn (steps.foldl Growth.apply g) :=
  List.foldlRecOn steps Growth.apply (.refl g) fun _ kept step _ => kept.trans (keptIn_apply step)

/-! ## Lists of pairs -/

section Pairs

variable {side : NodeRecord → NodeSet} {entries : List (NodeId × NodeRecord)}

/-- The pairs of a node and a member of the set that `side` reads from its record. -/
def pairsOf (side : NodeRecord → NodeSet) (entries : List (NodeId × NodeRecord)) :
    List (NodeId × NodeId) :=
  entries.flatMap fun (id, r) => (side r).toList.map (id, ·)

theorem mem_pairsOf :
    (a, b) ∈ pairsOf side entries ↔ ∃ r, (a, r) ∈ entries ∧ b ∈ side r := by
  simp only [pairsOf, List.mem_flatMap, List.mem_map, Prod.exists, Prod.mk.injEq,
    Std.ExtTreeSet.mem_toList]
  constructor
  · rintro ⟨_, r, hr, _, hb, rfl, rfl⟩
    exact ⟨r, hr, hb⟩
  · rintro ⟨r, hr, hb⟩
    exact ⟨a, r, hr, b, hb, rfl, rfl⟩

theorem length_pairsOf :
    (pairsOf side entries).length = (entries.map fun (_, r) => (side r).size).sum := by
  rw [pairsOf, List.length_flatMap]
  simp only [List.length_map, Std.ExtTreeSet.length_toList]

/-- Pairs do not repeat if neither the nodes in front nor those that go with one of them do. -/
theorem nodup_pairs {α : Type} {key : α → NodeId} {others : α → List NodeId} {l : List α}
    (hkey : l.Pairwise fun x y => key x ≠ key y) (hothers : ∀ x ∈ l, (others x).Nodup) :
    (l.flatMap fun x => (others x).map (key x, ·)).Nodup := by
  refine List.nodup_flatMap.mpr ⟨?_, ?_⟩
  · intro x hx
    exact (hothers x hx).map fun _ _ heq => (Prod.mk.inj heq).2
  · refine hkey.imp ?_
    rintro x y hne ⟨c, d⟩ hc hd
    obtain ⟨_, -, hc⟩ := List.mem_map.mp hc
    obtain ⟨_, -, hd⟩ := List.mem_map.mp hd
    exact hne ((Prod.mk.inj hc).1.trans (Prod.mk.inj hd).1.symm)

theorem nodup_pairsOf (h : entries.Pairwise fun x y => x.1 ≠ y.1) :
    (pairsOf side entries).Nodup := by
  refine nodup_pairs h ?_
  rintro ⟨id, r⟩ -
  exact Std.ExtTreeSet.distinct_toList.imp fun h => mt Std.LawfulEqCmp.compare_eq_iff_eq.mpr h

end Pairs

theorem mem_toList {r : NodeRecord} : (a, r) ∈ g.toList ↔ g.get? a = some r :=
  Std.ExtTreeMap.mem_toList_iff_getElem?_eq_some

theorem pairwise_toList : g.toList.Pairwise fun x y => x.1 ≠ y.1 :=
  Std.ExtTreeMap.distinct_keys_toList.imp fun h => mt Std.LawfulEqCmp.compare_eq_iff_eq.mpr h

theorem mem_dependencies_iff :
    b ∈ g.dependencies a ↔ ∃ r, g.get? a = some r ∧ b ∈ r.dependencies := by
  rw [dependencies]
  cases g.get? a <;> simp

theorem mem_dependents_iff :
    b ∈ g.dependents a ↔ ∃ r, g.get? a = some r ∧ b ∈ r.dependents := by
  rw [dependents]
  cases g.get? a <;> simp

theorem mem_pairsOf_dependencies :
    (a, b) ∈ pairsOf NodeRecord.dependencies g.toList ↔ g.hasEdge a b := by
  simp only [mem_pairsOf, mem_toList, hasEdge_iff, mem_dependencies_iff]

theorem mem_pairsOf_dependents :
    (a, b) ∈ pairsOf NodeRecord.dependents g.toList ↔ b ∈ g.dependents a := by
  simp only [mem_pairsOf, mem_toList, mem_dependents_iff]

/-! ## The counts -/

theorem length_eq_card {pairs edges : List (NodeId × NodeId)} (hnodup : pairs.Nodup)
    (hmem : ∀ e, e ∈ pairs ↔ e ∈ edges) : pairs.length = edges.toFinset.card := by
  have same : pairs.toFinset = edges.toFinset := by
    ext e
    simp only [List.mem_toFinset, hmem]
  rw [← same, List.toFinset_card_of_nodup hnodup]

variable {edges : List (NodeId × NodeId)}

/-- Counted from the nodes that they leave, the edges are as many as there are accepted pairs: a
repeated edge counts once. -/
theorem edgeCount_eq_card (hedges : ∀ a b, g.hasEdge a b ↔ (a, b) ∈ edges) :
    g.edgeCount = edges.toFinset.card := by
  have counted : g.edgeCount = (pairsOf NodeRecord.dependencies g.toList).length := by
    rw [length_pairsOf, edgeCount, List.sum_eq_foldr]
  rw [counted]
  refine length_eq_card (nodup_pairsOf pairwise_toList) ?_
  rintro ⟨a, b⟩
  rw [mem_pairsOf_dependencies, hedges]

/-- Counted from the nodes that they reach, the edges are as many. Well-formedness makes the second
list one of the same pairs. -/
theorem sum_dependents_eq_card (wf : g.WellFormed)
    (hedges : ∀ a b, g.hasEdge a b ↔ (a, b) ∈ edges) :
    (g.toList.map fun (_, r) => r.dependents.size).sum = edges.toFinset.card := by
  let back := (pairsOf NodeRecord.dependents g.toList).map Prod.swap
  have counted : (g.toList.map fun (_, r) => r.dependents.size).sum = back.length := by
    rw [List.length_map, length_pairsOf]
  rw [counted]
  refine length_eq_card ((nodup_pairsOf pairwise_toList).map Prod.swap_injective) ?_
  rintro ⟨a, b⟩
  rw [List.mem_map, ← hedges, hasEdge_iff, wf.mirrored, ← mem_pairsOf_dependents]
  constructor
  · rintro ⟨⟨c, d⟩, h, heq⟩
    obtain ⟨rfl, rfl⟩ := Prod.mk.inj heq
    exact h
  · intro h
    exact ⟨(b, a), h, rfl⟩

/-- The edges of declarations are those of the accepted pairs that do not start at a file. -/
theorem symbolEdges_eq_card (hg : g.Labelled) (hedges : ∀ a b, g.hasEdge a b ↔ (a, b) ∈ edges) :
    g.statistics.symbolEdges = (edges.filter fun e => !e.1.isFile).toFinset.card := by
  let symbols := g.toList.filter fun (_, r) => !r.id.isFile
  have counted : g.statistics.symbolEdges = (pairsOf NodeRecord.dependencies symbols).length := by
    rw [length_pairsOf, statistics, List.sum_eq_foldr]
  rw [counted]
  refine length_eq_card (nodup_pairsOf (pairwise_toList.filter _)) ?_
  rintro ⟨a, b⟩
  rw [List.mem_filter, ← hedges, ← mem_pairsOf_dependencies, mem_pairsOf, mem_pairsOf]
  simp only [symbols, List.mem_filter, mem_toList]
  constructor
  · rintro ⟨r, ⟨hr, hsymbol⟩, hb⟩
    rw [hg a r hr] at hsymbol
    exact ⟨⟨r, hr, hb⟩, hsymbol⟩
  · rintro ⟨⟨r, hr, hb⟩, hsymbol⟩
    rw [← hg a r hr] at hsymbol
    exact ⟨r, ⟨hr, hsymbol⟩, hb⟩

theorem fileNodes_add_symbolNodes (g : SymbolGraph) :
    g.statistics.fileNodes + g.statistics.symbolNodes = g.size := by
  have total : g.toList.length = g.size := Std.ExtTreeMap.length_toList
  rw [← total, List.length_eq_length_filter_add fun e : NodeId × NodeRecord => e.2.id.isFile]
  rfl

/-- A graph has as many file nodes as it lists files, since no record is stored under another name
than its own. -/
theorem fileNodes_eq_length_files (hg : g.Labelled) :
    g.statistics.fileNodes = g.files.length := by
  have own : g.toList.filter (fun e => e.2.id.isFile) = g.toList.filter (fun e => e.1.isFile) := by
    refine List.filter_congr ?_
    rintro ⟨a, r⟩ hr
    rw [hg a r (mem_toList.mp hr)]
  have keys : g.nodes.keys = g.toList.map Prod.fst := Std.ExtTreeMap.map_fst_toList_eq_keys.symm
  rw [files, keys, List.length_map, List.filter_map, List.length_map]
  exact congrArg List.length own

/-- Nothing is missing on the other side when that is asked in the form `lopsidedEdges` has. -/
theorem filter_missing_eq_nil {side : NodeRecord → NodeSet} {others : List NodeId}
    (h : ∀ b ∈ others, ∃ r, g.get? b = some r ∧ a ∈ side r) :
    (others.filter fun b => !((g.get? b).map fun r => (side r).contains a).getD false) = [] := by
  refine List.filter_eq_nil_iff.mpr ?_
  intro b hb
  obtain ⟨r, hr, ha⟩ := h b hb
  simp [hr, ha]

/-- No edge is recorded on one side only. The check that the graph offers for this finds nothing in
any run. -/
theorem lopsidedEdges_eq_nil (hg : g.Labelled) (wf : g.WellFormed) : g.lopsidedEdges = [] := by
  refine List.flatMap_eq_nil_iff.mpr ?_
  rintro ⟨a, r⟩ hr
  have stored : g.get? a = some r := mem_toList.mp hr
  obtain rfl : r.id = a := hg a r stored
  have forth : ∀ b ∈ r.dependencies.toList, ∃ t, g.get? b = some t ∧ r.id ∈ t.dependents := by
    intro b hb
    have out : b ∈ g.dependencies r.id :=
      mem_dependencies_iff.mpr ⟨r, stored, Std.ExtTreeSet.mem_toList.mp hb⟩
    exact mem_dependents_iff.mp ((wf.mirrored _ _).mp out)
  have back : ∀ b ∈ r.dependents.toList, ∃ s, g.get? b = some s ∧ r.id ∈ s.dependencies := by
    intro b hb
    have into : b ∈ g.dependents r.id :=
      mem_dependents_iff.mpr ⟨r, stored, Std.ExtTreeSet.mem_toList.mp hb⟩
    exact mem_dependencies_iff.mp ((wf.mirrored _ _).mpr into)
  dsimp only
  rw [filter_missing_eq_nil forth, filter_missing_eq_nil back]
  rfl

/-! ## A whole run -/

/-- **A graph that grows.** What a graph is after any steps from the empty one, and what any further
steps do to it: every record names its node, both sides of the edges agree and are counted alike, an
edge is there if and only if it was accepted on the way, and nothing is ever taken back. -/
theorem run_tally (steps : List Growth) :
    let g : SymbolGraph := steps.foldl Growth.apply ∅
    let accepted := acceptedEdges ∅ steps
    -- the nodes
    (∀ id r, g.get? id = some r → r.id = id) ∧
    (∀ path name, g.contains (.symbol path name) → g.contains (.file path)) ∧
    -- the two sides of the edges
    (∀ a b, b ∈ g.dependencies a ↔ a ∈ g.dependents b) ∧
    (∀ a b, g.hasEdge a b → g.contains a ∧ g.contains b) ∧
    g.lopsidedEdges = [] ∧
    -- the counts
    (∀ a b, g.hasEdge a b ↔ (a, b) ∈ accepted) ∧
    g.edgeCount = (g.toList.map fun (_, r) => r.dependencies.size).sum ∧
    g.edgeCount = (g.toList.map fun (_, r) => r.dependents.size).sum ∧
    g.edgeCount = accepted.toFinset.card ∧
    g.statistics.fileNodes + g.statistics.symbolNodes = g.size ∧
    g.statistics.edges = g.edgeCount ∧
    g.statistics.symbolEdges = (accepted.filter fun e => !e.1.isFile).toFinset.card ∧
    -- the next steps
    (∀ a b, g.admits a b = false ↔ ¬ g.contains a ∨ ¬ g.contains b) ∧
    (∀ a b, g.admits a b = false → g.addEdge a b = g) ∧
    ∀ further : List Growth, g.KeptIn (further.foldl Growth.apply g) := by
  intro g accepted
  have wf : g.WellFormed := wellFormed_foldl wellFormed_empty steps
  have labelled : g.Labelled := labelled_foldl labelled_empty steps
  have edges : ∀ a b, g.hasEdge a b ↔ (a, b) ∈ accepted := by
    intro a b
    rw [hasEdge_foldl]
    exact or_iff_right not_hasEdge_empty
  have count : g.edgeCount = accepted.toFinset.card := edgeCount_eq_card edges
  refine ⟨labelled, wf.owner, wf.mirrored, ?ends, lopsidedEdges_eq_nil labelled wf, edges, ?out,
    ?into, count, fileNodes_add_symbolNodes g, rfl, symbolEdges_eq_card labelled edges, ?refused,
    ?unchanged, keptIn_foldl⟩
  case ends =>
    intro a b h
    exact ⟨contains_of_hasEdge h, wf.target a b (hasEdge_iff.mp h)⟩
  case out => rw [edgeCount, List.sum_eq_foldr]
  case into => rw [count, sum_dependents_eq_card wf edges]
  case refused =>
    intro a b
    rw [← Bool.not_eq_true, admits_iff, not_and_or]
  case unchanged =>
    intro a b h
    rw [addEdge, if_neg (by simp [h])]

end SymbolGraph

end CodeAtlas
