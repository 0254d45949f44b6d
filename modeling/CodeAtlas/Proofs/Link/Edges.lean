import CodeAtlas.Proofs.Graph.Growth
import CodeAtlas.Proofs.Link.Plan

/-!
# The edges that linking adds

Linking goes from file to file and plans each against the graph that the files before it left.
The nodes never change, so every plan is the one over the first graph: linking keeps the nodes,
and adds just the edges that some file calls for between nodes that are there (`link_edges`).
-/

namespace CodeAtlas.Link

open CodeAtlas.Resolution CodeAtlas.Script

namespace Landscape

/-- The file calls for an edge, which is no loop and has nodes at both ends. -/
def Calls (l : Landscape) (file : ParsedFile) (a b : NodeId) : Prop :=
  ∃ interface, l.interfaces[file.path]? = some interface ∧ a ≠ b ∧
    l.Planned file interface a b ∧ l.graph.admits a b

/-- The graph has the nodes of the landscape, and besides the edges of `old` those that some of
the files call for. -/
structure LinkedBy (l : Landscape) (old : SymbolGraph) (files : List ParsedFile)
    (g : SymbolGraph) : Prop where
  nodes : ∀ id, g.contains id = l.graph.contains id
  edges : ∀ a b, g.hasEdge a b ↔ old.hasEdge a b ∨ ∃ file ∈ files, l.Calls file a b

variable {l : Landscape} {g : SymbolGraph}

/-- Linking a file adds the edges that it calls for, whatever edges the graph has. -/
theorem exists_linkFile (hnodes : ∀ id, g.contains id = l.graph.contains id) (file : ParsedFile) :
    ∃ g', Answers l.resolver (linkFile l.resolver l.interfaces g file) g' ∧
      l.LinkedBy g [file] g' := by
  unfold linkFile
  cases hinterface : l.interfaces[file.path]? with
  | none =>
    refine ⟨g, answers_pure g, hnodes, ?_⟩
    simp [Calls, hinterface]
  | some interface =>
    obtain ⟨edges, hplan, hedges⟩ := exists_plan hnodes file interface
    refine ⟨g.addEdges edges, hplan.bind (answers_pure _), ?_, ?_⟩
    · intro id
      rw [← hnodes id, Bool.eq_iff_iff]
      exact SymbolGraph.contains_addEdges
    · intro a b
      have admits : g.admits a b = l.graph.admits a b := by
        rw [SymbolGraph.admits, SymbolGraph.admits, hnodes a, hnodes b]
      rw [SymbolGraph.hasEdge_addEdges, hedges, admits]
      simp only [Calls, hinterface, List.mem_singleton, exists_eq_left, Option.some.injEq,
        exists_eq_left']
      tauto

/-- Linking some files in a row, by induction on them: the nodes are kept, and each file adds
what it calls for. -/
theorem exists_linkFiles (hnodes : ∀ id, g.contains id = l.graph.contains id)
    (files : List ParsedFile) :
    ∃ g', Answers l.resolver (files.foldlM (linkFile l.resolver l.interfaces) g) g' ∧
      l.LinkedBy g files g' := by
  induction files generalizing g with
  | nil => exact ⟨g, answers_pure g, hnodes, by simp⟩
  | cons file files ih =>
    obtain ⟨g₁, hfirst, linked⟩ := exists_linkFile hnodes file
    obtain ⟨g₂, hrest, rest⟩ := ih linked.nodes
    refine ⟨g₂, ?_, rest.nodes, ?_⟩
    · rw [List.foldlM_cons]
      exact hfirst.bind hrest
    · intro a b
      rw [rest.edges, linked.edges]
      simp only [List.mem_cons, List.not_mem_nil, or_false, exists_eq_left, exists_eq_or_imp]
      rw [or_assoc]

end Landscape

/-- Linking keeps the nodes and adds the edges that the programs call for. Origins are traced over
the nodes, which are there before the first file is linked. -/
theorem link_edges (resolver : Resolver) (cache : ProgramCache) (graph : SymbolGraph)
    {memory : Memory} (hmemory : memory.Faithful resolver) :
    Landscape.LinkedBy ⟨graph, interfacesOf cache, resolver⟩ graph cache.toList
      ((link resolver cache graph).run memory).1.1 := by
  obtain ⟨g, answers, linked⟩ :=
    Landscape.exists_linkFiles (l := ⟨graph, interfacesOf cache, resolver⟩) (fun _ => rfl)
      cache.toList
  have result : ((link resolver cache graph).run memory).1.1 = g := (answers memory hmemory).1
  rw [result]
  exact linked

end CodeAtlas.Link
