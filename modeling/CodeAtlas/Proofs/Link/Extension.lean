import CodeAtlas.Link.Discovery
import CodeAtlas.Proofs.Link.Course
import CodeAtlas.Proofs.Link.Edges

/-!
# Linking extends the edges

Linking leaves the nodes as they are and adds a set of edges that is known beforehand: those that
the files call for between nodes of the graph. Neither the edges that are there already, nor the
questions asked before, nor the order of the files have a part in it (`link_extends`). A second
call finds all edges in the graph and all answers in the memory, so it changes neither and reports
nothing.

The graph may be any. It need not hold the nodes of the files, and its edges need not be recorded
on both sides.
-/

namespace CodeAtlas.Link

open CodeAtlas.Resolution CodeAtlas.Script

/-- Linking made `linked` of `graph`, and `left` of `memory`: the edges in `added` are there now,
and nothing else has changed. -/
structure Extends (resolver : Resolver) (cache : ProgramCache) (added : Finset Edge)
    (graph : SymbolGraph) (memory : Memory) (linked : SymbolGraph) (summary : LinkSummary)
    (left : Memory) : Prop where
  nodes : ∀ id, linked.contains id = graph.contains id
  /-- No node changes its kind, and no edge is lost. -/
  kept : graph.KeptIn linked
  dependencies : ∀ a b, b ∈ linked.dependencies a ↔ b ∈ graph.dependencies a ∨ (a, b) ∈ added
  dependents : ∀ a b, a ∈ linked.dependents b ↔ a ∈ graph.dependents b ∨ (a, b) ∈ added
  /-- The files may be linked in any order. -/
  anyOrder : ∀ files : List ParsedFile, files.Perm cache.toList →
    ((files.foldlM (linkFile resolver (interfacesOf cache)) graph).run memory).1 = linked
  /-- The difference of the two counts is taken of the larger one. -/
  grows : graph.edgeCount ≤ linked.edgeCount
  counted : summary.edges = (added \ graph.edges).card
  /-- A second call finds nothing to do, whatever was reported in between. -/
  again : ∀ diagnostics, (link resolver cache linked).run ⟨left.answers, diagnostics⟩ =
    ((linked, { summary with edges := 0 }), ⟨left.answers, diagnostics⟩)

namespace Landscape

variable {l : Landscape} {g : SymbolGraph}

/-- The edges that some files call for between nodes of the graph. -/
def calledEdges (l : Landscape) (files : List ParsedFile) : Finset Edge :=
  (files.flatMap l.plannedEdges).toFinset.filter fun e => l.graph.admits e.1 e.2

/-- The edges to add, as a set that neither knows the order of the files nor how often an edge is
called for. -/
theorem mem_calledEdges {files : List ParsedFile} {a b : NodeId} :
    (a, b) ∈ l.calledEdges files ↔ ∃ file ∈ files, l.Calls file a b := by
  simp only [calledEdges, Finset.mem_filter, List.mem_toFinset, List.mem_flatMap, mem_plannedEdges,
    Calls]
  constructor
  · rintro ⟨⟨file, hfile, interface, hinterface, hne, planned⟩, admits⟩
    exact ⟨file, hfile, interface, hinterface, hne, planned, admits⟩
  · rintro ⟨file, hfile, interface, hinterface, hne, planned, admits⟩
    exact ⟨⟨file, hfile, interface, hinterface, hne, planned⟩, admits⟩

theorem mem_calledEdges_iff (hnodes : ∀ id, g.contains id = l.graph.contains id)
    {files : List ParsedFile} {a b : NodeId} :
    (a, b) ∈ l.calledEdges files ↔ g.admits a b ∧ (a, b) ∈ files.flatMap l.plannedEdges := by
  have admits : g.admits a b = l.graph.admits a b := by
    rw [SymbolGraph.admits, SymbolGraph.admits, hnodes a, hnodes b]
  rw [calledEdges, Finset.mem_filter, List.mem_toFinset, admits, and_comm]

/-- The count of edges grows by the called edges that the graph did not have. -/
theorem edgeCount_addEdges (hnodes : ∀ id, g.contains id = l.graph.contains id)
    (files : List ParsedFile) :
    (g.addEdges (files.flatMap l.plannedEdges)).edgeCount =
      g.edgeCount + (l.calledEdges files \ g.edges).card := by
  have union : (g.addEdges (files.flatMap l.plannedEdges)).edges =
      g.edges ∪ l.calledEdges files := by
    ext ⟨a, b⟩
    rw [Finset.mem_union, SymbolGraph.mem_edges, SymbolGraph.mem_edges,
      SymbolGraph.hasEdge_addEdges, mem_calledEdges_iff hnodes]
  rw [← SymbolGraph.edgeCount_add_card_sdiff (SymbolGraph.edges_subset_addEdges g _), union,
    Finset.union_sdiff_left]

/-- Files linked in any order make the same graph. -/
theorem run_linkFiles_perm (hnodes : ∀ id, g.contains id = l.graph.contains id) {memory : Memory}
    (hmemory : memory.Faithful l.resolver) {files files' : List ParsedFile}
    (perm : files.Perm files') :
    ((files.foldlM (linkFile l.resolver l.interfaces) g).run memory).1 =
      g.addEdges (files'.flatMap l.plannedEdges) := by
  obtain ⟨asked, course⟩ := exists_course l files
  rw [course g hnodes memory hmemory]
  refine SymbolGraph.addEdges_congr fun e => ?_
  rw [List.mem_flatMap, List.mem_flatMap]
  simp only [perm.mem_iff]

end Landscape

/-- Over every graph with the nodes of `bare` and from every faithful memory, linking adds the same
row of edges and asks the same questions. -/
theorem exists_run_link (resolver : Resolver) (cache : ProgramCache) (bare : SymbolGraph) :
    ∃ asked, ∀ graph : SymbolGraph, (∀ id, graph.contains id = bare.contains id) →
      ∀ memory : Memory, memory.Faithful resolver →
        (link resolver cache graph).run memory =
          let linked := graph.addEdges (cache.toList.flatMap
            (Landscape.plannedEdges ⟨bare, interfacesOf cache, resolver⟩))
          ((linked, ⟨(plannedFiles (interfacesOf cache) cache).length,
            linked.edgeCount - graph.edgeCount⟩), resolver.after memory asked) := by
  obtain ⟨asked, course⟩ :=
    Landscape.exists_course ⟨bare, interfacesOf cache, resolver⟩ cache.toList
  refine ⟨asked, fun graph hnodes memory hmemory => ?_⟩
  unfold link
  dsimp only
  rw [StateT.run_bind, course graph hnodes memory hmemory]
  rfl

/-- **Linking is a pure and idempotent extension of the edges.** The edges to add are fixed by the
resolver, the cache and the nodes of a graph. Over every graph with these nodes, and whatever the
resolver was asked before, linking adds just these edges, in whatever order it goes through the
files. It reports how many of them are new, and does nothing when it is called again. -/
theorem link_extends (resolver : Resolver) (cache : ProgramCache) (bare : SymbolGraph) :
    ∃ added : Finset Edge,
      (∀ a b, (a, b) ∈ added ↔ ∃ file ∈ cache.toList,
        Landscape.Calls ⟨bare, interfacesOf cache, resolver⟩ file a b) ∧
      ∀ graph : SymbolGraph, (∀ id, graph.contains id = bare.contains id) →
        ∀ memory : Memory, memory.Faithful resolver →
          ∃ linked summary left,
            (link resolver cache graph).run memory = ((linked, summary), left) ∧
              Extends resolver cache added graph memory linked summary left := by
  let l : Landscape := ⟨bare, interfacesOf cache, resolver⟩
  refine ⟨l.calledEdges cache.toList, fun a b => Landscape.mem_calledEdges, ?_⟩
  intro graph hnodes memory hmemory
  obtain ⟨asked, run⟩ := exists_run_link resolver cache bare
  refine ⟨_, _, _, run graph hnodes memory hmemory, ?_⟩
  set planned := cache.toList.flatMap l.plannedEdges
  have same : ∀ id, (graph.addEdges planned).contains id = graph.contains id :=
    SymbolGraph.contains_addEdges_eq graph planned
  have total : (graph.addEdges planned).edgeCount =
      graph.edgeCount + (l.calledEdges cache.toList \ graph.edges).card :=
    Landscape.edgeCount_addEdges hnodes cache.toList
  refine
    { nodes := same
      kept := SymbolGraph.keptIn_addEdges graph planned
      dependencies := ?dependencies
      dependents := ?dependents
      anyOrder := fun files perm => Landscape.run_linkFiles_perm (l := l) hnodes hmemory perm
      grows := by omega
      counted := by dsimp only; omega
      again := ?again }
  case dependencies =>
    intro a b
    rw [SymbolGraph.mem_dependencies_addEdges, Landscape.mem_calledEdges_iff hnodes]
  case dependents =>
    intro a b
    rw [SymbolGraph.mem_dependents_addEdges, Landscape.mem_calledEdges_iff hnodes]
  case again =>
    intro diagnostics
    have faithful : Memory.Faithful resolver
        ⟨(resolver.after memory asked).answers, diagnostics⟩ := hmemory.after asked
    have held : ∀ q ∈ asked, Memory.Holds ⟨(resolver.after memory asked).answers, diagnostics⟩ q :=
      holds_after resolver memory asked
    rw [run _ (fun id => (same id).trans (hnodes id)) _ faithful, after_of_holds held]
    dsimp only
    rw [SymbolGraph.addEdges_addEdges, Nat.sub_self]

/-- Two files, of which the first imports a variable of the second and uses it. -/
def importingFiles : ProgramCache :=
  (ProgramCache.build readScript
    [⟨"a.ts", "import { x } from './b'\nexport const f = x"⟩, ⟨"b.ts", "export const x = 1"⟩]).1

/-- One of the two edges is there before, and the resolver was asked before. -/
theorem link_extends_importing_files :
    let bare := discover importingFiles ∅
    let graph := bare.addEdge (.file "a.ts") (.symbol "b.ts" "x")
    let resolver : Resolver := ⟨.ofList ["a.ts", "b.ts"], ⟨[], []⟩⟩
    let memory := resolver.after ∅ [("a.ts", "./b")]
    (∀ id, graph.contains id = bare.contains id) ∧ memory.Faithful resolver ∧
      ∃ added linked summary left,
        (link resolver importingFiles graph).run memory = ((linked, summary), left) ∧
          Extends resolver importingFiles added graph memory linked summary left ∧
          summary = ⟨2, 1⟩ := by
  intro bare graph resolver memory
  have hnodes : ∀ id, graph.contains id = bare.contains id :=
    fun id => Bool.eq_iff_iff.mpr SymbolGraph.contains_addEdge
  have faithful : memory.Faithful resolver := (Memory.faithful_new []).after _
  obtain ⟨added, -, extension⟩ := link_extends resolver importingFiles bare
  obtain ⟨linked, summary, left, run, extended⟩ := extension graph hnodes memory faithful
  have reported : ((link resolver importingFiles graph).run memory).1.2 = ⟨2, 1⟩ := by
    decide +kernel
  rw [run] at reported
  exact ⟨hnodes, faithful, added, linked, summary, left, run, extended, reported⟩

end CodeAtlas.Link
