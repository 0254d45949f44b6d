import CodeAtlas.Proofs.Build.Phases
import CodeAtlas.Proofs.Graph.Duality
import CodeAtlas.Proofs.Link.Kinds

/-!
# The nodes of a built graph

`ExactNodes` says which nodes the graph of some parsed files has, and of which kinds they are:
the files and the symbols that they declare, and no others. Both ways of building yield such a
graph whenever the aliases make sense (`build_nodes_exact`). Discovery alone decides about the
nodes. It may be run again at any time, since linking neither adds a node nor changes a kind, and a
trace only lists files of nodes.

A text that is given up declares nothing, so its file has no node, even if others import it.
-/

namespace CodeAtlas

open CodeAtlas.Link CodeAtlas.Resolution CodeAtlas.Script

/-- The nodes of the graph of some parsed files, and their kinds. -/
structure ExactNodes (cache : ProgramCache) (g : SymbolGraph) : Prop where
  file : ∀ path, g.contains (.file path) ↔ cache.contains path
  symbol : ∀ path name, g.contains (.symbol path name) ↔
    ∃ file, cache.files[path]? = some file ∧ ∃ s ∈ file.program.declaredSymbols, s.name = name
  fileKind : ∀ path, cache.contains path → g.kind? (.file path) = some .file
  /-- Of several declarations of one name the first decides. -/
  symbolKind : ∀ path name file s, cache.files[path]? = some file →
    file.program.declaredSymbols.find? (·.name = name) = some s →
    g.kind? (.symbol path name) = some s.kind

/-- The nodes of a build, in which discovery is run again and traces are taken. -/
structure SettledNodes (cache : ProgramCache) (build : GraphBuild) : Prop where
  nodes : ExactNodes cache build.graph
  counted : build.stats.filesDiscovered = (discoverAll cache ∅).2
  /-- Discovery changes nothing if it is run again before linking, nor if it is after. -/
  unlinked : discoverAll cache (discoverAll cache ∅).1 = discoverAll cache ∅
  linked : discoverAll cache build.graph = (build.graph, build.stats.filesDiscovered)
  traced : ∀ start direction maxHops,
    ∀ path ∈ (build.graph.trace start direction maxHops).paths, cache.contains path

variable {cache : ProgramCache} {resolver : Resolver}

/-! ## Kinds -/

/-- Linking changes no kind, so the kind of a node is the one that the program of its file declares
first. -/
theorem kind?_assembled (hkeyed : cache.Keyed) (resolver : Resolver) (id : NodeId) :
    (assembled resolver cache).1.1.kind? id =
      (cache.files[id.path]?).bind (declaredKind? · id) := by
  rw [assembled, kind?_link, kind?_discover, SymbolGraph.kind?_empty, Option.none_or,
    findSome?_declaredKind? hkeyed]

theorem declaredKind?_file {file : ParsedFile} {path : String} (h : file.path = path) :
    declaredKind? file (.file path) = some .file := by
  simp [declaredKind?, h]

theorem declaredKind?_symbol {file : ParsedFile} {path : String} (h : file.path = path)
    (name : String) :
    declaredKind? file (.symbol path name) =
      (file.program.declaredSymbols.find? (·.name = name)).map DeclaredSymbol.kind := by
  simp [declaredKind?, symbolKind?, h]

/-- The kinds of a graph say all about its nodes, since a node is there if and only if it has a
kind. -/
theorem exactNodes_of_kind? (hkeyed : cache.Keyed) {g : SymbolGraph}
    (h : ∀ id, g.kind? id = (cache.files[id.path]?).bind (declaredKind? · id)) :
    ExactNodes cache g := by
  have fileKind : ∀ path file, cache.files[path]? = some file →
      g.kind? (.file path) = some .file := by
    intro path file hfile
    rw [h, NodeId.path, hfile, Option.bind_some, declaredKind?_file (hkeyed path file hfile)]
  have symbolKind : ∀ path name file, cache.files[path]? = some file →
      g.kind? (.symbol path name) =
        (file.program.declaredSymbols.find? (·.name = name)).map DeclaredSymbol.kind := by
    intro path name file hfile
    rw [h, NodeId.path, hfile, Option.bind_some, declaredKind?_symbol (hkeyed path file hfile)]
  have other : ∀ id, cache.files[id.path]? = none → ¬ g.contains id := by
    intro id hnone
    simp [← SymbolGraph.isSome_kind?, h, hnone]
  refine ⟨?file, ?symbol, ?fileKind, ?symbolKind⟩
  case file =>
    intro path
    rw [ProgramCache.contains_iff]
    cases hfile : cache.files[path]? with
    | none => simp [other (.file path) hfile]
    | some file => simp [← SymbolGraph.isSome_kind?, fileKind path file hfile]
  case symbol =>
    intro path name
    cases hfile : cache.files[path]? with
    | none => simp [other (.symbol path name) hfile]
    | some file =>
      rw [← SymbolGraph.isSome_kind?, symbolKind path name file hfile]
      simp
  case fileKind =>
    intro path hpath
    obtain ⟨file, hfile⟩ := ProgramCache.contains_iff.mp hpath
    exact fileKind path file hfile
  case symbolKind =>
    intro path name file s hfile hfirst
    rw [symbolKind path name file hfile, hfirst, Option.map_some]

/-! ## Traces -/

/-- A trace lists files of nodes only: its seeds are nodes, and the ends of an edge of a well-formed
graph are. -/
theorem SymbolGraph.exists_node_of_trace {g : SymbolGraph} (wf : g.WellFormed) {start : String}
    {direction : Direction} {maxHops : Nat} {path : String}
    (h : path ∈ (g.trace start direction maxHops).paths) :
    ∃ id, g.contains id ∧ id.path = path := by
  rw [Trace.paths, Std.ExtTreeMap.mem_keys, Std.ExtTreeMap.mem_iff_isSome_getElem?,
    Option.isSome_iff_exists] at h
  obtain ⟨d, hd⟩ := h
  obtain ⟨-, ⟨u, v, seed, hpath, walk⟩, -⟩ := (getElem?_files_trace wf).mp hd
  exact ⟨v, contains_of_walk wf seed.2.1 walk, hpath⟩

/-! ## Builds -/

/-- Discovery that is run again finds every node in place. Before linking this is so because it has
just been run, and after it because linking has changed no node. -/
theorem settledNodes_of_graph_eq (hkeyed : cache.Keyed) {build : GraphBuild}
    (hgraph : build.graph = (assembled resolver cache).1.1)
    (hcount : build.stats.filesDiscovered = cache.toList.length) : SettledNodes cache build := by
  have assembly : Assembled cache resolver build.graph := by
    rw [hgraph]
    exact link_edges resolver cache _ (Memory.faithful_new [])
  have grown : build.graph.Grown := by
    rw [hgraph]
    exact grown_assembled resolver cache
  refine ⟨?nodes, hcount, ?unlinked, ?linked, ?traced⟩
  case nodes =>
    rw [hgraph]
    exact exactNodes_of_kind? hkeyed (kind?_assembled hkeyed resolver)
  case unlinked =>
    have same : discover cache (discover cache ∅) = discover cache ∅ :=
      discover_of_contains fun file hfile id declares =>
        contains_discover.mpr (.inr ⟨file, hfile, declares⟩)
    exact congrArg (·, cache.toList.length) same
  case linked =>
    have same : discover cache build.graph = build.graph :=
      discover_of_contains fun file hfile id declares =>
        assembly.contains_iff.mpr ⟨file, hfile, declares⟩
    rw [discoverAll, same, hcount]
  case traced =>
    intro start direction maxHops path hpath
    obtain ⟨id, hid, rfl⟩ := SymbolGraph.exists_node_of_trace grown.wellFormed hpath
    exact assembly.contains_path hkeyed hid

theorem settledNodes_buildWith (read : Script.Reader) (resolver : Resolver) (filesIndexed : Nat)
    (earlier : List Diagnostic) (sources : List LoadedSource) :
    SettledNodes (ProgramCache.build read sources).1
      (buildWith read resolver filesIndexed earlier sources) :=
  settledNodes_of_graph_eq (ProgramCache.keyed_build read sources)
    (graph_buildWith read resolver filesIndexed earlier sources) rfl

/-- **The nodes of a build.** If the aliases make sense, both ways of building yield a graph whose
nodes are the parsed files and the symbols that they declare, of the kinds of their first
declarations, and discovery that is run again changes nothing. Linking leaves the nodes and kinds
of every graph alone, and traces of a graph that grew from the empty one list files of its nodes
only. -/
theorem build_nodes_exact (read : Script.Reader) (aliases : AliasMap) (table : AliasTable)
    (haliases : AliasTable.ofMap aliases = .ok table) :
    (∀ sources : List LoadedSource, ∃ build,
      buildGraphFromSources read sources aliases = .ok build ∧
        SettledNodes (ProgramCache.build read sources).1 build) ∧
    (∀ index : FileIndex, ∃ build, buildGraph read index aliases = .ok build ∧
      SettledNodes (ProgramCache.build read index.load.1).1 build) ∧
    (∀ (resolver : Resolver) (cache : ProgramCache) (g : SymbolGraph) (memory : Memory)
        (id : NodeId),
      ((link resolver cache g).run memory).1.1.contains id = g.contains id ∧
        ((link resolver cache g).run memory).1.1.kind? id = g.kind? id) ∧
    ∀ g : SymbolGraph, g.Grown → ∀ start direction maxHops,
      ∀ path ∈ (g.trace start direction maxHops).paths, ∃ id, g.contains id ∧ id.path = path := by
  refine ⟨?sources, ?index, ?linking, ?tracing⟩
  case sources =>
    intro sources
    exact ⟨_, buildGraphFromSources_of_ofMap haliases read sources,
      settledNodes_buildWith read _ 0 [] sources⟩
  case index =>
    intro index
    exact ⟨_, buildGraph_of_ofMap haliases read index,
      settledNodes_buildWith read _ index.size index.load.2 index.load.1⟩
  case linking =>
    intro resolver cache g memory id
    have kind := kind?_link resolver cache g memory id
    refine ⟨Bool.eq_iff_iff.mpr ?_, kind⟩
    rw [← SymbolGraph.isSome_kind?, ← SymbolGraph.isSome_kind?, kind]
  case tracing =>
    intro g hg start direction maxHops path hpath
    exact SymbolGraph.exists_node_of_trace hg.wellFormed hpath

/-- A file that declares one name twice, one that is given up, and one that comes twice. -/
def mixedSources : List LoadedSource :=
  [⟨"a.ts", "interface T {}\nexport const x = 1\nfunction x() {}"⟩, ⟨"b.ts", "let = ="⟩,
    ⟨"c.ts", "class C {}"⟩, ⟨"c.ts", "enum C {}"⟩]

/-- The first declaration of `x` is the one of the variable, and `c.ts` is the later text. -/
theorem build_nodes_exact_mixed :
    AliasTable.ofMap ∅ = .ok ⟨[], []⟩ ∧
      ∃ build, buildGraphFromSources readScript mixedSources ∅ = .ok build ∧
        SettledNodes (ProgramCache.build readScript mixedSources).1 build ∧
        build.graph.kind? (.symbol "a.ts" "x") = some .variableName ∧
        build.graph.kind? (.file "b.ts") = none ∧
        build.graph.kind? (.symbol "c.ts" "C") = some .enumeration := by
  have haliases : AliasTable.ofMap ∅ = .ok ⟨[], []⟩ := by decide +kernel
  obtain ⟨build, hbuild, settled⟩ := (build_nodes_exact readScript ∅ _ haliases).1 mixedSources
  have kinds : (buildGraphFromSources readScript mixedSources ∅).toOption.map (fun build =>
      (build.graph.kind? (.symbol "a.ts" "x"), build.graph.kind? (.file "b.ts"),
        build.graph.kind? (.symbol "c.ts" "C"))) =
      some (some .variableName, none, some .enumeration) := by
    decide +kernel
  rw [hbuild] at kinds
  have each := Option.some.inj kinds
  simp only [Prod.mk.injEq] at each
  exact ⟨haliases, build, hbuild, settled, each⟩

end CodeAtlas
