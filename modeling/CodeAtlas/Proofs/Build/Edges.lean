import CodeAtlas.Build
import CodeAtlas.Proofs.Link.Discovery
import CodeAtlas.Proofs.Link.Edges
import CodeAtlas.Proofs.Source.Loading

/-!
# The edges of a built graph

`ExactEdges` says which edges a graph has that is built of some parsed files: those from a file to
the origins of its imports and to the files it names alone, those from a declaration to the
origins of the imports it uses, and no others. Both ways of building yield such a graph whenever
the aliases make sense (`build_edges_exact`). Origins are those over the finished graph, so the
description does not mention the order in which the files were linked.
-/

namespace CodeAtlas

open CodeAtlas.Link CodeAtlas.Resolution CodeAtlas.Script

/-- What names are traced through in the graph `g` of some parsed files. -/
abbrev landscapeOf (cache : ProgramCache) (resolver : Resolver) (g : SymbolGraph) : Landscape :=
  ⟨g, interfacesOf cache, resolver⟩

/-- The edges of the graph `g` of some parsed files. -/
structure ExactEdges (cache : ProgramCache) (resolver : Resolver) (g : SymbolGraph) : Prop where
  /-- A file refers to the origins of its imports and to the files it names alone. -/
  file : ∀ path t, g.hasEdge (.file path) t ↔
    ∃ file, cache.files[path]? = some file ∧ g.contains t ∧ t ≠ .file path ∧
      ((∃ name, (landscapeOf cache resolver g).Imports path (.ofProgram file.program) name t) ∨
        ∃ target, (landscapeOf cache resolver g).Names file (.ofProgram file.program) target ∧
          t = .file target)
  /-- A declaration refers to the origins of the imports it uses. -/
  symbol : ∀ path owner t, g.hasEdge (.symbol path owner) t ↔
    ∃ file, cache.files[path]? = some file ∧ g.contains (.symbol path owner) ∧
      t ≠ .symbol path owner ∧
      (landscapeOf cache resolver g).Uses file (.ofProgram file.program) owner t
  loopless : ∀ a, ¬ g.hasEdge a a
  /-- Both ends lie in parsed files. -/
  parsed : ∀ a b, g.hasEdge a b → cache.contains a.path ∧ cache.contains b.path
  /-- What a declaration of a file refers to, the file refers to. -/
  accompanied : ∀ path owner t, g.hasEdge (.symbol path owner) t → t ≠ .file path →
    g.hasEdge (.file path) t

namespace Link

theorem getElem?_interfacesOf (cache : ProgramCache) (path : String) :
    (interfacesOf cache)[path]? =
      (cache.files[path]?).map fun file => .ofProgram file.program := by
  rw [interfacesOf, Std.ExtTreeMap.getElem?_map]

end Link

/-! ## From linking to edges -/

variable {cache : ProgramCache} {resolver : Resolver} {g : SymbolGraph}

/-- The graph holds the discovered nodes, and the edges that linking adds to them. -/
def Assembled (cache : ProgramCache) (resolver : Resolver) (g : SymbolGraph) : Prop :=
  (landscapeOf cache resolver (discover cache ∅)).LinkedBy (discover cache ∅) cache.toList g

/-- Linking adds no nodes, so those of the graph are the ones that the parsed files declare. -/
theorem Assembled.contains_iff (h : Assembled cache resolver g) {id : NodeId} :
    g.contains id ↔ ∃ file ∈ cache.toList, Declares file id := by
  rw [h.nodes id, contains_discover, or_iff_right (SymbolGraph.not_contains_empty id)]

/-- An edge is one that the plan of some file calls for over the finished graph. Planning looks at
nodes and not at edges, so it does not matter that files were planned before others were linked. -/
theorem Assembled.hasEdge_iff (h : Assembled cache resolver g) (hkeyed : cache.Keyed)
    {a b : NodeId} :
    g.hasEdge a b ↔ ∃ file, cache.files[file.path]? = some file ∧ a ≠ b ∧
      (landscapeOf cache resolver g).Planned file (.ofProgram file.program) a b ∧
      g.admits a b := by
  have none_before : ¬ (discover cache ∅).hasEdge a b := by
    rw [hasEdge_discover]
    exact fun hedge => SymbolGraph.not_contains_empty a (SymbolGraph.contains_of_hasEdge hedge)
  have admits : (discover cache ∅).admits a b = g.admits a b := by
    rw [SymbolGraph.admits, SymbolGraph.admits, h.nodes a, h.nodes b]
  rw [h.edges, or_iff_right none_before]
  refine exists_congr fun file => ?_
  rw [hkeyed.mem_toList_iff]
  refine and_congr_right fun hfile => ?_
  have interface : (interfacesOf cache)[file.path]? = some (.ofProgram file.program) := by
    rw [getElem?_interfacesOf, hfile]
    rfl
  have planned : (landscapeOf cache resolver g).Planned file (.ofProgram file.program) a b ↔
      (landscapeOf cache resolver (discover cache ∅)).Planned file (.ofProgram file.program) a b :=
    Landscape.planned_onGraph h.nodes
  rw [planned, ← admits]
  simp only [Landscape.Calls, interface, Option.some.injEq, exists_eq_left']

theorem Assembled.contains_file (h : Assembled cache resolver g) (hkeyed : cache.Keyed)
    {path : String} {file : ParsedFile} (hfile : cache.files[path]? = some file) :
    g.contains (.file path) := by
  have own := hkeyed path file hfile
  subst own
  exact h.contains_iff.mpr ⟨file, hkeyed.mem_toList_iff.mpr hfile, .file⟩

theorem Assembled.contains_path (h : Assembled cache resolver g) (hkeyed : cache.Keyed)
    {id : NodeId} (hid : g.contains id) : cache.contains id.path := by
  obtain ⟨file, hfile, declares⟩ := h.contains_iff.mp hid
  rw [declares.path_eq]
  exact ProgramCache.contains_iff.mpr ⟨file, hkeyed.mem_toList_iff.mp hfile⟩

/-- The edges of a file, in the words of `ExactEdges`: those of its imports and those of the files
that it names alone. A self-edge is never added. -/
theorem Assembled.hasEdge_file_iff (h : Assembled cache resolver g) (hkeyed : cache.Keyed)
    (path : String) (t : NodeId) :
    g.hasEdge (.file path) t ↔
      ∃ file, cache.files[path]? = some file ∧ g.contains t ∧ t ≠ .file path ∧
        ((∃ name, (landscapeOf cache resolver g).Imports path (.ofProgram file.program) name t) ∨
          ∃ target, (landscapeOf cache resolver g).Names file (.ofProgram file.program) target ∧
            t = .file target) := by
  rw [h.hasEdge_iff hkeyed]
  constructor
  · rintro ⟨file, hfile, hne, planned, hadmits⟩
    have ht := (SymbolGraph.admits_iff.mp hadmits).2
    -- the source becomes a variable, so that the cases decide whether it is the node of a file
    generalize hhere : NodeId.file path = here at planned hne
    cases planned with
    | imported hb =>
      cases hhere
      exact ⟨file, hfile, ht, hne.symm, .inl ⟨_, hb⟩⟩
    | named hb =>
      cases hhere
      exact ⟨file, hfile, ht, hne.symm, .inr ⟨_, hb, rfl⟩⟩
    | used => cases hhere
  · rintro ⟨file, hfile, ht, hne, hcause⟩
    have own := hkeyed path file hfile
    subst own
    have hadmits := SymbolGraph.admits_iff.mpr ⟨h.contains_file hkeyed hfile, ht⟩
    refine ⟨file, hfile, hne.symm, ?_, hadmits⟩
    rcases hcause with ⟨name, hb⟩ | ⟨target, hb, rfl⟩
    · exact .imported hb
    · exact .named hb

/-- The edges of a declaration, in the words of `ExactEdges`. They come from uses alone, for which
the node of the declaration has to be there. -/
theorem Assembled.hasEdge_symbol_iff (h : Assembled cache resolver g) (hkeyed : cache.Keyed)
    (path owner : String) (t : NodeId) :
    g.hasEdge (.symbol path owner) t ↔
      ∃ file, cache.files[path]? = some file ∧ g.contains (.symbol path owner) ∧
        t ≠ .symbol path owner ∧
        (landscapeOf cache resolver g).Uses file (.ofProgram file.program) owner t := by
  rw [h.hasEdge_iff hkeyed]
  constructor
  · rintro ⟨file, hfile, hne, planned, hadmits⟩
    have howner := (SymbolGraph.admits_iff.mp hadmits).1
    generalize hhere : NodeId.symbol path owner = here at planned hne howner
    cases planned with
    | imported => cases hhere
    | named => cases hhere
    | used hb =>
      cases hhere
      exact ⟨file, hfile, howner, hne.symm, hb⟩
  · rintro ⟨file, hfile, howner, hne, hb⟩
    have own := hkeyed path file hfile
    subst own
    obtain ⟨name, huse, binding, hbinding, horigin⟩ := hb
    have ht : g.contains t := Landscape.contains_of_originOf horigin
    exact ⟨file, hfile, hne.symm, .used ⟨name, huse, binding, hbinding, horigin⟩ howner,
      SymbolGraph.admits_iff.mpr ⟨howner, ht⟩⟩

/-- A graph that linking has brought about has exactly the edges that its files call for. -/
theorem Assembled.exactEdges (h : Assembled cache resolver g) (hkeyed : cache.Keyed) :
    ExactEdges cache resolver g where
  file := h.hasEdge_file_iff hkeyed
  symbol := h.hasEdge_symbol_iff hkeyed
  loopless a hedge := by
    obtain ⟨_, _, hne, _⟩ := (h.hasEdge_iff hkeyed).mp hedge
    exact hne rfl
  parsed a b hedge := by
    obtain ⟨_, _, _, _, hadmits⟩ := (h.hasEdge_iff hkeyed).mp hedge
    obtain ⟨ha, hb⟩ := SymbolGraph.admits_iff.mp hadmits
    exact ⟨h.contains_path hkeyed ha, h.contains_path hkeyed hb⟩
  accompanied path owner t hedge hne := by
    obtain ⟨file, hfile, -, -, name, -, himport⟩ := (h.hasEdge_symbol_iff hkeyed _ _ _).mp hedge
    have own := hkeyed path file hfile
    subst own
    have ht : g.contains t := by
      obtain ⟨binding, -, horigin⟩ := himport
      exact Landscape.contains_of_originOf horigin
    exact (h.hasEdge_file_iff hkeyed _ _).mpr ⟨file, hfile, ht, hne, .inl ⟨name, himport⟩⟩

/-! ## Builds -/

/-- Every build links what it has discovered, whatever it reported before. -/
theorem assembled_buildWith (read : Script.Reader) (resolver : Resolver) (filesIndexed : Nat)
    (earlier : List Diagnostic) (sources : List LoadedSource) :
    Assembled (ProgramCache.build read sources).1 resolver
      (buildWith read resolver filesIndexed earlier sources).graph :=
  link_edges resolver (ProgramCache.build read sources).1 _ (Memory.faithful_new _)

/-- **The edges of a build.** If the aliases make sense, both ways of building yield a graph, and
it has exactly the edges that the parsed files call for. Specifiers are resolved among the paths
of the texts in one case, and among all paths of the index in the other. -/
theorem build_edges_exact (read : Script.Reader) (aliases : AliasMap) (table : AliasTable)
    (haliases : AliasTable.ofMap aliases = .ok table) :
    (∀ sources : List LoadedSource, ∃ build,
      buildGraphFromSources read sources aliases = .ok build ∧
        ExactEdges (ProgramCache.build read sources).1
          ⟨.ofList (sources.map LoadedSource.path), table⟩ build.graph) ∧
    ∀ index : FileIndex, ∃ build, buildGraph read index aliases = .ok build ∧
      ExactEdges (ProgramCache.build read index.load.1).1 ⟨.ofList index.paths, table⟩
        build.graph := by
  have new : ∀ known, Resolver.new known aliases = .ok ⟨.ofList known, table⟩ := by
    intro known
    rw [Resolver.new, haliases]
    rfl
  constructor
  · intro sources
    refine ⟨_, ?_, (assembled_buildWith read _ 0 [] sources).exactEdges
      (ProgramCache.keyed_build read sources)⟩
    rw [buildGraphFromSources, new]
    rfl
  · intro index
    refine ⟨_, ?_, (assembled_buildWith read _ index.size index.load.2 index.load.1).exactEdges
      (ProgramCache.keyed_build read index.load.1)⟩
    rw [buildGraph, new]
    rfl

/-- Two files, of which the first imports a variable of the second and uses it. -/
def twoSources : List LoadedSource :=
  [⟨"a.ts", "import { x } from './b'\nexport const f = x"⟩, ⟨"b.ts", "export const x = 1"⟩]

/-- The declaration that uses the import refers to its origin. -/
theorem build_edges_exact_two_sources :
    AliasTable.ofMap ∅ = .ok ⟨[], []⟩ ∧
      ∃ build, buildGraphFromSources readScript twoSources ∅ = .ok build ∧
        ExactEdges (ProgramCache.build readScript twoSources).1
          ⟨.ofList ["a.ts", "b.ts"], ⟨[], []⟩⟩ build.graph ∧
        build.graph.hasEdge (.symbol "a.ts" "f") (.symbol "b.ts" "x") := by
  have haliases : AliasTable.ofMap ∅ = .ok ⟨[], []⟩ := by decide +kernel
  obtain ⟨build, hbuild, exact⟩ := (build_edges_exact readScript ∅ _ haliases).1 twoSources
  have hedge : (buildGraphFromSources readScript twoSources ∅).toOption.map
      (fun build => build.graph.hasEdge (.symbol "a.ts" "f") (.symbol "b.ts" "x")) =
        some true := by
    decide +kernel
  rw [hbuild] at hedge
  exact ⟨haliases, build, hbuild, exact, Option.some.inj hedge⟩

end CodeAtlas
