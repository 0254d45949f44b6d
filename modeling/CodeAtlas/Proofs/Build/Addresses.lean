import CodeAtlas.Proofs.Build.Phases
import CodeAtlas.Proofs.Graph.Address
import CodeAtlas.Script.Reader

/-!
# Addresses in a built graph

The nodes of a built graph can be given as the start of a trace by their texts, as far as they are
plain (`build_addresses`). A declaration is, in whatever file, since its name comes after the last
`#`. A file whose own path holds a `#` is not: such a start is read as that of a declaration
(`not_build_addresses`).
-/

namespace CodeAtlas

open CodeAtlas.Resolution CodeAtlas.Script CodeAtlas.Text

/-- What traces without hops list that start at the texts of nodes. -/
structure Addresses (g : SymbolGraph) : Prop where
  own : ∀ id, g.contains id → id.text ≠ "" → ∀ direction,
    (g.trace id.text direction 0).files = (∅ : TextMap Nat).insert id.path 0 ↔ id.IsPlain
  /-- The text of any other node means a node of another file, which may be missing. -/
  other : ∀ id, g.contains id → ¬ id.IsPlain → ∀ direction,
    (NodeId.ofText id.text).path ≠ id.path ∧
      (g.trace id.text direction 0).files =
        if g.contains (.ofText id.text) then
          (∅ : TextMap Nat).insert (NodeId.ofText id.text).path 0
        else ∅
  file : ∀ path ∈ g.files, path ≠ "" → ∀ direction,
    (g.trace path direction 0).files = (∅ : TextMap Nat).insert path 0 ↔ '#' ∉ path.toList

/-- What traces list of a node's text, for every graph that grew from the empty one and not only for
built ones. -/
theorem SymbolGraph.Grown.addresses {g : SymbolGraph} (hg : g.Grown) : Addresses g where
  own _ hid hne _ := files_trace_text_iff hg.wellFormed hid hne
  other _ _ hplain _ := ⟨fun hpath => hplain (NodeId.path_ofText_text_iff.mp hpath),
    files_trace_hash hg.wellFormed (NodeId.mem_text_of_not_isPlain hplain)⟩
  file path hpath hne _ := by
    have node : g.contains (.file path) := mem_files.mp hpath
    exact files_trace_text_iff hg.wellFormed node hne

/-- **The addresses of nodes.** If the aliases make sense, an index yields a graph in which a trace
without hops from the text of a node lists just the file of the node, if and only if neither the
path of a file nor the name of a declaration holds a `#`. -/
theorem build_addresses (read : Script.Reader) (aliases : AliasMap) (table : AliasTable)
    (haliases : AliasTable.ofMap aliases = .ok table) (index : FileIndex) :
    ∃ build, buildGraph read index aliases = .ok build ∧ Addresses build.graph := by
  refine ⟨_, buildGraph_of_ofMap haliases read index, ?_⟩
  rw [graph_buildWith]
  exact (grown_assembled _ _).addresses

/-- A file in a directory with a `#`, and one with a `#` in its own name. -/
def hashIndex : FileIndex :=
  .ofList [("src/#odd/a.ts", .ofText "function f() {}"), ("a#b.ts", .ofText "")]

/-- Both odd nodes are in the graph, so that the traces below are not empty for want of a node. -/
theorem contains_hashIndex :
    (buildGraph readScript hashIndex ∅).toOption.map (fun build =>
      (build.graph.contains (.symbol "src/#odd/a.ts" "f"),
        build.graph.contains (.file "a#b.ts"))) = some (true, true) := by
  decide +kernel

/-- The declaration in the odd directory is traced by its text, and the odd file is not. -/
theorem build_addresses_hash :
    AliasTable.ofMap ∅ = .ok ⟨[], []⟩ ∧
      ∃ build, buildGraph readScript hashIndex ∅ = .ok build ∧
        (build.graph.trace "src/#odd/a.ts#f" .both 0).files =
          (∅ : TextMap Nat).insert "src/#odd/a.ts" 0 ∧
        (build.graph.trace "a#b.ts" .both 0).files ≠ (∅ : TextMap Nat).insert "a#b.ts" 0 := by
  have haliases : AliasTable.ofMap ∅ = .ok ⟨[], []⟩ := by decide +kernel
  obtain ⟨build, hbuild, addresses⟩ := build_addresses readScript ∅ _ haliases hashIndex
  have nodes := contains_hashIndex
  rw [hbuild] at nodes
  obtain ⟨symbol, file⟩ := Prod.mk.inj (Option.some.inj nodes)
  refine ⟨haliases, build, hbuild, ?_, ?_⟩
  · exact (addresses.own _ symbol (by decide) .both).mpr (by decide)
  · intro listed
    exact absurd ((addresses.own _ file (by decide) .both).mp listed) (by decide)

/-- The path of a file does not always lead to the file: what follows a `#` is taken for a name. -/
theorem not_build_addresses :
    ¬ ∀ (read : Script.Reader) (index : FileIndex) (aliases : AliasMap) (build : GraphBuild),
      buildGraph read index aliases = .ok build →
      ∀ id, build.graph.contains id → id.text ≠ "" → ∀ direction,
      (build.graph.trace id.text direction 0).files = (∅ : TextMap Nat).insert id.path 0 := by
  intro every
  have haliases : AliasTable.ofMap ∅ = .ok ⟨[], []⟩ := by decide +kernel
  have hbuild := buildGraph_of_ofMap haliases readScript hashIndex
  have nodes := contains_hashIndex
  rw [hbuild] at nodes
  obtain ⟨-, file⟩ := Prod.mk.inj (Option.some.inj nodes)
  have listed := every readScript hashIndex ∅ _ hbuild (.file "a#b.ts") file (by decide) .both
  have grown := grown_assembled ⟨.ofList hashIndex.paths, ⟨[], []⟩⟩
    (ProgramCache.build readScript hashIndex.load.1).1
  rw [graph_buildWith] at listed file
  exact absurd ((SymbolGraph.files_trace_text_iff grown.wellFormed file (by decide)).mp listed)
    (by decide)

end CodeAtlas
