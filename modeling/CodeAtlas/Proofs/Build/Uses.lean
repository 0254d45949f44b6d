import CodeAtlas.Proofs.Build.Phases
import CodeAtlas.Proofs.Script.Owners

/-!
# Uses and the nodes of their declarations

A use of an import becomes an edge only if the graph has the node of the declaration around it.
Discovery has made that node, since every owner of a use is a declared symbol. So the look-up
passes over no use (`useEdges_eq`), and in a built graph every declaration refers to the origins of
all the imports it uses, itself apart (`build_keeps_uses`).

Imports without an origin and uses outside all declarations have no edge of their own.
-/

namespace CodeAtlas

open CodeAtlas.Link CodeAtlas.Resolution CodeAtlas.Script

namespace Link.Landscape

variable {l : Landscape} {path : String} {uses : List NameUse}

/-- If every owner has its node, the edges of some uses are those of the uses that have an owner
and whose name has an origin. -/
theorem useEdges_eq (h : ∀ name owner, ⟨name, some owner⟩ ∈ uses →
      l.graph.contains (.symbol path owner)) (origins : List (String × NodeId)) :
    l.useEdges path origins uses = uses.filterMap fun use =>
      use.owner.bind fun owner => (origins.lookup use.name).map (.symbol path owner, ·) := by
  unfold useEdges
  refine List.filterMap_congr fun use huse => ?_
  obtain ⟨name, owner⟩ := use
  cases owner with
  | none => rfl
  | some owner =>
    have node : l.graph.contains (.symbol path owner) = true := h name owner huse
    cases horigin : origins.lookup name with
    | none => simp
    | some origin => simp [node]

end Link.Landscape

/-- No use is lost in the graph `g` of some parsed files. -/
structure KeepsUses (cache : ProgramCache) (resolver : Resolver) (g : SymbolGraph) : Prop where
  /-- Whatever edges there are so far, the plan of a file passes over no use whose name has an
  origin, for want of a node. -/
  planned : ∀ path file, cache.files[path]? = some file →
    ∀ l : Landscape, (∀ id, l.graph.contains id = g.contains id) → ∀ origins wanted,
      l.useEdges path origins (file.program.references wanted).uses =
        (file.program.references wanted).uses.filterMap fun use =>
          use.owner.bind fun owner => (origins.lookup use.name).map (.symbol path owner, ·)
  /-- A declaration refers to the origin of every import that it uses, unless it is the origin. -/
  linked : ∀ path file, cache.files[path]? = some file → ∀ name t,
    (landscapeOf cache resolver g).Imports path (.ofProgram file.program) name t →
    ∀ wanted owner, ⟨name, some owner⟩ ∈ (file.program.references wanted).uses →
      g.contains (.symbol path owner) ∧
        (t = .symbol path owner ∨ g.hasEdge (.symbol path owner) t)

variable {cache : ProgramCache} {resolver : Resolver} {g : SymbolGraph}

/-- The declaration around a use has a node, since every owner of a use is a declared symbol of the
program. -/
theorem Assembled.contains_owner (h : Assembled cache resolver g) (hkeyed : cache.Keyed)
    {path : String} {file : ParsedFile} (hfile : cache.files[path]? = some file)
    {wanted : List String} {name owner : String}
    (huse : ⟨name, some owner⟩ ∈ (file.program.references wanted).uses) :
    g.contains (.symbol path owner) := by
  have own : file.path = path := hkeyed path file hfile
  subst own
  obtain ⟨s, hs, rfl⟩ := Tree.exists_declaredSymbol_of_mem_uses huse
  exact h.contains_iff.mpr ⟨file, hkeyed.mem_toList_iff.mpr hfile, .symbol hs⟩

/-- In a graph that linking has brought about no use is lost: the node that a use needs is there,
and so is its edge. -/
theorem Assembled.keepsUses (h : Assembled cache resolver g) (hkeyed : cache.Keyed) :
    KeepsUses cache resolver g := by
  refine ⟨?planned, ?linked⟩
  case planned =>
    intro path file hfile l hnodes origins wanted
    refine Landscape.useEdges_eq ?_ origins
    intro name owner huse
    rw [hnodes]
    exact h.contains_owner hkeyed hfile huse
  case linked =>
    intro path file hfile name t himport wanted owner huse
    have node : g.contains (.symbol path owner) := h.contains_owner hkeyed hfile huse
    refine ⟨node, ?_⟩
    by_cases hself : t = .symbol path owner
    · exact .inl hself
    · have asked : name ∈ (ModuleInterface.ofProgram file.program).imports.keys := by
        obtain ⟨binding, hbinding, -⟩ := himport
        rw [Std.ExtTreeMap.mem_keys, Std.ExtTreeMap.mem_iff_isSome_getElem?, hbinding]
        rfl
      have reported := (mem_uses_references.mp huse).2
      have own : file.path = path := hkeyed path file hfile
      subst own
      have uses : (landscapeOf cache resolver g).Uses file (.ofProgram file.program) owner t :=
        ⟨name, mem_uses_references.mpr ⟨asked, reported⟩, himport⟩
      exact .inr ((h.hasEdge_symbol_iff hkeyed _ owner t).mpr ⟨file, hfile, node, hself, uses⟩)

/-- **No use is lost.** Whoever owns a use of a name is a declared symbol of the program. So if the
aliases make sense, both ways of building yield a graph with a node for every declaration that uses
an import and an edge from it to the origin of the import, should it have one and be another
node. -/
theorem build_keeps_uses (read : Script.Reader) (aliases : AliasMap) (table : AliasTable)
    (haliases : AliasTable.ofMap aliases = .ok table) :
    (∀ (program : Tree) (wanted : List String) (name owner : String),
      ⟨name, some owner⟩ ∈ (program.references wanted).uses →
        ∃ s ∈ program.declaredSymbols, s.name = owner) ∧
    (∀ sources : List LoadedSource, ∃ build,
      buildGraphFromSources read sources aliases = .ok build ∧
        KeepsUses (ProgramCache.build read sources).1
          ⟨.ofList (sources.map LoadedSource.path), table⟩ build.graph) ∧
    ∀ index : FileIndex, ∃ build, buildGraph read index aliases = .ok build ∧
      KeepsUses (ProgramCache.build read index.load.1).1 ⟨.ofList index.paths, table⟩
        build.graph := by
  refine ⟨?owners, ?sources, ?index⟩
  case owners =>
    intro program wanted name owner huse
    exact Tree.exists_declaredSymbol_of_mem_uses huse
  case sources =>
    intro sources
    refine ⟨_, buildGraphFromSources_of_ofMap haliases read sources, ?_⟩
    exact (assembled_buildWith read _ 0 [] sources).keepsUses
      (ProgramCache.keyed_build read sources)
  case index =>
    intro index
    refine ⟨_, buildGraph_of_ofMap haliases read index, ?_⟩
    exact (assembled_buildWith read _ index.size index.load.2 index.load.1).keepsUses
      (ProgramCache.keyed_build read index.load.1)

/-- A file whose default export is a class with a method that declares a function, which uses an
import. -/
def nestedUse : List LoadedSource :=
  [⟨"a.ts", "import { x } from './b'\nexport default class Box { m() { function f() { x } } }"⟩,
    ⟨"b.ts", "export const x = 1"⟩]

/-- The innermost declaration around the use refers to the origin, the class around it does not. -/
theorem build_keeps_uses_nested :
    AliasTable.ofMap ∅ = .ok ⟨[], []⟩ ∧
      ∃ build, buildGraphFromSources readScript nestedUse ∅ = .ok build ∧
        KeepsUses (ProgramCache.build readScript nestedUse).1
          ⟨.ofList ["a.ts", "b.ts"], ⟨[], []⟩⟩ build.graph ∧
        build.graph.hasEdge (.symbol "a.ts" "f") (.symbol "b.ts" "x") ∧
        build.graph.contains (.symbol "a.ts" "Box") ∧
        ¬ build.graph.hasEdge (.symbol "a.ts" "Box") (.symbol "b.ts" "x") := by
  have haliases : AliasTable.ofMap ∅ = .ok ⟨[], []⟩ := by decide +kernel
  obtain ⟨build, hbuild, keeps⟩ := (build_keeps_uses readScript ∅ _ haliases).2.1 nestedUse
  have found : (buildGraphFromSources readScript nestedUse ∅).toOption.map (fun build =>
      (build.graph.hasEdge (.symbol "a.ts" "f") (.symbol "b.ts" "x"),
        build.graph.contains (.symbol "a.ts" "Box"),
        build.graph.hasEdge (.symbol "a.ts" "Box") (.symbol "b.ts" "x"))) =
      some (true, true, false) := by
    decide +kernel
  rw [hbuild] at found
  have each := Option.some.inj found
  simp only [Prod.mk.injEq] at each
  obtain ⟨hinner, hbox, hnot⟩ := each
  exact ⟨haliases, build, hbuild, keeps, hinner, hbox, by rw [hnot]; exact Bool.false_ne_true⟩

end CodeAtlas
