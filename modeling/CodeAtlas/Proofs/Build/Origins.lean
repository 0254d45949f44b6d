import CodeAtlas.Proofs.Build.Reports
import CodeAtlas.Proofs.Link.Precedence

/-!
# The origins of own exports in a build

A file that imports a name which another file declares and exports is linked to that declaration,
unless the `export *` declarations of the other file lead to a node for the name
(`own_export_origin`). Those come first: a module can not declare a name anew that it passes on
with everything else (`not_own_export_first`).
-/

namespace CodeAtlas

open CodeAtlas.Link CodeAtlas.Resolution CodeAtlas.Script

variable {cache : ProgramCache} {resolver : Resolver} {g : SymbolGraph} {path declared name : String}
  {file : ParsedFile}

/-- What a module exports of its own is declared in it, so discovery has made a node for it. -/
theorem contains_discover_ownExport (hkeyed : cache.Keyed)
    (hfile : cache.files[path]? = some file) (hexport : file.program.OwnExport declared name) :
    (discover cache ∅).contains (.symbol path declared) := by
  obtain ⟨s, hs, rfl⟩ := hexport.exists_declaredSymbol
  obtain rfl : file.path = path := hkeyed path file hfile
  refine contains_discover.mpr (.inr ⟨file, hkeyed.mem_toList_iff.mpr hfile, .symbol hs⟩)

/-- The search for an own export comes to an end with a node: there is at least the one of the
declaration. -/
theorem exists_originOfOwn_discover (hkeyed : cache.Keyed)
    (hfile : cache.files[path]? = some file) (hexport : file.program.OwnExport declared name) :
    ∃ id, (landscapeOf cache resolver (discover cache ∅)).OriginOfOwn (.ofProgram file.program)
      path name (.symbol path declared) id := by
  have interface : (interfacesOf cache)[path]? = some (.ofProgram file.program) := by
    rw [getElem?_interfacesOf, hfile, Option.map_some]
  exact Landscape.exists_originOfOwn hexport interface
    (contains_discover_ownExport hkeyed hfile hexport)

/-- The file that imports the name is linked to its origin, as the search over the discovered nodes
yields it: linking adds edges only, which no search looks at. -/
theorem Assembled.hasEdge_origin (h : Assembled cache resolver g) (hkeyed : cache.Keyed)
    {interface : ModuleInterface} {own id : NodeId}
    (origin : (landscapeOf cache resolver (discover cache ∅)).OriginOfOwn interface path name own
      id)
    {importer : String} {user : ParsedFile} (huser : cache.files[importer]? = some user)
    {localName : String} {binding : ImportBinding}
    (hbinding : (ModuleInterface.ofProgram user.program).imports[localName]? = some binding)
    (hname : Landscape.exportName binding.imported = some name)
    (htarget : (resolver.answer importer binding.specifier).1 = some path)
    (hother : id ≠ .file importer) : g.hasEdge (.file importer) id := by
  have imported : (landscapeOf cache resolver g).originOf importer binding = some id :=
    (Landscape.originOf_onGraph h.nodes importer binding).trans
      (origin.originOf_eq hname htarget)
  have present : g.contains id := by
    rw [h.nodes id]
    exact origin.present
  exact (h.hasEdge_file_iff hkeyed importer id).mpr
    ⟨user, huser, present, hother, .inl ⟨localName, binding, hbinding, imported⟩⟩

/-- **The origin of an own export.** If the aliases make sense, then for every parsed file that
declares a name and exports it, the search for the export yields the declaration or what the
`export *` declarations of the file lead to. Every file that imports the export is linked to what
the search yields. -/
theorem own_export_origin (read : Script.Reader) (sources : List LoadedSource)
    (aliases : AliasMap) (table : AliasTable) (haliases : AliasTable.ofMap aliases = .ok table)
    (path declared name : String) (file : ParsedFile)
    (hfile : (ProgramCache.build read sources).1.files[path]? = some file)
    (hexport : file.program.OwnExport declared name) :
    let cache := (ProgramCache.build read sources).1
    let resolver : Resolver := ⟨.ofList (sources.map LoadedSource.path), table⟩
    ∃ build id, buildGraphFromSources read sources aliases = .ok build ∧
      (landscapeOf cache resolver (discover cache ∅)).OriginOfOwn (.ofProgram file.program) path
        name (.symbol path declared) id ∧
      ∀ (importer : String) (user : ParsedFile) (localName : String) (binding : ImportBinding),
        cache.files[importer]? = some user →
        (ModuleInterface.ofProgram user.program).imports[localName]? = some binding →
        Landscape.exportName binding.imported = some name →
        (resolver.answer importer binding.specifier).1 = some path →
        id ≠ .file importer → build.graph.hasEdge (.file importer) id := by
  intro cache resolver
  have keyed : cache.Keyed := ProgramCache.keyed_build read sources
  have found : ∃ id, (landscapeOf cache resolver (discover cache ∅)).OriginOfOwn
      (.ofProgram file.program) path name (.symbol path declared) id :=
    exists_originOfOwn_discover keyed hfile hexport
  obtain ⟨id, origin⟩ := found
  refine ⟨_, id, buildGraphFromSources_of_ofMap haliases read sources, origin, ?_⟩
  intro importer user localName binding huser hbinding hname htarget hother
  exact (assembled_buildWith read resolver 0 [] sources).hasEdge_origin keyed origin huser hbinding
    hname htarget hother

/-- A module that passes on everything of another one and declares a name of it anew. -/
def overridingSources : List LoadedSource :=
  [⟨"a.ts", "export * from './b'\nexport const x = 1"⟩, ⟨"b.ts", "export const x = 2"⟩,
    ⟨"c.ts", "import { x } from './a'\nexport const y = x"⟩]

/-- `x` is passed on from `b.ts` in spite of the declaration in `a.ts`. -/
theorem own_export_origin_overriding :
    AliasTable.ofMap ∅ = .ok ⟨[], []⟩ ∧
      let cache := (ProgramCache.build readScript overridingSources).1
      let resolver : Resolver := ⟨.ofList ["a.ts", "b.ts", "c.ts"], ⟨[], []⟩⟩
      ∃ file, cache.files["a.ts"]? = some file ∧ file.program.OwnExport "x" "x" ∧
        ∃ build id, buildGraphFromSources readScript overridingSources ∅ = .ok build ∧
          (landscapeOf cache resolver (discover cache ∅)).OriginOfOwn (.ofProgram file.program)
            "a.ts" "x" (.symbol "a.ts" "x") id ∧
          build.graph.hasEdge (.file "c.ts") (.symbol "b.ts" "x") := by
  have haliases : AliasTable.ofMap ∅ = .ok ⟨[], []⟩ := by decide +kernel
  have exported : ((ProgramCache.build readScript overridingSources).1.files["a.ts"]?).map
      (fun file => decide (file.program.OwnExport "x" "x")) = some true := by
    decide +kernel
  obtain ⟨file, hfile, hexport⟩ := Option.map_eq_some_iff.mp exported
  have hexport : file.program.OwnExport "x" "x" := of_decide_eq_true hexport
  have linked : (buildGraphFromSources readScript overridingSources ∅).toOption.map
      (fun build => build.graph.hasEdge (.file "c.ts") (.symbol "b.ts" "x")) = some true := by
    decide +kernel
  obtain ⟨build, id, hbuild, origin, -⟩ := own_export_origin readScript overridingSources ∅ _
    haliases "a.ts" "x" "x" file hfile hexport
  rw [hbuild] at linked
  exact ⟨haliases, file, hfile, hexport, build, id, hbuild, origin, Option.some.inj linked⟩

/-- An own export is not always found before what `export *` passes on. -/
theorem not_own_export_first :
    ¬ ∀ (sources : List LoadedSource) (path declared name : String) (file : ParsedFile),
      (ProgramCache.build readScript sources).1.files[path]? = some file →
      file.program.OwnExport declared name →
      (((landscapeOf (ProgramCache.build readScript sources).1
          ⟨.ofList (sources.map LoadedSource.path), ⟨[], []⟩⟩
          (discover (ProgramCache.build readScript sources).1 ∅)).origin path name).run ∅).1 =
        some (.symbol path declared) := by
  intro h
  have exported : ((ProgramCache.build readScript overridingSources).1.files["a.ts"]?).map
      (fun file => decide (file.program.OwnExport "x" "x")) = some true := by
    decide +kernel
  obtain ⟨file, hfile, hexport⟩ := Option.map_eq_some_iff.mp exported
  have own := h overridingSources "a.ts" "x" "x" file hfile (of_decide_eq_true hexport)
  have starred : (((landscapeOf (ProgramCache.build readScript overridingSources).1
      ⟨.ofList (overridingSources.map LoadedSource.path), ⟨[], []⟩⟩
      (discover (ProgramCache.build readScript overridingSources).1 ∅)).origin "a.ts" "x").run
        ∅).1 = some (.symbol "b.ts" "x") := by
    decide +kernel
  rw [starred] at own
  exact absurd own (by decide)

end CodeAtlas
