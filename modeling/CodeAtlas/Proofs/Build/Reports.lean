import CodeAtlas.Proofs.Build.Edges
import CodeAtlas.Proofs.Link.Inquiry
import CodeAtlas.Proofs.Resolution.Packages
import CodeAtlas.Proofs.Source.Parsing

/-!
# The imports that a build reports

`ExactReports` says which imports into another package the diagnostics of a build report: those of
the specifiers that a parsed file names, each once, and no others. It speaks of programs and of
the alias map and not of interfaces, memories or the order of linking. Linking asks for every
specifier of every file (`asks_link`), and for nothing but specifiers of parsed files although it
follows re-exports through them; so both ways of building report exactly these imports
(`build_reports_exact`).

A file in which one import replaces another of the same local name is excluded where reports are
promised, since only the later one is asked for. What is said about the reports that there are
holds for such files too.
-/

namespace CodeAtlas

open CodeAtlas.Link CodeAtlas.Resolution CodeAtlas.Script

/-- The imports into another package that `diagnostics` report are those of the parsed files. -/
structure ExactReports (cache : ProgramCache) (aliases : AliasMap)
    (diagnostics : List Diagnostic) : Prop where
  /-- An import that leads into another package is reported once. -/
  once : ∀ path file specifier target, cache.files[path]? = some file →
    file.program.DistinctImports → file.program.Specifies specifier →
    Escapes aliases path specifier target →
    diagnostics.filter (·.reports path specifier) =
      [.illegalCrossPackageImport path specifier target]
  /-- An import that does not is not reported. -/
  unreported : ∀ path specifier, (∀ target, ¬ Escapes aliases path specifier target) →
    diagnostics.filter (·.reports path specifier) = []
  /-- Nothing else is reported. -/
  only : ∀ path specifier target,
    .illegalCrossPackageImport path specifier target ∈ diagnostics →
    ∃ file, cache.files[path]? = some file ∧ file.program.Specifies specifier ∧
      Escapes aliases path specifier target

namespace Link

variable {allowed : Question → Prop}

/-! ## The questions of a plan -/

namespace Landscape

variable {l : Landscape} {path : String} {interface : ModuleInterface}

/-- Looking for the origins of imports asks for the specifier of each, and whatever else is asked on
the way comes from files that `allowed` admits. -/
theorem asks_importOrigins (h : l.Admits allowed)
    (hinterface : interface.DrawsOnlyOn fun specifier => allowed (path, specifier)) :
    Asks l.resolver
      (fun q => ∃ e ∈ interface.imports.toList, q = (path, e.2.specifier)) allowed
      (l.importOrigins path interface) := by
  unfold importOrigins
  have each : ∀ e ∈ interface.imports.toList,
      Asks l.resolver (fun q => q = (path, e.2.specifier) ∨ False) allowed
        (do return (← l.bindingOrigin path e.2).map (e.1, ·)) := by
    intro e he
    have named := hinterface.imports e.1 e.2
      (Std.ExtTreeMap.mem_toList_iff_getElem?_eq_some.mp he)
    exact (asks_bindingOrigin h named).bind fun _ => asks_pure _
  refine ((asks_mapM each).bind fun _ => asks_pure _).weaken ?_ fun _ => id
  rintro q ⟨e, he, hq⟩
  exact .inl ⟨e, he, .inl hq⟩

theorem asks_fileTargets {specifiers : List String}
    (h : ∀ specifier ∈ specifiers, allowed (path, specifier)) :
    Asks l.resolver (fun q => ∃ specifier ∈ specifiers, q = (path, specifier)) allowed
      (l.fileTargets path specifiers) := by
  unfold fileTargets
  refine ((asks_mapM fun s hs => asks_resolve (h s hs)).bind fun _ => asks_pure _).weaken ?_
    fun _ => id
  rintro q ⟨s, hs, hq⟩
  exact .inl ⟨s, hs, hq⟩

/-- Planning a file asks for all specifiers of its interface and of its dynamic imports. It may ask
for more, in following re-exports, but only for what other files name. -/
theorem asks_plan (h : l.Admits allowed) {file : ParsedFile}
    (hinterface : interface.DrawsOnlyOn fun specifier => allowed (file.path, specifier))
    (hdynamic : ∀ specifier ∈ file.program.dynamicSpecifiers, allowed (file.path, specifier)) :
    Asks l.resolver
      (fun q => q.1 = file.path ∧
        (interface.Requires q.2 ∨ q.2 ∈ file.program.dynamicSpecifiers)) allowed
      (l.plan file interface) := by
  have listed : ∀ specifier ∈ interface.sideEffects ++ interface.reexportSources,
      allowed (file.path, specifier) :=
    List.forall_mem_append.mpr ⟨hinterface.sideEffects, hinterface.reexportSources⟩
  unfold plan
  refine ((asks_importOrigins h hinterface).bind fun _ =>
    (asks_fileTargets listed).bind fun _ =>
      (asks_fileTargets hdynamic).bind fun _ => asks_pure _).weaken ?_ fun _ => id
  rintro ⟨_, specifier⟩ ⟨rfl, (⟨name, binding, hbinding, rfl⟩ | hlisted) | hs⟩
  · exact .inl ⟨(name, binding), Std.ExtTreeMap.mem_toList_iff_getElem?_eq_some.mpr hbinding, rfl⟩
  · exact .inr (.inl ⟨specifier, hlisted, rfl⟩)
  · exact .inr (.inr (.inl ⟨specifier, hs, rfl⟩))

end Landscape

/-! ## The questions of linking -/

/-- A file of the cache names the specifier. -/
def Named (cache : ProgramCache) (q : Question) : Prop :=
  ∃ file, cache.files[q.1]? = some file ∧ file.program.Specifies q.2

variable {cache : ProgramCache} {resolver : Resolver} {graph : SymbolGraph}

theorem drawsOnlyOn_named {path : String} {file : ParsedFile}
    (hfile : cache.files[path]? = some file) :
    (ModuleInterface.ofProgram file.program).DrawsOnlyOn
      fun specifier => Named cache (path, specifier) := by
  refine (ModuleInterface.drawsOnlyOn_ofProgram file.program).imp ?_
  rintro specifier ⟨statement, hstatement, draws⟩
  exact ⟨file, hfile, .statement hstatement draws⟩

theorem admits_named :
    Landscape.Admits ⟨graph, interfacesOf cache, resolver⟩ (Named cache) := by
  intro path interface hinterface
  rw [getElem?_interfacesOf, Option.map_eq_some_iff] at hinterface
  obtain ⟨file, hfile, rfl⟩ := hinterface
  exact drawsOnlyOn_named hfile

/-- Linking a file asks for every specifier that it names, unless one import replaces another of the
same name, and for nothing that no file names. -/
theorem asks_linkFile {file : ParsedFile} (hfile : cache.files[file.path]? = some file) :
    Asks resolver
      (fun q => q.1 = file.path ∧ file.program.DistinctImports ∧ file.program.Specifies q.2)
      (Named cache) (linkFile resolver (interfacesOf cache) graph file) := by
  have interface : (interfacesOf cache)[file.path]? = some (.ofProgram file.program) := by
    rw [getElem?_interfacesOf, hfile, Option.map_some]
  have dynamic : ∀ specifier ∈ file.program.dynamicSpecifiers,
      Named cache (file.path, specifier) := by
    intro specifier hs
    obtain ⟨t, ht, loads⟩ := Tree.mem_dynamicSpecifiers.mp hs
    exact ⟨file, hfile, .dynamic ht loads⟩
  unfold linkFile
  rw [interface]
  have planned := Landscape.asks_plan (l := ⟨graph, interfacesOf cache, resolver⟩) admits_named
    (drawsOnlyOn_named hfile) dynamic
  refine (planned.bind fun _ => asks_pure _).weaken ?_ fun _ => id
  rintro q ⟨hpath, hdistinct, hstatement | hdynamic⟩
  · exact .inl ⟨hpath, .inl (ModuleInterface.requires_ofProgram hdistinct ‹_› ‹_›)⟩
  · exact .inl ⟨hpath, .inr (Tree.mem_dynamicSpecifiers.mpr ⟨_, ‹_›, ‹_›⟩)⟩

/-- Linking asks for every specifier that a file names, if no import of the file replaces another,
and for no specifier that no file names. -/
theorem asks_link (hkeyed : cache.Keyed) :
    Asks resolver
      (fun q => ∃ file, cache.files[q.1]? = some file ∧ file.program.DistinctImports ∧
        file.program.Specifies q.2)
      (Named cache) (link resolver cache graph) := by
  have each : ∀ file ∈ cache.toList, ∀ g : SymbolGraph, Asks resolver _ (Named cache)
      (linkFile resolver (interfacesOf cache) g file) := fun file hfile g =>
    asks_linkFile (hkeyed.mem_toList_iff.mp hfile)
  unfold link
  refine ((asks_foldlM each graph).bind fun _ => asks_pure _).weaken ?_ fun _ => id
  rintro ⟨path, specifier⟩ ⟨file, hfile, hdistinct, hspecifies⟩
  obtain rfl : file.path = path := hkeyed path file hfile
  exact .inl ⟨file, hkeyed.mem_toList_iff.mpr hfile, rfl, hdistinct, hspecifies⟩

end Link

/-! ## Other diagnostics -/

variable {importer specifier : String}

/-- What keeps a file from being loaded is never an import. -/
theorem not_reports_of_load {e : FileEntry} {d : Diagnostic} (h : e.load = .error d) :
    ¬ d.reports importer specifier := by
  unfold FileEntry.load at h
  split at h
  · cases h
    exact Bool.false_ne_true
  · split at h
    · cases h
      exact Bool.false_ne_true
    · split at h
      · cases h
        exact Bool.false_ne_true
      · cases h

/-- Loading reports no imports. -/
theorem not_reports_of_mem_load {index : FileIndex} {d : Diagnostic} (h : d ∈ index.load.2) :
    ¬ d.reports importer specifier := by
  obtain ⟨attempt, hattempt, hd⟩ := List.mem_filterMap.mp h
  obtain ⟨e, -, hload⟩ := List.mem_map.mp hattempt
  split at hd
  · cases hd
  · cases hd
    exact not_reports_of_load hload

/-- What parsing finds fault with is never an import. -/
theorem not_reports_of_mem_faults {read : Script.Reader} {source : LoadedSource} {d : Diagnostic}
    (h : d ∈ ProgramCache.faults read source) : ¬ d.reports importer specifier := by
  unfold ProgramCache.faults at h
  dsimp only at h
  split at h
  · rw [List.mem_singleton.mp h]
    exact Bool.false_ne_true
  · cases h
  · rw [List.mem_singleton.mp h]
    exact Bool.false_ne_true

/-- Parsing reports no imports, whatever the texts. -/
theorem not_reports_of_mem_build {read : Script.Reader} {sources : List LoadedSource} :
    ∀ d ∈ (ProgramCache.build read sources).2, ¬ d.reports importer specifier := by
  intro d hd
  rw [ProgramCache.diagnostics_build] at hd
  obtain ⟨source, -, hfault⟩ := List.mem_flatMap.mp hd
  exact not_reports_of_mem_faults hfault

/-! ## Builds -/

variable {aliases : AliasMap} {table : AliasTable}

/-- A memory reports each question that was asked once, if its answer calls for it. So the reports
are exact if all that parsed files name was asked, and nothing else. -/
theorem exactReports_of_records {cache : ProgramCache} {resolver : Resolver} {memory : Memory}
    {earlier : List Diagnostic} {asked : List Question}
    (haliases : AliasTable.ofMap aliases = .ok resolver.aliases)
    (hearlier : ∀ d ∈ earlier, ∀ importer specifier, ¬ d.reports importer specifier)
    (records : memory.Records resolver earlier asked)
    (all : ∀ q : Question, (∃ file, cache.files[q.1]? = some file ∧
      file.program.DistinctImports ∧ file.program.Specifies q.2) → q ∈ asked)
    (only : ∀ q ∈ asked, Named cache q) : ExactReports cache aliases memory.diagnostics where
  once path file specifier target hfile hdistinct hspecifies escapes := by
    have foreign := (target_eq_foreign_iff haliases).mpr escapes
    have hasked := all (path, specifier) ⟨file, hfile, hdistinct, hspecifies⟩
    rw [records.filter_reports hearlier, if_pos hasked, answer_of_foreign foreign]
  unreported path specifier stays := by
    have silent : (resolver.answer path specifier).2 = [] := by
      refine List.eq_nil_iff_forall_not_mem.mpr fun d hd => ?_
      obtain ⟨target, foreign, -⟩ := mem_diagnostics_answer.mp hd
      exact stays target ((target_eq_foreign_iff haliases).mp foreign)
    rw [records.filter_reports hearlier, silent, ite_self]
  only path specifier target hreported := by
    have filtered : Diagnostic.illegalCrossPackageImport path specifier target ∈
        memory.diagnostics.filter (·.reports path specifier) :=
      List.mem_filter.mpr ⟨hreported, by simp [Diagnostic.reports]⟩
    rw [records.filter_reports hearlier] at filtered
    split at filtered
    · rename_i hasked
      obtain ⟨path', foreign, heq⟩ := mem_diagnostics_answer.mp filtered
      cases heq
      obtain ⟨file, hfile, hspecifies⟩ := only _ hasked
      exact ⟨file, hfile, hspecifies, (target_eq_foreign_iff haliases).mp foreign⟩
    · cases filtered

/-- The reports of a build are exact once its aliases make sense, whatever was reported before, as
long as that was about no imports. -/
theorem exactReports_buildWith {read : Script.Reader} {resolver : Resolver} {filesIndexed : Nat}
    {earlier : List Diagnostic} {sources : List LoadedSource}
    (haliases : AliasTable.ofMap aliases = .ok resolver.aliases)
    (hearlier : ∀ d ∈ earlier, ∀ importer specifier, ¬ d.reports importer specifier) :
    ExactReports (ProgramCache.build read sources).1 aliases
      (buildWith read resolver filesIndexed earlier sources).diagnostics := by
  let cache := (ProgramCache.build read sources).1
  let before := earlier ++ (ProgramCache.build read sources).2
  have hbefore : ∀ d ∈ before, ∀ importer specifier, ¬ d.reports importer specifier :=
    List.forall_mem_append.mpr
      ⟨hearlier, fun d hd importer specifier => not_reports_of_mem_build d hd⟩
  have linking : Asks resolver _ (Named cache) (link resolver cache (discover cache ∅)) :=
    asks_link (ProgramCache.keyed_build read sources)
  obtain ⟨asked, all, only, run⟩ := linking ⟨∅, before⟩
  have diagnostics : (buildWith read resolver filesIndexed earlier sources).diagnostics =
      (resolver.after ⟨∅, before⟩ asked).diagnostics := by
    rw [← run]
    rfl
  rw [diagnostics]
  exact exactReports_of_records haliases hbefore (Memory.records_after resolver before asked)
    all only

theorem buildGraphFromSources_of_ofMap (h : AliasTable.ofMap aliases = .ok table)
    (read : Script.Reader) (sources : List LoadedSource) :
    buildGraphFromSources read sources aliases =
      .ok (buildWith read ⟨.ofList (sources.map LoadedSource.path), table⟩ 0 [] sources) := by
  rw [buildGraphFromSources, new_of_ofMap h]
  rfl

theorem buildGraph_of_ofMap (h : AliasTable.ofMap aliases = .ok table) (read : Script.Reader)
    (index : FileIndex) :
    buildGraph read index aliases =
      .ok (buildWith read ⟨.ofList index.paths, table⟩ index.size index.load.2 index.load.1) := by
  rw [buildGraph, new_of_ofMap h]
  rfl

/-- **The reports of a build.** If the aliases make sense, both ways of building yield diagnostics
that report just the imports of parsed files into another package, each once, whoever asks for
them in following re-exports. -/
theorem build_reports_exact (read : Script.Reader) (aliases : AliasMap) (table : AliasTable)
    (haliases : AliasTable.ofMap aliases = .ok table) :
    (∀ sources : List LoadedSource, ∃ build,
      buildGraphFromSources read sources aliases = .ok build ∧
        ExactReports (ProgramCache.build read sources).1 aliases build.diagnostics) ∧
    ∀ index : FileIndex, ∃ build, buildGraph read index aliases = .ok build ∧
      ExactReports (ProgramCache.build read index.load.1).1 aliases build.diagnostics := by
  constructor
  · intro sources
    refine ⟨_, buildGraphFromSources_of_ofMap haliases read sources, ?_⟩
    exact exactReports_buildWith haliases nofun
  · intro index
    refine ⟨_, buildGraph_of_ofMap haliases read index, ?_⟩
    exact exactReports_buildWith haliases fun d hd importer specifier => not_reports_of_mem_load hd

/-- A file that draws on another package in two ways, and one that follows its re-export. -/
def crossingSources : List LoadedSource :=
  [⟨"packages/a/src/x.ts", "export { y } from '../../b/src/y'\nrequire('../../b/src/y')"⟩,
    ⟨"packages/a/src/z.ts", "import { y } from './x'"⟩,
    ⟨"packages/b/src/y.ts", "export const y = 1"⟩]

/-- The import is reported once. -/
theorem build_reports_exact_crossing :
    AliasTable.ofMap Landscape.twoPackages = .ok Landscape.twoPackagesTable ∧
      ∃ build, buildGraphFromSources readScript crossingSources Landscape.twoPackages =
          .ok build ∧
        ExactReports (ProgramCache.build readScript crossingSources).1 Landscape.twoPackages
          build.diagnostics ∧
        build.diagnostics = [.illegalCrossPackageImport "packages/a/src/x.ts" "../../b/src/y"
          "packages/b/src/y"] := by
  have haliases : AliasTable.ofMap Landscape.twoPackages = .ok Landscape.twoPackagesTable := by
    cbv
  obtain ⟨build, hbuild, exact⟩ :=
    (build_reports_exact readScript _ _ haliases).1 crossingSources
  have diagnostics : (buildWith readScript
      ⟨.ofList (crossingSources.map LoadedSource.path), Landscape.twoPackagesTable⟩ 0 []
      crossingSources).diagnostics = [.illegalCrossPackageImport "packages/a/src/x.ts"
        "../../b/src/y" "packages/b/src/y"] := by
    decide +kernel
  have same :=
    (buildGraphFromSources_of_ofMap haliases readScript crossingSources).symm.trans hbuild
  refine ⟨haliases, build, hbuild, exact, ?_⟩
  rw [← Except.ok.inj same, diagnostics]

end CodeAtlas
