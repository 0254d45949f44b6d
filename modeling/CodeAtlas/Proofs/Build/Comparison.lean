import CodeAtlas.Proofs.Build.Phases
import CodeAtlas.Proofs.Source.Fates

/-!
# Two builds side by side

Linking sees the cache and the known paths. So two builds yield one graph wherever these agree:

* if two indexes have the same paths and differ in a file only that gets into neither cache, be it
  for whatever reason (`build_isolates`);
* if the same texts, of distinct paths, are given in two orders (`build_reorder`).

The diagnostics of linking are then the same, in the same order. What loading and parsing report
comes file by file, and only what they report of the files that differ may differ.
-/

namespace CodeAtlas

open CodeAtlas.Link CodeAtlas.Resolution CodeAtlas.Script

variable {read : Script.Reader} {resolver : Resolver}

/-! ## Files that stay out of the cache -/

/-- Whether a diagnostic tells that the file `p` stayed out of the cache. -/
def Diagnostic.keepsOut (p : String) (d : Diagnostic) : Bool := d.path = p && d.fate?.isSome

/-- Whatever is reported of a script that stays out of the cache tells that it does. Faults that a
reading went past are reported of cached scripts only. -/
theorem FileEntry.keepsOut_of_mem_reports {e : FileEntry} (h : e.fate read ≠ .cached)
    {d : Diagnostic} (hd : d ∈ e.reports read) : d.keepsOut e.path := by
  have own : d.path = e.path := path_of_mem_reports hd
  have told : d.fate?.isSome := by
    unfold reports loaded? refused? at hd
    rcases load_cases read e with ⟨d', hload, htale, -⟩ | ⟨text, hload, hfate⟩
    · rw [hload] at hd
      obtain rfl : d = d' := by simpa using hd
      obtain ⟨fate, hfate, -⟩ := Option.map_eq_some_iff.mp htale
      rw [hfate]
      rfl
    · have givenUp : (read e.path text).program = none := by
        rw [hfate] at h
        simpa using h
      rw [hload] at hd
      simp only [Option.toList_none, List.nil_append, Option.toList_some, List.flatMap_singleton,
        ProgramCache.faults, givenUp, List.mem_singleton] at hd
      rw [hd]
      rfl
  simp [Diagnostic.keepsOut, own, told]

namespace FileIndex

variable {index index' : FileIndex} {p : String}

/-- The indexes have the same paths, and the same files but for the one of `p`. -/
structure AgreeExcept (index index' : FileIndex) (p : String) : Prop where
  contains : ∀ path, index.contains path ↔ index'.contains path
  files : ∀ path : String, path ≠ p → index.files[path]? = index'.files[path]?

theorem agreeExcept_insert (index : FileIndex) (path : String) (source source' : Source) :
    (index.insert path source).AgreeExcept (index.insert path source') (indexPath path) where
  contains other := by simp [FileIndex.contains, FileIndex.insert, Std.ExtTreeMap.contains_insert]
  files other hother := by
    simp [FileIndex.insert, Std.ExtTreeMap.getElem?_insert, Ne.symm hother]

/-- The resolver of a build knows the paths of the index only, so it is the same for both indexes.
-/
theorem AgreeExcept.paths_eq (h : index.AgreeExcept index' p) : index.paths = index'.paths := by
  have units : index.files.map (fun _ _ => ()) = index'.files.map (fun _ _ => ()) := by
    refine Std.ExtTreeMap.ext_getElem? fun path => ?_
    have same := Bool.eq_iff_iff.mpr (h.contains path)
    simp only [FileIndex.contains, ← Std.ExtTreeMap.isSome_getElem?_eq_contains] at same
    rw [Std.ExtTreeMap.getElem?_map, Std.ExtTreeMap.getElem?_map]
    cases hl : index.files[path]? <;> cases hr : index'.files[path]? <;> simp_all
  have keys := congrArg Std.ExtTreeMap.keys units
  rw [Std.ExtTreeMap.keys_map, Std.ExtTreeMap.keys_map] at keys
  exact keys

theorem AgreeExcept.script?_eq (h : index.AgreeExcept index' p) {path : String}
    (hpath : path ≠ p) : index.script? path = index'.script? path := by
  rw [script?, script?, h.files path hpath]

/-- A file of another kind is in no cache. -/
theorem Keyed.not_contains_of_kind (h : index.Keyed) (hkind : ¬ (SourceKind.ofPath p).isScript) :
    ¬ (ProgramCache.build read index.load.1).1.contains p := by
  rw [h.contains_build_iff]
  rintro ⟨e, he, rfl, -⟩
  exact hkind (List.mem_filter.mp he).2

/-- If the file of `p` gets into neither cache, the caches are equal, and with them all that linking
sees. -/
theorem AgreeExcept.cache_eq (h : index.AgreeExcept index' p) (hkeyed : index.Keyed)
    (hkeyed' : index'.Keyed) (out : ¬ (ProgramCache.build read index.load.1).1.contains p)
    (out' : ¬ (ProgramCache.build read index'.load.1).1.contains p) :
    (ProgramCache.build read index.load.1).1 = (ProgramCache.build read index'.load.1).1 := by
  refine ProgramCache.ext fun path => ?_
  by_cases hpath : path = p
  · rw [hpath, ProgramCache.getElem?_eq_none out, ProgramCache.getElem?_eq_none out']
  · rw [hkeyed.getElem?_build_load, hkeyed'.getElem?_build_load, h.script?_eq hpath]

/-! ## Reports path by path -/

/-- What is reported of the file of `p` is left out if it stays out of the cache, whether loading
reports it or parsing. -/
theorem Keyed.filter_reports_eq_nil (h : index.Keyed)
    (out : ¬ (ProgramCache.build read index.load.1).1.contains p) {ds : List Diagnostic}
    (hds : ∀ d ∈ ds, ∃ e, index.script? p = some e ∧ d ∈ e.reports read) :
    ds.filter (fun d => !d.keepsOut p) = [] := by
  refine List.filter_eq_nil_iff.mpr ?_
  intro d hd
  obtain ⟨e, he, hreport⟩ := hds d hd
  have own : e.path = p := h p e (script?_eq_some_iff.mp he).1
  have stays : e.fate read ≠ .cached := by
    intro hfate
    exact out (h.contains_build_iff.mpr ⟨e, h.mem_scripts_iff.mpr (own ▸ he), own, hfate⟩)
  simp [← own, FileEntry.keepsOut_of_mem_reports stays hreport]

/-- What loading reports of the file of a path. -/
def loadingAt (index : FileIndex) (path : String) : List Diagnostic :=
  ((index.script? path).bind FileEntry.refused?).toList

/-- What parsing reports of the file of a path. -/
def parsingAt (read : Script.Reader) (index : FileIndex) (path : String) : List Diagnostic :=
  ((index.script? path).bind FileEntry.loaded?).toList.flatMap (ProgramCache.faults read)

/-- Loading reports path by path. With the paths of two indexes equal, this lets their reports be
compared one file at a time. -/
theorem loading_eq (index : FileIndex) : index.load.2 = index.paths.flatMap index.loadingAt := by
  rw [load_eq, scripts_eq]
  dsimp only
  rw [List.filterMap_filterMap, List.filterMap_eq_flatMap_toList]
  rfl

theorem parsing_eq (read : Script.Reader) (index : FileIndex) :
    (ProgramCache.build read index.load.1).2 = index.paths.flatMap (index.parsingAt read) := by
  rw [ProgramCache.diagnostics_build, load_eq, scripts_eq]
  dsimp only
  rw [List.filterMap_filterMap, List.filterMap_eq_flatMap_toList, List.flatMap_assoc]
  rfl

theorem mem_reports_of_loadingAt {d : Diagnostic} (hd : d ∈ index.loadingAt p) :
    ∃ e, index.script? p = some e ∧ d ∈ e.reports read := by
  obtain ⟨e, he, hrefused⟩ := Option.bind_eq_some_iff.mp (Option.mem_toList.mp hd)
  exact ⟨e, he, List.mem_append_left _ (Option.mem_toList.mpr hrefused)⟩

theorem mem_reports_of_parsingAt {d : Diagnostic} (hd : d ∈ index.parsingAt read p) :
    ∃ e, index.script? p = some e ∧ d ∈ e.reports read := by
  obtain ⟨source, hsource, hfault⟩ := List.mem_flatMap.mp hd
  obtain ⟨e, he, hloaded⟩ := Option.bind_eq_some_iff.mp (Option.mem_toList.mp hsource)
  refine ⟨e, he, List.mem_append_right _ (List.mem_flatMap.mpr ⟨source, ?_, hfault⟩)⟩
  exact Option.mem_toList.mpr hloaded

/-- Reports that agree at every path but `p`, and of which none at `p` is kept, agree as a whole. -/
theorem AgreeExcept.filter_flatMap_eq (h : index.AgreeExcept index' p)
    {at' at'' : String → List Diagnostic} (hat : ∀ path, path ≠ p → at' path = at'' path)
    (hp : (at' p).filter (fun d => !d.keepsOut p) = [])
    (hp' : (at'' p).filter (fun d => !d.keepsOut p) = []) :
    (index.paths.flatMap at').filter (fun d => !d.keepsOut p) =
      (index'.paths.flatMap at'').filter (fun d => !d.keepsOut p) := by
  have each : ∀ path, (at' path).filter (fun d => !d.keepsOut p) =
      (at'' path).filter (fun d => !d.keepsOut p) := by
    intro path
    by_cases hpath : path = p
    · rw [hpath, hp, hp']
    · rw [hat path hpath]
  rw [List.filter_flatMap, List.filter_flatMap, h.paths_eq]
  exact List.flatMap_congr fun path _ => each path

/-- The indexes report the same of all files but the one of `p`. -/
theorem AgreeExcept.filter_reports_eq (h : index.AgreeExcept index' p) (hkeyed : index.Keyed)
    (hkeyed' : index'.Keyed) (out : ¬ (ProgramCache.build read index.load.1).1.contains p)
    (out' : ¬ (ProgramCache.build read index'.load.1).1.contains p) :
    (index.load.2 ++ (ProgramCache.build read index.load.1).2).filter (fun d => !d.keepsOut p) =
      (index'.load.2 ++ (ProgramCache.build read index'.load.1).2).filter
        (fun d => !d.keepsOut p) := by
  have loading := h.filter_flatMap_eq
    (fun path hpath => by rw [loadingAt, loadingAt, h.script?_eq hpath])
    (hkeyed.filter_reports_eq_nil out fun d hd => mem_reports_of_loadingAt hd)
    (hkeyed'.filter_reports_eq_nil out' fun d hd => mem_reports_of_loadingAt hd)
  have parsing := h.filter_flatMap_eq
    (fun path hpath => by rw [parsingAt, parsingAt, h.script?_eq hpath])
    (hkeyed.filter_reports_eq_nil out fun d hd => mem_reports_of_parsingAt hd)
    (hkeyed'.filter_reports_eq_nil out' fun d hd => mem_reports_of_parsingAt hd)
  rw [List.filter_append, List.filter_append, loading_eq, loading_eq, parsing_eq, parsing_eq,
    loading, parsing]

end FileIndex

/-! ## Builds of two indexes -/

/-- An alias that makes no sense ends a build before any file is looked at. -/
theorem buildGraph_of_ofMap_error {aliases : AliasMap} {failure : Failure}
    (h : AliasTable.ofMap aliases = .error failure) (read : Script.Reader) (index : FileIndex) :
    buildGraph read index aliases = .error failure := by
  rw [buildGraph, Resolver.new, h]
  rfl

/-- **Files that fail are isolated.** Two indexes that differ in the file of `p` only fail alike,
or are built into the same graph with the same diagnostics but for those that tell that `p` stayed
out of the cache, if it does so in both, or if it is of a kind that is not parsed. -/
theorem build_isolates (read : Script.Reader) (aliases : AliasMap) (index index' : FileIndex)
    (p : String) (hkeyed : index.Keyed) (hkeyed' : index'.Keyed)
    (h : index.AgreeExcept index' p)
    (out : ¬ (SourceKind.ofPath p).isScript ∨
      (¬ (ProgramCache.build read index.load.1).1.contains p ∧
        ¬ (ProgramCache.build read index'.load.1).1.contains p)) :
    (∃ failure, buildGraph read index aliases = .error failure ∧
      buildGraph read index' aliases = .error failure) ∨
    ∃ build build', buildGraph read index aliases = .ok build ∧
      buildGraph read index' aliases = .ok build' ∧
      build.graph = build'.graph ∧
      build.diagnostics.filter (fun d => !d.keepsOut p) =
        build'.diagnostics.filter (fun d => !d.keepsOut p) := by
  have absent : ¬ (ProgramCache.build read index.load.1).1.contains p ∧
      ¬ (ProgramCache.build read index'.load.1).1.contains p := by
    rcases out with hkind | absent
    · exact ⟨hkeyed.not_contains_of_kind hkind, hkeyed'.not_contains_of_kind hkind⟩
    · exact absent
  cases htable : AliasTable.ofMap aliases with
  | error failure =>
    exact .inl ⟨failure, buildGraph_of_ofMap_error htable read index,
      buildGraph_of_ofMap_error htable read index'⟩
  | ok table =>
    have cache := h.cache_eq hkeyed hkeyed' absent.1 absent.2
    have reports := h.filter_reports_eq hkeyed hkeyed' absent.1 absent.2
    refine .inr ⟨_, _, buildGraph_of_ofMap htable read index,
      buildGraph_of_ofMap htable read index', ?_, ?_⟩
    · rw [graph_buildWith, graph_buildWith, cache, h.paths_eq]
    · rw [diagnostics_buildWith, diagnostics_buildWith, List.filter_append, reports, cache,
        h.paths_eq]
      exact (List.filter_append _ _).symm

/-- A script that imports the file that is added under `b.ts`. -/
def importerIndex : FileIndex := .ofList [("a.ts", .ofText "import './b'")]

/-- That file can not be read, or its text is given up. Either way the import leads to it. -/
theorem build_isolates_unreadable :
    let unreadable := importerIndex.insert "b.ts" (.unreadable 8 (.io .isDirectory))
    let malformed := importerIndex.insert "b.ts" (.ofText "let = =")
    unreadable.Keyed ∧ malformed.Keyed ∧ unreadable.AgreeExcept malformed "b.ts" ∧
      ¬ (ProgramCache.build readScript unreadable.load.1).1.contains "b.ts" ∧
      ¬ (ProgramCache.build readScript malformed.load.1).1.contains "b.ts" ∧
      ((∃ failure, buildGraph readScript unreadable ∅ = .error failure ∧
        buildGraph readScript malformed ∅ = .error failure) ∨
      ∃ build build', buildGraph readScript unreadable ∅ = .ok build ∧
        buildGraph readScript malformed ∅ = .ok build' ∧
        build.graph = build'.graph ∧
        build.diagnostics.filter (fun d => !d.keepsOut "b.ts") =
          build'.diagnostics.filter (fun d => !d.keepsOut "b.ts")) := by
  intro unreadable malformed
  have keyed : unreadable.Keyed := (FileIndex.keyed_ofList _).insert _ _
  have keyed' : malformed.Keyed := (FileIndex.keyed_ofList _).insert _ _
  have agree : unreadable.AgreeExcept malformed "b.ts" :=
    FileIndex.agreeExcept_insert importerIndex "b.ts" _ _
  have out : ¬ (ProgramCache.build readScript unreadable.load.1).1.contains "b.ts" := by
    decide
  have out' : ¬ (ProgramCache.build readScript malformed.load.1).1.contains "b.ts" := by
    decide
  exact ⟨keyed, keyed', agree, out, out',
    build_isolates readScript ∅ unreadable malformed "b.ts" keyed keyed' agree (.inr ⟨out, out'⟩)⟩

/-! ## Texts in another order -/

theorem known_perm {sources sources' : List LoadedSource} (hperm : sources.Perm sources') :
    (Std.ExtTreeSet.ofList (sources.map LoadedSource.path) : Text.TextSet) =
      .ofList (sources'.map LoadedSource.path) := by
  refine Std.ExtTreeSet.ext_mem fun path => ?_
  have same : path ∈ sources.map LoadedSource.path ↔ path ∈ sources'.map LoadedSource.path :=
    (hperm.map LoadedSource.path).mem_iff
  simpa [Std.ExtTreeSet.mem_ofList] using same

/-- **The order of the texts does not matter.** If the aliases make sense, some texts of distinct
paths yield the same graph and the same counts in any order. The diagnostics are those of parsing,
which are permuted, and then those of linking, which come in the same order. -/
theorem build_reorder (read : Script.Reader) (sources sources' : List LoadedSource)
    (hperm : sources.Perm sources') (hdistinct : (sources.map LoadedSource.path).Nodup)
    (aliases : AliasMap) (table : AliasTable) (haliases : AliasTable.ofMap aliases = .ok table) :
    ∃ build build' linking,
      buildGraphFromSources read sources aliases = .ok build ∧
      buildGraphFromSources read sources' aliases = .ok build' ∧
      build.graph = build'.graph ∧
      build.stats = build'.stats ∧
      build.diagnostics.Perm build'.diagnostics ∧
      build.diagnostics = (ProgramCache.build read sources).2 ++ linking ∧
      build'.diagnostics = (ProgramCache.build read sources').2 ++ linking := by
  obtain ⟨cache, parsing⟩ := ProgramCache.build_perm read hperm hdistinct
  have graph : ∀ known : Text.TextSet,
      (buildWith read ⟨known, table⟩ 0 [] sources).graph =
        (buildWith read ⟨known, table⟩ 0 [] sources').graph := by
    intro known
    rw [graph_buildWith, graph_buildWith, cache]
  have stats : ∀ known : Text.TextSet,
      (buildWith read ⟨known, table⟩ 0 [] sources).stats =
        (buildWith read ⟨known, table⟩ 0 [] sources').stats := by
    intro known
    rw [(stats_buildWith read _ 0 [] sources).1, (stats_buildWith read _ 0 [] sources').1,
      graph known, cache, hperm.length_eq]
  have linked := diagnostics_buildWith read ⟨.ofList (sources.map LoadedSource.path), table⟩ 0 []
    sources
  have linked' := diagnostics_buildWith read ⟨.ofList (sources.map LoadedSource.path), table⟩ 0 []
    sources'
  rw [List.nil_append] at linked linked'
  rw [← cache] at linked'
  -- the two resolvers know the same paths, so each equation is one for a single resolver
  refine ⟨_, _, _, buildGraphFromSources_of_ofMap haliases read sources,
    buildGraphFromSources_of_ofMap haliases read sources', ?_, ?_, ?_, linked, ?_⟩
  · rw [← known_perm hperm]
    exact graph _
  · rw [← known_perm hperm]
    exact stats _
  · rw [← known_perm hperm, linked, linked']
    exact parsing.append_right _
  · rw [← known_perm hperm]
    exact linked'

/-- A text with a fault, one that is given up and one that leads from package to package. -/
def faultySources : List LoadedSource :=
  [⟨"packages/a/src/x.ts", "import '../../b/src/y'"⟩, ⟨"packages/b/src/y.ts", "let = ="⟩,
    ⟨"packages/b/src/z.ts", "let = ="⟩]

/-- The reversed texts. -/
theorem build_reorder_reverse :
    faultySources.Perm faultySources.reverse ∧
      (faultySources.map LoadedSource.path).Nodup ∧
      AliasTable.ofMap Landscape.twoPackages = .ok Landscape.twoPackagesTable ∧
      ∃ build build' linking,
        buildGraphFromSources readScript faultySources Landscape.twoPackages = .ok build ∧
        buildGraphFromSources readScript faultySources.reverse Landscape.twoPackages =
          .ok build' ∧
        build.graph = build'.graph ∧
        build.stats = build'.stats ∧
        build.diagnostics.Perm build'.diagnostics ∧
        build.diagnostics = (ProgramCache.build readScript faultySources).2 ++ linking ∧
        build'.diagnostics =
          (ProgramCache.build readScript faultySources.reverse).2 ++ linking := by
  have hperm : faultySources.Perm faultySources.reverse := (List.reverse_perm _).symm
  have hdistinct : (faultySources.map LoadedSource.path).Nodup := by decide
  have haliases : AliasTable.ofMap Landscape.twoPackages = .ok Landscape.twoPackagesTable := by cbv
  exact ⟨hperm, hdistinct, haliases, build_reorder readScript _ _ hperm hdistinct _ _ haliases⟩

end CodeAtlas
