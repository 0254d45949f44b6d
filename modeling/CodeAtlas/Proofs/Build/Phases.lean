import CodeAtlas.Proofs.Build.Reports
import CodeAtlas.Proofs.Graph.Tally
import CodeAtlas.Proofs.Link.Earlier

/-!
# The phases of a build

A build parses the texts, and then discovers and links the programs that came of them. The second
half sees nothing of the first but the cache: what was reported before stands in front of what
linking reports (`buildWith_eq`), and linking reports imports only. The graph grows from the empty
one (`grown_assembled`) and has one file for each program, so the counts of files that the phases
take agree (`stats_buildWith`).
-/

namespace CodeAtlas

open CodeAtlas.Link CodeAtlas.Resolution CodeAtlas.Script

/-- Discovering some programs and linking them, with nothing reported before. -/
def assembled (resolver : Resolver) (cache : ProgramCache) :
    (SymbolGraph × LinkSummary) × Memory :=
  (link resolver cache (discover cache ∅)).run ∅

variable {resolver : Resolver} {cache : ProgramCache}

/-- What was reported before stays in front of what linking reports, and has no influence on it. -/
theorem run_link_after (resolver : Resolver) (cache : ProgramCache) (earlier : List Diagnostic) :
    (link resolver cache (discover cache ∅)).run ⟨∅, earlier⟩ =
      ((assembled resolver cache).1, (assembled resolver cache).2.behind earlier) := by
  have start : (⟨∅, earlier⟩ : Memory) = Memory.behind earlier ∅ :=
    congrArg (Memory.mk ∅) (List.append_nil earlier).symm
  rw [start]
  exact commutes_link resolver cache (discover cache ∅) earlier ∅

/-! ## Growth -/

theorem grown_discoverFile {g : SymbolGraph} (hg : g.Grown) (file : ParsedFile) :
    (discoverFile g file).Grown :=
  List.foldlRecOn (motive := SymbolGraph.Grown) file.program.declaredSymbols _
    (hg.apply (.ensureFile file.path))
    fun _ grown s _ => grown.apply (.ensureSymbol file.path s.name s.kind)

theorem grown_discover (cache : ProgramCache) : (discover cache ∅).Grown :=
  List.foldlRecOn (motive := SymbolGraph.Grown) cache.toList _ SymbolGraph.grown_empty
    fun _ grown file _ => grown_discoverFile grown file

theorem grown_linkFile {interfaces : Interfaces} {g : SymbolGraph} (hg : g.Grown)
    (file : ParsedFile) (m : Memory) :
    ((linkFile resolver interfaces g file).run m).1.Grown := by
  unfold linkFile
  cases interfaces[file.path]? with
  | none => exact hg
  | some interface => exact hg.addEdges _

theorem grown_linkFiles {interfaces : Interfaces} {g : SymbolGraph} (hg : g.Grown)
    (files : List ParsedFile) (m : Memory) :
    ((files.foldlM (linkFile resolver interfaces) g).run m).1.Grown := by
  induction files generalizing g m with
  | nil => exact hg
  | cons file files ih =>
    rw [List.foldlM_cons]
    exact ih (grown_linkFile hg file m) _

/-- The graph of a build grew from the empty one, so that whatever is kept by adding nodes and edges
holds of it. -/
theorem grown_assembled (resolver : Resolver) (cache : ProgramCache) :
    (assembled resolver cache).1.1.Grown :=
  grown_linkFiles (grown_discover cache) cache.toList ∅

/-- Linking reports nothing but imports into other packages. Everything else that a build reports
comes from loading and parsing. -/
theorem exists_import_of_mem_assembled {d : Diagnostic}
    (h : d ∈ (assembled resolver cache).2.diagnostics) (hkeyed : cache.Keyed) :
    ∃ importer specifier target, d = .illegalCrossPackageImport importer specifier target := by
  have linking : Asks resolver _ (Named cache) (link resolver cache (discover cache ∅)) :=
    asks_link hkeyed
  obtain ⟨asked, -, -, run⟩ := linking ∅
  have recorded := (Memory.records_after resolver [] asked).diagnostics
  have memory : (assembled resolver cache).2 = resolver.after ⟨∅, []⟩ asked := run
  rw [memory, recorded, List.nil_append] at h
  obtain ⟨q, -, hd⟩ := List.mem_flatMap.mp h
  obtain ⟨target, -, rfl⟩ := mem_diagnostics_answer.mp hd
  exact ⟨q.1, q.2, target, rfl⟩

/-! ## One file for each program -/

theorem SymbolGraph.nodup_files (g : SymbolGraph) : g.files.Nodup := by
  have keys : (g.nodes.keys.filter NodeId.isFile).Nodup := Std.ExtTreeMap.nodup_keys.filter _
  refine keys.map_on ?_
  intro a ha b hb hpath
  have hfile := (List.mem_filter.mp ha).2
  have hfile' := (List.mem_filter.mp hb).2
  cases a <;> cases b <;> simp_all [NodeId.isFile, NodeId.path]

/-- The files of a graph are the paths of its file nodes. -/
theorem SymbolGraph.mem_files {g : SymbolGraph} {path : String} :
    path ∈ g.files ↔ g.contains (.file path) := by
  rw [files, List.mem_map]
  constructor
  · rintro ⟨id, hid, rfl⟩
    obtain ⟨hkey, hfile⟩ := List.mem_filter.mp hid
    cases id with
    | file p => exact mem_keys_iff.mp hkey
    | symbol p n => cases hfile
  · intro h
    exact ⟨.file path, List.mem_filter.mpr ⟨mem_keys_iff.mpr h, rfl⟩, rfl⟩

variable {g : SymbolGraph}

theorem Assembled.mem_files_iff (h : Assembled cache resolver g) (hkeyed : cache.Keyed)
    {path : String} : path ∈ g.files ↔ cache.contains path := by
  rw [SymbolGraph.mem_files]
  constructor
  · exact h.contains_path hkeyed
  · intro hpath
    obtain ⟨file, hfile⟩ := ProgramCache.contains_iff.mp hpath
    exact h.contains_file hkeyed hfile

theorem Assembled.files_perm (h : Assembled cache resolver g) (hkeyed : cache.Keyed) :
    g.files.Perm cache.files.keys := by
  refine (List.perm_ext_iff_of_nodup g.nodup_files Std.ExtTreeMap.nodup_keys).mpr ?_
  intro path
  rw [h.mem_files_iff hkeyed, ProgramCache.mem_keys]

theorem Assembled.length_files (h : Assembled cache resolver g) (hkeyed : cache.Keyed) :
    g.files.length = cache.size := by
  rw [(h.files_perm hkeyed).length_eq, Std.ExtTreeMap.length_keys, ProgramCache.size]

/-- Every program has an interface, so the edges of all are planned and none is passed over. -/
theorem plannedFiles_eq (hkeyed : cache.Keyed) :
    plannedFiles (interfacesOf cache) cache = cache.toList := by
  refine List.filter_eq_self.mpr ?_
  intro file hfile
  have interface : (interfacesOf cache)[file.path]?.isSome := by
    rw [getElem?_interfacesOf, hkeyed.mem_toList_iff.mp hfile]
    rfl
  rw [← Std.ExtTreeMap.isSome_getElem?_eq_contains]
  exact interface

/-! ## Builds -/

section Builds

variable (read : Script.Reader) (resolver : Resolver) (filesIndexed : Nat)
  (earlier : List Diagnostic) (sources : List LoadedSource)

theorem graph_buildWith :
    (buildWith read resolver filesIndexed earlier sources).graph =
      (assembled resolver (ProgramCache.build read sources).1).1.1 := by
  unfold buildWith discoverAll
  dsimp only
  rw [run_link_after]

theorem diagnostics_buildWith :
    (buildWith read resolver filesIndexed earlier sources).diagnostics =
      earlier ++ (ProgramCache.build read sources).2 ++
        (assembled resolver (ProgramCache.build read sources).1).2.diagnostics := by
  unfold buildWith discoverAll
  dsimp only
  rw [run_link_after]
  rfl

/-- The counts of a build: each step takes the files that the one before has left, and linking and
discovery lose none. -/
theorem stats_buildWith :
    let build := buildWith read resolver filesIndexed earlier sources
    let parsed := (ProgramCache.build read sources).1.size
    build.stats = ⟨filesIndexed, sources.length, parsed, parsed, parsed, build.graph.statistics⟩ ∧
      build.graph.statistics.fileNodes = parsed := by
  intro build parsed
  have keyed := ProgramCache.keyed_build read sources
  have assembly := assembled_buildWith read resolver filesIndexed earlier sources
  have grown : build.graph.Grown := by
    rw [graph_buildWith]
    exact grown_assembled resolver _
  constructor
  · have discovered := ProgramCache.length_toList (ProgramCache.build read sources).1
    have linked : (plannedFiles (interfacesOf (ProgramCache.build read sources).1)
        (ProgramCache.build read sources).1).length = parsed := by
      rw [plannedFiles_eq keyed, discovered]
    have stats : build.stats = ⟨filesIndexed, sources.length, parsed,
        (ProgramCache.build read sources).1.toList.length,
        (plannedFiles (interfacesOf (ProgramCache.build read sources).1)
          (ProgramCache.build read sources).1).length, build.graph.statistics⟩ := rfl
    rw [stats, discovered, linked]
  · rw [SymbolGraph.fileNodes_eq_length_files grown.labelled, assembly.length_files keyed]

end Builds

end CodeAtlas
