import CodeAtlas.Proofs.Build.Phases
import CodeAtlas.Proofs.Source.Fates

/-!
# No file is lost

Every script of an index shows up in a build, once: as a file of the graph, or as a diagnostic that
tells what kept it out (`tales_build_perm`). So the counts of the build and the diagnostics add up
to the index. A file of another kind shows up nowhere, and what it holds makes no difference, since
it is never read (`build_accounts`).
-/

namespace CodeAtlas

open CodeAtlas.Link CodeAtlas.Resolution CodeAtlas.Script

/-- What a build tells of files: those in its graph, and those that a diagnostic says stayed out. -/
def GraphBuild.tales (build : GraphBuild) : List (String × Fate) :=
  build.graph.files.map (·, .cached) ++ build.diagnostics.filterMap Diagnostic.tale?

/-- How often a build tells of a fate of a file. -/
def GraphBuild.shows (build : GraphBuild) (path : String) (fate : Fate) : Nat :=
  build.tales.count (path, fate)

/-- How often a build tells of a fate. -/
def GraphBuild.total (build : GraphBuild) (fate : Fate) : Nat :=
  build.tales.countP (·.2 = fate)

/-- A build accounts for every file of an index, and its counts agree. -/
structure Accounts (read : Script.Reader) (index : FileIndex) (build : GraphBuild) : Prop where
  /-- A script has one of the fates, and the build tells of this one, once. -/
  script : ∀ e ∈ index.entries, e.kind.isScript → ∀ fate,
    build.shows e.path fate = if e.fate read = fate then 1 else 0
  tooLarge : ∀ e ∈ index.entries, e.kind.isScript →
    (build.shows e.path .tooLarge = 1 ↔ maxFileSize < e.size ∨
      ∃ text, e.source.text = .ok text ∧ maxFileSize < text.utf8ByteSize)
  /-- A file of another kind has no node, and the build does not tell of it. -/
  other : ∀ e ∈ index.entries, ¬ e.kind.isScript →
    build.graph.nodesOf e.path = [] ∧ ∀ fate, build.shows e.path fate = 0
  indexed : build.stats.filesIndexed = index.entries.length
  loaded : build.stats.filesLoaded + build.total .unreadable + build.total .tooLarge =
    (index.entries.filter fun e => e.kind.isScript).length
  parsed : build.stats.filesParsed + build.total .givenUp = build.stats.filesLoaded
  discovered : build.stats.filesDiscovered = build.stats.filesParsed
  linked : build.stats.filesLinked = build.stats.filesParsed
  nodes : build.stats.graph.fileNodes = build.stats.filesParsed

variable {read : Script.Reader} {index : FileIndex} {resolver : Resolver}

/-- The build of an index whose specifiers are resolved by `resolver`. -/
abbrev buildOf (read : Script.Reader) (resolver : Resolver) (index : FileIndex) : GraphBuild :=
  buildWith read resolver index.size index.load.2 index.load.1

/-! ## What a build tells -/

/-- The files of the graph are the scripts whose fate is to be cached: no other script has a node,
and no path of another kind can be among them. -/
theorem files_build_perm (hkeyed : index.Keyed) :
    (buildOf read resolver index).graph.files.Perm
      ((index.scripts.filter fun e => e.fate read = .cached).map FileEntry.path) := by
  have assembly := assembled_buildWith read resolver index.size index.load.2 index.load.1
  have cached := assembly.files_perm (ProgramCache.keyed_build read index.load.1)
  exact cached.trans (hkeyed.keys_build_perm read)

/-- Linking tells of no fate. -/
theorem filterMap_tale?_diagnostics (read : Script.Reader) (resolver : Resolver)
    (index : FileIndex) :
    (buildOf read resolver index).diagnostics.filterMap Diagnostic.tale? =
      (index.load.2 ++ (ProgramCache.build read index.load.1).2).filterMap Diagnostic.tale? := by
  have linking : (assembled resolver
      (ProgramCache.build read index.load.1).1).2.diagnostics.filterMap Diagnostic.tale? = [] := by
    refine List.filterMap_eq_nil_iff.mpr ?_
    intro d hd
    obtain ⟨importer, specifier, target, rfl⟩ :=
      exists_import_of_mem_assembled hd (ProgramCache.keyed_build read index.load.1)
    rfl
  rw [diagnostics_buildWith, List.filterMap_append, linking, List.append_nil]

/-- A build tells of every script, once, and of nothing else. -/
theorem tales_build_perm (hkeyed : index.Keyed) :
    (buildOf read resolver index).tales.Perm
      (index.scripts.map fun e => (e.path, e.fate read)) := by
  let tale := fun e : FileEntry => (e.path, e.fate read)
  have inside : ((buildOf read resolver index).graph.files.map (·, Fate.cached)).Perm
      ((index.scripts.filter fun e => e.fate read = .cached).map tale) := by
    have own : (index.scripts.filter fun e => e.fate read = .cached).map tale =
        ((index.scripts.filter fun e => e.fate read = .cached).map FileEntry.path).map
          (·, Fate.cached) := by
      rw [List.map_map]
      refine List.map_congr_left ?_
      intro e he
      have hfate : e.fate read = .cached := by simpa using (List.mem_filter.mp he).2
      exact congrArg (e.path, ·) hfate
    rw [own]
    exact (files_build_perm hkeyed).map _
  have outside := index.tales_perm read
  rw [← filterMap_tale?_diagnostics read resolver index] at outside
  -- the scripts inside and those outside make up all scripts
  have both := inside.append outside
  rw [← List.map_append] at both
  refine both.trans (List.Perm.map tale ?_)
  simpa using List.filter_append_perm (fun e => decide (e.fate read = .cached)) index.scripts

/-! ## Counts -/

/-- A build tells of the fate of a script once, and of no other fate of it. This reads one entry off
`tales_build_perm`, where the paths of the scripts do not repeat. -/
theorem shows_script (hkeyed : index.Keyed) {e : FileEntry} (he : e ∈ index.scripts)
    (fate : Fate) :
    (buildOf read resolver index).shows e.path fate = if e.fate read = fate then 1 else 0 := by
  have distinct : (index.scripts.map fun e => (e.path, e.fate read)).Nodup := by
    refine List.Nodup.of_map Prod.fst ?_
    rw [List.map_map]
    exact hkeyed.nodup_paths_scripts
  have member : (e.path, fate) ∈ (index.scripts.map fun e => (e.path, e.fate read)) ↔
      e.fate read = fate := by
    rw [List.mem_map]
    constructor
    · rintro ⟨e', he', htale⟩
      obtain ⟨hpath, hfate⟩ := Prod.mk.inj htale
      obtain rfl : e' = e := List.inj_on_of_nodup_map hkeyed.nodup_paths_scripts he' he hpath
      exact hfate
    · rintro rfl
      exact ⟨e, he, rfl⟩
  rw [GraphBuild.shows, (tales_build_perm hkeyed).count_eq, distinct.count]
  simp only [member]

theorem shows_other (hkeyed : index.Keyed) {path : String}
    (hpath : ∀ e ∈ index.scripts, e.path ≠ path) (fate : Fate) :
    (buildOf read resolver index).shows path fate = 0 := by
  rw [GraphBuild.shows, (tales_build_perm hkeyed).count_eq, List.count_eq_zero, List.mem_map]
  rintro ⟨e, he, htale⟩
  exact hpath e he (Prod.mk.inj htale).1

theorem total_build (hkeyed : index.Keyed) (fate : Fate) :
    (buildOf read resolver index).total fate =
      index.scripts.countP fun e => e.fate read = fate := by
  rw [GraphBuild.total, (tales_build_perm hkeyed).countP_eq, List.countP_map]
  rfl

/-- The counts of a build count fates: what was loaded was cached or given up later on, and every
step after parsing counts the cached scripts. -/
theorem stats_buildOf (hkeyed : index.Keyed) :
    let cached := index.scripts.countP fun e => e.fate read = .cached
    (buildOf read resolver index).stats =
      ⟨index.size, index.load.1.length, cached, cached, cached,
        (buildOf read resolver index).graph.statistics⟩ := by
  intro cached
  have stats := (stats_buildWith read resolver index.size index.load.2 index.load.1).1
  rw [stats, hkeyed.size_build]

/-- The four fates exclude each other and leave nothing out, so their numbers add up to that of the
scripts. -/
theorem countP_fates (read : Script.Reader) (scripts : List FileEntry) :
    scripts.countP (fun e => e.fate read = .cached) +
        scripts.countP (fun e => e.fate read = .givenUp) +
        scripts.countP (fun e => e.fate read = .unreadable) +
        scripts.countP (fun e => e.fate read = .tooLarge) = scripts.length := by
  induction scripts with
  | nil => rfl
  | cons e scripts ih =>
    simp only [List.countP_cons, List.length_cons]
    cases e.fate read <;> simp <;> omega

/-- A build accounts for its index, whatever the resolver: what each script comes to does not depend
on how specifiers are resolved. -/
theorem accounts_build (hkeyed : index.Keyed) :
    Accounts read index (buildOf read resolver index) where
  script e he hscript fate := shows_script hkeyed (List.mem_filter.mpr ⟨he, hscript⟩) fate
  tooLarge e he hscript := by
    have large : e.fate read = .tooLarge ↔ _ := FileEntry.fate_eq_tooLarge_iff
    rw [shows_script hkeyed (List.mem_filter.mpr ⟨he, hscript⟩), ← large]
    by_cases hfate : e.fate read = .tooLarge <;> simp [hfate]
  other e he hother := by
    have absent : ∀ e' ∈ index.scripts, e'.path ≠ e.path := by
      intro e' he' hpath
      have hscript := (List.mem_filter.mp he').2
      rw [FileEntry.kind, hpath] at hscript
      exact hother hscript
    refine ⟨?_, shows_other hkeyed absent⟩
    rw [List.eq_nil_iff_forall_not_mem]
    intro id hid
    obtain ⟨hnode, hpath⟩ := SymbolGraph.mem_nodesOf.mp hid
    have assembly := assembled_buildWith read resolver index.size index.load.2 index.load.1
    have cached := assembly.contains_path (ProgramCache.keyed_build read index.load.1) hnode
    rw [hpath, hkeyed.contains_build_iff] at cached
    obtain ⟨e', he', hpath', -⟩ := cached
    exact absent e' he' hpath'
  indexed := by rw [stats_buildOf hkeyed, FileIndex.length_entries]
  loaded := by
    have loaded := index.length_load read
    have all := countP_fates read index.scripts
    rw [stats_buildOf hkeyed, total_build hkeyed, total_build hkeyed, ← FileIndex.scripts]
    dsimp only
    omega
  parsed := by
    have loaded := index.length_load read
    rw [stats_buildOf hkeyed, total_build hkeyed]
    dsimp only
    omega
  discovered := by rw [stats_buildOf hkeyed]
  linked := by rw [stats_buildOf hkeyed]
  nodes := by
    have nodes := (stats_buildWith read resolver index.size index.load.2 index.load.1).2
    rw [stats_buildOf hkeyed, nodes, hkeyed.size_build]

/-- Only the paths of an index and its scripts reach a build. The texts of files of other kinds are
never asked for, so they may be anything. -/
theorem buildGraph_congr {index' : FileIndex} (hpaths : index'.paths = index.paths)
    (hscripts : ∀ path, index'.script? path = index.script? path) (read : Script.Reader)
    (aliases : AliasMap) : buildGraph read index' aliases = buildGraph read index aliases := by
  have scripts : index'.scripts = index.scripts := by
    rw [FileIndex.scripts_eq, FileIndex.scripts_eq, hpaths, funext hscripts]
  have load : index'.load = index.load := by rw [FileIndex.load, scripts, FileIndex.load]
  have size : index'.size = index.size := by
    rw [← FileIndex.length_paths, hpaths, FileIndex.length_paths]
  rw [buildGraph, buildGraph, hpaths, load, size]

/-- **No file is lost.** If the aliases make sense, an index with every file under its own path
is built into a graph that accounts for all of its files, and so is every index that differs from
it in nothing but what its files of other kinds hold. -/
theorem build_accounts (read : Script.Reader) (index : FileIndex) (hkeyed : index.Keyed)
    (aliases : AliasMap) (table : AliasTable) (haliases : AliasTable.ofMap aliases = .ok table) :
    ∃ build, buildGraph read index aliases = .ok build ∧ Accounts read index build ∧
      ∀ index' : FileIndex, index'.paths = index.paths →
        (∀ path, index'.script? path = index.script? path) →
        buildGraph read index' aliases = .ok build := by
  have built := buildGraph_of_ofMap haliases read index
  refine ⟨_, built, accounts_build hkeyed, ?_⟩
  intro index' hpaths hscripts
  rw [buildGraph_congr hpaths hscripts, built]

/-- A file for each fate, and one that is no script. -/
def mixedIndex : FileIndex := .ofList [
  ("a.ts", .ofText "export const x = 1"),
  ("b.ts", .unreadable 8 (.io .isDirectory)),
  ("c.ts", ⟨maxFileSize + 1, .ok "let y".toUTF8, .ok "let y"⟩),
  ("d.ts", .ofText "let = ="),
  ("e.md", .ofText "# Notes")]

/-- One script of each fate is told of, and one program is parsed. -/
theorem build_accounts_mixed :
    AliasTable.ofMap ∅ = .ok ⟨[], []⟩ ∧ mixedIndex.Keyed ∧
      ∃ build, buildGraph readScript mixedIndex ∅ = .ok build ∧
        Accounts readScript mixedIndex build ∧
        build.tales = [("a.ts", .cached), ("b.ts", .unreadable), ("c.ts", .tooLarge),
          ("d.ts", .givenUp)] ∧
        build.stats.filesParsed = 1 := by
  have haliases : AliasTable.ofMap ∅ = .ok ⟨[], []⟩ := by decide +kernel
  have hkeyed : mixedIndex.Keyed := FileIndex.keyed_ofList _
  obtain ⟨build, hbuild, accounts, -⟩ := build_accounts readScript mixedIndex hkeyed ∅ _ haliases
  have told : (buildGraph readScript mixedIndex ∅).toOption.map
      (fun build => (build.tales, build.stats.filesParsed)) =
        some ([("a.ts", .cached), ("b.ts", .unreadable), ("c.ts", .tooLarge),
          ("d.ts", .givenUp)], 1) := by
    decide +kernel
  rw [hbuild] at told
  obtain ⟨tales, parsed⟩ := Prod.mk.inj (Option.some.inj told)
  exact ⟨haliases, hkeyed, build, hbuild, accounts, tales, parsed⟩

end CodeAtlas
