import CodeAtlas.Proofs.Build.Comparison

/-!
# Two ways of building

An index whose files are all scripts, readable and small enough, loads to its own texts
(`load_of_readable`). Building the index and building its texts, in any order, then come to the
same: they resolve against the same paths, parse into the same cache, and reject the same aliases
(`build_entry_points_agree`). Only the index has files to count.

A file that is left out when an index is loaded makes a difference, since its path is still known
to the resolver.
-/

namespace CodeAtlas

open CodeAtlas.Link CodeAtlas.Resolution CodeAtlas.Script

/-! ## Aliases that make no sense -/

namespace Resolution

theorem exists_cause_of_checkAlias {key target : String} {failure : Failure}
    (h : AliasTable.checkAlias key target = .error failure) :
    ∃ cause, failure = .invalidConfig cause := by
  unfold AliasTable.checkAlias at h
  split at h
  · cases h
    exact ⟨_, rfl⟩
  · dsimp only at h
    split at h
    · cases h
      exact ⟨_, rfl⟩
    · cases h

/-- Aliases are refused as a configuration that makes no sense, and in no other way. -/
theorem exists_cause_of_ofMap {aliases : AliasMap} {failure : Failure}
    (h : AliasTable.ofMap aliases = .error failure) : ∃ cause, failure = .invalidConfig cause := by
  unfold AliasTable.ofMap at h
  cases hchecked : aliases.toList.mapM fun e => AliasTable.checkAlias e.1 e.2 with
  | error failure' =>
    rw [hchecked] at h
    cases h
    obtain ⟨e, -, hfailed⟩ := exists_error_of_mapM hchecked
    exact exists_cause_of_checkAlias hfailed
  | ok checked =>
    rw [hchecked] at h
    cases h

end Resolution

/-! ## Readable indexes -/

namespace FileEntry

variable {e : FileEntry}

/-- The path and the text of a file, if the text can be read. -/
def pair? (e : FileEntry) : Option LoadedSource := e.source.text.toOption.map (⟨e.path, ·⟩)

/-- The file is a script that can be read, and neither the size that was declared nor that of the
text is too large. -/
structure Readable (e : FileEntry) : Prop where
  script : e.kind.isScript
  declared : e.size ≤ maxFileSize
  text : ∃ text, e.source.text = .ok text ∧ text.utf8ByteSize ≤ maxFileSize

theorem Readable.exists_load (h : e.Readable) :
    ∃ text, e.load = .ok ⟨e.path, text⟩ ∧ e.pair? = some ⟨e.path, text⟩ := by
  obtain ⟨text, htext, hsize⟩ := h.text
  refine ⟨text, ?_, ?_⟩
  · unfold load
    rw [if_neg (Nat.not_lt.mpr h.declared), htext]
    exact if_neg (Nat.not_lt.mpr hsize)
  · rw [pair?, htext]
    rfl

end FileEntry

namespace FileIndex

variable {index : FileIndex}

/-- The paths and texts of the files that can be read, in the order of their paths. -/
def pairs (index : FileIndex) : List LoadedSource := index.entries.filterMap FileEntry.pair?

def Readable (index : FileIndex) : Prop := ∀ e ∈ index.entries, e.Readable

/-- An index of readable files loads to its own texts, in the order of their paths, and reports
nothing. -/
theorem load_of_readable (h : index.Readable) : index.load = (index.pairs, []) := by
  have scripts : index.scripts = index.entries :=
    List.filter_eq_self.mpr fun e he => (h e he).script
  rw [load_eq, scripts]
  refine Prod.ext (List.filterMap_congr fun e he => ?_)
    (List.filterMap_eq_nil_iff.mpr fun e he => ?_)
  · obtain ⟨text, hload, hpair⟩ := (h e he).exists_load
    rw [FileEntry.loaded?, hload, hpair]
  · obtain ⟨text, hload, -⟩ := (h e he).exists_load
    rw [FileEntry.refused?, hload]

theorem Readable.insert (h : index.Readable) {path : String} {source : Source}
    (hnew : FileEntry.Readable ⟨indexPath path, source⟩) : (index.insert path source).Readable := by
  intro e he
  obtain ⟨key, hkey⟩ := mem_entries.mp he
  simp only [FileIndex.insert, Std.ExtTreeMap.getElem?_insert] at hkey
  split at hkey
  · cases hkey
    exact hnew
  · exact h e (mem_entries.mpr ⟨key, hkey⟩)

/-- The known paths are those of the texts. -/
theorem Keyed.map_path_pairs (hkeyed : index.Keyed) (h : index.Readable) :
    index.pairs.map LoadedSource.path = index.paths := by
  have own : ∀ e ∈ index.entries, (e.pair?).map LoadedSource.path = some e.path := by
    intro e he
    obtain ⟨text, -, hpair⟩ := (h e he).exists_load
    rw [hpair, Option.map_some]
  rw [← hkeyed.map_path_entries, pairs, List.map_filterMap, List.filterMap_congr own,
    List.filterMap_eq_map']

end FileIndex

/-! ## Builds -/

/-- An alias that makes no sense ends a build before any text is looked at. -/
theorem buildGraphFromSources_of_ofMap_error {aliases : AliasMap} {failure : Failure}
    (h : AliasTable.ofMap aliases = .error failure) (read : Script.Reader)
    (sources : List LoadedSource) :
    buildGraphFromSources read sources aliases = .error failure := by
  rw [buildGraphFromSources, Resolver.new, h]
  rfl

/-- The builds are alike: the graphs are equal, the counts are but for that of the files of an
index, and the diagnostics come in some order. -/
structure GraphBuild.Alike (build build' : GraphBuild) : Prop where
  graph : build.graph = build'.graph
  stats : { build.stats with filesIndexed := 0 } = { build'.stats with filesIndexed := 0 }
  diagnostics : build.diagnostics.Perm build'.diagnostics

/-- Once the resolver is the same, builds of the same texts are alike: parsing may report in another
order, and only the number of indexed files is left to differ. -/
theorem alike_buildWith (read : Script.Reader) (resolver : Resolver)
    (filesIndexed filesIndexed' : Nat) {sources sources' : List LoadedSource}
    (hperm : sources.Perm sources') (hdistinct : (sources.map LoadedSource.path).Nodup) :
    (buildWith read resolver filesIndexed [] sources).Alike
      (buildWith read resolver filesIndexed' [] sources') := by
  obtain ⟨cache, parsing⟩ := ProgramCache.build_perm read hperm hdistinct
  have graph : (buildWith read resolver filesIndexed [] sources).graph =
      (buildWith read resolver filesIndexed' [] sources').graph := by
    rw [graph_buildWith, graph_buildWith, cache]
  refine ⟨graph, ?_, ?_⟩
  · rw [(stats_buildWith read resolver filesIndexed [] sources).1,
      (stats_buildWith read resolver filesIndexed' [] sources').1, graph, cache, hperm.length_eq]
  · rw [diagnostics_buildWith, diagnostics_buildWith, List.nil_append, List.nil_append, cache]
    exact parsing.append_right _

/-- **The two ways of building agree.** If all files of an index are scripts that can be read and
are small enough, then building the index and building its texts, in whatever order, fail with the
same complaint about the aliases, or yield equal graphs, the same counts but for that of the files
of the index, and the same diagnostics in some order. -/
theorem build_entry_points_agree (read : Script.Reader) (aliases : AliasMap) (index : FileIndex)
    (hkeyed : index.Keyed) (hreadable : index.Readable) (sources : List LoadedSource)
    (hperm : sources.Perm index.pairs) :
    (∃ cause, buildGraph read index aliases = .error (.invalidConfig cause) ∧
      buildGraphFromSources read sources aliases = .error (.invalidConfig cause)) ∨
    ∃ build build', buildGraph read index aliases = .ok build ∧
      buildGraphFromSources read sources aliases = .ok build' ∧ build.Alike build' := by
  cases htable : AliasTable.ofMap aliases with
  | error failure =>
    obtain ⟨cause, rfl⟩ := exists_cause_of_ofMap htable
    exact .inl ⟨cause, buildGraph_of_ofMap_error htable read index,
      buildGraphFromSources_of_ofMap_error htable read sources⟩
  | ok table =>
    have known : (Std.ExtTreeSet.ofList (sources.map LoadedSource.path) : Text.TextSet) =
        .ofList index.paths := by
      rw [known_perm hperm, hkeyed.map_path_pairs hreadable]
    have distinct : (index.pairs.map LoadedSource.path).Nodup := by
      rw [hkeyed.map_path_pairs hreadable]
      exact Std.ExtTreeMap.nodup_keys
    refine .inr ⟨_, _, buildGraph_of_ofMap htable read index,
      buildGraphFromSources_of_ofMap htable read sources, ?_⟩
    rw [known, FileIndex.load_of_readable hreadable]
    exact alike_buildWith read _ index.size 0 hperm.symm distinct

/-- A script that imports one of another package, which is found first. -/
def importedFirst : FileIndex := .ofList [
  ("packages/b/src/y.ts", .ofText "export const y = 1"),
  ("packages/a/src/x.ts", .ofText "import '../../b/src/y'")]

/-- The texts in the order in which the files are found. -/
theorem build_entry_points_agree_imported_first :
    let sources : List LoadedSource := [⟨"packages/b/src/y.ts", "export const y = 1"⟩,
      ⟨"packages/a/src/x.ts", "import '../../b/src/y'"⟩]
    importedFirst.Keyed ∧ importedFirst.Readable ∧ sources.Perm importedFirst.pairs ∧
      ∃ build build', buildGraph readScript importedFirst Landscape.twoPackages = .ok build ∧
        buildGraphFromSources readScript sources Landscape.twoPackages = .ok build' ∧
        build.Alike build' := by
  intro sources
  have keyed : importedFirst.Keyed := FileIndex.keyed_ofList _
  have none : FileIndex.empty.Readable := fun e he => absurd he List.not_mem_nil
  have readable : importedFirst.Readable :=
    (none.insert ⟨by decide, by decide, _, rfl, by decide⟩).insert
      ⟨by decide, by decide, _, rfl, by decide⟩
  have pairs : importedFirst.pairs = sources.reverse := by decide
  have hperm : sources.Perm importedFirst.pairs := pairs ▸ (List.reverse_perm sources).symm
  have haliases : AliasTable.ofMap Landscape.twoPackages = .ok Landscape.twoPackagesTable := by cbv
  refine ⟨keyed, readable, hperm, ?_⟩
  rcases build_entry_points_agree readScript Landscape.twoPackages importedFirst keyed readable
    sources hperm with ⟨cause, failed, -⟩ | agree
  · rw [buildGraph_of_ofMap haliases] at failed
    cases failed
  · exact agree

end CodeAtlas
