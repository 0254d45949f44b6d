import CodeAtlas.Proofs.Source.Loading
import Mathlib.Data.List.Nodup

/-!
# Parsing some texts

What comes of a text, a file or none and some diagnostics, depends on the text alone. The cache
of some texts holds, under a path, the file of the last text of that path that was not given up
(`getElem?_build`), and the diagnostics come in the order of the texts (`diagnostics_build`). So
where no path repeats, the order of the texts decides about nothing but the order of the
diagnostics (`build_perm`).
-/

namespace CodeAtlas.ProgramCache

variable {read : Script.Reader} {source : LoadedSource} {sources sources' : List LoadedSource}

theorem path_of_parsed? {file : ParsedFile} (h : parsed? read source = some file) :
    file.path = source.path := by
  obtain ⟨parsed, -, rfl⟩ := Option.map_eq_some_iff.mp h
  rfl

theorem path_of_mem_faults {d : Diagnostic} (h : d ∈ faults read source) :
    d.path = source.path := by
  unfold faults at h
  dsimp only at h
  split at h
  · rw [List.mem_singleton.mp h]
    rfl
  · cases h
  · rw [List.mem_singleton.mp h]
    rfl

/-! ## One text after another -/

theorem diagnostics_add (state : ProgramCache × List Diagnostic) (source : LoadedSource) :
    (add read state source).2 = state.2 ++ faults read source :=
  rfl

/-- The file that a text yields for a path. -/
def parsedAt? (read : Script.Reader) (path : String) (source : LoadedSource) :
    Option ParsedFile :=
  (parsed? read source).filter (·.path = path)

theorem parsedAt?_eq_some_iff {path : String} {file : ParsedFile} :
    parsedAt? read path source = some file ↔ parsed? read source = some file ∧ file.path = path := by
  simp [parsedAt?, Option.filter_eq_some_iff]

/-- One text more has a say at its own path only, and there only if it is not given up. -/
theorem getElem?_add (state : ProgramCache × List Diagnostic) (source : LoadedSource)
    (path : String) :
    (add read state source).1.files[path]? =
      (parsedAt? read path source).or state.1.files[path]? := by
  unfold add parsedAt?
  cases hfile : parsed? read source with
  | none => rfl
  | some file =>
    have own := path_of_parsed? hfile
    simp only [Std.ExtTreeMap.getElem?_insert, Std.LawfulEqCmp.compare_eq_iff_eq,
      Option.filter_some, own]
    by_cases hpath : source.path = path <;> simp [hpath]

/-- Parsing reports text by text, in the order in which the texts are given. -/
theorem diagnostics_build (read : Script.Reader) (sources : List LoadedSource) :
    (build read sources).2 = sources.flatMap (faults read) := by
  have all : ∀ state : ProgramCache × List Diagnostic,
      (sources.foldl (add read) state).2 = state.2 ++ sources.flatMap (faults read) := by
    induction sources with
    | nil =>
      intro state
      simp
    | cons source sources ih =>
      intro state
      rw [List.foldl_cons, ih, diagnostics_add, List.flatMap_cons, List.append_assoc]
  exact all (empty, [])

/-- Of the texts of a path the last one counts that was not given up. -/
theorem getElem?_build (read : Script.Reader) (sources : List LoadedSource) (path : String) :
    (build read sources).1.files[path]? = (sources.filterMap (parsedAt? read path)).getLast? := by
  have all : ∀ state : ProgramCache × List Diagnostic,
      (sources.foldl (add read) state).1.files[path]? =
        (sources.filterMap (parsedAt? read path)).getLast?.or state.1.files[path]? := by
    induction sources with
    | nil =>
      intro state
      simp
    | cons source sources ih =>
      intro state
      rw [List.foldl_cons, ih, getElem?_add]
      cases hwritten : parsedAt? read path source with
      | none => simp [hwritten]
      | some file =>
        cases hlast : (sources.filterMap (parsedAt? read path)).getLast? <;>
          simp [hwritten, List.getLast?_cons, hlast]
  rw [build, all]
  simp [empty]

/-! ## Texts of distinct paths -/

/-- Where no path repeats, at most one text yields a file for a path. -/
theorem eq_of_parsedAt? (hdistinct : (sources.map LoadedSource.path).Nodup) {path : String}
    {source source' : LoadedSource} {file file' : ParsedFile} (hsource : source ∈ sources)
    (hsource' : source' ∈ sources) (h : parsedAt? read path source = some file)
    (h' : parsedAt? read path source' = some file') : file = file' := by
  obtain ⟨hparsed, hpath⟩ := parsedAt?_eq_some_iff.mp h
  obtain ⟨hparsed', hpath'⟩ := parsedAt?_eq_some_iff.mp h'
  have same : source.path = source'.path := by
    rw [← path_of_parsed? hparsed, ← path_of_parsed? hparsed', hpath, hpath']
  obtain rfl : source = source' := List.inj_on_of_nodup_map hdistinct hsource hsource' same
  exact Option.some.inj (hparsed.symm.trans hparsed')

/-- Where no path repeats, it does not matter which text comes last: the cache holds what any text
yields for the path. -/
theorem getElem?_build_eq_some_iff (hdistinct : (sources.map LoadedSource.path).Nodup)
    {path : String} {file : ParsedFile} :
    (build read sources).1.files[path]? = some file ↔
      ∃ source ∈ sources, parsedAt? read path source = some file := by
  rw [getElem?_build, ← List.mem_filterMap]
  constructor
  · exact List.mem_of_getLast?
  · intro h
    cases hlast : (sources.filterMap (parsedAt? read path)).getLast? with
    | none =>
      rw [List.getLast?_eq_none_iff.mp hlast] at h
      exact absurd h List.not_mem_nil
    | some file' =>
      -- the last file of the path is the only one
      obtain ⟨source, hsource, hfile⟩ := List.mem_filterMap.mp h
      obtain ⟨source', hsource', hfile'⟩ := List.mem_filterMap.mp (List.mem_of_getLast? hlast)
      rw [eq_of_parsedAt? hdistinct hsource hsource' hfile hfile']

theorem ext {cache cache' : ProgramCache}
    (h : ∀ path : String, cache.files[path]? = cache'.files[path]?) : cache = cache' :=
  congrArg ProgramCache.mk (Std.ExtTreeMap.ext_getElem? h)

/-- Where no path repeats, the order of the texts decides about nothing but the order of the
diagnostics. -/
theorem build_perm (read : Script.Reader) (hperm : sources.Perm sources')
    (hdistinct : (sources.map LoadedSource.path).Nodup) :
    (build read sources).1 = (build read sources').1 ∧
      (build read sources).2.Perm (build read sources').2 := by
  have hdistinct' : (sources'.map LoadedSource.path).Nodup :=
    (hperm.map LoadedSource.path).nodup_iff.mp hdistinct
  constructor
  · refine ext fun path => Option.ext fun file => ?_
    rw [getElem?_build_eq_some_iff hdistinct, getElem?_build_eq_some_iff hdistinct']
    simp only [hperm.mem_iff]
  · rw [diagnostics_build, diagnostics_build]
    exact hperm.flatMap_right (faults read)

end CodeAtlas.ProgramCache
