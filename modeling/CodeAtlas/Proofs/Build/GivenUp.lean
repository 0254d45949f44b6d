import CodeAtlas.Proofs.Build.Phases
import CodeAtlas.Proofs.Source.Parsing

/-!
# Files that are given up

A build reports every path one of whose texts is given up, and leaves out every path all of whose
texts are. Where no path repeats, these are the same paths, and what is reported is absent from the
cache and from the graph (`build_given_up`). The texts of a repeated path may fare differently: a
text that is given up takes no program away that an earlier or later one has brought in, so the path
is reported and is there all the same (`not_build_given_up`). An index has one text for each path.
-/

namespace CodeAtlas

open CodeAtlas.Link CodeAtlas.Resolution CodeAtlas.Script

variable {read : Script.Reader} {source : LoadedSource} {sources : List LoadedSource}
  {path message : String}

/-- Some text of the path is given up. -/
def GivenUp (read : Script.Reader) (sources : List LoadedSource) (path : String) : Prop :=
  ∃ source ∈ sources, source.path = path ∧ (read source.path source.text).program = none

/-- Some text of the path is not given up. -/
def Admitted (read : Script.Reader) (sources : List LoadedSource) (path : String) : Prop :=
  ∃ source ∈ sources, source.path = path ∧
    (read source.path source.text).program.isSome

/-- Nothing of a file is left after parsing, nor in a graph. -/
structure Absent (cache : ProgramCache) (g : SymbolGraph) (path : String) : Prop where
  unparsed : ¬ cache.contains path
  nodes : g.nodesOf path = []
  edges : ∀ a b, g.hasEdge a b → a.path ≠ path ∧ b.path ≠ path

/-! ## Reports and programs -/

namespace ProgramCache

/-- A text is reported as given up if and only if it yields no program; faults that the reading went
past are reported otherwise. -/
theorem exists_parseFailed_mem_faults_iff :
    (∃ message, .parseFailed path message ∈ faults read source) ↔
      source.path = path ∧ (read source.path source.text).program = none := by
  cases hread : (read source.path source.text).program with
  | none => simp [faults, hread, eq_comm]
  | some program => cases hfaults : (read source.path source.text).faults <;>
      simp [faults, hread, hfaults]

/-- Parsing reports a path if and only if one of its texts is given up, even if another text of the
path is not. -/
theorem exists_parseFailed_iff :
    (∃ message, .parseFailed path message ∈ (build read sources).2) ↔
      GivenUp read sources path := by
  simp only [diagnostics_build, List.mem_flatMap]
  constructor
  · rintro ⟨message, source, hsource, hmem⟩
    exact ⟨source, hsource, exists_parseFailed_mem_faults_iff.mp ⟨message, hmem⟩⟩
  · rintro ⟨source, hsource, hgiven⟩
    obtain ⟨message, hmem⟩ := exists_parseFailed_mem_faults_iff.mpr hgiven
    exact ⟨message, source, hsource, hmem⟩

theorem isSome_parsedAt?_iff :
    (parsedAt? read path source).isSome ↔
      source.path = path ∧ (read source.path source.text).program.isSome := by
  unfold parsedAt? parsed?
  cases (read source.path source.text).program with
  | none => simp
  | some program => by_cases hpath : source.path = path <;> simp [hpath]

/-- A path is in the cache if and only if one of its texts is admitted, even if a later one is given
up. -/
theorem contains_build_iff :
    (build read sources).1.contains path ↔ Admitted read sources path := by
  rw [contains_iff, getElem?_build]
  constructor
  · rintro ⟨file, hlast⟩
    obtain ⟨source, hsource, hfile⟩ := List.mem_filterMap.mp (List.mem_of_getLast? hlast)
    exact ⟨source, hsource, isSome_parsedAt?_iff.mp (Option.isSome_of_eq_some hfile)⟩
  · rintro ⟨source, hsource, hread⟩
    obtain ⟨file, hfile⟩ := Option.isSome_iff_exists.mp (isSome_parsedAt?_iff.mpr hread)
    have some : sources.filterMap (parsedAt? read path) ≠ [] :=
      List.ne_nil_of_mem (List.mem_filterMap.mpr ⟨source, hsource, hfile⟩)
    exact ⟨_, List.getLast?_eq_some_getLast some⟩

end ProgramCache

theorem GivenUp.not_admitted (hdistinct : (sources.map LoadedSource.path).Nodup)
    (h : GivenUp read sources path) : ¬ Admitted read sources path := by
  obtain ⟨source, hsource, hpath, hread⟩ := h
  rintro ⟨source', hsource', hpath', hread'⟩
  obtain rfl : source = source' :=
    List.inj_on_of_nodup_map hdistinct hsource hsource' (hpath.trans hpath'.symm)
  rw [hread] at hread'
  cases hread'

/-! ## Builds -/

/-- Nothing is left of a file in the graph if it is not in the cache: its nodes come from the
program, and both ends of every edge are in parsed files. -/
theorem Assembled.absent_iff {cache : ProgramCache} {resolver : Resolver} {g : SymbolGraph}
    (h : Assembled cache resolver g) (hkeyed : cache.Keyed) :
    Absent cache g path ↔ ¬ cache.contains path := by
  refine ⟨Absent.unparsed, fun hpath => ⟨hpath, ?nodes, ?edges⟩⟩
  case nodes =>
    refine List.eq_nil_iff_forall_not_mem.mpr fun id hid => ?_
    obtain ⟨node, rfl⟩ := SymbolGraph.mem_nodesOf.mp hid
    exact hpath (h.contains_path hkeyed node)
  case edges =>
    intro a b hedge
    obtain ⟨ha, hb⟩ := (h.exactEdges hkeyed).parsed a b hedge
    constructor
    · rintro rfl
      exact hpath ha
    · rintro rfl
      exact hpath hb

/-- Linking does not give up a file. -/
theorem exists_parseFailed_buildWith_iff (resolver : Resolver) :
    (∃ message, .parseFailed path message ∈ (buildWith read resolver 0 [] sources).diagnostics) ↔
      GivenUp read sources path := by
  have linking : ∀ message, .parseFailed path message ∉
      (assembled resolver (ProgramCache.build read sources).1).2.diagnostics := by
    intro message hmem
    obtain ⟨_, _, _, heq⟩ :=
      exists_import_of_mem_assembled hmem (ProgramCache.keyed_build read sources)
    cases heq
  rw [← ProgramCache.exists_parseFailed_iff]
  refine exists_congr fun message => ?_
  rw [diagnostics_buildWith, List.nil_append, List.mem_append, or_iff_left (linking message)]

/-- **Files that are given up.** If the aliases make sense, the texts are built into a graph. A path
is reported, by parsing and by the build as a whole, if and only if one of its texts is given up, and
it is absent if and only if none of its texts is admitted. So where no path repeats, every path that
is reported is absent. -/
theorem build_given_up (read : Script.Reader) (aliases : AliasMap) (table : AliasTable)
    (haliases : AliasTable.ofMap aliases = .ok table) (sources : List LoadedSource) :
    ∃ build, buildGraphFromSources read sources aliases = .ok build ∧
      (∀ path, (∃ message, .parseFailed path message ∈ (ProgramCache.build read sources).2) ↔
        GivenUp read sources path) ∧
      (∀ path, (∃ message, .parseFailed path message ∈ build.diagnostics) ↔
        GivenUp read sources path) ∧
      (∀ path, Absent (ProgramCache.build read sources).1 build.graph path ↔
        ¬ Admitted read sources path) ∧
      ((sources.map LoadedSource.path).Nodup → ∀ path, GivenUp read sources path →
        Absent (ProgramCache.build read sources).1 build.graph path) := by
  let resolver : Resolver := ⟨.ofList (sources.map LoadedSource.path), table⟩
  have absent : ∀ path, Absent (ProgramCache.build read sources).1
      (buildWith read resolver 0 [] sources).graph path ↔ ¬ Admitted read sources path := by
    intro path
    have assembly := assembled_buildWith read resolver 0 [] sources
    rw [assembly.absent_iff (ProgramCache.keyed_build read sources),
      ProgramCache.contains_build_iff]
  refine ⟨_, buildGraphFromSources_of_ofMap haliases read sources, ?_, ?_, absent, ?_⟩
  · exact fun _ => ProgramCache.exists_parseFailed_iff
  · exact fun _ => exists_parseFailed_buildWith_iff resolver
  · exact fun hdistinct path h => (absent path).mpr (h.not_admitted hdistinct)

/-- A file that is given up, and one that refers to it. -/
def doubtfulSources : List LoadedSource :=
  [⟨"a.ts", "export const a = "⟩, ⟨"b.ts", "import { a } from './a'\nexport const b = a"⟩]

/-- The file that is given up is reported and absent. -/
theorem build_given_up_imported :
    AliasTable.ofMap ∅ = .ok ⟨[], []⟩ ∧ (doubtfulSources.map LoadedSource.path).Nodup ∧
      GivenUp readScript doubtfulSources "a.ts" ∧
      ∃ build, buildGraphFromSources readScript doubtfulSources ∅ = .ok build ∧
        (∃ message, .parseFailed "a.ts" message ∈ build.diagnostics) ∧
        Absent (ProgramCache.build readScript doubtfulSources).1 build.graph "a.ts" := by
  have haliases : AliasTable.ofMap ∅ = .ok ⟨[], []⟩ := by decide +kernel
  have hdistinct : (doubtfulSources.map LoadedSource.path).Nodup := by decide
  have given : GivenUp readScript doubtfulSources "a.ts" :=
    ⟨_, List.mem_cons_self, rfl, by decide +kernel⟩
  obtain ⟨build, hbuild, -, reported, -, absent⟩ :=
    build_given_up readScript ∅ _ haliases doubtfulSources
  exact ⟨haliases, hdistinct, given, build, hbuild, (reported _).mpr given,
    absent hdistinct _ given⟩

/-- A path with two texts, of which the second is given up. -/
def repeatedSources : List LoadedSource := [⟨"a.ts", "export const a = 1"⟩, ⟨"a.ts", "one("⟩]

/-- Not every path that is reported is absent: its other text may be admitted. -/
theorem not_build_given_up :
    ¬ ∀ (read : Script.Reader) (sources : List LoadedSource) (aliases : AliasMap)
        (build : GraphBuild), buildGraphFromSources read sources aliases = .ok build →
      ∀ path message, .parseFailed path message ∈ (ProgramCache.build read sources).2 →
        Absent (ProgramCache.build read sources).1 build.graph path := by
  intro every
  have haliases : AliasTable.ofMap ∅ = .ok ⟨[], []⟩ := by decide +kernel
  have given : GivenUp readScript repeatedSources "a.ts" :=
    ⟨_, .tail _ List.mem_cons_self, rfl, by decide +kernel⟩
  have admitted : Admitted readScript repeatedSources "a.ts" :=
    ⟨_, List.mem_cons_self, rfl, by decide +kernel⟩
  obtain ⟨message, reported⟩ := ProgramCache.exists_parseFailed_iff.mpr given
  have absent := every readScript repeatedSources ∅ _
    (buildGraphFromSources_of_ofMap haliases readScript repeatedSources) "a.ts" message reported
  exact absent.unparsed (ProgramCache.contains_build_iff.mpr admitted)

end CodeAtlas
