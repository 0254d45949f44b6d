import CodeAtlas.Proofs.Text.TextMap
import CodeAtlas.Source.Loading

/-!
# Loaded and parsed files

Attempts are sorted into results and diagnostics one by one (`partitionResults_cons_ok`,
`partitionResults_cons_error`). The cache that is built of some texts holds every file under its
own path (`keyed_build`), so its list of files and its look-up are two views of the same files
(`mem_toList_iff`).
-/

namespace CodeAtlas

theorem partitionResults_cons_ok {α : Type} (a : α) (attempts : List (Except Diagnostic α)) :
    partitionResults (.ok a :: attempts) =
      (a :: (partitionResults attempts).1, (partitionResults attempts).2) := rfl

theorem partitionResults_cons_error {α : Type} (d : Diagnostic)
    (attempts : List (Except Diagnostic α)) :
    partitionResults (.error d :: attempts) =
      ((partitionResults attempts).1, d :: (partitionResults attempts).2) := rfl

namespace ProgramCache

/-- Every file is held under its own path. -/
def Keyed (cache : ProgramCache) : Prop :=
  ∀ (path : String) (file : ParsedFile), cache.files[path]? = some file → file.path = path

theorem keyed_empty : Keyed empty := by
  intro path file h
  simp [empty] at h

/-- A program is put under the path of its text, which is its own path. -/
theorem Keyed.add {read : Script.Reader} {state : ProgramCache × List Diagnostic}
    (h : state.1.Keyed) (source : LoadedSource) : (add read state source).1.Keyed := by
  unfold ProgramCache.add
  cases hparsed : parsed? read source with
  | none => exact h
  | some parsed =>
    obtain ⟨program, -, rfl⟩ := Option.map_eq_some_iff.mp hparsed
    intro path file hfile
    simp only [Std.ExtTreeMap.getElem?_insert, Std.LawfulEqCmp.compare_eq_iff_eq] at hfile
    by_cases hpath : source.path = path
    · rw [if_pos hpath] at hfile
      rw [← Option.some.inj hfile, ← hpath]
    · rw [if_neg hpath] at hfile
      exact h path file hfile

theorem keyed_build (read : Script.Reader) (sources : List LoadedSource) :
    (build read sources).1.Keyed := by
  have all : ∀ state : ProgramCache × List Diagnostic, state.1.Keyed →
      (sources.foldl (add read) state).1.Keyed := by
    induction sources with
    | nil => exact fun _ h => h
    | cons source sources ih => exact fun state h => ih _ (h.add source)
  exact all _ keyed_empty

/-- The list of files of a cache and look-up at their paths tell the same. -/
theorem Keyed.mem_toList_iff {cache : ProgramCache} (h : cache.Keyed) {file : ParsedFile} :
    file ∈ cache.toList ↔ cache.files[file.path]? = some file := by
  rw [toList, Text.TextMap.mem_values]
  constructor
  · rintro ⟨path, hfile⟩
    rw [h path file hfile]
    exact hfile
  · exact fun hfile => ⟨file.path, hfile⟩

theorem contains_iff {cache : ProgramCache} {path : String} :
    cache.contains path ↔ ∃ file, cache.files[path]? = some file := by
  rw [contains, ← Std.ExtTreeMap.isSome_getElem?_eq_contains, Option.isSome_iff_exists]

theorem getElem?_eq_none {cache : ProgramCache} {path : String} (h : ¬ cache.contains path) :
    cache.files[path]? = none := by
  rw [contains_iff, ← Option.isSome_iff_exists] at h
  exact Option.not_isSome_iff_eq_none.mp h

theorem mem_keys {cache : ProgramCache} {path : String} :
    path ∈ cache.files.keys ↔ cache.contains path := by
  rw [Std.ExtTreeMap.mem_keys, contains, Std.ExtTreeMap.contains_iff_mem]

theorem length_toList (cache : ProgramCache) : cache.toList.length = cache.size := by
  rw [toList, Text.TextMap.values_eq, List.length_map, Std.ExtTreeMap.length_toList, size]

end ProgramCache

end CodeAtlas
