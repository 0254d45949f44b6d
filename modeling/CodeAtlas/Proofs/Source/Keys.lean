import CodeAtlas.Proofs.Source.Index
import CodeAtlas.Proofs.Text.Marks
import Mathlib.Data.List.Induction

/-!
# The keys of an index

The key of a path has slashes only, and one `./` in front of the path is left out. A path is its own
key if it has no backslash and does not begin with `./` (`indexPath_eq_self_iff`). The last file with
a key is the one that an index holds under it (`get?_ofList`).

A path may begin with `./` twice, and then so does its key, once (`exists_indexPath_iff`). Such a key
is not its own key: what is inserted under it goes elsewhere. Every other key is settled, and an
insertion under it replaces just the file that is there (`keys_exact`, `not_keys_settled`).
-/

namespace CodeAtlas

open CodeAtlas.Text

variable {path key rest : String}

/-! ## The key of a path -/

theorem not_mem_indexPath (path : String) : '\\' ∉ (indexPath path).toList := by
  have plain : '\\' ∉ (replaceChar '\\' '/' path).toList := not_mem_replaceChar (by decide) path
  unfold indexPath
  dsimp only
  cases hrest : dropPrefix? "./" (replaceChar '\\' '/' path) with
  | none => exact plain
  | some rest =>
    rw [dropPrefix?_eq_some_iff.mp hrest, String.toList_append, List.mem_append, not_or] at plain
    exact plain.2

theorem indexPath_here (h : '\\' ∉ rest.toList) : indexPath ("./" ++ rest) = rest := by
  have plain : '\\' ∉ ("./" ++ rest).toList := by
    rw [String.toList_append, List.mem_append, not_or]
    exact ⟨by decide, h⟩
  have cut : dropPrefix? "./" ("./" ++ rest) = some rest := dropPrefix?_eq_some_iff.mpr rfl
  rw [indexPath, replaceChar_of_not_mem plain, cut, Option.getD_some]

theorem here_append_ne (rest : String) : "./" ++ rest ≠ rest := by
  intro heq
  have size := congrArg String.length heq
  have two : "./".length = 2 := by decide
  rw [String.length_append] at size
  omega

/-- The paths that are their own keys: what is inserted under such a path is found under it. -/
theorem indexPath_eq_self_iff :
    indexPath path = path ↔ '\\' ∉ path.toList ∧ ¬ ∃ rest, path = "./" ++ rest := by
  constructor
  · intro heq
    have plain : '\\' ∉ path.toList := heq ▸ not_mem_indexPath path
    refine ⟨plain, ?_⟩
    rintro ⟨rest, rfl⟩
    rw [String.toList_append, List.mem_append, not_or] at plain
    rw [indexPath_here plain.2] at heq
    exact here_append_ne rest heq.symm
  · rintro ⟨plain, hrest⟩
    have cut : dropPrefix? "./" path = none := by
      rw [Option.eq_none_iff_forall_ne_some]
      exact fun rest h => hrest ⟨rest, dropPrefix?_eq_some_iff.mp h⟩
    rw [indexPath, replaceChar_of_not_mem plain, cut, Option.getD_none]

/-- A key begins with `./` if and only if the path began with it twice. -/
theorem exists_indexPath_iff :
    (∃ rest, indexPath path = "./" ++ rest) ↔
      ∃ rest, replaceChar '\\' '/' path = "././" ++ rest := by
  have twice : ∀ rest, "././" ++ rest = "./" ++ ("./" ++ rest) := by
    intro rest
    rw [← String.append_assoc]
    rfl
  unfold indexPath
  dsimp only
  cases hrest : dropPrefix? "./" (replaceChar '\\' '/' path) with
  | none =>
    have apart : ∀ rest, replaceChar '\\' '/' path ≠ "./" ++ rest := by
      intro rest heq
      rw [dropPrefix?_eq_some_iff.mpr heq] at hrest
      cases hrest
    refine iff_of_false ?_ ?_
    · rintro ⟨rest, heq⟩
      exact apart rest heq
    · rintro ⟨rest, heq⟩
      exact apart _ (heq.trans (twice rest))
  | some tail =>
    rw [dropPrefix?_eq_some_iff.mp hrest, Option.getD_some]
    refine exists_congr fun rest => ?_
    rw [twice, String.append_right_inj]

/-! ## Look-up -/

namespace FileIndex

variable {index : FileIndex} {source : Source} {files : List (String × Source)} {e : FileEntry}

/-- An insertion is about one key, that of its path, and leaves the files under all others. -/
theorem get?_insert (index : FileIndex) (path : String) (source : Source) (key : String) :
    (index.insert path source).get? key =
      if indexPath path = key then some ⟨key, source⟩ else index.get? key := by
  simp only [get?, insert, Std.ExtTreeMap.getElem?_insert, Std.LawfulEqCmp.compare_eq_iff_eq]
  split
  · rename_i hkey
    rw [hkey]
  · rfl

theorem mem_paths_iff : key ∈ index.paths ↔ ∃ e, index.get? key = some e := by
  rw [paths, Std.ExtTreeMap.mem_keys, Std.ExtTreeMap.mem_iff_isSome_getElem?,
    Option.isSome_iff_exists]
  rfl

theorem ofList_concat (files : List (String × Source)) (file : String × Source) :
    ofList (files ++ [file]) = (ofList files).insert file.1 file.2 :=
  List.foldl_concat ..

/-- An index holds under a key the last file with this key. Earlier files with the key are gone. -/
theorem get?_ofList (files : List (String × Source)) (key : String) :
    (ofList files).get? key =
      (files.reverse.find? fun file => indexPath file.1 = key).map fun file => ⟨key, file.2⟩ := by
  induction files using List.reverseRecOn with
  | nil => simp [ofList, empty, get?]
  | append_singleton files file ih =>
    rw [ofList_concat, get?_insert, List.reverse_concat, ih]
    by_cases hkey : indexPath file.1 = key
    · rw [if_pos hkey, List.find?_cons_of_pos (by simpa using hkey), Option.map_some]
    · rw [if_neg hkey, List.find?_cons_of_neg (by simpa using hkey)]

theorem exists_file_of_get? (h : (ofList files).get? key = some e) :
    ∃ file ∈ files, indexPath file.1 = key ∧ e = ⟨key, file.2⟩ := by
  rw [get?_ofList, Option.map_eq_some_iff] at h
  obtain ⟨file, hfile, rfl⟩ := h
  have hkey := List.find?_some hfile
  exact ⟨file, List.mem_reverse.mp (List.mem_of_find?_eq_some hfile), by simpa using hkey, rfl⟩

theorem mem_paths_of_mem {file : String × Source} (h : file ∈ files)
    (hkey : indexPath file.1 = key) : key ∈ (ofList files).paths := by
  rw [mem_paths_iff, get?_ofList]
  have found : (files.reverse.find? fun other => indexPath other.1 = key).isSome :=
    List.find?_isSome.mpr ⟨file, List.mem_reverse.mpr h, by simpa using hkey⟩
  obtain ⟨last, hlast⟩ := Option.isSome_iff_exists.mp found
  rw [hlast]
  exact ⟨_, rfl⟩

/-! ## The order of keys -/

theorem pairwise_paths (index : FileIndex) : index.paths.Pairwise (· < ·) := by
  have ordered : index.paths.Pairwise fun a b => compare a b = .lt := Std.ExtTreeMap.ordered_keys
  exact ordered.imp fun h => compareOfLessAndEq_eq_lt.mp h

theorem Keyed.pairwise_entries (h : index.Keyed) :
    index.entries.Pairwise fun e e' => e.path < e'.path := by
  rw [← List.pairwise_map (f := FileEntry.path) (R := (· < ·)), h.map_path_entries]
  exact index.pairwise_paths

theorem size_insert (index : FileIndex) (path : String) (source : Source) :
    (index.insert path source).size =
      if indexPath path ∈ index.paths then index.size else index.size + 1 := by
  rw [size, insert, Std.ExtTreeMap.size_insert]
  simp only [paths, Std.ExtTreeMap.mem_keys, ← Std.ExtTreeMap.contains_iff_mem]
  rfl

/-! ## Inserting again -/

/-- An insertion under `key` puts its file in the place of the one under `key`, and changes nothing
else. -/
def Replaces (index : FileIndex) (key : String) : Prop :=
  ∀ source, (∀ other, (index.insert key source).get? other =
      if key = other then some ⟨key, source⟩ else index.get? other) ∧
    (index.insert key source).size = index.size

/-- An insertion under a key that is its own key replaces the file there. -/
theorem replaces_of_settled (hmem : key ∈ index.paths) (h : indexPath key = key) :
    index.Replaces key := by
  refine fun source => ⟨fun other => ?_, ?_⟩
  · rw [get?_insert, h]
    by_cases hother : key = other
    · rw [if_pos hother, if_pos hother, hother]
    · rw [if_neg hother, if_neg hother]
  · rw [size_insert, h, if_pos hmem]

/-- Whatever is inserted under another key leaves the file under `key` as it is. -/
theorem not_replaces (hmem : key ∈ index.paths) (h : indexPath key ≠ key) :
    ¬ index.Replaces key := by
  intro replaces
  obtain ⟨e, he⟩ := mem_paths_iff.mp hmem
  let other : Source := { e.source with size := e.source.size + 1 }
  have replaced := (replaces other).1 key
  rw [get?_insert, if_neg h, if_pos rfl, he, Option.some.injEq] at replaced
  have sizes : e.source.size = e.source.size + 1 := congrArg (fun e => e.source.size) replaced
  omega

/-- **Keys of an index.** After any insertions an index holds under a key the last file with the key,
and the key is the path of this file and has no backslash. The keys are in order, and so are the
files. A key begins with `./` if and only if the path of its file began with `./` twice, in whatever
slashes. An insertion under a key replaces the file there and nothing else, unless the key begins
with `./`; then it leaves this file and inserts under what follows. -/
theorem keys_exact (files : List (String × Source)) :
    let index := ofList files
    (∀ key, index.get? key =
      (files.reverse.find? fun file => indexPath file.1 = key).map fun file => ⟨key, file.2⟩) ∧
    (∀ key e, index.get? key = some e → e.path = key ∧ '\\' ∉ key.toList) ∧
    index.paths.Pairwise (· < ·) ∧ index.entries.Pairwise (fun e e' => e.path < e'.path) ∧
    (∀ key ∈ index.paths, ∀ file ∈ files, indexPath file.1 = key →
      ((∃ rest, key = "./" ++ rest) ↔ ∃ rest, replaceChar '\\' '/' file.1 = "././" ++ rest)) ∧
    (∀ key ∈ index.paths, index.Replaces key ↔ ¬ ∃ rest, key = "./" ++ rest) ∧
    ∀ rest source, "./" ++ rest ∈ index.paths → ∀ key,
      (index.insert ("./" ++ rest) source).get? key =
        if rest = key then some ⟨key, source⟩ else index.get? key := by
  intro index
  have plain : ∀ key ∈ index.paths, '\\' ∉ key.toList := by
    intro key hkey
    obtain ⟨e, he⟩ := mem_paths_iff.mp hkey
    obtain ⟨file, -, rfl, -⟩ := exists_file_of_get? he
    exact not_mem_indexPath file.1
  refine ⟨get?_ofList files, ?_, index.pairwise_paths, (keyed_ofList files).pairwise_entries, ?_,
    ?_, ?_⟩
  · intro key e he
    exact ⟨keyed_ofList files key e he, plain key (mem_paths_iff.mpr ⟨e, he⟩)⟩
  · rintro key - file - rfl
    exact exists_indexPath_iff
  · intro key hkey
    have settled : indexPath key = key ↔ ¬ ∃ rest, key = "./" ++ rest := by
      rw [indexPath_eq_self_iff, and_iff_right (plain key hkey)]
    rw [← settled]
    exact ⟨fun h => not_not.mp fun hne => not_replaces hkey hne h, replaces_of_settled hkey⟩
  · intro rest source hmem key
    have below := plain _ hmem
    rw [String.toList_append, List.mem_append, not_or] at below
    rw [get?_insert, indexPath_here below.2]

/-! ## A path that begins with `./` twice -/

/-- A text of one letter. -/
def oneLetter : Source := .ofText "x"

theorem indexPath_doubled : indexPath "././a.ts" = "./" ++ "a.ts" := by decide

/-- Two keys of one index, of which one is settled. -/
theorem keys_exact_doubled :
    let index := ofList [("././a.ts", oneLetter), (".\\b.ts", oneLetter)]
    index.get? "b.ts" = some ⟨"b.ts", oneLetter⟩ ∧ "./" ++ "a.ts" ∈ index.paths ∧
      "b.ts" ∈ index.paths ∧ index.Replaces "b.ts" ∧ ¬ index.Replaces ("./" ++ "a.ts") ∧
      (∃ rest, replaceChar '\\' '/' "././a.ts" = "././" ++ rest) ∧
      (index.insert ("./" ++ "a.ts") oneLetter).get? "a.ts" = some ⟨"a.ts", oneLetter⟩ := by
  intro index
  have key : indexPath ".\\b.ts" = "b.ts" := by decide
  have first : ("././a.ts", oneLetter) ∈ [("././a.ts", oneLetter), (".\\b.ts", oneLetter)] :=
    List.mem_cons_self
  have second : (".\\b.ts", oneLetter) ∈ [("././a.ts", oneLetter), (".\\b.ts", oneLetter)] :=
    List.mem_cons_of_mem _ List.mem_cons_self
  have here : "./" ++ "a.ts" ∈ index.paths := mem_paths_of_mem first indexPath_doubled
  have other : "b.ts" ∈ index.paths := mem_paths_of_mem second key
  obtain ⟨held, -, -, -, twice, replaces, inserted⟩ :=
    keys_exact [("././a.ts", oneLetter), (".\\b.ts", oneLetter)]
  refine ⟨?_, here, other, ?_, ?_, ?_, ?_⟩
  · rw [held, List.reverse_cons, List.reverse_singleton, List.singleton_append,
      List.find?_cons_of_pos (by simpa using key), Option.map_some]
  · refine (replaces "b.ts" other).mpr ?_
    rw [← key]
    exact (indexPath_eq_self_iff.mp (by decide)).2
  · exact fun h => (replaces _ here).mp h ⟨"a.ts", rfl⟩
  · exact (twice _ here _ first indexPath_doubled).mp ⟨"a.ts", rfl⟩
  · exact (inserted "a.ts" oneLetter here "a.ts").trans (if_pos rfl)

/-- A key may begin with `./`, and an insertion under such a key may add another. -/
theorem not_keys_settled :
    ¬ (∀ (files : List (String × Source)), ∀ key ∈ (ofList files).paths,
      ¬ ∃ rest, key = "./" ++ rest) ∧
    ¬ ∀ (files : List (String × Source)) (source : Source), ∀ key ∈ (ofList files).paths,
      ((ofList files).insert key source).size = (ofList files).size := by
  have only : ("././a.ts", oneLetter) ∈ [("././a.ts", oneLetter)] := List.mem_singleton_self _
  have here : "./" ++ "a.ts" ∈ (ofList [("././a.ts", oneLetter)]).paths :=
    mem_paths_of_mem only indexPath_doubled
  refine ⟨fun settled => settled _ _ here ⟨"a.ts", rfl⟩, fun kept => ?_⟩
  have size := kept _ oneLetter _ here
  have absent : "a.ts" ∉ (ofList [("././a.ts", oneLetter)]).paths := by
    intro hmem
    obtain ⟨e, he⟩ := mem_paths_iff.mp hmem
    obtain ⟨file, hfile, hkey, -⟩ := exists_file_of_get? he
    rw [List.mem_singleton.mp hfile, indexPath_doubled] at hkey
    exact here_append_ne "a.ts" hkey
  rw [size_insert, indexPath_here (by decide), if_neg absent] at size
  omega

end FileIndex

end CodeAtlas
