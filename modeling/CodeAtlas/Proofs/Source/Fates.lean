import CodeAtlas.Proofs.Source.Index
import Mathlib.Data.List.Perm.Basic

/-!
# What becomes of a script

A script of an index gets into the cache, or it meets one of three fates that keep it out. Which
one is said by `FileEntry.fate`, from the sizes, the text and the verdict of the reader alone. What
loading and parsing a script reports tells of its fate, once, if it stays out, and of none if it
gets in (`filterMap_tale?_reports`).
-/

namespace CodeAtlas

/-- What becomes of a script: its program gets into the cache, or something keeps it out. -/
inductive Fate where
  | cached | unreadable | tooLarge | givenUp
deriving DecidableEq, Repr

/-- The fate that a diagnostic tells of. Others do not keep a file out of the cache. -/
def Diagnostic.fate? : Diagnostic → Option Fate
  | readFailed .. => some .unreadable
  | fileTooLarge .. => some .tooLarge
  | parseFailed .. => some .givenUp
  | recoverableParseErrors .. | illegalCrossPackageImport .. | traversalFailed .. => none

/-- The file and the fate that a diagnostic tells of. -/
def Diagnostic.tale? (d : Diagnostic) : Option (String × Fate) := d.fate?.map (d.path, ·)

namespace FileEntry

variable {read : Script.Reader} {e : FileEntry}

/-- A file is too large by the size it was found with, whatever its text, or by its text. -/
def fate (read : Script.Reader) (e : FileEntry) : Fate :=
  if maxFileSize < e.size then .tooLarge
  else
    match e.source.text with
    | .error _ => .unreadable
    | .ok text =>
      if maxFileSize < text.utf8ByteSize then .tooLarge
      else if (read e.path text).program.isSome then .cached else .givenUp

/-- A script is too large by the size it was found with or by that of its text; the text is measured
even if the found size was small enough. -/
theorem fate_eq_tooLarge_iff :
    e.fate read = .tooLarge ↔ maxFileSize < e.size ∨
      ∃ text, e.source.text = .ok text ∧ maxFileSize < text.utf8ByteSize := by
  unfold fate
  by_cases hsize : maxFileSize < e.size
  · simp [hsize]
  · cases htext : e.source.text with
    | error failure => simp [hsize]
    | ok text =>
      by_cases hbytes : maxFileSize < text.utf8ByteSize
      · simp [hsize, hbytes]
      · have small :
            (if (read e.path text).program.isSome then Fate.cached else .givenUp) ≠ .tooLarge := by
          split <;> simp
        simp [hsize, hbytes, small]

/-- What loading and parsing a script reports. -/
def reports (read : Script.Reader) (e : FileEntry) : List Diagnostic :=
  e.refused?.toList ++ e.loaded?.toList.flatMap (ProgramCache.faults read)

theorem path_of_mem_reports {d : Diagnostic} (h : d ∈ e.reports read) : d.path = e.path := by
  rcases List.mem_append.mp h with hrefused | hfault
  · exact path_of_load_error (refused?_eq_some_iff.mp (Option.mem_toList.mp hrefused))
  · obtain ⟨source, hsource, hd⟩ := List.mem_flatMap.mp hfault
    have hload := loaded?_eq_some_iff.mp (Option.mem_toList.mp hsource)
    rw [ProgramCache.path_of_mem_faults hd, path_of_load hload]

/-- What loading a file and its fate have to do with each other: a file that is refused meets its
fate there, and one that is loaded is left to the verdict of the reader. -/
theorem load_cases (read : Script.Reader) (e : FileEntry) :
    (∃ d, e.load = .error d ∧ d.tale? = some (e.path, e.fate read) ∧
      (e.fate read = .unreadable ∨ e.fate read = .tooLarge)) ∨
    ∃ text, e.load = .ok ⟨e.path, text⟩ ∧
      e.fate read = if (read e.path text).program.isSome then .cached else .givenUp := by
  unfold load fate
  by_cases hsize : maxFileSize < e.size
  · rw [if_pos hsize, if_pos hsize]
    exact .inl ⟨_, rfl, rfl, .inr rfl⟩
  · rw [if_neg hsize, if_neg hsize]
    cases htext : e.source.text with
    | error failure => exact .inl ⟨_, rfl, rfl, .inl rfl⟩
    | ok text =>
      dsimp only
      by_cases hbytes : maxFileSize < text.utf8ByteSize
      · rw [if_pos hbytes, if_pos hbytes]
        exact .inl ⟨_, rfl, rfl, .inr rfl⟩
      · rw [if_neg hbytes, if_neg hbytes]
        exact .inr ⟨text, rfl, rfl⟩

theorem isSome_loaded?_iff : e.loaded?.isSome ↔ e.fate read = .cached ∨ e.fate read = .givenUp := by
  unfold loaded?
  rcases load_cases read e with ⟨d, hload, -, hfate | hfate⟩ | ⟨text, hload, hfate⟩
  · rw [hload, hfate]
    simp
  · rw [hload, hfate]
    simp
  · rw [hload, hfate]
    cases (read e.path text).program <;> simp

theorem isSome_parsed?_iff : (e.parsed? read).isSome ↔ e.fate read = .cached := by
  unfold parsed? loaded?
  rcases load_cases read e with ⟨d, hload, -, hfate | hfate⟩ | ⟨text, hload, hfate⟩
  · rw [hload, hfate]
    simp
  · rw [hload, hfate]
    simp
  · rw [hload, hfate]
    cases hread : (read e.path text).program <;> simp [ProgramCache.parsed?, hread]

/-- A script that stays out of the cache is told of by one of its reports, and one that gets in by
none. -/
theorem filterMap_tale?_reports (read : Script.Reader) (e : FileEntry) :
    (e.reports read).filterMap Diagnostic.tale? =
      if e.fate read = .cached then [] else [(e.path, e.fate read)] := by
  unfold reports loaded? refused?
  rcases load_cases read e with ⟨d, hload, htale, hfate⟩ | ⟨text, hload, hfate⟩
  · have out : e.fate read ≠ .cached := by
      rcases hfate with hfate | hfate <;> simp [hfate]
    rw [hload, if_neg out]
    simp [htale]
  · rw [hload, hfate]
    cases hread : (read e.path text).program with
    | none => simp [ProgramCache.faults, hread, Diagnostic.tale?, Diagnostic.fate?, Diagnostic.path]
    | some program =>
      cases hfaults : (read e.path text).faults <;>
        simp [ProgramCache.faults, hread, hfaults, Diagnostic.tale?, Diagnostic.fate?]

end FileEntry

namespace FileIndex

variable {read : Script.Reader} {index : FileIndex}

/-- What loading and parsing an index reports, script by script. -/
theorem reports_perm (read : Script.Reader) (index : FileIndex) :
    (index.load.2 ++ (ProgramCache.build read index.load.1).2).Perm
      (index.scripts.flatMap (FileEntry.reports read)) := by
  have loading : index.load.2 = index.scripts.flatMap fun e => e.refused?.toList := by
    rw [load_eq]
    exact List.filterMap_eq_flatMap_toList _ _
  have parsing : (ProgramCache.build read index.load.1).2 =
      index.scripts.flatMap fun e => e.loaded?.toList.flatMap (ProgramCache.faults read) := by
    rw [ProgramCache.diagnostics_build, load_eq, List.filterMap_eq_flatMap_toList,
      List.flatMap_assoc]
  rw [parsing, loading]
  exact List.flatMap_append_perm _ _ _

/-- The scripts that stay out of the cache are those that the diagnostics tell of, once each. -/
theorem tales_perm (read : Script.Reader) (index : FileIndex) :
    ((index.load.2 ++ (ProgramCache.build read index.load.1).2).filterMap Diagnostic.tale?).Perm
      ((index.scripts.filter fun e => e.fate read ≠ .cached).map fun e =>
        (e.path, e.fate read)) := by
  have each : (index.scripts.flatMap (FileEntry.reports read)).filterMap Diagnostic.tale? =
      (index.scripts.filter fun e => e.fate read ≠ .cached).map fun e =>
        (e.path, e.fate read) := by
    rw [List.filterMap_flatMap]
    simp only [FileEntry.filterMap_tale?_reports]
    induction index.scripts with
    | nil => rfl
    | cons e scripts ih =>
      rw [List.flatMap_cons, ih]
      by_cases hfate : e.fate read = .cached <;> simp [hfate]
  rw [← each]
  exact (reports_perm read index).filterMap _

/-- The scripts that get into the cache are those it holds. -/
theorem Keyed.contains_build_iff (h : index.Keyed) {path : String} :
    (ProgramCache.build read index.load.1).1.contains path ↔
      ∃ e ∈ index.scripts, e.path = path ∧ e.fate read = .cached := by
  rw [ProgramCache.contains_iff, ← Option.isSome_iff_exists, h.getElem?_build_load,
    Option.isSome_bind, Option.any_eq_true]
  constructor
  · rintro ⟨e, he, hparsed⟩
    have own : e.path = path := h path e (script?_eq_some_iff.mp he).1
    exact ⟨e, h.mem_scripts_iff.mpr (own ▸ he), own, FileEntry.isSome_parsed?_iff.mp hparsed⟩
  · rintro ⟨e, he, rfl, hfate⟩
    exact ⟨e, h.mem_scripts_iff.mp he, FileEntry.isSome_parsed?_iff.mpr hfate⟩

/-- The cache of an index has just the paths of the scripts whose fate is to be cached. Files of an
index have paths of their own, so no script replaces another. -/
theorem Keyed.keys_build_perm (h : index.Keyed) (read : Script.Reader) :
    (ProgramCache.build read index.load.1).1.files.keys.Perm
      ((index.scripts.filter fun e => e.fate read = .cached).map FileEntry.path) := by
  have distinct : ((index.scripts.filter fun e => e.fate read = .cached).map
      FileEntry.path).Nodup :=
    (List.filter_sublist.map FileEntry.path).nodup h.nodup_paths_scripts
  refine (List.perm_ext_iff_of_nodup Std.ExtTreeMap.nodup_keys distinct).mpr ?_
  intro path
  rw [ProgramCache.mem_keys, h.contains_build_iff]
  simp only [List.mem_map, List.mem_filter, decide_eq_true_eq]
  constructor
  · rintro ⟨e, he, hpath, hfate⟩
    exact ⟨e, ⟨he, hfate⟩, hpath⟩
  · rintro ⟨e, ⟨he, hfate⟩, hpath⟩
    exact ⟨e, he, hpath, hfate⟩

theorem Keyed.size_build (h : index.Keyed) (read : Script.Reader) :
    (ProgramCache.build read index.load.1).1.size =
      index.scripts.countP fun e => e.fate read = .cached := by
  rw [ProgramCache.size, ← Std.ExtTreeMap.length_keys, (h.keys_build_perm read).length_eq,
    List.length_map, List.countP_eq_length_filter]

/-- No more scripts are loaded than get into the cache or are given up. Here only the number counts,
so the files need not have paths of their own. -/
theorem length_load (read : Script.Reader) (index : FileIndex) :
    index.load.1.length = index.scripts.countP (fun e => e.fate read = .cached) +
      index.scripts.countP (fun e => e.fate read = .givenUp) := by
  rw [load_eq, List.length_filterMap_eq_countP]
  induction index.scripts with
  | nil => rfl
  | cons e scripts ih =>
    have loaded : e.loaded?.isSome ↔ e.fate read = .cached ∨ e.fate read = .givenUp :=
      FileEntry.isSome_loaded?_iff
    simp only [List.countP_cons, ih, loaded]
    cases e.fate read <;> simp <;> omega

end FileIndex

end CodeAtlas
