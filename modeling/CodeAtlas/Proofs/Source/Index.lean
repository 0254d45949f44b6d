import CodeAtlas.Proofs.Source.Parsing

/-!
# The scripts of an index

An index that is made by insertions holds every file under its own path (`keyed_ofList`). What
loading yields is read off the look-ups at its paths (`load_eq`), each script yields a text or one
diagnostic, and the cache made of the texts holds at a path what the script there yields
(`getElem?_build_load`). Files of another kind are never looked into.
-/

namespace CodeAtlas

variable {read : Script.Reader}

namespace FileEntry

variable {e : FileEntry} {source : LoadedSource} {d : Diagnostic}

/-- The text of a file, if it can be loaded. -/
def loaded? (e : FileEntry) : Option LoadedSource :=
  match e.load with
  | .ok source => some source
  | .error _ => none

/-- What keeps a file from being loaded. -/
def refused? (e : FileEntry) : Option Diagnostic :=
  match e.load with
  | .ok _ => none
  | .error d => some d

/-- The program of a file with what the cache keeps of it, if it is loaded and not given up. -/
def parsed? (read : Script.Reader) (e : FileEntry) : Option ParsedFile :=
  e.loaded?.bind (ProgramCache.parsed? read)

theorem loaded?_eq_some_iff : e.loaded? = some source ↔ e.load = .ok source := by
  unfold loaded?
  cases e.load <;> simp

theorem refused?_eq_some_iff : e.refused? = some d ↔ e.load = .error d := by
  unfold refused?
  cases e.load <;> simp

theorem path_of_load (h : e.load = .ok source) : source.path = e.path := by
  unfold load at h
  split at h
  · cases h
  · split at h
    · cases h
    · split at h
      · cases h
      · cases h
        rfl

theorem path_of_load_error (h : e.load = .error d) : d.path = e.path := by
  unfold load at h
  split at h
  · cases h
    rfl
  · split at h
    · cases h
      rfl
    · split at h
      · cases h
        rfl
      · cases h

end FileEntry

namespace FileIndex

variable {index : FileIndex} {path : String} {e : FileEntry}

/-! ## Files under their own path -/

/-- Every file is held under its own path. -/
def Keyed (index : FileIndex) : Prop :=
  ∀ (path : String) (e : FileEntry), index.files[path]? = some e → e.path = path

theorem keyed_empty : Keyed empty := by
  intro path e h
  simp [empty] at h

/-- An insertion makes the entry for its own key, so every file stays under its path. -/
theorem Keyed.insert (h : index.Keyed) (path : String) (source : Source) :
    (index.insert path source).Keyed := by
  intro key e he
  simp only [FileIndex.insert, Std.ExtTreeMap.getElem?_insert,
    Std.LawfulEqCmp.compare_eq_iff_eq] at he
  by_cases hkey : indexPath path = key
  · rw [if_pos hkey] at he
    rw [← Option.some.inj he, hkey]
  · rw [if_neg hkey] at he
    exact h key e he

theorem keyed_ofList (files : List (String × Source)) : (ofList files).Keyed := by
  unfold ofList
  refine List.foldlRecOn (motive := Keyed) files _ keyed_empty ?_
  rintro index h ⟨path, source⟩ -
  exact h.insert path source

theorem mem_entries : e ∈ index.entries ↔ ∃ path : String, index.files[path]? = some e :=
  Text.TextMap.mem_values

theorem length_entries (index : FileIndex) : index.entries.length = index.size := by
  rw [entries, Text.TextMap.values_eq, List.length_map, Std.ExtTreeMap.length_toList, size]

theorem length_paths (index : FileIndex) : index.paths.length = index.size :=
  Std.ExtTreeMap.length_keys

/-- A file of an index is the one that a look-up at its own path yields. -/
theorem Keyed.mem_entries_iff (h : index.Keyed) :
    e ∈ index.entries ↔ index.files[e.path]? = some e := by
  rw [mem_entries]
  constructor
  · rintro ⟨path, he⟩
    rw [h path e he]
    exact he
  · intro he
    exact ⟨e.path, he⟩

theorem Keyed.map_path_entries (h : index.Keyed) :
    index.entries.map FileEntry.path = index.paths := by
  have own : ∀ p ∈ index.files.toList, p.2.path = p.1 := fun p hp =>
    h p.1 p.2 (Std.ExtTreeMap.mem_toList_iff_getElem?_eq_some.mp hp)
  rw [entries, paths, Text.TextMap.values_eq, ← Std.ExtTreeMap.map_fst_toList_eq_keys,
    List.map_map]
  exact List.map_congr_left own

/-! ## Scripts -/

/-- The script with a path. -/
def script? (index : FileIndex) (path : String) : Option FileEntry :=
  (index.files[path]?).filter fun e => e.kind.isScript

theorem script?_eq_some_iff :
    index.script? path = some e ↔ index.files[path]? = some e ∧ e.kind.isScript := by
  simp [script?, Option.filter_eq_some_iff]

theorem scripts_eq (index : FileIndex) : index.scripts = index.paths.filterMap index.script? := by
  rw [scripts, entries, Text.TextMap.values_eq_filterMap_keys, List.filter_filterMap]
  rfl

theorem Keyed.mem_scripts_iff (h : index.Keyed) :
    e ∈ index.scripts ↔ index.script? e.path = some e := by
  rw [scripts, List.mem_filter, h.mem_entries_iff, script?_eq_some_iff]

theorem Keyed.nodup_paths_scripts (h : index.Keyed) :
    (index.scripts.map FileEntry.path).Nodup := by
  have all : (index.entries.map FileEntry.path).Nodup := by
    rw [h.map_path_entries]
    exact Std.ExtTreeMap.nodup_keys
  exact (List.filter_sublist.map FileEntry.path).nodup all

/-! ## Loading -/

/-- Loading goes through the scripts once, and each of them is loaded or refused. -/
theorem load_eq (index : FileIndex) :
    index.load = (index.scripts.filterMap FileEntry.loaded?,
      index.scripts.filterMap FileEntry.refused?) := by
  rw [load, partitionResults, List.filterMap_map, List.filterMap_map]
  congr 1
  · refine List.filterMap_congr fun e _ => ?_
    rw [Function.comp_apply, FileEntry.loaded?]
    cases e.load <;> rfl
  · refine List.filterMap_congr fun e _ => ?_
    rw [Function.comp_apply, FileEntry.refused?]
    cases e.load <;> rfl

theorem mem_load {source : LoadedSource} :
    source ∈ index.load.1 ↔ ∃ e ∈ index.scripts, e.load = .ok source := by
  rw [load_eq, List.mem_filterMap]
  simp only [FileEntry.loaded?_eq_some_iff]

/-- No two texts of an index have one path, so no program replaces another when they are parsed. -/
theorem Keyed.nodup_paths_load (h : index.Keyed) :
    (index.load.1.map LoadedSource.path).Nodup := by
  have own : ∀ scripts : List FileEntry,
      ((scripts.filterMap FileEntry.loaded?).map LoadedSource.path).Sublist
        (scripts.map FileEntry.path) := by
    intro scripts
    induction scripts with
    | nil => exact .refl _
    | cons e scripts ih =>
      cases hload : e.loaded? with
      | none => simpa [hload] using ih.cons e.path
      | some source =>
        have hpath := FileEntry.path_of_load (FileEntry.loaded?_eq_some_iff.mp hload)
        simpa [hload, hpath] using ih.cons_cons e.path
  rw [load_eq]
  exact (own index.scripts).nodup h.nodup_paths_scripts

/-- The cache of an index holds at a path what the script there yields. Neither the other files nor
the order of loading have a part in it. -/
theorem Keyed.getElem?_build_load (h : index.Keyed) (read : Script.Reader) (path : String) :
    (ProgramCache.build read index.load.1).1.files[path]? =
      (index.script? path).bind (FileEntry.parsed? read) := by
  refine Option.ext fun file => ?_
  rw [ProgramCache.getElem?_build_eq_some_iff h.nodup_paths_load, Option.bind_eq_some_iff]
  constructor
  · rintro ⟨source, hsource, hparsed⟩
    obtain ⟨e, he, hload⟩ := mem_load.mp hsource
    obtain ⟨hfile, hpath⟩ := ProgramCache.parsedAt?_eq_some_iff.mp hparsed
    have own : e.path = path := by
      rw [← FileEntry.path_of_load hload, ← ProgramCache.path_of_parsed? hfile, hpath]
    refine ⟨e, own ▸ h.mem_scripts_iff.mp he, ?_⟩
    rw [FileEntry.parsed?, FileEntry.loaded?_eq_some_iff.mpr hload]
    exact hfile
  · rintro ⟨e, he, hparsed⟩
    obtain ⟨source, hload, hfile⟩ := Option.bind_eq_some_iff.mp hparsed
    have hload := FileEntry.loaded?_eq_some_iff.mp hload
    have own : e.path = path := h path e (script?_eq_some_iff.mp he).1
    have hscript : e ∈ index.scripts := h.mem_scripts_iff.mpr (own ▸ he)
    refine ⟨source, mem_load.mpr ⟨e, hscript, hload⟩, ?_⟩
    refine ProgramCache.parsedAt?_eq_some_iff.mpr ⟨hfile, ?_⟩
    rw [ProgramCache.path_of_parsed? hfile, FileEntry.path_of_load hload, own]

end FileIndex

end CodeAtlas
