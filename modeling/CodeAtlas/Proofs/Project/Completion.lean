import CodeAtlas.Proofs.Project.Mapping
import CodeAtlas.Proofs.Project.Root

/-!
# Completed aliases

The aliases of a project are those of its settings, completed by those that its compiler
configuration yields. A completed map has the aliases of both, and where both have one, that of the
settings (`getElem?_mergeMissing`).

A map makes a table unless an entry has a fault, and then it fails with the fault that comes first
(`ofMap_eq_error_iff`). Discovered aliases have none, wherever the configuration points. So
completing a map neither adds a failure nor takes one away (`completion_harmless`).
-/

namespace CodeAtlas

open CodeAtlas.Resolution CodeAtlas.Text

/-! ## Maps that fail -/

namespace Resolution

variable {map other : AliasMap} {failure : Failure}

/-- The error of a step that fails. -/
def failure? {ε α : Type} : Except ε α → Option ε
  | .error e => some e
  | .ok _ => none

/-- What follows a step without failing does not change how the step fails. -/
theorem bind_ok_eq_error_iff {α β ε : Type} {x : Except ε α} {g : α → β} {e : ε} :
    (x >>= fun a => .ok (g a)) = .error e ↔ x = .error e := by
  cases x with
  | error e' => exact ⟨fun h => by cases h; rfl, fun h => by cases h; rfl⟩
  | ok a => exact iff_of_false nofun nofun

/-- A checked list fails with the failure of its first entry that fails. -/
theorem mapM_eq_error_iff {α β ε : Type} {f : α → Except ε β} {as : List α} {e : ε} :
    as.mapM f = .error e ↔ as.findSome? (fun a => failure? (f a)) = some e := by
  induction as with
  | nil => exact iff_of_false nofun nofun
  | cons a as ih =>
    rw [List.mapM_cons, List.findSome?_cons]
    cases f a with
    | error e' => exact ⟨fun h => by cases h; rfl, fun h => by cases h; rfl⟩
    | ok b => exact bind_ok_eq_error_iff.trans ih

/-- What is wrong with an entry of a map. -/
def fault? (entry : String × String) : Option Failure :=
  failure? (AliasTable.checkAlias entry.1 entry.2)

theorem fault?_eq_none_iff {key target : String} :
    fault? (key, target) = none ↔ key ≠ "" ∧ Path.normalize (trimStartChar '/' target) ≠ "" := by
  unfold fault? AliasTable.checkAlias
  by_cases hkey : key = ""
  · simp [hkey, failure?]
  · by_cases hnormal : Path.normalize (trimStartChar '/' target) = ""
    · simp [hkey, hnormal, failure?]
    · simp [hkey, hnormal, failure?]

/-- The faults of a map, in the order of its keys. -/
def faults (map : AliasMap) : List Failure := map.toList.filterMap fault?

theorem ofMap_eq_error_iff : AliasTable.ofMap map = .error failure ↔
    (faults map).head? = some failure := by
  rw [faults, List.head?_filterMap]
  exact bind_ok_eq_error_iff.trans mapM_eq_error_iff

theorem new_eq_error_iff {known : List String} :
    Resolver.new known map = .error failure ↔ AliasTable.ofMap map = .error failure :=
  bind_ok_eq_error_iff

/-! ## Completed maps -/

theorem getElem?_mergeMissing (map other : AliasMap) (key : String) :
    (map.mergeMissing other)[key]? = map[key]?.or other[key]? := by
  rw [AliasMap.mergeMissing, Std.ExtTreeMap.foldl_eq_foldl_toList,
    TextMap.getElem?_foldl_insertIfNew, TextMap.lookup_toList]

/-- Entries without a fault add none. -/
theorem faults_mergeMissing
    (h : ∀ key target : String, other[key]? = some target → fault? (key, target) = none) :
    faults (map.mergeMissing other) = faults map := by
  have faulty : ∀ m : AliasMap, faults m =
      (m.toList.filter fun entry => (fault? entry).isSome).filterMap fault? := by
    intro m
    rw [faults, List.filterMap_filter]
    refine List.filterMap_congr fun entry _ => ?_
    cases fault? entry <;> rfl
  rw [faulty, faulty]
  congr 1
  refine TextMap.eq_of_ordered (Std.ExtTreeMap.ordered_keys_toList.filter _)
    (Std.ExtTreeMap.ordered_keys_toList.filter _) ?_
  rintro ⟨key, target⟩
  rw [List.mem_filter, List.mem_filter, Std.ExtTreeMap.mem_toList_iff_getElem?_eq_some,
    Std.ExtTreeMap.mem_toList_iff_getElem?_eq_some, getElem?_mergeMissing]
  refine and_congr_left fun hfault => ?_
  -- an entry with a fault is not one of `other`
  rw [Option.or_eq_some_iff]
  refine or_iff_left ?_
  rintro ⟨-, hother⟩
  rw [h key target hother] at hfault
  cases hfault

end Resolution

/-! ## Aliases of a project -/

/-- `completed` has all entries of `configured` and adds those of `found` that are missing, and
making a resolver fails with it just as it does without them. -/
structure Completes (configured found completed : AliasMap) : Prop where
  kept : ∀ key target : String, configured[key]? = some target → completed[key]? = some target
  added : ∀ key : String, configured[key]? = none → completed[key]? = found[key]?
  failure : ∀ (known : List String) (failure : Failure),
    Resolver.new known completed = .error failure ↔ Resolver.new known configured = .error failure

variable {configured found : AliasMap} {files : FileSystem} {asked root start target : String}

/-- Merging keeps every configured alias and adds the found ones for the other keys. Found aliases
that are all sound bring in no failure, and take none away. -/
theorem completes_mergeMissing
    (h : ∀ key target : String, found[key]? = some target → fault? (key, target) = none) :
    Completes configured found (configured.mergeMissing found) where
  kept key target hget := by rw [getElem?_mergeMissing, hget, Option.some_or]
  added key hget := by rw [getElem?_mergeMissing, hget, Option.none_or]
  failure known failure := by
    rw [new_eq_error_iff, new_eq_error_iff, ofMap_eq_error_iff, ofMap_eq_error_iff,
      faults_mergeMissing h]

/-- Whatever a configuration says, its aliases are not empty, and their targets are paths below the
root that stay so when they are normalized again. -/
theorem sound_of_getElem?_discoverAliases (hroot : files.canonical asked = .ok root)
    {configuration : Option String}
    (h : (discoverAliases files root configuration)[start]? = some target) :
    start ≠ "" ∧ Path.IsInner target ∧ Path.normalize (trimStartChar '/' target) ≠ "" := by
  have habs := (FileSystem.clean_of_canonical hroot).1
  obtain ⟨hstart, hinner⟩ := isInner_of_getElem?_discoverAliases habs h
  refine ⟨hstart, hinner, ?_⟩
  rw [trimStartChar_of_not_beginsWith hinner.not_isAbsolute]
  exact hinner.normalize_ne_empty

theorem completes_discoverAliases (hroot : files.canonical asked = .ok root)
    (configuration : Option String) (configured : AliasMap) :
    Completes configured (discoverAliases files root configuration)
      (configured.mergeMissing (discoverAliases files root configuration)) := by
  refine completes_mergeMissing fun key target hget => ?_
  obtain ⟨hkey, -, hnormal⟩ := sound_of_getElem?_discoverAliases hroot hget
  exact fault?_eq_none_iff.mpr ⟨hkey, hnormal⟩

/-- **A compiler configuration does no harm.** Whatever the files below a root are, its aliases
complete every map without adding a failure or taking one away, and each of them makes sense. The
aliases of an opened project are those of its settings, so completed. -/
theorem completion_harmless :
    (∀ (files : FileSystem) (asked root : String) (configuration : Option String),
      files.canonical asked = .ok root →
      (∀ configured : AliasMap, Completes configured (discoverAliases files root configuration)
        (configured.mergeMissing (discoverAliases files root configuration))) ∧
      ∀ start target : String,
        (discoverAliases files root configuration)[start]? = some target →
        start ≠ "" ∧ Path.IsInner target ∧ Path.normalize (trimStartChar '/' target) ≠ "") ∧
    ∀ (context : CommandContext) (place : ProjectPlace) (overrides : Overrides)
      (project : Project), Project.load context place overrides = .ok project →
      Completes project.settings.aliases
        (discoverAliases context.files project.root project.settings.tsconfig)
        project.aliases := by
  constructor
  · intro files asked root configuration hroot
    exact ⟨completes_discoverAliases hroot configuration,
      fun start target => sound_of_getElem?_discoverAliases hroot⟩
  · intro context place overrides project hload
    obtain ⟨hroot, haliases⟩ := Project.eq_of_load hload
    rw [haliases]
    exact completes_discoverAliases hroot _ _

/-! ## A project with settings and a configuration -/

/-- Settings with one alias. -/
def coreSettings : String := "\x7b\"aliases\": \x7b\"@core\": \"libs/core\"\x7d\x7d"

/-- Maps the same alias elsewhere, another one below the root, and one outside of it. -/
def coreMapping : String :=
  "\x7b\"compilerOptions\": \x7b\"paths\": \x7b\"@core/*\": [\"packages/core/*\"], " ++
    "\"@ui/*\": [\"./lib/../packages/ui/*\"], \"@out/*\": [\"../out/*\"],\x7d\x7d\x7d"

/-- The project `/p` with settings and a configuration. -/
def coreContext : CommandContext :=
  ⟨⟨.directory [("p", .directory [(Settings.fileName, .file coreSettings.toUTF8),
    (defaultMappingName, .file coreMapping.toUTF8)])], "/"⟩, []⟩

theorem exists_load_core : ∃ project,
    Project.load coreContext ⟨some "/p", none⟩ ⟨none, none⟩ = .ok project ∧
      project.root = "/p" ∧ project.settings.tsconfig = none ∧
      project.settings.aliases.toList = [("@core", "libs/core")] ∧
      project.aliases.toList = [("@core", "libs/core"), ("@ui", "packages/ui")] := by
  have opened : (Project.load coreContext ⟨some "/p", none⟩ ⟨none, none⟩).toOption.map
      (fun project => (project.root, project.settings.tsconfig, project.settings.aliases.toList,
        project.aliases.toList)) =
      some ("/p", none, [("@core", "libs/core")],
        [("@core", "libs/core"), ("@ui", "packages/ui")]) := by
    decide +kernel
  cases hload : Project.load coreContext ⟨some "/p", none⟩ ⟨none, none⟩ with
  | error failure =>
    rw [hload] at opened
    cases opened
  | ok project =>
    rw [hload, Except.toOption, Option.map_some, Option.some.injEq] at opened
    simp only [Prod.mk.injEq] at opened
    exact ⟨project, rfl, opened⟩

/-- A map with a fault fails as before, and the alias of the settings wins. -/
theorem completion_harmless_core :
    (coreContext.files.canonical "/p" = .ok "/p" ∧
      (discoverAliases coreContext.files "/p" none)["@ui"]? = some "packages/ui" ∧
      Path.normalize (trimStartChar '/' "packages/ui") ≠ "" ∧
      ∀ known failure, Resolver.new known (AliasMap.mergeMissing ((∅ : AliasMap).insert "" "lib")
          (discoverAliases coreContext.files "/p" none)) = .error failure ↔
        Resolver.new known ((∅ : AliasMap).insert "" "lib") = .error failure) ∧
    ∃ project, Project.load coreContext ⟨some "/p", none⟩ ⟨none, none⟩ = .ok project ∧
      project.settings.aliases["@core"]? = some "libs/core" ∧
      project.aliases["@core"]? = some "libs/core" := by
  obtain ⟨harmless, completed⟩ := completion_harmless
  obtain ⟨project, hload, hroot, htsconfig, hsettings, haliases⟩ := exists_load_core
  have completes := completed _ _ _ _ hload
  have canonical : coreContext.files.canonical "/p" = .ok "/p" :=
    hroot ▸ (Project.eq_of_load hload).1
  have found : (discoverAliases coreContext.files "/p" none)["@ui"]? = some "packages/ui" := by
    have missing : project.settings.aliases["@ui"]? = none := by
      rw [← TextMap.lookup_toList, hsettings]
      rfl
    rw [← hroot, ← htsconfig, ← completes.added "@ui" missing, ← TextMap.lookup_toList, haliases]
    rfl
  have configured : project.settings.aliases["@core"]? = some "libs/core" := by
    rw [← TextMap.lookup_toList, hsettings]
    rfl
  obtain ⟨failing, sound⟩ := harmless coreContext.files "/p" "/p" none canonical
  exact ⟨⟨canonical, found, (sound _ _ found).2.2, (failing _).failure⟩, project, hload, configured,
    completes.kept _ _ configured⟩

end CodeAtlas
