import CodeAtlas.Proofs.Build.Reports
import CodeAtlas.Proofs.Path.Inside
import CodeAtlas.Proofs.Resolution.Boundary
import CodeAtlas.Proofs.Resolution.ExactNames
import CodeAtlas.Proofs.Text.TextMap
import CodeAtlas.Project.PathMapping

/-!
# Aliases of a compiler configuration

Which aliases a mapping yields (`getElem?_aliases_iff`): a pattern that ends in `/*` stands for the
directory of its first target that ends in `/*`, if that directory lies below the root. Such aliases
make sense whatever the configuration holds (`exists_ofMap_discoverAliases`), so they let every
build succeed, and specifiers with the alias find the files of the directory (`wildcard_resolves`).

A mapping to the root itself yields no alias, so the files of the project are not found by it
(`not_wildcard_resolves`).
-/

namespace CodeAtlas

open CodeAtlas.Json CodeAtlas.Resolution CodeAtlas.Text

variable {files : FileSystem} {root start inside target : String} {mapping : PathMapping}

/-! ## The aliases of a mapping -/

theorem Text.TextMap.getElem?_lastByKey_filterMap {α β : Type} {m : TextMap α}
    {f : String × α → Option (String × β)} {key : String} {b : β}
    (inj : ∀ e e' : String × α, ∀ c c', f e = some (key, c) → f e' = some (key, c') → e.1 = e'.1) :
    (Value.lastByKey (m.toList.filterMap f))[key]? = some b ↔
      ∃ (k : String) (a : α), m[k]? = some a ∧ f (k, a) = some (key, b) := by
  have entry : ∀ c, (Value.lastByKey (m.toList.filterMap f))[key]? = some c →
      ∃ (k : String) (a : α), m[k]? = some a ∧ f (k, a) = some (key, c) := by
    intro c hc
    rcases mem_of_getElem?_foldl_insert hc with hold | ⟨⟨k, c'⟩, hmem, rfl, rfl⟩
    · simp at hold
    · obtain ⟨⟨k', a⟩, ha, hf⟩ := List.mem_filterMap.mp hmem
      exact ⟨k', a, Std.ExtTreeMap.mem_toList_iff_getElem?_eq_some.mp ha, hf⟩
  refine ⟨entry b, ?_⟩
  rintro ⟨k, a, ha, hf⟩
  have mem : (key, b) ∈ m.toList.filterMap f :=
    List.mem_filterMap.mpr ⟨_, Std.ExtTreeMap.mem_toList_iff_getElem?_eq_some.mpr ha, hf⟩
  have inserted : (Value.lastByKey (m.toList.filterMap f))[key]?.isSome :=
    isSome_getElem?_foldl_insert (List.mem_map.mpr ⟨_, mem, rfl⟩)
  obtain ⟨c, hc⟩ := Option.isSome_iff_exists.mp inserted
  obtain ⟨k', a', ha', hf'⟩ := entry c hc
  obtain rfl : k = k' := inj _ _ _ _ hf hf'
  obtain rfl : a = a' := Option.some.inj (ha.symm.trans ha')
  rw [hc]
  exact congrArg (Option.map Prod.snd) (hf'.symm.trans hf)

namespace PathMapping

/-- The directory that a target stands for, in a mapping that stands in `directory`. -/
def targetDirectory (mapping : PathMapping) (directory target : String) : String :=
  Path.clean (Path.join (Path.join directory (mapping.base.getD ".")) target)

/-- A pattern becomes an alias if both it and one of its targets end in a wildcard, the pattern has
something before it, and the directory of the target lies properly inside the root. -/
theorem aliasOf_eq_some_iff {base pattern : String} {targets : List String} :
    aliasOf root base pattern targets = some (start, inside) ↔
      pattern = start ++ "/*" ∧ start ≠ "" ∧
        ∃ target, targets.findSome? (dropSuffix? "/*") = some target ∧
          Path.relativeTo? root (Path.clean (Path.join base target)) = some inside ∧
          inside ≠ "" := by
  unfold aliasOf
  simp [Option.bind_eq_some_iff, dropSuffix?_eq_some_iff]

/-- A mapping has an alias for each pattern whose first wildcard target is below the root. -/
theorem getElem?_aliases_iff {directory : String} :
    (mapping.aliases root directory)[start]? = some inside ↔
      start ≠ "" ∧ ∃ targets target, mapping.paths[start ++ "/*"]? = some targets ∧
        targets.findSome? (dropSuffix? "/*") = some target ∧
        Path.relativeTo? root (mapping.targetDirectory directory target) = some inside ∧
        inside ≠ "" := by
  have pattern : ∀ (base : String) (e e' : String × List String) (c c' : String),
      aliasOf root base e.1 e.2 = some (start, c) →
      aliasOf root base e'.1 e'.2 = some (start, c') → e.1 = e'.1 := by
    intro base e e' c c' h h'
    exact (aliasOf_eq_some_iff.mp h).1.trans (aliasOf_eq_some_iff.mp h').1.symm
  unfold aliases
  rw [TextMap.getElem?_lastByKey_filterMap (pattern _)]
  constructor
  · rintro ⟨k, targets, hget, halias⟩
    obtain ⟨rfl, hstart, target, hfirst, hinside⟩ := aliasOf_eq_some_iff.mp halias
    exact ⟨hstart, targets, target, hget, hfirst, hinside⟩
  · rintro ⟨hstart, targets, target, hget, hfirst, hinside⟩
    exact ⟨_, targets, hget, aliasOf_eq_some_iff.mpr ⟨rfl, hstart, target, hfirst, hinside⟩⟩

end PathMapping

/-! ## The configuration of a project -/

/-- The root holds a configuration that can be read, and `mapping` is what it says. -/
def Configures (files : FileSystem) (root : String) (mapping : PathMapping) : Prop :=
  ∃ bytes text, files.read (Path.join root defaultMappingName) = .ok bytes ∧
    String.fromUTF8? bytes = some text ∧ PathMapping.ofText text = some mapping

theorem discoverAliases_of_configures (habs : Path.isAbsolute root)
    (hclean : Path.clean root = root) (h : Configures files root mapping) :
    discoverAliases files root none = mapping.aliases root root := by
  obtain ⟨bytes, text, hread, htext, hmapping⟩ := h
  have name : Path.IsName defaultMappingName := by decide
  unfold discoverAliases
  simp only [Option.getD_none, hread, htext, Option.bind_some, hmapping,
    Path.parent_join habs hclean name]

/-- An alias that is discovered is not empty, and its target lies below the root. -/
theorem isInner_of_getElem?_discoverAliases (habs : Path.isAbsolute root)
    {configuration : Option String}
    (h : (discoverAliases files root configuration)[start]? = some inside) :
    start ≠ "" ∧ Path.IsInner inside := by
  unfold discoverAliases at h
  dsimp only at h
  split at h
  · rename_i mapping _
    obtain ⟨hstart, targets, target, -, -, hinside, hne⟩ :=
      PathMapping.getElem?_aliases_iff.mp h
    refine ⟨hstart, Path.isInner_of_relativeTo? habs ?_ hinside hne⟩
    refine Path.isAbsolute_join (Path.isAbsolute_join ?_)
    rw [Path.isAbsolute_parent]
    exact Path.isAbsolute_join habs
  · simp at h

/-- Whatever a configuration holds, its aliases make sense. -/
theorem exists_ofMap_discoverAliases (habs : Path.isAbsolute root) (files : FileSystem)
    (configuration : Option String) :
    ∃ table, AliasTable.ofMap (discoverAliases files root configuration) = .ok table := by
  refine exists_ofMap fun key target hget => ?_
  obtain ⟨hkey, hinner⟩ := isInner_of_getElem?_discoverAliases habs hget
  rw [trimStartChar_of_not_beginsWith hinner.not_isAbsolute]
  exact ⟨hkey, hinner.normalize_ne_empty⟩

/-! ## Specifiers with the only alias -/

namespace Resolution

variable {aliases : AliasMap} {table : AliasTable} {specifier path x : String}

/-- If there is one alias, a specifier that it matches stands for a path below its target. -/
theorem substitute_of_only (h : AliasTable.ofMap aliases = .ok table)
    (honly : ∀ key ∈ aliases, key = start) (hget : aliases[start]? = some target) {a : Alias}
    (ha : a = ⟨start, Path.normalize (trimStartChar '/' target)⟩)
    (hpath : (a.rest? specifier).map a.apply = some path) :
    table.substitute specifier = some path := by
  have member : a ∈ table.aliases := ha ▸ mem_aliases_of_get h hget
  have same : ∀ b ∈ table.aliases, b = a := by
    intro b hb
    obtain ⟨target', hget', htarget'⟩ := (mem_aliases_iff h).mp hb
    have hkey : b.key = start :=
      honly _ (Std.ExtTreeMap.mem_iff_isSome_getElem?.mpr (Option.isSome_of_eq_some hget'))
    rw [hkey, hget, Option.some.injEq] at hget'
    rw [ha, hget', ← htarget', ← hkey]
  unfold AliasTable.substitute
  cases hfirst : table.aliases.findSome? fun a => (a.rest? specifier).map a.apply with
  | none =>
    have unmatched := List.findSome?_eq_none_iff.mp hfirst a member
    rw [hpath] at unmatched
    cases unmatched
  | some found =>
    obtain ⟨b, hb, hfound⟩ := List.exists_of_findSome?_eq_some hfirst
    rw [same b hb, hpath] at hfound
    exact hfound.symm

/-- What follows the alias is put below its target. An alias that ends in a slash leaves another
slash in front of the path, which makes no difference. -/
theorem map_apply_slash {a : Alias} (htarget : Path.IsInner a.target) (hx : Path.IsInner x)
    (hplain : '\\' ∉ (a.target ++ "/" ++ x).toList) :
    (a.rest? (a.key ++ "/" ++ x)).map a.apply = some (a.target ++ "/" ++ x) := by
  have normal : Path.normalize (a.target ++ "/" ++ x) = a.target ++ "/" ++ x :=
    (htarget.slash hx).normalize_eq hplain
  by_cases hend : endsWith '/' a.key
  · have rest : a.rest? (a.key ++ "/" ++ x) = some ("/" ++ x) :=
      rest?_eq_some_iff.mpr (.inl ⟨String.append_assoc, .inl hend⟩)
    have nonempty : "/" ++ x ≠ "" := by simp
    rw [rest, Option.map_some, Alias.apply, if_neg nonempty, Path.normalize,
      Path.clean_slash_slash htarget.ne_empty, ← Path.normalize, normal]
  · have rest : a.rest? (a.key ++ "/" ++ x) = some x := rest?_eq_some_iff.mpr (.inr ⟨rfl, hend⟩)
    rw [rest, Option.map_some, Alias.apply, if_neg hx.ne_empty, normal]

theorem answer_of_substitute {r : Resolver} {importer : String}
    (h : r.aliases.substitute (stripSourceExtension specifier) = some path) :
    (r.answer importer specifier).1 = probe r.known path := by
  have candidate : r.target importer specifier = .candidate path := by
    unfold Resolver.target
    dsimp only
    rw [h]
  rw [Resolver.answer, candidate]

/-- Every candidate goes on from the base: endings and index files are appended, and nothing of the
base is cut off. -/
theorem exists_append_of_mem_candidates {base file : String} (h : file ∈ candidates base) :
    ∃ tail, file = base ++ tail := by
  have extended : ∀ stem, file ∈ variants stem → ∃ tail, file = stem ++ tail := by
    intro stem hfile
    rcases mem_variants hfile with rfl | ⟨e, -, rfl⟩
    · exact ⟨"", String.append_empty.symm⟩
    · exact ⟨"." ++ e, String.append_assoc⟩
  rcases List.mem_append.mp h with hfile | hindex
  · exact extended base hfile
  · obtain ⟨tail, rfl⟩ := extended _ hindex
    unfold indexOf
    split
    · rename_i hbase
      exact ⟨"index" ++ tail, by rw [hbase, String.empty_append]⟩
    · exact ⟨"/index" ++ tail, String.append_assoc⟩

end Resolution

/-! ## Wildcards -/

/-- The configuration in the root maps what begins with `start` and a slash to the directory of
`target`, and it yields no other alias. -/
structure Wildcard (files : FileSystem) (root start target : String) (mapping : PathMapping) :
    Prop where
  configured : Configures files root mapping
  start_ne_empty : start ≠ ""
  first : ∃ others, mapping.paths[start ++ "/*"]? = some ((target ++ "/*") :: others)
  only : ∀ key ∈ discoverAliases files root none, key = start

namespace Wildcard

variable (habs : Path.isAbsolute root) (hclean : Path.clean root = root)
  (h : Wildcard files root start target mapping)

include habs hclean h

/-- A wildcard is an alias exactly if its directory is inside the root and is not the root itself.
-/
theorem getElem?_discoverAliases_iff :
    (discoverAliases files root none)[start]? = some inside ↔
      Path.relativeTo? root (mapping.targetDirectory root target) = some inside ∧ inside ≠ "" := by
  obtain ⟨others, hfirst⟩ := h.first
  have dropped : ((target ++ "/*") :: others).findSome? (dropSuffix? "/*") = some target := by
    rw [List.findSome?_cons, dropSuffix?_eq_some_iff.mpr rfl]
  rw [discoverAliases_of_configures habs hclean h.configured, PathMapping.getElem?_aliases_iff]
  constructor
  · rintro ⟨-, targets, target', hget, hfind, hinside⟩
    rw [hfirst, Option.some.injEq] at hget
    rw [← hget, dropped, Option.some.injEq] at hfind
    rw [hfind]
    exact hinside
  · rintro hinside
    exact ⟨h.start_ne_empty, _, target, hfirst, dropped, hinside⟩

variable {table : AliasTable}
  (htable : AliasTable.ofMap (discoverAliases files root none) = .ok table)
  {known : TextSet} {x : String} (hstrip : stripSourceExtension x = x)

include htable hstrip

/-- A specifier with the alias finds what its path below the directory means. -/
theorem answer_of_below (hinner : Path.IsInner inside)
    (hbelow : mapping.targetDirectory root target = Path.join root inside)
    (hknown : ∀ path ∈ known, '\\' ∉ path.toList) (hx : Path.IsInner x) {file : String}
    (hfile : probe known (inside ++ "/" ++ x) = some file) (importer : String) :
    ((⟨known, table⟩ : Resolver).answer importer (start ++ "/" ++ x)).1 = some file := by
  have discovered : (discoverAliases files root none)[start]? = some inside := by
    rw [h.getElem?_discoverAliases_iff habs hclean, hbelow, Path.relativeTo?_join habs hinner]
    exact ⟨rfl, hinner.ne_empty⟩
  have plain : '\\' ∉ (inside ++ "/" ++ x).toList := by
    obtain ⟨tail, rfl⟩ := exists_append_of_mem_candidates (List.mem_of_find?_eq_some hfile)
    have absent := hknown _ (mem_known_of_probe hfile)
    rw [String.toList_append, List.mem_append, not_or] at absent
    exact absent.1
  have plainInside : '\\' ∉ inside.toList := by
    rw [String.append_assoc, String.toList_append, List.mem_append, not_or] at plain
    exact plain.1
  have entry : (⟨start, inside⟩ : Alias) =
      ⟨start, Path.normalize (trimStartChar '/' inside)⟩ := by
    rw [trimStartChar_of_not_beginsWith hinner.not_isAbsolute, hinner.normalize_eq plainInside]
  have substituted := substitute_of_only htable h.only discovered entry
    (map_apply_slash (a := ⟨start, inside⟩) hinner hx plain)
  have stripped : table.substitute (stripSourceExtension (start ++ "/" ++ x)) =
      some (inside ++ "/" ++ x) := by
    rw [stripSourceExtension_slash hstrip]
    exact substituted
  rw [answer_of_substitute (r := ⟨known, table⟩) stripped]
  exact hfile

/-- Where the directory is the root there is no alias, and a specifier that is not relative is
taken to be external. -/
theorem answer_of_root (hroot : mapping.targetDirectory root target = root)
    (hrelative : ¬ Path.isRelative start) (importer : String) :
    (⟨known, table⟩ : Resolver).answer importer (start ++ "/" ++ x) = (none, []) := by
  have unaliased : Unaliased (discoverAliases files root none) (start ++ "/" ++ x) := by
    intro key hkey
    obtain rfl := h.only key hkey
    obtain ⟨inside, hget⟩ := Option.isSome_iff_exists.mp
      (Std.ExtTreeMap.mem_iff_isSome_getElem?.mp hkey)
    obtain ⟨hinside, hne⟩ := (h.getElem?_discoverAliases_iff habs hclean).mp hget
    rw [hroot, Path.relativeTo?_self, Option.some.injEq] at hinside
    exact absurd hinside.symm hne
  have relative : ¬ Path.isRelative (start ++ "/" ++ x) := by
    rw [Path.isRelative, String.append_assoc, beginsWith_append h.start_ne_empty]
    exact hrelative
  have external : (⟨known, table⟩ : Resolver).target importer (start ++ "/" ++ x) = .external := by
    unfold Resolver.target
    dsimp only
    rw [stripSourceExtension_slash hstrip, (substitute_eq_none_iff htable).mpr unaliased]
    exact if_neg relative
  rw [Resolver.answer, external]

end Wildcard

/-- **Wildcards of a configuration.** The aliases that are discovered let every build succeed. If
the directory of a wildcard lies below the root, a specifier with the alias finds from everywhere
the first known file that its path below the directory may mean. If the directory is the root
itself, there is no alias and the specifier finds nothing. -/
theorem wildcard_resolves (habs : Path.isAbsolute root) (hclean : Path.clean root = root)
    (h : Wildcard files root start target mapping) :
    (∀ (read : Script.Reader) (index : FileIndex), ∃ build,
      buildGraph read index (discoverAliases files root none) = .ok build) ∧
    (∀ (read : Script.Reader) (sources : List LoadedSource), ∃ build,
      buildGraphFromSources read sources (discoverAliases files root none) = .ok build) ∧
    ∀ (known : List String), ∃ r : Resolver,
      Resolver.new known (discoverAliases files root none) = .ok r ∧
      ∀ x, Path.IsInner x → stripSourceExtension x = x →
      ∀ (importer : String) (asked : List Question),
      (∀ inside file, Path.IsInner inside →
        mapping.targetDirectory root target = Path.join root inside →
        (∀ path ∈ known, '\\' ∉ path.toList) →
        (candidates (inside ++ "/" ++ x)).find? known.contains = some file →
        ((r.resolve importer (start ++ "/" ++ x)).run (r.after ∅ asked)).1 = some file) ∧
      (mapping.targetDirectory root target = root → ¬ Path.isRelative start →
        ((r.resolve importer (start ++ "/" ++ x)).run (r.after ∅ asked)).1 = none) := by
  obtain ⟨table, htable⟩ := exists_ofMap_discoverAliases habs files none
  refine ⟨fun read index => ⟨_, buildGraph_of_ofMap htable read index⟩,
    fun read sources => ⟨_, buildGraphFromSources_of_ofMap htable read sources⟩, ?_⟩
  intro known
  refine ⟨⟨.ofList known, table⟩, new_of_ofMap htable known, ?_⟩
  intro x hx hstrip importer asked
  have faithful : Memory.Faithful ⟨.ofList known, table⟩
      (Resolver.after ⟨.ofList known, table⟩ ∅ asked) := (Memory.faithful_new []).after asked
  rw [(faithful.resolve importer (start ++ "/" ++ x)).1]
  constructor
  · intro inside file hinner hbelow hknown hfile
    have contains : (Std.ExtTreeSet.ofList known compare).contains = known.contains :=
      funext fun path => Std.ExtTreeSet.contains_ofList
    refine h.answer_of_below habs hclean htable hstrip hinner hbelow ?_ hx ?_ importer
    · intro path hpath
      exact hknown path (List.contains_iff_mem.mp (Std.ExtTreeSet.mem_ofList.mp hpath))
    · rw [probe, contains]
      exact hfile
  · intro hroot hrelative
    rw [h.answer_of_root habs hclean htable hstrip hroot hrelative]

/-! ## A directory and the root -/

/-- The project `/p` with nothing but a configuration. -/
def configuredFiles (text : String) : FileSystem :=
  ⟨.directory [("p", .directory [(defaultMappingName, .file text.toUTF8)])], "/"⟩

/-- Maps `@/*` to a directory below the root. -/
def libraryText : String :=
  "\x7b\"compilerOptions\": \x7b\"baseUrl\": \"src\", \"paths\": " ++
    "\x7b\"@/*\": [\"./lib/*\"]\x7d\x7d\x7d"

/-- Maps `@/*` to the root. -/
def rootText : String :=
  "\x7b\"compilerOptions\": \x7b\"paths\": \x7b\"@/*\": [\"./*\"]\x7d\x7d\x7d"

theorem read_configuredFiles (text : String) :
    (configuredFiles text).read (Path.join "/p" defaultMappingName) = .ok text.toUTF8 := by
  have place : Path.join "/p" defaultMappingName = "/p/tsconfig.json" := by decide +kernel
  have steps : FileTree.steps (Path.join "/" "/p/tsconfig.json") = ["p", defaultMappingName] := by
    decide +kernel
  have nonempty : Path.join "/" "/p/tsconfig.json" ≠ "" := by decide +kernel
  have workingDirectory : (configuredFiles text).workingDirectory = "/" := rfl
  have follow : (configuredFiles text).follow "/p/tsconfig.json" =
      .ok [(defaultMappingName, .file text.toUTF8),
        ("p", .directory [(defaultMappingName, .file text.toUTF8)])] := by
    unfold FileSystem.follow FileTree.follow
    rw [if_neg (by decide), workingDirectory, if_neg nonempty, steps]
    rfl
  rw [place, FileSystem.read, FileSystem.lookUp, follow]
  rfl

theorem exists_wildcard {text : String} {base : Option String}
    (htext : (PathMapping.ofText text).map (fun m => (m.base, m.paths["@/*"]?)) =
      some (base, some [target ++ "/*"]))
    (honly : ∀ key ∈ (discoverAliases (configuredFiles text) "/p" none).keys, key = "@") :
    ∃ mapping, mapping.base = base ∧
      Wildcard (configuredFiles text) "/p" "@" target mapping := by
  obtain ⟨mapping, hmapping, hentries⟩ := Option.map_eq_some_iff.mp htext
  obtain ⟨hbase, hpaths⟩ := Prod.mk.inj hentries
  refine ⟨mapping, hbase, ⟨text.toUTF8, text, read_configuredFiles text, ?_, hmapping⟩, by decide,
    ⟨[], hpaths⟩, ?_⟩
  · exact dif_pos text.isValidUTF8
  · intro key hkey
    exact honly key (Std.ExtTreeMap.mem_keys.mpr hkey)

theorem exists_wildcard_library : ∃ mapping, mapping.base = some "src" ∧
    Wildcard (configuredFiles libraryText) "/p" "@" "./lib" mapping :=
  exists_wildcard (by decide +kernel) (by decide +kernel)

theorem exists_wildcard_root : ∃ mapping, mapping.base = none ∧
    Wildcard (configuredFiles rootText) "/p" "@" "." mapping :=
  exists_wildcard (by decide +kernel) (by decide +kernel)

theorem wildcard_resolves_library :
    ∃ r : Resolver, Resolver.new ["a.ts", "src/lib/b.ts"]
        (discoverAliases (configuredFiles libraryText) "/p" none) = .ok r ∧
      ((r.resolve "a.ts" "@/b").run (r.after ∅ [])).1 = some "src/lib/b.ts" := by
  obtain ⟨mapping, hbase, h⟩ := exists_wildcard_library
  obtain ⟨-, -, resolves⟩ := wildcard_resolves (by decide) (by decide +kernel) h
  obtain ⟨r, hr, resolves⟩ := resolves ["a.ts", "src/lib/b.ts"]
  have name : Path.IsName "b" := by decide
  have source : Path.IsName "src" := by decide
  have library : Path.IsName "lib" := by decide
  have directory :
      mapping.targetDirectory "/p" "./lib" = Path.join "/p" ("src" ++ "/" ++ "lib") := by
    rw [PathMapping.targetDirectory, hbase]
    decide +kernel
  refine ⟨r, hr, ?_⟩
  exact (resolves "b" name.isInner (by decide +kernel) "a.ts" []).1 ("src" ++ "/" ++ "lib")
    "src/lib/b.ts" (source.isInner.slash library.isInner) directory (by decide)
    (by decide +kernel)

/-- A mapping to the root does not resolve. -/
theorem not_wildcard_resolves :
    ¬ ∀ (files : FileSystem) (root start target : String) (mapping : PathMapping),
      Path.isAbsolute root → Path.clean root = root → Wildcard files root start target mapping →
      ∀ inside, Path.relativeTo? root (mapping.targetDirectory root target) = some inside →
      ∀ (known : List String) (r : Resolver),
      Resolver.new known (discoverAliases files root none) = .ok r →
      (∀ path ∈ known, '\\' ∉ path.toList) →
      ∀ x file importer : String, Path.IsInner x → stripSourceExtension x = x →
      (candidates (Path.join inside x)).find? known.contains = some file →
      ((r.resolve importer (start ++ "/" ++ x)).run ∅).1 = some file := by
  intro works
  obtain ⟨mapping, hbase, h⟩ := exists_wildcard_root
  have root : mapping.targetDirectory "/p" "." = "/p" := by
    rw [PathMapping.targetDirectory, hbase]
    decide +kernel
  have absolute : Path.isAbsolute "/p" := by decide
  have clean : Path.clean "/p" = "/p" := by decide +kernel
  obtain ⟨table, htable⟩ := exists_ofMap_discoverAliases absolute (configuredFiles rootText) none
  have library : Path.IsName "lib" := by decide
  have name : Path.IsName "b" := by decide
  have inside : Path.relativeTo? "/p" (mapping.targetDirectory "/p" ".") = some "" := by
    rw [root]
    exact Path.relativeTo?_self _
  have found := works _ "/p" "@" "." mapping absolute clean h "" inside ["a.ts", "lib/b.ts"] _
    (new_of_ofMap htable _) (by decide) ("lib" ++ "/" ++ "b") "lib/b.ts" "a.ts"
    (library.isInner.slash name.isInner) (by decide +kernel) (by decide +kernel)
  have faithful : Memory.Faithful ⟨.ofList ["a.ts", "lib/b.ts"], table⟩ ∅ := Memory.faithful_new []
  rw [(faithful.resolve _ _).1, h.answer_of_root absolute clean htable (by decide +kernel) root
    (by decide)] at found
  cases found

end CodeAtlas
