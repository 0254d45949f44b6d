import CodeAtlas.Proofs.Resolution.Memory
import CodeAtlas.Proofs.Resolution.Packages
import CodeAtlas.Proofs.Resolution.Record
import Mathlib

/-!
# Packages and the file that is found

A relative import is checked against the packages before the known files are looked at, so the
check is about the path that the specifier joins to and not about the file that is found there.
What is found may carry an extension or be an index (`mem_candidates`). An index lies in the
directory of the path, and is inside the same package roots as the path. A script beside the path
is inside the same ones except for the path itself, should that be one; and there the check misses
an import into another package (`resolve_crosses_iff`): the specifier names the importer's own
package root, that root lies below another one, and the script beside the directory is found
(`not_resolve_within_package`).

That no known file is itself a package root is assumed throughout.
-/

namespace CodeAtlas.Resolution

open CodeAtlas.Text

/-! ## Below a directory -/

/-- The path lies below the directory `root`. -/
def Below (root path : String) : Prop := ∃ rest, path = root ++ "/" ++ rest

variable {aliases : AliasMap} {root path tail base file : String}

theorem inside_iff : Inside root path ↔ path = root ∨ Below root path := Iff.rfl

theorem Below.size_lt (h : Below root path) : root.utf8ByteSize < path.utf8ByteSize := by
  obtain ⟨rest, rfl⟩ := h
  have slash : "/".utf8ByteSize = 1 := by decide
  rw [String.utf8ByteSize_append, String.utf8ByteSize_append]
  omega

theorem Below.append (h : Below root path) (tail : String) : Below root (path ++ tail) := by
  obtain ⟨rest, rfl⟩ := h
  exact ⟨rest ++ tail, String.append_assoc⟩

/-- A tail without a slash leads to no other directory, so what lies below a root without it did so
before. -/
theorem Below.of_append (h : Below root (path ++ tail)) (htail : '/' ∉ tail.toList) :
    Below root path := by
  obtain ⟨rest, hrest⟩ := h
  exact exists_eq_append_slash hrest htail

/-- What lies in a directory lies below just the roots that the directory is inside. -/
theorem below_entry_iff (htail : '/' ∉ tail.toList) :
    Below root (path ++ "/" ++ tail) ↔ Inside root path := by
  rw [inside_iff]
  constructor
  · intro h
    obtain ⟨rest, hrest⟩ := h.of_append htail
    exact eq_or_exists_of_append_slash hrest
  · intro h
    rcases h with rfl | hbelow
    · exact ⟨tail, rfl⟩
    · exact (hbelow.append "/").append tail

/-- A script beside a path lies below just the roots that the path lies below. -/
theorem below_extended_iff {e : String} (he : e ∈ sourceExtensions) :
    Below root (path ++ "." ++ e) ↔ Below root path := by
  have plain : ∀ e ∈ sourceExtensions, '/' ∉ ("." ++ e).toList := by decide
  rw [String.append_assoc]
  exact ⟨fun h => h.of_append (plain e he), fun h => h.append _⟩

/-! ## The files that a path may mean -/

/-- The scripts of a path are the path itself and those with an extension. -/
theorem mem_variants {stem : String} (h : file ∈ variants stem) :
    file = stem ∨ ∃ e ∈ sourceExtensions, file = stem ++ "." ++ e := by
  rcases List.mem_append.mp h with hplain | hextended
  · split at hplain
    · cases hplain
    · exact .inl (List.mem_singleton.mp hplain)
  · obtain ⟨e, he, rfl⟩ := List.mem_map.mp hextended
    exact .inr ⟨e, he, rfl⟩

/-- A path means the file of its own name, that of its name with an extension, or one that lies
in the directory of its name. -/
theorem mem_candidates (h : file ∈ candidates base) :
    file = base ∨ (∃ e ∈ sourceExtensions, file = base ++ "." ++ e) ∨
      ∃ tail : String, '/' ∉ tail.toList ∧ (file = tail ∨ file = base ++ "/" ++ tail) := by
  rcases List.mem_append.mp h with hfile | hindex
  · rcases mem_variants hfile with rfl | hextended
    · exact .inl rfl
    · exact .inr (.inl hextended)
  · have plain : ∀ e ∈ sourceExtensions, '/' ∉ ("index" ++ ("." ++ e)).toList := by decide
    obtain ⟨suffix, hsuffix, rfl⟩ : ∃ suffix : String,
        '/' ∉ ("index" ++ suffix).toList ∧ file = indexOf base ++ suffix := by
      rcases mem_variants hindex with rfl | ⟨e, he, rfl⟩
      · exact ⟨"", by decide, String.append_empty.symm⟩
      · exact ⟨"." ++ e, plain e he, String.append_assoc⟩
    refine .inr (.inr ⟨"index" ++ suffix, hsuffix, ?_⟩)
    unfold indexOf
    split
    · exact .inl rfl
    · refine .inr ?_
      have name : "/index" = "/" ++ "index" := by decide
      rw [name]
      simp only [String.append_assoc]

/-! ## The check and the file -/

/-- Two paths that are inside the same package roots have the same homes. -/
theorem Home.congr
    (h : ∀ root, IsPackageRoot aliases root → (Inside root path ↔ Inside root file)) :
    Home aliases path root ↔ Home aliases file root := by
  constructor
  · intro home
    refine ⟨home.isRoot, (h root home.isRoot).mp home.inside, ?_⟩
    exact fun other hroot hinside => home.longest other hroot ((h other hroot).mpr hinside)
  · intro home
    refine ⟨home.isRoot, (h root home.isRoot).mpr home.inside, ?_⟩
    exact fun other hroot hinside => home.longest other hroot ((h other hroot).mp hinside)

/-- A package root is its own home. -/
theorem home_self (h : IsPackageRoot aliases root) : Home aliases root root where
  isRoot := h
  inside := .inl rfl
  longest other _ hinside := by
    rcases inside_iff.mp hinside with rfl | hbelow
    · exact Nat.le_refl _
    · exact Nat.le_of_lt hbelow.size_lt

/-- What a relative import means is found for the joined path, which is in no other package. -/
theorem candidate_of_answer {r : Resolver} (haliases : AliasTable.ofMap aliases = .ok r.aliases)
    {importer specifier : String} (hunaliased : Unaliased aliases (stripSourceExtension specifier))
    (hrelative : Path.isRelative (stripSourceExtension specifier))
    (hfile : (r.answer importer specifier).1 = some file) :
    (∀ a b, Home aliases importer a →
      Home aliases (Path.joinRelative importer (stripSourceExtension specifier)) b → a = b) ∧
    file ∈ candidates (Path.joinRelative importer (stripSourceExtension specifier)) ∧
    file ∈ r.known := by
  have hnone := (substitute_eq_none_iff haliases).mpr hunaliased
  refine ⟨?same, ?found, mem_known_of_answer hfile⟩
  case same =>
    intro a b ha hb
    refine Decidable.byContradiction fun hne => ?_
    have foreign := (target_eq_foreign_iff haliases).mpr
      ⟨hunaliased, hrelative, rfl, a, b, ha, hb, hne⟩
    rw [answer_of_foreign foreign] at hfile
    cases hfile
  case found =>
    unfold Resolver.answer at hfile
    split at hfile
    · cases hfile
    · cases hfile
    · rename_i path htarget
      unfold Resolver.target at htarget
      simp only [hnone, hrelative, if_true] at htarget
      split at htarget
      · cases htarget
      · cases htarget
        dsimp only at hfile
        exact mem_candidates_of_probe hfile

/-- The path is the importer's own package root and lies below another one, and the file is a
script beside it. -/
structure Beside (aliases : AliasMap) (importer path file : String) : Prop where
  home : Home aliases importer path
  nested : ∃ root, IsPackageRoot aliases root ∧ Below root path
  extended : ∃ e ∈ sourceExtensions, file = path ++ "." ++ e

/-- **The package boundary and its gap.** Whatever was asked before, a relative import that is
answered leads into another package just if it names the importer's own package root, that root
lies below another one, and the answer is a script beside the directory. -/
theorem resolve_crosses_iff {r : Resolver} (haliases : AliasTable.ofMap aliases = .ok r.aliases)
    (hknown : ∀ path ∈ r.known, ¬ IsPackageRoot aliases path) {importer specifier : String}
    (hunaliased : Unaliased aliases (stripSourceExtension specifier))
    (hrelative : Path.isRelative (stripSourceExtension specifier)) (asked : List Question)
    (hfile : ((r.resolve importer specifier).run (r.after ∅ asked)).1 = some file) :
    (∃ a b, Home aliases importer a ∧ Home aliases file b ∧ a ≠ b) ↔
      Beside aliases importer (Path.joinRelative importer (stripSourceExtension specifier))
        file := by
  have faithful : (r.after ∅ asked).Faithful r := (Memory.faithful_new []).after asked
  rw [(faithful.resolve importer specifier).1] at hfile
  obtain ⟨same, candidate, known⟩ := candidate_of_answer haliases hunaliased hrelative hfile
  generalize Path.joinRelative importer (stripSourceExtension specifier) = path at *
  -- no root is the file itself
  have inside : ∀ root, IsPackageRoot aliases root → (Inside root file ↔ Below root file) := by
    intro root hroot
    refine or_iff_right ?_
    rintro rfl
    exact hknown _ known hroot
  constructor
  · rintro ⟨a, b, ha, hb, hne⟩
    have hbelow : Below b file := (inside b hb.isRoot).mp hb.inside
    -- if the path and the file are inside the same roots, the check has compared their homes
    have contrary : (∀ root, IsPackageRoot aliases root → (Inside root path ↔ Inside root file)) →
        False := fun h => hne (same a b ha ((Home.congr h).mpr hb))
    rcases mem_candidates candidate with rfl | ⟨e, he, rfl⟩ | ⟨tail, htail, rfl | rfl⟩
    · exact (contrary fun _ _ => Iff.rfl).elim
    · by_cases hpath : IsPackageRoot aliases path
      · obtain rfl : a = path := same a path ha (home_self hpath)
        exact ⟨ha, ⟨b, hb.isRoot, (below_extended_iff he).mp hbelow⟩, e, he, rfl⟩
      · refine (contrary fun root hroot => ?_).elim
        have apart : path ≠ root := fun heq => hpath (heq ▸ hroot)
        rw [inside root hroot, below_extended_iff he, inside_iff, or_iff_right apart]
    · have empty : Below b "" := by
        refine Below.of_append ?_ htail
        rwa [String.empty_append]
      exact absurd empty.size_lt (Nat.not_lt_zero _)
    · refine (contrary fun root hroot => ?_).elim
      rw [inside root hroot, below_entry_iff htail]
  · rintro ⟨home, ⟨root, hroot, hbelow⟩, e, he, rfl⟩
    obtain ⟨b, -, hb⟩ := exists_home haliases hroot
      ((inside root hroot).mpr ((below_extended_iff he).mpr hbelow))
    have below : Below b path :=
      (below_extended_iff he).mp ((inside b hb.isRoot).mp hb.inside)
    refine ⟨path, b, home, hb, ?_⟩
    rintro rfl
    exact absurd below.size_lt (Nat.lt_irrefl _)

/-! ## A package inside another -/

/-- The package `packages/b` inside the package `packages`. -/
def nestedPackages : AliasMap := .ofList [("@b", "packages/b/src"), ("@p", "packages/src")]

/-- The table of the nested packages. -/
def nestedTable : AliasTable :=
  ⟨[⟨"@b", "packages/b/src"⟩, ⟨"@p", "packages/src"⟩], ["packages/b", "packages"]⟩

/-- A file of the inner package, and a script of the outer one beside the inner directory. -/
def nestedResolver : Resolver :=
  ⟨.ofList ["packages/b/src/x.ts", "packages/b.ts"], nestedTable⟩

theorem ofMap_nestedPackages : AliasTable.ofMap nestedPackages = .ok nestedTable := by cbv

theorem not_isPackageRoot_of_mem_nestedResolver :
    ∀ path ∈ nestedResolver.known, ¬ IsPackageRoot nestedPackages path := by
  intro path hpath hroot
  have known : path ∈ ["packages/b/src/x.ts", "packages/b.ts"] :=
    List.contains_iff_mem.mp (Std.ExtTreeSet.mem_ofList.mp hpath)
  have roots : ∀ path ∈ ["packages/b/src/x.ts", "packages/b.ts"],
      path ∉ nestedTable.packageRoots := by decide
  exact roots path known ((mem_packageRoots_iff ofMap_nestedPackages).mpr hroot)

theorem unaliased_nestedPackages : Unaliased nestedPackages (stripSourceExtension "../../b") :=
  (substitute_eq_none_iff ofMap_nestedPackages).mp (by decide)

theorem home_inner : Home nestedPackages "packages/b/src/x.ts" "packages/b" :=
  (packageRootOf_eq_some_iff ofMap_nestedPackages).mp (by decide)

theorem home_outer : Home nestedPackages "packages/b.ts" "packages" :=
  (packageRootOf_eq_some_iff ofMap_nestedPackages).mp (by decide)

theorem resolve_nestedResolver :
    ((nestedResolver.resolve "packages/b/src/x.ts" "../../b").run
      (nestedResolver.after ∅ [])).1 = some "packages/b.ts" := by
  decide

/-- The gap in a concrete case: the specifier names the root of the inner package, and a script
beside that directory is known. -/
theorem beside_inner : Beside nestedPackages "packages/b/src/x.ts"
    (Path.joinRelative "packages/b/src/x.ts" (stripSourceExtension "../../b"))
    "packages/b.ts" := by
  have joined : Path.joinRelative "packages/b/src/x.ts" (stripSourceExtension "../../b") =
      "packages/b" := by decide
  rw [joined]
  exact ⟨home_inner, ⟨"packages", home_outer.isRoot, "b", by decide⟩, "ts", by decide, by decide⟩

/-- The specifier names the directory of the inner package, and the answer lies in the outer
one. -/
theorem resolve_crosses_iff_nested :
    ((nestedResolver.resolve "packages/b/src/x.ts" "../../b").run
      (nestedResolver.after ∅ [])).1 = some "packages/b.ts" ∧
    ∃ a b, Home nestedPackages "packages/b/src/x.ts" a ∧
      Home nestedPackages "packages/b.ts" b ∧ a ≠ b := by
  refine ⟨resolve_nestedResolver, ?_⟩
  have crosses := resolve_crosses_iff (r := nestedResolver) ofMap_nestedPackages
    not_isPackageRoot_of_mem_nestedResolver unaliased_nestedPackages (by decide) []
    resolve_nestedResolver
  exact crosses.mpr beside_inner

/-- An accepted relative import does not always stay in its package: from the inner package the
directory of the package is imported, and the answer lies in the outer one. -/
theorem not_resolve_within_package :
    ¬ ∀ (known : List String) (aliases : AliasMap) (r : Resolver),
      Resolver.new known aliases = .ok r → (∀ path ∈ known, ¬ IsPackageRoot aliases path) →
      ∀ importer specifier file : String, Unaliased aliases (stripSourceExtension specifier) →
      Path.isRelative (stripSourceExtension specifier) →
      ((r.resolve importer specifier).run ∅).1 = some file →
      ¬ ∃ a b, Home aliases importer a ∧ Home aliases file b ∧ a ≠ b := by
  intro boundary
  refine boundary ["packages/b/src/x.ts", "packages/b.ts"] nestedPackages nestedResolver
    (new_of_ofMap ofMap_nestedPackages _) ?_ "packages/b/src/x.ts" "../../b" "packages/b.ts"
    unaliased_nestedPackages (by decide) resolve_nestedResolver
    ⟨"packages/b", "packages", home_inner, home_outer, by decide⟩
  intro path hpath
  refine not_isPackageRoot_of_mem_nestedResolver path ?_
  exact Std.ExtTreeSet.mem_ofList.mpr (List.contains_iff_mem.mpr hpath)

end CodeAtlas.Resolution
