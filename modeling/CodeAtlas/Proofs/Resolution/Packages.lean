import CodeAtlas.Proofs.Text.Cut
import CodeAtlas.Resolution.Resolver
import Mathlib.Tactic.Tauto

/-!
# Packages

What an alias map says about specifiers and packages, without the table that is made of it. An
alias matches a specifier (`Matches`) or it does not; the directories that hold the targets are
the package roots (`IsPackageRoot`), and a path is at home in the longest root that it is inside
(`Home`). The table agrees: it substitutes nothing exactly if no alias matches
(`substitute_eq_none_iff`), and its answer about a path is the home of the path
(`packageRootOf_eq_some_iff`). So a resolver refuses exactly the imports that lead from one home
into another (`target_eq_foreign_iff`).

Which of several matching aliases is substituted, and by what, plays no part here.
-/

namespace CodeAtlas.Resolution

open CodeAtlas.Text

/-! ## What a map says -/

/-- The specifier begins with the alias, and the alias ends at a slash of its own, at the end of
the specifier or at a slash of the specifier. -/
def Matches (key specifier : String) : Prop :=
  ∃ rest, specifier = key ++ rest ∧ (endsWith '/' key ∨ rest = "" ∨ beginsWith '/' rest)

/-- No alias matches the specifier. -/
def Unaliased (aliases : AliasMap) (specifier : String) : Prop :=
  ∀ key ∈ aliases, ¬ Matches key specifier

/-- `root` is the directory that holds the target of an alias. -/
def IsPackageRoot (aliases : AliasMap) (root : String) : Prop :=
  root ≠ "" ∧ ∃ (key target last : String), aliases[key]? = some target ∧ '/' ∉ last.toList ∧
    Path.normalize (trimStartChar '/' target) = root ++ "/" ++ last

/-- The path is the directory `root` or lies below it. -/
def Inside (root path : String) : Prop := path = root ∨ ∃ rest, path = root ++ "/" ++ rest

/-- `root` is the longest package root that the path is inside. -/
structure Home (aliases : AliasMap) (path root : String) : Prop where
  isRoot : IsPackageRoot aliases root
  inside : Inside root path
  longest : ∀ other, IsPackageRoot aliases other → Inside other path →
    other.utf8ByteSize ≤ root.utf8ByteSize

/-- The import is relative, matches no alias, and leads to `path`, which is at home in another
package than the importer. -/
structure Escapes (aliases : AliasMap) (importer specifier path : String) : Prop where
  unaliased : Unaliased aliases (stripSourceExtension specifier)
  relative : Path.isRelative (stripSourceExtension specifier)
  joined : path = Path.joinRelative importer (stripSourceExtension specifier)
  crossing : ∃ a b, Home aliases importer a ∧ Home aliases path b ∧ a ≠ b

variable {aliases : AliasMap} {table : AliasTable} {path root other : String}

/-! ## Paths inside a directory -/

theorem Inside.exists_eq_append (h : Inside root path) : ∃ rest, path = root ++ rest := by
  rcases h with rfl | ⟨rest, rfl⟩
  · exact ⟨"", String.append_empty.symm⟩
  · exact ⟨"/" ++ rest, String.append_assoc⟩

/-- A path is within a root if it is the root itself or goes on after it with a slash. So
`packages/ab` is not within `packages/a`. -/
theorem isWithin_iff : AliasTable.isWithin root path ↔ Inside root path := by
  unfold AliasTable.isWithin Inside
  constructor
  · intro h
    split at h
    · rename_i rest hrest
      rw [dropPrefix?_eq_some_iff] at hrest
      rw [Bool.or_eq_true, decide_eq_true_iff, beginsWith_slash_iff] at h
      rcases h with rfl | ⟨tail, rfl⟩
      · exact .inl (by rw [hrest, String.append_empty])
      · exact .inr ⟨tail, by rw [hrest, String.append_assoc]⟩
    · cases h
  · rintro (rfl | ⟨rest, rfl⟩)
    · have whole : dropPrefix? path path = some "" :=
        dropPrefix?_eq_some_iff.mpr String.append_empty.symm
      simp [whole]
    · have below : dropPrefix? root (root ++ "/" ++ rest) = some ("/" ++ rest) :=
        dropPrefix?_eq_some_iff.mpr String.append_assoc
      simp [below, beginsWith_slash_iff.mpr ⟨rest, rfl⟩]

theorem Home.eq (h : Home aliases path root) (h' : Home aliases path other) : root = other := by
  obtain ⟨x, hx⟩ := h.inside.exists_eq_append
  obtain ⟨y, hy⟩ := h'.inside.exists_eq_append
  have le : other.utf8ByteSize ≤ root.utf8ByteSize := h.longest other h'.isRoot h'.inside
  have ge : root.utf8ByteSize ≤ other.utf8ByteSize := h'.longest root h.isRoot h.inside
  exact eq_of_append_eq (hx.symm.trans hy) (by omega)

/-! ## The aliases of a table -/

/-- An alias passes its check if neither its key nor the normal form of its target is empty, and
then it holds the key as given and the normal form. -/
theorem checkAlias_eq_ok_iff {key target : String} {a : Alias} :
    AliasTable.checkAlias key target = .ok a ↔
      key ≠ "" ∧ Path.normalize (trimStartChar '/' target) ≠ "" ∧
        a.key = key ∧ a.target = Path.normalize (trimStartChar '/' target) := by
  obtain ⟨aliasKey, aliasTarget⟩ := a
  unfold AliasTable.checkAlias
  by_cases hkey : key = ""
  · simp [hkey]
  · by_cases hnormal : Path.normalize (trimStartChar '/' target) = ""
    · simp [hkey, hnormal]
    · simp [hkey, hnormal, eq_comm]

theorem bind_eq_ok_iff {α β ε : Type} {x : Except ε α} {f : α → Except ε β} {b : β} :
    x >>= f = .ok b ↔ ∃ a, x = .ok a ∧ f a = .ok b := by
  cases x with
  | error e => exact iff_of_false nofun nofun
  | ok a => exact ⟨fun h => ⟨a, rfl, h⟩, fun ⟨_, ha, h⟩ => by cases ha; exact h⟩

theorem mapError_eq_ok_iff {α ε ε' : Type} {x : Except ε α} {f : ε → ε'} {a : α} :
    x.mapError f = .ok a ↔ x = .ok a := by
  cases x with
  | error e => exact iff_of_false nofun nofun
  | ok a' => exact ⟨fun h => by cases h; rfl, fun h => by cases h; rfl⟩

theorem eq_ok_of_toOption {α ε : Type} {x : Except ε α} {a : α} (h : x.toOption = some a) :
    x = .ok a := by
  cases x with
  | error e => cases h
  | ok b => exact congrArg _ (Option.some.inj h)

theorem exists_ok_of_bind {α β ε : Type} {x : Except ε α} {f : α → Except ε β} {b : β}
    (h : x >>= f = .ok b) : ∃ a, x = .ok a ∧ f a = .ok b :=
  bind_eq_ok_iff.mp h

theorem exists_ok_of_map {α β ε : Type} {x : Except ε α} {f : α → β} {b : β}
    (h : x.map f = .ok b) : ∃ a, x = .ok a ∧ f a = b := by
  cases x with
  | error e => cases h
  | ok a => exact ⟨a, rfl, Except.ok.inj h⟩

/-- A checked list succeeds only as a whole: every entry passed, and the results stand in the same
order. -/
theorem map_eq_map_ok {α β ε : Type} {f : α → Except ε β} {as : List α} {bs : List β}
    (h : as.mapM f = .ok bs) : as.map f = bs.map .ok := by
  induction as generalizing bs with
  | nil =>
    cases h
    rfl
  | cons a as ih =>
    rw [List.mapM_cons] at h
    obtain ⟨first, hfirst, h⟩ := exists_ok_of_bind h
    obtain ⟨rest, hrest, h⟩ := exists_ok_of_bind h
    cases h
    rw [List.map_cons, List.map_cons, hfirst, ih hrest]

theorem exists_error_of_mapM {α β ε : Type} {f : α → Except ε β} {as : List α} {e : ε}
    (h : as.mapM f = .error e) : ∃ a ∈ as, f a = .error e := by
  induction as with
  | nil => cases h
  | cons a as ih =>
    rw [List.mapM_cons] at h
    cases hfirst : f a with
    | error e' =>
      rw [hfirst] at h
      cases h
      exact ⟨a, List.mem_cons_self, hfirst⟩
    | ok b =>
      cases hrest : as.mapM f with
      | error e' =>
        rw [hfirst, hrest] at h
        cases h
        obtain ⟨a', ha', hfailed⟩ := ih hrest
        exact ⟨a', List.mem_cons_of_mem a ha', hfailed⟩
      | ok bs =>
        rw [hfirst, hrest] at h
        cases h

/-- A table is made by checking every entry of the map and sorting. -/
theorem exists_checked (h : AliasTable.ofMap aliases = .ok table) :
    ∃ checked : List Alias,
      aliases.toList.map (fun e => AliasTable.checkAlias e.1 e.2) = checked.map .ok ∧
      table.aliases = checked.mergeSort (fun a b => AliasTable.longerFirst a.key b.key) ∧
      table.packageRoots = AliasTable.dropRepeats
        ((table.aliases.filterMap Alias.packageRoot?).mergeSort AliasTable.rootOrder) := by
  unfold AliasTable.ofMap at h
  obtain ⟨checked, hchecked, h⟩ := exists_ok_of_bind h
  cases h
  exact ⟨checked, map_eq_map_ok hchecked, rfl, rfl⟩

/-- The table has one alias for each entry of the map, with the normal form of its target. -/
theorem mem_aliases_iff (h : AliasTable.ofMap aliases = .ok table) {a : Alias} :
    a ∈ table.aliases ↔
      ∃ target, aliases[a.key]? = some target ∧
        a.target = Path.normalize (trimStartChar '/' target) := by
  obtain ⟨checked, hchecked, haliases, -⟩ := exists_checked h
  have mem : a ∈ checked ↔ ∃ e ∈ aliases.toList, AliasTable.checkAlias e.1 e.2 = .ok a := by
    have hmap : (Except.ok a : Except Failure Alias) ∈ checked.map .ok ↔ a ∈ checked := by simp
    rw [← hmap, ← hchecked, List.mem_map]
  rw [haliases, List.mem_mergeSort, mem]
  constructor
  · rintro ⟨⟨key, target⟩, hmem, hcheck⟩
    obtain ⟨-, -, hkey, htarget⟩ := checkAlias_eq_ok_iff.mp hcheck
    refine ⟨target, ?_, htarget⟩
    rw [hkey]
    exact Std.ExtTreeMap.mem_toList_iff_getElem?_eq_some.mp hmem
  · rintro ⟨target, hget, htarget⟩
    have hmem := Std.ExtTreeMap.mem_toList_iff_getElem?_eq_some.mpr hget
    refine ⟨(a.key, target), hmem, ?_⟩
    -- the entry passed its check, so the check yields this alias
    have passed : AliasTable.checkAlias a.key target ∈ checked.map .ok :=
      hchecked ▸ List.mem_map_of_mem hmem
    obtain ⟨b, -, hb⟩ := List.mem_map.mp passed
    obtain ⟨hkey, hnormal, -⟩ := checkAlias_eq_ok_iff.mp hb.symm
    exact checkAlias_eq_ok_iff.mpr ⟨hkey, hnormal, rfl, htarget⟩

/-- A map makes a table if its aliases and the normal forms of its targets are not empty. -/
theorem exists_ofMap
    (h : ∀ key target : String, aliases[key]? = some target →
      key ≠ "" ∧ Path.normalize (trimStartChar '/' target) ≠ "") :
    ∃ table, AliasTable.ofMap aliases = .ok table := by
  unfold AliasTable.ofMap
  cases hchecked : aliases.toList.mapM fun e => AliasTable.checkAlias e.1 e.2 with
  | ok checked => exact ⟨_, rfl⟩
  | error failure =>
    obtain ⟨e, he, hfailed⟩ := exists_error_of_mapM hchecked
    obtain ⟨hkey, hnormal⟩ := h e.1 e.2 (Std.ExtTreeMap.mem_toList_iff_getElem?_eq_some.mp he)
    rw [AliasTable.checkAlias, if_neg hkey] at hfailed
    dsimp only at hfailed
    rw [if_neg hnormal] at hfailed
    cases hfailed

theorem mem_aliases_of_get (h : AliasTable.ofMap aliases = .ok table) {key target : String}
    (hget : aliases[key]? = some target) :
    ⟨key, Path.normalize (trimStartChar '/' target)⟩ ∈ table.aliases := by
  rw [mem_aliases_iff h]
  exact ⟨target, hget, by dsimp only⟩

/-! ## Substitution -/

/-- The executable match of an alias says no exactly if `Matches` does not hold. -/
theorem rest?_eq_none_iff {a : Alias} {specifier : String} :
    a.rest? specifier = none ↔ ¬ Matches a.key specifier := by
  have matched : ∀ rest, specifier = a.key ++ rest →
      (Matches a.key specifier ↔ endsWith '/' a.key ∨ rest = "" ∨ beginsWith '/' rest) := by
    rintro rest rfl
    refine ⟨?_, fun h => ⟨rest, rfl, h⟩⟩
    rintro ⟨rest', heq, h⟩
    rwa [(String.append_right_inj a.key).mp heq]
  unfold Alias.rest?
  cases hrest : dropPrefix? a.key specifier with
  | none =>
    refine iff_of_true rfl ?_
    rintro ⟨rest, heq, -⟩
    rw [dropPrefix?_eq_some_iff.mpr heq] at hrest
    cases hrest
  | some rest =>
    rw [matched rest (dropPrefix?_eq_some_iff.mp hrest)]
    change (if endsWith '/' a.key || rest = "" then some rest else dropPrefix? "/" rest) = none ↔ _
    by_cases hend : endsWith '/' a.key ∨ rest = ""
    · simp only [Bool.or_eq_true, decide_eq_true_iff, if_pos hend]
      tauto
    · simp only [Bool.or_eq_true, decide_eq_true_iff, if_neg hend, dropPrefix?_slash_eq_none_iff]
      tauto

/-- The table leaves a specifier alone exactly if no alias of the map matches it. The order of the
table plays no part in this. -/
theorem substitute_eq_none_iff (h : AliasTable.ofMap aliases = .ok table) {specifier : String} :
    table.substitute specifier = none ↔ Unaliased aliases specifier := by
  rw [AliasTable.substitute, List.findSome?_eq_none_iff]
  constructor
  · intro hnone key hkey
    obtain ⟨target, hget⟩ : ∃ target, aliases[key]? = some target :=
      ⟨_, Std.ExtTreeMap.getElem?_eq_some_getElem hkey⟩
    have unmatched := Option.map_eq_none_iff.mp (hnone _ (mem_aliases_of_get h hget))
    exact rest?_eq_none_iff.mp unmatched
  · intro hunaliased a ha
    obtain ⟨target, hget, -⟩ := (mem_aliases_iff h).mp ha
    have hkey : a.key ∈ aliases :=
      Std.ExtTreeMap.mem_iff_isSome_getElem?.mpr (Option.isSome_of_eq_some hget)
    rw [rest?_eq_none_iff.mpr (hunaliased a.key hkey), Option.map_none]

/-! ## Package roots -/

theorem mem_dropRepeats {texts : List String} {a : String} :
    a ∈ AliasTable.dropRepeats texts ↔ a ∈ texts := by
  fun_induction AliasTable.dropRepeats texts with
  | case1 => rfl
  | case2 => rfl
  | case3 b r ih => rw [ih, List.mem_cons, List.mem_cons, List.mem_cons]; tauto
  | case4 b c r hne ih => rw [List.mem_cons, ih, List.mem_cons (b := b)]

theorem dropRepeats_sublist (texts : List String) :
    (AliasTable.dropRepeats texts).Sublist texts := by
  fun_induction AliasTable.dropRepeats texts with
  | case1 => exact .slnil
  | case2 => exact .refl _
  | case3 b r ih => exact ih.cons _
  | case4 b c r hne ih => exact ih.cons_cons _

/-- The root of an alias is its target without the last name. A target of one name has no root. -/
theorem packageRoot?_eq_some_iff {a : Alias} :
    a.packageRoot? = some root ↔
      root ≠ "" ∧ ∃ last : String, '/' ∉ last.toList ∧ a.target = root ++ "/" ++ last := by
  have cut : a.packageRoot? = some root ↔
      root ≠ "" ∧ ∃ last, cutLast? '/' a.target = some (root, last) := by
    unfold Alias.packageRoot?
    cases cutLast? '/' a.target with
    | none => simp
    | some parts =>
      obtain ⟨directory, last⟩ := parts
      change (if directory = "" then none else some directory) = some root ↔ _
      by_cases hempty : directory = ""
      · rw [if_pos hempty]
        refine iff_of_false nofun ?_
        rintro ⟨hroot, _, hcut⟩
        exact hroot ((Prod.mk.inj (Option.some.inj hcut)).1.symm.trans hempty)
      · rw [if_neg hempty, Option.some.injEq]
        constructor
        · rintro rfl
          exact ⟨hempty, last, rfl⟩
        · rintro ⟨-, _, hcut⟩
          exact (Prod.mk.inj (Option.some.inj hcut)).1
  rw [cut]
  refine and_congr_right fun _ => exists_congr fun last => ?_
  rw [cutLast?_slash_eq_some_iff, and_comm]

/-- The roots of a table are the package roots of its map, whatever repeated entries were dropped.
-/
theorem mem_packageRoots_iff (h : AliasTable.ofMap aliases = .ok table) :
    root ∈ table.packageRoots ↔ IsPackageRoot aliases root := by
  obtain ⟨-, -, -, hroots⟩ := exists_checked h
  rw [hroots, mem_dropRepeats, List.mem_mergeSort, List.mem_filterMap]
  simp only [packageRoot?_eq_some_iff]
  constructor
  · rintro ⟨a, ha, hne, last, hlast, heq⟩
    obtain ⟨target, hget, htarget⟩ := (mem_aliases_iff h).mp ha
    exact ⟨hne, a.key, target, last, hget, hlast, htarget.symm.trans heq⟩
  · rintro ⟨hne, key, target, last, hget, hlast, heq⟩
    refine ⟨_, mem_aliases_of_get h hget, hne, last, hlast, ?_⟩
    dsimp only
    exact heq

theorem rootOrder_iff {a b : String} : AliasTable.rootOrder a b ↔
    b.utf8ByteSize < a.utf8ByteSize ∨
      a.utf8ByteSize = b.utf8ByteSize ∧ (compare a b).isLE := by
  simp [AliasTable.rootOrder]

/-- The roots of a table are sorted by length, the longest first. Dropping repeated entries keeps
the order, since what is left is a sublist. -/
theorem pairwise_packageRoots (h : AliasTable.ofMap aliases = .ok table) :
    table.packageRoots.Pairwise fun a b => b.utf8ByteSize ≤ a.utf8ByteSize := by
  obtain ⟨-, -, -, hroots⟩ := exists_checked h
  have trans : ∀ a b c, AliasTable.rootOrder a b → AliasTable.rootOrder b c →
      AliasTable.rootOrder a c := by
    intro a b c hab hbc
    rw [rootOrder_iff] at *
    rcases hab with hab | ⟨hab, leab⟩ <;> rcases hbc with hbc | ⟨hbc, lebc⟩
    · exact .inl (by omega)
    · exact .inl (by omega)
    · exact .inl (by omega)
    · exact .inr ⟨by omega, Std.TransCmp.isLE_trans leab lebc⟩
  have total : ∀ a b, (AliasTable.rootOrder a b || AliasTable.rootOrder b a) = true := by
    intro a b
    rw [Bool.or_eq_true, rootOrder_iff, rootOrder_iff]
    have swap : compare b a = (compare a b).swap := Std.OrientedCmp.eq_swap
    rw [swap]
    rcases Nat.lt_trichotomy a.utf8ByteSize b.utf8ByteSize with hlt | heq | hgt
    · exact .inr (.inl hlt)
    · cases compare a b <;> simp [heq]
    · exact .inl (.inl hgt)
  rw [hroots]
  refine ((List.pairwise_mergeSort trans total _).sublist (dropRepeats_sublist _)).imp ?_
  intro a b hab
  rcases rootOrder_iff.mp hab with hlt | ⟨heq, -⟩
  · omega
  · omega

/-- In a list whose longest entries come first, the first entry of a kind is a longest one. -/
theorem le_of_find?_eq_some {texts : List String} {p : String → Bool} {a : String}
    (hsorted : texts.Pairwise fun a b => b.utf8ByteSize ≤ a.utf8ByteSize)
    (h : texts.find? p = some a) : ∀ b ∈ texts, p b → b.utf8ByteSize ≤ a.utf8ByteSize := by
  obtain ⟨-, before, after, rfl, hbefore⟩ := List.find?_eq_some_iff_append.mp h
  intro b hb hp
  rcases List.mem_append.mp hb with hb | hb
  · have := hbefore b hb
    simp [hp] at this
  · rcases List.mem_cons.mp hb with rfl | hb
    · exact Nat.le_refl _
    · exact (List.pairwise_cons.mp (List.pairwise_append.mp hsorted).2.1).1 b hb

theorem home_of_packageRootOf (h : AliasTable.ofMap aliases = .ok table)
    (hroot : table.packageRootOf path = some root) : Home aliases path root := by
  rw [AliasTable.packageRootOf] at hroot
  have within : AliasTable.isWithin root path :=
    List.find?_some (p := fun root => AliasTable.isWithin root path) hroot
  refine ⟨(mem_packageRoots_iff h).mp (List.mem_of_find?_eq_some hroot),
    isWithin_iff.mp within, ?_⟩
  intro other hother hinside
  exact le_of_find?_eq_some (pairwise_packageRoots h) hroot other
    ((mem_packageRoots_iff h).mpr hother) (isWithin_iff.mpr hinside)

/-- A path inside some package root has a home, and the table finds it. -/
theorem exists_home (h : AliasTable.ofMap aliases = .ok table) (hroot : IsPackageRoot aliases root)
    (hinside : Inside root path) :
    ∃ home, table.packageRootOf path = some home ∧ Home aliases path home := by
  cases hfind : table.packageRootOf path with
  | none =>
    have absent := List.find?_eq_none.mp hfind root ((mem_packageRoots_iff h).mpr hroot)
    exact absurd (isWithin_iff.mpr hinside) absent
  | some home => exact ⟨home, rfl, home_of_packageRootOf h hfind⟩

/-- The table finds the home of a path. The first root that the path is inside is the longest one,
because the roots are sorted by length. -/
theorem packageRootOf_eq_some_iff (h : AliasTable.ofMap aliases = .ok table) :
    table.packageRootOf path = some root ↔ Home aliases path root := by
  refine ⟨home_of_packageRootOf h, fun home => ?_⟩
  obtain ⟨found, hfound, other⟩ := exists_home h home.isRoot home.inside
  rw [hfound, other.eq home]

/-! ## Imports into another package -/

/-- An import crosses packages if both ends have a home and the homes differ. A path outside every
package crosses nothing. -/
theorem crossesPackages_iff {r : Resolver} (h : AliasTable.ofMap aliases = .ok r.aliases)
    {importer : String} :
    r.crossesPackages importer path ↔
      ∃ a b, Home aliases importer a ∧ Home aliases path b ∧ a ≠ b := by
  simp only [← packageRootOf_eq_some_iff h]
  unfold Resolver.crossesPackages
  cases r.aliases.packageRootOf importer <;> cases r.aliases.packageRootOf path <;> simp

/-- A resolver refuses exactly the imports that escape: relative ones that match no alias and lead
from one home into another. -/
theorem target_eq_foreign_iff {r : Resolver} (h : AliasTable.ofMap aliases = .ok r.aliases)
    {importer specifier : String} :
    r.target importer specifier = .foreign path ↔ Escapes aliases importer specifier path := by
  unfold Resolver.target
  dsimp only
  constructor
  · intro hforeign
    split at hforeign
    · cases hforeign
    · rename_i hnone
      split at hforeign
      · rename_i hrelative
        split at hforeign
        · rename_i hcross
          cases hforeign
          exact ⟨(substitute_eq_none_iff h).mp hnone, hrelative, rfl,
            (crossesPackages_iff h).mp hcross⟩
        · cases hforeign
      · cases hforeign
  · rintro ⟨hunaliased, hrelative, rfl, hcrossing⟩
    have hnone := (substitute_eq_none_iff h).mpr hunaliased
    have hcross := (crossesPackages_iff h).mpr hcrossing
    simp [hnone, hrelative, hcross]

end CodeAtlas.Resolution
