import CodeAtlas.Proofs.Path.Recleaning
import CodeAtlas.Proofs.Resolution.ExactNames

/-!
# Substituted aliases

Of several aliases that match a specifier the longest one is substituted. It is one alias, since
equally long beginnings of a specifier are equal (`LongestMatch.unique`), and it is the first one
in the table that matches (`exists_longestMatch`). What follows it in the specifier is put behind
the normal form of its target (`substitute_longest`). Unless the target holds a backslash this is
the normal form of what the two texts make when they are put together as they are.

A map has a table if no alias is empty and no target leads nowhere; the order in which its entries
came makes no difference.
-/

namespace CodeAtlas.Resolution

open CodeAtlas.Text

variable {aliases : AliasMap} {table : AliasTable} {specifier key other target rest rest' : String}

/-! ## The longest match -/

/-- `key` is a longest alias that matches the specifier. -/
structure LongestMatch (aliases : AliasMap) (specifier key : String) : Prop where
  mem : key ∈ aliases
  matched : Matches key specifier
  longest : ∀ other ∈ aliases, Matches other specifier → other.utf8ByteSize ≤ key.utf8ByteSize

/-- `rest` is what follows the alias in the specifier, without the slash that joins them. -/
def Remains (key specifier rest : String) : Prop :=
  specifier = key ++ rest ∧ (endsWith '/' key ∨ rest = "") ∨
    specifier = key ++ "/" ++ rest ∧ ¬ endsWith '/' key

/-- The text `directory`, continued by `rest` if anything is left. -/
def continued (directory rest : String) : String :=
  if rest = "" then directory else directory ++ "/" ++ rest

/-- Only one alias is the longest that matches: equally long beginnings of a specifier are equal. -/
theorem LongestMatch.unique (h : LongestMatch aliases specifier key)
    (h' : LongestMatch aliases specifier other) : other = key := by
  obtain ⟨x, hx, -⟩ := h.matched
  obtain ⟨y, hy, -⟩ := h'.matched
  have le : other.utf8ByteSize ≤ key.utf8ByteSize := h.longest other h'.mem h'.matched
  have ge : key.utf8ByteSize ≤ other.utf8ByteSize := h'.longest key h.mem h.matched
  exact eq_of_append_eq (hy.symm.trans hx) (by omega)

/-- What follows an alias in a specifier is settled, slash or not. -/
theorem Remains.unique (h : Remains key specifier rest) (h' : Remains key specifier rest') :
    rest' = rest := by
  have apart : ∀ rest, ¬ endsWith '/' key → key ≠ key ++ "/" ++ rest := by
    intro rest _ heq
    have size := congrArg String.length heq
    have one : "/".length = 1 := by decide
    rw [String.length_append, String.length_append] at size
    omega
  rcases h with ⟨rfl, hend⟩ | ⟨rfl, hend⟩ <;> rcases h' with ⟨heq, hend'⟩ | ⟨heq, hend'⟩
  · exact ((String.append_right_inj key).mp heq).symm
  · obtain rfl := hend.resolve_left hend'
    rw [String.append_empty] at heq
    exact absurd heq (apart _ hend')
  · obtain rfl := hend'.resolve_left hend
    rw [String.append_empty] at heq
    exact absurd heq.symm (apart _ hend)
  · exact ((String.append_right_inj (key ++ "/")).mp heq).symm

theorem isSome_rest?_iff {a : Alias} : (a.rest? specifier).isSome ↔ Matches a.key specifier := by
  rw [Option.isSome_iff_ne_none, ne_eq, rest?_eq_none_iff, not_not]

/-- A table has its longest aliases first. -/
theorem pairwise_aliases (h : AliasTable.ofMap aliases = .ok table) :
    table.aliases.Pairwise fun a b => b.key.utf8ByteSize ≤ a.key.utf8ByteSize := by
  obtain ⟨checked, -, haliases, -⟩ := exists_checked h
  have order : ∀ a b : String, AliasTable.longerFirst a b ↔ b.utf8ByteSize ≤ a.utf8ByteSize :=
    fun _ _ => decide_eq_true_iff
  have trans : ∀ a b c : Alias, AliasTable.longerFirst a.key b.key →
      AliasTable.longerFirst b.key c.key → AliasTable.longerFirst a.key c.key := by
    intro a b c hab hbc
    rw [order] at *
    exact Nat.le_trans hbc hab
  have total : ∀ a b : Alias,
      (AliasTable.longerFirst a.key b.key || AliasTable.longerFirst b.key a.key) = true := by
    intro a b
    rw [Bool.or_eq_true, order, order]
    exact Nat.le_total _ _
  rw [haliases]
  exact (List.pairwise_mergeSort trans total checked).imp fun hab => (order _ _).mp hab

/-- The first alias in the table that matches is a longest one. -/
theorem exists_longestMatch (h : AliasTable.ofMap aliases = .ok table) {path : String}
    (hpath : table.substitute specifier = some path) :
    ∃ a ∈ table.aliases, LongestMatch aliases specifier a.key ∧
      ∃ rest, a.rest? specifier = some rest ∧ a.apply rest = path := by
  obtain ⟨before, a, after, hsplit, hfound, hbefore⟩ := List.findSome?_eq_some_iff.mp hpath
  obtain ⟨rest, hrest, happly⟩ := Option.map_eq_some_iff.mp hfound
  have member : a ∈ table.aliases := hsplit ▸ List.mem_append_right _ List.mem_cons_self
  have known : ∀ b ∈ table.aliases, b.key ∈ aliases := by
    intro b hb
    obtain ⟨target, hget, -⟩ := (mem_aliases_iff h).mp hb
    exact Std.ExtTreeMap.mem_iff_isSome_getElem?.mpr (Option.isSome_of_eq_some hget)
  have matched : Matches a.key specifier :=
    isSome_rest?_iff.mp (Option.isSome_of_eq_some hrest)
  refine ⟨a, member, ⟨known a member, matched, ?_⟩, rest, hrest, happly⟩
  intro other hother hmatches
  obtain ⟨target, hget⟩ : ∃ target, aliases[other]? = some target :=
    ⟨_, Std.ExtTreeMap.getElem?_eq_some_getElem hother⟩
  have listed := mem_aliases_of_get h hget
  rw [hsplit] at listed
  rcases List.mem_append.mp listed with hearlier | hlater
  · -- an alias before the first one that matches does not match
    have unmatched := Option.map_eq_none_iff.mp (hbefore _ hearlier)
    exact absurd hmatches (rest?_eq_none_iff.mp unmatched)
  · rcases List.mem_cons.mp hlater with rfl | hlater
    · exact Nat.le_refl _
    · have sorted := pairwise_aliases h
      rw [hsplit] at sorted
      exact (List.pairwise_cons.mp (List.pairwise_append.mp sorted).2.1).1 _ hlater

/-! ## Maps that make a table -/

/-- In a map that makes a table every alias has a text and every target leads somewhere. -/
theorem valid_of_ofMap (h : AliasTable.ofMap aliases = .ok table)
    (hget : aliases[key]? = some target) :
    key ≠ "" ∧ Path.normalize (trimStartChar '/' target) ≠ "" := by
  obtain ⟨checked, hchecked, -, -⟩ := exists_checked h
  have mem := Std.ExtTreeMap.mem_toList_iff_getElem?_eq_some.mpr hget
  have passed : AliasTable.checkAlias key target ∈ checked.map .ok :=
    hchecked ▸ List.mem_map_of_mem mem
  obtain ⟨a, -, ha⟩ := List.mem_map.mp passed
  obtain ⟨hkey, hnormal, -⟩ := checkAlias_eq_ok_iff.mp ha.symm
  exact ⟨hkey, hnormal⟩

/-- A map fails to make a table just if an alias is empty or a target leads nowhere. -/
theorem exists_error_iff :
    (∃ failure, AliasTable.ofMap aliases = .error failure) ↔
      ∃ key target : String, aliases[key]? = some target ∧
        (key = "" ∨ Path.clean (trimStartChar '/' target) = ".") := by
  constructor
  · rintro ⟨failure, hfailed⟩
    by_contra hnone
    have valid : ∀ key target : String, aliases[key]? = some target →
        key ≠ "" ∧ Path.normalize (trimStartChar '/' target) ≠ "" := by
      intro key target hget
      refine ⟨?_, ?_⟩
      · rintro rfl
        exact hnone ⟨"", target, hget, .inl rfl⟩
      · intro hnormal
        exact hnone ⟨key, target, hget, .inr (Path.normalize_eq_empty_iff.mp hnormal)⟩
    obtain ⟨table, htable⟩ := exists_ofMap valid
    rw [htable] at hfailed
    cases hfailed
  · rintro ⟨key, target, hget, hbad⟩
    cases hmap : AliasTable.ofMap aliases with
    | error failure => exact ⟨failure, rfl⟩
    | ok table =>
      obtain ⟨hkey, hnormal⟩ := valid_of_ofMap hmap hget
      exact absurd (hbad.imp_right Path.normalize_eq_empty_iff.mpr) (not_or.mpr ⟨hkey, hnormal⟩)

/-- Entries with distinct keys make one map in whatever order they come. -/
theorem ofList_perm {entries entries' : List (String × String)} (hperm : entries'.Perm entries)
    (hdistinct : (entries.map Prod.fst).Nodup) :
    (.ofList entries' : AliasMap) = .ofList entries := by
  have apart : ∀ es : List (String × String), (es.map Prod.fst).Nodup →
      es.Pairwise fun a b => ¬ compare a.1 b.1 = .eq := by
    intro es hes
    rw [List.Nodup, List.pairwise_map] at hes
    exact hes.imp fun hne heq => hne (Std.LawfulEqCmp.eq_of_compare heq)
  have hdistinct' : (entries'.map Prod.fst).Nodup :=
    (hperm.map Prod.fst).nodup_iff.mpr hdistinct
  refine Std.ExtTreeMap.ext_getElem? fun key => ?_
  by_cases hkey : key ∈ entries.map Prod.fst
  · obtain ⟨⟨_, target⟩, hmem, rfl⟩ := List.mem_map.mp hkey
    rw [Std.ExtTreeMap.getElem?_ofList_of_mem Std.ReflCmp.compare_self (apart _ hdistinct) hmem,
      Std.ExtTreeMap.getElem?_ofList_of_mem Std.ReflCmp.compare_self (apart _ hdistinct')
        (hperm.mem_iff.mpr hmem)]
  · have hkey' : key ∉ entries'.map Prod.fst := fun h => hkey ((hperm.map _).mem_iff.mp h)
    rw [Std.ExtTreeMap.getElem?_ofList_of_contains_eq_false (by simpa using hkey'),
      Std.ExtTreeMap.getElem?_ofList_of_contains_eq_false (by simpa using hkey)]

/-! ## What is substituted -/

/-- Where some alias matches, the longest one is substituted: what follows it is put behind the
normal form of its target. -/
theorem exists_substituted (h : AliasTable.ofMap aliases = .ok table)
    (haliased : ¬ Unaliased aliases specifier) :
    ∃ key target rest : String, LongestMatch aliases specifier key ∧ aliases[key]? = some target ∧
      Remains key specifier rest ∧ table.substitute specifier =
        some (Path.normalize (continued (Path.normalize (trimStartChar '/' target)) rest)) := by
  cases hpath : table.substitute specifier with
  | none => exact absurd ((substitute_eq_none_iff h).mp hpath) haliased
  | some path =>
    obtain ⟨a, ha, longest, rest, hrest, rfl⟩ := exists_longestMatch h hpath
    obtain ⟨target, hget, htarget⟩ := (mem_aliases_iff h).mp ha
    refine ⟨a.key, target, rest, longest, hget, rest?_eq_some_iff.mp hrest, ?_⟩
    rw [← htarget]
    rfl

/-- Unless the directory holds a backslash, it makes no difference that it is made normal before
something is put behind it. -/
theorem normalize_continued {directory : String} (hplain : '\\' ∉ directory.toList)
    (h : Path.normalize directory ≠ "") (rest : String) :
    Path.normalize (continued (Path.normalize directory) rest) =
      Path.normalize (continued directory rest) := by
  unfold continued
  split
  · exact Path.normalize_normalize hplain h
  · exact Path.normalize_normalize_slash hplain h rest

theorem not_mem_trimStartChar {c d : Char} {s : String} (h : c ∉ s.toList) :
    c ∉ (trimStartChar d s).toList := by
  rw [trimStartChar, String.toList_ofList]
  exact fun hmem => h ((List.dropWhile_sublist _).subset hmem)

/-- **The longest alias.** A map makes a table unless an alias is empty or a target leads nowhere,
and the order of its entries makes no difference. The table substitutes nothing just if no alias
matches. Otherwise one alias is longer than all others that match; what follows it is put behind
the normal form of its target, and the result is made normal. If the target holds no backslash, the
target may be taken as it is. -/
theorem substitute_longest (aliases : AliasMap) :
    ((∃ failure, AliasTable.ofMap aliases = .error failure) ↔
      ∃ key target : String, aliases[key]? = some target ∧
        (key = "" ∨ Path.clean (trimStartChar '/' target) = ".")) ∧
    (∀ entries entries' : List (String × String), entries'.Perm entries →
      (entries.map Prod.fst).Nodup → AliasTable.ofMap (.ofList entries') =
        AliasTable.ofMap (.ofList entries)) ∧
    ∀ table, AliasTable.ofMap aliases = .ok table → ∀ specifier,
      (table.substitute specifier = none ↔ Unaliased aliases specifier) ∧
      (¬ Unaliased aliases specifier → ∃ key target rest : String,
        (LongestMatch aliases specifier key ∧
          ∀ other, LongestMatch aliases specifier other → other = key) ∧
        aliases[key]? = some target ∧
        (Remains key specifier rest ∧ ∀ rest', Remains key specifier rest' → rest' = rest) ∧
        table.substitute specifier =
          some (Path.normalize (continued (Path.normalize (trimStartChar '/' target)) rest)) ∧
        ('\\' ∉ target.toList → table.substitute specifier =
          some (Path.normalize (continued (trimStartChar '/' target) rest)))) := by
  refine ⟨exists_error_iff, fun entries entries' hperm hdistinct => ?order, ?table⟩
  case order => rw [ofList_perm hperm hdistinct]
  case table =>
    intro table htable specifier
    refine ⟨substitute_eq_none_iff htable, fun haliased => ?_⟩
    obtain ⟨key, target, rest, longest, hget, remains, found⟩ := exists_substituted htable haliased
    refine ⟨key, target, rest, ⟨longest, fun _ => longest.unique⟩, hget,
      ⟨remains, fun _ => remains.unique⟩, found, fun hplain => ?_⟩
    rw [found, normalize_continued (not_mem_trimStartChar hplain) (valid_of_ofMap htable hget).2]

/-! ## Layered aliases -/

/-- An alias, a longer one that ends in a slash, and a target that is not clean. -/
def layeredAliases : List (String × String) := [("@", "src"), ("@/ui/", "//lib/./ui/")]

def layeredTable : AliasTable := ⟨[⟨"@/ui/", "lib/ui"⟩, ⟨"@", "src"⟩], ["lib"]⟩

theorem ofMap_layeredAliases : AliasTable.ofMap (.ofList layeredAliases) = .ok layeredTable := by
  cbv

theorem longestMatch_layeredAliases :
    LongestMatch (.ofList layeredAliases) "@/ui/../b" "@/ui/" := by
  refine ⟨by decide, ⟨"../b", by decide, .inl (by decide)⟩, ?_⟩
  intro other hother _
  rw [Std.ExtTreeMap.mem_ofList, List.contains_iff_mem] at hother
  have shorter : ∀ key ∈ layeredAliases.map Prod.fst, key.utf8ByteSize ≤ "@/ui/".utf8ByteSize := by
    decide
  exact shorter other hother

/-- The longer alias is substituted, although it came last. -/
theorem substitute_longest_layered :
    AliasTable.ofMap (.ofList layeredAliases.reverse) = .ok layeredTable ∧
      ∃ rest : String, Remains "@/ui/" "@/ui/../b" rest ∧ layeredTable.substitute "@/ui/../b" =
        some (Path.normalize (continued (trimStartChar '/' "//lib/./ui/") rest)) := by
  have aliased : ¬ Unaliased (.ofList layeredAliases) "@/ui/../b" := fun hnone =>
    hnone _ longestMatch_layeredAliases.mem longestMatch_layeredAliases.matched
  obtain ⟨-, order, substitutes⟩ := substitute_longest (.ofList layeredAliases)
  obtain ⟨-, substituted⟩ := substitutes layeredTable ofMap_layeredAliases "@/ui/../b"
  obtain ⟨key, target, rest, ⟨-, unique⟩, hget, ⟨remains, -⟩, -, plain⟩ := substituted aliased
  obtain rfl := unique _ longestMatch_layeredAliases
  have target_eq : (.ofList layeredAliases : AliasMap)["@/ui/"]? = some "//lib/./ui/" := by
    decide
  obtain rfl : "//lib/./ui/" = target := Option.some.inj (target_eq.symm.trans hget)
  refine ⟨?_, rest, remains, plain (by decide)⟩
  rw [order layeredAliases layeredAliases.reverse layeredAliases.reverse_perm (by decide),
    ofMap_layeredAliases]

end CodeAtlas.Resolution
