import CodeAtlas.Proofs.Path.Normal
import CodeAtlas.Proofs.Resolution.Memory
import CodeAtlas.Proofs.Resolution.Packages
import CodeAtlas.Proofs.Resolution.Record
import Mathlib

/-!
# Names with an extension

A specifier that ends in the extension of a script is resolved without it, so that the name of a
compiled file finds the source it was made of. `Resolver.written?` is the path that the specifier
stands for as it is written. It is the path of the stripped specifier with the extension put back
(`written?_append`), so the file of that very name is among those that are tried, and it is found
unless a file of the same stem that is tried earlier is known (`resolve_written`). Hence an exact
name does not always win (`not_resolve_written`).

The extension can not be put back where stripping changes what the specifier says: where the
specifier or its stem is an alias of its own, and where the stem ends in `.` or `..`.
-/

namespace CodeAtlas.Resolution

open CodeAtlas.Text

variable {aliases : AliasMap} {r : Resolver} {specifier stem base e tail path : String}

/-! ## Extensions -/

/-- An extension is dropped where a name stands in front of it, and not from a name that is nothing
else. -/
theorem dropExtension?_eq_some_iff :
    dropExtension? specifier e = some stem ↔
      specifier = stem ++ "." ++ e ∧ stem ≠ "" ∧ ¬ endsWith '/' stem := by
  have dropped : ∀ front, dropSuffix? e specifier = some front →
      ∀ s, dropSuffix? "." front = some s →
      dropExtension? specifier e = if s = "" || endsWith '/' s then none else some s := by
    intro front hfront s hs
    simp [dropExtension?, hfront, hs]
  constructor
  · intro h
    obtain ⟨front, hfront, h'⟩ := Option.bind_eq_some_iff.mp h
    obtain ⟨s, hs, -⟩ := Option.bind_eq_some_iff.mp h'
    rw [dropped front hfront s hs] at h
    by_cases hnone : s = "" ∨ endsWith '/' s
    · simp [hnone] at h
    · simp only [Bool.or_eq_true, decide_eq_true_iff, if_neg hnone, Option.some.injEq] at h
      obtain rfl := h
      rw [dropSuffix?_eq_some_iff] at hfront hs
      rw [not_or] at hnone
      exact ⟨by rw [hfront, hs], hnone⟩
  · rintro ⟨rfl, hempty, hslash⟩
    have hfront := dropSuffix?_eq_some_iff.mpr (rfl : stem ++ "." ++ e = stem ++ "." ++ e)
    have hs := dropSuffix?_eq_some_iff.mpr (rfl : stem ++ "." = stem ++ ".")
    rw [dropped _ hfront _ hs]
    simp [hempty, hslash]

theorem plain_of_mem_sourceExtensions : ∀ e ∈ sourceExtensions, '.' ∉ e.toList := by decide

theorem isTail_of_mem_sourceExtensions (he : e ∈ sourceExtensions) : Path.IsTail ("." ++ e) := by
  have each : ∀ e ∈ sourceExtensions, '/' ∉ ("." ++ e).toList ∧ '\\' ∉ ("." ++ e).toList ∧
      ("." ++ e).toList.getLast? ≠ some '.' ∧ ("." ++ e).toList.getLast?.isSome := by decide
  obtain ⟨whole, plain, hlast, hsome⟩ := each e he
  obtain ⟨c, hc⟩ := Option.isSome_iff_exists.mp hsome
  refine ⟨whole, plain, c, hc, ?_⟩
  rintro rfl
  exact hlast hc

theorem extension_inj {stem' e' : String} (he : '.' ∉ e.toList) (he' : '.' ∉ e'.toList)
    (h : stem ++ "." ++ e = stem' ++ "." ++ e') : stem = stem' ∧ e = e' := by
  have chars : stem.toList ++ '.' :: e.toList = stem'.toList ++ '.' :: e'.toList := by
    simpa using congrArg String.toList h
  obtain ⟨hstem, hext⟩ := append_cons_inj_last he he' chars
  exact ⟨String.toList_inj.mp hstem, String.toList_inj.mp hext⟩

/-- The extension of a script is stripped from whatever ends in it after a name. -/
theorem stripSourceExtension_append (he : e ∈ sourceExtensions) (hempty : stem ≠ "")
    (hslash : ¬ endsWith '/' stem) : stripSourceExtension (stem ++ "." ++ e) = stem := by
  have only : ∀ e' ∈ sourceExtensions, ∀ s, dropExtension? (stem ++ "." ++ e) e' = some s →
      s = stem := by
    intro e' he' s hs
    obtain ⟨heq, -⟩ := dropExtension?_eq_some_iff.mp hs
    exact (extension_inj (plain_of_mem_sourceExtensions e he) (plain_of_mem_sourceExtensions e' he')
      heq).1.symm
  have found : dropExtension? (stem ++ "." ++ e) e = some stem :=
    dropExtension?_eq_some_iff.mpr ⟨rfl, hempty, hslash⟩
  unfold stripSourceExtension
  cases hfirst : sourceExtensions.findSome? (dropExtension? (stem ++ "." ++ e)) with
  | none =>
    rw [List.findSome?_eq_none_iff.mp hfirst e he] at found
    cases found
  | some s =>
    obtain ⟨e', he', hs⟩ := List.exists_of_findSome?_eq_some hfirst
    exact only e' he' s hs

/-- A specifier is left alone just if it ends in no extension of a script. -/
theorem stripSourceExtension_eq_self_iff :
    stripSourceExtension specifier = specifier ↔
      ∀ e ∈ sourceExtensions, dropExtension? specifier e = none := by
  unfold stripSourceExtension
  rw [← List.findSome?_eq_none_iff]
  cases hfirst : sourceExtensions.findSome? (dropExtension? specifier) with
  | none => exact iff_of_true rfl rfl
  | some s =>
    refine iff_of_false (fun heq => ?_) nofun
    obtain ⟨e, -, hs⟩ := List.exists_of_findSome?_eq_some hfirst
    have size := congrArg String.length (dropExtension?_eq_some_iff.mp hs).1
    have same : s.length = specifier.length := congrArg String.length heq
    have one : ".".length = 1 := by decide
    rw [String.length_append, String.length_append] at size
    omega

/-- Only the end of a specifier decides whether it has an extension. -/
theorem stripSourceExtension_slash {front : String}
    (h : stripSourceExtension specifier = specifier) :
    stripSourceExtension (front ++ "/" ++ specifier) = front ++ "/" ++ specifier := by
  rw [stripSourceExtension_eq_self_iff] at h ⊢
  intro e he
  rw [Option.eq_none_iff_forall_ne_some]
  intro stem hstem
  obtain ⟨heq, -, hslash⟩ := dropExtension?_eq_some_iff.mp hstem
  have split : stem ++ ("." ++ e) = front ++ "/" ++ specifier := by
    rw [← String.append_assoc, ← heq]
  obtain ⟨rest, rfl⟩ := exists_eq_append_slash split (isTail_of_mem_sourceExtensions he).whole
  have inner : specifier = rest ++ "." ++ e := by
    rw [String.append_assoc, String.append_right_inj] at split
    rw [← split, String.append_assoc]
  have nonempty : rest ≠ "" := by
    rintro rfl
    rw [String.append_empty, endsWith_append (by decide)] at hslash
    exact hslash (by decide)
  rw [endsWith_append nonempty] at hslash
  have found : dropExtension? specifier e = some rest :=
    dropExtension?_eq_some_iff.mpr ⟨inner, nonempty, hslash⟩
  rw [h e he] at found
  cases found

/-! ## The path as it is written -/

/-- The path that a specifier stands for as it is written, its extension included. -/
def Resolver.written? (r : Resolver) (importer specifier : String) : Option String :=
  match r.aliases.substitute specifier with
  | some path => some path
  | none => if Path.isRelative specifier then some (Path.joinRelative importer specifier) else none

/-- Without an extension, a specifier stands for the path that it is resolved to. -/
theorem written?_of_target {importer : String} (h : r.target importer specifier = .candidate path) :
    r.written? importer (stripSourceExtension specifier) = some path := by
  unfold Resolver.target at h
  unfold Resolver.written?
  dsimp only at h
  cases hsubstitute : r.aliases.substitute (stripSourceExtension specifier) with
  | some substituted =>
    rw [hsubstitute] at h
    cases h
    rfl
  | none =>
    rw [hsubstitute] at h
    dsimp only at h ⊢
    split at h
    · rename_i hrelative
      rw [if_pos hrelative]
      split at h
      · cases h
      · cases h
        rfl
    · cases h

/-- What follows an alias follows it at once if the alias ends in a slash, and after a slash
otherwise; only then may it be nothing. -/
theorem rest?_eq_some_iff {a : Alias} {rest : String} :
    a.rest? specifier = some rest ↔
      specifier = a.key ++ rest ∧ (endsWith '/' a.key ∨ rest = "") ∨
        specifier = a.key ++ "/" ++ rest ∧ ¬ endsWith '/' a.key := by
  unfold Alias.rest?
  constructor
  · intro h
    obtain ⟨after, hafter, h⟩ := Option.bind_eq_some_iff.mp h
    rw [dropPrefix?_eq_some_iff] at hafter
    by_cases hwhole : endsWith '/' a.key ∨ after = ""
    · simp only [Bool.or_eq_true, decide_eq_true_iff, if_pos hwhole] at h
      cases h
      exact .inl ⟨hafter, hwhole⟩
    · simp only [Bool.or_eq_true, decide_eq_true_iff, if_neg hwhole] at h
      rw [dropPrefix?_eq_some_iff] at h
      refine .inr ⟨?_, fun hend => hwhole (.inl hend)⟩
      rw [hafter, h, String.append_assoc]
  · rintro (⟨heq, hwhole⟩ | ⟨heq, hend⟩)
    · have after := dropPrefix?_eq_some_iff.mpr heq
      simp [after, hwhole]
    · have after := dropPrefix?_eq_some_iff.mpr (heq.trans String.append_assoc)
      have slash : dropPrefix? "/" ("/" ++ rest) = some rest := dropPrefix?_eq_some_iff.mpr rfl
      have nonempty : "/" ++ rest ≠ "" := by simp
      simp [after, hend, nonempty, slash]

/-- An alias that is not the whole specifier is followed by a path below its target. -/
theorem exists_slash_of_rest? {a : Alias} {rest : String} (hkey : a.key ≠ specifier)
    (h : a.rest? specifier = some rest) : ∃ front, specifier = front ++ "/" ++ rest := by
  rcases rest?_eq_some_iff.mp h with ⟨rfl, hend | rfl⟩ | ⟨rfl, -⟩
  · obtain ⟨front, hfront⟩ := exists_eq_append_of_endsWith hend
    exact ⟨front, by rw [hfront]⟩
  · exact absurd String.append_empty.symm hkey
  · exact ⟨a.key, rfl⟩

/-- A tail without slashes comes after the alias, unless the alias is the whole specifier. -/
theorem rest?_append {a : Alias} (htail : '/' ∉ tail.toList) (hstem : a.key ≠ stem)
    (hwhole : a.key ≠ stem ++ tail) : a.rest? (stem ++ tail) = (a.rest? stem).map (· ++ tail) := by
  ext rest
  rw [Option.map_eq_some_iff]
  constructor
  · intro h
    rcases rest?_eq_some_iff.mp h with ⟨heq, hend | rfl⟩ | ⟨heq, hend⟩
    · obtain ⟨front, hfront⟩ := exists_eq_append_of_endsWith hend
      rw [hfront] at heq
      obtain ⟨before, hbefore⟩ := exists_eq_append_slash heq htail
      refine ⟨before, rest?_eq_some_iff.mpr (.inl ⟨by rw [hbefore, hfront], .inl hend⟩), ?_⟩
      rw [hbefore, String.append_assoc] at heq
      exact (String.append_right_inj _).mp heq
    · exact absurd (heq.trans String.append_empty).symm hwhole
    · obtain ⟨before, hbefore⟩ := exists_eq_append_slash heq htail
      refine ⟨before, rest?_eq_some_iff.mpr (.inr ⟨hbefore, hend⟩), ?_⟩
      rw [hbefore, String.append_assoc] at heq
      exact (String.append_right_inj _).mp heq
  · rintro ⟨before, hbefore, rfl⟩
    rcases rest?_eq_some_iff.mp hbefore with ⟨heq, hend | rfl⟩ | ⟨heq, hend⟩
    · exact rest?_eq_some_iff.mpr (.inl ⟨by rw [heq, String.append_assoc], .inl hend⟩)
    · exact absurd (heq.trans String.append_empty).symm hstem
    · exact rest?_eq_some_iff.mpr (.inr ⟨by rw [heq, String.append_assoc], hend⟩)

theorem apply_append {a : Alias} {rest : String} (hrest : Path.EndsInName rest)
    (htail : Path.IsTail tail) : a.apply (rest ++ tail) = a.apply rest ++ tail := by
  have longer : rest ++ tail ≠ "" := by
    rw [ne_eq, String.append_eq_empty_iff, not_and]
    exact fun hempty => absurd hempty hrest.ne_empty
  unfold Alias.apply
  rw [if_neg longer, if_neg hrest.ne_empty, ← String.append_assoc]
  exact (Path.endsInName_slash_iff.mpr hrest).normalize_append htail

theorem findSome?_eq_map {α β γ : Type} {f : α → Option γ} {g : α → Option β} {h : β → γ}
    {as : List α} (hf : ∀ a ∈ as, f a = (g a).map h) :
    as.findSome? f = (as.findSome? g).map h := by
  rw [List.map_findSome?]
  induction as with
  | nil => rfl
  | cons a as ih =>
    obtain ⟨first, rest⟩ := List.forall_mem_cons.mp hf
    rw [List.findSome?_cons, List.findSome?_cons, first, ih rest]
    rfl

/-- A tail may be put behind a specifier before or after its alias is substituted, if neither of the
two is an alias itself. -/
theorem substitute_append (haliases : AliasTable.ofMap aliases = .ok r.aliases)
    (hname : Path.EndsInName stem) (htail : Path.IsTail tail) (hstem : stem ∉ aliases)
    (hwhole : stem ++ tail ∉ aliases) :
    r.aliases.substitute (stem ++ tail) = (r.aliases.substitute stem).map (· ++ tail) := by
  refine findSome?_eq_map fun a ha => ?_
  obtain ⟨target, hget, -⟩ := (mem_aliases_iff haliases).mp ha
  have hkey : a.key ∈ aliases :=
    Std.ExtTreeMap.mem_iff_isSome_getElem?.mpr (Option.isSome_of_eq_some hget)
  have apart : ∀ s, s ∉ aliases → a.key ≠ s := by
    rintro s hs rfl
    exact hs hkey
  rw [rest?_append htail.whole (apart stem hstem) (apart _ hwhole)]
  cases hrest : a.rest? stem with
  | none => rw [Option.map_none, Option.map_none, Option.map_none]
  | some rest =>
    obtain ⟨front, hfront⟩ := exists_slash_of_rest? (apart stem hstem) hrest
    rw [hfront] at hname
    have name : Path.EndsInName rest := Path.endsInName_slash_iff.mp hname
    simp only [Option.map_some, apply_append name htail]

/-- The path of a specifier with an extension is the path of its stem with the extension. -/
theorem written?_append (haliases : AliasTable.ofMap aliases = .ok r.aliases)
    (hname : Path.EndsInName stem) (htail : Path.IsTail tail) (hstem : stem ∉ aliases)
    (hwhole : stem ++ tail ∉ aliases) (importer : String) :
    r.written? importer (stem ++ tail) = (r.written? importer stem).map (· ++ tail) := by
  have relative : Path.isRelative (stem ++ tail) = Path.isRelative stem :=
    beginsWith_append hname.ne_empty
  unfold Resolver.written?
  rw [substitute_append haliases hname htail hstem hwhole, relative]
  cases r.aliases.substitute stem with
  | some path => rfl
  | none =>
    rw [Option.map_none]
    dsimp only
    split
    · rw [hname.joinRelative_append htail, Option.map_some]
    · rfl

/-- The stem is an alias of its own, and leads elsewhere. -/
example :
    let table : AliasTable := ⟨[⟨"@/a", "q"⟩, ⟨"@", "p"⟩], []⟩
    table.substitute "@/a.ts" = some "p/a.ts" ∧ table.substitute "@/a" = some "q" := by
  decide

/-- The stem ends in a point, and leads to the directory. -/
example : stripSourceExtension "./..ts" = "./." ∧
    Path.joinRelative "src/x.ts" "./..ts" = "src/..ts" ∧
    Path.joinRelative "src/x.ts" "./." = "src" := by
  decide

/-! ## The file that is found -/

/-- The files that are tried before `base ++ "." ++ e`. -/
def rivals (base e : String) : List String :=
  base :: (sourceExtensions.takeWhile (· != e)).map fun e' => base ++ "." ++ e'

/-- The exact name is none of its own rivals. -/
theorem not_mem_rivals (he : e ∈ sourceExtensions) : base ++ "." ++ e ∉ rivals base e := by
  unfold rivals
  rw [List.mem_cons, not_or]
  constructor
  · intro h
    have size := congrArg String.length h
    have one : ".".length = 1 := by decide
    rw [String.length_append, String.length_append] at size
    omega
  · intro h
    obtain ⟨e', he', heq⟩ := List.mem_map.mp h
    have differs : e' ≠ e := by simpa using List.mem_takeWhile_imp he'
    have source : e' ∈ sourceExtensions := (List.takeWhile_sublist _).subset he'
    exact differs (extension_inj (plain_of_mem_sourceExtensions e' source)
      (plain_of_mem_sourceExtensions e he) heq).2

theorem probe_of_mem {known : TextSet} (hempty : base ≠ "") (h : base ∈ known) :
    probe known base = some base := by
  have hcontains : known.contains base := Std.ExtTreeSet.contains_iff_mem.mpr h
  unfold probe candidates variants
  rw [if_neg hempty, List.append_assoc, List.singleton_append,
    List.find?_cons_of_pos hcontains]

/-- Up to a script of the path, its rivals are tried; that the empty path is none of them makes no
difference if it is not known. -/
theorem exists_candidates_eq (base : String) (he : e ∈ sourceExtensions) :
    ∃ later, candidates base = (if base = "" then [] else [base]) ++
      ((rivals base e).tail ++ [base ++ "." ++ e]) ++ later := by
  have order : ∀ e ∈ sourceExtensions, sourceExtensions =
      sourceExtensions.takeWhile (· != e) ++ e :: (sourceExtensions.dropWhile (· != e)).tail := by
    decide
  have scripts : ∃ later, sourceExtensions.map (fun e' => base ++ "." ++ e') =
      (rivals base e).tail ++ (base ++ "." ++ e) :: later := by
    refine ⟨(sourceExtensions.dropWhile (· != e)).tail.map fun e' => base ++ "." ++ e', ?_⟩
    conv_lhs => rw [order e he]
    rw [List.map_append, List.map_cons]
    rfl
  obtain ⟨later, hlater⟩ := scripts
  refine ⟨later ++ variants (indexOf base), ?_⟩
  rw [candidates, variants, hlater]
  simp only [List.append_assoc, List.cons_append, List.nil_append]

/-- If one of the scripts of a path is known, it is found for the path or one of its rivals is,
whichever is tried first. -/
theorem exists_probe {known : TextSet} (hknown : "" ∉ known) (he : e ∈ sourceExtensions)
    (h : base ++ "." ++ e ∈ known) :
    ∃ file, probe known base = some file ∧
      (rivals base e ++ [base ++ "." ++ e]).find? known.contains = some file := by
  have contains : ∀ path, known.contains path ↔ path ∈ known := fun _ =>
    Std.ExtTreeSet.contains_iff_mem
  obtain ⟨file, hfile⟩ : ∃ file,
      (rivals base e ++ [base ++ "." ++ e]).find? known.contains = some file := by
    rw [← Option.isSome_iff_exists, List.find?_isSome]
    exact ⟨_, List.mem_append_right _ List.mem_cons_self, (contains _).mpr h⟩
  refine ⟨file, ?_, hfile⟩
  obtain ⟨later, hlater⟩ := exists_candidates_eq base he
  have split : rivals base e ++ [base ++ "." ++ e] =
      base :: ((rivals base e).tail ++ [base ++ "." ++ e]) := rfl
  rw [probe, hlater, List.find?_append]
  by_cases hbase : base = ""
  · have unknown : ¬ known.contains base := by
      rw [contains, hbase]
      exact hknown
    rw [split, List.find?_cons_of_neg unknown] at hfile
    rw [if_pos hbase, List.nil_append, hfile, Option.some_or]
  · rw [if_neg hbase, List.singleton_append, ← split, hfile, Option.some_or]

theorem find?_eq_iff_of_not_mem {α : Type} {p : α → Bool} {as : List α} {a b : α}
    (h : (as ++ [a]).find? p = some b) (ha : a ∉ as) : b = a ↔ ∀ c ∈ as, ¬ p c := by
  rw [List.find?_append] at h
  cases hfirst : as.find? p with
  | none =>
    rw [hfirst, Option.none_or] at h
    have last : b = a := List.mem_singleton.mp (List.mem_of_find?_eq_some h)
    exact iff_of_true last (List.find?_eq_none.mp hfirst)
  | some c =>
    rw [hfirst, Option.some_or, Option.some.injEq] at h
    obtain rfl := h
    have member : c ∈ as := List.mem_of_find?_eq_some hfirst
    refine iff_of_false (fun heq => ha (heq ▸ member)) fun none => ?_
    exact none c member (List.find?_some hfirst)

/-- **Exact names and their rivals.** Whatever was asked before, let the path of a specifier as it
is written be known, and let the specifier be neither external nor refused. If it has no extension,
the file of that path is found. If it has one, the first known file among the rivals and the exact
one is found, so the exact one just if no rival is known. -/
theorem resolve_written (haliases : AliasTable.ofMap aliases = .ok r.aliases)
    (hknown : "" ∉ r.known) {importer exact : String} (asked : List Question)
    (htarget : r.target importer specifier = .candidate path)
    (hwritten : r.written? importer specifier = some exact) (hexact : exact ∈ r.known) :
    (stripSourceExtension specifier = specifier →
      ((r.resolve importer specifier).run (r.after ∅ asked)).1 = some exact) ∧
    ∀ stem, ∀ e ∈ sourceExtensions, specifier = stem ++ "." ++ e → Path.EndsInName stem →
      stem ∉ aliases → specifier ∉ aliases →
      ∃ base file, exact = base ++ "." ++ e ∧
        ((r.resolve importer specifier).run (r.after ∅ asked)).1 = some file ∧
        (rivals base e ++ [exact]).find? r.known.contains = some file ∧
        (file = exact ↔ ∀ rival ∈ rivals base e, rival ∉ r.known) := by
  have faithful : (r.after ∅ asked).Faithful r := (Memory.faithful_new []).after asked
  have stripped := written?_of_target htarget
  rw [(faithful.resolve importer specifier).1, Resolver.answer, htarget]
  dsimp only
  refine ⟨?plain, ?extended⟩
  case plain =>
    intro hstrip
    rw [hstrip, hwritten, Option.some.injEq] at stripped
    obtain rfl := stripped
    refine probe_of_mem ?_ hexact
    rintro rfl
    exact hknown hexact
  case extended =>
    rintro stem e he rfl hname hstem hwhole
    have hslash : ¬ endsWith '/' stem := hname.not_endsWith_slash
    rw [stripSourceExtension_append he hname.ne_empty hslash] at stripped
    rw [String.append_assoc] at hwritten hwhole
    rw [written?_append haliases hname (isTail_of_mem_sourceExtensions he) hstem hwhole, stripped,
      Option.map_some, Option.some.injEq, ← String.append_assoc] at hwritten
    subst hwritten
    obtain ⟨file, hprobe, hfile⟩ := exists_probe hknown he hexact
    refine ⟨path, file, rfl, hprobe, hfile, ?_⟩
    rw [find?_eq_iff_of_not_mem hfile (not_mem_rivals he)]
    simp only [Std.ExtTreeSet.contains_iff_mem]

/-! ## A compiled file beside its source -/

/-- One package with the alias `@app`. -/
def appAliases : AliasMap := .ofList [("@app", "src")]

def appTable : AliasTable := ⟨[⟨"@app", "src"⟩], []⟩

/-- The compiled file `src/utils.js` beside the source `src/utils.tsx`. -/
def compiledFiles : List String := ["src/index.ts", "src/utils.tsx", "src/utils.js"]

def compiledResolver : Resolver := ⟨.ofList compiledFiles, appTable⟩

theorem ofMap_appAliases : AliasTable.ofMap appAliases = .ok appTable := by cbv

theorem endsInName_utils : Path.EndsInName "@app/utils" :=
  ⟨"utils", by decide, by decide⟩

theorem target_compiledResolver :
    compiledResolver.target "src/index.ts" "@app/utils.js" = .candidate "src/utils" := by
  decide

/-- The specifier names the compiled file, and its source is found. -/
theorem resolve_written_compiled :
    ∃ base file, "src/utils.js" = base ++ "." ++ "js" ∧
      ((compiledResolver.resolve "src/index.ts" "@app/utils.js").run
        (compiledResolver.after ∅ [])).1 = some file ∧
      (rivals base "js" ++ ["src/utils.js"]).find? compiledResolver.known.contains = some file ∧
      (file = "src/utils.js" ↔ ∀ rival ∈ rivals base "js", rival ∉ compiledResolver.known) :=
  (resolve_written ofMap_appAliases (by decide) [] target_compiledResolver
    (by decide) (by decide)).2
    "@app/utils" "js" (by decide) (by decide) endsInName_utils (by decide)
    (by decide)

/-- A file does not always answer to its own name: its source is found in its place. -/
theorem not_resolve_written :
    ¬ ∀ (known : List String) (aliases : AliasMap) (r : Resolver),
      Resolver.new known aliases = .ok r →
      (∀ path ∈ known, Path.clean path = path ∧ Path.isAbsolute path = false) →
      ∀ importer specifier path exact : String,
      r.target importer specifier = .candidate path →
      r.written? importer specifier = some exact → exact ∈ r.known →
      ((r.resolve importer specifier).run ∅).1 = some exact := by
  intro exactNameWins
  have wins := exactNameWins compiledFiles appAliases compiledResolver
    (new_of_ofMap ofMap_appAliases _) (by decide) "src/index.ts" "./utils.js" "src/utils"
    "src/utils.js" (by decide) (by decide) (by decide)
  have found : ((compiledResolver.resolve "src/index.ts" "./utils.js").run ∅).1 =
      some "src/utils.tsx" := by decide
  rw [found] at wins
  exact absurd wins (by decide)

end CodeAtlas.Resolution
