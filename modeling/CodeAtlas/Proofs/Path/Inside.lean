import CodeAtlas.Proofs.Path.Normal

/-!
# Paths inside a directory

An inner path is made of names alone. It is clean, and normal unless it holds a backslash
(`IsInner.normalize_eq`); without names in between, a second slash makes no difference
(`clean_slash_slash`).

Paths of the file system are joined by putting their segments one after the other
(`segments_join`). So a directory and an inner path make a path whose relative path is the inner
one (`relativeTo?_join`), and any relative path that is found for an absolute path is inner unless
it is empty (`isInner_of_relativeTo?`).
-/

namespace CodeAtlas.Text

variable {c : Char} {s : String}

theorem trimStartChar_of_not_beginsWith (h : ¬ beginsWith c s) : trimStartChar c s = s := by
  have kept : s.toList.dropWhile (· = c) = s.toList := by
    cases hs : s.toList with
    | nil => rfl
    | cons d r =>
      have apart : d ≠ c := by
        rintro rfl
        exact h (by rw [beginsWith, hs]; simp)
      rw [List.dropWhile_cons_of_neg (by simpa using apart)]
  rw [trimStartChar, kept, String.ofList_toList]

end CodeAtlas.Text

namespace CodeAtlas.Path

open CodeAtlas.Text

variable {path base root inside a b name : String}

/-! ## Inner paths -/

theorem IsName.isInner (h : IsName name) : IsInner name :=
  ⟨[name], List.cons_ne_nil _ _, fun _ hn => List.mem_singleton.mp hn ▸ h,
    String.intercalate_singleton.symm⟩

/-- An inner path is put together from its segments, and all of them are names. -/
theorem IsInner.exists_names (h : IsInner path) :
    segments path ≠ [] ∧ (∀ n ∈ segments path, IsName n) ∧
      path = "/".intercalate (segments path) := by
  obtain ⟨names, hnames, hname, rfl⟩ := h
  rw [segments_intercalate fun n hn => (hname n hn).toIsSegment]
  exact ⟨hnames, hname, rfl⟩

theorem IsInner.not_isAbsolute (h : IsInner path) : ¬ isAbsolute path := by
  obtain ⟨names, -, hname, rfl⟩ := h
  exact not_isAbsolute_intercalate fun n hn => (hname n hn).toIsSegment

theorem IsInner.ne_empty (h : IsInner path) : path ≠ "" := by
  rintro rfl
  exact h.exists_names.1 rfl

/-- An inner path is clean, since names stay on the stack in their order. -/
theorem IsInner.clean_eq (h : IsInner path) : clean path = path := by
  obtain ⟨names, hnames, hname, rfl⟩ := h
  have form : ofSegments false names = "/".intercalate names := by
    unfold ofSegments
    rw [if_neg Bool.false_ne_true, List.isEmpty_eq_false_iff.mpr hnames]
    rfl
  rw [← form, clean_ofSegments hname]

theorem IsInner.ne_dot (h : IsInner path) : path ≠ "." := by
  rintro rfl
  exact h.exists_names.1 rfl

theorem IsInner.normalize_eq_replaceChar (h : IsInner path) :
    normalize path = replaceChar '\\' '/' path := by
  have clean_ne : clean path ≠ "." := h.clean_eq.symm ▸ h.ne_dot
  rw [normalize_of_clean_ne_dot clean_ne, h.clean_eq]

theorem IsInner.normalize_ne_empty (h : IsInner path) : normalize path ≠ "" := by
  rw [h.normalize_eq_replaceChar, replaceChar]
  intro hempty
  have none := congrArg String.toList hempty
  rw [String.toList_ofList, String.toList_empty, List.map_eq_nil_iff,
    String.toList_eq_nil_iff] at none
  exact h.ne_empty none

theorem IsInner.normalize_eq (h : IsInner path) (hplain : '\\' ∉ path.toList) :
    normalize path = path := by
  rw [h.normalize_eq_replaceChar, replaceChar_of_not_mem hplain]

theorem IsInner.slash (ha : IsInner a) (hb : IsInner b) : IsInner (a ++ "/" ++ b) := by
  obtain ⟨names, hnames, hname, rfl⟩ := ha
  obtain ⟨more, hmore, hmoreName, rfl⟩ := hb
  refine ⟨names ++ more, List.append_ne_nil_of_left_ne_nil hnames more, ?_, ?_⟩
  · intro n hn
    exact (List.mem_append.mp hn).elim (hname n) (hmoreName n)
  · rw [String.intercalate_append_of_ne_nil hnames hmore]

theorem clean_slash_slash (ha : a ≠ "") :
    clean (a ++ "/" ++ ("/" ++ b)) = clean (a ++ "/" ++ b) := by
  have root : "/" ++ b = "" ++ "/" ++ b := by rw [String.empty_append]
  have same : segments (a ++ "/" ++ ("/" ++ b)) = segments (a ++ "/" ++ b) := by
    rw [segments_slash, segments_slash, root, segments_slash]
    rfl
  have begins : isAbsolute (a ++ "/" ++ ("/" ++ b)) = isAbsolute (a ++ "/" ++ b) := by
    rw [String.append_assoc, String.append_assoc, isAbsolute_append ha, isAbsolute_append ha]
  rw [clean, clean, same, begins]

/-! ## Joined paths -/

/-- Joining a directory and a relative path puts their segments one after the other, whether or not
the directory ends in a slash. -/
theorem segments_join (h : ¬ isAbsolute path) :
    segments (join base path) = segments base ++ segments path := by
  unfold join
  rw [if_neg h]
  by_cases hempty : base = ""
  · rw [if_pos hempty, hempty]
    rfl
  · rw [if_neg hempty]
    by_cases hend : endsWith '/' base
    · obtain ⟨front, rfl⟩ := exists_eq_append_of_endsWith hend
      have directory : segments (front ++ "/") = segments front := by
        have whole : front ++ "/" = front ++ "/" ++ "" := String.append_empty.symm
        rw [whole, segments_slash]
        exact List.append_nil _
      rw [if_pos hend, segments_slash, directory]
    · rw [if_neg hend, segments_slash]

theorem isAbsolute_join (h : isAbsolute base) : isAbsolute (join base path) := by
  have nonempty : base ≠ "" := by
    rintro rfl
    exact absurd h (by decide)
  unfold join
  by_cases hpath : isAbsolute path
  · rw [if_pos hpath]
    exact hpath
  · rw [if_neg hpath, if_neg nonempty]
    split
    · rw [isAbsolute_append nonempty]
      exact h
    · rw [String.append_assoc, isAbsolute_append nonempty]
      exact h

theorem isAbsolute_parent : isAbsolute (parent path) = isAbsolute path :=
  isAbsolute_ofSegments fun _ hs => isSegment_of_mem_segments (List.dropLast_subset _ hs)

theorem parent_join (habs : isAbsolute root) (hclean : clean root = root) (hname : IsName name) :
    parent (join root name) = root := by
  have below : segments (join root name) = segments root ++ [name] := by
    rw [segments_join hname.toIsSegment.not_isAbsolute, hname.toIsSegment.segments_eq]
  rw [parent, isAbsolute_join habs, below, List.dropLast_concat]
  exact ofSegments_segments habs hclean

/-! ## Relative paths -/

theorem components_of_isAbsolute (h : isAbsolute path) :
    components path = "/" :: segments path := by
  rw [components]
  exact if_pos h

theorem dropComponents?_eq_some_iff {start list rest : List String} :
    dropComponents? start list = some rest ↔ list = start ++ rest := by
  fun_induction dropComponents? start list with
  | case1 list => rw [List.nil_append, Option.some.injEq]
  | case2 c cs => simp
  | case3 cs d ds ih => rw [ih, List.cons_append, List.cons.injEq, eq_self, true_and]
  | case4 c cs d ds hne => simp [Ne.symm hne]

theorem relativeTo?_self (root : String) : relativeTo? root root = some "" := by
  rw [relativeTo?, dropComponents?_eq_some_iff.mpr (List.append_nil _).symm]
  rfl

/-- A path below a directory is seen from there as the inner path that was joined to it. -/
theorem relativeTo?_join (habs : isAbsolute root) (h : IsInner inside) :
    relativeTo? root (join root inside) = some inside := by
  have below : components (join root inside) = components root ++ segments inside := by
    rw [components_of_isAbsolute (isAbsolute_join habs), components_of_isAbsolute habs,
      segments_join h.not_isAbsolute]
    rfl
  rw [relativeTo?, dropComponents?_eq_some_iff.mpr below, Option.map_some, ← h.exists_names.2.2]

/-- What is found as a relative path for a clean absolute one leads inside: no `..` is left at the
root. -/
theorem isInner_of_relativeTo? (hroot : isAbsolute root) (habs : isAbsolute path)
    (h : relativeTo? root (clean path) = some inside) (hne : inside ≠ "") : IsInner inside := by
  obtain ⟨names, hnames, rfl⟩ := Option.map_eq_some_iff.mp h
  rw [dropComponents?_eq_some_iff, components_of_isAbsolute hroot,
    components_of_isAbsolute (isAbsolute_clean.trans habs), List.cons_append,
    List.cons.injEq] at hnames
  refine ⟨names, ?_, ?_, rfl⟩
  · rintro rfl
    exact hne rfl
  · intro n hn
    have segment : n ∈ segments (clean path) := hnames.2 ▸ List.mem_append_right _ hn
    exact isName_of_mem_segments_clean habs segment

end CodeAtlas.Path
