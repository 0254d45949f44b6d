import CodeAtlas.Proofs.Path.Segments

/-!
# Normal paths

What the form of a path inside a project does to its last name. A text such as an extension can be
appended before or after a path is made normal, if the path ends in a name (`normalize_append`). A
path that ends in `.` or `..` leads to a directory, and nothing can be appended to its last segment.
-/

namespace CodeAtlas.Text

variable {c d : Char} {s : String}

theorem replaceChar_append (c d : Char) (a b : String) :
    replaceChar c d (a ++ b) = replaceChar c d a ++ replaceChar c d b := by
  simp [replaceChar]

theorem replaceChar_of_not_mem (h : c ∉ s.toList) : replaceChar c d s = s := by
  have same : ∀ x ∈ s.toList, (if x = c then d else x) = x := by
    intro x hx
    rw [if_neg]
    rintro rfl
    exact h hx
  rw [replaceChar, List.map_congr_left same, List.map_id', String.ofList_toList]

/-- Slashes in place of backslashes make no point. -/
theorem eq_dot_of_replaceChar (h : replaceChar '\\' '/' s = ".") : s = "." := by
  have chars : s.toList.map (fun x => if x = '\\' then '/' else x) = ['.'] := by
    have := congrArg String.toList h
    rwa [replaceChar, String.toList_ofList] at this
  obtain ⟨x, hs, hx⟩ := List.map_eq_singleton_iff.mp chars
  split at hx
  · exact absurd hx (by decide)
  · rw [← String.toList_inj, hs, hx]
    rfl

theorem exists_eq_append_of_endsWith (h : endsWith '/' s) : ∃ front, s = front ++ "/" := by
  rw [endsWith, beq_iff_eq, List.getLast?_eq_some_iff] at h
  obtain ⟨front, hfront⟩ := h
  refine ⟨String.ofList front, ?_⟩
  rw [← String.toList_inj, hfront, String.toList_append, String.toList_ofList]
  rfl

/-- What is appended without a separator becomes part of the last piece. -/
theorem piecesChars_append_of_not_mem {a b last : List Char} {front : List (List Char)} (hb : c ∉ b)
    (h : piecesChars c a = front ++ [last]) : piecesChars c (a ++ b) = front ++ [last ++ b] := by
  induction a generalizing front last with
  | nil =>
    have whole : [] ++ [[]] = front ++ [last] := h
    obtain ⟨rfl, hlast⟩ := List.append_inj' whole rfl
    obtain rfl := (List.cons.inj hlast).1
    exact piecesChars_of_not_mem hb
  | cons x r ih =>
    obtain ⟨p, ps, hp⟩ := List.exists_cons_of_ne_nil (piecesChars_ne_nil (c := c) r)
    by_cases hx : x = c
    · rw [piecesChars, if_pos hx] at h
      cases front with
      | nil =>
        rw [hp] at h
        cases h
      | cons first front =>
        rw [List.cons_append, List.cons.injEq] at h
        rw [List.cons_append, piecesChars, if_pos hx, ih h.2, ← h.1]
        rfl
    · rw [piecesChars, if_neg hx, hp] at h
      dsimp only at h
      cases front with
      | nil =>
        rw [List.nil_append, List.cons.injEq] at h
        obtain ⟨rfl, rfl⟩ := h
        have rest : piecesChars c (r ++ b) = [] ++ [p ++ b] := ih hp
        rw [List.cons_append, piecesChars, if_neg hx, rest]
        rfl
      | cons first front =>
        rw [List.cons_append, List.cons.injEq] at h
        obtain ⟨rfl, rfl⟩ := h
        have rest : piecesChars c (r ++ b) = (p :: front) ++ [last ++ b] := ih hp
        rw [List.cons_append, piecesChars, if_neg hx, rest]
        rfl

end CodeAtlas.Text

namespace CodeAtlas.Path

open CodeAtlas.Text

variable {path base tail root inside a b name : String} {absolute : Bool}

/-! ## Appending to the last name -/

/-- The path ends in a name, and not in a slash, in `.` or in `..`. -/
def EndsInName (path : String) : Prop :=
  ∃ last, (pieces '/' path).getLast? = some last ∧ IsName last

/-- A text that makes another name of every name. -/
structure IsTail (tail : String) : Prop where
  whole : '/' ∉ tail.toList
  plain : '\\' ∉ tail.toList
  ends : ∃ c, tail.toList.getLast? = some c ∧ c ≠ '.'

theorem endsInName_slash_iff : EndsInName (a ++ "/" ++ b) ↔ EndsInName b := by
  have pieces_b : pieces '/' b ≠ [] := by
    rw [pieces, ne_eq, List.map_eq_nil_iff]
    exact piecesChars_ne_nil _
  unfold EndsInName
  rw [pieces_slash, List.getLast?_append, List.getLast?_eq_some_getLast pieces_b, Option.some_or]

/-- A name with a tail is a name again, since the tail makes no `.` or `..` of it. -/
theorem IsName.append (hname : IsName name) (htail : IsTail tail) : IsName (name ++ tail) := by
  obtain ⟨c, hlast, hc⟩ := htail.ends
  have last : (name ++ tail).toList.getLast? = some c := by
    rw [String.toList_append, List.getLast?_append, hlast, Option.some_or]
  have other : ∀ s : String, s.toList.getLast? = some '.' → name ++ tail ≠ s := by
    rintro s hs rfl
    rw [last] at hs
    exact hc (Option.some.inj hs)
  refine ⟨⟨?whole, ?nonempty, other _ (by decide)⟩, other _ (by decide)⟩
  case whole =>
    rw [String.toList_append, List.mem_append, not_or]
    exact ⟨hname.whole, htail.whole⟩
  case nonempty =>
    intro hempty
    rw [hempty] at last
    cases last

/-- The segments of a path that ends in a name, before and after something is appended. -/
theorem EndsInName.exists_segments (h : EndsInName path) (htail : IsTail tail) :
    ∃ front last, IsName last ∧ segments path = front ++ [last] ∧
      segments (path ++ tail) = front ++ [last ++ tail] := by
  obtain ⟨last, hlast, hname⟩ := h
  obtain ⟨front, hfront⟩ := List.getLast?_eq_some_iff.mp hlast
  have extended : pieces '/' (path ++ tail) = front ++ [last ++ tail] := by
    rw [pieces] at hfront ⊢
    obtain ⟨charsFront, charsLast, hchars, hmap, hone⟩ := List.map_eq_append_iff.mp hfront
    obtain ⟨chars, rfl, rfl⟩ := List.map_eq_singleton_iff.mp hone
    rw [String.toList_append, piecesChars_append_of_not_mem htail.whole hchars, List.map_append,
      hmap, List.map_singleton, String.ofList_append, String.ofList_toList]
  refine ⟨front.filter fun s => s != "" && s != ".", last, hname, ?_, ?_⟩
  · rw [segments, hfront, List.filter_append, hname.filter_eq]
  · rw [segments, extended, List.filter_append, (hname.append htail).filter_eq]

theorem EndsInName.ne_empty (h : EndsInName path) : path ≠ "" := by
  rintro rfl
  obtain ⟨last, hlast, hname⟩ := h
  have empty : some "" = some last := hlast
  exact hname.ne_empty (Option.some.inj empty).symm

theorem EndsInName.not_endsWith_slash (h : EndsInName path) : ¬ endsWith '/' path := by
  intro hend
  obtain ⟨front, rfl⟩ := exists_eq_append_of_endsWith hend
  have empty : EndsInName (front ++ "/" ++ "") := by rwa [String.append_empty]
  exact (endsInName_slash_iff.mp empty).ne_empty rfl

/-- A tail may be put behind the last segment or behind the path that is made of the segments. -/
theorem ofSegments_concat_append (list : List String) (s tail : String) :
    ofSegments absolute (list ++ [s ++ tail]) = ofSegments absolute (list ++ [s]) ++ tail := by
  have relative :
      "/".intercalate (list ++ [s ++ tail]) = "/".intercalate (list ++ [s]) ++ tail := by
    by_cases hlist : list = []
    · rw [hlist, List.nil_append, List.nil_append, String.intercalate_singleton,
        String.intercalate_singleton]
    · have one : ∀ s : String, [s] ≠ [] := fun s => List.cons_ne_nil s []
      rw [String.intercalate_append_of_ne_nil hlist (one _),
        String.intercalate_append_of_ne_nil hlist (one _), String.intercalate_singleton,
        String.intercalate_singleton, ← String.append_assoc]
  unfold ofSegments
  cases absolute with
  | true => rw [if_pos rfl, if_pos rfl, relative, ← String.append_assoc]
  | false =>
    have some : ∀ s : String, (list ++ [s]).isEmpty = false := by
      intro s
      cases list <;> rfl
    simp only [Bool.false_eq_true, if_false, some, relative]

/-- A text can be appended to the last name before or after cleaning. -/
theorem EndsInName.clean_append (h : EndsInName path) (htail : IsTail tail) :
    clean (path ++ tail) = clean path ++ tail := by
  obtain ⟨front, last, hname, hpath, hextended⟩ := h.exists_segments htail
  rw [clean, clean, isAbsolute_append h.ne_empty, hpath, hextended,
    cleanSegments_concat front hname.ne_dotdot,
    cleanSegments_concat front (hname.append htail).ne_dotdot, ofSegments_concat_append]

theorem EndsInName.clean_ne_dot (h : EndsInName path) (htail : IsTail tail) : clean path ≠ "." := by
  obtain ⟨front, last, hname, hpath, -⟩ := h.exists_segments htail
  intro hdot
  have none : segments (clean path) = [] := by
    rw [hdot]
    rfl
  rw [segments_clean, hpath, cleanSegments_concat front hname.ne_dotdot] at none
  exact List.append_ne_nil_of_right_ne_nil _ (List.cons_ne_nil last []) none

theorem normalize_of_clean_ne_dot (h : clean path ≠ ".") :
    normalize path = replaceChar '\\' '/' (clean path) := by
  unfold normalize
  exact if_neg fun hdot => h (eq_dot_of_replaceChar hdot)

/-- A text can be appended to the last name before or after a path is made normal. -/
theorem EndsInName.normalize_append (h : EndsInName path) (htail : IsTail tail) :
    normalize (path ++ tail) = normalize path ++ tail := by
  have longer : clean (path ++ tail) ≠ "." := by
    rw [h.clean_append htail]
    intro hdot
    obtain ⟨c, hlast, hc⟩ := htail.ends
    have last : (clean path ++ tail).toList.getLast? = some c := by
      rw [String.toList_append, List.getLast?_append, hlast, Option.some_or]
    rw [hdot] at last
    exact hc (Option.some.inj last).symm
  rw [normalize_of_clean_ne_dot longer, normalize_of_clean_ne_dot (h.clean_ne_dot htail),
    h.clean_append htail, replaceChar_append, replaceChar_of_not_mem htail.plain]

/-- An extension may be put back before or after a specifier is joined to the directory of its
importer. -/
theorem EndsInName.joinRelative_append (h : EndsInName path) (htail : IsTail tail)
    (importer : String) :
    joinRelative importer (path ++ tail) = joinRelative importer path ++ tail := by
  unfold joinRelative
  dsimp only
  split
  · exact h.normalize_append htail
  · rw [← String.append_assoc]
    exact (endsInName_slash_iff.mpr h).normalize_append htail

end CodeAtlas.Path
