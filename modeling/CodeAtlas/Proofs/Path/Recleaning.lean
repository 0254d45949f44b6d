import CodeAtlas.Proofs.Path.Normal

/-!
# Cleaning in steps

A path may be cleaned before another one is put behind it, and cleaning the whole gives what it
would have given anyway (`clean_clean_slash`). In a stack of clean segments a `..` stands on others
of its kind alone, and at the root there is none (`Settled`); so nothing moves when the stack is
built again from its segments (`Settled.foldl_reverse`).

For normal paths this holds as long as the first one has no backslash (`normalize_normalize_slash`).
A backslash becomes a slash only after the cleaning, and what it separates is cleaned the next time.
-/

namespace CodeAtlas.Text

variable {c : Char} {s : String}

theorem mem_of_mem_piecesChars {text piece : List Char} (h : piece ∈ piecesChars c text) :
    ∀ d ∈ piece, d ∈ text := by
  induction text generalizing piece with
  | nil =>
    obtain rfl := List.mem_singleton.mp h
    exact fun d hd => hd
  | cons x r ih =>
    by_cases hx : x = c
    · rw [piecesChars, if_pos hx] at h
      rcases List.mem_cons.mp h with rfl | h
      · exact fun d hd => absurd hd List.not_mem_nil
      · exact fun d hd => List.mem_cons_of_mem x (ih h d hd)
    · obtain ⟨p, ps, hp⟩ := List.exists_cons_of_ne_nil (piecesChars_ne_nil (c := c) r)
      rw [piecesChars, if_neg hx, hp] at h
      rcases List.mem_cons.mp h with rfl | h
      · intro d hd
        rcases List.mem_cons.mp hd with rfl | hd
        · exact List.mem_cons_self
        · exact List.mem_cons_of_mem x (ih (hp ▸ List.mem_cons_self) d hd)
      · exact fun d hd => List.mem_cons_of_mem x (ih (hp ▸ List.mem_cons_of_mem p h) d hd)

theorem mem_of_mem_pieces {piece : String} (h : piece ∈ pieces c s) {d : Char}
    (hd : d ∈ piece.toList) : d ∈ s.toList := by
  obtain ⟨chars, hchars, rfl⟩ := List.mem_map.mp h
  rw [String.toList_ofList] at hd
  exact mem_of_mem_piecesChars hchars d hd

/-- A character of a path is a slash, or is in one of the parts that make the path. -/
theorem mem_intercalate_slash {list : List String} (h : c ∈ ("/".intercalate list).toList) :
    c = '/' ∨ ∃ s ∈ list, c ∈ s.toList := by
  induction list with
  | nil => exact absurd h List.not_mem_nil
  | cons s list ih =>
    by_cases hlist : list = []
    · rw [hlist, String.intercalate_singleton] at h
      exact .inr ⟨s, List.mem_cons_self, h⟩
    · rw [String.intercalate_cons_of_ne_nil hlist, String.toList_append, String.toList_append,
        List.append_assoc, List.mem_append, List.mem_append] at h
      rcases h with h | h | h
      · exact .inr ⟨s, List.mem_cons_self, h⟩
      · exact .inl (List.mem_singleton.mp h)
      · exact (ih h).imp id fun ⟨t, ht, hc⟩ => ⟨t, List.mem_cons_of_mem s ht, hc⟩

end CodeAtlas.Text

namespace CodeAtlas.Path

open CodeAtlas.Text

variable {absolute : Bool} {stack : List String} {path a b : String}

/-! ## Clean stacks -/

/-- A stack of clean segments, whose last segment comes first. -/
structure Settled (absolute : Bool) (stack : List String) : Prop where
  /-- A `..` stands on nothing but others of its kind. -/
  backwards : stack.Pairwise fun s below => s = ".." → below = ".."
  /-- At the root `..` goes nowhere. -/
  rooted : absolute = true → ".." ∉ stack

theorem settled_nil : Settled absolute [] := ⟨.nil, fun _ => List.not_mem_nil⟩

theorem Settled.tail {s : String} (h : Settled absolute (s :: stack)) : Settled absolute stack :=
  ⟨(List.pairwise_cons.mp h.backwards).2, fun habs hmem => h.rooted habs (.tail s hmem)⟩

theorem Settled.cons_of_ne {s : String} (h : Settled absolute stack) (hs : s ≠ "..") :
    Settled absolute (s :: stack) := by
  refine ⟨List.pairwise_cons.mpr ⟨fun _ _ hback => absurd hback hs, h.backwards⟩, ?_⟩
  intro habs hmem
  rcases List.mem_cons.mp hmem with heq | hmem
  · exact hs heq.symm
  · exact h.rooted habs hmem

/-- A `..` on a `..` stays. -/
theorem Settled.cons_dotdot (h : Settled absolute (".." :: stack)) :
    Settled absolute (".." :: ".." :: stack) := by
  have below := (List.pairwise_cons.mp h.backwards).1
  refine ⟨List.pairwise_cons.mpr ⟨fun s hs _ => ?_, h.backwards⟩, ?_⟩
  · rcases List.mem_cons.mp hs with rfl | hs
    · rfl
    · exact below s hs rfl
  · exact fun habs _ => h.rooted habs List.mem_cons_self

/-- Cleaning keeps a stack settled: a `..` takes a name off, and stays only where there is none. -/
theorem Settled.pushSegment (h : Settled absolute stack) (segment : String) :
    Settled absolute (pushSegment absolute stack segment) := by
  by_cases hback : segment = ".."
  · unfold Path.pushSegment
    rw [if_pos hback]
    cases stack with
    | nil =>
      cases absolute with
      | true => exact settled_nil
      | false => exact ⟨List.pairwise_singleton _ _, nofun⟩
    | cons top below =>
      dsimp only
      split
      · rename_i htop
        subst htop
        exact h.cons_dotdot
      · exact h.tail
  · rw [pushSegment_of_ne hback]
    exact h.cons_of_ne hback

theorem Settled.foldl_pushSegment (h : Settled absolute stack) (list : List String) :
    Settled absolute (list.foldl (Path.pushSegment absolute) stack) :=
  List.foldlRecOn (motive := Settled absolute) list (Path.pushSegment absolute) h
    fun _ settled segment _ => settled.pushSegment segment

/-- Nothing moves when a settled stack is built again. The induction is on the stack, so the segment
that is pushed last is the one in question. -/
theorem Settled.foldl_reverse (h : Settled absolute stack) :
    stack.reverse.foldl (Path.pushSegment absolute) [] = stack := by
  induction stack with
  | nil => rfl
  | cons s below ih =>
    rw [List.reverse_cons, List.foldl_append, ih h.tail, List.foldl_cons, List.foldl_nil]
    by_cases hback : s = ".."
    · subst hback
      have relative : absolute = false := by
        rw [Bool.eq_false_iff]
        exact fun habs => h.rooted habs List.mem_cons_self
      unfold Path.pushSegment
      rw [if_pos rfl]
      cases below with
      | nil =>
        rw [relative]
        rfl
      | cons top rest =>
        have htop : top = ".." := (List.pairwise_cons.mp h.backwards).1 top List.mem_cons_self rfl
        dsimp only
        rw [if_pos htop]
    · exact pushSegment_of_ne hback

/-! ## Cleaning again -/

/-- Segments may be cleaned before others are put behind them. -/
theorem cleanSegments_append (first rest : List String) :
    cleanSegments absolute (cleanSegments absolute first ++ rest) =
      cleanSegments absolute (first ++ rest) := by
  have settled : Settled absolute (first.foldl (pushSegment absolute) []) :=
    settled_nil.foldl_pushSegment first
  unfold cleanSegments
  rw [List.foldl_append, List.foldl_append, settled.foldl_reverse]

theorem clean_ne_empty : clean path ≠ "" := by
  unfold clean ofSegments
  split
  · exact fun h => absurd (String.append_eq_empty_iff.mp h).1 (by decide)
  · have segment : ∀ s ∈ cleanSegments (isAbsolute path) (segments path), IsSegment s :=
      fun s hs => isSegment_of_mem_segments (mem_of_mem_cleanSegments hs)
    split
    · decide
    · rename_i hlist
      intro hempty
      have none := segments_intercalate segment
      rw [hempty] at none
      exact hlist (List.isEmpty_iff.mpr none.symm)

theorem clean_clean (path : String) : clean (clean path) = clean path := by
  have again : cleanSegments (isAbsolute path) (cleanSegments (isAbsolute path) (segments path)) =
      cleanSegments (isAbsolute path) (segments path) := by
    simpa only [List.append_nil] using cleanSegments_append (segments path) []
  rw [clean, isAbsolute_clean, segments_clean, again]
  rfl

/-- A path may be cleaned before another one is put behind it. -/
theorem clean_clean_slash (ha : a ≠ "") (b : String) :
    clean (clean a ++ "/" ++ b) = clean (a ++ "/" ++ b) := by
  have first : isAbsolute (clean a ++ "/" ++ b) = isAbsolute a := by
    rw [String.append_assoc, isAbsolute_append clean_ne_empty, isAbsolute_clean]
  have second : isAbsolute (a ++ "/" ++ b) = isAbsolute a := by
    rw [String.append_assoc, isAbsolute_append ha]
  rw [clean, first, segments_slash, segments_clean, cleanSegments_append, ← segments_slash, clean,
    second]

/-! ## Normal paths -/

theorem normalize_eq_empty_iff : normalize path = "" ↔ clean path = "." := by
  unfold normalize
  dsimp only
  constructor
  · intro h
    split at h
    · rename_i hdot
      exact eq_dot_of_replaceChar hdot
    · have none := congrArg String.toList h
      rw [replaceChar, String.toList_ofList, String.toList_empty, List.map_eq_nil_iff] at none
      exact absurd (String.toList_eq_nil_iff.mp none) clean_ne_empty
  · intro h
    rw [h]
    decide

theorem normalize_congr (h : clean a = clean b) : normalize a = normalize b := by
  unfold normalize
  rw [h]

theorem ne_empty_of_normalize (h : normalize path ≠ "") : path ≠ "" := by
  rintro rfl
  exact h (by decide)

/-- The characters of a clean path are those of the path, but for the point of the current
directory, and slashes. -/
theorem not_mem_clean {c : Char} (h : c ∉ path.toList) (hslash : c ≠ '/') (hdot : c ≠ '.') :
    c ∉ (clean path).toList := by
  have inner : c ∉ ("/".intercalate (cleanSegments (isAbsolute path) (segments path))).toList := by
    intro hmem
    rcases mem_intercalate_slash hmem with rfl | ⟨s, hs, hc⟩
    · exact hslash rfl
    · have piece := (mem_segments.mp (mem_of_mem_cleanSegments hs)).1
      exact h (mem_of_mem_pieces piece hc)
  unfold clean ofSegments
  split
  · rw [String.toList_append, List.mem_append, not_or]
    exact ⟨fun hmem => hslash (List.mem_singleton.mp hmem), inner⟩
  · split
    · exact fun hmem => hdot (List.mem_singleton.mp hmem)
    · exact inner

theorem normalize_of_plain (hplain : '\\' ∉ path.toList) (h : normalize path ≠ "") :
    normalize path = clean path := by
  rw [normalize_of_clean_ne_dot fun hdot => h (normalize_eq_empty_iff.mpr hdot)]
  exact replaceChar_of_not_mem (not_mem_clean hplain (by decide) (by decide))

/-- A path without a backslash may be made normal before another one is put behind it. -/
theorem normalize_normalize_slash (hplain : '\\' ∉ a.toList) (h : normalize a ≠ "") (b : String) :
    normalize (normalize a ++ "/" ++ b) = normalize (a ++ "/" ++ b) := by
  rw [normalize_of_plain hplain h]
  exact normalize_congr (clean_clean_slash (ne_empty_of_normalize h) b)

/-- A path without a backslash has a normal form that is normal. With one it need not: what the
backslash separates is cleaned the second time only. -/
theorem normalize_normalize (hplain : '\\' ∉ path.toList) (h : normalize path ≠ "") :
    normalize (normalize path) = normalize path := by
  calc normalize (normalize path) = normalize (clean path) := by rw [normalize_of_plain hplain h]
    _ = normalize path := normalize_congr (clean_clean path)

/-- The backslash of the first path separates only after the first cleaning. -/
example : normalize (normalize "a\\.." ++ "/" ++ "b") = "b" ∧
    normalize ("a\\.." ++ "/" ++ "b") = "a/../b" := by
  decide

end CodeAtlas.Path
