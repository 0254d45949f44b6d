import CodeAtlas.Proofs.Path.Inside

/-!
# Pieces of a path

A text is put together again from its pieces between slashes (`intercalate_pieces`). The segments of
a path are the pieces that lead somewhere, so they make the path again just if all its pieces do
(`intercalate_segments_iff`). The pieces of an inner path are names, and the beginnings of such a
path begin neither with a slash nor with `./`.
-/

namespace CodeAtlas.Text

variable {c : Char} {s : String}

/-- Pieces without a slash come back from the text that they make. One piece at least is needed,
since the empty text has one. -/
theorem pieces_intercalate {list : List String} (hne : list ≠ [])
    (h : ∀ s ∈ list, '/' ∉ s.toList) : pieces '/' ("/".intercalate list) = list := by
  induction list with
  | nil => exact absurd rfl hne
  | cons s list ih =>
    have first : pieces '/' s = [s] := pieces_of_not_mem (h s List.mem_cons_self)
    by_cases hlist : list = []
    · rw [hlist, String.intercalate_singleton, first]
    · rw [String.intercalate_cons_of_ne_nil hlist, pieces_slash, first,
        ih hlist fun s hs => h s (List.mem_cons_of_mem _ hs)]
      rfl

theorem pieces_ne_nil : pieces c s ≠ [] := by
  rw [pieces, ne_eq, List.map_eq_nil_iff]
  exact piecesChars_ne_nil _

/-- A text is put together again from its pieces. The induction is on the number of slashes. -/
theorem intercalate_pieces (s : String) : "/".intercalate (pieces '/' s) = s := by
  by_cases hslash : '/' ∈ s.toList
  · obtain ⟨as, bs, hsplit, hfront⟩ := List.eq_append_cons_of_mem hslash
    have split : s = String.ofList as ++ "/" ++ String.ofList bs := by
      rw [← String.toList_inj, hsplit]
      simp
    have first : pieces '/' (String.ofList as) = [String.ofList as] := pieces_of_not_mem (by simpa)
    rw [split, pieces_slash, first, List.singleton_append,
      String.intercalate_cons_of_ne_nil pieces_ne_nil, intercalate_pieces (String.ofList bs)]
  · rw [pieces_of_not_mem hslash, String.intercalate_singleton]
termination_by s.length
decreasing_by
  have size := congrArg List.length hsplit
  simp only [List.length_append, List.length_cons, String.length_toList] at size
  simp only [String.length_ofList]
  omega

end CodeAtlas.Text

namespace CodeAtlas.Path

open CodeAtlas.Text

variable {path front tail : String}

theorem IsInner.isName_of_mem_pieces (h : IsInner path) : ∀ p ∈ pieces '/' path, IsName p := by
  obtain ⟨names, hnames, hname, rfl⟩ := h
  rw [pieces_intercalate hnames fun n hn => (hname n hn).whole]
  exact hname

theorem ne_here_of_pieces (h : "." ∉ pieces '/' path) (rest : String) :
    path ≠ "./" ++ rest := by
  rintro rfl
  have split : "./" ++ rest = "." ++ "/" ++ rest := rfl
  rw [split, pieces_slash] at h
  exact h (List.mem_append_left _ (by decide))

theorem IsInner.ne_here (h : IsInner (front ++ tail)) (rest : String) :
    front ≠ "./" ++ rest := by
  rintro rfl
  refine ne_here_of_pieces (fun hdot => ?_) (rest ++ tail) String.append_assoc
  exact (h.isName_of_mem_pieces _ hdot).ne_dot rfl

theorem IsInner.not_isAbsolute_front (h : IsInner (front ++ tail)) : ¬ isAbsolute front := by
  by_cases hempty : front = ""
  · rw [hempty]
    decide
  · rw [← isAbsolute_append (b := tail) hempty]
    exact h.not_isAbsolute

/-- The segments of a path make the path again just if no piece of it is empty or `.`. -/
theorem intercalate_segments_iff (hne : segments path ≠ []) :
    "/".intercalate (segments path) = path ↔ ∀ p ∈ pieces '/' path, IsSegment p := by
  constructor
  · intro h p hp
    rw [← h, pieces_intercalate hne fun s hs => (isSegment_of_mem_segments hs).whole] at hp
    exact isSegment_of_mem_segments hp
  · intro h
    have all : segments path = pieces '/' path :=
      List.filter_eq_self.mpr fun p hp => by simp [(h p hp).ne_empty, (h p hp).ne_dot]
    rw [all, intercalate_pieces]

theorem segments_ne_nil (h : ∀ p ∈ pieces '/' path, IsSegment p) : segments path ≠ [] := by
  obtain ⟨p, rest, hpieces⟩ := List.exists_cons_of_ne_nil (pieces_ne_nil (c := '/') (s := path))
  have hp : p ∈ pieces '/' path := hpieces ▸ List.mem_cons_self
  exact List.ne_nil_of_mem (mem_segments.mpr ⟨hp, (h p hp).ne_empty, (h p hp).ne_dot⟩)

theorem ne_empty_of_isAbsolute (h : isAbsolute path) : path ≠ "" := by
  rintro rfl
  exact absurd h (by decide)

end CodeAtlas.Path
