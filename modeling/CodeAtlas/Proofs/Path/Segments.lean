import CodeAtlas.Path.Clean
import CodeAtlas.Proofs.Text.Cut

/-!
# Segments of a path

A path is read as the list of its segments. Putting a slash between two paths puts their segments
one after the other (`segments_slash`), and a list of segments is read back from the path that it
makes (`segments_ofSegments`). Cleaning works on that list: what it leaves are segments of the path
(`mem_of_mem_cleanSegments`), none of them `..` if the path begins at the root
(`ne_dotdot_of_mem_cleanSegments`), and names are left alone (`cleanSegments_of_names`).

A name is a segment other than `..`, so it leads to something inside the directory before it.
-/

namespace CodeAtlas.Text

variable {c : Char}

theorem piecesChars_ne_nil (text : List Char) : piecesChars c text ≠ [] := by
  cases text with
  | nil => exact List.cons_ne_nil _ _
  | cons d r =>
    unfold piecesChars
    split
    · exact List.cons_ne_nil _ _
    · split <;> exact List.cons_ne_nil _ _

theorem piecesChars_append_cons (a b : List Char) :
    piecesChars c (a ++ c :: b) = piecesChars c a ++ piecesChars c b := by
  induction a with
  | nil => simp [piecesChars]
  | cons d r ih =>
    by_cases hd : d = c
    · simp [piecesChars, hd, ih]
    · obtain ⟨p, ps, hp⟩ := List.exists_cons_of_ne_nil (piecesChars_ne_nil (c := c) r)
      simp [piecesChars, hd, ih, hp]

theorem piecesChars_of_not_mem {text : List Char} (h : c ∉ text) : piecesChars c text = [text] := by
  induction text with
  | nil => rfl
  | cons d r ih =>
    rw [List.mem_cons, not_or] at h
    simp [piecesChars, Ne.symm h.1, ih h.2]

theorem not_mem_of_mem_piecesChars {text piece : List Char} (h : piece ∈ piecesChars c text) :
    c ∉ piece := by
  induction text generalizing piece with
  | nil =>
    obtain rfl := List.mem_singleton.mp h
    exact List.not_mem_nil
  | cons d r ih =>
    by_cases hd : d = c
    · rw [piecesChars, if_pos hd] at h
      rcases List.mem_cons.mp h with rfl | h
      · exact List.not_mem_nil
      · exact ih h
    · obtain ⟨p, ps, hp⟩ := List.exists_cons_of_ne_nil (piecesChars_ne_nil (c := c) r)
      rw [piecesChars, if_neg hd, hp] at h
      rcases List.mem_cons.mp h with rfl | h
      · have first : c ∉ p := ih (hp ▸ List.mem_cons_self)
        exact fun hmem => (List.mem_cons.mp hmem).elim (fun heq => hd heq.symm) first
      · exact ih (hp ▸ List.mem_cons_of_mem p h)

theorem pieces_slash (a b : String) :
    pieces '/' (a ++ "/" ++ b) = pieces '/' a ++ pieces '/' b := by
  have chars : (a ++ "/" ++ b).toList = a.toList ++ '/' :: b.toList := by
    rw [String.toList_append, String.toList_append, List.append_assoc]
    rfl
  rw [pieces, chars, piecesChars_append_cons, List.map_append]
  rfl

theorem pieces_of_not_mem {s : String} (h : '/' ∉ s.toList) : pieces '/' s = [s] := by
  rw [pieces, piecesChars_of_not_mem h, List.map_singleton, String.ofList_toList]

theorem not_mem_of_mem_pieces {s piece : String} (h : piece ∈ pieces '/' s) :
    '/' ∉ piece.toList := by
  obtain ⟨chars, hchars, rfl⟩ := List.mem_map.mp h
  rw [String.toList_ofList]
  exact not_mem_of_mem_piecesChars hchars

end CodeAtlas.Text

namespace CodeAtlas.Path

open CodeAtlas.Text

/-! ## Segments and names -/

/-- A segment that leads somewhere. -/
structure IsSegment (s : String) : Prop where
  whole : '/' ∉ s.toList
  ne_empty : s ≠ ""
  ne_dot : s ≠ "."

/-- A segment that leads to something inside the directory before it. -/
structure IsName (s : String) : Prop extends IsSegment s where
  ne_dotdot : s ≠ ".."

/-- A path of names alone: it leads from a directory to something below it. -/
def IsInner (path : String) : Prop :=
  ∃ names, names ≠ [] ∧ (∀ n ∈ names, IsName n) ∧ path = "/".intercalate names

variable {path a b s : String} {list names : List String} {absolute : Bool}

theorem isName_iff : IsName s ↔ '/' ∉ s.toList ∧ s ≠ "" ∧ s ≠ "." ∧ s ≠ ".." :=
  ⟨fun h => ⟨h.whole, h.ne_empty, h.ne_dot, h.ne_dotdot⟩,
    fun h => ⟨⟨h.1, h.2.1, h.2.2.1⟩, h.2.2.2⟩⟩

instance : DecidablePred IsName := fun _ => decidable_of_iff _ isName_iff.symm

theorem mem_segments : s ∈ segments path ↔ s ∈ pieces '/' path ∧ s ≠ "" ∧ s ≠ "." := by
  rw [segments, List.mem_filter]
  simp

theorem isSegment_of_mem_segments (h : s ∈ segments path) : IsSegment s := by
  obtain ⟨hpiece, hempty, hdot⟩ := mem_segments.mp h
  exact ⟨not_mem_of_mem_pieces hpiece, hempty, hdot⟩

theorem segments_slash (a b : String) : segments (a ++ "/" ++ b) = segments a ++ segments b := by
  rw [segments, pieces_slash, List.filter_append]
  rfl

theorem IsSegment.filter_eq (h : IsSegment s) :
    [s].filter (fun s => s != "" && s != ".") = [s] := by
  simp [h.ne_empty, h.ne_dot]

theorem IsSegment.segments_eq (h : IsSegment s) : segments s = [s] := by
  rw [segments, pieces_of_not_mem h.whole, h.filter_eq]

/-- Segments come back from the path that they make. -/
theorem segments_intercalate (h : ∀ s ∈ list, IsSegment s) :
    segments ("/".intercalate list) = list := by
  induction list with
  | nil => rfl
  | cons s list ih =>
    have first : IsSegment s := h s List.mem_cons_self
    have rest : ∀ s ∈ list, IsSegment s := fun s hs => h s (List.mem_cons_of_mem _ hs)
    by_cases hlist : list = []
    · rw [hlist, String.intercalate_singleton, first.segments_eq]
    · rw [String.intercalate_cons_of_ne_nil hlist, segments_slash, ih rest, first.segments_eq]
      rfl

theorem segments_ofSegments (h : ∀ s ∈ list, IsSegment s) :
    segments (ofSegments absolute list) = list := by
  unfold ofSegments
  cases absolute with
  | true =>
    have root : "/" ++ "/".intercalate list = "" ++ "/" ++ "/".intercalate list := by
      rw [String.empty_append]
    rw [if_pos rfl, root, segments_slash, segments_intercalate h]
    rfl
  | false =>
    rw [if_neg Bool.false_ne_true]
    cases list with
    | nil => decide
    | cons s list =>
      rw [List.isEmpty_cons, if_neg Bool.false_ne_true, segments_intercalate h]

/-! ## Where a path begins -/

theorem isAbsolute_append (hne : a ≠ "") : isAbsolute (a ++ b) = isAbsolute a :=
  beginsWith_append hne

theorem IsSegment.not_isAbsolute (h : IsSegment s) : ¬ isAbsolute s := by
  intro habs
  rw [isAbsolute, beginsWith, beq_iff_eq] at habs
  exact h.whole (List.mem_of_mem_head? habs)

theorem not_isAbsolute_intercalate (h : ∀ s ∈ list, IsSegment s) :
    ¬ isAbsolute ("/".intercalate list) := by
  cases list with
  | nil => decide
  | cons s list =>
    have first : IsSegment s := h s List.mem_cons_self
    by_cases hlist : list = []
    · rw [hlist, String.intercalate_singleton]
      exact first.not_isAbsolute
    · rw [String.intercalate_cons_of_ne_nil hlist, String.append_assoc,
        isAbsolute_append first.ne_empty]
      exact first.not_isAbsolute

/-- A path that is made of segments begins at the root if it was made to, and not otherwise. -/
theorem isAbsolute_ofSegments (h : ∀ s ∈ list, IsSegment s) :
    isAbsolute (ofSegments absolute list) = absolute := by
  unfold ofSegments
  cases absolute with
  | true =>
    rw [if_pos rfl, isAbsolute_append (by decide)]
    rfl
  | false =>
    rw [if_neg Bool.false_ne_true]
    cases list with
    | nil => decide
    | cons s list =>
      rw [List.isEmpty_cons, if_neg Bool.false_ne_true]
      exact Bool.eq_false_iff.mpr (not_isAbsolute_intercalate h)

/-! ## Cleaning -/

variable {stack : List String}

theorem mem_pushSegment {segment : String} (h : s ∈ pushSegment absolute stack segment) :
    s ∈ stack ∨ s = segment := by
  unfold pushSegment at h
  split at h
  · rename_i hback
    split at h
    · split at h
      · exact .inl h
      · exact .inr ((List.mem_singleton.mp h).trans hback.symm)
    · split at h
      · rcases List.mem_cons.mp h with hs | h
        · exact .inr (hs.trans hback.symm)
        · exact .inl h
      · exact .inl (List.mem_cons_of_mem _ h)
  · exact (List.mem_cons.mp h).symm

theorem mem_foldl_pushSegment (h : s ∈ list.foldl (pushSegment absolute) stack) :
    s ∈ stack ∨ s ∈ list := by
  induction list generalizing stack with
  | nil => exact .inl h
  | cons segment list ih =>
    rcases ih h with h | h
    · rcases mem_pushSegment h with h | rfl
      · exact .inl h
      · exact .inr List.mem_cons_self
    · exact .inr (List.mem_cons_of_mem segment h)

theorem mem_of_mem_cleanSegments (h : s ∈ cleanSegments absolute list) : s ∈ list :=
  (mem_foldl_pushSegment (List.mem_reverse.mp h)).resolve_left List.not_mem_nil

/-- At the root `..` goes nowhere, so none is ever on the stack. -/
theorem forall_pushSegment_ne_dotdot (h : ∀ s ∈ stack, s ≠ "..") (segment : String) :
    ∀ s ∈ pushSegment true stack segment, s ≠ ".." := by
  intro s hs
  unfold pushSegment at hs
  split at hs
  · split at hs
    · exact h s hs
    · rename_i top below
      rw [if_neg (h top List.mem_cons_self)] at hs
      exact h s (List.mem_cons_of_mem top hs)
  · rename_i hforth
    rcases List.mem_cons.mp hs with rfl | hs
    · exact hforth
    · exact h s hs

theorem ne_dotdot_of_mem_cleanSegments (h : s ∈ cleanSegments true list) : s ≠ ".." := by
  have all : ∀ s ∈ list.foldl (pushSegment true) [], s ≠ ".." :=
    List.foldlRecOn (motive := fun stack => ∀ s ∈ stack, s ≠ "..") list (pushSegment true)
      (fun _ hnil => absurd hnil List.not_mem_nil)
      fun _ kept segment _ => forall_pushSegment_ne_dotdot kept segment
  exact all s (List.mem_reverse.mp h)

theorem segments_clean : segments (clean path) = cleanSegments (isAbsolute path) (segments path) :=
  segments_ofSegments fun _ hs => isSegment_of_mem_segments (mem_of_mem_cleanSegments hs)

theorem isAbsolute_clean : isAbsolute (clean path) = isAbsolute path :=
  isAbsolute_ofSegments fun _ hs => isSegment_of_mem_segments (mem_of_mem_cleanSegments hs)

/-- A clean path that begins at the root has names only, since no `..` is left there. -/
theorem isName_of_mem_segments_clean (habs : isAbsolute path) (h : s ∈ segments (clean path)) :
    IsName s := by
  rw [segments_clean, habs] at h
  exact ⟨isSegment_of_mem_segments (mem_of_mem_cleanSegments h), ne_dotdot_of_mem_cleanSegments h⟩

theorem pushSegment_of_ne (hs : s ≠ "..") : pushSegment absolute stack s = s :: stack := by
  unfold pushSegment
  exact if_neg hs

theorem cleanSegments_concat (list : List String) (hs : s ≠ "..") :
    cleanSegments absolute (list ++ [s]) = cleanSegments absolute list ++ [s] := by
  rw [cleanSegments, List.foldl_append, List.foldl_cons, List.foldl_nil,
    pushSegment_of_ne hs, List.reverse_cons]
  rfl

theorem foldl_pushSegment_of_names (h : ∀ n ∈ names, n ≠ "..") :
    names.foldl (pushSegment absolute) stack = names.reverse ++ stack := by
  induction names generalizing stack with
  | nil => rfl
  | cons n names ih =>
    rw [List.foldl_cons, pushSegment_of_ne (h n List.mem_cons_self),
      ih fun n hn => h n (List.mem_cons_of_mem _ hn), List.reverse_cons, List.append_assoc]
    rfl

theorem cleanSegments_of_names (h : ∀ n ∈ names, n ≠ "..") :
    cleanSegments absolute names = names := by
  rw [cleanSegments, foldl_pushSegment_of_names h, List.append_nil, List.reverse_reverse]

theorem clean_ofSegments (h : ∀ n ∈ names, IsName n) :
    clean (ofSegments absolute names) = ofSegments absolute names := by
  have segment : ∀ n ∈ names, IsSegment n := fun n hn => (h n hn).toIsSegment
  rw [clean, isAbsolute_ofSegments segment, segments_ofSegments segment,
    cleanSegments_of_names fun n hn => (h n hn).ne_dotdot]

theorem ofSegments_segments (habs : isAbsolute path) (hclean : clean path = path) :
    ofSegments true (segments path) = path := by
  calc ofSegments true (segments path) = ofSegments true (segments (clean path)) := by rw [hclean]
    _ = clean path := by rw [segments_clean, clean, habs]
    _ = path := hclean

end CodeAtlas.Path
