import CodeAtlas.Proofs.Path.Pieces
import CodeAtlas.Proofs.Path.Recleaning
import CodeAtlas.Proofs.Text.Marks

/-!
# Canonical paths

A canonical path is written with slashes alone, none of its segments is empty or `.`, and `..`
stands only at the beginning of a relative path. These are the paths that are normal already
(`Canonical.normalize_eq`), and a path without a backslash is made canonical by `normalize`
(`canonical_normalize`).

Backslashes become slashes after the cleaning, and nobody cleans what they separate. So the normal
form of a path with a backslash need not be canonical (`not_normalize_canonical`). It has no
backslash itself, hence it is canonical just if it stays as it is the second time, and the second
normal form always is (`normalize_canonical_iff`).
-/

namespace CodeAtlas.Text

/-- The pieces of a text with slashes in place of backslashes are those between its slashes, cut at
the backslashes. -/
theorem piecesChars_replaced (text : List Char) :
    piecesChars '/' (text.map fun x => if x = '\\' then '/' else x) =
      (piecesChars '/' text).flatMap (piecesChars '\\') := by
  induction text with
  | nil => rfl
  | cons c r ih =>
    obtain ⟨p, ps, hp⟩ := List.exists_cons_of_ne_nil (piecesChars_ne_nil (c := '/') r)
    obtain ⟨q, qs, hq⟩ := List.exists_cons_of_ne_nil (piecesChars_ne_nil (c := '\\') p)
    rw [hp, List.flatMap_cons, hq] at ih
    by_cases hslash : c = '/'
    · simp [piecesChars, hslash, ih, hp, hq]
    · by_cases hback : c = '\\'
      · simp [piecesChars, hback, ih, hp, hq]
      · simp [piecesChars, hslash, hback, ih, hp, hq]

theorem pieces_replaceChar (s : String) :
    pieces '/' (replaceChar '\\' '/' s) = (pieces '/' s).flatMap (pieces '\\') := by
  have each : ∀ piece : List Char, pieces '\\' (String.ofList piece) =
      (piecesChars '\\' piece).map String.ofList := by
    intro piece
    rw [pieces, String.toList_ofList]
  rw [pieces, replaceChar, String.toList_ofList, piecesChars_replaced, List.map_flatMap, pieces,
    List.flatMap_map]
  simp only [each]

end CodeAtlas.Text

namespace CodeAtlas.Path

open CodeAtlas.Text

variable {path s : String} {list names stack : List String} {absolute : Bool}

/-! ## Segments as they are written -/

/-- The segments of a path as it is written, after the slash that an absolute path begins with. The
empty path and the root have none. -/
def writtenSegments (path : String) : List String :=
  let rest := (dropPrefix? "/" path).getD path
  if rest = "" then [] else pieces '/' rest

/-- The form of a path that says in one way only where it leads. -/
structure Canonical (path : String) : Prop where
  plain : '\\' ∉ path.toList
  solid : ∀ s ∈ writtenSegments path, s ≠ "" ∧ s ≠ "."
  /-- Only a relative path leads backwards, and only at its beginning. -/
  backwards : ∃ k names, writtenSegments path = List.replicate k ".." ++ names ∧ ".." ∉ names ∧
    (isAbsolute path → k = 0)

theorem writtenSegments_absolute (rest : String) :
    writtenSegments ("/" ++ rest) = if rest = "" then [] else pieces '/' rest := by
  rw [writtenSegments, dropPrefix?_eq_some_iff.mpr rfl]
  rfl

theorem writtenSegments_relative (h : ¬ isAbsolute path) :
    writtenSegments path = if path = "" then [] else pieces '/' path := by
  rw [writtenSegments, dropPrefix?_slash_eq_none_iff.mpr h]
  rfl

theorem intercalate_eq_empty_iff (h : ∀ s ∈ list, IsSegment s) :
    "/".intercalate list = "" ↔ list = [] := by
  constructor
  · intro hempty
    rw [← segments_intercalate h, hempty]
    rfl
  · rintro rfl
    rfl

/-- The path that is made of some segments is written with just these. -/
theorem writtenSegments_ofSegments (hlist : absolute ∨ list ≠ [])
    (h : ∀ s ∈ list, IsSegment s) : writtenSegments (ofSegments absolute list) = list := by
  have parts : (if "/".intercalate list = "" then [] else pieces '/' ("/".intercalate list)) =
      list := by
    by_cases hnone : list = []
    · rw [if_pos ((intercalate_eq_empty_iff h).mpr hnone), hnone]
    · rw [if_neg fun hempty => hnone ((intercalate_eq_empty_iff h).mp hempty)]
      exact pieces_intercalate hnone fun s hs => (h s hs).whole
  unfold ofSegments
  cases absolute with
  | true =>
    rw [if_pos rfl, writtenSegments_absolute]
    exact parts
  | false =>
    have some : list.isEmpty = false :=
      List.isEmpty_eq_false_iff.mpr (hlist.resolve_left Bool.false_ne_true)
    rw [if_neg Bool.false_ne_true, if_neg (by rw [some]; exact Bool.false_ne_true),
      writtenSegments_relative (not_isAbsolute_intercalate h)]
    exact parts

/-- A path is put together again from the segments that it is written with. -/
theorem ofSegments_writtenSegments (hne : path ≠ "") :
    ofSegments (isAbsolute path) (writtenSegments path) = path := by
  unfold ofSegments
  by_cases habs : isAbsolute path
  · obtain ⟨rest, rfl⟩ := beginsWith_slash_iff.mp habs
    rw [if_pos habs, writtenSegments_absolute]
    by_cases hrest : rest = ""
    · rw [if_pos hrest, hrest]
      rfl
    · rw [if_neg hrest, intercalate_pieces]
  · have some : (pieces '/' path).isEmpty = false := List.isEmpty_eq_false_iff.mpr pieces_ne_nil
    rw [if_neg habs, writtenSegments_relative habs, if_neg hne,
      if_neg (by rw [some]; exact Bool.false_ne_true), intercalate_pieces]

theorem whole_of_mem_writtenSegments (h : s ∈ writtenSegments path) : '/' ∉ s.toList := by
  unfold writtenSegments at h
  dsimp only at h
  split at h
  · exact absurd h List.not_mem_nil
  · exact not_mem_of_mem_pieces h

/-! ## Leading backwards -/

theorem foldl_pushSegment_replicate (k m : Nat) :
    (List.replicate k "..").foldl (pushSegment false) (List.replicate m "..") =
      List.replicate (m + k) ".." := by
  induction k generalizing m with
  | zero => rfl
  | succ k ih =>
    have top : pushSegment false (List.replicate m "..") ".." = List.replicate (m + 1) ".." := by
      cases m <;> rfl
    rw [List.replicate_succ, List.foldl_cons, top, ih, Nat.add_right_comm, Nat.add_assoc]

/-- Each `..` takes a name off the stack as long as there is one, and the others stay. -/
theorem foldl_pushSegment_climb (k : Nat) (h : ∀ n ∈ stack, n ≠ "..") :
    (List.replicate k "..").foldl (pushSegment false) stack =
      stack.drop k ++ List.replicate (k - stack.length) ".." := by
  induction k generalizing stack with
  | zero => simp
  | succ k ih =>
    cases stack with
    | nil =>
      have all := foldl_pushSegment_replicate (k + 1) 0
      simpa using all
    | cons top below =>
      have taken : pushSegment false (top :: below) ".." = below := by
        unfold pushSegment
        rw [if_pos rfl]
        exact if_neg (h top List.mem_cons_self)
      rw [List.replicate_succ, List.foldl_cons, taken, ih fun n hn => h n (.tail top hn),
        List.drop_succ_cons, List.length_cons, Nat.add_sub_add_right]

/-- Steps back at the beginning and names after them are clean already. -/
theorem cleanSegments_climb (k : Nat) (hnames : ".." ∉ names) (habs : absolute → k = 0) :
    cleanSegments absolute (List.replicate k ".." ++ names) = List.replicate k ".." ++ names := by
  have forth : ∀ n ∈ names, n ≠ ".." := fun n hn heq => hnames (heq ▸ hn)
  cases absolute with
  | true =>
    rw [habs rfl]
    exact cleanSegments_of_names forth
  | false =>
    have climbed :
        (List.replicate k "..").foldl (pushSegment false) [] = List.replicate k ".." := by
      simpa using foldl_pushSegment_replicate k 0
    rw [cleanSegments, List.foldl_append, climbed, foldl_pushSegment_of_names forth,
      List.reverse_append, List.reverse_reverse, List.reverse_replicate]

/-- A settled stack has its `..` at the bottom, which is where the path begins. -/
theorem Settled.exists_climb (h : Settled absolute stack) :
    ∃ k names, stack.reverse = List.replicate k ".." ++ names ∧ ".." ∉ names ∧
      (absolute → k = 0) := by
  induction stack with
  | nil => exact ⟨0, [], rfl, List.not_mem_nil, fun _ => rfl⟩
  | cons s below ih =>
    by_cases hback : s = ".."
    · subst hback
      have under : ∀ t ∈ below, t = ".." := fun t ht =>
        (List.pairwise_cons.mp h.backwards).1 t ht rfl
      have all : ".." :: below = List.replicate (below.length + 1) ".." := by
        rw [List.replicate_succ, ← List.eq_replicate_iff.mpr ⟨rfl, under⟩]
      refine ⟨below.length + 1, [], ?_, List.not_mem_nil, ?_⟩
      · rw [all, List.reverse_replicate, List.append_nil]
      · exact fun habs => absurd List.mem_cons_self (h.rooted habs)
    · obtain ⟨k, names, hbelow, hnames, habs⟩ := ih h.tail
      refine ⟨k, names ++ [s], ?_, ?_, habs⟩
      · rw [List.reverse_cons, hbelow, List.append_assoc]
      · rw [List.mem_append, List.mem_singleton, not_or]
        exact ⟨hnames, fun heq => hback heq.symm⟩

/-! ## Normal paths -/

theorem canonical_empty : Canonical "" where
  plain := List.not_mem_nil
  solid _ hs := absurd hs List.not_mem_nil
  backwards := ⟨0, [], rfl, List.not_mem_nil, fun _ => rfl⟩

/-- The normal form of a path without a backslash is canonical: cleaning leaves a settled stack, and
there is nothing to replace afterwards. -/
theorem canonical_normalize (hplain : '\\' ∉ path.toList) : Canonical (normalize path) := by
  by_cases hempty : normalize path = ""
  · rw [hempty]
    exact canonical_empty
  have segment : ∀ s ∈ cleanSegments (isAbsolute path) (segments path), IsSegment s :=
    fun s hs => isSegment_of_mem_segments (mem_of_mem_cleanSegments hs)
  have some : isAbsolute path ∨ cleanSegments (isAbsolute path) (segments path) ≠ [] := by
    by_cases habs : isAbsolute path
    · exact .inl habs
    · refine .inr fun hnone => hempty (normalize_eq_empty_iff.mpr ?_)
      rw [clean, ofSegments, if_neg habs, hnone]
      rfl
  have written : writtenSegments (clean path) =
      cleanSegments (isAbsolute path) (segments path) := writtenSegments_ofSegments some segment
  have settled : Settled (isAbsolute path) ((segments path).foldl (pushSegment _) []) :=
    settled_nil.foldl_pushSegment _
  rw [normalize_of_plain hplain hempty]
  refine ⟨not_mem_clean hplain (by decide) (by decide), ?_, ?_⟩
  · rw [written]
    exact fun s hs => ⟨(segment s hs).ne_empty, (segment s hs).ne_dot⟩
  · rw [written, isAbsolute_clean]
    exact settled.exists_climb

/-- A canonical path is normal: it is made of the segments that it is written with, and none of them
moves. -/
theorem Canonical.normalize_eq (h : Canonical path) : normalize path = path := by
  by_cases hempty : path = ""
  · rw [hempty]
    decide
  have segment : ∀ s ∈ writtenSegments path, IsSegment s := fun s hs =>
    ⟨whole_of_mem_writtenSegments hs, (h.solid s hs).1, (h.solid s hs).2⟩
  have whole := ofSegments_writtenSegments hempty
  have cleaned : clean path = path := by
    obtain ⟨k, names, hwritten, hnames, habs⟩ := h.backwards
    have same : segments path = writtenSegments path := by
      calc segments path = segments (ofSegments (isAbsolute path) (writtenSegments path)) := by
            rw [whole]
        _ = writtenSegments path := segments_ofSegments segment
    rw [clean, same, hwritten, cleanSegments_climb k hnames habs, ← hwritten, whole]
  have ne_dot : clean path ≠ "." := by
    rw [cleaned]
    rintro rfl
    exact (h.solid "." (by decide)).2 rfl
  rw [normalize_of_clean_ne_dot ne_dot, cleaned, replaceChar_of_not_mem h.plain]

theorem not_mem_normalize (path : String) : '\\' ∉ (normalize path).toList := by
  unfold normalize
  dsimp only
  split
  · exact List.not_mem_nil
  · exact not_mem_replaceChar (by decide) _

/-- **Normal and canonical paths.** The normal form of a path has no backslash. It is the clean form
of the path, with each piece cut at its backslashes and what that leaves as it is. So it is
canonical just if it is its own normal form, which holds of every path that has no backslash to
begin with. The normal form of a normal form is canonical whatever the path. -/
theorem normalize_canonical_iff (path : String) :
    '\\' ∉ (normalize path).toList ∧
    (normalize path ≠ "" →
      pieces '/' (normalize path) = (pieces '/' (clean path)).flatMap (pieces '\\')) ∧
    (Canonical (normalize path) ↔ normalize (normalize path) = normalize path) ∧
    ('\\' ∉ path.toList →
      Canonical (normalize path) ∧ normalize (normalize path) = normalize path) ∧
    Canonical (normalize (normalize path)) ∧
    normalize (normalize (normalize path)) = normalize (normalize path) := by
  have second : Canonical (normalize (normalize path)) :=
    canonical_normalize (not_mem_normalize path)
  refine ⟨not_mem_normalize path, ?pieces, ⟨fun h => h.normalize_eq, fun h => h ▸ second⟩, ?plain,
    second, second.normalize_eq⟩
  case pieces =>
    intro hne
    rw [normalize_of_clean_ne_dot fun hdot => hne (normalize_eq_empty_iff.mpr hdot)]
    exact pieces_replaceChar (clean path)
  case plain =>
    intro hplain
    have first : Canonical (normalize path) := canonical_normalize hplain
    exact ⟨first, first.normalize_eq⟩

/-- Slashes, points and steps back of all sorts. -/
theorem normalize_canonical_iff_winding :
    '\\' ∉ ".././/src/a/../..//../b/./".toList ∧
      normalize ".././/src/a/../..//../b/./" = "../../b" ∧
      pieces '/' (normalize ".././/src/a/../..//../b/./") = ["..", "..", "b"] ∧
      Canonical (normalize ".././/src/a/../..//../b/./") := by
  have plain : '\\' ∉ ".././/src/a/../..//../b/./".toList := by decide
  have normal : normalize ".././/src/a/../..//../b/./" = "../../b" := by decide
  have cut : (pieces '/' (clean ".././/src/a/../..//../b/./")).flatMap (pieces '\\') =
      ["..", "..", "b"] := by decide
  obtain ⟨-, pieces_eq, -, canonical, -⟩ := normalize_canonical_iff ".././/src/a/../..//../b/./"
  have some : normalize ".././/src/a/../..//../b/./" ≠ "" := by
    rw [normal]
    decide
  exact ⟨plain, normal, (pieces_eq some).trans cut, (canonical plain).1⟩

/-- Not every normal form is canonical, nor stays as it is: the backslashes are slashes by the time
the `..` between them could be found. -/
theorem not_normalize_canonical :
    ¬ ∀ path, Canonical (normalize path) ∧ normalize (normalize path) = normalize path := by
  intro every
  have twice := (every "a\\..\\b").2
  exact absurd twice (by decide)

end CodeAtlas.Path
