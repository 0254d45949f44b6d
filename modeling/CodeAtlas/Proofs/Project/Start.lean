import CodeAtlas.Graph.Node
import CodeAtlas.Proofs.Path.Pieces
import CodeAtlas.Proofs.Project.Root
import CodeAtlas.Proofs.Text.Marks

/-!
# Starts as people write them

The file of a start can be written in several ways (`Spelling`): with any number of `./` in front,
with backslashes, or behind the root of the project. A start is cut at its first `#`, and what
follows is kept as it is; a node is named with the last `#` of its text. So a way to write a file
may lose it if its path holds a `#`: then only what precedes the first `#` is put right. It depends
on the way whether anything was left to do behind it (`Spelling.Kept`, `start_spelling_iff`).
-/

namespace CodeAtlas

open CodeAtlas.Text CodeAtlas.Path

variable {root path front tail : String}

/-! ## The path of a file -/

namespace Project

variable {project : Project} {file : String}

theorem start_append (hfile : '#' ∉ file.toList) (htail : IsMarked tail) :
    project.start (file ++ tail) = project.filePath file ++ tail := by
  unfold start
  rcases htail with rfl | ⟨back, rfl⟩
  · rw [String.append_empty, String.append_empty, cutFirst?_of_not_mem hfile]
  · rw [← String.append_assoc, cutFirst?_hash hfile, ← String.append_assoc]

/-- Any number of `./`. -/
def here : Nat → String
  | 0 => ""
  | n + 1 => "./" ++ here n

theorem dropHereChars_here (n : Nat) (path : String) :
    dropHereChars (here n ++ path).toList = dropHereChars path.toList := by
  induction n with
  | zero => rw [here, String.empty_append]
  | succ n ih =>
    rw [here, String.append_assoc, String.toList_append]
    exact ih

theorem not_mem_here {c : Char} (h : c ∉ ['.', '/']) (n : Nat) : c ∉ (here n).toList := by
  induction n with
  | zero => exact List.not_mem_nil
  | succ n ih =>
    rw [here, String.toList_append, List.mem_append, not_or]
    exact ⟨h, ih⟩

/-- A path that does not begin with a step to the same directory is left alone. -/
theorem dropHereChars_of_ne (h : ∀ rest, path ≠ "./" ++ rest) :
    String.ofList (dropHereChars path.toList) = path := by
  unfold dropHereChars
  split
  · rename_i rest hpath
    refine absurd ?_ (h (String.ofList rest))
    rw [← String.toList_inj, hpath]
    simp
  · exact String.ofList_toList

theorem filePath_of_not_isAbsolute (h : ¬ isAbsolute path) :
    project.filePath path = String.ofList (dropHereChars (replaceChar '\\' '/' path).toList) := by
  unfold filePath
  rw [if_neg h]

theorem filePath_here (h : ¬ isAbsolute front) (hplain : '\\' ∉ front.toList)
    (hhere : ∀ rest, front ≠ "./" ++ rest) (n : Nat) :
    project.filePath (here n ++ front) = front := by
  have relative : ¬ isAbsolute (here n ++ front) := by
    cases n with
    | zero => rwa [here, String.empty_append]
    | succ n =>
      rw [here, String.append_assoc, isAbsolute_append (by decide)]
      decide
  have plain : '\\' ∉ (here n ++ front).toList := by
    rw [String.toList_append, List.mem_append, not_or]
    exact ⟨not_mem_here (by decide) n, hplain⟩
  rw [filePath_of_not_isAbsolute relative, replaceChar_of_not_mem plain, dropHereChars_here,
    dropHereChars_of_ne hhere]

/-- Backslashes in place of slashes are put right. -/
theorem filePath_backslashes (hplain : '\\' ∉ front.toList)
    (hhere : ∀ rest, front ≠ "./" ++ rest) :
    project.filePath (replaceChar '/' '\\' front) = front := by
  have relative : ¬ isAbsolute (replaceChar '/' '\\' front) :=
    fun h => not_mem_replaceChar (by decide) front (mem_of_beginsWith h)
  rw [filePath_of_not_isAbsolute relative, replaceChar_replaceChar hplain,
    dropHereChars_of_ne hhere]

theorem filePath_of_relativeTo?_empty (h : isAbsolute path)
    (hinside : relativeTo? project.root path = some "") : project.filePath path = path := by
  have absolute : ∀ rest, path ≠ "./" ++ rest := by
    rintro rest rfl
    rw [isAbsolute_append (by decide)] at h
    exact absurd h (by decide)
  unfold filePath
  rw [if_pos h, hinside]
  exact dropHereChars_of_ne absolute

theorem filePath_of_relativeTo? {inside : String} (h : isAbsolute path)
    (hinside : relativeTo? project.root path = some inside) (hne : inside ≠ "")
    (hhere : ∀ rest, inside ≠ "./" ++ rest) : project.filePath path = inside := by
  unfold filePath
  rw [if_pos h, hinside]
  dsimp only
  split
  · rename_i hempty
    exact absurd (Option.some.inj hempty) hne
  · rename_i hnone
    cases hnone
  · rename_i hsome
    rw [← Option.some.inj hsome, dropHereChars_of_ne hhere]

/-- Below the root, the path of a file is found unless a piece of it is empty or `.`. -/
theorem filePath_below (habs : isAbsolute project.root) :
    project.filePath (project.root ++ "/" ++ front) = front ↔
      ∀ p ∈ pieces '/' front, IsSegment p := by
  have absolute : isAbsolute (project.root ++ "/" ++ front) := by
    rwa [String.append_assoc, isAbsolute_append (ne_empty_of_isAbsolute habs)]
  have below : relativeTo? project.root (project.root ++ "/" ++ front) =
      some ("/".intercalate (segments front)) := by
    rw [relativeTo?, components_of_isAbsolute absolute, components_of_isAbsolute habs,
      segments_slash, ← List.cons_append, dropComponents?_eq_some_iff.mpr rfl]
    rfl
  by_cases hsegments : segments front = []
  · -- the path leads to the root itself, and it is kept as it is
    have longer : project.root ++ "/" ++ front ≠ front := by
      intro h
      have size := congrArg String.length h
      have one : "/".length = 1 := by decide
      rw [String.length_append, String.length_append] at size
      omega
    rw [hsegments] at below
    rw [filePath_of_relativeTo?_empty absolute below]
    exact iff_of_false longer fun h => segments_ne_nil h hsegments
  · have segment : ∀ s ∈ segments front, IsSegment s := fun _ => isSegment_of_mem_segments
    have nonempty : "/".intercalate (segments front) ≠ "" := by
      intro hempty
      rw [← segments_intercalate segment, hempty] at hsegments
      exact hsegments rfl
    have hhere : "." ∉ pieces '/' ("/".intercalate (segments front)) := by
      rw [pieces_intercalate hsegments fun s hs => (segment s hs).whole]
      exact fun hdot => (segment _ hdot).ne_dot rfl
    rw [filePath_of_relativeTo? absolute below nonempty (ne_here_of_pieces hhere),
      intercalate_segments_iff hsegments]

end Project

/-! ## Ways to write a start -/

/-- What follows the path in the text of a node. -/
def NodeId.suffix : NodeId → String
  | file _ => ""
  | symbol _ name => "#" ++ name

theorem NodeId.path_suffix (id : NodeId) : id.path ++ id.suffix = id.text := by
  cases id with
  | file path => exact String.append_empty
  | symbol path name => exact String.append_assoc.symm

theorem NodeId.isMarked_suffix (id : NodeId) : IsMarked id.suffix := by
  cases id with
  | file path => exact .inl rfl
  | symbol path name => exact .inr ⟨name, rfl⟩

/-- The ways to write the path of a file of a project. -/
inductive Spelling where
  /-- With some `./` in front, or as it is. -/
  | here (times : Nat)
  | backslashes
  /-- Behind the root of the project. -/
  | absolute

namespace Spelling

/-- The path of a file, written in some way. -/
def write (root path : String) : Spelling → String
  | here times => Project.here times ++ path
  | backslashes => replaceChar '/' '\\' path
  | absolute => root ++ "/" ++ path

/-- The way to write a path does not lose it to a `#` in it: behind a `#` nothing has to be put
right, and before the first one an absolute path goes down from the root in whole segments. -/
def Kept (root path : String) : Spelling → Prop
  | here _ => True
  | backslashes => AtFirstMark (fun _ back => '/' ∉ back.toList) path
  | absolute => '#' ∉ root.toList ∧
      AtFirstMark (fun front _ => ∀ p ∈ pieces '/' front, IsSegment p) path

end Spelling

namespace Project

variable {project : Project} {id : NodeId}

/-- A start names a node just if its file is put right up to the first `#`, and is right behind
it. -/
theorem start_eq_text_iff {file : String} (hfile : '#' ∉ file.toList) (htail : IsMarked tail) :
    project.start (file ++ tail ++ id.suffix) = id.text ↔
      project.filePath file ++ tail = id.path := by
  rw [String.append_assoc, start_append hfile (htail.append id.isMarked_suffix), ← id.path_suffix,
    ← String.append_assoc, String.append_left_inj]

theorem start_here (h : IsInner id.path) (hplain : '\\' ∉ id.path.toList) (times : Nat) :
    project.start (here times ++ id.path ++ id.suffix) = id.text := by
  obtain ⟨front, tail, hpath, hfront, htail⟩ := exists_marked id.path
  rw [hpath] at h hplain
  rw [String.toList_append, List.mem_append, not_or] at hplain
  have unmarked : '#' ∉ (here times ++ front).toList := by
    rw [String.toList_append, List.mem_append, not_or]
    exact ⟨not_mem_here (by decide) times, hfront⟩
  rw [hpath, ← String.append_assoc, start_eq_text_iff unmarked htail, hpath,
    filePath_here h.not_isAbsolute_front hplain.1 h.ne_here]

/-- Written with backslashes, a start names its file exactly if the spelling is one that keeps the
path. -/
theorem start_backslashes_iff (h : IsInner id.path) (hplain : '\\' ∉ id.path.toList) :
    project.start (replaceChar '/' '\\' id.path ++ id.suffix) = id.text ↔
      Spelling.backslashes.Kept project.root id.path := by
  obtain ⟨front, tail, hpath, hfront, htail⟩ := exists_marked id.path
  rw [hpath] at h hplain
  rw [String.toList_append, List.mem_append, not_or] at hplain
  have unmarked : '#' ∉ (replaceChar '/' '\\' front).toList :=
    not_mem_replaceChar_of_not_mem hfront (by decide)
  rw [hpath, replaceChar_append, start_eq_text_iff unmarked (htail.replaceChar (by decide)),
    hpath, filePath_backslashes hplain.1 h.ne_here, String.append_right_inj,
    replaceChar_eq_self_iff (by decide), Spelling.Kept, atFirstMark_iff hfront htail]
  rcases htail with rfl | ⟨back, rfl⟩ <;> simp

/-- A root with a `#` is not left behind, so the start is longer than the text of the node. -/
theorem start_ne_of_mem_root (h : '#' ∈ project.root.toList) :
    project.start (project.root ++ "/" ++ id.path ++ id.suffix) ≠ id.text := by
  obtain ⟨front, tail, hroot, hfront, htail⟩ := exists_marked project.root
  rcases htail with rfl | ⟨back, rfl⟩
  · rw [hroot, String.append_empty] at h
    exact absurd h hfront
  · have inside : IsMarked ("#" ++ (back ++ "/" ++ id.path)) := .inr ⟨_, rfl⟩
    have written : project.root ++ "/" ++ id.path = front ++ ("#" ++ (back ++ "/" ++ id.path)) := by
      rw [hroot]
      simp only [String.append_assoc]
    rw [written, ne_eq, start_eq_text_iff hfront inside]
    intro heq
    have size := congrArg String.length heq
    have one : "/".length = 1 := by decide
    simp only [String.length_append] at size
    omega

/-- Written as an absolute path below the root, a start names its file exactly if the spelling is
one that keeps the path. -/
theorem start_absolute_iff (habs : isAbsolute project.root) (h : IsInner id.path) :
    project.start (project.root ++ "/" ++ id.path ++ id.suffix) = id.text ↔
      Spelling.absolute.Kept project.root id.path := by
  by_cases hroot : '#' ∈ project.root.toList
  · exact iff_of_false (start_ne_of_mem_root hroot) fun hkept => hkept.1 hroot
  · obtain ⟨front, tail, hpath, hfront, htail⟩ := exists_marked id.path
    rw [hpath] at h
    have unmarked : '#' ∉ (project.root ++ "/" ++ front).toList := by
      rw [String.toList_append, String.toList_append, List.mem_append, List.mem_append]
      rintro ((hmem | hmem) | hmem)
      · exact hroot hmem
      · exact absurd hmem (by decide)
      · exact hfront hmem
    rw [hpath, ← String.append_assoc, start_eq_text_iff unmarked htail, hpath,
      String.append_left_inj, filePath_below habs, Spelling.Kept, atFirstMark_iff hfront htail,
      and_iff_right hroot]
    rcases htail with rfl | ⟨back, rfl⟩
    · rw [String.append_empty] at h
      refine iff_of_true (fun p hp => (h.isName_of_mem_pieces p hp).toIsSegment) ?_
      intro back hback
      simp [← String.toList_inj] at hback
    · simp

/-- **Spelled starts.** A way to write a start names the node that is meant just if it keeps the
path of the node. -/
theorem start_spelling_iff {context : CommandContext} {place : ProjectPlace}
    {overrides : Overrides} (hload : Project.load context place overrides = .ok project)
    (id : NodeId) (h : IsInner id.path) (hplain : '\\' ∉ id.path.toList) (way : Spelling) :
    project.start (way.write project.root id.path ++ id.suffix) = id.text ↔
      way.Kept project.root id.path := by
  cases way with
  | here times => exact iff_of_true (start_here h hplain times) trivial
  | backslashes => exact start_backslashes_iff h hplain
  | absolute => exact start_absolute_iff (clean_root hload).1 h

end Project

/-! ## A file below a directory with a mark in its name -/

/-- A file system with a directory `/work`. -/
def workContext : CommandContext := ⟨⟨.directory [("work", .empty)], "/"⟩, []⟩

namespace Project

theorem exists_load_work : ∃ project,
    Project.load workContext ⟨some "/work", none⟩ ⟨none, none⟩ = .ok project ∧
      project.root = "/work" ∧
      project.start "/work/src/#weird/a.ts#default" = "src#weird/a.ts#default" := by
  have opened : (Project.load workContext ⟨some "/work", none⟩ ⟨none, none⟩).toOption.map
      (fun project => (project.root, project.start "/work/src/#weird/a.ts#default")) =
      some ("/work", "src#weird/a.ts#default") := by
    decide
  cases hload : Project.load workContext ⟨some "/work", none⟩ ⟨none, none⟩ with
  | error failure =>
    rw [hload] at opened
    cases opened
  | ok project =>
    rw [hload] at opened
    obtain ⟨hroot, hstart⟩ := Prod.mk.inj (Option.some.inj opened)
    exact ⟨project, rfl, hroot, hstart⟩

theorem kept_run (way : Spelling) : way.Kept "/work" "src/a#b.ts" := by
  have front : '#' ∉ "src/a".toList := by decide
  have mark : IsMarked "#b.ts" := .inr ⟨"b.ts", by decide⟩
  cases way with
  | here times => exact trivial
  | backslashes =>
    refine (atFirstMark_iff front mark).mpr fun back hback => ?_
    have split : "#" ++ "b.ts" = "#" ++ back := hback
    rw [← (String.append_right_inj "#").mp split]
    decide
  | absolute =>
    have names : ∀ p ∈ pieces '/' "src/a", IsName p := by decide
    refine ⟨by decide, (atFirstMark_iff front mark).mpr fun _ _ p hp => ?_⟩
    exact (names p hp).toIsSegment

/-- No way to write the file of `src/a#b.ts#run` loses its path. -/
theorem start_spelling_iff_run : ∃ project,
    Project.load workContext ⟨some "/work", none⟩ ⟨none, none⟩ = .ok project ∧
      ∀ way : Spelling, project.start (way.write "/work" "src/a#b.ts" ++ "#run") =
        "src/a#b.ts#run" := by
  obtain ⟨project, hload, hroot, -⟩ := exists_load_work
  refine ⟨project, hload, fun way => ?_⟩
  have inner : IsInner (NodeId.symbol "src/a#b.ts" "run").path :=
    ⟨["src", "a#b.ts"], by decide, by decide, by decide⟩
  have named := start_spelling_iff hload (.symbol "src/a#b.ts" "run") inner (by decide) way
  rw [hroot] at named
  exact named.mpr (kept_run way)

/-- **Starts that are lost.** Not every way to write a start names the node that is meant: cut at
its first `#`, an absolute path may lose the slash before it. -/
theorem not_start_spelling :
    ¬ ∀ (context : CommandContext) (place : ProjectPlace) (overrides : Overrides)
      (project : Project) (id : NodeId) (way : Spelling),
      Project.load context place overrides = .ok project → IsInner id.path →
      '\\' ∉ id.path.toList →
      project.start (way.write project.root id.path ++ id.suffix) = id.text := by
  intro h
  obtain ⟨project, hload, hroot, hstart⟩ := exists_load_work
  have inner : IsInner (NodeId.symbol "src/#weird/a.ts" "default").path :=
    ⟨["src", "#weird", "a.ts"], by decide, by decide, by decide⟩
  have named := h _ _ _ project (.symbol "src/#weird/a.ts" "default") .absolute hload inner
    (by decide)
  rw [hroot] at named
  exact absurd (hstart.symm.trans named) (by decide)

end Project

end CodeAtlas
