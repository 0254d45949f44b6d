import CodeAtlas.Command.Project
import CodeAtlas.Proofs.Path.Segments
import CodeAtlas.Proofs.Resolution.Packages

/-!
# The root of a project

A file system takes a path step by step. It goes down to entries that have names
(`FileTree.Named.step`), and a `..` takes back the last step. So what it calls the path of
something begins at the root and is clean, and so does the root of every opened project
(`Project.clean_root`).
-/

namespace CodeAtlas

open CodeAtlas.Text CodeAtlas.Path

variable {root path : String}

namespace FileTree

variable {tree : FileTree} {chain chain' : List (String × FileTree)}

/-- The entries of a chain have names that lead down. -/
def Named (chain : List (String × FileTree)) : Prop := ∀ e ∈ chain, IsName e.1

theorem Named.step {name : String} (hname : '/' ∉ name.toList ∧ name ≠ "")
    (hchain : Named chain) (h : tree.step chain name = .ok chain') : Named chain' := by
  unfold FileTree.step at h
  dsimp only at h
  split at h
  · obtain ⟨entries, -, h⟩ := Resolution.exists_ok_of_bind h
    cases h
    split
    · exact hchain
    · exact fun e he => hchain e (List.mem_of_mem_tail he)
  · rename_i hforth
    obtain ⟨inner, -, h⟩ := Resolution.exists_ok_of_bind h
    cases h
    rw [Bool.or_eq_true, decide_eq_true_iff, decide_eq_true_iff, not_or] at hforth
    intro e he
    rcases List.mem_cons.mp he with rfl | he
    · exact ⟨⟨hname.1, hname.2, hforth.1⟩, hforth.2⟩
    · exact hchain e he

theorem Named.foldlM {names : List String} (hnames : ∀ n ∈ names, '/' ∉ n.toList ∧ n ≠ "")
    (hchain : Named chain) (h : names.foldlM tree.step chain = .ok chain') : Named chain' := by
  induction names generalizing chain with
  | nil =>
    cases h
    exact hchain
  | cons n names ih =>
    rw [List.foldlM_cons] at h
    obtain ⟨next, hnext, h⟩ := Resolution.exists_ok_of_bind h
    exact ih (fun m hm => hnames m (List.mem_cons_of_mem n hm))
      (hchain.step (hnames n List.mem_cons_self) hnext) h

/-- Every entry on the chain of a path has a proper name: a dot stays where it is and two dots only
go back. -/
theorem named_follow (h : tree.follow path = .ok chain) : Named chain := by
  unfold follow at h
  split at h
  · cases h
  · have start : Named [] := fun e he => absurd he List.not_mem_nil
    refine Named.foldlM (fun n hn => ?_) start h
    unfold steps at hn
    dsimp only at hn
    have piece : n ∈ (pieces '/' path).filter (· != "") → '/' ∉ n.toList ∧ n ≠ "" := by
      intro hn
      rw [List.mem_filter, bne_iff_ne] at hn
      exact ⟨not_mem_of_mem_pieces hn.1, hn.2⟩
    split at hn
    · rcases List.mem_append.mp hn with hn | hn
      · exact piece hn
      · rw [List.mem_singleton.mp hn]
        decide
    · exact piece hn

end FileTree

/-- What the file system calls the path of something begins at the root and is clean. -/
theorem FileSystem.clean_of_canonical {files : FileSystem} (h : files.canonical path = .ok root) :
    isAbsolute root ∧ clean root = root := by
  unfold canonical follow at h
  split at h
  · cases h
  · cases hchain : files.tree.follow (join files.workingDirectory path) with
    | error cause =>
      rw [hchain] at h
      cases h
    | ok chain =>
      rw [hchain] at h
      cases h
      have names : ∀ n ∈ chain.reverse.map (·.1), IsName n := by
        intro n hn
        obtain ⟨e, he, rfl⟩ := List.mem_map.mp hn
        exact FileTree.named_follow hchain e (List.mem_reverse.mp he)
      exact ⟨isAbsolute_ofSegments fun n hn => (names n hn).toIsSegment, clean_ofSegments names⟩

/-- What an opened project is made of. -/
theorem Project.eq_of_load {context : CommandContext} {place : ProjectPlace}
    {overrides : Overrides} {project : Project}
    (h : Project.load context place overrides = .ok project) :
    context.files.canonical (place.root.getD ".") = .ok project.root ∧
      project.aliases = Resolution.AliasMap.mergeMissing project.settings.aliases
        (discoverAliases context.files project.root project.settings.tsconfig) := by
  unfold Project.load at h
  obtain ⟨root, hroot, h⟩ := Resolution.exists_ok_of_bind h
  have found : context.files.canonical (place.root.getD ".") = .ok root := by
    cases hcanonical : context.files.canonical (place.root.getD ".") with
    | error cause =>
      rw [hcanonical] at hroot
      cases hroot
    | ok path =>
      rw [hcanonical] at hroot
      cases hroot
      rfl
  dsimp only at h
  split at h
  · obtain ⟨settings, -, h⟩ := Resolution.exists_ok_of_bind h
    cases h
    exact ⟨found, rfl⟩
  · cases h

theorem Project.clean_root {context : CommandContext} {place : ProjectPlace}
    {overrides : Overrides} {project : Project}
    (h : Project.load context place overrides = .ok project) :
    isAbsolute project.root ∧ clean project.root = project.root :=
  FileSystem.clean_of_canonical (Project.eq_of_load h).1

end CodeAtlas
