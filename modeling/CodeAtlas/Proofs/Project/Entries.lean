import CodeAtlas.Proofs.Path.Pieces
import CodeAtlas.Proofs.Project.Names
import CodeAtlas.Proofs.Resolution.Packages
import CodeAtlas.Proofs.Text.TextMap

/-!
# Entries of a file tree

`FileTree.Leads` says what stands at the end of some names in a tree. In a proper tree, where the
entries of a directory have names of their own, at most one thing does (`Leads.unique`). If the names
are texts, a system that looks up the path of them below a directory finds it
(`FileSystem.lookUp_join`).
-/

namespace CodeAtlas

open CodeAtlas.Text CodeAtlas.Path

variable {tree inner place place' : FileTree} {entries : List (FileName × FileTree)}
  {name : FileName} {base : String} {names : List FileName}
  {chain : List (String × FileTree)} {file file' : StoredFile}

namespace Path

variable {a b c : String}

theorem join_eq_append (hb : b ≠ "") (hc : ¬ isAbsolute c) :
    join b c = b ++ (if endsWith '/' b then "" else "/") ++ c := by
  rw [join, if_neg hc, if_neg hb]
  split
  · rw [String.append_empty]
  · rfl

theorem join_ne_empty (hb : b ≠ "") : join b c ≠ "" := by
  by_cases hc : isAbsolute c
  · rw [join, if_pos hc]
    exact ne_empty_of_isAbsolute hc
  · simp [join_eq_append hb hc, hb]

/-- A relative path below a path that is itself seen from a directory. -/
theorem join_join (hb : b ≠ "") (hc : ¬ isAbsolute c) : join a (join b c) = join (join a b) c := by
  have begins : isAbsolute (join b c) = isAbsolute b := by
    rw [join_eq_append hb hc, String.append_assoc, isAbsolute_append hb]
  by_cases habs : isAbsolute b
  · have outer : ∀ {path}, isAbsolute path → join a path = path := fun h => if_pos h
    rw [outer (begins.trans habs), outer habs]
  · by_cases ha : a = ""
    · have outer : ∀ {path}, ¬ isAbsolute path → join a path = path := fun h => by
        rw [join, if_neg h, if_pos ha]
      rw [outer (begins ▸ habs), outer habs]
    · have whole : join a b ≠ "" := join_ne_empty ha
      have ends : endsWith '/' (join a b) = endsWith '/' b := by
        rw [join_eq_append ha habs, endsWith_append hb]
      rw [join_eq_append whole hc, ends, join_eq_append ha habs, join_eq_append ha (begins ▸ habs),
        join_eq_append hb hc]
      simp only [String.append_assoc]

end Path

namespace FileTree

/-- Some names lead from a tree down to a place in it. -/
inductive Leads : FileTree → List FileName → FileTree → Prop
  | here (tree : FileTree) : Leads tree [] tree
  | down {entries : List (FileName × FileTree)} {name : FileName} {inner place : FileTree}
      {names : List FileName} (mem : (name, inner) ∈ entries) (rest : Leads inner names place) :
      Leads (.directory entries) (name :: names) place

/-- Some names lead down to a file whose size the system tells. -/
def Holds (tree : FileTree) (names : List FileName) (file : StoredFile) : Prop :=
  ∃ place, tree.Leads names place ∧ place.stored? = some file

/-- All names in a tree are of one kind. -/
def AllNames (p : FileName → Prop) (tree : FileTree) : Prop :=
  ∀ names place, tree.Leads names place → ∀ n ∈ names, p n

/-- A tree as a system keeps it: names lead down, and no two entries of a directory share one. -/
structure Proper (tree : FileTree) : Prop where
  named : tree.AllNames FileName.IsProper
  distinct : ∀ names entries, tree.Leads names (.directory entries) →
    (entries.map Prod.fst).Nodup

/-- No name in a tree has a backslash. -/
abbrev Plain : FileTree → Prop := AllNames fun n => 0x5C ∉ n.bytes

/-! ## From a directory to its entries -/

theorem allNames_leaf {p : FileName → Prop} (h : ∀ entries, tree ≠ .directory entries) :
    tree.AllNames p := by
  intro names place hleads n hn
  cases hleads with
  | here => cases hn
  | down => exact absurd rfl (h _)

theorem allNames_directory_iff {p : FileName → Prop} :
    AllNames p (.directory entries) ↔ ∀ e ∈ entries, p e.1 ∧ e.2.AllNames p := by
  constructor
  · rintro h ⟨name, inner⟩ mem
    refine ⟨h [name] inner (.down mem (.here inner)) name List.mem_cons_self, ?_⟩
    intro names place hleads n hn
    exact h (name :: names) place (.down mem hleads) n (List.mem_cons_of_mem name hn)
  · rintro named _ place (_ | ⟨mem, rest⟩) n hn
    · cases hn
    · rcases List.mem_cons.mp hn with rfl | hn
      · exact (named _ mem).1
      · exact (named _ mem).2 _ place rest n hn

theorem Proper.of_mem (h : Proper (.directory entries)) (mem : (name, inner) ∈ entries) :
    inner.Proper where
  named := (allNames_directory_iff.mp h.named _ mem).2
  distinct names entries hleads := h.distinct (name :: names) entries (.down mem hleads)

theorem Proper.isProper_of_mem (h : Proper (.directory entries)) (mem : (name, inner) ∈ entries) :
    name.IsProper :=
  (allNames_directory_iff.mp h.named _ mem).1

theorem proper_leaf (h : ∀ entries, tree ≠ .directory entries) : tree.Proper where
  named := allNames_leaf h
  distinct names entries hleads := by
    cases hleads with
    | here => exact absurd rfl (h _)
    | down => exact absurd rfl (h _)

theorem proper_directory_iff : Proper (.directory entries) ↔
    (entries.map Prod.fst).Nodup ∧ ∀ e ∈ entries, e.1.IsProper ∧ e.2.Proper := by
  constructor
  · intro h
    exact ⟨h.distinct [] entries (.here _), fun e he => ⟨h.isProper_of_mem he, h.of_mem he⟩⟩
  · rintro ⟨distinct, proper⟩
    refine ⟨allNames_directory_iff.mpr fun e he => ⟨(proper e he).1, (proper e he).2.named⟩, ?_⟩
    rintro _ inner (_ | ⟨mem, rest⟩)
    · exact distinct
    · exact (proper _ mem).2.distinct _ inner rest

theorem sizeOf_lt_of_mem {e : FileName × FileTree} (he : e ∈ entries) :
    sizeOf e.2 < 1 + sizeOf entries := by
  obtain ⟨name, inner⟩ := e
  have entry := List.sizeOf_lt_of_mem he
  simp only [Prod.mk.sizeOf_spec] at entry ⊢
  omega

/-- What holds of all that has no entries, and of a directory if it holds of its entries, holds of
every tree. -/
theorem induction_entries {motive : FileTree → Prop}
    (hleaf : ∀ tree, (∀ entries, tree ≠ .directory entries) → motive tree)
    (hdirectory : ∀ entries, (∀ e ∈ entries, motive e.2) → motive (.directory entries)) :
    ∀ tree, motive tree
  | .directory entries => hdirectory entries fun e he =>
    have := sizeOf_lt_of_mem he
    induction_entries hleaf hdirectory e.2
  | .file _ => hleaf _ nofun
  | .sealedFile _ _ => hleaf _ nofun
  | .sealedDirectory _ => hleaf _ nofun
  | .other _ => hleaf _ nofun
termination_by tree => sizeOf tree

/-! ## Places in a proper tree -/

/-- A name of a directory opens the entry that is listed under it, if no two entries share a name.
-/
theorem entry_eq_ok (h : Proper (.directory entries)) (mem : (name, inner) ∈ entries) :
    (directory entries).entry name = .ok inner := by
  have found : entries.lookup name = some inner :=
    (TextMap.lookup_eq_some_iff_mem (h.distinct [] entries (.here _))).mpr mem
  have opened : (directory entries).entries = .ok entries := rfl
  simp only [entry, opened, bind, Except.bind, found]
  rfl

/-- In a tree without repeated names, a list of names leads to one place at most. -/
theorem Leads.unique (hproper : tree.Proper) (h : tree.Leads names place)
    (h' : tree.Leads names place') : place = place' := by
  induction h with
  | here tree =>
    cases h'
    rfl
  | down mem rest ih =>
    cases h' with
    | down mem' rest' =>
      have same := (entry_eq_ok hproper mem).symm.trans (entry_eq_ok hproper mem')
      cases same
      exact ih (hproper.of_mem mem) rest'

theorem Holds.unique (hproper : tree.Proper) (h : tree.Holds names file)
    (h' : tree.Holds names file') : file = file' := by
  obtain ⟨place, hleads, hfile⟩ := h
  obtain ⟨place', hleads', hfile'⟩ := h'
  rw [hleads.unique hproper hleads', hfile'] at hfile
  exact (Option.some.inj hfile).symm

/-- What is stored at an entry has the content that is read there. -/
theorem content_of_stored? (h : tree.stored? = some file) : tree.content = file.content := by
  cases tree with
  | file content =>
    cases h
    rfl
  | sealedFile size cause =>
    cases size with
    | none => cases h
    | some size =>
      cases h
      rfl
  | directory | sealedDirectory | other => cases h

theorem Holds.names_ne_nil (h : (directory entries).Holds names file) : names ≠ [] := by
  rintro rfl
  obtain ⟨place, ⟨⟩, hfile⟩ := h
  cases hfile

/-! ## Looking up places -/

section Texts

variable {names : List String}

theorem step_of_isName {name : String} (h : IsName name) (chain : List (String × FileTree)) :
    tree.step chain name = (tree.top chain).entry name >>= fun e => .ok ((name, e) :: chain) := by
  have forth : (name = "." || name = "..") = false := by simp [h.ne_dot, h.ne_dotdot]
  unfold step
  simp only [forth, Bool.false_eq_true, if_false]
  rfl

/-- The names of a place are a way of stepping to it. -/
theorem exists_foldlM_step (hproper : (tree.top chain).Proper)
    (h : (tree.top chain).Leads (names.map FileName.ofText) place) :
    ∃ chain', names.foldlM tree.step chain = .ok chain' ∧ tree.top chain' = place := by
  induction names generalizing chain with
  | nil =>
    generalize hhere : tree.top chain = here at h
    cases h
    exact ⟨chain, rfl, hhere⟩
  | cons name names ih =>
    generalize hhere : tree.top chain = here at hproper h
    cases h with
    | @down entries _ inner _ _ mem rest =>
      have proper := (hproper.isProper_of_mem mem).isName_text
      rw [FileName.text_ofText] at proper
      have step : tree.step chain name = .ok ((name, inner) :: chain) := by
        rw [step_of_isName proper, hhere, entry_eq_ok hproper mem]
        rfl
      rw [List.foldlM_cons, step]
      exact ih (hproper.of_mem mem) rest

theorem filter_pieces_names (hne : names ≠ []) (h : ∀ n ∈ names, IsName n) :
    (pieces '/' ("/".intercalate names)).filter (· != "") = names := by
  rw [pieces_intercalate hne fun n hn => (h n hn).whole, List.filter_eq_self]
  intro n hn
  simp [(h n hn).ne_empty]

theorem not_endsWith_intercalate (hne : names ≠ []) (h : ∀ n ∈ names, IsName n) :
    ¬ endsWith '/' ("/".intercalate names) := by
  intro hend
  obtain ⟨front, hfront⟩ := exists_eq_append_of_endsWith hend
  have split : pieces '/' ("/".intercalate names) = pieces '/' front ++ [""] := by
    rw [hfront, ← String.append_empty (s := front ++ "/"), pieces_slash]
    rfl
  have empty : "" ∈ names := by
    rw [← pieces_intercalate hne fun n hn => (h n hn).whole, split]
    exact List.mem_append_right _ List.mem_cons_self
  exact (h "" empty).ne_empty rfl

/-- The steps of a path below a directory come after those of the directory; a slash at the end of
its path is left out. -/
theorem exists_steps_join (hbase : base ≠ "") (hne : names ≠ []) (h : ∀ n ∈ names, IsName n) :
    ∃ front, (steps base = front ∨ steps base = front ++ ["."]) ∧
      steps (join base ("/".intercalate names)) = front ++ names := by
  have inner : IsInner ("/".intercalate names) := ⟨names, hne, h, rfl⟩
  have last : endsWith '/' (base ++ "/" ++ "/".intercalate names) = false := by
    rw [endsWith_append inner.ne_empty]
    exact Bool.eq_false_iff.mpr (not_endsWith_intercalate hne h)
  unfold join
  rw [if_neg inner.not_isAbsolute, if_neg hbase]
  by_cases hend : endsWith '/' base
  · obtain ⟨front, rfl⟩ := exists_eq_append_of_endsWith hend
    rw [endsWith_append inner.ne_empty] at last
    have directory : pieces '/' (front ++ "/") = pieces '/' front ++ [""] := by
      rw [← String.append_empty (s := front ++ "/"), pieces_slash]
      rfl
    refine ⟨(pieces '/' front).filter (· != ""), .inr ?_, ?_⟩
    · rw [steps, if_pos hend, directory, List.filter_append]
      simp
    · rw [if_pos hend, steps, endsWith_append inner.ne_empty, last, if_neg Bool.false_ne_true,
        pieces_slash, List.filter_append, filter_pieces_names hne h]
  · refine ⟨steps base, .inl rfl, ?_⟩
    rw [if_neg hend, steps, last, if_neg Bool.false_ne_true, pieces_slash, List.filter_append,
      filter_pieces_names hne h, steps, if_neg hend]

theorem step_here {before : List (String × FileTree)} (h : tree.step before "." = .ok chain) :
    before = chain := by
  unfold step at h
  dsimp only at h
  rw [if_pos (by decide)] at h
  obtain ⟨entries, -, h⟩ := Resolution.exists_ok_of_bind h
  cases h
  rfl

/-- The joined path of names leads where the names lead step by step. A name that contains no slash
and is no dot survives joining and splitting. -/
theorem follow_join (hfollow : tree.follow base = .ok chain) (hne : names ≠ [])
    (h : ∀ n ∈ names, IsName n) :
    tree.follow (join base ("/".intercalate names)) = names.foldlM tree.step chain := by
  unfold follow at hfollow
  split at hfollow
  · cases hfollow
  · rename_i hbase
    obtain ⟨front, hsteps, hjoin⟩ := exists_steps_join hbase hne h
    have walked : front.foldlM tree.step [] = .ok chain := by
      rcases hsteps with heq | heq
      · rw [← heq]
        exact hfollow
      · rw [heq, List.foldlM_append] at hfollow
        obtain ⟨before, hbefore, hlast⟩ := Resolution.exists_ok_of_bind hfollow
        rw [List.foldlM_cons] at hlast
        obtain ⟨after, hafter, hlast⟩ := Resolution.exists_ok_of_bind hlast
        cases hlast
        rw [hbefore, step_here hafter]
    have nonempty : join base ("/".intercalate names) ≠ "" := by
      intro hempty
      rw [hempty] at hjoin
      have none : steps "" = [] := by decide
      rw [none] at hjoin
      exact hne (List.append_eq_nil_iff.mp hjoin.symm).2
    rw [follow, if_neg nonempty, hjoin, List.foldlM_append, walked]
    rfl

end Texts

end FileTree

/-! ## In a file system -/

namespace FileSystem

variable {files : FileSystem} {root : String}

/-- What stands below a directory is found under the path that its names make, if they are texts. -/
theorem lookUp_join {names : List String} (hroot : files.lookUp root = .ok tree)
    (hproper : tree.Proper) (hplace : tree.Leads (names.map FileName.ofText) place) (hne : names ≠ []) :
    files.lookUp (join root ("/".intercalate names)) = .ok place := by
  have proper : ∀ n ∈ names, IsName n := by
    intro n hn
    have name := (hproper.named _ _ hplace _ (List.mem_map_of_mem hn)).isName_text
    rwa [FileName.text_ofText] at name
  have inner : IsInner ("/".intercalate names) := ⟨names, hne, proper, rfl⟩
  unfold lookUp follow at hroot
  split at hroot
  · cases hroot
  · rename_i hne_root
    cases hchain : files.tree.follow (join files.workingDirectory root) with
    | error cause =>
      rw [hchain] at hroot
      cases hroot
    | ok chain =>
      rw [hchain] at hroot
      cases hroot
      have nonempty : join root ("/".intercalate names) ≠ "" := join_ne_empty hne_root
      obtain ⟨chain', hsteps, hfound⟩ := FileTree.exists_foldlM_step hproper hplace
      rw [lookUp, follow, if_neg nonempty, join_join hne_root inner.not_isAbsolute,
        FileTree.follow_join hchain hne proper, hsteps]
      exact congrArg Except.ok hfound

/-- Reading at the path of a file whose names are texts yields what the file holds. -/
theorem read_pathText {names : List FileName} {file : StoredFile}
    (hroot : files.lookUp root = .ok tree) (hproper : tree.Proper) (hfile : tree.Holds names file)
    (hne : names ≠ []) (htext : ∀ n ∈ names, n.IsText) :
    files.read (join root (pathText names)) = file.content := by
  obtain ⟨place, hleads, hstored⟩ := hfile
  rw [← map_ofText_text htext] at hleads
  rw [read, pathText, lookUp_join hroot hproper hleads (by simpa using hne)]
  exact FileTree.content_of_stored? hstored

end FileSystem

end CodeAtlas
