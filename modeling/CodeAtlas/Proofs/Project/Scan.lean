import CodeAtlas.Project.Scan
import CodeAtlas.Proofs.Ignore.Marked
import CodeAtlas.Proofs.Path.Recleaning
import CodeAtlas.Proofs.Project.Entries
import CodeAtlas.Proofs.Source.Keys

/-!
# The files of a project

A walk through a tree finds the files that nothing on the way to them passes over (`mem_filesAt`).
What ignore files and the names of directories have to say (`Admits`) does not depend on the
patterns of the project, and what the patterns exclude does not depend on ignore files. So an index
holds under each key the one file that the key leads to (`get?_scan`), and more patterns take files
away and add none (`scan_exact`).
-/

namespace CodeAtlas

open CodeAtlas.Ignore CodeAtlas.Path CodeAtlas.Text

variable {files : FileSystem} {root key : String} {patterns : List String} {index : FileIndex}
  {tree inner : FileTree} {entries : List (FileName × FileTree)} {user : UserRules}
  {levels : List RuleLevel} {base names path : List FileName} {name : FileName} {file : StoredFile}

/-! ## What patterns exclude -/

/-- Something that names lead to on the way to the last of them, which is a file. -/
def OnTheWay (p : List FileName → Bool → Prop) (names : List FileName) : Prop :=
  ∃ front name back, names = front ++ name :: back ∧ p (front ++ [name]) (!back.isEmpty)

theorem not_onTheWay_nil (p : List FileName → Bool → Prop) : ¬ OnTheWay p [] := by
  rintro ⟨front, name, back, heq, -⟩
  exact List.append_ne_nil_of_right_ne_nil front (List.cons_ne_nil name back) heq.symm

theorem onTheWay_cons_iff {p : List FileName → Bool → Prop} : OnTheWay p (name :: names) ↔
    p [name] (!names.isEmpty) ∨ OnTheWay (fun path => p (name :: path)) names := by
  constructor
  · rintro ⟨_ | ⟨first, front⟩, last, back, heq, hp⟩
    · cases heq
      exact .inl hp
    · cases heq
      exact .inr ⟨front, last, back, rfl, hp⟩
  · rintro (hp | ⟨front, last, back, rfl, hp⟩)
    · exact ⟨[], name, names, rfl, hp⟩
    · exact ⟨name :: front, last, back, rfl, hp⟩

/-- The lines that the patterns make with a mark include what some names lead to below the root. -/
def Covered (patterns : List String) (names : List FileName) (isDirectory : Bool) : Prop :=
  Rule.verdict (marked patterns) (namesBytes names) isDirectory = some .included

/-- One of the patterns covers a file or a directory on the way to it. -/
def Excluded (patterns : List String) (names : List FileName) : Prop :=
  OnTheWay (Covered patterns) names

theorem Excluded.mono {more : List String} (hsub : ∀ pattern ∈ patterns, pattern ∈ more)
    (h : Excluded patterns names) : Excluded more names := by
  obtain ⟨front, name, back, heq, hcovered⟩ := h
  obtain ⟨rule, hrule, hcovers⟩ := verdict_marked_eq_included_iff.mp hcovered
  obtain ⟨pattern, hpattern, hread⟩ := mem_marked_iff.mp hrule
  have hrule' := mem_marked_iff.mpr ⟨pattern, hsub pattern hpattern, hread⟩
  exact ⟨front, name, back, heq, verdict_marked_eq_included_iff.mpr ⟨rule, hrule', hcovers⟩⟩

namespace Exclusions

variable {x : Exclusions} {depth : Nat}

/-- The rules of the exclusions are those of the patterns. -/
theorem mem_rules_iff (h : ofPatterns user depth patterns = .ok x) {rule : Rule} :
    rule ∈ x.rules ↔ ∃ pattern ∈ patterns, Rule.ofPattern pattern = .ok rule := by
  obtain ⟨rules, hrules, h⟩ := Resolution.exists_ok_of_bind h
  cases h
  have mem : (Except.ok rule : Except Fault Rule) ∈ rules.map .ok ↔ rule ∈ rules := by simp
  rw [← mem, ← Resolution.map_eq_map_ok hrules, List.mem_map]
  simp only [Resolution.mapError_eq_ok_iff]

theorem depth_eq (h : ofPatterns user depth patterns = .ok x) : x.depth = depth := by
  obtain ⟨rules, -, h⟩ := Resolution.exists_ok_of_bind h
  cases h
  rfl

theorem user_eq (h : ofPatterns user depth patterns = .ok x) : x.user = user := by
  obtain ⟨rules, -, h⟩ := Resolution.exists_ok_of_bind h
  cases h
  rfl

/-- Patterns are accepted if each of them is well formed. -/
theorem exists_ofPatterns_iff : (∃ x, ofPatterns user depth patterns = .ok x) ↔
    ∀ pattern ∈ patterns, ∃ rule, Rule.ofPattern pattern = .ok rule := by
  constructor
  · rintro ⟨x, h⟩ pattern hpattern
    obtain ⟨rules, hrules, -⟩ := Resolution.exists_ok_of_bind h
    have read := List.mem_map_of_mem hpattern (f := fun pattern =>
      (Rule.ofPattern pattern).mapError fun fault => (pattern, fault))
    rw [Resolution.map_eq_map_ok hrules, List.mem_map] at read
    obtain ⟨rule, -, hrule⟩ := read
    exact ⟨rule, Resolution.mapError_eq_ok_iff.mp hrule.symm⟩
  · intro h
    cases hrules : patterns.mapM (fun pattern =>
        (Rule.ofPattern pattern).mapError fun fault => (pattern, fault)) with
    | error fault =>
      obtain ⟨pattern, hpattern, hfault⟩ := Resolution.exists_error_of_mapM hrules
      obtain ⟨rule, hrule⟩ := h pattern hpattern
      rw [Resolution.mapError_eq_ok_iff.mpr hrule] at hfault
      cases hfault
    | ok rules => exact ⟨⟨depth, rules, user⟩, by rw [ofPatterns, hrules]; rfl⟩

/-- Patterns cover names below the root, whatever the names above it are. -/
theorem cover_iff (h : ofPatterns user depth patterns = .ok x) (hbase : base.length = depth)
    (names : List FileName) (isDirectory : Bool) :
    x.cover (base ++ names) isDirectory ↔ Covered patterns names isDirectory := by
  rw [cover, depth_eq h, ← hbase, List.drop_left, List.any_eq_true, Covered,
    verdict_marked_eq_included_iff]
  constructor
  · rintro ⟨rule, hrule, hcovers⟩
    obtain ⟨pattern, hpattern, hread⟩ := (mem_rules_iff h).mp hrule
    exact ⟨_, mem_marked_iff.mpr ⟨pattern, hpattern, Rule.ofLine?_marked hread⟩, hcovers⟩
  · rintro ⟨marked, hmarked, hcovers⟩
    obtain ⟨pattern, hpattern, hline⟩ := mem_marked_iff.mp hmarked
    obtain ⟨rule, hread⟩ := exists_ofPatterns_iff.mp ⟨x, h⟩ pattern hpattern
    cases (Rule.ofLine?_marked hread).symm.trans hline
    exact ⟨rule, (mem_rules_iff h).mpr ⟨pattern, hpattern, hread⟩, hcovers⟩

theorem skips_eq_false_iff {isDirectory : Bool} : x.skips levels names name isDirectory = false ↔
    ¬ x.cover names isDirectory ∧ x.verdict levels names isDirectory ≠ some .ignored ∧
      (isDirectory → name ∉ skippedDirectories.map FileName.ofText) := by
  simp [skips, and_assoc]

end Exclusions

/-! ## What ignore files, users and directories keep out -/

/-- Some names lead to a file, and neither a rule of an ignore file or of the user nor the name of a
directory on the way keeps it out. The rules of `levels` hold in the tree, and `base` leads to it. -/
inductive Admits (user : UserRules) :
    List RuleLevel → List FileName → FileTree → List FileName → StoredFile → Prop
  | file {levels : List RuleLevel} {base : List FileName} {tree : FileTree} {file : StoredFile}
      (stored : tree.stored? = some file) : Admits user levels base tree [] file
  | entry {levels : List RuleLevel} {base : List FileName} {entries : List (FileName × FileTree)}
      {name : FileName} {inner : FileTree} {names : List FileName} {file : StoredFile}
      (mem : (name, inner) ∈ entries)
      (heard : (RuleLevel.verdict (.ofTree base.length (.directory entries) :: levels)
        (base ++ [name]) inner.isDirectory).or (user (base ++ [name]) inner.isDirectory) ≠
          some .ignored)
      (entered : inner.isDirectory → name ∉ skippedDirectories.map FileName.ofText)
      (rest : Admits user (.ofTree base.length (.directory entries) :: levels) (base ++ [name])
        inner names file) :
      Admits user levels base (.directory entries) (name :: names) file

theorem isDirectory_of_stored? (h : tree.stored? = some file) : tree.isDirectory = false := by
  cases tree with
  | file | sealedFile | other => rfl
  | directory | sealedDirectory => cases h

namespace Admits

theorem holds (h : Admits user levels base tree names file) : tree.Holds names file := by
  induction h with
  | file stored => exact ⟨_, .here _, stored⟩
  | entry mem heard entered rest ih =>
    obtain ⟨place, hleads, stored⟩ := ih
    exact ⟨place, .down mem hleads, stored⟩

theorem isDirectory_eq (h : Admits user levels base tree names file) :
    tree.isDirectory = !names.isEmpty := by
  cases h with
  | file stored => exact isDirectory_of_stored? stored
  | entry => rfl

theorem not_mem_skippedDirectories (h : Admits user levels base tree names file) :
    ∀ n ∈ names.dropLast, n ∉ skippedDirectories.map FileName.ofText := by
  induction h with
  | file => exact fun n hn => absurd hn List.not_mem_nil
  | @entry levels base entries name inner names file mem heard entered rest ih =>
    intro n hn
    cases names with
    | nil => cases hn
    | cons next names =>
      rcases List.mem_cons.mp hn with rfl | hn
      · exact entered rest.isDirectory_eq
      · exact ih n hn

end Admits

/-! ## The walk -/

namespace Exclusions

variable {x : Exclusions}

theorem mem_filesAmong {found : List FileName × StoredFile} :
    found ∈ x.filesAmong levels base entries ↔
      ∃ name inner, (name, inner) ∈ entries ∧
        x.skips levels (base ++ [name]) name inner.isDirectory = false ∧
        found ∈ x.filesAt levels (base ++ [name]) inner := by
  induction entries with
  | nil => simp [filesAmong]
  | cons e entries ih =>
    obtain ⟨name, inner⟩ := e
    rw [filesAmong, List.mem_append, ih]
    constructor
    · rintro (hfound | ⟨name', inner', mem, hfound⟩)
      · split at hfound
        · cases hfound
        · rename_i hskip
          exact ⟨name, inner, List.mem_cons_self, Bool.eq_false_iff.mpr hskip, hfound⟩
      · exact ⟨name', inner', List.mem_cons_of_mem _ mem, hfound⟩
    · rintro ⟨name', inner', mem, hskip, hfound⟩
      rcases List.mem_cons.mp mem with heq | mem
      · cases heq
        rw [hskip]
        exact .inl hfound
      · exact .inr ⟨name', inner', mem, hskip, hfound⟩

theorem filesAt_leaf (h : ∀ entries, tree ≠ .directory entries) :
    x.filesAt levels base tree = tree.stored?.toList.map fun file => (base, file) := by
  cases tree with
  | directory entries => exact absurd rfl (h entries)
  | file | sealedFile | sealedDirectory | other => simp only [filesAt]

/-- A walk finds the files that are admitted, unless something on the way to them is excluded. -/
theorem mem_filesAt (tree : FileTree) (levels : List RuleLevel) (base path : List FileName)
    (file : StoredFile) :
    (path, file) ∈ x.filesAt levels base tree ↔
      ∃ names, path = base ++ names ∧ Admits x.user levels base tree names file ∧
        ¬ OnTheWay (fun names isDirectory => x.cover (base ++ names) isDirectory) names := by
  induction tree using FileTree.induction_entries generalizing levels base with
  | hleaf tree leaf =>
    rw [filesAt_leaf leaf, List.mem_map]
    constructor
    · rintro ⟨found, hfound, heq⟩
      cases heq
      have stored := Option.mem_toList.mp hfound
      exact ⟨[], (List.append_nil _).symm, .file stored, not_onTheWay_nil _⟩
    · rintro ⟨names, rfl, admits, -⟩
      cases admits with
      | file stored => exact ⟨file, Option.mem_toList.mpr stored, by rw [List.append_nil]⟩
      | entry => exact absurd rfl (leaf _)
  | hdirectory entries ih =>
    rw [filesAt, mem_filesAmong]
    constructor
    · rintro ⟨name, inner, mem, hskip, hfound⟩
      obtain ⟨names, rfl, admits, uncovered⟩ := (ih _ mem _ _).mp hfound
      obtain ⟨hcover, heard, entered⟩ := skips_eq_false_iff.mp hskip
      refine ⟨name :: names, by simp, .entry mem heard entered admits, ?_⟩
      rw [onTheWay_cons_iff, not_or, ← admits.isDirectory_eq]
      exact ⟨hcover, by simpa using uncovered⟩
    · rintro ⟨_, rfl, admits, uncovered⟩
      cases admits with
      | file stored => cases stored
      | @entry _ _ _ name inner names _ mem heard entered rest =>
        rw [onTheWay_cons_iff, not_or, ← rest.isDirectory_eq] at uncovered
        refine ⟨name, inner, mem, skips_eq_false_iff.mpr ⟨uncovered.1, heard, entered⟩, ?_⟩
        exact (ih _ mem _ _).mpr ⟨names, by simp, rest, by simpa using uncovered.2⟩

end Exclusions

/-! ## The index of a project -/

/-- `Admits` for names below the root of a project. -/
def FileSystem.Admits (files : FileSystem) (user : UserRules) (root : String)
    (names : List FileName) (file : StoredFile) : Prop :=
  ∃ chain, files.follow root = .ok chain ∧
    CodeAtlas.Admits user (levelsAbove files.tree chain) (chain.reverse.map fun e => .ofText e.1)
      (files.tree.top chain) names file

/-- The source that an index has for a file with a given path below the root. -/
def sourceOf (root inside : String) (file : StoredFile) : Source :=
  .ofFile (join root inside) file.size file.content

/-- What an index holds of a file that a walk has found. -/
def indexed (root : String) (depth : Nat) (found : List FileName × StoredFile) : String × Source :=
  (pathText (found.1.drop depth), sourceOf root (pathText (found.1.drop depth)) found.2)

theorem size_sourceOf (root inside : String) (file : StoredFile) :
    (sourceOf root inside file).size = file.size := by
  unfold sourceOf Source.ofFile
  cases file.content <;> rfl

/-- What the scan indexes, seen from the root: the admitted files that no pattern excludes, each
under the text of its names. -/
theorem mem_map_indexed {x : Exclusions} {chain : List (String × FileTree)}
    (hchain : files.follow root = .ok chain) (htop : files.tree.top chain = .directory entries)
    (hx : Exclusions.ofPatterns user chain.length patterns = .ok x) (found : String × Source) :
    found ∈ (x.filesAt (levelsAbove files.tree chain) (chain.reverse.map fun e => .ofText e.1)
        (.directory entries)).map (indexed root x.depth) ↔
      ∃ names file, files.Admits user root names file ∧ ¬ Excluded patterns names ∧
        found = (pathText names, sourceOf root (pathText names) file) := by
  have length : (chain.reverse.map fun e => FileName.ofText e.1).length = chain.length := by simp
  have drop : ∀ names, ((chain.reverse.map fun e => FileName.ofText e.1) ++ names).drop x.depth =
      names := by
    intro names
    rw [Exclusions.depth_eq hx, ← length, List.drop_left]
  have admits : ∀ names file, files.Admits user root names file ↔
      Admits x.user (levelsAbove files.tree chain) (chain.reverse.map fun e => .ofText e.1)
        (.directory entries) names file := by
    intro names file
    rw [Exclusions.user_eq hx]
    constructor
    · rintro ⟨chain', hchain', h⟩
      cases hchain.symm.trans hchain'
      exact htop ▸ h
    · exact fun h => ⟨chain, hchain, htop.symm ▸ h⟩
  rw [List.mem_map]
  constructor
  · rintro ⟨⟨path, file⟩, hfound, rfl⟩
    obtain ⟨names, rfl, h, uncovered⟩ := (Exclusions.mem_filesAt _ _ _ _ _).mp hfound
    simp only [Exclusions.cover_iff hx length] at uncovered
    exact ⟨names, file, (admits names file).mpr h, uncovered, by rw [indexed, drop]⟩
  · rintro ⟨names, file, h, hexcluded, rfl⟩
    refine ⟨((chain.reverse.map fun e => .ofText e.1) ++ names, file), ?_, by rw [indexed, drop]⟩
    refine (Exclusions.mem_filesAt _ _ _ _ _).mpr ⟨names, rfl, (admits names file).mp h, ?_⟩
    simp only [Exclusions.cover_iff hx length]
    exact hexcluded

/-- The path of a file below the root is its own key. -/
theorem indexPath_pathText (hproper : (FileTree.directory entries).Proper)
    (hplain : (FileTree.directory entries).Plain)
    (h : (FileTree.directory entries).Holds names file) :
    IsInner (pathText names) ∧ '\\' ∉ (pathText names).toList ∧
      indexPath (pathText names) = pathText names := by
  obtain ⟨place, leads, -⟩ := id h
  have inner := isInner_pathText h.names_ne_nil (hproper.named _ _ leads)
  have plain : '\\' ∉ (pathText names).toList := by
    intro hmem
    rcases mem_intercalate_slash hmem with heq | ⟨name, hname, hmem⟩
    · cases heq
    · obtain ⟨n, hn, rfl⟩ := List.mem_map.mp hname
      exact FileName.not_mem_text (hplain _ _ leads n hn) hmem
  refine ⟨inner, plain, indexPath_eq_self_iff.mpr ⟨plain, ?_⟩⟩
  rintro ⟨rest, heq⟩
  exact ne_here_of_pieces (fun hdot => (inner.isName_of_mem_pieces _ hdot).ne_dot rfl) rest heq

section Index

variable (hroot : files.lookUp root = .ok (.directory entries))
  (hproper : (FileTree.directory entries).Proper) (hplain : (FileTree.directory entries).Plain)

include hroot

theorem exists_chain : ∃ chain, files.follow root = .ok chain ∧
    files.tree.top chain = .directory entries := by
  unfold FileSystem.lookUp at hroot
  cases hchain : files.follow root with
  | error cause =>
    rw [hchain] at hroot
    cases hroot
  | ok chain =>
    rw [hchain] at hroot
    exact ⟨chain, rfl, Except.ok.inj hroot⟩

theorem FileSystem.Admits.exists_admits (h : files.Admits user root names file) :
    ∃ levels base, CodeAtlas.Admits user levels base (.directory entries) names file := by
  obtain ⟨chain, hchain, htop⟩ := exists_chain hroot
  obtain ⟨chain', hchain', admits⟩ := h
  cases hchain.symm.trans hchain'
  exact ⟨_, _, htop ▸ admits⟩

theorem FileSystem.Admits.holds (h : files.Admits user root names file) :
    (FileTree.directory entries).Holds names file := by
  obtain ⟨levels, base, admits⟩ := h.exists_admits hroot
  exact admits.holds

theorem exists_scan_eq (user : UserRules) : ∃ chain, files.follow root = .ok chain ∧
    files.tree.top chain = .directory entries ∧ ∀ patterns, scan files root patterns user =
      (Exclusions.ofPatterns user chain.length patterns).map fun x => .ofList <|
        (x.filesAt (levelsAbove files.tree chain) (chain.reverse.map fun e => .ofText e.1)
          (.directory entries)).map (indexed root x.depth) := by
  obtain ⟨chain, hchain, htop⟩ := exists_chain hroot
  refine ⟨chain, hchain, htop, fun patterns => ?_⟩
  unfold scan
  rw [hroot, hchain]
  change (Exclusions.ofPatterns user chain.length patterns >>= _) = _
  cases Exclusions.ofPatterns user chain.length patterns <;> rfl

/-- A scan fails only by a pattern that makes no rule. Nothing in the tree can fail it. -/
theorem exists_scan_iff : (∃ index, scan files root patterns user = .ok index) ↔
    ∀ pattern ∈ patterns, ∃ rule, Rule.ofPattern pattern = .ok rule := by
  obtain ⟨chain, -, -, heq⟩ := exists_scan_eq hroot user
  have accepted : (∃ x, Exclusions.ofPatterns user chain.length patterns = .ok x) ↔ _ :=
    Exclusions.exists_ofPatterns_iff
  rw [← accepted, heq]
  cases Exclusions.ofPatterns user chain.length patterns with
  | error fault => exact iff_of_false nofun nofun
  | ok x => exact iff_of_true ⟨_, rfl⟩ ⟨x, rfl⟩

include hproper hplain

/-- What an index holds comes from a file that is admitted and not excluded, under the path of its
names. -/
theorem exists_file_of_get?_scan (h : scan files root patterns user = .ok index) {e : FileEntry}
    (hget : index.get? key = some e) :
    ∃ names file, files.Admits user root names file ∧ ¬ Excluded patterns names ∧
      pathText names = key ∧ e = ⟨key, sourceOf root key file⟩ := by
  obtain ⟨chain, hchain, htop, heq⟩ := exists_scan_eq hroot user
  rw [heq] at h
  obtain ⟨x, hx, rfl⟩ := Resolution.exists_ok_of_map h
  obtain ⟨found, hfound, hkey, rfl⟩ := FileIndex.exists_file_of_get? hget
  obtain ⟨names, file, admits, hexcluded, rfl⟩ := (mem_map_indexed hchain htop hx found).mp hfound
  obtain rfl := (indexPath_pathText hproper hplain (admits.holds hroot)).2.2.symm.trans hkey
  exact ⟨names, file, admits, hexcluded, rfl, rfl⟩

theorem exists_get?_scan (h : scan files root patterns user = .ok index)
    (admits : files.Admits user root names file) (hexcluded : ¬ Excluded patterns names) :
    ∃ e, index.get? (pathText names) = some e := by
  obtain ⟨chain, hchain, htop, heq⟩ := exists_scan_eq hroot user
  rw [heq] at h
  obtain ⟨x, hx, rfl⟩ := Resolution.exists_ok_of_map h
  have found := (mem_map_indexed hchain htop hx _).mpr ⟨names, file, admits, hexcluded, rfl⟩
  have own := (indexPath_pathText hproper hplain (admits.holds hroot)).2.2
  exact FileIndex.mem_paths_iff.mp (FileIndex.mem_paths_of_mem found own)

end Index

/-! ## Files with a path of their own -/

/-- Every file with a path has names that are texts, so that the path tells them. -/
def FileTree.Legible (tree : FileTree) (key : String) : Prop :=
  ∀ names file, tree.Holds names file → pathText names = key → ∀ n ∈ names, n.IsText

namespace FileTree.Legible

variable {names' : List FileName} {file' : StoredFile}

/-- A path is legible where all names are texts, and where no replacement stands in it. -/
theorem of_text (hproper : tree.Proper) (h : tree.AllNames FileName.IsText ∨ replacement ∉ key.toList) :
    tree.Legible key := by
  rintro names file ⟨place, leads, -⟩ rfl
  rcases h with htext | hkey
  · exact htext names place leads
  · exact isText_of_pathText (hproper.named names place leads) hkey

/-- Under a legible key there is one file at most: the names can be read off the key. -/
theorem unique (h : tree.Legible key) (hproper : tree.Proper) (hfile : tree.Holds names file)
    (hfile' : tree.Holds names' file') (hkey : pathText names = key) (hkey' : pathText names' = key) :
    names = names' := by
  obtain ⟨place, leads, -⟩ := id hfile
  obtain ⟨place', leads', -⟩ := id hfile'
  exact names_unique (hproper.named _ _ leads) (hproper.named _ _ leads') (h _ _ hfile hkey)
    (h _ _ hfile' hkey') (hkey.trans hkey'.symm)

end FileTree.Legible

/-- Under a legible key an index holds the file with this path, if it is admitted and not excluded. -/
theorem get?_scan_iff (hroot : files.lookUp root = .ok (.directory entries))
    (hproper : (FileTree.directory entries).Proper) (hplain : (FileTree.directory entries).Plain)
    (h : scan files root patterns user = .ok index)
    (legible : (FileTree.directory entries).Legible key) {e : FileEntry} :
    index.get? key = some e ↔ ∃ names file, files.Admits user root names file ∧
      ¬ Excluded patterns names ∧ pathText names = key ∧ e = ⟨key, sourceOf root key file⟩ := by
  constructor
  · exact exists_file_of_get?_scan hroot hproper hplain h
  · rintro ⟨names, file, admits, hexcluded, rfl, rfl⟩
    obtain ⟨e', he'⟩ := exists_get?_scan hroot hproper hplain h admits hexcluded
    obtain ⟨names', file', admits', -, hkey, rfl⟩ :=
      exists_file_of_get?_scan hroot hproper hplain h he'
    have holds := admits.holds hroot
    have holds' := admits'.holds hroot
    obtain rfl := legible.unique hproper holds' holds hkey rfl
    rw [he', holds.unique hproper holds']

theorem FileTree.Legible.ofText_segments (hproper : tree.Proper) (legible : tree.Legible key)
    (h : tree.Holds names file) (hkey : pathText names = key) :
    (segments key).map FileName.ofText = names := by
  obtain ⟨place, leads, -⟩ := id h
  rw [← hkey, ofText_segments_pathText (hproper.named _ _ leads) (legible _ _ h hkey)]

/-- `e` is what an index of the project at `root` should hold under `key`: the key is clean, it is the
path of a file below the root whose size and content are those of `e`, and no directory on the way is
one of those that are never entered. A legible key is the path of one file only, and the file can be
read there. -/
structure IsFileUnder (files : FileSystem) (root : String) (tree : FileTree) (key : String)
    (e : FileEntry) : Prop where
  path : e.path = key
  inner : IsInner key
  clean : clean key = key
  plain : '\\' ∉ key.toList
  entered : ∀ name ∈ (segments key).dropLast, name ∉ skippedDirectories
  file : ∃ names file, tree.Holds names file ∧ pathText names = key ∧ e.size = file.size ∧
    e.source = sourceOf root key file
  unique : tree.Legible key → ∃! names, pathText names = key ∧ ∃ file, tree.Holds names file ∧
    files.read (join root key) = file.content ∧ e.size = file.size

theorem isFileUnder_of_get? (hroot : files.lookUp root = .ok (.directory entries))
    (hproper : (FileTree.directory entries).Proper) (hplain : (FileTree.directory entries).Plain)
    (h : scan files root patterns user = .ok index) {e : FileEntry} (hget : index.get? key = some e) :
    IsFileUnder files root (.directory entries) key e := by
  obtain ⟨names, file, admits, -, rfl, rfl⟩ := exists_file_of_get?_scan hroot hproper hplain h hget
  have holds := admits.holds hroot
  obtain ⟨place, leads, -⟩ := id holds
  have proper := hproper.named _ _ leads
  obtain ⟨inner, plain, -⟩ := indexPath_pathText hproper hplain holds
  have size := size_sourceOf root (pathText names) file
  constructor
  · rfl
  · exact inner
  · exact inner.clean_eq
  · exact plain
  · rw [segments_pathText proper, ← List.map_dropLast]
    intro name hname
    obtain ⟨n, hn, rfl⟩ := List.mem_map.mp hname
    obtain ⟨levels, base, admits⟩ := admits.exists_admits hroot
    exact FileName.text_not_mem_skippedDirectories (admits.not_mem_skippedDirectories n hn)
  · exact ⟨names, file, holds, rfl, size, rfl⟩
  · intro legible
    have read := FileSystem.read_pathText hroot hproper holds holds.names_ne_nil
      (legible _ _ holds rfl)
    refine ⟨names, ⟨rfl, file, holds, read, size⟩, ?_⟩
    rintro names' ⟨hkey, file', holds', -⟩
    exact legible.unique hproper holds' holds hkey rfl

/-- **Scanning is exact, and patterns only take away.** Patterns are accepted if each is well formed,
and the lines that they make with a mark never ignore anything. An index has a key for each path of a
file that neither a rule of an ignore file or of the user, nor a directory that is never entered, nor
a pattern keeps out, and no other keys; each key is clean and leads to such a file. More patterns,
whatever they begin with, add no key.

The text of a path may be that of several files, if their names are no UTF-8; of these an index holds
one. Everywhere else distinct files have distinct keys, and with more patterns an index holds the same
files but for those that the patterns cover, or that lie below a directory which they cover. -/
theorem scan_exact (hroot : files.lookUp root = .ok (.directory entries))
    (hproper : (FileTree.directory entries).Proper) (hplain : (FileTree.directory entries).Plain)
    (user : UserRules) :
    (∀ patterns, (∃ index, scan files root patterns user = .ok index) ↔
      ∀ pattern ∈ patterns, ∃ rule, Rule.ofPattern pattern = .ok rule) ∧
    (∀ patterns path isDirectory, Rule.verdict (marked patterns) path isDirectory ≠ some .ignored) ∧
    (∀ key, ((FileTree.directory entries).AllNames FileName.IsText ∨ replacement ∉ key.toList) →
      (FileTree.directory entries).Legible key) ∧
    (∀ names names' file file', (FileTree.directory entries).Holds names file →
      (FileTree.directory entries).Holds names' file' → pathText names = pathText names' →
      (FileTree.directory entries).Legible (pathText names) → names = names') ∧
    (∀ patterns index, scan files root patterns user = .ok index →
      (∀ key, (∃ e, index.get? key = some e) ↔ ∃ names file, files.Admits user root names file ∧
        ¬ Excluded patterns names ∧ pathText names = key) ∧
      ∀ key e, index.get? key = some e → IsFileUnder files root (.directory entries) key e) ∧
    ∀ fewer more index index', (∀ pattern ∈ fewer, pattern ∈ more) →
      scan files root fewer user = .ok index → scan files root more user = .ok index' →
      (∀ key e', index'.get? key = some e' → ∃ e, index.get? key = some e) ∧
      ∀ key e, (FileTree.directory entries).Legible key → (index'.get? key = some e ↔
        index.get? key = some e ∧ ¬ Excluded more ((segments key).map FileName.ofText)) := by
  have keys : ∀ patterns index, scan files root patterns user = .ok index → ∀ key,
      (∃ e, index.get? key = some e) ↔ ∃ names file, files.Admits user root names file ∧
        ¬ Excluded patterns names ∧ pathText names = key := by
    intro patterns index h key
    constructor
    · rintro ⟨e, he⟩
      obtain ⟨names, file, admits, hexcluded, hkey, -⟩ :=
        exists_file_of_get?_scan hroot hproper hplain h he
      exact ⟨names, file, admits, hexcluded, hkey⟩
    · rintro ⟨names, file, admits, hexcluded, rfl⟩
      exact exists_get?_scan hroot hproper hplain h admits hexcluded
  refine ⟨fun patterns => exists_scan_iff hroot, fun _ _ _ => verdict_marked_ne_ignored,
    fun key h => .of_text hproper h, ?_, ?_, ?_⟩
  · intro names names' file file' holds holds' heq legible
    exact legible.unique hproper holds holds' rfl heq.symm
  · intro patterns index h
    exact ⟨keys patterns index h, fun key e => isFileUnder_of_get? hroot hproper hplain h⟩
  · intro fewer more index index' hsub h h'
    refine ⟨?_, fun key e legible => ?_⟩
    · intro key e' he'
      obtain ⟨names, file, admits, hexcluded, hkey⟩ := (keys more index' h' key).mp ⟨e', he'⟩
      exact (keys fewer index h key).mpr
        ⟨names, file, admits, fun hfewer => hexcluded (hfewer.mono hsub), hkey⟩
    · rw [get?_scan_iff hroot hproper hplain h' legible, get?_scan_iff hroot hproper hplain h legible]
      constructor
      · rintro ⟨names, file, admits, hexcluded, hkey, rfl⟩
        rw [legible.ofText_segments hproper (admits.holds hroot) hkey]
        exact ⟨⟨names, file, admits, fun hfewer => hexcluded (hfewer.mono hsub), hkey, rfl⟩, hexcluded⟩
      · rintro ⟨⟨names, file, admits, -, hkey, rfl⟩, hexcluded⟩
        rw [legible.ofText_segments hproper (admits.holds hroot) hkey] at hexcluded
        exact ⟨names, file, admits, hexcluded, hkey, rfl⟩

/-! ## A project whose ignore file includes again -/

/-- A file whose name is no UTF-8. -/
def firstTwin : FileName × FileTree := (⟨[0xFF, 0x2E, 0x74, 0x73]⟩, .file "1".toUTF8)

/-- Another file whose name has the same text. -/
def secondTwin : FileName × FileTree := (⟨[0xFE, 0x2E, 0x74, 0x73]⟩, .file "22".toUTF8)

/-- The text of both names. -/
def twinKey : String := String.ofList [replacement, '.', 't', 's']

/-- The entries of a project. Its ignore file takes back what is never entered, and `dist`. There is a
link, some things are kept back, and two names have one text. -/
def mixedEntries : List (FileName × FileTree) :=
  [(".gitignore", .file "gen/\n!node_modules/\n!dist/".toUTF8), ("!b.ts", .file "b".toUTF8),
    ("c.ts", .other (.ok "c".toUTF8)), ("d.ts", .sealedFile none .notFound),
    ("dist", .directory [("main.js", .file "m".toUTF8)]),
    ("e.ts", .sealedFile (some 7) .notFound), ("f", .sealedDirectory .notFound),
    ("gen", .directory [("x.ts", .file "x".toUTF8)]),
    ("node_modules", .directory [("y.js", .file "y".toUTF8)]), ("notes.txt", .file "n".toUTF8),
    ("src", .directory [("a.ts", .file "a".toUTF8)]), firstTwin, secondTwin]

def mixedFiles : FileSystem := ⟨.directory [("p", .directory mixedEntries)], "/"⟩

/-- A user who never looks at notes. -/
def noNotes : UserRules := fun names _ =>
  if names.getLast? = some "notes.txt" then some .ignored else none

theorem lookUp_mixed : mixedFiles.lookUp "/p" = .ok (.directory mixedEntries) := by
  have place : join "/" "/p" = "/p" := by decide
  have steps : FileTree.steps "/p" = ["p"] := by decide
  have workingDirectory : mixedFiles.workingDirectory = "/" := rfl
  rw [FileSystem.lookUp, FileSystem.follow, if_neg (by decide), workingDirectory, place,
    FileTree.follow, if_neg (by decide), steps]
  rfl

theorem proper_mixed : (FileTree.directory mixedEntries).Proper := by
  have names : ∀ e ∈ mixedEntries, e.1.IsProper := by decide
  have namesBelow : ∀ name ∈ ["main.js", "x.ts", "y.js", "a.ts"],
      (FileName.ofText name).IsProper := by decide
  have below : ∀ e ∈ mixedEntries, e.2.Proper := by
    simpa [mixedEntries, firstTwin, secondTwin, FileTree.proper_directory_iff,
      FileTree.proper_leaf] using namesBelow
  exact FileTree.proper_directory_iff.mpr ⟨by decide, fun e he => ⟨names e he, below e he⟩⟩

theorem plain_mixed : (FileTree.directory mixedEntries).Plain := by
  have names : ∀ e ∈ mixedEntries, 0x5C ∉ e.1.bytes := by decide
  have namesBelow : ∀ name ∈ ["main.js", "x.ts", "y.js", "a.ts"],
      0x5C ∉ (FileName.ofText name).bytes := by decide
  have below : ∀ e ∈ mixedEntries, e.2.Plain := by
    simpa [mixedEntries, firstTwin, secondTwin, FileTree.allNames_directory_iff,
      FileTree.allNames_leaf] using namesBelow
  exact FileTree.allNames_directory_iff.mpr fun e he => ⟨names e he, below e he⟩

/-- A pattern that begins with `!` excludes the names that do, and one that begins with a slash what
is there in the root. What the ignore file includes again stays out, and so do notes, a link, and a
file that tells no size. One key is that of two files. -/
theorem scan_exact_mixed :
    ∃ index index', scan mixedFiles "/p" ["!b.ts"] noNotes = .ok index ∧
      scan mixedFiles "/p" ["!b.ts", "/dist"] noNotes = .ok index' ∧
      index.paths = [".gitignore", "dist/main.js", "e.ts", "src/a.ts", twinKey] ∧
      index'.paths = [".gitignore", "e.ts", "src/a.ts", twinKey] ∧
      (∀ key e, key ≠ twinKey → index'.get? key = some e → index.get? key = some e) ∧
      ∀ key e, index.get? key = some e →
        IsFileUnder mixedFiles "/p" (.directory mixedEntries) key e := by
  obtain ⟨-, -, legible, -, exact, fewer⟩ := scan_exact lookUp_mixed proper_mixed plain_mixed noNotes
  obtain ⟨paths, paths'⟩ :
      (scan mixedFiles "/p" ["!b.ts"] noNotes).toOption.map FileIndex.paths =
        some [".gitignore", "dist/main.js", "e.ts", "src/a.ts", twinKey] ∧
      (scan mixedFiles "/p" ["!b.ts", "/dist"] noNotes).toOption.map FileIndex.paths =
        some [".gitignore", "e.ts", "src/a.ts", twinKey] := by decide +kernel
  obtain ⟨index, hindex, paths⟩ := Option.map_eq_some_iff.mp paths
  obtain ⟨index', hindex', paths'⟩ := Option.map_eq_some_iff.mp paths'
  have h := Resolution.eq_ok_of_toOption hindex
  have h' := Resolution.eq_ok_of_toOption hindex'
  have sub := fewer _ _ index index' (by simp) h h'
  have plain : ∀ key ∈ index'.paths, key ≠ twinKey → replacement ∉ key.toList := by
    rw [paths']
    decide
  refine ⟨index, index', h, h', paths, paths', fun key e hkey he => ?_, (exact _ _ h).2⟩
  have clear := plain key (FileIndex.mem_paths_iff.mpr ⟨e, he⟩) hkey
  exact ((sub.2 key e (legible key (.inr clear))).mp he).1

/-- A project with the two files alone, at the root of the file system. -/
def twinFiles : FileSystem := ⟨.directory [firstTwin, secondTwin], "/"⟩

theorem lookUp_twin : twinFiles.lookUp "/" = .ok (.directory [firstTwin, secondTwin]) := by
  have place : join "/" "/" = "/" := by decide
  have steps : FileTree.steps "/" = ["."] := by decide
  have workingDirectory : twinFiles.workingDirectory = "/" := rfl
  rw [FileSystem.lookUp, FileSystem.follow, if_neg (by decide), workingDirectory, place,
    FileTree.follow, if_neg (by decide), steps]
  rfl

/-- A key need not be that of one file, nor do distinct files have distinct keys: names that are no
UTF-8 may have one text, and the file that is found last is the only one that the index holds. -/
theorem not_key_of_one_file :
    ¬ ∀ (files : FileSystem) (root : String) (entries : List (FileName × FileTree))
      (patterns : List String) (user : UserRules) (index : FileIndex),
      files.lookUp root = .ok (.directory entries) → (FileTree.directory entries).Proper →
      (FileTree.directory entries).Plain → scan files root patterns user = .ok index →
      ∀ key e, index.get? key = some e →
        ∃! names, pathText names = key ∧ ∃ file, (FileTree.directory entries).Holds names file := by
  intro claim
  have proper : (FileTree.directory [firstTwin, secondTwin]).Proper := by
    have names : ∀ e ∈ [firstTwin, secondTwin], e.1.IsProper := by decide
    have leaves : ∀ e ∈ [firstTwin, secondTwin], e.2.Proper := by
      simp [firstTwin, secondTwin, FileTree.proper_leaf]
    exact FileTree.proper_directory_iff.mpr ⟨by decide, fun e he => ⟨names e he, leaves e he⟩⟩
  have plain : (FileTree.directory [firstTwin, secondTwin]).Plain := by
    simp [firstTwin, secondTwin, FileTree.allNames_directory_iff, FileTree.allNames_leaf]
  have paths : (scan twinFiles "/" []).toOption.map FileIndex.paths = some [twinKey] := by
    decide +kernel
  obtain ⟨index, hindex, paths⟩ := Option.map_eq_some_iff.mp paths
  have mem : twinKey ∈ index.paths := paths ▸ List.mem_cons_self
  obtain ⟨e, he⟩ := FileIndex.mem_paths_iff.mp mem
  obtain ⟨names, -, unique⟩ := claim twinFiles "/" _ [] .none index lookUp_twin proper
    plain (Resolution.eq_ok_of_toOption hindex) twinKey e he
  have first := unique [firstTwin.1]
    ⟨by decide, _, _, .down List.mem_cons_self (.here _), rfl⟩
  have second := unique [secondTwin.1]
    ⟨by decide, _, _, .down (List.mem_cons_of_mem _ List.mem_cons_self) (.here _), rfl⟩
  exact absurd (first.trans second.symm) (by decide)

end CodeAtlas
