import CodeAtlas.Proofs.Text.TextMap
import CodeAtlas.Script.Declared
import CodeAtlas.Script.Interface
import Mathlib.Data.List.Nodup

/-!
# The specifiers of a program

A program names other modules by specifiers (`Tree.Specifies`): in the import and export
declarations at its top level, and at any depth in dynamic imports and calls of `require`. The
list `Tree.dynamicSpecifiers` holds the latter (`mem_dynamicSpecifiers`). The interface of a program
holds no specifier that its statements do not name (`ModuleInterface.drawsOnlyOn_ofProgram`), and it
keeps them all unless one import replaces another of the same local name
(`ModuleInterface.requires_ofProgram`).
-/

namespace CodeAtlas.Script

open CodeAtlas.Text

namespace Tree

/-! ## Parts of a tree -/

/-- The first tree is the second one, or a part of it at some depth. -/
inductive IsPart : Tree → Tree → Prop
  | self {t : Tree} : IsPart t t
  | inside {t u : Tree} {k : Kind} {parts : List Tree} : u ∈ parts → IsPart t u →
      IsPart t (node k parts)

theorem nodesOfAll_eq (parts : List Tree) : nodesOfAll parts = parts.flatMap nodes := by
  induction parts with
  | nil => rfl
  | cons t ts ih => rw [nodesOfAll, ih, List.flatMap_cons]

theorem induction_on_parts {motive : Tree → Prop}
    (h : ∀ k parts, (∀ u ∈ parts, motive u) → motive (node k parts)) : ∀ t, motive t
  | node k parts => h k parts fun u _ => induction_on_parts h u

theorem mem_nodes {t u : Tree} : t ∈ u.nodes ↔ t.IsPart u := by
  induction u using induction_on_parts with
  | h k parts ih =>
    rw [nodes, nodesOfAll_eq, List.mem_cons, List.mem_flatMap]
    constructor
    · rintro (rfl | ⟨u, hu, ht⟩)
      · exact .self
      · exact .inside hu ((ih u hu).mp ht)
    · rintro (_ | ⟨hu, ht⟩)
      · exact .inl rfl
      · exact .inr ⟨_, hu, (ih _ hu).mpr ht⟩

/-! ## Naming a module -/

/-- A statement imports from a module, or passes on what the module exports. -/
inductive DrawsOn : Tree → String → Prop
  | importDeclaration {source : String} {specifiers : List ImportSpecifier} {parts : List Tree} :
      DrawsOn (node (.importDeclaration source specifiers) parts) source
  | exportList {source : String} {specifiers : List ExportSpecifier} {parts : List Tree} :
      DrawsOn (node (.exportList specifiers (some source)) parts) source
  | exportAll {source : String} {name : Option String} {parts : List Tree} :
      DrawsOn (node (.exportAll name source) parts) source

/-- A node is a dynamic import or a call of `require`, whose first argument is a plain string. -/
inductive Loads : Tree → String → Prop
  | importCall {source : String} {inner rest : List Tree} :
      Loads (node .importCall (node (.stringLiteral source) inner :: rest)) source
  | require {source : String} {sense : Sense} {callee between inner rest : List Tree} :
      Loads (node .call (node (.reference "require" sense) callee :: (between ++
        [node .arguments (node (.stringLiteral source) inner :: rest)]))) source

/-- A program names a module: by a statement of its own, or by a part at some depth that loads the
module. -/
inductive Specifies (program : Tree) (specifier : String) : Prop
  | statement {t : Tree} (ht : t ∈ program.parts) (h : t.DrawsOn specifier)
  | dynamic {t : Tree} (ht : t.IsPart program) (h : t.Loads specifier)

/-- A node is taken for a dynamic import or a call of `require` exactly if it loads a module by a
plain string. Further arguments do not matter, and neither does what stands between the callee and
its arguments. -/
theorem dynamicSpecifier?_eq_some_iff {t : Tree} {specifier : String} :
    dynamicSpecifier? t = some specifier ↔ t.Loads specifier := by
  constructor
  · intro h
    unfold dynamicSpecifier? at h
    split at h
    · cases h
      exact .importCall
    · rename_i parts
      split at h
      · rename_i hfirst hlast
        cases h
        obtain ⟨callee, rfl⟩ := List.head?_eq_some_iff.mp hfirst
        obtain ⟨front, hparts⟩ := List.getLast?_eq_some_iff.mp hlast
        cases front with
        | nil => cases hparts
        | cons first between =>
          rw [List.cons_append, List.cons.injEq] at hparts
          obtain ⟨-, rfl⟩ := hparts
          exact .require
      · cases h
    · cases h
  · rintro (_ | _)
    · rfl
    · simp [dynamicSpecifier?, List.getLast?_cons]

theorem mem_dynamicSpecifiers {program : Tree} {specifier : String} :
    specifier ∈ program.dynamicSpecifiers ↔ ∃ t : Tree, t.IsPart program ∧ t.Loads specifier := by
  simp only [dynamicSpecifiers, List.mem_filterMap, mem_nodes, dynamicSpecifier?_eq_some_iff]

/-- The local names that a statement imports. -/
def importedNames (statement : Tree) : List String :=
  match statement.kind with
  | .importDeclaration _ specifiers => specifiers.map ImportSpecifier.localName
  | _ => []

/-- No two imports of a program have the same local name. -/
def DistinctImports (program : Tree) : Prop := (program.parts.flatMap importedNames).Nodup

end Tree

/-- The specifier of a name that is passed on. -/
def Reexport.specifier : Reexport → String
  | named specifier _ => specifier
  | everything specifier => specifier

namespace ModuleInterface

variable {m : ModuleInterface} {allowed : String → Prop}

/-! ## No other specifiers -/

/-- All specifiers of an interface are allowed ones. -/
structure DrawsOnlyOn (m : ModuleInterface) (allowed : String → Prop) : Prop where
  imports : ∀ (name : String) (binding : ImportBinding), m.imports[name]? = some binding →
    allowed binding.specifier
  sideEffects : ∀ specifier ∈ m.sideEffects, allowed specifier
  reexports : ∀ (name : String) (reexport : Reexport), m.reexports[name]? = some reexport →
    allowed reexport.specifier
  starSources : ∀ specifier ∈ m.starSources, allowed specifier
  reexportSources : ∀ specifier ∈ m.reexportSources, allowed specifier

theorem DrawsOnlyOn.imp {allowed' : String → Prop} (h : m.DrawsOnlyOn allowed)
    (himp : ∀ specifier, allowed specifier → allowed' specifier) : m.DrawsOnlyOn allowed' where
  imports name binding hb := himp _ (h.imports name binding hb)
  sideEffects specifier hs := himp _ (h.sideEffects specifier hs)
  reexports name reexport hr := himp _ (h.reexports name reexport hr)
  starSources specifier hs := himp _ (h.starSources specifier hs)
  reexportSources specifier hs := himp _ (h.reexportSources specifier hs)

theorem drawsOnlyOn_empty : empty.DrawsOnlyOn allowed := by
  constructor <;> simp [empty]

theorem forall_getElem?_insert {β : Type} {p : β → Prop} {t : TextMap β} {key : String} {value : β}
    (ht : ∀ (name : String) (v : β), t[name]? = some v → p v) (hvalue : p value) (name : String)
    (v : β) (h : (t.insert key value)[name]? = some v) : p v := by
  simp only [Std.ExtTreeMap.getElem?_insert, Std.LawfulEqCmp.compare_eq_iff_eq] at h
  split at h
  · exact Option.some.inj h ▸ hvalue
  · exact ht name v h

theorem forall_getElem?_foldl_insert {α β : Type} {p : β → Prop} {key : α → String}
    {value : α → β} {as : List α} {t : TextMap β}
    (ht : ∀ (name : String) (v : β), t[name]? = some v → p v) (has : ∀ a ∈ as, p (value a))
    (name : String) (v : β)
    (h : (as.foldl (fun t a => t.insert (key a) (value a)) t)[name]? = some v) : p v := by
  rcases TextMap.mem_of_getElem?_foldl_insert h with h | ⟨a, ha, -, rfl⟩
  · exact ht name v h
  · exact has a ha

theorem forall_mem_concat {list : List String} {source : String}
    (h : ∀ specifier ∈ list, allowed specifier) (hsource : allowed source) :
    ∀ specifier ∈ list ++ [source], allowed specifier := by
  intro specifier hs
  rcases List.mem_append.mp hs with hs | hs
  · exact h specifier hs
  · exact List.mem_singleton.mp hs ▸ hsource

theorem DrawsOnlyOn.addImports (h : m.DrawsOnlyOn allowed) {source : String}
    (hsource : allowed source) (specifiers : List ImportSpecifier) :
    (m.addImports source specifiers).DrawsOnlyOn allowed := by
  unfold ModuleInterface.addImports
  split
  · exact { h with sideEffects := forall_mem_concat h.sideEffects hsource }
  · exact { h with imports := forall_getElem?_foldl_insert h.imports fun _ _ => hsource }

theorem DrawsOnlyOn.addExports (h : m.DrawsOnlyOn allowed) (specifiers : List ExportSpecifier)
    {source : Option String} (hsource : ∀ s, source = some s → allowed s) :
    (m.addExports specifiers source).DrawsOnlyOn allowed := by
  cases source with
  | none => exact { h with }
  | some source =>
    exact { h with
      reexports := forall_getElem?_foldl_insert h.reexports fun _ _ => hsource source rfl
      reexportSources := forall_mem_concat h.reexportSources (hsource source rfl) }

theorem DrawsOnlyOn.addExportAll (h : m.DrawsOnlyOn allowed) {source : String}
    (hsource : allowed source) (name : Option String) :
    (m.addExportAll source name).DrawsOnlyOn allowed := by
  cases name with
  | none =>
    exact { h with
      starSources := forall_mem_concat h.starSources hsource
      reexportSources := forall_mem_concat h.reexportSources hsource }
  | some name =>
    exact { h with
      reexports := forall_getElem?_insert h.reexports hsource
      reexportSources := forall_mem_concat h.reexportSources hsource }

/-- A statement adds to an interface only specifiers that it draws on. This is the step of the
induction over the statements of a program. -/
theorem DrawsOnlyOn.addStatement (h : m.DrawsOnlyOn allowed) {statement : Tree}
    (hstatement : ∀ specifier, statement.DrawsOn specifier → allowed specifier) :
    (m.addStatement statement).DrawsOnlyOn allowed := by
  obtain ⟨kind, parts⟩ := statement
  unfold ModuleInterface.addStatement
  dsimp only [Tree.kind]
  split
  · exact h.addImports (hstatement _ .importDeclaration) _
  · refine h.addExports _ ?_
    rintro s rfl
    exact hstatement _ .exportList
  · exact h.addExportAll (hstatement _ .exportAll) _
  · exact h

/-- The interface of a program holds no specifier but those of its statements. -/
theorem drawsOnlyOn_ofProgram (program : Tree) :
    (ofProgram program).DrawsOnlyOn fun specifier =>
      ∃ statement ∈ program.parts, statement.DrawsOn specifier := by
  unfold ofProgram
  refine List.foldlRecOn (motive := fun m => m.DrawsOnlyOn fun specifier =>
    ∃ statement ∈ program.parts, statement.DrawsOn specifier) program.parts addStatement
    drawsOnlyOn_empty ?_
  intro m h statement hstatement
  exact h.addStatement fun specifier draws => ⟨statement, hstatement, draws⟩

/-! ## All specifiers -/

/-- The specifier is that of an import by name, or it is listed for its own sake. -/
def Requires (m : ModuleInterface) (specifier : String) : Prop :=
  (∃ (name : String) (binding : ImportBinding), m.imports[name]? = some binding ∧
    binding.specifier = specifier) ∨ specifier ∈ m.sideEffects ++ m.reexportSources

/-- A statement that does not import a name leaves the table of imports alone at that name. -/
theorem getElem?_imports_addStatement {statement : Tree} {name : String}
    (h : name ∉ statement.importedNames) :
    (m.addStatement statement).imports[name]? = m.imports[name]? := by
  obtain ⟨kind, parts⟩ := statement
  unfold ModuleInterface.addStatement
  unfold Tree.importedNames at h
  dsimp only [Tree.kind] at h ⊢
  split
  · unfold ModuleInterface.addImports
    split
    · rfl
    · exact TextMap.getElem?_foldl_insert_of_not_mem h
  · unfold ModuleInterface.addExports
    split <;> rfl
  · unfold ModuleInterface.addExportAll
    split <;> rfl
  · rfl

theorem listed_addStatement (statement : Tree) :
    m.sideEffects ++ m.reexportSources ⊆
      (m.addStatement statement).sideEffects ++ (m.addStatement statement).reexportSources := by
  obtain ⟨kind, parts⟩ := statement
  unfold ModuleInterface.addStatement
  dsimp only [Tree.kind]
  split
  · unfold ModuleInterface.addImports
    split <;> simp
  · unfold ModuleInterface.addExports
    split <;> simp
  · unfold ModuleInterface.addExportAll
    split <;> simp
  · exact List.Subset.refl _

/-- What a statement draws on is in the interface right after it: under a name that the statement
imports, or in one of the lists. -/
theorem requires_addStatement {statement : Tree} {specifier : String}
    (hnames : statement.importedNames.Nodup) (h : statement.DrawsOn specifier) :
    (∃ name ∈ statement.importedNames, ∃ binding : ImportBinding,
      (m.addStatement statement).imports[name]? = some binding ∧ binding.specifier = specifier) ∨
    specifier ∈
      (m.addStatement statement).sideEffects ++ (m.addStatement statement).reexportSources := by
  cases h with
  | @importDeclaration source specifiers parts =>
    cases specifiers with
    | nil => exact .inr (by simp [addStatement, Tree.kind, addImports])
    | cons first rest =>
      -- the first name is imported, and no later one of the declaration replaces it
      have later : first.localName ∉ rest.map ImportSpecifier.localName :=
        (List.nodup_cons.mp hnames).1
      refine .inl ⟨first.localName, List.mem_cons_self, ⟨specifier, first.imported⟩, ?_, rfl⟩
      change ((first :: rest).foldl (fun t s => t.insert s.localName ⟨specifier, s.imported⟩)
        m.imports)[first.localName]? = _
      rw [List.foldl_cons, TextMap.getElem?_foldl_insert_of_not_mem later,
        Std.ExtTreeMap.getElem?_insert_self]
  | exportList => exact .inr (by simp [addStatement, Tree.kind, addExports])
  | @exportAll source name parts =>
    cases name <;> exact .inr (by simp [addStatement, Tree.kind, addExportAll])

theorem getElem?_imports_foldl {statements : List Tree} {name : String}
    (h : name ∉ statements.flatMap Tree.importedNames) :
    (statements.foldl addStatement m).imports[name]? = m.imports[name]? := by
  induction statements generalizing m with
  | nil => rfl
  | cons t statements ih =>
    rw [List.flatMap_cons, List.mem_append, not_or] at h
    rw [List.foldl_cons, ih h.2, getElem?_imports_addStatement h.1]

theorem listed_foldl (statements : List Tree) :
    m.sideEffects ++ m.reexportSources ⊆ (statements.foldl addStatement m).sideEffects ++
      (statements.foldl addStatement m).reexportSources := by
  refine List.foldlRecOn (motive := fun m' => m.sideEffects ++ m.reexportSources ⊆
    m'.sideEffects ++ m'.reexportSources) statements addStatement (List.Subset.refl _) ?_
  intro m' listed statement _
  exact List.Subset.trans listed (listed_addStatement statement)

/-- If imports have distinct names, the interface of a program keeps the specifiers of all its
statements. -/
theorem requires_ofProgram {program statement : Tree} {specifier : String}
    (hdistinct : program.DistinctImports) (hstatement : statement ∈ program.parts)
    (h : statement.DrawsOn specifier) : (ofProgram program).Requires specifier := by
  obtain ⟨front, back, hparts⟩ := List.append_of_mem hstatement
  unfold Tree.DistinctImports at hdistinct
  rw [hparts, List.flatMap_append, List.flatMap_cons] at hdistinct
  obtain ⟨hnames, -, hapart⟩ := List.nodup_append'.mp (List.nodup_append'.mp hdistinct).2.1
  unfold ofProgram
  rw [hparts, List.foldl_append, List.foldl_cons]
  rcases requires_addStatement hnames h with ⟨name, hname, binding, hbinding, hs⟩ | hlisted
  · refine .inl ⟨name, binding, ?_, hs⟩
    rw [getElem?_imports_foldl (hapart hname)]
    exact hbinding
  · exact .inr (listed_foldl back hlisted)

end ModuleInterface

end CodeAtlas.Script
