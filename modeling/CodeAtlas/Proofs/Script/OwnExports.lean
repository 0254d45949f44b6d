import CodeAtlas.Proofs.Script.Specifiers
import CodeAtlas.Script.Exported

/-!
# Own exports

A module exports a declaration of its own by `export` before the declaration, or by an entry of an
export list without a source (`Tree.OwnExport`). The declaration is one of the declared symbols
(`Tree.OwnExport.exists_declaredSymbol`). The interface leads from the name to other modules through
`export *` declarations only (`Tree.OwnExport.bindings_eq`), and within the module to the
declaration (`Tree.OwnExport.renamed?_eq`).

Only statements of the module count. An export of everything under one name is no export list.
-/

namespace CodeAtlas.Script

open CodeAtlas.Text

namespace Tree

/-- The names that a statement of a module declares, exported or not. -/
def introducedNames (statement : Tree) : List String :=
  match statement with
  | node .exportDeclaration [declaration] => declaration.declaredNames
  | _ => statement.declaredNames

/-- The names that a statement declares and exports. -/
def exportedDeclarations (statement : Tree) : List String :=
  match statement with
  | node .exportDeclaration [declaration] => declaration.declaredNames
  | _ => []

/-- The entries of an export list without a source. -/
def listedExports (statement : Tree) : List ExportSpecifier :=
  match statement.kind with
  | .exportList specifiers none => specifiers
  | _ => []

/-- The names under which an export list with a source passes something on. -/
def relayedNames (statement : Tree) : List String :=
  match statement.kind with
  | .exportList specifiers (some _) => specifiers.map ExportSpecifier.exportedName
  | _ => []

/-- The module declares `declared` and exports it as `name`. -/
structure OwnExport (program : Tree) (declared name : String) : Prop where
  introduced : declared ∈ program.parts.flatMap introducedNames
  exported : (declared = name ∧ name ∈ program.parts.flatMap exportedDeclarations) ∨
    ⟨declared, name⟩ ∈ program.parts.flatMap listedExports
  /-- No export list gives the name to something else, or to an import. -/
  listed : ∀ e ∈ program.parts.flatMap listedExports, e.exportedName = name →
    e.localName = declared ∧ declared ∉ program.parts.flatMap importedNames
  /-- The name is not passed on by an export list with a source. -/
  kept : name ∉ program.parts.flatMap relayedNames

instance (program : Tree) (declared name : String) : Decidable (program.OwnExport declared name) :=
  decidable_of_iff
    (declared ∈ program.parts.flatMap introducedNames ∧
      ((declared = name ∧ name ∈ program.parts.flatMap exportedDeclarations) ∨
        ⟨declared, name⟩ ∈ program.parts.flatMap listedExports) ∧
      (∀ e ∈ program.parts.flatMap listedExports, e.exportedName = name →
        e.localName = declared ∧ declared ∉ program.parts.flatMap importedNames) ∧
      name ∉ program.parts.flatMap relayedNames)
    ⟨fun ⟨hi, he, hl, hk⟩ => ⟨hi, he, hl, hk⟩, fun h => ⟨h.1, h.2, h.3, h.4⟩⟩

/-! ## Declared symbols -/

/-- A declared name is that of a variable, bound by a pattern of the declaration, or that of a
single declared symbol. -/
theorem mem_declaredNames {declaration : Tree} {name : String}
    (h : name ∈ declaration.declaredNames) :
    (∃ keyword declarators, declaration = node (.declarators keyword) declarators ∧
      name ∈ declarators.flatMap fun d => boundNamesOfFirst d.parts) ∨
    ∃ s, declaration.declaration? = some s ∧ s.name = name := by
  unfold declaredNames at h
  split at h
  · exact .inl ⟨_, _, rfl, h⟩
  · obtain ⟨s, hs, hname⟩ := Option.map_eq_some_iff.mp (Option.mem_toList.mp h)
    exact .inr ⟨s, hs, hname⟩

theorem exists_nested_of_isPart {t program : Tree} {s : DeclaredSymbol} (ht : t.IsPart program)
    (hs : t.declaration? = some s) : s ∈ program.declaredSymbols :=
  List.mem_append_right _ (List.mem_filterMap.mpr ⟨t, mem_nodes.mpr ht, hs⟩)

theorem isPart_of_mem_parts {t program : Tree} (h : t ∈ program.parts) : t.IsPart program := by
  obtain ⟨kind, parts⟩ := program
  exact .inside h .self

theorem isPart_of_exported {declaration program : Tree}
    (h : node .exportDeclaration [declaration] ∈ program.parts) :
    declaration.IsPart program := by
  obtain ⟨kind, parts⟩ := program
  exact .inside h (.inside List.mem_cons_self .self)

theorem mem_declaredSymbols_of_moduleDeclarators {statement program : Tree} {name : String}
    (h : statement ∈ program.parts) (hkind : ∀ parts, statement ≠ node .exportDefault parts)
    (hname : name ∈ statement.moduleDeclarators.flatMap fun d => boundNamesOfFirst d.parts) :
    (⟨name, .variableName⟩ : DeclaredSymbol) ∈ program.declaredSymbols := by
  refine List.mem_append_left _ (List.mem_flatMap.mpr ⟨statement, h, ?_⟩)
  unfold moduleSymbols
  split
  · exact absurd rfl (hkind _)
  · exact List.mem_map.mpr ⟨name, hname, rfl⟩

/-- What a program exports of its own is one of its declared symbols, under the name by which it is
declared. -/
theorem OwnExport.exists_declaredSymbol {program : Tree} {declared name : String}
    (h : program.OwnExport declared name) : ∃ s ∈ program.declaredSymbols, s.name = declared := by
  obtain ⟨statement, hstatement, hname⟩ := List.mem_flatMap.mp h.introduced
  unfold introducedNames at hname
  split at hname
  · rename_i declaration
    rcases mem_declaredNames hname with ⟨keyword, declarators, rfl, hbound⟩ | ⟨s, hs, hname⟩
    · exact ⟨_, mem_declaredSymbols_of_moduleDeclarators hstatement (by simp) hbound, rfl⟩
    · exact ⟨s, exists_nested_of_isPart (isPart_of_exported hstatement) hs, hname⟩
  · rcases mem_declaredNames hname with ⟨keyword, declarators, rfl, hbound⟩ | ⟨s, hs, hname⟩
    · exact ⟨_, mem_declaredSymbols_of_moduleDeclarators hstatement (by simp) hbound, rfl⟩
    · exact ⟨s, exists_nested_of_isPart (isPart_of_mem_parts hstatement) hs, hname⟩

end Tree

/-! ## The interface of a program -/

namespace ModuleInterface

variable {m : ModuleInterface}

/-- A statement enters what its export lists name, and every name that it declares and exports at
once. The other tables of an interface play no part in this. -/
theorem localExports_addStatement (m : ModuleInterface) (statement : Tree) :
    (m.addStatement statement).localExports =
      statement.listedExports.foldl (fun t s => t.insert s.exportedName s.localName)
        m.localExports := by
  obtain ⟨kind, parts⟩ := statement
  unfold addStatement Tree.listedExports
  dsimp only [Tree.kind]
  split
  · unfold addImports
    split <;> rfl
  · rename_i specifiers source
    cases source <;> rfl
  · unfold addExportAll
    split <;> rfl
  · rename_i notList _
    split
    · exact (notList _ _ rfl).elim
    · rfl

theorem localExports_foldl (m : ModuleInterface) (statements : List Tree) :
    (statements.foldl addStatement m).localExports =
      (statements.flatMap Tree.listedExports).foldl
        (fun t s => t.insert s.exportedName s.localName) m.localExports := by
  induction statements generalizing m with
  | nil => rfl
  | cons statement statements ih =>
    rw [List.foldl_cons, ih, localExports_addStatement, List.flatMap_cons, List.foldl_append]

/-- A name is passed on from another module only if a statement says so in an export list with a
source. -/
theorem relayed_addStatement {statement : Tree} {name specifier inner : String}
    (h : (m.addStatement statement).reexports[name]? = some (.named specifier inner)) :
    m.reexports[name]? = some (.named specifier inner) ∨ name ∈ statement.relayedNames := by
  obtain ⟨kind, parts⟩ := statement
  unfold addStatement at h
  unfold Tree.relayedNames
  dsimp only [Tree.kind] at h ⊢
  split at h
  · unfold addImports at h
    split at h <;> exact .inl h
  · rename_i specifiers source
    cases source with
    | none => exact .inl h
    | some source =>
      rcases TextMap.mem_of_getElem?_foldl_insert h with h | ⟨s, hs, hname, -⟩
      · exact .inl h
      · exact .inr (List.mem_map.mpr ⟨s, hs, hname⟩)
  · rename_i exported source
    cases exported with
    | none => exact .inl h
    | some exported =>
      simp only [addExportAll, Std.ExtTreeMap.getElem?_insert,
        Std.LawfulEqCmp.compare_eq_iff_eq] at h
      split at h
      · cases h
      · exact .inl h
  · exact .inl h

/-- A name that the interface passes on from another module is one of an export list. -/
theorem mem_relayedNames {program : Tree} {name specifier inner : String}
    (h : (ofProgram program).reexports[name]? = some (.named specifier inner)) :
    name ∈ program.parts.flatMap Tree.relayedNames := by
  unfold ofProgram at h
  revert h
  refine List.foldlRecOn (motive := fun m => m.reexports[name]? = some (.named specifier inner) →
    name ∈ program.parts.flatMap Tree.relayedNames) program.parts addStatement ?_ ?_
  · intro h
    simp [empty] at h
  · intro m ih statement hstatement h
    rcases relayed_addStatement h with h | hname
    · exact ih h
    · exact List.mem_flatMap.mpr ⟨statement, hstatement, hname⟩

theorem mem_listedExports {program : Tree} {name inner : String}
    (h : (ofProgram program).localExports[name]? = some inner) :
    ⟨inner, name⟩ ∈ program.parts.flatMap Tree.listedExports := by
  rw [ofProgram, localExports_foldl] at h
  rcases TextMap.mem_of_getElem?_foldl_insert h with h | ⟨s, hs, rfl, rfl⟩
  · simp [empty] at h
  · exact hs

theorem isSome_localExports {program : Tree} {e : ExportSpecifier}
    (h : e ∈ program.parts.flatMap Tree.listedExports) :
    (ofProgram program).localExports[e.exportedName]?.isSome := by
  rw [ofProgram, localExports_foldl]
  exact TextMap.isSome_getElem?_foldl_insert (List.mem_map.mpr ⟨e, h, rfl⟩)

end ModuleInterface

/-! ## Where the interface leads -/

namespace ModuleInterface

/-- The imports behind the `export *` declarations of a module: for a name, the one that exports
everything under this name, and then those without a name unless it is that of the default
export. -/
def starBindings (m : ModuleInterface) (name : String) : List ImportBinding :=
  (match m.reexports[name]? with
    | some (.everything specifier) => [⟨specifier, .allExports⟩]
    | _ => []) ++
  if name = NodeId.defaultName then [] else m.starSources.map (⟨·, .named name⟩)

/-- All imports that a name is followed through, in their order. -/
def bindings (m : ModuleInterface) (name : String) : List ImportBinding :=
  (match m.reexports[name]? with
    | some (.named specifier inner) => [⟨specifier, .named inner⟩]
    | some (.everything specifier) => [⟨specifier, .allExports⟩]
    | none => []) ++
  (if name = NodeId.defaultName then [] else m.starSources.map (⟨·, .named name⟩)) ++
  ((m.localExports[name]?).bind (m.imports[·]?)).toList

/-- The declaration of the module that an export list gives the name to, if it has another one. -/
def renamed? (m : ModuleInterface) (name : String) : Option String :=
  match m.localExports[name]? with
  | none => none
  | some inner => if m.imports[inner]?.isSome || inner = name then none else some inner

end ModuleInterface


namespace Tree.OwnExport

variable {program : Tree} {declared name : String}

theorem not_named (h : program.OwnExport declared name) (specifier inner : String) :
    (ModuleInterface.ofProgram program).reexports[name]? ≠ some (.named specifier inner) :=
  fun hrelayed => h.kept (ModuleInterface.mem_relayedNames hrelayed)

/-- The interface lists the declaration under the name and no import under that of the
declaration, or it lists nothing and the names are the same. -/
theorem localExports_cases (h : program.OwnExport declared name) :
    ((ModuleInterface.ofProgram program).localExports[name]? = some declared ∧
      (ModuleInterface.ofProgram program).imports[declared]? = none) ∨
    ((ModuleInterface.ofProgram program).localExports[name]? = none ∧ declared = name) := by
  cases hlisted : (ModuleInterface.ofProgram program).localExports[name]? with
  | some inner =>
    obtain ⟨hinner, hfree⟩ := h.listed _ (ModuleInterface.mem_listedExports hlisted) rfl
    have imports : (ModuleInterface.ofProgram program).imports[declared]? = none := by
      rw [ModuleInterface.ofProgram, ModuleInterface.getElem?_imports_foldl hfree]
      simp [ModuleInterface.empty]
    exact .inl ⟨congrArg some hinner, imports⟩
  | none =>
    rcases h.exported with ⟨hsame, -⟩ | hentry
    · exact .inr ⟨rfl, hsame⟩
    · have some := ModuleInterface.isSome_localExports hentry
      rw [hlisted] at some
      cases some

/-- An own export that is not relayed by name is left to the star exports first: the interface binds
it to whatever they say. -/
theorem bindings_eq (h : program.OwnExport declared name) :
    (ModuleInterface.ofProgram program).bindings name =
      (ModuleInterface.ofProgram program).starBindings name := by
  have imported : ((ModuleInterface.ofProgram program).localExports[name]?).bind
      ((ModuleInterface.ofProgram program).imports[·]?) = none := by
    rcases h.localExports_cases with ⟨hlisted, himports⟩ | ⟨hlisted, -⟩
    · rw [hlisted, Option.bind_some, himports]
    · rw [hlisted, Option.bind_none]
  unfold ModuleInterface.bindings ModuleInterface.starBindings
  rw [imported, Option.toList_none, List.append_nil]
  cases hre : (ModuleInterface.ofProgram program).reexports[name]? with
  | none => rfl
  | some reexport =>
    cases reexport with
    | named specifier inner => exact absurd hre (h.not_named specifier inner)
    | everything specifier => rfl

theorem renamed?_eq (h : program.OwnExport declared name) :
    (ModuleInterface.ofProgram program).renamed? name =
      if declared = name then none else some declared := by
  unfold ModuleInterface.renamed?
  rcases h.localExports_cases with ⟨hlisted, himports⟩ | ⟨hlisted, hsame⟩
  · simp [hlisted, himports]
  · rw [hlisted, if_pos hsame]

end Tree.OwnExport

end CodeAtlas.Script
