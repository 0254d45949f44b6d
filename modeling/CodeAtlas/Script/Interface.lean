import CodeAtlas.Script.Tree
import CodeAtlas.Text.PairOrder

/-!
# Module interfaces

What a module takes from other modules and what it passes on, as tables by name. A later entry
of a name replaces an earlier one.
-/

namespace CodeAtlas.Script

open CodeAtlas.Text

/-- Where an imported name comes from. -/
structure ImportBinding where
  specifier : String
  imported : Imported
deriving DecidableEq, Repr

/-- A name that a module passes on from another one. -/
inductive Reexport where
  | named (specifier name : String)
  /-- All exports of the other module under one name. -/
  | everything (specifier : String)
deriving DecidableEq, Repr

structure ModuleInterface where
  /-- The imported names. -/
  imports : TextMap ImportBinding
  /-- The specifiers of imports without names. -/
  sideEffects : List String
  /-- The names passed on, apart from those of `export *`. -/
  reexports : TextMap Reexport
  /-- The specifiers of `export *` without a name. -/
  starSources : List String
  /-- The local name behind each name of an export list. -/
  localExports : TextMap String
  /-- The specifiers of all exports that have one. -/
  reexportSources : List String

namespace ModuleInterface

/-- A module that neither imports nor exports. -/
def empty : ModuleInterface := ⟨∅, [], ∅, [], ∅, []⟩

def addImports (m : ModuleInterface) (source : String) (specifiers : List ImportSpecifier) :
    ModuleInterface :=
  if specifiers.isEmpty then { m with sideEffects := m.sideEffects ++ [source] }
  else
    { m with
      imports := specifiers.foldl (fun t s => t.insert s.localName ⟨source, s.imported⟩) m.imports }

def addExports (m : ModuleInterface) (specifiers : List ExportSpecifier) :
    Option String → ModuleInterface
  | some source =>
    { m with
      reexports := specifiers.foldl
        (fun t s => t.insert s.exportedName (.named source s.localName)) m.reexports
      reexportSources := m.reexportSources ++ [source] }
  | none =>
    { m with
      localExports := specifiers.foldl (fun t s => t.insert s.exportedName s.localName)
        m.localExports }

/-- Adds an export of everything. -/
def addExportAll (m : ModuleInterface) (source : String) : Option String → ModuleInterface
  | some name =>
    { m with
      reexports := m.reexports.insert name (.everything source)
      reexportSources := m.reexportSources ++ [source] }
  | none =>
    { m with
      starSources := m.starSources ++ [source]
      reexportSources := m.reexportSources ++ [source] }

/-- Adds what a statement imports or exports. -/
def addStatement (m : ModuleInterface) (statement : Tree) : ModuleInterface :=
  match statement.kind with
  | .importDeclaration source specifiers => m.addImports source specifiers
  | .exportList specifiers source => m.addExports specifiers source
  | .exportAll name source => m.addExportAll source name
  | _ => m

def ofProgram (program : Tree) : ModuleInterface := program.parts.foldl addStatement empty

end ModuleInterface

end CodeAtlas.Script
