import CodeAtlas.Diagnostic
import CodeAtlas.Resolution.Aliases
import CodeAtlas.Resolution.Candidates

/-!
# Resolving specifiers

A specifier is resolved against the known files and the aliases. `Resolver.answer` is the rule:
an alias is substituted, a relative specifier is joined to the importer's directory unless that
leads into another package, anything else is external. `Resolver.resolve` answers the same and
remembers its answers, so that an import into another package is reported once.
-/

namespace CodeAtlas.Resolution

open CodeAtlas.Text

/-- What specifiers are resolved against. -/
structure Resolver where
  known : TextSet
  aliases : AliasTable

/-- What has been asked so far, and what went wrong. -/
structure Memory where
  answers : PairMap (Option String)
  /-- Diagnostics in the order of their discovery. -/
  diagnostics : List Diagnostic

/-- Nothing asked yet. -/
def Memory.empty : Memory := ⟨∅, []⟩

instance : EmptyCollection Memory := ⟨Memory.empty⟩

/-- Where a specifier leads before the known files are looked at. -/
inductive Target where
  /-- Outside the project. -/
  | external
  /-- Into another package, at the given path. -/
  | foreign (path : String)
  | candidate (path : String)
deriving DecidableEq, Repr

namespace Resolver

def new (known : List String) (aliases : AliasMap) : Except Failure Resolver := do
  return ⟨.ofList known, ← AliasTable.ofMap aliases⟩

/-- Whether the importer and a path lie in different packages. -/
def crossesPackages (r : Resolver) (importer path : String) : Bool :=
  match r.aliases.packageRootOf importer, r.aliases.packageRootOf path with
  | some a, some b => a != b
  | _, _ => false

/-- Where a specifier leads. -/
def target (r : Resolver) (importer specifier : String) : Target :=
  let stripped := stripSourceExtension specifier
  match r.aliases.substitute stripped with
  | some path => .candidate path
  | none =>
    if Path.isRelative stripped then
      let path := Path.joinRelative importer stripped
      if r.crossesPackages importer path then .foreign path else .candidate path
    else .external

/-- The file that a specifier means, and the diagnostic it deserves. -/
def answer (r : Resolver) (importer specifier : String) : Option String × List Diagnostic :=
  match r.target importer specifier with
  | .external => (none, [])
  | .foreign path => (none, [.illegalCrossPackageImport importer specifier path])
  | .candidate path => (probe r.known path, [])

/-- The file that a specifier means. A question that was asked before is answered from memory. -/
def resolve (r : Resolver) (importer specifier : String) : StateM Memory (Option String) := do
  let memory ← get
  match memory.answers[(importer, specifier)]? with
  | some remembered => return remembered
  | none =>
    let (result, found) := r.answer importer specifier
    set (⟨memory.answers.insert (importer, specifier) result, memory.diagnostics ++ found⟩ : Memory)
    return result

end Resolver

end CodeAtlas.Resolution
