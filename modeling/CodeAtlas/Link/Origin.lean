import CodeAtlas.Graph.Basic
import CodeAtlas.Resolution.Resolver
import CodeAtlas.Script.Interface

/-!
# The origin of an exported name

A name that a module exports may come from elsewhere: from another module by a re-export, from
one of several by `export *`, or from an import of the module itself. `origin` follows such
steps to the node that declares the name. The first step that leads to a node wins, in the order
named re-export, `export *`, local export, declaration of that very name.

Re-exports may form cycles. A pair of file and name that was visited is not visited again, and
the pairs that can be met are finitely many, which bounds the search.
-/

namespace CodeAtlas.Link

open CodeAtlas.Resolution CodeAtlas.Script CodeAtlas.Text

/-- The interfaces of all modules by path. -/
abbrev Interfaces := TextMap ModuleInterface

/-- What names are traced through: the graph, the interfaces and the resolver. -/
structure Landscape where
  graph : SymbolGraph
  interfaces : Interfaces
  resolver : Resolver

/-- The state of a search: the memory of the resolver, and the pairs that were visited. -/
structure Search where
  memory : Memory
  visited : TextSet

/-- A step of a search, which may find a node. -/
abbrev Searching := StateM Search

namespace Landscape

variable (l : Landscape)

/-- A node, if it is in the graph. -/
def existing (id : NodeId) : Option NodeId := if l.graph.contains id then some id else none

/-- Resolves a specifier during a search. -/
def resolve (importer specifier : String) : Searching (Option String) := fun s =>
  let (result, memory) := (l.resolver.resolve importer specifier).run s.memory
  (result, { s with memory := memory })

/-- Marks a pair of file and name as visited; the answer tells whether it is new. -/
def visit (path name : String) : Searching Bool := fun s =>
  let key := path ++ "#" ++ name
  if s.visited.contains key then (false, s) else (true, { s with visited := s.visited.insert key })

/-- The first result of some steps. -/
def firstOf {α : Type} (step : α → Searching (Option NodeId)) : List α → Searching (Option NodeId)
  | [] => return none
  | a :: as => do
    match ← step a with
    | some found => return some found
    | none => firstOf step as

/-- The name that an import asks of the module it comes from; none if it asks for all. -/
def exportName : Imported → Option String
  | .named name => some name
  | .defaultExport => some NodeId.defaultName
  | .allExports => none

/-- The node behind an import, where `origin` follows a name into the other module. -/
def bindingOriginWith (origin : String → String → Searching (Option NodeId)) (path : String)
    (binding : ImportBinding) : Searching (Option NodeId) := do
  match ← l.resolve path binding.specifier with
  | none => return none
  | some target =>
    match exportName binding.imported with
    | some name => origin target name
    | none => return l.existing (.file target)

/-- The steps of `origin` inside a module with an interface, in their order. -/
def steps (origin : String → String → Searching (Option NodeId)) (interface : ModuleInterface)
    (path name : String) : List (Searching (Option NodeId)) :=
  let reexported := match interface.reexports[name]? with
    | some (.named specifier inner) =>
      [l.bindingOriginWith origin path ⟨specifier, .named inner⟩]
    | some (.everything specifier) => [l.bindingOriginWith origin path ⟨specifier, .allExports⟩]
    | none => []
  let starred := if name = NodeId.defaultName then []
    else interface.starSources.map fun specifier =>
      l.bindingOriginWith origin path ⟨specifier, .named name⟩
  let exported := match interface.localExports[name]? with
    | none => []
    | some inner =>
      match interface.imports[inner]? with
      | some binding => [l.bindingOriginWith origin path binding]
      | none => if inner = name then [] else [return l.existing (.symbol path inner)]
  reexported ++ starred ++ exported

/-- The steps of `origin` at a pair of file and name; there are none in a file without an
interface. -/
def stepsAt (origin : String → String → Searching (Option NodeId)) (path name : String) :
    List (Searching (Option NodeId)) :=
  match l.interfaces[path]? with
  | some interface => l.steps origin interface path name
  | none => []

/-- The node that declares what the module `path` exports as `name`, at most `fuel` modules
away. -/
def originWithin : (fuel : Nat) → (path name : String) → Searching (Option NodeId)
  | 0, _, _ => return none
  | fuel + 1, path, name => do
    unless ← visit path name do return none
    match ← firstOf id (l.stepsAt (originWithin fuel) path name) with
    | some found => return some found
    | none => return l.existing (.symbol path name)

/-- The names that an interface can ask other modules for. -/
def askedNames (interface : ModuleInterface) : List String :=
  (interface.reexports.values.map fun
    | .named _ name => name
    | .everything _ => NodeId.defaultName) ++
  interface.imports.values.map fun b => (exportName b.imported).getD NodeId.defaultName

/-- More than the number of pairs that one search can visit: every pair but the last lies in a
module with an interface, and its name is the first one or one that some interface asks for. -/
def searchBound : Nat :=
  let names := (l.interfaces.values.map fun i => (askedNames i).length).foldr (· + ·) 0 + 1
  l.interfaces.size * names + 2

/-- The node that declares what the module `path` exports as `name`. -/
def origin (path name : String) : StateM Memory (Option NodeId) := fun memory =>
  let (result, s) := (l.originWithin l.searchBound path name).run ⟨memory, ∅⟩
  (result, s.memory)

/-- The node behind an import of the module `path`. -/
def bindingOrigin (path : String) (binding : ImportBinding) : StateM Memory (Option NodeId) :=
  fun memory =>
    let (result, s) :=
      (l.bindingOriginWith (l.originWithin l.searchBound) path binding).run ⟨memory, ∅⟩
    (result, s.memory)

end Landscape

end CodeAtlas.Link
