import CodeAtlas.Link.Origin
import CodeAtlas.Script.Mention
import CodeAtlas.Source.Loading

/-!
# Linking

The edges of a graph. The edges of one file are planned while the graph stands still, and then
added: from the file to the origin of each of its imports, from a declaration to the origins of
the imports it uses, and from the file to every file that it names by a specifier alone.
-/

namespace CodeAtlas.Link

open CodeAtlas.Resolution CodeAtlas.Script CodeAtlas.Text

abbrev Edge := NodeId × NodeId

/-- Keeps an edge that is no loop and not planned yet. -/
def pushEdge (plan : List Edge) (edge : Edge) : List Edge :=
  if edge.1 = edge.2 || plan.contains edge then plan else plan ++ [edge]

namespace Landscape

variable (l : Landscape)

/-- The origins of the imports of a file, by local name, as far as there are any. -/
def importOrigins (path : String) (interface : ModuleInterface) :
    StateM Memory (List (String × NodeId)) := do
  let found ← interface.imports.toList.mapM fun (name, binding) => do
    return (← l.bindingOrigin path binding).map (name, ·)
  return found.filterMap id

/-- The file nodes that some specifiers of a file lead to. -/
def fileTargets (path : String) (specifiers : List String) : StateM Memory (List NodeId) := do
  let found ← specifiers.mapM fun specifier => l.resolver.resolve path specifier
  return (found.filterMap id).map .file

/-- The edges from the declarations of a file to the origins of the imports that they use. -/
def useEdges (path : String) (origins : List (String × NodeId)) (uses : List NameUse) :
    List Edge :=
  uses.filterMap fun use => do
    let owner ← use.owner
    let origin ← origins.lookup use.name
    let source := NodeId.symbol path owner
    if l.graph.contains source then some (source, origin) else none

def plan (file : ParsedFile) (interface : ModuleInterface) : StateM Memory (List Edge) := do
  let here := NodeId.file file.path
  let origins ← l.importOrigins file.path interface
  let named ← l.fileTargets file.path (interface.sideEffects ++ interface.reexportSources)
  let references := file.program.references (origins.map (·.1))
  let dynamic ← l.fileTargets file.path references.dynamicImports
  let edges := origins.map (fun o => (here, o.2)) ++ named.map (here, ·) ++
    l.useEdges file.path origins references.uses ++ dynamic.map (here, ·)
  return edges.foldl pushEdge []

end Landscape

/-- The interfaces of the programs of a cache. -/
def interfacesOf (cache : ProgramCache) : Interfaces :=
  cache.files.map fun _ file => .ofProgram file.program

/-- The files whose edges are planned: those that have an interface. -/
def plannedFiles (interfaces : Interfaces) (cache : ProgramCache) : List ParsedFile :=
  cache.toList.filter fun file => interfaces.contains file.path

/-- What linking did. -/
structure LinkSummary where
  /-- The number of files whose edges were planned. -/
  files : Nat
  /-- The number of edges that were not there before. -/
  edges : Nat
deriving DecidableEq, Repr

def linkFile (resolver : Resolver) (interfaces : Interfaces) (graph : SymbolGraph)
    (file : ParsedFile) : StateM Memory SymbolGraph := do
  match interfaces[file.path]? with
  | none => return graph
  | some interface =>
    let edges ← Landscape.plan ⟨graph, interfaces, resolver⟩ file interface
    return graph.addEdges edges

/-- Adds the edges of all programs to a graph. -/
def link (resolver : Resolver) (cache : ProgramCache) (graph : SymbolGraph) :
    StateM Memory (SymbolGraph × LinkSummary) := do
  let interfaces := interfacesOf cache
  let linked ← cache.toList.foldlM (linkFile resolver interfaces) graph
  return (linked, ⟨(plannedFiles interfaces cache).length, linked.edgeCount - graph.edgeCount⟩)

end CodeAtlas.Link
