import CodeAtlas.Graph.Basic
import CodeAtlas.Script.Declared
import CodeAtlas.Source.Loading

/-!
# Discovery

The nodes of a graph: one for every program and one for every symbol that a program declares. A
symbol that is declared more than once has the kind of its first declaration.
-/

namespace CodeAtlas.Link

def discoverFile (graph : SymbolGraph) (file : ParsedFile) : SymbolGraph :=
  file.program.declaredSymbols.foldl (fun g s => g.ensureSymbol file.path s.name s.kind)
    (graph.ensureFile file.path)

def discover (cache : ProgramCache) (graph : SymbolGraph) : SymbolGraph :=
  cache.toList.foldl discoverFile graph

/-- The graph with the nodes of all programs, and the number of programs. -/
def discoverAll (cache : ProgramCache) (graph : SymbolGraph) : SymbolGraph × Nat :=
  (discover cache graph, cache.toList.length)

end CodeAtlas.Link
