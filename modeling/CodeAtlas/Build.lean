import CodeAtlas.Link.Discovery
import CodeAtlas.Link.Plan

/-!
# Building a graph

From files to a graph in four steps: load the texts, read the programs, discover the nodes, link
them. A build fails only if the aliases make no sense; whatever goes wrong with a file is noted
among the diagnostics.
-/

namespace CodeAtlas

open CodeAtlas.Resolution

/-- How many files went through each step. -/
structure BuildStats where
  filesIndexed : Nat
  filesLoaded : Nat
  filesParsed : Nat
  filesDiscovered : Nat
  filesLinked : Nat
  graph : GraphStatistics
deriving DecidableEq, Repr

/-- A graph and how it came about. -/
structure GraphBuild where
  graph : SymbolGraph
  diagnostics : List Diagnostic
  stats : BuildStats

/-- The graph of some texts. `earlier` are the diagnostics of loading them. -/
def buildWith (read : Script.Reader) (resolver : Resolver) (filesIndexed : Nat)
    (earlier : List Diagnostic) (sources : List LoadedSource) : GraphBuild :=
  let (cache, parsing) := ProgramCache.build read sources
  let (discovered, filesDiscovered) := Link.discoverAll cache ∅
  let ((linked, summary), memory) :=
    (Link.link resolver cache discovered).run ⟨∅, earlier ++ parsing⟩
  { graph := linked
    diagnostics := memory.diagnostics
    stats :=
      { filesIndexed := filesIndexed
        filesLoaded := sources.length
        filesParsed := cache.size
        filesDiscovered := filesDiscovered
        filesLinked := summary.files
        graph := linked.statistics } }

/-- The graph of an index. Specifiers may lead to any of its files, parsed or not. -/
def buildGraph (read : Script.Reader) (index : FileIndex) (aliases : AliasMap) :
    Except Failure GraphBuild := do
  let resolver ← Resolver.new index.paths aliases
  let (sources, found) := index.load
  return buildWith read resolver index.size found sources

/-- The graph of some texts. -/
def buildGraphFromSources (read : Script.Reader) (sources : List LoadedSource)
    (aliases : AliasMap) : Except Failure GraphBuild := do
  let resolver ← Resolver.new (sources.map LoadedSource.path) aliases
  return buildWith read resolver 0 [] sources

end CodeAtlas
