import CodeAtlas.Graph.Node
import Std.Data.ExtTreeMap
import Std.Data.ExtTreeSet

/-!
# The symbol graph

A graph is a map from nodes to records. An edge is recorded on both sides, among the
dependencies of the node it leaves and among the dependents of the node it reaches, and only
`addEdge` records it. Maps and sets are extensional: two graphs with the same nodes, kinds and
edges are equal.
-/

namespace CodeAtlas

abbrev NodeSet := Std.ExtTreeSet NodeId

/-- What the graph knows about a node. -/
structure NodeRecord where
  id : NodeId
  kind : SymbolKind
  /-- The nodes that this one refers to. -/
  dependencies : NodeSet
  /-- The nodes that refer to this one. -/
  dependents : NodeSet

def NodeRecord.new (id : NodeId) (kind : SymbolKind) : NodeRecord := ⟨id, kind, ∅, ∅⟩

structure SymbolGraph where
  nodes : Std.ExtTreeMap NodeId NodeRecord

structure GraphStatistics where
  fileNodes : Nat
  symbolNodes : Nat
  edges : Nat
  /-- The edges that leave a declaration. -/
  symbolEdges : Nat
deriving DecidableEq, Repr

namespace SymbolGraph

/-- The graph without nodes. -/
def empty : SymbolGraph := ⟨∅⟩

instance : EmptyCollection SymbolGraph := ⟨empty⟩

/-! ## Look-up -/

def get? (g : SymbolGraph) (id : NodeId) : Option NodeRecord := g.nodes[id]?

def contains (g : SymbolGraph) (id : NodeId) : Bool := g.nodes.contains id

/-- Whether an edge leads from `a` to `b`. -/
def hasEdge (g : SymbolGraph) (a b : NodeId) : Bool :=
  match g.get? a with
  | some r => r.dependencies.contains b
  | none => false

/-- The nodes in order with their records. -/
def toList (g : SymbolGraph) : List (NodeId × NodeRecord) := g.nodes.toList

/-- The nodes of one file, in order. -/
def nodesOf (g : SymbolGraph) (path : String) : List NodeId :=
  (g.nodes.keys).filter fun id => id.path == path

/-- The paths of the file nodes, in order. -/
def files (g : SymbolGraph) : List String :=
  (g.nodes.keys.filter NodeId.isFile).map NodeId.path

def size (g : SymbolGraph) : Nat := g.nodes.size

def edgeCount (g : SymbolGraph) : Nat :=
  (g.toList.map fun (_, r) => r.dependencies.size).foldr (· + ·) 0

def statistics (g : SymbolGraph) : GraphStatistics where
  fileNodes := (g.toList.filter fun (_, r) => r.id.isFile).length
  symbolNodes := (g.toList.filter fun (_, r) => !r.id.isFile).length
  edges := g.edgeCount
  symbolEdges :=
    ((g.toList.filter fun (_, r) => !r.id.isFile).map fun (_, r) => r.dependencies.size).foldr (· + ·) 0

/-- The edges that are recorded on one side only. -/
def lopsidedEdges (g : SymbolGraph) : List (NodeId × NodeId) :=
  g.toList.flatMap fun (_, r) =>
    let missingBack := r.dependencies.toList.filter fun target =>
      !((g.get? target).map fun t => t.dependents.contains r.id).getD false
    let missingForth := r.dependents.toList.filter fun source =>
      !((g.get? source).map fun s => s.dependencies.contains r.id).getD false
    missingBack.map (r.id, ·) ++ missingForth.map (·, r.id)

/-! ## Growth -/

/-- The graph with the node `id`; a node that exists keeps its kind. -/
def ensure (g : SymbolGraph) (id : NodeId) (kind : SymbolKind) : SymbolGraph :=
  if g.contains id then g else ⟨g.nodes.insert id (.new id kind)⟩

def ensureFile (g : SymbolGraph) (path : String) : SymbolGraph := g.ensure (.file path) .file

/-- The graph with the node of a declaration and of its file. -/
def ensureSymbol (g : SymbolGraph) (path name : String) (kind : SymbolKind) : SymbolGraph :=
  (g.ensureFile path).ensure (.symbol path name) kind

/-- Whether an edge may lead from `a` to `b`: both are nodes. -/
def admits (g : SymbolGraph) (a b : NodeId) : Bool := g.contains a && g.contains b

/-- The graph with an edge from `a` to `b`, if both are nodes. -/
def addEdge (g : SymbolGraph) (a b : NodeId) : SymbolGraph :=
  if g.admits a b then
    ⟨(g.nodes.modify a fun r => { r with dependencies := r.dependencies.insert b }).modify b
      fun r => { r with dependents := r.dependents.insert a }⟩
  else g

/-- The graph with all of some edges whose ends are nodes. -/
def addEdges (g : SymbolGraph) (edges : List (NodeId × NodeId)) : SymbolGraph :=
  edges.foldl (fun g (a, b) => g.addEdge a b) g

end SymbolGraph

end CodeAtlas
