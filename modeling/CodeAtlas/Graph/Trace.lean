import CodeAtlas.Failure
import CodeAtlas.Graph.Basic
import CodeAtlas.Text.PairOrder

/-!
# Traces

A trace tells which files can be reached from a start within a number of hops, and in how many.
It is a breadth-first search: nodes wait in a queue, each with its distance, and the neighbours of
a node that has its turn wait behind all others unless they were seen before. The distance of a
file is the least one of its nodes.
-/

namespace CodeAtlas

open CodeAtlas.Text

/-- Which edges a trace follows. -/
inductive Direction where
  | dependencies | dependents | both
deriving DecidableEq, Repr

namespace Direction

/-- The name of the direction in output. -/
def name : Direction → String
  | dependencies => "dependencies"
  | dependents => "dependents"
  | both => "both"

def ofName? : String → Option Direction
  | "dependencies" => some dependencies
  | "dependents" => some dependents
  | "both" => some both
  | _ => none

theorem ofName?_name (d : Direction) : ofName? d.name = some d := by
  cases d <;> rfl

/-- The direction that a text names; the case of its letters does not matter. -/
def ofText (text : String) : Except Failure Direction :=
  let lower := text.toLower
  match ofName? lower with
  | some d => .ok d
  | none => .error (.invalidConfig (.unknownDirection lower))

end Direction

namespace SymbolGraph

/-- The nodes one hop away from `id`. -/
def neighbours (g : SymbolGraph) (direction : Direction) (id : NodeId) : List NodeId :=
  match g.get? id with
  | none => []
  | some r =>
    match direction with
    | .dependencies => r.dependencies.toList
    | .dependents => r.dependents.toList
    | .both => r.dependencies.toList ++ r.dependents.toList

/-- The nodes that a start means: none for the empty text, one node for a text with `#`, and
otherwise all nodes of the file. -/
def startNodes (g : SymbolGraph) (start : String) : List NodeId :=
  if start = "" then []
  else if hasChar '#' start then
    let id := NodeId.ofText start
    if g.contains id then [id] else []
  else g.nodesOf start

end SymbolGraph

/-- The state of a search. -/
structure Sweep where
  /-- The nodes that wait for their turn, each with its distance. -/
  queue : List (NodeId × Nat)
  /-- The nodes that wait or had their turn. -/
  seen : NodeSet
  /-- The files of the nodes that had their turn, each with its least distance. -/
  files : TextMap Nat

/-- Adds a node to those seen, and to a list if it is new. -/
def addUnseen (state : NodeSet × List NodeId) (id : NodeId) : NodeSet × List NodeId :=
  if state.1.contains id then state else (state.1.insert id, state.2 ++ [id])

/-- Notes the distance of a node of the file `path`. -/
def noteFile (files : TextMap Nat) (path : String) (distance : Nat) : TextMap Nat :=
  files.insert path (match files[path]? with
    | some d => min d distance
    | none => distance)

namespace Sweep

/-- The beginning of a search: the seeds wait. -/
def start (seeds : List NodeId) : Sweep :=
  let (seen, found) := seeds.foldl addUnseen (∅, [])
  ⟨found.map (·, 0), seen, ∅⟩

/-- The turn of the first node that waits, if there is one. Its neighbours are left alone if it is
as many hops away as allowed. -/
def turn (next : NodeId → List NodeId) (maxHops : Nat) (s : Sweep) : Sweep :=
  match s.queue with
  | [] => s
  | (id, distance) :: queue =>
    let files := noteFile s.files id.path distance
    if maxHops ≤ distance then ⟨queue, s.seen, files⟩
    else
      let (seen, found) := (next id).foldl addUnseen (s.seen, [])
      ⟨queue ++ found.map (·, distance + 1), seen, files⟩

/-- Some turns in a row. -/
def turns (next : NodeId → List NodeId) (maxHops : Nat) : Nat → Sweep → Sweep
  | 0, s => s
  | n + 1, s => turns next maxHops n (s.turn next maxHops)

end Sweep

/-- The distances of the files that are reached from `start` within `maxHops` hops. Every node has
at most one turn. -/
def SymbolGraph.distances (g : SymbolGraph) (start : String) (direction : Direction)
    (maxHops : Nat) : TextMap Nat :=
  ((Sweep.start (g.startNodes start)).turns (g.neighbours direction) maxHops g.size).files

/-- A trace and the question it answers. -/
structure Trace where
  start : String
  direction : Direction
  maxHops : Nat
  /-- The files that are reached, each with its distance. -/
  files : TextMap Nat

namespace Trace

def paths (t : Trace) : List String := t.files.keys

def isEmpty (t : Trace) : Bool := t.files.isEmpty

end Trace

def SymbolGraph.trace (g : SymbolGraph) (start : String) (direction : Direction) (maxHops : Nat) :
    Trace :=
  ⟨start, direction, maxHops, g.distances start direction maxHops⟩

end CodeAtlas
