import CodeAtlas.Build
import CodeAtlas.Graph.Trace

/-!
# Sessions

A session holds the current graph of a project while it is built again and again. At most one
build is in flight. A build that ends replaces the graph as a whole, one that is dropped leaves
everything as it was, and one that is asked for while another is in flight is refused.
-/

namespace CodeAtlas

open CodeAtlas.Resolution

inductive GraphState where
  | notReady
  | ready (build : GraphBuild)
  | failed (reason : String)

/-- What becomes of a request to build. -/
inductive RebuildOutcome where
  | built (diagnostics : Nat)
  | failed (reason : String)
  | alreadyBuilding
deriving DecidableEq, Repr

/-- A session at a glance. -/
structure SessionStatus where
  state : String
  building : Bool
  diagnostics : Nat
  reason : Option String
deriving DecidableEq, Repr

namespace GraphState

def name : GraphState → String
  | notReady => "notReady"
  | ready _ => "ready"
  | failed _ => "failed"

/-- The state that a result leaves behind. -/
def ofResult : Except Failure GraphBuild → GraphState
  | .ok build => ready build
  | .error failure => failed failure.message

/-- The current build. -/
def build? : GraphState → Option GraphBuild
  | ready build => some build
  | _ => none

def trace (state : GraphState) (start : String) (direction : Direction) (maxHops : Nat) :
    Except Failure Trace :=
  match state with
  | ready build => .ok (build.graph.trace start direction maxHops)
  | notReady => .error (.graphUnavailable "graph not built yet")
  | failed reason => .error (.graphUnavailable ("last graph build failed: " ++ reason))

/-- The state at a glance; `building` tells whether a build is in flight. -/
def status (state : GraphState) (building : Bool) : SessionStatus where
  state := state.name
  building := building
  diagnostics := match state with
    | ready build => build.diagnostics.length
    | _ => 0
  reason := match state with
    | failed reason => some reason
    | _ => none

end GraphState

/-- What a request to build is told in the end. -/
def RebuildOutcome.ofResult : Except Failure GraphBuild → RebuildOutcome
  | .ok build => built build.diagnostics.length
  | .error failure => failed failure.message

structure Session where
  aliases : AliasMap
  state : GraphState
  building : Bool

namespace Session

/-- A session in which nothing was built. -/
def new (aliases : AliasMap) : Session := ⟨aliases, .notReady, false⟩

/-- Begins a build, unless one is in flight. -/
def begin? (s : Session) : Option Session :=
  if s.building then none else some { s with building := true }

/-- Puts the result of the build in flight in place of the state. -/
def publish (s : Session) (result : Except Failure GraphBuild) : Session :=
  { s with state := .ofResult result }

/-- Ends the build in flight: the last that a build does, and all that happens if it is dropped. -/
def release (s : Session) : Session := { s with building := false }

def rebuild (s : Session) (read : Script.Reader) (index : FileIndex) : Session × RebuildOutcome :=
  match s.begin? with
  | none => (s, .alreadyBuilding)
  | some s =>
    let result := buildGraph read index s.aliases
    ((s.publish result).release, .ofResult result)

/-- The scripts whose texts a build of an index asks for, in order. -/
def requested (s : Session) (index : FileIndex) : List FileEntry :=
  match AliasTable.ofMap s.aliases with
  | .ok _ => index.scripts.filter fun e => e.size ≤ maxFileSize
  | .error _ => []

/-- The current build. -/
def build? (s : Session) : Option GraphBuild := s.state.build?

def trace (s : Session) (start : String) (direction : Direction) (maxHops : Nat) :
    Except Failure Trace :=
  s.state.trace start direction maxHops

def status (s : Session) : SessionStatus := s.state.status s.building

end Session

end CodeAtlas
