import CodeAtlas.Command.Project
import CodeAtlas.Session

/-!
# Commands

What the program is asked to do, and doing it. Both commands open a project and build its graph;
one answers with the build, the other with a trace of the graph.
-/

namespace CodeAtlas

inductive Command where
  | build (place : ProjectPlace) (json : Bool)
  | trace (place : ProjectPlace) (json : Bool) (start : String) (overrides : Overrides)
deriving DecidableEq, Repr

/-- A command, and how the program is to speak while it runs. -/
structure Invocation where
  verbose : Bool
  quiet : Bool
  noColor : Bool
  command : Command
deriving DecidableEq, Repr

/-- What a command answers. -/
inductive CommandAnswer where
  | built (root : String) (build : GraphBuild)
  | traced (trace : Trace)

namespace Command

/-- Whether the answer is asked for as a document. -/
def json : Command → Bool
  | build _ json => json
  | trace _ json _ _ => json

def answerBuild (context : CommandContext) (read : Script.Reader) (place : ProjectPlace) :
    Except CommandFailure CommandAnswer := do
  let project ← Project.load context place ⟨none, none⟩
  let index ← project.index context
  let build ← (buildGraph read index project.aliases).mapError CommandFailure.graph
  return .built project.root build

def answerTrace (context : CommandContext) (read : Script.Reader) (place : ProjectPlace)
    (start : String) (overrides : Overrides) : Except CommandFailure CommandAnswer := do
  let project ← Project.load context place overrides
  let index ← project.index context
  let (session, outcome) := (Session.new project.aliases).rebuild read index
  match outcome with
  | .built _ => pure ()
  | .failed reason => throw (.custom reason)
  | .alreadyBuilding => throw (.custom "a graph build is already running")
  let settings := project.settings
  let trace ← (session.trace (project.start start) settings.direction settings.maxHops).mapError
    CommandFailure.graph
  return .traced trace

/-- What a command answers. -/
def answer (context : CommandContext) (read : Script.Reader) :
    Command → Except CommandFailure CommandAnswer
  | build place _ => answerBuild context read place
  | trace place _ start overrides => answerTrace context read place start overrides

end Command

end CodeAtlas
