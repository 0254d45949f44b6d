import CodeAtlas.Session

/-!
# Sessions in use

A session is used by several parties at once. A build is not a single act: it begins, asks for the
texts of its scripts one by one and waits for each, computes the graph, puts the result in place
and ends. Between any two of these steps others may ask to build, drop a build that waits for a
text, or read. While a build waits for a text, the source of the text may itself ask to build.

`Usage.step?` does one such action. Nothing in it keeps builds from overlapping except the flag of
the session. `Session.rebuild` is a build without interruptions.
-/

namespace CodeAtlas

open CodeAtlas.Resolution

/-- How far a build has come. -/
inductive Stage where
  /-- The texts of `pending` are still to be loaded; `sources` and `found` came of those before. -/
  | loading (resolver : Resolver) (pending : List FileEntry) (sources : List LoadedSource)
      (found : List Diagnostic)
  /-- The result is known, but is not in the session yet. -/
  | ended (result : Except Failure GraphBuild)
  /-- The result is in the session, which still counts as building. -/
  | published (outcome : RebuildOutcome)

structure Flight where
  /-- Tells the builds of a session apart. -/
  ticket : Nat
  index : FileIndex
  stage : Stage

/-- The first stage of a build. Aliases that make no sense end it before any text is asked for. -/
def Stage.start (aliases : AliasMap) (index : FileIndex) : Stage :=
  match Resolver.new index.paths aliases with
  | .ok resolver => .loading resolver index.scripts [] []
  | .error failure => .ended (.error failure)

/-- The stage after one more file was loaded or could not be. -/
def Stage.loaded (resolver : Resolver) (pending : List FileEntry) (sources : List LoadedSource)
    (found : List Diagnostic) : Except Diagnostic LoadedSource → Stage
  | .ok source => .loading resolver pending (sources ++ [source]) found
  | .error diagnostic => .loading resolver pending sources (found ++ [diagnostic])

/-- The file whose text a build waits for. A file that is too large is not asked for its text. -/
def Stage.awaited? : Stage → Option FileEntry
  | .loading _ (e :: _) _ _ => if e.size ≤ maxFileSize then some e else none
  | _ => none

/-- A session and the builds that are in flight. -/
structure Usage where
  session : Session
  flights : List Flight
  /-- The ticket of the next build. -/
  nextTicket : Nat
  /-- The indexes of the builds whose results were put in place, the last one first. -/
  completed : List FileIndex

/-- A question to a session. -/
inductive Question where
  | building | state | status | graph
  | trace (start : String) (direction : Direction) (maxHops : Nat)

/-- What may happen to a session in use. -/
inductive Action where
  /-- Someone asks to build. -/
  | begin (index : FileIndex)
  /-- The source whose text the build `ticket` waits for asks to build. -/
  | reenter (ticket : Nat) (index : FileIndex)
  /-- The build `ticket` does its next step. -/
  | advance (ticket : Nat)
  /-- The build `ticket` is dropped, which is possible while it waits for a text. -/
  | drop (ticket : Nat)
  | ask (question : Question)

/-- What comes of an action. -/
inductive Answer where
  /-- A build has begun, and has the given ticket. -/
  | begun (ticket : Nat)
  /-- A build is still in flight. -/
  | pending
  | dropped
  /-- A request to build is answered. -/
  | returned (outcome : RebuildOutcome)
  | building (building : Bool)
  | state (state : GraphState)
  | status (status : SessionStatus)
  | graph (build : Option GraphBuild)
  | trace (result : Except Failure Trace)

/-- The answer to a question, from the state and the flag of a session. -/
def Session.answer (s : Session) : Question → Answer
  | .building => .building s.building
  | .state => .state s.state
  | .status => .status s.status
  | .graph => .graph s.build?
  | .trace start direction maxHops => .trace (s.trace start direction maxHops)

namespace Usage

/-- A session that was not used yet. -/
def new (aliases : AliasMap) : Usage := ⟨.new aliases, [], 0, []⟩

/-- The build with a ticket. -/
def flight? (u : Usage) (ticket : Nat) : Option Flight :=
  u.flights.find? fun f => f.ticket == ticket

/-- The builds in flight, the one with a ticket at another stage. -/
def atStage (u : Usage) (ticket : Nat) (stage : Stage) : List Flight :=
  u.flights.map fun f => if f.ticket = ticket then { f with stage := stage } else f

/-- The builds in flight but the one with a ticket. -/
def without (u : Usage) (ticket : Nat) : List Flight :=
  u.flights.filter fun f => f.ticket != ticket

/-- Asks to build. -/
def begin (u : Usage) (index : FileIndex) : Usage × Answer :=
  match u.session.begin? with
  | none => (u, .returned .alreadyBuilding)
  | some session =>
    let flight := ⟨u.nextTicket, index, .start session.aliases index⟩
    ({ u with
        session := session
        flights := u.flights ++ [flight]
        nextTicket := u.nextTicket + 1 }, .begun u.nextTicket)

/-- The next step of a build in flight. -/
def advance (u : Usage) (read : Script.Reader) (f : Flight) : Usage × Answer :=
  match f.stage with
  | .loading resolver (e :: pending) sources found =>
    let stage := .loaded resolver pending sources found e.load
    ({ u with flights := u.atStage f.ticket stage }, .pending)
  | .loading resolver [] sources found =>
    let build := buildWith read resolver f.index.size found sources
    ({ u with flights := u.atStage f.ticket (.ended (.ok build)) }, .pending)
  | .ended result =>
    ({ u with
        session := u.session.publish result
        flights := u.atStage f.ticket (.published (.ofResult result))
        completed := f.index :: u.completed }, .pending)
  | .published outcome =>
    ({ u with session := u.session.release, flights := u.without f.ticket }, .returned outcome)

/-- Does one action, if it is possible. -/
def step? (read : Script.Reader) (u : Usage) : Action → Option (Usage × Answer)
  | .begin index => some (u.begin index)
  | .reenter ticket index => do
    let f ← u.flight? ticket
    let _ ← f.stage.awaited?
    return u.begin index
  | .advance ticket => do
    let f ← u.flight? ticket
    return u.advance read f
  | .drop ticket => do
    let f ← u.flight? ticket
    let _ ← f.stage.awaited?
    return ({ u with session := u.session.release, flights := u.without ticket }, .dropped)
  | .ask question => some (u, u.session.answer question)

/-- Does some actions in a row, if each of them is possible in its turn. -/
def run? (read : Script.Reader) (u : Usage) (actions : List Action) : Option Usage :=
  actions.foldlM (fun u action => (u.step? read action).map Prod.fst) u

end Usage

end CodeAtlas
