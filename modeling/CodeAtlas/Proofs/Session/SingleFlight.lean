import CodeAtlas.Interleaving
import CodeAtlas.Proofs.Source.Loading

/-!
# At most one build in flight

Whatever the parties that use a session do, and in whatever order, the session is `Valid`: it is
idle, or one build is in flight which is on its way to the result of `buildGraph`; and the state
is what the last completed build left behind. Every action keeps this (`valid_step`), hence every
run (`valid_run`).

A stage is on course if what is left to do leads to the result of `buildGraph`
(`Stage.OnCourse`). That is how the loading of texts one by one is compared with the loading of
all texts at once: no stage says what was done, each says what will come of it. So a build that no
one disturbs does in its steps what `Session.rebuild` does at once (`run_rebuild`).
-/

namespace CodeAtlas

open CodeAtlas.Resolution

variable {read : Script.Reader} {aliases : AliasMap}

/-! ## What a build leads to -/

/-- What is left to do at a stage leads to what `buildGraph` yields. -/
def Stage.OnCourse (read : Script.Reader) (aliases : AliasMap) (index : FileIndex) : Stage → Prop
  | .loading resolver pending sources found =>
    let rest := partitionResults (pending.map FileEntry.load)
    buildGraph read index aliases =
      .ok (buildWith read resolver index.size (found ++ rest.2) (sources ++ rest.1))
  | .ended result => buildGraph read index aliases = result
  | .published outcome => .ofResult (buildGraph read index aliases) = outcome

/-- A build is on course from the start, be it that its aliases are refused at once or that all
texts are still to be loaded. -/
theorem Stage.onCourse_start (index : FileIndex) :
    (Stage.start aliases index).OnCourse read aliases index := by
  unfold start
  cases h : Resolver.new index.paths aliases with
  | error failure =>
    change buildGraph read index aliases = _
    rw [buildGraph, h]
    rfl
  | ok resolver =>
    change buildGraph read index aliases = _
    rw [buildGraph, h]
    rfl

/-- Loading one text more leads to the same result. What was loaded or refused moves from what is
still pending to what was found. -/
theorem Stage.OnCourse.load {index : FileIndex} {resolver : Resolver} {e : FileEntry}
    {pending : List FileEntry} {sources : List LoadedSource} {found : List Diagnostic}
    (h : (Stage.loading resolver (e :: pending) sources found).OnCourse read aliases index) :
    (Stage.loaded resolver pending sources found e.load).OnCourse read aliases index := by
  dsimp only [OnCourse] at h
  rw [List.map_cons] at h
  cases he : e.load with
  | ok source =>
    rw [he, partitionResults_cons_ok, List.append_cons] at h
    exact h
  | error diagnostic =>
    rw [he, partitionResults_cons_error, List.append_cons] at h
    exact h

/-- When no text is pending any more, the result that is computed is that of `buildGraph`. -/
theorem Stage.OnCourse.compute {index : FileIndex} {resolver : Resolver}
    {sources : List LoadedSource} {found : List Diagnostic}
    (h : (Stage.loading resolver [] sources found).OnCourse read aliases index) :
    (Stage.ended (.ok (buildWith read resolver index.size found sources))).OnCourse read aliases
      index := by
  dsimp only [OnCourse] at h ⊢
  rw [h, List.map_nil]
  change Except.ok (buildWith read resolver index.size (found ++ []) (sources ++ [])) = _
  rw [List.append_nil, List.append_nil]

/-! ## The invariant -/

/-- The state after some completed builds, the last one first. -/
def stateAfter (read : Script.Reader) (aliases : AliasMap) : List FileIndex → GraphState
  | [] => .notReady
  | index :: _ => .ofResult (buildGraph read index aliases)

namespace Usage

variable {u u' : Usage} {f : Flight} {answer : Answer}

/-- No build is in flight. -/
def Idle (u : Usage) : Prop := u.session.building = false ∧ u.flights = []

/-- The build `f` is in flight, and no other. -/
def Flying (u : Usage) (f : Flight) : Prop := u.session.building = true ∧ u.flights = [f]

/-- At most one build is in flight, and it is on course; the flag says whether one is; and the
state is that of the last completed build. -/
structure Valid (read : Script.Reader) (aliases : AliasMap) (u : Usage) : Prop where
  kept : u.session.aliases = aliases
  state : u.session.state = stateAfter read aliases u.completed
  flights : u.Idle ∨ ∃ f, u.Flying f ∧ f.stage.OnCourse read aliases f.index

theorem valid_new (read : Script.Reader) (aliases : AliasMap) : Valid read aliases (new aliases) :=
  ⟨rfl, rfl, .inl ⟨rfl, rfl⟩⟩

/-! ## The only build in flight -/

theorem eq_of_flight? {ticket : Nat} {found : Flight} (hf : u.flights = [f])
    (h : u.flight? ticket = some found) : found = f ∧ f.ticket = ticket := by
  rw [flight?, hf, List.find?_singleton] at h
  split at h
  · rename_i hticket
    exact ⟨(Option.some.inj h).symm, eq_of_beq hticket⟩
  · cases h

theorem flight?_of_idle {ticket : Nat} (h : u.Idle) : u.flight? ticket = none := by
  rw [flight?, h.2, List.find?_nil]

theorem atStage_singleton (hf : u.flights = [f]) (stage : Stage) :
    u.atStage f.ticket stage = [{ f with stage := stage }] := by
  rw [atStage, hf, List.map_singleton, if_pos rfl]

theorem without_singleton (hf : u.flights = [f]) : u.without f.ticket = [] := by
  simp [without, hf]

/-- A ticket that some build has is that of the only build in flight. -/
theorem Valid.flying_of_flight? (h : Valid read aliases u) {ticket : Nat}
    (hf : u.flight? ticket = some f) :
    f.ticket = ticket ∧ u.Flying f ∧ f.stage.OnCourse read aliases f.index := by
  rcases h.flights with idle | ⟨g, flying, course⟩
  · rw [flight?_of_idle idle] at hf
    cases hf
  · obtain ⟨rfl, hticket⟩ := eq_of_flight? flying.2 hf
    exact ⟨hticket, flying, course⟩

/-! ## What each action does -/

/-- Where no build is in flight, a request to build is taken up and becomes the only flight. -/
theorem begin_of_idle (h : u.Idle) (index : FileIndex) :
    u.begin index =
      ({ u with
          session := { u.session with building := true }
          flights := [⟨u.nextTicket, index, .start u.session.aliases index⟩]
          nextTicket := u.nextTicket + 1 }, .begun u.nextTicket) := by
  have free : u.session.begin? = some { u.session with building := true } := by
    rw [Session.begin?, h.1]
    rfl
  rw [begin, free, h.2]
  rfl

/-- Where one is in flight, a request is refused and changes nothing. The flag alone decides. -/
theorem begin_of_flying (h : u.Flying f) (index : FileIndex) :
    u.begin index = (u, .returned .alreadyBuilding) := by
  have taken : u.session.begin? = none := by rw [Session.begin?, if_pos h.1]
  rw [begin, taken]

theorem step?_reenter {ticket : Nat} {index : FileIndex}
    (h : u.step? read (.reenter ticket index) = some (u', answer)) :
    ∃ f, u.flight? ticket = some f ∧ u.begin index = (u', answer) := by
  obtain ⟨f, hf, h⟩ := Option.bind_eq_some_iff.mp h
  obtain ⟨e, he, h⟩ := Option.bind_eq_some_iff.mp h
  exact ⟨f, hf, Option.some.inj h⟩

theorem step?_advance {ticket : Nat} (h : u.step? read (.advance ticket) = some (u', answer)) :
    ∃ f, u.flight? ticket = some f ∧ u.advance read f = (u', answer) := by
  obtain ⟨f, hf, h⟩ := Option.bind_eq_some_iff.mp h
  exact ⟨f, hf, Option.some.inj h⟩

theorem step?_drop {ticket : Nat} (h : u.step? read (.drop ticket) = some (u', answer)) :
    ∃ f, u.flight? ticket = some f ∧ f.stage.awaited?.isSome ∧
      u' = { u with session := u.session.release, flights := u.without ticket } := by
  obtain ⟨f, hf, h⟩ := Option.bind_eq_some_iff.mp h
  obtain ⟨e, he, h⟩ := Option.bind_eq_some_iff.mp h
  refine ⟨f, hf, by rw [he]; rfl, ?_⟩
  exact (congrArg Prod.fst (Option.some.inj h)).symm

/-! ## Every action keeps the invariant -/

/-- A request to build keeps the invariant: it is refused, or a flight begins that is on course. -/
theorem Valid.begin (h : Valid read aliases u) (index : FileIndex) :
    Valid read aliases (u.begin index).1 := by
  rcases h.flights with idle | ⟨f, flying, course⟩
  · rw [begin_of_idle idle]
    refine ⟨h.kept, h.state, .inr ⟨_, ⟨rfl, rfl⟩, ?_⟩⟩
    rw [h.kept]
    exact Stage.onCourse_start index
  · rw [begin_of_flying flying]
    exact h

/-- The only build in flight gets to a stage that is on course. -/
theorem Valid.atStage (h : Valid read aliases u) (flying : u.Flying f) {stage : Stage}
    (course : stage.OnCourse read aliases f.index) :
    Valid read aliases { u with flights := u.atStage f.ticket stage } :=
  ⟨h.kept, h.state, .inr ⟨{ f with stage := stage }, ⟨flying.1, atStage_singleton flying.2 _⟩, course⟩⟩

theorem Valid.release (h : Valid read aliases u) (flying : u.Flying f) :
    Valid read aliases { u with session := u.session.release, flights := u.without f.ticket } :=
  ⟨h.kept, h.state, .inl ⟨rfl, without_singleton flying.2⟩⟩

/-- The next step of a build keeps the invariant. Only the step that puts the result in place
changes the state, and that makes the build the last completed one. -/
theorem Valid.advance (h : Valid read aliases u) (flying : u.Flying f)
    (course : f.stage.OnCourse read aliases f.index) :
    Valid read aliases (u.advance read f).1 := by
  unfold Usage.advance
  obtain ⟨ticket, index, stage⟩ := f
  cases stage with
  | loading resolver pending sources found =>
    cases pending with
    | nil => exact h.atStage flying course.compute
    | cons e pending => exact h.atStage flying course.load
  | ended result =>
    refine ⟨h.kept, ?state, .inr ⟨_, ⟨flying.1, atStage_singleton flying.2 _⟩, ?course⟩⟩
    case state => exact congrArg GraphState.ofResult course.symm
    case course => exact congrArg RebuildOutcome.ofResult course
  | published outcome => exact h.release flying

/-- Every action keeps the invariant. -/
theorem valid_step (h : Valid read aliases u) {action : Action}
    (hstep : u.step? read action = some (u', answer)) : Valid read aliases u' := by
  cases action with
  | begin index =>
    have := h.begin index
    rwa [Option.some.inj hstep] at this
  | reenter ticket index =>
    obtain ⟨f, -, hbegin⟩ := step?_reenter hstep
    have := h.begin index
    rwa [hbegin] at this
  | advance ticket =>
    obtain ⟨f, hf, hadvance⟩ := step?_advance hstep
    obtain ⟨-, flying, course⟩ := h.flying_of_flight? hf
    have := h.advance flying course
    rwa [hadvance] at this
  | drop ticket =>
    obtain ⟨f, hf, -, rfl⟩ := step?_drop hstep
    obtain ⟨rfl, flying, -⟩ := h.flying_of_flight? hf
    exact h.release flying
  | ask question =>
    cases hstep
    exact h

/-- Every run keeps the invariant, by induction on its actions. -/
theorem valid_run (h : Valid read aliases u) {actions : List Action}
    (hrun : u.run? read actions = some u') : Valid read aliases u' := by
  induction actions generalizing u with
  | nil =>
    cases hrun
    exact h
  | cons action actions ih =>
    unfold run? at hrun
    rw [List.foldlM_cons] at hrun
    obtain ⟨next, hnext, hrest⟩ := Option.bind_eq_some_iff.mp hrun
    obtain ⟨⟨next', answer⟩, hstep, rfl⟩ := Option.map_eq_some_iff.mp hnext
    exact ih (valid_step h hstep) hrest

/-! ## A build without interruptions -/

theorem run?_cons {action : Action} {actions : List Action}
    (hstep : u.step? read action = some (u', answer)) :
    u.run? read (action :: actions) = u'.run? read actions := by
  unfold run?
  rw [List.foldlM_cons, hstep]
  rfl

/-- The usage in which the only build in flight has come to a stage. -/
def flyingAt (u : Usage) (f : Flight) (stage : Stage) : Usage :=
  { u with flights := [{ f with stage := stage }] }

theorem step?_flyingAt (u : Usage) (f : Flight) (stage : Stage) :
    (u.flyingAt f stage).step? read (.advance f.ticket) =
      some ((u.flyingAt f stage).advance read { f with stage := stage }) := by
  have found : (u.flyingAt f stage).flight? f.ticket = some { f with stage := stage } := by
    simp [flight?, flyingAt]
  rw [step?, found]
  rfl

theorem atStage_flyingAt (u : Usage) (f : Flight) (stage next : Stage) :
    { u.flyingAt f stage with flights := (u.flyingAt f stage).atStage f.ticket next } =
      u.flyingAt f next := by
  rw [atStage_singleton (f := { f with stage := stage }) rfl]
  rfl

/-- Loading that goes on undisturbed comes to the result, by induction on the texts that are still
to be loaded. -/
theorem exists_run_ended {resolver : Resolver} {pending : List FileEntry}
    {sources : List LoadedSource} {found : List Diagnostic}
    (course : (Stage.loading resolver pending sources found).OnCourse read aliases f.index) :
    ∃ n, (u.flyingAt f (.loading resolver pending sources found)).run? read
        (List.replicate n (.advance f.ticket)) =
      some (u.flyingAt f (.ended (buildGraph read f.index aliases))) := by
  induction pending generalizing sources found with
  | nil =>
    refine ⟨1, ?_⟩
    rw [List.replicate_one, run?_cons (step?_flyingAt u f _), course.compute]
    exact congrArg some (atStage_flyingAt u f _ _)
  | cons e pending ih =>
    have next := course.load
    obtain ⟨sources', found', hstage⟩ : ∃ sources' found',
        Stage.loaded resolver pending sources found e.load =
          .loading resolver pending sources' found' := by
      cases e.load with
      | ok source => exact ⟨_, _, rfl⟩
      | error diagnostic => exact ⟨_, _, rfl⟩
    rw [hstage] at next
    obtain ⟨n, hn⟩ := ih next
    refine ⟨n + 1, ?_⟩
    rw [List.replicate_succ, run?_cons (step?_flyingAt u f _), ← hn, ← hstage]
    exact congrArg (run? read · _) (atStage_flyingAt u f _ _)

/-- A build that no one disturbs gets from its start to its result, however many texts it has to
load. -/
theorem exists_run_of_start (aliases : AliasMap) (index : FileIndex)
    (hindex : f.index = index) :
    ∃ n, (u.flyingAt f (.start aliases index)).run? read
        (List.replicate n (.advance f.ticket)) =
      some (u.flyingAt f (.ended (buildGraph read index aliases))) := by
  subst hindex
  have course : (Stage.start aliases f.index).OnCourse read aliases f.index :=
    Stage.onCourse_start f.index
  unfold Stage.start at course ⊢
  cases h : Resolver.new f.index.paths aliases with
  | error failure =>
    rw [h] at course
    refine ⟨0, ?_⟩
    rw [show buildGraph read f.index aliases = .error failure from course]
    rfl
  | ok resolver =>
    rw [h] at course
    exact exists_run_ended course

/-- The last two steps of a build: its result is put in place, and the flag is cleared. -/
theorem run_ended (u : Usage) (f : Flight) (result : Except Failure GraphBuild) :
    (u.flyingAt f (.ended result)).run? read [.advance f.ticket, .advance f.ticket] =
      some { u with
        session := (u.session.publish result).release
        flights := []
        completed := f.index :: u.completed } := by
  let published : Usage :=
    { u with session := u.session.publish result, completed := f.index :: u.completed }
  have publish : (u.flyingAt f (.ended result)).step? read (.advance f.ticket) =
      some (published.flyingAt f (.published (.ofResult result)), .pending) := by
    rw [step?_flyingAt]
    simp [advance, flyingAt, atStage, published]
  rw [run?_cons publish, run?_cons (step?_flyingAt published f _)]
  change some _ = some _
  simp [flyingAt, without, published]

/-- A build that no one disturbs does what `Session.rebuild` does. The number of its steps depends
on the texts that it loads, so there is one for each index. -/
theorem run_rebuild (idle : u.Idle) (index : FileIndex) :
    ∃ n next, u.run? read (.begin index :: List.replicate n (.advance u.nextTicket)) = some next ∧
      next.session = (u.session.rebuild read index).1 ∧ next.flights = [] ∧
      next.completed = index :: u.completed := by
  let f : Flight := ⟨u.nextTicket, index, .start u.session.aliases index⟩
  let begun : Usage :=
    { u with session := { u.session with building := true }, nextTicket := u.nextTicket + 1 }
  have first : u.step? read (.begin index) = some (begun.flyingAt f f.stage, .begun u.nextTicket) :=
    congrArg some (begin_of_idle idle index)
  obtain ⟨n, hn⟩ : ∃ n, (begun.flyingAt f f.stage).run? read
      (List.replicate n (.advance u.nextTicket)) =
        some (begun.flyingAt f (.ended (buildGraph read index u.session.aliases))) :=
    exists_run_of_start u.session.aliases index rfl
  let result := buildGraph read index u.session.aliases
  refine ⟨n + 2, { begun with
    session := (begun.session.publish result).release
    flights := []
    completed := index :: u.completed }, ?_, ?_, rfl, rfl⟩
  · rw [run?_cons first, ← List.replicate_append_replicate]
    unfold run? at hn ⊢
    rw [List.foldlM_append, hn]
    exact run_ended begun f _
  · have free : u.session.begin? = some begun.session := by
      rw [Session.begin?, idle.1]
      rfl
    rw [Session.rebuild, free]

/-! ## What the parties see -/

/-- What holds of a session in use at every moment. -/
structure Coherent (read : Script.Reader) (aliases : AliasMap) (u : Usage) : Prop where
  single : u.flights.length ≤ 1
  flag : u.session.building ↔ u.flights ≠ []
  /-- The state is the outcome of the last completed build. -/
  state : u.session.state = stateAfter read aliases u.completed
  /-- A request to build is taken up if no build is in flight. -/
  admitted : u.flights = [] → ∀ index, ∃ next,
    u.step? read (.begin index) = some (next, .begun u.nextTicket) ∧
      next.flights.map Flight.index = [index] ∧ next.session.state = u.session.state ∧
      next.completed = u.completed
  /-- It is refused if one is, and changes nothing. -/
  refused : u.flights ≠ [] → ∀ index,
    u.step? read (.begin index) = some (u, .returned .alreadyBuilding)
  /-- So is every request from within a build. -/
  reentered : ∀ ticket index next answer,
    u.step? read (.reenter ticket index) = some (next, answer) →
      next = u ∧ answer = .returned .alreadyBuilding
  /-- A build that is dropped leaves the state and clears the flag. -/
  dropped : ∀ ticket next answer, u.step? read (.drop ticket) = some (next, answer) →
    next.session.state = u.session.state ∧ next.session.building = false ∧ next.flights = [] ∧
      next.completed = u.completed
  /-- A build that returns is over, and is answered by the result of `buildGraph`. -/
  returned : ∀ ticket next outcome,
    u.step? read (.advance ticket) = some (next, .returned outcome) →
      next.session.building = false ∧ next.flights = [] ∧ next.session.state = u.session.state ∧
        ∃ f ∈ u.flights, f.ticket = ticket ∧ outcome = .ofResult (buildGraph read f.index aliases)
  /-- A build that no one disturbs comes to an end, and leaves what `Session.rebuild` leaves. -/
  undisturbed : u.flights = [] → ∀ index, ∃ n next,
    u.run? read (.begin index :: List.replicate n (.advance u.nextTicket)) = some next ∧
      next.session = (u.session.rebuild read index).1 ∧ next.flights = [] ∧
      next.completed = index :: u.completed
  /-- Questions are answered from that state and change nothing. -/
  answered : ∀ question, u.step? read (.ask question) =
    some (u, Session.answer ⟨aliases, stateAfter read aliases u.completed, !u.flights.isEmpty⟩
      question)
  /-- A trace is one of the current graph. -/
  traced : ∀ build start direction maxHops,
    stateAfter read aliases u.completed = .ready build →
      u.session.trace start direction maxHops = .ok (build.graph.trace start direction maxHops)
  /-- There is no trace without a graph. -/
  untraced : ∀ start direction maxHops,
    (∀ build, stateAfter read aliases u.completed ≠ .ready build) →
      ∃ reason, u.session.trace start direction maxHops = .error (.graphUnavailable reason)

theorem Valid.building_eq (h : Valid read aliases u) :
    u.session.building = !u.flights.isEmpty := by
  rcases h.flights with idle | ⟨f, flying, -⟩
  · rw [idle.1, idle.2]
    rfl
  · rw [flying.1, flying.2]
    rfl

theorem Valid.idle_of_nil (h : Valid read aliases u) (hnone : u.flights = []) : u.Idle :=
  ⟨by rw [h.building_eq, hnone]; rfl, hnone⟩

theorem Valid.flying_of_ne_nil (h : Valid read aliases u) (hsome : u.flights ≠ []) :
    ∃ f, u.Flying f := by
  rcases h.flights with idle | ⟨f, flying, -⟩
  · exact absurd idle.2 hsome
  · exact ⟨f, flying⟩

theorem Valid.session_eq (h : Valid read aliases u) :
    u.session = ⟨aliases, stateAfter read aliases u.completed, !u.flights.isEmpty⟩ := by
  rw [← h.building_eq, ← h.state, ← h.kept]

/-- Only a build whose result is in the session returns. -/
theorem Flying.advance_returned (flying : u.Flying f)
    (course : f.stage.OnCourse read aliases f.index) {outcome : RebuildOutcome}
    (hadvance : u.advance read f = (u', .returned outcome)) :
    u' = { u with session := u.session.release, flights := [] } ∧
      outcome = .ofResult (buildGraph read f.index aliases) := by
  obtain ⟨ticket, index, stage⟩ := f
  cases stage with
  | loading resolver pending sources found => cases pending <;> cases hadvance
  | ended result => cases hadvance
  | published told =>
    cases hadvance
    refine ⟨?_, course.symm⟩
    rw [without_singleton flying.2]

/-- All that the parties see follows from the invariant. Nothing of how the session came to its
present point is needed. -/
theorem Valid.coherent (h : Valid read aliases u) : Coherent read aliases u where
  single := by
    rcases h.flights with idle | ⟨f, flying, -⟩
    · rw [idle.2]
      exact Nat.zero_le 1
    · rw [flying.2]
      exact Nat.le_refl 1
  flag := by
    rw [h.building_eq, Bool.not_eq_true', List.isEmpty_eq_false_iff]
  state := h.state
  admitted hnone index := by
    have idle := h.idle_of_nil hnone
    exact ⟨_, congrArg some (begin_of_idle idle index), rfl, rfl, rfl⟩
  refused hsome index := by
    obtain ⟨f, flying⟩ := h.flying_of_ne_nil hsome
    exact congrArg some (begin_of_flying flying index)
  reentered ticket index next answer hstep := by
    obtain ⟨f, hf, hbegin⟩ := step?_reenter hstep
    rw [begin_of_flying (h.flying_of_flight? hf).2.1] at hbegin
    cases hbegin
    exact ⟨rfl, rfl⟩
  dropped ticket next answer hstep := by
    obtain ⟨f, hf, -, rfl⟩ := step?_drop hstep
    obtain ⟨rfl, flying, -⟩ := h.flying_of_flight? hf
    exact ⟨rfl, rfl, without_singleton flying.2, rfl⟩
  returned ticket next outcome hstep := by
    obtain ⟨f, hf, hadvance⟩ := step?_advance hstep
    obtain ⟨hticket, flying, course⟩ := h.flying_of_flight? hf
    obtain ⟨rfl, houtcome⟩ := flying.advance_returned course hadvance
    refine ⟨rfl, rfl, rfl, f, ?_, hticket, houtcome⟩
    rw [flying.2]
    exact List.mem_singleton_self f
  undisturbed hnone index := run_rebuild (h.idle_of_nil hnone) index
  answered question := by
    rw [← h.session_eq]
    rfl
  traced build start direction maxHops hready := by
    rw [Session.trace, h.state, hready]
    rfl
  untraced start direction maxHops hnone := by
    rw [Session.trace, h.state]
    cases hstate : stateAfter read aliases u.completed with
    | notReady => exact ⟨_, rfl⟩
    | failed reason => exact ⟨_, rfl⟩
    | ready build => exact absurd hstate (hnone build)

/-- A build is refused twice while another waits for a text, which is dropped then; the next build
comes to its end but for the flag. -/
def interrupted : List Action :=
  let index := FileIndex.ofList [("a.ts", .ofText "export const x = 1")]
  [.begin index, .begin .empty, .reenter 0 .empty, .drop 0, .begin index, .advance 1, .advance 1,
    .advance 1]

end Usage

end CodeAtlas
