import CodeAtlas.Proofs.Graph.Extension
import CodeAtlas.Proofs.Link.Earlier
import CodeAtlas.Proofs.Link.Plan
import CodeAtlas.Proofs.Resolution.Repetition

/-!
# The course of linking

Linking a row of files adds a row of edges and asks a row of questions. Both rows are fixed by the
nodes of the graph, the interfaces and the resolver (`exists_course`): the edges that are there
already are never looked at, and what the memory holds changes neither an answer nor the next
question.

Two facts give this. Whatever is planned over a graph is a function of its nodes, so plans over
graphs with the same nodes are equal (`plan_onGraph`). And every search is steady: from the same
marks and any faithful memory it asks the same questions (`steadySearch_originWithin`). Nothing is
said about the order in which the files are linked; another order asks in another order.
-/

namespace CodeAtlas.Link.Landscape

open CodeAtlas.Resolution CodeAtlas.Script CodeAtlas.Text

variable {l : Landscape} {g : SymbolGraph}

/-! ## Graphs with the same nodes -/

section Nodes

variable (hnodes : ∀ id, g.contains id = l.graph.contains id)

include hnodes

theorem existing_onGraph : (l.onGraph g).existing = l.existing := by
  funext id
  simp only [existing, onGraph_graph, hnodes]

theorem bindingOriginWith_onGraph :
    (l.onGraph g).bindingOriginWith = l.bindingOriginWith := by
  funext origin path binding
  unfold bindingOriginWith
  rw [existing_onGraph hnodes]
  rfl

theorem stepsAt_onGraph : (l.onGraph g).stepsAt = l.stepsAt := by
  funext origin path name
  simp only [stepsAt, steps, bindingOriginWith_onGraph hnodes, existing_onGraph hnodes,
    onGraph_interfaces]

theorem originWithin_onGraph (fuel : Nat) :
    (l.onGraph g).originWithin fuel = l.originWithin fuel := by
  induction fuel with
  | zero => rfl
  | succ fuel ih =>
    funext path name
    simp only [originWithin, ih, stepsAt_onGraph hnodes, existing_onGraph hnodes]

theorem bindingOrigin_onGraph : (l.onGraph g).bindingOrigin = l.bindingOrigin := by
  have bound : (l.onGraph g).searchBound = l.searchBound := rfl
  funext path binding
  unfold bindingOrigin
  rw [bound, bindingOriginWith_onGraph hnodes, originWithin_onGraph hnodes]

/-- Planning looks at the nodes of a graph and never at its edges. -/
theorem plan_onGraph : (l.onGraph g).plan = l.plan := by
  have origins : (l.onGraph g).importOrigins = l.importOrigins := by
    funext path interface
    simp only [importOrigins, bindingOrigin_onGraph hnodes]
  have targets : (l.onGraph g).fileTargets = l.fileTargets := rfl
  have uses : (l.onGraph g).useEdges = l.useEdges := by
    funext path origins uses
    simp only [useEdges, onGraph_graph, hnodes]
  funext file interface
  unfold plan
  rw [origins, targets, uses]

end Nodes

/-! ## Steady searches -/

/-- From the same marks and any faithful memory, the step yields the same result, leaves the same
marks and asks the same questions. -/
def SteadySearch (l : Landscape) (action : Searching (Option NodeId)) : Prop :=
  ∀ visited, ∃ result visited' asked, ∀ m : Memory, m.Faithful l.resolver →
    action.run ⟨m, visited⟩ = (result, ⟨l.resolver.after m asked, visited'⟩)

theorem steadySearch_pure (result : Option NodeId) : l.SteadySearch (pure result) :=
  fun visited => ⟨result, visited, [], fun _ _ => rfl⟩

/-- Steps in a row are steady if each of them is: the first result ends the row in every run, or in
none. -/
theorem steadySearch_firstOf {as : List (Searching (Option NodeId))}
    (h : ∀ a ∈ as, l.SteadySearch a) : l.SteadySearch (firstOf id as) := by
  induction as with
  | nil => exact steadySearch_pure none
  | cons a as ih =>
    obtain ⟨first, rest⟩ := List.forall_mem_cons.mp h
    intro visited
    obtain ⟨result, visited₁, asked, run⟩ := first visited
    cases result with
    | some found =>
      refine ⟨some found, visited₁, asked, fun m hm => ?_⟩
      rw [run_firstOf_cons, run m hm]
    | none =>
      obtain ⟨result, visited₂, further, run'⟩ := ih rest visited₁
      refine ⟨result, visited₂, asked ++ further, fun m hm => ?_⟩
      rw [run_firstOf_cons, run m hm, after_append]
      exact run' _ (hm.after asked)

/-- Following an import is steady: which file the specifier leads to is fixed by the rule of the
resolver, and so are the questions after it. -/
theorem steadySearch_bindingOriginWith {origin : String → String → Searching (Option NodeId)}
    (horigin : ∀ path name, l.SteadySearch (origin path name)) (path : String)
    (binding : ImportBinding) : l.SteadySearch (l.bindingOriginWith origin path binding) := by
  intro visited
  have own : ∀ m : Memory, l.resolver.after m [(path, binding.specifier)] =
      ((l.resolver.resolve path binding.specifier).run m).2 := fun _ => rfl
  cases htarget : (l.resolver.answer path binding.specifier).1 with
  | none =>
    refine ⟨none, visited, [(path, binding.specifier)], fun m hm => ?_⟩
    rw [run_bindingOriginWith]
    simp only [(hm.resolve path binding.specifier).1, htarget, own]
  | some target =>
    cases hname : exportName binding.imported with
    | none =>
      refine ⟨l.existing (.file target), visited, [(path, binding.specifier)], fun m hm => ?_⟩
      rw [run_bindingOriginWith]
      simp only [(hm.resolve path binding.specifier).1, htarget, hname, own]
    | some name =>
      obtain ⟨result, visited', further, run⟩ := horigin target name visited
      refine ⟨result, visited', (path, binding.specifier) :: further, fun m hm => ?_⟩
      rw [run_bindingOriginWith]
      simp only [(hm.resolve path binding.specifier).1, htarget, hname]
      exact run _ (hm.resolve path binding.specifier).2

theorem steadySearch_entering {action : Searching (Option NodeId)} (h : l.SteadySearch action)
    (path name : String) : l.SteadySearch (entering path name action) := by
  intro visited
  by_cases hmarked : visited.contains (path ++ "#" ++ name)
  · refine ⟨none, visited, [], fun m _ => ?_⟩
    rw [run_entering, if_pos hmarked]
    rfl
  · obtain ⟨result, visited', asked, run⟩ := h (visited.insert (path ++ "#" ++ name))
    refine ⟨result, visited', asked, fun m hm => ?_⟩
    rw [run_entering, if_neg hmarked]
    exact run m hm

theorem steadySearch_originWithin (fuel : Nat) (path name : String) :
    l.SteadySearch (l.originWithin fuel path name) :=
  forall_originWithin (fun id => steadySearch_pure (l.existing id))
    (fun _ => steadySearch_bindingOriginWith) (fun _ => steadySearch_firstOf)
    (fun path name _ h => steadySearch_entering h path name) fuel path name

theorem steady_bindingOrigin (path : String) (binding : ImportBinding) :
    Steady l.resolver (l.bindingOrigin path binding) := by
  obtain ⟨result, visited, asked, run⟩ := steadySearch_bindingOriginWith
    (steadySearch_originWithin l.searchBound) path binding ∅
  refine ⟨result, asked, fun m hm => ?_⟩
  have whole : (l.bindingOrigin path binding).run m =
      (((l.bindingOriginWith (l.originWithin l.searchBound) path binding).run ⟨m, ∅⟩).1,
        ((l.bindingOriginWith (l.originWithin l.searchBound) path binding).run ⟨m, ∅⟩).2.memory) :=
    rfl
  rw [whole, run m hm]

/-- Planning a file asks the same questions from every faithful memory. -/
theorem steady_plan (file : ParsedFile) (interface : ModuleInterface) :
    Steady l.resolver (l.plan file interface) := by
  have imports : Steady l.resolver (l.importOrigins file.path interface) := by
    unfold importOrigins
    refine (steady_mapM (fun e => ?_) _).bind fun found => steady_pure _
    exact (steady_bindingOrigin file.path e.2).bind fun origin => steady_pure _
  have targets : ∀ specifiers : List String,
      Steady l.resolver (l.fileTargets file.path specifiers) := by
    intro specifiers
    unfold fileTargets
    refine (steady_mapM (fun specifier => ?_) _).bind fun found => steady_pure _
    exact steady_resolve file.path specifier
  unfold plan
  refine imports.bind fun origins => (targets _).bind fun named => ?_
  exact (targets _).bind fun dynamic => steady_pure _

/-! ## Linking in a row -/

/-- The edges that the plan of a file lists; none if the file has no interface. -/
def plannedEdges (l : Landscape) (file : ParsedFile) : List Edge :=
  match l.interfaces[file.path]? with
  | none => []
  | some interface => ((l.plan file interface).run ∅).1

theorem mem_plannedEdges {file : ParsedFile} {a b : NodeId} :
    (a, b) ∈ l.plannedEdges file ↔
      ∃ interface, l.interfaces[file.path]? = some interface ∧ a ≠ b ∧
        l.Planned file interface a b := by
  unfold plannedEdges
  cases l.interfaces[file.path]? with
  | none => simp
  | some interface =>
    obtain ⟨edges, answers, hedges⟩ := exists_plan (l := l) (fun _ => rfl) file interface
    have listed : ((l.plan file interface).run ∅).1 = edges :=
      (answers ∅ (Memory.faithful_new [])).1
    simp only [listed, hedges, Option.some.injEq, exists_eq_left']

/-- Linking one file adds its planned edges and asks a fixed row of questions, whatever edges and
answers there are already. -/
theorem exists_course_linkFile (l : Landscape) (file : ParsedFile) :
    ∃ asked, ∀ g : SymbolGraph, (∀ id, g.contains id = l.graph.contains id) →
      ∀ m : Memory, m.Faithful l.resolver →
        (linkFile l.resolver l.interfaces g file).run m =
          (g.addEdges (l.plannedEdges file), l.resolver.after m asked) := by
  unfold linkFile plannedEdges
  cases l.interfaces[file.path]? with
  | none => exact ⟨[], fun _ _ _ _ => rfl⟩
  | some interface =>
    obtain ⟨edges, asked, run⟩ := steady_plan (l := l) file interface
    refine ⟨asked, fun g hnodes m hm => ?_⟩
    have plan : Landscape.plan ⟨g, l.interfaces, l.resolver⟩ = l.plan := plan_onGraph hnodes
    have listed : ((l.plan file interface).run ∅).1 = edges :=
      congrArg Prod.fst (run ∅ (Memory.faithful_new []))
    dsimp only
    rw [plan, StateT.run_bind, run m hm, listed]
    rfl

/-- **The course of linking.** Linking some files in a row, by induction on them: over every graph
with the given nodes and from every faithful memory it adds the same edges and asks the same
questions. -/
theorem exists_course (l : Landscape) (files : List ParsedFile) :
    ∃ asked, ∀ g : SymbolGraph, (∀ id, g.contains id = l.graph.contains id) →
      ∀ m : Memory, m.Faithful l.resolver →
        (files.foldlM (linkFile l.resolver l.interfaces) g).run m =
          (g.addEdges (files.flatMap l.plannedEdges), l.resolver.after m asked) := by
  induction files with
  | nil => exact ⟨[], fun _ _ _ _ => rfl⟩
  | cons file files ih =>
    obtain ⟨asked, first⟩ := exists_course_linkFile l file
    obtain ⟨further, rest⟩ := ih
    refine ⟨asked ++ further, fun g hnodes m hm => ?_⟩
    have hnodes' : ∀ id, (g.addEdges (l.plannedEdges file)).contains id = l.graph.contains id :=
      fun id => (SymbolGraph.contains_addEdges_eq g _ id).trans (hnodes id)
    rw [List.foldlM_cons, StateT.run_bind, first g hnodes m hm, List.flatMap_cons,
      SymbolGraph.addEdges_append, after_append]
    exact rest _ hnodes' _ (hm.after asked)

end CodeAtlas.Link.Landscape
