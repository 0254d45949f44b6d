import CodeAtlas.Proofs.Link.Origin
import Mathlib.Data.List.Forall2

/-!
# The origin of an import

The search for the origin of an import asks the resolver and looks which nodes are there. So the
origin (`originOf`) depends neither on what the resolver was asked before nor on the edges of the
graph (`answers_bindingOrigin`), and it is a node (`contains_of_originOf`). Linking relies on it:
the memory and the edges change from file to file, and the origins do not.

Two searches are run side by side, over graphs with the same nodes and from two memories. No
assumption is made about `#` in paths: whatever the marks confuse, both searches confuse.
-/

namespace CodeAtlas.Link.Landscape

open CodeAtlas.Resolution CodeAtlas.Script CodeAtlas.Text

/-- The origin of an import of the module `path`. -/
def originOf (l : Landscape) (path : String) (binding : ImportBinding) : Option NodeId :=
  ((l.bindingOrigin path binding).run ∅).1

/-- Two runs ended alike: with one result, which is a node if there is one, with the same marks
and with faithful memories. -/
structure Agree (l : Landscape) (a b : Option NodeId × Search) : Prop where
  result : a.1 = b.1
  visited : a.2.visited = b.2.visited
  first : a.2.memory.Faithful l.resolver
  second : b.2.memory.Faithful l.resolver
  present : ∀ id, a.1 = some id → l.graph.contains id

/-- Two steps of a search agree if they start with the same marks and faithful memories. -/
def Alike (l : Landscape) (a b : Searching (Option NodeId)) : Prop :=
  ∀ s t : Search, s.memory.Faithful l.resolver → t.memory.Faithful l.resolver →
    s.visited = t.visited → l.Agree (a.run s) (b.run t)

/-- The landscape over another graph. -/
def onGraph (l : Landscape) (g : SymbolGraph) : Landscape := { l with graph := g }

variable {l : Landscape} {g : SymbolGraph}

@[simp] theorem onGraph_graph : (l.onGraph g).graph = g := rfl

@[simp] theorem onGraph_interfaces : (l.onGraph g).interfaces = l.interfaces := rfl

@[simp] theorem onGraph_resolver : (l.onGraph g).resolver = l.resolver := rfl

/-! ## Steps that agree -/

theorem alike_none : l.Alike (pure none) (pure none) :=
  fun _ _ hs ht hmarks => ⟨rfl, hmarks, hs, ht, fun _ h => nomatch h⟩

theorem alike_existing (hnodes : ∀ id, g.contains id = l.graph.contains id) (id : NodeId) :
    l.Alike (pure (l.existing id)) (pure ((l.onGraph g).existing id)) := by
  intro s t hs ht hmarks
  have same : (l.onGraph g).existing id = l.existing id := by
    unfold existing onGraph
    rw [hnodes id]
  rw [same]
  refine ⟨rfl, hmarks, hs, ht, ?_⟩
  intro found h
  change l.existing id = some found at h
  unfold existing at h
  split at h
  · cases h
    assumption
  · cases h

theorem alike_firstOf {as bs : List (Searching (Option NodeId))} (h : List.Forall₂ l.Alike as bs) :
    l.Alike (firstOf id as) (firstOf id bs) := by
  induction h with
  | nil => exact alike_none
  | @cons a b as bs hab _ ih =>
    intro s t hs ht hmarks
    have heads := hab s t hs ht hmarks
    rw [run_firstOf_cons, run_firstOf_cons]
    rcases ha : a.run s with ⟨_ | found, s'⟩ <;> rcases hb : b.run t with ⟨_ | found', t'⟩ <;>
      rw [ha, hb] at heads
    · exact ih s' t' heads.first heads.second heads.visited
    · cases heads.result
    · cases heads.result
    · exact heads

/-- Following an import is alike in both searches: the resolver answers by its rule from any
faithful memory, so both go on from the same file. -/
theorem alike_bindingOriginWith {origin origin' : String → String → Searching (Option NodeId)}
    (hnodes : ∀ id, g.contains id = l.graph.contains id)
    (h : ∀ path name, l.Alike (origin path name) (origin' path name)) (path : String)
    (binding : ImportBinding) :
    l.Alike (l.bindingOriginWith origin path binding)
      ((l.onGraph g).bindingOriginWith origin' path binding) := by
  intro s t hs ht hmarks
  obtain ⟨hs1, hs2⟩ := hs.resolve path binding.specifier
  obtain ⟨ht1, ht2⟩ := ht.resolve path binding.specifier
  rw [run_bindingOriginWith, run_bindingOriginWith, onGraph_resolver]
  dsimp only
  rw [hs1, ht1]
  cases (l.resolver.answer path binding.specifier).1 with
  | none => exact alike_none _ _ hs2 ht2 hmarks
  | some target =>
    dsimp only
    cases exportName binding.imported with
    | none => exact alike_existing hnodes (.file target) _ _ hs2 ht2 hmarks
    | some name => exact h target name _ _ hs2 ht2 hmarks

/-- The steps of a module are the same in both searches, one by one, since its interface is. -/
theorem alike_steps {origin origin' : String → String → Searching (Option NodeId)}
    (hnodes : ∀ id, g.contains id = l.graph.contains id)
    (h : ∀ path name, l.Alike (origin path name) (origin' path name))
    (interface : ModuleInterface) (path name : String) :
    List.Forall₂ l.Alike (l.steps origin interface path name)
      ((l.onGraph g).steps origin' interface path name) := by
  have binding := alike_bindingOriginWith hnodes h path
  unfold steps
  refine List.rel_append (List.rel_append ?reexported ?starred) ?exported
  case reexported =>
    rcases interface.reexports[name]? with _ | ⟨specifier, inner⟩ | specifier
    · exact .nil
    · exact .cons (binding _) .nil
    · exact .cons (binding _) .nil
  case starred =>
    split
    · exact .nil
    · exact List.forall₂_map_left_iff.mpr
        (List.forall₂_map_right_iff.mpr (List.forall₂_same.mpr fun _ _ => binding _))
  case exported =>
    cases interface.localExports[name]? with
    | none => exact .nil
    | some inner =>
      dsimp only
      cases interface.imports[inner]? with
      | some b => exact .cons (binding b) .nil
      | none =>
        dsimp only
        split
        · exact .nil
        · exact .cons (alike_existing hnodes _) .nil

theorem alike_stepsAt {origin origin' : String → String → Searching (Option NodeId)}
    (hnodes : ∀ id, g.contains id = l.graph.contains id)
    (h : ∀ path name, l.Alike (origin path name) (origin' path name)) (path name : String) :
    List.Forall₂ l.Alike (l.stepsAt origin path name) ((l.onGraph g).stepsAt origin' path name) := by
  unfold stepsAt
  rw [onGraph_interfaces]
  cases l.interfaces[path]? with
  | none => exact .nil
  | some interface => exact alike_steps hnodes h interface path name

/-- The two searches agree. The induction is on the fuel; both mark the same pairs, so neither
enters one that the other passes over. -/
theorem alike_originWithin (hnodes : ∀ id, g.contains id = l.graph.contains id) (fuel : Nat)
    (path name : String) :
    l.Alike (l.originWithin fuel path name) ((l.onGraph g).originWithin fuel path name) := by
  induction fuel generalizing path name with
  | zero => exact alike_none
  | succ fuel ih =>
    intro s t hs ht hmarks
    rw [run_originWithin, run_originWithin, hmarks]
    by_cases hmarked : t.visited.contains (path ++ "#" ++ name)
    · rw [if_pos hmarked, if_pos hmarked]
      exact alike_none s t hs ht hmarks
    · rw [if_neg hmarked, if_neg hmarked]
      have own : List.Forall₂ l.Alike [pure (l.existing (.symbol path name))]
          [pure ((l.onGraph g).existing (.symbol path name))] :=
        .cons (alike_existing hnodes _) .nil
      have steps := List.rel_append (alike_stepsAt hnodes ih path name) own
      exact alike_firstOf steps _ _ hs ht rfl

/-! ## The origin of an import -/

theorem agree_bindingOrigin (hnodes : ∀ id, g.contains id = l.graph.contains id) (path : String)
    (binding : ImportBinding) {m n : Memory} (hm : m.Faithful l.resolver)
    (hn : n.Faithful l.resolver) :
    l.Agree ((l.bindingOriginWith (l.originWithin l.searchBound) path binding).run ⟨m, ∅⟩)
      (((l.onGraph g).bindingOriginWith ((l.onGraph g).originWithin l.searchBound) path binding).run
        ⟨n, ∅⟩) :=
  alike_bindingOriginWith hnodes (alike_originWithin hnodes _) path binding _ _ hm hn rfl

/-- Over every graph with the same nodes and from every faithful memory, the origin of an import
is the same. -/
theorem answers_bindingOrigin (hnodes : ∀ id, g.contains id = l.graph.contains id)
    (path : String) (binding : ImportBinding) :
    Answers l.resolver ((l.onGraph g).bindingOrigin path binding) (l.originOf path binding) := by
  intro m hm
  have agree := agree_bindingOrigin hnodes path binding (Memory.faithful_new []) hm
  exact ⟨agree.result.symm, agree.second⟩

/-- The origin of an import is a node: a search yields only what it has looked up. -/
theorem contains_of_originOf {path : String} {binding : ImportBinding} {id : NodeId}
    (h : l.originOf path binding = some id) : l.graph.contains id :=
  (agree_bindingOrigin (fun _ => rfl) path binding (Memory.faithful_new [])
    (Memory.faithful_new [])).present id h

theorem originOf_onGraph (hnodes : ∀ id, g.contains id = l.graph.contains id) (path : String)
    (binding : ImportBinding) : (l.onGraph g).originOf path binding = l.originOf path binding :=
  (answers_bindingOrigin hnodes path binding _ (Memory.faithful_new [])).1

end CodeAtlas.Link.Landscape
