import CodeAtlas.Link.Plan
import CodeAtlas.Proofs.Link.Origin
import CodeAtlas.Proofs.Resolution.Memory

/-!
# What was reported before linking

Linking only appends to the diagnostics and never looks at them. So it does the same whatever was
reported before, and the earlier diagnostics stay in front of its own (`commutes_link`).

`Commutes f action` says that an action does not tell a state from its image under `f`: it yields
the same result and ends in the image. This is closed under everything linking is made of, so the
argument is about the two places only that touch the memory, a question to the resolver and the
marks of a search.
-/

namespace CodeAtlas

/-- The action yields the same result from a state and from its image, and ends in the image. -/
def Commutes {σ α : Type} (f : σ → σ) (action : StateM σ α) : Prop :=
  ∀ s, action.run (f s) = ((action.run s).1, f (action.run s).2)

section Commutes

variable {σ α β : Type} {f : σ → σ}

theorem commutes_pure (a : α) : Commutes f (pure a) := fun _ => rfl

/-- Actions in a row commute if each of them does, whatever the first one yields. -/
theorem Commutes.bind {x : StateM σ α} {g : α → StateM σ β} (hx : Commutes f x)
    (hg : ∀ a, Commutes f (g a)) : Commutes f (x >>= g) := by
  intro s
  have first := hx s
  have second := hg (x.run s).1 (x.run s).2
  rw [StateT.run_bind, first]
  exact second

theorem commutes_mapM {g : α → StateM σ β} (h : ∀ a, Commutes f (g a)) (as : List α) :
    Commutes f (as.mapM g) := by
  induction as with
  | nil => exact commutes_pure []
  | cons a as ih =>
    rw [List.mapM_cons]
    exact (h a).bind fun b => ih.bind fun bs => commutes_pure (b :: bs)

theorem commutes_foldlM {g : β → α → StateM σ β} (h : ∀ b a, Commutes f (g b a)) (as : List α)
    (b : β) : Commutes f (as.foldlM g b) := by
  induction as generalizing b with
  | nil => exact commutes_pure b
  | cons a as ih =>
    rw [List.foldlM_cons]
    exact (h b a).bind fun c => ih c

end Commutes

/-! ## Questions -/

namespace Resolution

/-- The memory with some diagnostics before its own. -/
def Memory.behind (earlier : List Diagnostic) (m : Memory) : Memory :=
  ⟨m.answers, earlier ++ m.diagnostics⟩

/-- A question commutes with diagnostics in front: it looks at the answers only, and what it reports
comes last. -/
theorem commutes_resolve (r : Resolver) (earlier : List Diagnostic) (importer specifier : String) :
    Commutes (Memory.behind earlier) (r.resolve importer specifier) := by
  intro m
  cases h : m.answers[(importer, specifier)]? with
  | some result =>
    have remembered : (m.behind earlier).answers[(importer, specifier)]? = some result := h
    rw [resolve_of_remembered h, resolve_of_remembered remembered]
  | none =>
    have new : (m.behind earlier).answers[(importer, specifier)]? = none := h
    rw [resolve_of_new h, resolve_of_new new]
    simp [Memory.behind]

end Resolution

namespace Link

open CodeAtlas.Resolution CodeAtlas.Script

/-- The search with some diagnostics before those of its memory. -/
def Search.behind (earlier : List Diagnostic) (s : Search) : Search :=
  { s with memory := s.memory.behind earlier }

namespace Landscape

variable {l : Landscape} {earlier : List Diagnostic}

/-! ## Searches -/

theorem commutes_firstOf {as : List (Searching (Option NodeId))}
    (h : ∀ a ∈ as, Commutes (Search.behind earlier) a) :
    Commutes (Search.behind earlier) (firstOf id as) := by
  induction as with
  | nil => exact commutes_pure none
  | cons a as ih =>
    obtain ⟨first, rest⟩ := List.forall_mem_cons.mp h
    unfold firstOf
    refine first.bind fun found => ?_
    cases found with
    | some found => exact commutes_pure (some found)
    | none => exact ih rest

theorem commutes_bindingOriginWith {origin : String → String → Searching (Option NodeId)}
    (horigin : ∀ path name, Commutes (Search.behind earlier) (origin path name)) (path : String)
    (binding : ImportBinding) :
    Commutes (Search.behind earlier) (l.bindingOriginWith origin path binding) := by
  have resolve : Commutes (Search.behind earlier) (l.resolve path binding.specifier) := by
    intro s
    have run : ∀ s : Search, (l.resolve path binding.specifier).run s =
        (((l.resolver.resolve path binding.specifier).run s.memory).1,
          { s with memory := ((l.resolver.resolve path binding.specifier).run s.memory).2 }) :=
      fun _ => rfl
    have asked := commutes_resolve l.resolver earlier path binding.specifier s.memory
    rw [run, run]
    simp only [Search.behind, asked]
  unfold bindingOriginWith
  refine resolve.bind fun target => ?_
  cases target with
  | none => exact commutes_pure none
  | some target =>
    dsimp only
    cases exportName binding.imported with
    | some name => exact horigin target name
    | none => exact commutes_pure (l.existing (.file target))

theorem commutes_entering {action : Searching (Option NodeId)}
    (h : Commutes (Search.behind earlier) action) (path name : String) :
    Commutes (Search.behind earlier) (entering path name action) := by
  intro s
  have same : (s.behind earlier).visited = s.visited := rfl
  rw [run_entering, run_entering, same]
  by_cases hmarked : s.visited.contains (path ++ "#" ++ name)
  · rw [if_pos hmarked, if_pos hmarked]
  · rw [if_neg hmarked, if_neg hmarked]
    exact h { s with visited := s.visited.insert (path ++ "#" ++ name) }

/-- Every search commutes, since a search touches the memory by questions alone. -/
theorem commutes_originWithin (fuel : Nat) (path name : String) :
    Commutes (Search.behind earlier) (l.originWithin fuel path name) :=
  forall_originWithin (fun id => commutes_pure (l.existing id))
    (fun _ => commutes_bindingOriginWith) (fun _ => commutes_firstOf)
    (fun path name _ h => commutes_entering h path name) fuel path name

theorem commutes_bindingOrigin (path : String) (binding : ImportBinding) :
    Commutes (Memory.behind earlier) (l.bindingOrigin path binding) := by
  intro m
  have origin : ∀ path name,
      Commutes (Search.behind earlier) (l.originWithin l.searchBound path name) :=
    commutes_originWithin l.searchBound
  have searched : Commutes (Search.behind earlier)
      (l.bindingOriginWith (l.originWithin l.searchBound) path binding) :=
    commutes_bindingOriginWith origin path binding
  have run : ∀ m : Memory, (l.bindingOrigin path binding).run m =
      (((l.bindingOriginWith (l.originWithin l.searchBound) path binding).run ⟨m, ∅⟩).1,
        ((l.bindingOriginWith (l.originWithin l.searchBound) path binding).run ⟨m, ∅⟩).2.memory) :=
    fun _ => rfl
  have start : (⟨m.behind earlier, ∅⟩ : Search) = Search.behind earlier ⟨m, ∅⟩ := rfl
  rw [run, run, start, searched ⟨m, ∅⟩]
  rfl

/-! ## Plans -/

theorem commutes_plan (file : ParsedFile) (interface : ModuleInterface) :
    Commutes (Memory.behind earlier) (l.plan file interface) := by
  have imports : Commutes (Memory.behind earlier) (l.importOrigins file.path interface) := by
    unfold importOrigins
    refine (commutes_mapM (fun e => ?_) _).bind fun found => commutes_pure _
    exact (commutes_bindingOrigin file.path e.2).bind fun origin => commutes_pure _
  have targets : ∀ specifiers : List String,
      Commutes (Memory.behind earlier) (l.fileTargets file.path specifiers) := by
    intro specifiers
    unfold fileTargets
    refine (commutes_mapM (fun specifier => ?_) _).bind fun found => commutes_pure _
    exact commutes_resolve l.resolver earlier file.path specifier
  unfold plan
  refine imports.bind fun origins => (targets _).bind fun named => ?_
  exact (targets _).bind fun dynamic => commutes_pure _

end Landscape

theorem commutes_linkFile (resolver : Resolver) (interfaces : Interfaces) (graph : SymbolGraph)
    (file : ParsedFile) (earlier : List Diagnostic) :
    Commutes (Memory.behind earlier) (linkFile resolver interfaces graph file) := by
  unfold linkFile
  cases interfaces[file.path]? with
  | none => exact commutes_pure graph
  | some interface => exact (Landscape.commutes_plan file interface).bind fun edges => commutes_pure _

/-- Linking does the same whatever was reported before, and appends to it. -/
theorem commutes_link (resolver : Resolver) (cache : ProgramCache) (graph : SymbolGraph)
    (earlier : List Diagnostic) :
    Commutes (Memory.behind earlier) (link resolver cache graph) := by
  unfold link
  refine (commutes_foldlM (fun g file => ?_) cache.toList graph).bind fun linked => commutes_pure _
  exact commutes_linkFile resolver (interfacesOf cache) g file earlier

end Link

end CodeAtlas
