import CodeAtlas.Proofs.Link.Binding
import CodeAtlas.Proofs.Script.OwnExports

/-!
# Own exports and `export *`

The search for a name that a module exports itself looks through the `export *` declarations of the
module first. They decide if they lead to a node, and otherwise the declaration of the module does
(`exists_originOfOwn`): the search never comes back empty, and it ends nowhere else.

Two views of the search are used. The steps of the program may confuse pairs whose marks are the
same text; whatever they find, some leads reach it (`Finds`). If no file has a `#` in its path, the
steps are a plain search, and what that finds along the `export *` declarations is exactly what
wins.
-/

namespace CodeAtlas.Link

open CodeAtlas.Resolution CodeAtlas.Script

/-! ## Leads in a row -/

section Leads

variable {P N : Type} {leads : P → List (Lead P N)} {present : N → Prop} {trail : List P}
  {ls more : List (Lead P N)} {r : Option N} {id : N}

/-- One of the leads is the node, or a chain from one of them ends at it. -/
def Reaches (leads : P → List (Lead P N)) (ls : List (Lead P N)) (id : N) : Prop :=
  .node id ∈ ls ∨ ∃ p, .place p ∈ ls ∧ Chain leads p id

theorem Reaches.subset (h : Reaches leads ls id) (hsub : ls ⊆ more) : Reaches leads more id :=
  h.imp (fun hnode => hsub hnode) fun ⟨p, hp, hchain⟩ => ⟨p, hsub hp, hchain⟩

theorem Reaches.place {p : P} (h : Reaches leads (leads p) id) :
    Reaches leads [.place p] id := by
  refine .inr ⟨p, List.mem_cons_self, ?_⟩
  rcases h with hnode | ⟨q, hq, hchain⟩
  · exact .ends hnode
  · exact .step hq hchain

/-- A search along two lists of leads is settled by the first one, or left to the second. -/
theorem PlainSearch.of_append (h : PlainSearch leads present trail (ls ++ more) r) :
    (∃ id, r = some id ∧ PlainSearch leads present trail ls (some id)) ∨
      (PlainSearch leads present trail ls none ∧ PlainSearch leads present trail more r) := by
  induction ls with
  | nil => exact .inr ⟨.nil, h⟩
  | cons lead ls ih =>
    rw [List.cons_append] at h
    cases h with
    | present hid => exact .inl ⟨_, rfl, .present hid⟩
    | absent hid rest =>
      rcases ih rest with ⟨id, rfl, first⟩ | ⟨first, second⟩
      · exact .inl ⟨id, rfl, .absent hid first⟩
      · exact .inr ⟨.absent hid first, second⟩
    | found hp inner => exact .inl ⟨_, rfl, .found hp inner⟩
    | missed hp inner rest =>
      rcases ih rest with ⟨id, rfl, first⟩ | ⟨first, second⟩
      · exact .inl ⟨id, rfl, .missed hp inner first⟩
      · exact .inr ⟨.missed hp inner first, second⟩
    | refused hp rest =>
      rcases ih rest with ⟨id, rfl, first⟩ | ⟨first, second⟩
      · exact .inl ⟨id, rfl, .refused hp first⟩
      · exact .inr ⟨.refused hp first, second⟩

theorem PlainSearch.of_place {p : P} (h : PlainSearch leads present [] [.place p] r) :
    PlainSearch leads present [p] (leads p) r := by
  cases h with
  | found _ inner => exact inner
  | missed _ inner rest =>
    cases rest
    exact inner
  | refused hp _ => exact absurd hp List.not_mem_nil

/-- Where a node is among the leads that is there, what comes before it decides, or the node does. -/
theorem PlainSearch.exists_first (h : PlainSearch leads present trail (ls ++ .node id :: more) r)
    (hid : present id) :
    ∃ first, PlainSearch leads present trail ls first ∧ r = some (first.getD id) := by
  rcases h.of_append with ⟨found, rfl, first⟩ | ⟨first, second⟩
  · exact ⟨some found, first, rfl⟩
  · cases second with
    | present _ => exact ⟨none, first, rfl⟩
    | absent hn _ => exact absurd hid hn

end Leads

namespace Landscape

variable {l : Landscape} {origin : String → String → Searching (Option NodeId)}
  {interface : ModuleInterface} {program : Tree} {path name declared : String}

/-! ## Imports before declarations -/

/-- The steps of a module follow some imports, and then look for a declaration. -/
theorem steps_eq (origin : String → String → Searching (Option NodeId))
    (interface : ModuleInterface) (path name : String) :
    l.steps origin interface path name =
      (interface.bindings name).map (l.bindingOriginWith origin path) ++
        (interface.renamed? name).toList.map fun inner =>
          pure (l.existing (.symbol path inner)) := by
  unfold steps ModuleInterface.bindings ModuleInterface.renamed?
  rw [List.map_append, List.map_append, List.append_assoc _ (List.map _ (Option.toList _))]
  refine congrArg₂ (· ++ ·) (congrArg₂ (· ++ ·) ?passedOn ?starred) ?exported
  case passedOn =>
    rcases interface.reexports[name]? with _ | ⟨specifier, inner⟩ | specifier <;> rfl
  case starred =>
    split
    · rfl
    · rw [List.map_map]
      rfl
  case exported =>
    cases interface.localExports[name]? with
    | none => rfl
    | some inner =>
      rw [Option.bind_some]
      dsimp only
      cases interface.imports[inner]? with
      | some binding => simp
      | none => by_cases hsame : inner = name <;> simp [hsame]

/-- The leads of a module are those of the imports that pass the name on, and then the declaration
that a local export names. -/
theorem moduleLeads_eq (interface : ModuleInterface) (path name : String) :
    l.moduleLeads interface path name =
      (interface.bindings name).flatMap (l.bindingLeads path) ++
        (interface.renamed? name).toList.map fun inner => .node (.symbol path inner) := by
  unfold moduleLeads ModuleInterface.bindings ModuleInterface.renamed?
  rw [List.flatMap_append, List.flatMap_append,
    List.append_assoc _ (List.flatMap _ (Option.toList _))]
  refine congrArg₂ (· ++ ·) (congrArg₂ (· ++ ·) ?passedOn ?starred) ?exported
  case passedOn =>
    rcases interface.reexports[name]? with _ | ⟨specifier, inner⟩ | specifier
    · rfl
    · exact (List.flatMap_singleton _ _).symm
    · exact (List.flatMap_singleton _ _).symm
  case starred =>
    split
    · rfl
    · exact (List.flatMap_map _ _ _).symm
  case exported =>
    cases interface.localExports[name]? with
    | none => rfl
    | some inner =>
      rw [Option.bind_some]
      dsimp only
      cases interface.imports[inner]? with
      | some binding => simp
      | none => by_cases hsame : inner = name <;> simp [hsame]

/-! ## What the steps find -/

/-- From every faithful memory the action leaves a faithful one, and a node that it finds is there
and reached by the leads. -/
def Finds (l : Landscape) (action : Searching (Option NodeId))
    (ls : List (Lead (String × String) NodeId)) : Prop :=
  ∀ s : Search, s.memory.Faithful l.resolver →
    (action.run s).2.memory.Faithful l.resolver ∧
      ∀ id, (action.run s).1 = some id → l.graph.contains id ∧ Reaches l.leads ls id

variable {ls more : List (Lead (String × String) NodeId)}

theorem finds_none : l.Finds (pure none) ls := fun _ hs => ⟨hs, fun _ h => nomatch h⟩

theorem finds_existing (id : NodeId) : l.Finds (pure (l.existing id)) [.node id] := by
  intro s hs
  refine ⟨hs, ?_⟩
  intro found h
  change l.existing id = some found at h
  unfold existing at h
  split at h
  · cases h
    exact ⟨‹_›, .inl List.mem_cons_self⟩
  · cases h

theorem Finds.singleton {a : Searching (Option NodeId)} (h : l.Finds a ls) :
    l.Finds (firstOf id [a]) ls := by
  intro s hs
  have run := h s hs
  rw [run_firstOf_cons]
  rcases ha : a.run s with ⟨_ | found, s'⟩ <;> rw [ha] at run
  · exact ⟨run.1, fun _ hnone => nomatch hnone⟩
  · exact run

/-- What two rows of steps find is reached by the leads of the first or of the second. -/
theorem Finds.append {as bs : List (Searching (Option NodeId))} (ha : l.Finds (firstOf id as) ls)
    (hb : l.Finds (firstOf id bs) more) : l.Finds (firstOf id (as ++ bs)) (ls ++ more) := by
  intro s hs
  have first := ha s hs
  rw [run_firstOf_append]
  rcases hrun : (firstOf id as).run s with ⟨_ | found, s'⟩ <;> rw [hrun] at first
  · obtain ⟨kept, second⟩ := hb s' first.1
    refine ⟨kept, fun id hid => ?_⟩
    obtain ⟨hcontains, hreach⟩ := second id hid
    exact ⟨hcontains, hreach.subset (List.subset_append_right ls more)⟩
  · refine ⟨first.1, fun id hid => ?_⟩
    obtain ⟨hcontains, hreach⟩ := first.2 id hid
    exact ⟨hcontains, hreach.subset (List.subset_append_left ls more)⟩

theorem Finds.flatMap {α : Type} {action : α → Searching (Option NodeId)}
    {lsOf : α → List (Lead (String × String) NodeId)} (h : ∀ a, l.Finds (action a) (lsOf a))
    (as : List α) : l.Finds (firstOf id (as.map action)) (as.flatMap lsOf) := by
  induction as with
  | nil => exact finds_none
  | cons a as ih => exact (h a).singleton.append ih

/-- Asking for a name in a file finds what the pair reaches. -/
def FindsNames (l : Landscape) (origin : String → String → Searching (Option NodeId)) : Prop :=
  ∀ path name, l.Finds (origin path name) [.place (path, name)]

/-- Following an import finds what the import leads to, if asking the other module does. -/
theorem finds_binding (h : l.FindsNames origin) (path : String) (binding : ImportBinding) :
    l.Finds (l.bindingOriginWith origin path binding) (l.bindingLeads path binding) := by
  intro s hs
  obtain ⟨hanswer, hfaithful⟩ := hs.resolve path binding.specifier
  simp only [run_bindingOriginWith, hanswer]
  unfold bindingLeads
  cases (l.resolver.answer path binding.specifier).1 with
  | none => exact ⟨hfaithful, fun _ hnone => nomatch hnone⟩
  | some target =>
    cases exportName binding.imported with
    | none => exact finds_existing (.file target) _ hfaithful
    | some name => exact h target name _ hfaithful

theorem finds_bindings (h : l.FindsNames origin) (path : String) (bindings : List ImportBinding) :
    l.Finds (firstOf id (bindings.map (l.bindingOriginWith origin path)))
      (bindings.flatMap (l.bindingLeads path)) :=
  Finds.flatMap (fun binding => finds_binding h path binding) bindings

theorem finds_steps (h : l.FindsNames origin) (interface : ModuleInterface) (path name : String) :
    l.Finds (firstOf id (l.steps origin interface path name))
      (l.moduleLeads interface path name) := by
  rw [steps_eq, moduleLeads_eq]
  refine (finds_bindings h path _).append ?_
  cases interface.renamed? name with
  | none => exact finds_none
  | some inner => exact (finds_existing (.symbol path inner)).singleton

theorem finds_stepsAt (h : l.FindsNames origin) (path name : String) :
    l.Finds (firstOf id (l.stepsAt origin path name ++
      [pure (l.existing (.symbol path name))])) (l.leads (path, name)) := by
  have own := (finds_existing (l := l) (.symbol path name)).singleton
  unfold stepsAt leads
  cases hinterface : l.interfaces[path]? with
  | none => simpa [hinterface] using own
  | some interface => simpa [hinterface] using (finds_steps h interface path name).append own

/-- Every search finds what its pair reaches. The induction is on the fuel. -/
theorem findsNames_originWithin (fuel : Nat) : l.FindsNames (l.originWithin fuel) := by
  induction fuel with
  | zero => exact fun _ _ => finds_none
  | succ fuel ih =>
    intro path name s hs
    rw [run_originWithin]
    by_cases hmarked : s.visited.contains (path ++ "#" ++ name)
    · rw [if_pos hmarked]
      exact ⟨hs, fun _ hnone => nomatch hnone⟩
    · rw [if_neg hmarked]
      obtain ⟨kept, found⟩ := finds_stepsAt ih path name
        { s with visited := s.visited.insert (path ++ "#" ++ name) } hs
      refine ⟨kept, fun id hid => ?_⟩
      obtain ⟨hcontains, hreach⟩ := found id hid
      exact ⟨hcontains, hreach.place⟩

/-! ## Before the own declaration -/

section OwnExport

variable (hexport : program.OwnExport declared name)

include hexport

/-- After the `export *` declarations the own declaration comes first among the leads. -/
theorem exists_leads_eq (hinterface : l.interfaces[path]? = some (.ofProgram program)) :
    ∃ rest, l.leads (path, name) =
      ((ModuleInterface.ofProgram program).starBindings name).flatMap (l.bindingLeads path) ++
        .node (.symbol path declared) :: rest := by
  have own : l.leads (path, name) =
      l.moduleLeads (.ofProgram program) path name ++ [.node (.symbol path name)] := by
    simp [leads, hinterface]
  rw [own, moduleLeads_eq, hexport.bindings_eq, hexport.renamed?_eq]
  by_cases hsame : declared = name
  · exact ⟨[], by simp [hsame]⟩
  · exact ⟨[.node (.symbol path name)], by simp [hsame]⟩

/-- The steps come in the order of the leads. -/
theorem exists_steps_eq (origin : String → String → Searching (Option NodeId))
    (hinterface : l.interfaces[path]? = some (.ofProgram program)) :
    ∃ rest, l.stepsAt origin path name ++ [pure (l.existing (.symbol path name))] =
      ((ModuleInterface.ofProgram program).starBindings name).map
          (l.bindingOriginWith origin path) ++
        pure (l.existing (.symbol path declared)) :: rest := by
  have steps : l.stepsAt origin path name = l.steps origin (.ofProgram program) path name := by
    simp [stepsAt, hinterface]
  rw [steps, steps_eq, hexport.bindings_eq, hexport.renamed?_eq]
  by_cases hsame : declared = name
  · exact ⟨[], by simp [hsame]⟩
  · exact ⟨[pure (l.existing (.symbol path name))], by simp [hsame]⟩

end OwnExport

/-! ## The origin of an own export -/

/-- Where the `export *` declarations of a module lead for a name. -/
def starLeads (l : Landscape) (interface : ModuleInterface) (path name : String) :
    List (Lead (String × String) NodeId) :=
  (interface.starBindings name).flatMap (l.bindingLeads path)

/-- What the search for an own export of a module yields, whatever was asked before: the
declaration, or a node that the `export *` declarations lead to. -/
structure OriginOfOwn (l : Landscape) (interface : ModuleInterface) (path name : String)
    (own id : NodeId) : Prop where
  found : ∀ memory : Memory, memory.Faithful l.resolver →
    ((l.origin path name).run memory).1 = some id
  present : l.graph.contains id
  cause : id = own ∨ Reaches l.leads (l.starLeads interface path name) id
  /-- If marks tell pairs apart, the `export *` declarations win whenever a search along them, in
  their order and without coming back to the pair, finds a node. -/
  first : (∀ file ∈ l.resolver.known, '#' ∉ file.toList) → '#' ∉ path.toList →
    ∃ first, PlainSearch l.leads (fun id => l.graph.contains id) [(path, name)]
        (l.starLeads interface path name) first ∧ id = first.getD own

/-- The answer to a search does not depend on the memory it starts with. -/
theorem run_origin_eq {m n : Memory} (hm : m.Faithful l.resolver) (hn : n.Faithful l.resolver)
    (path name : String) :
    ((l.origin path name).run m).1 = ((l.origin path name).run n).1 :=
  (alike_originWithin (fun _ => rfl) l.searchBound path name ⟨m, ∅⟩ ⟨n, ∅⟩ hm hn rfl).result

/-- The steps along the `export *` declarations find something, or the own declaration does. -/
theorem exists_run_origin (hexport : program.OwnExport declared name)
    (hinterface : l.interfaces[path]? = some (.ofProgram program))
    (hpresent : l.graph.contains (.symbol path declared)) {m : Memory}
    (hm : m.Faithful l.resolver) :
    ∃ id, ((l.origin path name).run m).1 = some id ∧ l.graph.contains id ∧
      (id = .symbol path declared ∨
        Reaches l.leads (l.starLeads (.ofProgram program) path name) id) := by
  obtain ⟨fuel, hfuel⟩ : ∃ fuel, l.searchBound = fuel + 1 := ⟨_, rfl⟩
  let entered : Search := ⟨m, (∅ : Text.TextSet).insert (path ++ "#" ++ name)⟩
  let starSteps := ((ModuleInterface.ofProgram program).starBindings name).map
    (l.bindingOriginWith (l.originWithin fuel) path)
  obtain ⟨rest, hsteps⟩ := exists_steps_eq hexport (l.originWithin fuel) hinterface
  have run : ((l.origin path name).run m).1 =
      ((firstOf id (starSteps ++ pure (l.existing (.symbol path declared)) :: rest)).run
        entered).1 := by
    have start : ((l.origin path name).run m).1 =
        ((l.originWithin l.searchBound path name).run ⟨m, ∅⟩).1 := rfl
    rw [start, hfuel, run_originWithin, if_neg (by simp), hsteps]
  have own : l.existing (.symbol path declared) = some (.symbol path declared) := if_pos hpresent
  obtain ⟨-, finds⟩ := finds_bindings (findsNames_originWithin fuel) path
    ((ModuleInterface.ofProgram program).starBindings name) entered hm
  rw [run, run_firstOf_append]
  -- the steps along `export *` come back empty, and the next one finds the declaration, or they
  -- find a node, and nothing after them is run
  rcases hstar : (firstOf id starSteps).run entered with ⟨_ | found, s⟩
  · refine ⟨.symbol path declared, ?_, hpresent, .inl rfl⟩
    rw [own]
    rfl
  · rw [hstar] at finds
    obtain ⟨hcontains, hreach⟩ := finds found rfl
    exact ⟨found, rfl, hcontains, .inr hreach⟩

/-- Without a `#` in any path, the plain search along the `export *` declarations settles the
origin, or leaves it to the own declaration. -/
theorem exists_first_origin (hexport : program.OwnExport declared name)
    (hinterface : l.interfaces[path]? = some (.ofProgram program))
    (hpresent : l.graph.contains (.symbol path declared))
    (hknown : ∀ file ∈ l.resolver.known, '#' ∉ file.toList) (hpath : '#' ∉ path.toList)
    {m : Memory} (hm : m.Faithful l.resolver) :
    ∃ first, PlainSearch l.leads (fun id => l.graph.contains id) [(path, name)]
        (l.starLeads (.ofProgram program) path name) first ∧
      ((l.origin path name).run m).1 = some (first.getD (.symbol path declared)) := by
  -- without a `#` in the paths no two pairs share a mark, so the program makes a plain search
  obtain ⟨r, s, seen, search, run⟩ := exists_sharedSearch hknown hpath name hm
  obtain ⟨rest, hleads⟩ := exists_leads_eq hexport hinterface
  have entered := search.plain.of_place
  rw [hleads] at entered
  obtain ⟨first, hfirst, hr⟩ := entered.exists_first hpresent
  have result : ((l.origin path name).run m).1 = r := congrArg Prod.fst (run _ (Nat.le_refl _))
  exact ⟨first, hfirst, result.trans hr⟩

/-- A name that a module exports itself has an origin, which is its declaration or what the `export
*` declarations of the module lead to. -/
theorem exists_originOfOwn (hexport : program.OwnExport declared name)
    (hinterface : l.interfaces[path]? = some (.ofProgram program))
    (hpresent : l.graph.contains (.symbol path declared)) :
    ∃ id, l.OriginOfOwn (.ofProgram program) path name (.symbol path declared) id := by
  have new : Memory.Faithful l.resolver ⟨∅, []⟩ := Memory.faithful_new []
  obtain ⟨id, hid, hcontains, hcause⟩ := exists_run_origin hexport hinterface hpresent new
  refine ⟨id, ?_, hcontains, hcause, ?_⟩
  · intro memory hmemory
    rw [run_origin_eq hmemory new, hid]
  · intro hknown hpath
    obtain ⟨first, hfirst, hr⟩ :=
      exists_first_origin hexport hinterface hpresent hknown hpath new
    refine ⟨first, hfirst, ?_⟩
    rw [hid] at hr
    exact Option.some.inj hr

/-- An import of the name from the module has this origin. -/
theorem OriginOfOwn.originOf_eq {own id : NodeId}
    (h : l.OriginOfOwn interface path name own id) {importer : String} {binding : ImportBinding}
    (hname : exportName binding.imported = some name)
    (htarget : (l.resolver.answer importer binding.specifier).1 = some path) :
    l.originOf importer binding = some id := by
  have new : Memory.Faithful l.resolver ∅ := Memory.faithful_new []
  obtain ⟨hanswer, hfaithful⟩ := new.resolve importer binding.specifier
  have run : l.originOf importer binding =
      ((l.bindingOriginWith (l.originWithin l.searchBound) importer binding).run ⟨∅, ∅⟩).1 := rfl
  rw [run, run_bindingOriginWith]
  dsimp only
  rw [hanswer, htarget]
  dsimp only
  rw [hname]
  exact h.found _ hfaithful

end Landscape

end CodeAtlas.Link
