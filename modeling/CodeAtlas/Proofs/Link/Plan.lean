import CodeAtlas.Link.Plan
import CodeAtlas.Proofs.Link.Binding
import CodeAtlas.Proofs.Script.Uses

/-!
# The planned edges of a file

`Planned` says which edges a file calls for: to the origins of its imports, to the files that its
specifiers name alone, and from its declarations to the origins of the imports that they use. The
plan of the file lists just those that are no loops (`exists_plan`), whatever edges the graph has
already and whatever the resolver was asked before.
-/

namespace CodeAtlas.Link

open CodeAtlas.Resolution CodeAtlas.Script CodeAtlas.Text

/-! ## Collecting edges -/

theorem mem_pushEdge {plan : List Edge} {e e' : Edge} :
    e' ∈ pushEdge plan e ↔ e' ∈ plan ∨ (e.1 ≠ e.2 ∧ e' = e) := by
  unfold pushEdge
  by_cases hloop : e.1 = e.2
  · simp [hloop]
  · by_cases hold : e ∈ plan
    · rw [if_pos (by simp [hold])]
      constructor
      · exact .inl
      · rintro (h | ⟨-, rfl⟩)
        · exact h
        · exact hold
    · rw [if_neg (by simp [hloop, hold]), List.mem_append, List.mem_singleton]
      simp [hloop]

/-- Collecting edges keeps each of them once and leaves out loops. -/
theorem mem_foldl_pushEdge {edges plan : List Edge} {e : Edge} :
    e ∈ edges.foldl pushEdge plan ↔ e ∈ plan ∨ (e.1 ≠ e.2 ∧ e ∈ edges) := by
  induction edges generalizing plan with
  | nil => simp
  | cons a edges ih =>
    rw [List.foldl_cons, ih, mem_pushEdge, List.mem_cons]
    constructor
    · rintro ((h | ⟨hloop, rfl⟩) | ⟨hloop, h⟩)
      · exact .inl h
      · exact .inr ⟨hloop, .inl rfl⟩
      · exact .inr ⟨hloop, .inr h⟩
    · rintro (h | ⟨hloop, rfl | h⟩)
      · exact .inl (.inl h)
      · exact .inl (.inr ⟨hloop, rfl⟩)
      · exact .inr ⟨hloop, h⟩

namespace Landscape

variable (l : Landscape)

/-! ## What a file calls for -/

/-- The file imports something as `name`, which has the origin `id`. -/
def Imports (path : String) (interface : ModuleInterface) (name : String) (id : NodeId) : Prop :=
  ∃ binding, interface.imports[name]? = some binding ∧ l.originOf path binding = some id

/-- One of the specifiers that a file gives without names leads to the file `target`: an import
for its effects, a source of exports, or a dynamic import. -/
def Names (file : ParsedFile) (interface : ModuleInterface) (target : String) : Prop :=
  ∃ specifier, specifier ∈ interface.sideEffects ++ interface.reexportSources ++
      file.program.dynamicSpecifiers ∧
    (l.resolver.answer file.path specifier).1 = some target

/-- The declaration `owner` of a file uses a name of its imports, which has the origin `id`. -/
def Uses (file : ParsedFile) (interface : ModuleInterface) (owner : String) (id : NodeId) : Prop :=
  ∃ name, ⟨name, some owner⟩ ∈ (file.program.references interface.imports.keys).uses ∧
    l.Imports file.path interface name id

/-- The edges that a file calls for. -/
inductive Planned (file : ParsedFile) (interface : ModuleInterface) : NodeId → NodeId → Prop where
  | imported {name : String} {id : NodeId} (h : l.Imports file.path interface name id) :
      Planned file interface (.file file.path) id
  | named {target : String} (h : l.Names file interface target) :
      Planned file interface (.file file.path) (.file target)
  | used {owner : String} {id : NodeId} (h : l.Uses file interface owner id)
      (howner : l.graph.contains (.symbol file.path owner)) :
      Planned file interface (.symbol file.path owner) id

variable {l} {g : SymbolGraph}

theorem imports_onGraph (hnodes : ∀ id, g.contains id = l.graph.contains id) {path name : String}
    {interface : ModuleInterface} {id : NodeId} :
    (l.onGraph g).Imports path interface name id ↔ l.Imports path interface name id := by
  simp only [Imports, originOf_onGraph hnodes]

/-- What a file calls for depends on the nodes of the graph alone. -/
theorem planned_onGraph (hnodes : ∀ id, g.contains id = l.graph.contains id) {file : ParsedFile}
    {interface : ModuleInterface} {a b : NodeId} :
    (l.onGraph g).Planned file interface a b ↔ l.Planned file interface a b := by
  constructor
  · rintro (h | h | @⟨owner, node, ⟨name, huse, h⟩, howner⟩)
    · exact .imported ((imports_onGraph hnodes).mp h)
    · exact .named h
    · refine .used ⟨name, huse, (imports_onGraph hnodes).mp h⟩ ?_
      rw [← hnodes]
      exact howner
  · rintro (h | h | @⟨owner, node, ⟨name, huse, h⟩, howner⟩)
    · exact .imported ((imports_onGraph hnodes).mpr h)
    · exact .named h
    · refine .used ⟨name, huse, (imports_onGraph hnodes).mpr h⟩ ?_
      rw [← hnodes] at howner
      exact howner

variable (l)

/-! ## The parts of a plan -/

/-- The imports of a file that have an origin, with their origins. -/
def origins (path : String) (interface : ModuleInterface) : List (String × NodeId) :=
  (interface.imports.toList.map fun e => (l.originOf path e.2).map (e.1, ·)).filterMap id

variable {l}

theorem mem_origins {path : String} {interface : ModuleInterface} {name : String} {id : NodeId} :
    (name, id) ∈ l.origins path interface ↔ l.Imports path interface name id :=
  TextMap.mem_filterMap_toList

theorem lookup_origins {path : String} {interface : ModuleInterface} {name : String}
    {id : NodeId} :
    (l.origins path interface).lookup name = some id ↔ l.Imports path interface name id :=
  TextMap.lookup_filterMap_toList

/-- Looking for the origins of all imports yields those that are fixed by the nodes, from every
faithful memory. -/
theorem answers_importOrigins (hnodes : ∀ id, g.contains id = l.graph.contains id)
    (path : String) (interface : ModuleInterface) :
    Answers l.resolver ((l.onGraph g).importOrigins path interface) (l.origins path interface) := by
  have each : ∀ e : String × ImportBinding, Answers l.resolver
      (do return (← (l.onGraph g).bindingOrigin path e.2).map (e.1, ·))
      ((l.originOf path e.2).map (e.1, ·)) := fun e =>
    (answers_bindingOrigin hnodes path e.2).bind (answers_pure _)
  exact (answers_mapM each interface.imports.toList).bind (answers_pure _)

theorem answers_fileTargets (path : String) (specifiers : List String) :
    Answers l.resolver ((l.onGraph g).fileTargets path specifiers)
      (((specifiers.map fun s => (l.resolver.answer path s).1).filterMap id).map .file) :=
  (answers_mapM (fun s => answers_resolve path s) specifiers).bind (answers_pure _)

theorem mem_importEdges {path : String} {interface : ModuleInterface} {here a b : NodeId} :
    (a, b) ∈ (l.origins path interface).map (fun o => (here, o.2)) ↔
      a = here ∧ ∃ name, l.Imports path interface name b := by
  rw [List.mem_map]
  constructor
  · rintro ⟨⟨name, origin⟩, h, hpair⟩
    cases hpair
    exact ⟨rfl, name, mem_origins.mp h⟩
  · rintro ⟨rfl, name, h⟩
    exact ⟨(name, b), mem_origins.mpr h, rfl⟩

theorem mem_targetEdges {path : String} {specifiers : List String} {here a b : NodeId} :
    (a, b) ∈ (((specifiers.map fun s => (l.resolver.answer path s).1).filterMap id).map
        NodeId.file).map (here, ·) ↔
      a = here ∧ ∃ s ∈ specifiers, ∃ target, (l.resolver.answer path s).1 = some target ∧
        b = .file target := by
  simp only [List.mem_map, List.mem_filterMap, id_eq]
  constructor
  · rintro ⟨_, ⟨target, ⟨_, ⟨s, hs, rfl⟩, hanswer⟩, rfl⟩, hpair⟩
    cases hpair
    exact ⟨rfl, s, hs, target, hanswer, rfl⟩
  · rintro ⟨rfl, s, hs, target, hanswer, rfl⟩
    exact ⟨_, ⟨target, ⟨_, ⟨s, hs, rfl⟩, hanswer⟩, rfl⟩, rfl⟩

/-- A use becomes an edge if it has an owner with a node and its name has an origin. -/
theorem mem_useEdges {path : String} {origins : List (String × NodeId)} {uses : List NameUse}
    {a b : NodeId} :
    (a, b) ∈ l.useEdges path origins uses ↔
      ∃ name owner, ⟨name, some owner⟩ ∈ uses ∧ origins.lookup name = some b ∧
        l.graph.contains (.symbol path owner) ∧ a = .symbol path owner := by
  unfold useEdges
  rw [List.mem_filterMap]
  constructor
  · rintro ⟨⟨name, _ | owner⟩, huse, h⟩
    · cases h
    · simp only [bind, Option.bind_some, Option.bind_eq_some_iff] at h
      obtain ⟨origin, horigin, h⟩ := h
      by_cases howner : l.graph.contains (.symbol path owner)
      · rw [if_pos howner] at h
        cases h
        exact ⟨name, owner, huse, horigin, howner, rfl⟩
      · rw [if_neg howner] at h
        cases h
  · rintro ⟨name, owner, huse, horigin, howner, rfl⟩
    exact ⟨⟨name, some owner⟩, huse, by simp [horigin, howner]⟩

/-- The names that linking asks for are those with an origin; asking for all imports finds the
same uses of them. -/
theorem mem_uses_iff {file : ParsedFile} {interface : ModuleInterface} {name : String}
    {owner : Option String} {id : NodeId} (h : l.Imports file.path interface name id) :
    ⟨name, owner⟩ ∈
        (file.program.references ((l.origins file.path interface).map (·.1))).uses ↔
      ⟨name, owner⟩ ∈ (file.program.references interface.imports.keys).uses := by
  have asked : name ∈ (l.origins file.path interface).map (·.1) :=
    List.mem_map.mpr ⟨(name, id), mem_origins.mpr h, rfl⟩
  have imported : name ∈ interface.imports.keys := by
    obtain ⟨binding, hbinding, -⟩ := h
    rw [Std.ExtTreeMap.mem_keys, Std.ExtTreeMap.mem_iff_isSome_getElem?, hbinding]
    rfl
  rw [mem_uses_references, mem_uses_references, and_iff_right asked, and_iff_right imported]

/-! ## Plans -/

/-- The plan of a file lists the edges that it calls for, apart from loops. -/
theorem exists_plan (hnodes : ∀ id, g.contains id = l.graph.contains id) (file : ParsedFile)
    (interface : ModuleInterface) :
    ∃ edges, Answers l.resolver ((l.onGraph g).plan file interface) edges ∧
      ∀ a b, (a, b) ∈ edges ↔ a ≠ b ∧ l.Planned file interface a b := by
  refine ⟨_, (answers_importOrigins hnodes file.path interface).bind
    ((answers_fileTargets file.path _).bind ((answers_fileTargets file.path _).bind
      (answers_pure _))), ?_⟩
  intro a b
  rw [mem_foldl_pushEdge]
  simp only [List.not_mem_nil, false_or, List.mem_append, mem_importEdges]
  refine and_congr_right fun _ => ?_
  constructor
  · rintro (((⟨rfl, name, h⟩ | h) | h) | h)
    · exact .imported h
    · obtain ⟨rfl, s, hs, target, hanswer, rfl⟩ := mem_targetEdges.mp h
      exact .named ⟨s, List.mem_append_left _ hs, hanswer⟩
    · obtain ⟨name, owner, huse, horigin, howner, rfl⟩ := mem_useEdges.mp h
      have himport := lookup_origins.mp horigin
      refine .used ⟨name, (mem_uses_iff himport).mp huse, himport⟩ ?_
      rw [← hnodes]
      exact howner
    · obtain ⟨rfl, s, hs, target, hanswer, rfl⟩ := mem_targetEdges.mp h
      exact .named ⟨s, List.mem_append_right _ hs, hanswer⟩
  · rintro (@⟨name, node, h⟩ | @⟨target, s, hs, hanswer⟩ | @⟨owner, node, ⟨name, huse, h⟩, howner⟩)
    · exact .inl (.inl (.inl ⟨rfl, name, h⟩))
    · rcases List.mem_append.mp hs with hs | hs
      · exact .inl (.inl (.inr (mem_targetEdges.mpr ⟨rfl, s, hs, target, hanswer, rfl⟩)))
      · exact .inr (mem_targetEdges.mpr ⟨rfl, s, hs, target, hanswer, rfl⟩)
    · refine .inl (.inr (mem_useEdges.mpr ⟨name, owner, (mem_uses_iff h).mpr huse,
        lookup_origins.mpr h, ?_, rfl⟩))
      rw [← hnodes] at howner
      exact howner

end Landscape

end CodeAtlas.Link
