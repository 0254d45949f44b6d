import CodeAtlas.Link.Plan
import CodeAtlas.Proofs.Link.Discovery
import CodeAtlas.Proofs.Source.Loading

/-!
# The kinds of the nodes

`kind?` tells whether a node is there and of which kind it is. A node that is there keeps its kind,
so of several declarations of one name the first decides (`kind?_discover`), and discovery that is
run again finds everything in place (`discover_of_contains`). Linking changes no kind, hence it
neither adds a node nor takes one away (`kind?_link`). That holds from every memory, be it faithful
or not.
-/

namespace CodeAtlas

open CodeAtlas.Link CodeAtlas.Resolution CodeAtlas.Script

namespace SymbolGraph

variable {g : SymbolGraph} {id : NodeId}

/-- The kind of a node; none if it is no node. -/
def kind? (g : SymbolGraph) (id : NodeId) : Option SymbolKind := (g.get? id).map NodeRecord.kind

theorem isSome_kind? : (g.kind? id).isSome ↔ g.contains id := by
  rw [contains_iff, kind?, Option.isSome_map]

theorem kind?_empty (id : NodeId) : (∅ : SymbolGraph).kind? id = none := by
  rw [← Option.not_isSome_iff_eq_none, isSome_kind?]
  exact not_contains_empty id

/-- A node that is added again keeps the kind that it has. -/
theorem kind?_ensure (g : SymbolGraph) (id a : NodeId) (kind : SymbolKind) :
    (g.ensure id kind).kind? a = (g.kind? a).or (if id = a then some kind else none) := by
  rw [kind?, get?_ensure]
  by_cases hold : g.contains a
  · obtain ⟨old, hkind⟩ := Option.isSome_iff_exists.mp (isSome_kind?.mpr hold)
    rw [if_neg fun h => h.2 hold, hkind, Option.some_or]
    exact hkind
  · have absent : g.kind? a = none := by
      rwa [← isSome_kind?, Option.not_isSome_iff_eq_none] at hold
    rw [absent, Option.none_or]
    by_cases hid : id = a
    · rw [if_pos ⟨hid, hold⟩, if_pos hid]
      rfl
    · rw [if_neg fun h => hid h.1, if_neg hid]
      exact absent

theorem kind?_addEdge (g : SymbolGraph) (a b id : NodeId) :
    (g.addEdge a b).kind? id = g.kind? id := by
  by_cases h : g.admits a b
  · rw [kind?, get?_addEdge h, Option.map_map]
    rfl
  · rw [addEdge, if_neg h]

theorem kind?_addEdges (g : SymbolGraph) (edges : List (NodeId × NodeId)) (id : NodeId) :
    (g.addEdges edges).kind? id = g.kind? id :=
  List.foldlRecOn (motive := fun g' : SymbolGraph => g'.kind? id = g.kind? id) edges _ rfl
    fun _ same e _ => (kind?_addEdge _ e.1 e.2 id).trans same

theorem ensure_of_contains (h : g.contains id) (kind : SymbolKind) : g.ensure id kind = g :=
  if_pos h

end SymbolGraph

namespace Link

open SymbolGraph

variable {g : SymbolGraph} {file : ParsedFile} {cache : ProgramCache}

/-! ## Discovery -/

/-- The kind that some declarations of the file `path` give to a node; the first one of its name
decides. -/
def symbolKind? (path : String) (symbols : List DeclaredSymbol) : NodeId → Option SymbolKind
  | .file _ => none
  | .symbol p name =>
    if path = p then (symbols.find? (·.name = name)).map DeclaredSymbol.kind else none

/-- The kind that a file gives to a node. -/
def declaredKind? (file : ParsedFile) (id : NodeId) : Option SymbolKind :=
  (if .file file.path = id then some .file else none).or
    (symbolKind? file.path file.program.declaredSymbols id)

theorem symbolKind?_cons (path : String) (s : DeclaredSymbol) (symbols : List DeclaredSymbol)
    (id : NodeId) :
    symbolKind? path (s :: symbols) id =
      (if .symbol path s.name = id then some s.kind else none).or
        (symbolKind? path symbols id) := by
  cases id with
  | file p => rfl
  | symbol p name =>
    by_cases hpath : path = p
    · subst hpath
      by_cases hname : s.name = name <;> simp [symbolKind?, hname]
    · simp [symbolKind?, hpath]

theorem path_of_declaredKind? {id : NodeId} {kind : SymbolKind}
    (h : declaredKind? file id = some kind) : id.path = file.path := by
  cases id with
  | file p => grind [declaredKind?, symbolKind?, NodeId.path]
  | symbol p name => grind [declaredKind?, symbolKind?, NodeId.path]

/-- The declarations of a file give kinds to nodes that have none, the first declaration of a name
before the others. -/
theorem kind?_ensureSymbols {path : String} (hfile : g.contains (.file path))
    (symbols : List DeclaredSymbol) (id : NodeId) :
    (symbols.foldl (fun g s => g.ensureSymbol path s.name s.kind) g).kind? id =
      (g.kind? id).or (symbolKind? path symbols id) := by
  induction symbols generalizing g with
  | nil => cases id <;> simp [symbolKind?]
  | cons s symbols ih =>
    have own : g.ensureSymbol path s.name s.kind = g.ensure (.symbol path s.name) s.kind := by
      rw [ensureSymbol, ensureFile, ensure_of_contains hfile]
    rw [List.foldl_cons, own, ih (contains_ensure.mpr (.inr hfile)), kind?_ensure,
      symbolKind?_cons, Option.or_assoc]

theorem kind?_discoverFile (g : SymbolGraph) (file : ParsedFile) (id : NodeId) :
    (discoverFile g file).kind? id = (g.kind? id).or (declaredKind? file id) := by
  rw [discoverFile, ensureFile, kind?_ensureSymbols (contains_ensure.mpr (.inl rfl)), kind?_ensure,
    declaredKind?, Option.or_assoc]

/-- A node that is there keeps its kind, and otherwise has that of its first declaration. -/
theorem kind?_discover (g : SymbolGraph) (cache : ProgramCache) (id : NodeId) :
    (discover cache g).kind? id =
      (g.kind? id).or (cache.toList.findSome? (declaredKind? · id)) := by
  unfold discover
  induction cache.toList generalizing g with
  | nil => simp
  | cons file files ih =>
    rw [List.foldl_cons, ih, kind?_discoverFile, Option.or_assoc, List.findSome?_cons]
    cases declaredKind? file id <;> rfl

/-- Only the file of a node gives it a kind, so the order of the files does not matter. -/
theorem findSome?_declaredKind? (hkeyed : cache.Keyed) (id : NodeId) :
    cache.toList.findSome? (declaredKind? · id) =
      (cache.files[id.path]?).bind (declaredKind? · id) := by
  have only : ∀ file ∈ cache.toList, ∀ kind, declaredKind? file id = some kind →
      cache.files[id.path]? = some file := by
    intro file hfile kind hkind
    rw [path_of_declaredKind? hkind]
    exact hkeyed.mem_toList_iff.mp hfile
  cases hsome : cache.toList.findSome? (declaredKind? · id) with
  | some kind =>
    obtain ⟨file, hfile, hkind⟩ := List.exists_of_findSome?_eq_some hsome
    rw [only file hfile kind hkind, Option.bind_some, hkind]
  | none =>
    have none_declares := List.findSome?_eq_none_iff.mp hsome
    cases hown : cache.files[id.path]? with
    | none => rfl
    | some file =>
      have own : file ∈ cache.toList :=
        hkeyed.mem_toList_iff.mpr (by rw [hkeyed id.path file hown, hown])
      exact (none_declares file own).symm

/-- Discovering a file whose nodes are all there changes nothing. -/
theorem discoverFile_of_contains (h : ∀ id, Declares file id → g.contains id) :
    discoverFile g file = g := by
  have own : g.ensureFile file.path = g := ensure_of_contains (h _ .file) .file
  rw [discoverFile, own]
  refine List.foldlRecOn (motive := fun g' => g' = g) file.program.declaredSymbols _ rfl ?_
  rintro _ rfl s hs
  rw [ensureSymbol, own, ensure_of_contains (h _ (.symbol hs))]

theorem discover_of_contains
    (h : ∀ file ∈ cache.toList, ∀ id, Declares file id → g.contains id) : discover cache g = g := by
  refine List.foldlRecOn (motive := fun g' => g' = g) cache.toList _ rfl ?_
  rintro _ rfl file hfile
  exact discoverFile_of_contains (h file hfile)

/-! ## Linking -/

theorem kind?_linkFile (resolver : Resolver) (interfaces : Interfaces) (g : SymbolGraph)
    (file : ParsedFile) (m : Memory) (id : NodeId) :
    ((linkFile resolver interfaces g file).run m).1.kind? id = g.kind? id := by
  unfold linkFile
  cases interfaces[file.path]? with
  | none => rfl
  | some interface => exact kind?_addEdges g _ id

theorem kind?_linkFiles (resolver : Resolver) (interfaces : Interfaces) (g : SymbolGraph)
    (files : List ParsedFile) (m : Memory) (id : NodeId) :
    ((files.foldlM (linkFile resolver interfaces) g).run m).1.kind? id = g.kind? id := by
  induction files generalizing g m with
  | nil => rfl
  | cons file files ih =>
    rw [List.foldlM_cons]
    exact (ih _ _).trans (kind?_linkFile resolver interfaces g file m id)

/-- Linking changes no kind, from whatever memory. So it neither adds a node nor takes one away. -/
theorem kind?_link (resolver : Resolver) (cache : ProgramCache) (g : SymbolGraph) (m : Memory)
    (id : NodeId) : ((link resolver cache g).run m).1.1.kind? id = g.kind? id :=
  kind?_linkFiles resolver (interfacesOf cache) g cache.toList m id

end Link

end CodeAtlas
