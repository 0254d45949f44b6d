import CodeAtlas.Link.Discovery
import CodeAtlas.Proofs.Graph.Growth

/-!
# The nodes that discovery adds

Discovery adds the node of every file and of every symbol that its program declares, and no other
node (`contains_discover`). It adds no edge (`hasEdge_discover`).
-/

namespace CodeAtlas.Link

open CodeAtlas.Script SymbolGraph

/-- A node that a file has: its own, or that of a symbol that its program declares. -/
inductive Declares (file : ParsedFile) : NodeId → Prop where
  | file : Declares file (.file file.path)
  | symbol {s : DeclaredSymbol} (h : s ∈ file.program.declaredSymbols) :
      Declares file (.symbol file.path s.name)

theorem Declares.path_eq {file : ParsedFile} {id : NodeId} (h : Declares file id) :
    id.path = file.path := by
  cases h <;> rfl

variable {g : SymbolGraph} {id a b : NodeId}

theorem contains_ensureSymbols {path : String} {symbols : List DeclaredSymbol} :
    (symbols.foldl (fun g s => g.ensureSymbol path s.name s.kind) g).contains id ↔
      g.contains id ∨ ∃ s ∈ symbols, id = .file path ∨ id = .symbol path s.name := by
  induction symbols generalizing g with
  | nil => simp
  | cons s symbols ih =>
    rw [List.foldl_cons, ih, ensureSymbol, ensureFile, contains_ensure, contains_ensure]
    simp only [List.mem_cons, exists_eq_or_imp, eq_comm (b := id)]
    simp only [or_assoc, or_left_comm]

/-- Discovering a file adds just the nodes that it declares. -/
theorem contains_discoverFile {file : ParsedFile} :
    (discoverFile g file).contains id ↔ g.contains id ∨ Declares file id := by
  rw [discoverFile, contains_ensureSymbols, ensureFile, contains_ensure]
  constructor
  · rintro ((rfl | h) | ⟨s, hs, rfl | rfl⟩)
    · exact .inr .file
    · exact .inl h
    · exact .inr .file
    · exact .inr (.symbol hs)
  · rintro (h | _ | hs)
    · exact .inl (.inr h)
    · exact .inl (.inl rfl)
    · exact .inr ⟨_, hs, .inr rfl⟩

/-- The nodes after discovery are those from before and those that some file declares. -/
theorem contains_discover {cache : ProgramCache} :
    (discover cache g).contains id ↔
      g.contains id ∨ ∃ file ∈ cache.toList, Declares file id := by
  unfold discover
  induction cache.toList generalizing g with
  | nil => simp
  | cons file files ih =>
    rw [List.foldl_cons, ih, contains_discoverFile, or_assoc]
    simp only [List.mem_cons, exists_eq_or_imp]

theorem hasEdge_ensureSymbols {path : String} {symbols : List DeclaredSymbol} :
    (symbols.foldl (fun g s => g.ensureSymbol path s.name s.kind) g).hasEdge a b ↔
      g.hasEdge a b := by
  induction symbols generalizing g with
  | nil => rfl
  | cons s symbols ih =>
    rw [List.foldl_cons, ih, ensureSymbol, ensureFile, hasEdge_ensure, hasEdge_ensure]

/-- Discovery adds no edge: the edge from a declaration to its file is not one of the graph. -/
theorem hasEdge_discover {cache : ProgramCache} :
    (discover cache g).hasEdge a b ↔ g.hasEdge a b := by
  unfold discover
  induction cache.toList generalizing g with
  | nil => rfl
  | cons file files ih =>
    rw [List.foldl_cons, ih, discoverFile, hasEdge_ensureSymbols, ensureFile, hasEdge_ensure]

end CodeAtlas.Link
