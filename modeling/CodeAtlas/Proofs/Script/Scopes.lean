import CodeAtlas.Script.Mention
import Mathlib.Data.List.Basic

/-!
# Scopes

The mentions of a construct are its own and those of its parts that it lets pass. What it declares
for a part decides which ones pass (`Tree.declaredFor`), and a named declaration becomes the owner
of those that have none (`Tree.givenOwner`). One equation says this of all constructs
(`Tree.mentions_eq`).
-/

namespace CodeAtlas.Script

namespace Mention

theorem ownedBy_none (m : Mention) : m.ownedBy none = m := by
  rw [ownedBy, Option.or_none]

theorem map_ownedBy_none (ms : List Mention) : ms.map (.ownedBy none) = ms := by
  rw [List.map_congr_left fun m _ => ownedBy_none m, List.map_id']

theorem passing_nil (ms : List Mention) : passing [] ms = ms :=
  List.filter_eq_self.mpr fun _ _ => rfl

theorem passing_flatMap (entries : List ScopeEntry) (parts : List Tree)
    (found : Tree → List Mention) :
    passing entries (parts.flatMap found) = parts.flatMap fun u => passing entries (found u) :=
  List.filter_flatMap

end Mention

namespace Tree

/-- What a function declares for one of its parts. -/
def functionScope (own : Option String) (parts : List Tree) (u : Tree) : List ScopeEntry :=
  if isBody u then functionEntries own parts
  else if hasParameters parts then headEntries own parts
  else functionEntries own parts

/-- What a construct declares for one of its parts. -/
def declaredFor (k : Kind) (parts : List Tree) (u : Tree) : List ScopeEntry :=
  match k with
  | .functionDeclaration _ | .arrow => functionScope none parts u
  | .functionExpression own => functionScope own parts u
  | .classScope own => own.toList.map (⟨·, .ofAll⟩) ++ entriesOfAll parts
  | .signature | .interfaceDeclaration _ | .typeAlias _ | .enumDeclaration _ | .scope .mapped =>
    entriesOfAll parts
  | .namespaceDeclaration _ | .scope .staticBlock => varScopeEntries parts
  | .scope .block => blockEntries parts
  | .scope .conditional => (inferredNamesOfAll parts).map (⟨·, .ofType⟩)
  | _ => []

/-- The owner that a construct gives to the mentions inside it. -/
def givenOwner : Kind → Option String
  | .functionDeclaration name => name
  | .classDeclaration name => name
  | _ => none

/-- The mention that a construct is itself. -/
def ownMentions : Kind → List Mention
  | .reference name sense => [⟨name, sense, none⟩]
  | _ => []

theorem mentionsOfEach_eq (parts : List Tree) : mentionsOfEach parts = parts.map mentions := by
  induction parts with
  | nil => rfl
  | cons t ts ih => rw [mentionsOfEach, ih, List.map_cons]

/-- The three cases of a function, body, head and the rest, are one: every part lets its mentions
pass through the scope that the function declares for it. -/
theorem passingFunction_eq (own : Option String) (parts : List Tree) :
    passingFunction own parts (mentionsOfEach parts) =
      parts.flatMap fun u => Mention.passing (functionScope own parts u) u.mentions := by
  have pairs : parts.zip (parts.map mentions) = parts.map fun u => (u, u.mentions) := by
    rw [← List.zip_map', List.map_id']
  rw [passingFunction, mentionsOfEach_eq, pairs, List.flatMap_map]
  rfl

theorem flatten_mentionsOfEach (parts : List Tree) :
    (mentionsOfEach parts).flatten = parts.flatMap mentions := by
  rw [mentionsOfEach_eq, List.flatMap_def]

/-- The mentions of a construct: its own, and those of its parts that pass it. -/
theorem mentions_eq (k : Kind) (parts : List Tree) :
    (node k parts).mentions = ownMentions k ++ parts.flatMap fun u =>
      (Mention.passing (declaredFor k parts u) u.mentions).map (.ownedBy (givenOwner k)) := by
  cases k with
  | scope form =>
    cases form <;> simp only [mentions, ownMentions, declaredFor, givenOwner, List.nil_append,
      Mention.map_ownedBy_none, flatten_mentionsOfEach, Mention.passing_flatMap]
  | reference name sense =>
    simp only [mentions, ownMentions, declaredFor, givenOwner, List.singleton_append,
      Mention.map_ownedBy_none, Mention.passing_nil, flatten_mentionsOfEach]
  | _ =>
    simp only [mentions, ownMentions, declaredFor, givenOwner, List.nil_append,
      Mention.map_ownedBy_none, Mention.passing_nil, passingFunction_eq, flatten_mentionsOfEach,
      Mention.passing_flatMap, List.map_flatMap]

theorem mem_ownMentions_iff {k : Kind} {m : Mention} :
    m ∈ ownMentions k ↔ k = .reference m.name m.sense ∧ m.owner = none := by
  obtain ⟨name, sense, owner⟩ := m
  unfold ownMentions
  split
  · simp [eq_comm, and_assoc]
  · rename_i hother
    refine iff_of_false List.not_mem_nil ?_
    rintro ⟨rfl, -⟩
    exact hother _ _ rfl

/-- A mention of a construct is the construct itself, or it comes from a part, is not answered by
what the construct declares for that part, and has the construct as its owner if it had none. -/
theorem mem_mentions_iff {k : Kind} {parts : List Tree} {m : Mention} :
    m ∈ (node k parts).mentions ↔ (k = .reference m.name m.sense ∧ m.owner = none) ∨
      ∃ u ∈ parts, ∃ m' ∈ u.mentions, ¬ answered (declaredFor k parts u) m'.name m'.sense ∧
        m'.ownedBy (givenOwner k) = m := by
  rw [mentions_eq, List.mem_append, mem_ownMentions_iff, List.mem_flatMap]
  simp only [List.mem_map, Mention.passing, List.mem_filter, Bool.not_eq_true', and_assoc,
    Bool.not_eq_true]

end Tree

end CodeAtlas.Script
