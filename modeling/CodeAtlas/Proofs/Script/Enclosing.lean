import CodeAtlas.Proofs.Script.Declarations
import CodeAtlas.Proofs.Script.Scopes
import CodeAtlas.Proofs.Script.Uses
import Mathlib.Data.List.Infix

/-!
# Enclosing declarations

A use of a name of the module is a mention that no scope on its way answers (`Tree.MentionsAt`).
Its owner is found on the way back from it: the first named declaration of a function or of a class,
or the first declarator of the module that binds a plain name (`Tree.enclosing`). Everything else on
the way back is passed over: expressions and arrows, members, patterns, variables of a function, and
declarations without a name.

The mentions of a program are collected upwards and know nothing of places. They still are the
mentions at the places of the text with the owners found there (`mem_moduleMentions_iff`,
`references_enclosing`).
-/

namespace CodeAtlas.Script

namespace Tree

variable {t u d statement : Tree} {k : Kind} {parts : List Tree} {i : Nat} {place : List Nat}
  {name : String} {sense : Sense}

/-! ## Mentions at a place -/

/-- The name is mentioned at a place in the tree, and no construct on the way there declares it. -/
inductive MentionsAt (name : String) (sense : Sense) : Tree → List Nat → Prop
  | reference {parts : List Tree} : MentionsAt name sense (node (.reference name sense) parts) []
  | inside {k : Kind} {parts : List Tree} {i : Nat} {u : Tree} {place : List Nat} :
      parts[i]? = some u → ¬ answered (declaredFor k parts u) name sense →
      MentionsAt name sense u place → MentionsAt name sense (node k parts) (i :: place)

/-! ## The way back from a place -/

/-- The first owner on the way back from a place. -/
def nearest (owner : List Nat → Option String) (place : List Nat) : Option String :=
  place.inits.reverse.findSome? owner

theorem nearest_nil (owner : List Nat → Option String) : nearest owner [] = owner [] := by
  simp [nearest]

theorem nearest_cons (owner : List Nat → Option String) (i : Nat) (place : List Nat) :
    nearest owner (i :: place) = (nearest (fun way => owner (i :: way)) place).or (owner []) := by
  rw [nearest, List.inits_cons, List.reverse_cons, ← List.map_reverse, List.findSome?_append,
    List.findSome?_map, List.findSome?_singleton]
  rfl

/-- An owner at the end of the way back is found if there is no other. -/
theorem nearest_or (owner : List Nat → Option String) (last : Option String) (place : List Nat) :
    nearest (fun way => (owner way).or (if way = [] then last else none)) place =
      (nearest owner place).or last := by
  cases place with
  | nil => rw [nearest_nil, nearest_nil, if_pos rfl]
  | cons i place =>
    simp only [nearest_cons, if_pos, reduceCtorEq, if_false, Option.or_none, Option.or_assoc]

/-- The name of the function or class that is declared at a place. -/
def declarationAt (t : Tree) (place : List Nat) : Option String :=
  (t.at? place).bind fun u => givenOwner u.kind

/-- The name of the variable of the module that is declared at a place in a statement, unless the
declarator there binds a pattern. -/
def variableAt (statement : Tree) (place : List Nat) : Option String :=
  if statement.isDeclaratorPlace place then (statement.at? place).bind declaratorOwner else none

/-- The innermost declaration around a place in a statement of a module. -/
def enclosing (statement : Tree) (place : List Nat) : Option String :=
  nearest (fun way => (statement.declarationAt way).or (statement.variableAt way)) place

theorem declarationAt_cons (hget : parts[i]? = some u) (place : List Nat) :
    (node k parts).declarationAt (i :: place) = u.declarationAt place := by
  rw [declarationAt, at?, Tree.parts, hget]
  rfl

/-- The nearest declaration around a place in a part: the nearest one inside the part, otherwise the
construct itself if it gives an owner. -/
theorem nearest_declarationAt_cons (hget : parts[i]? = some u) (place : List Nat) :
    nearest (node k parts).declarationAt (i :: place) =
      (nearest u.declarationAt place).or (givenOwner k) := by
  rw [nearest_cons, funext (declarationAt_cons hget)]
  rfl

/-- The mentions that leave a tree are those at its places, with the declarations around them. -/
theorem mem_mentions_iff_at {m : Mention} :
    m ∈ t.mentions ↔
      ∃ place, MentionsAt m.name m.sense t place ∧ m.owner = nearest t.declarationAt place := by
  induction t using induction_on_parts generalizing m with
  | h k parts ih =>
    rw [mem_mentions_iff]
    constructor
    · rintro (⟨rfl, hnone⟩ | ⟨u, hu, m', hm', hpass, rfl⟩)
      · exact ⟨[], .reference, by rw [hnone, nearest_nil]; rfl⟩
      · obtain ⟨place, hplace, howner⟩ := (ih u hu).mp hm'
        obtain ⟨i, hget⟩ := List.getElem?_of_mem hu
        refine ⟨i :: place, .inside hget hpass hplace, ?_⟩
        rw [nearest_declarationAt_cons hget, ← howner]
        rfl
    · rintro ⟨_, (_ | ⟨hget, hpass, hplace⟩), howner⟩
      · exact .inl ⟨rfl, by rw [howner, nearest_nil]; rfl⟩
      · rename_i i u place
        rw [nearest_declarationAt_cons hget] at howner
        have hu : u ∈ parts := List.mem_of_getElem? hget
        exact .inr ⟨u, hu, ⟨m.name, m.sense, nearest u.declarationAt place⟩,
          (ih u hu).mpr ⟨place, hplace, rfl⟩, hpass, by rw [Mention.ownedBy, ← howner]⟩

/-! ## Statements of the module -/

/-- What owns the mentions of a declarator, seen from the declarator. -/
theorem enclosing_declarators {keyword : VariableKeyword} (hget : parts[i]? = some d)
    (place : List Nat) :
    (node (.declarators keyword) parts).enclosing (i :: place) =
      (nearest d.declarationAt place).or d.declaratorOwner := by
  have inner : ∀ way, ((node (.declarators keyword) parts).declarationAt (i :: way)).or
      ((node (.declarators keyword) parts).variableAt (i :: way)) =
      (d.declarationAt way).or (if way = [] then d.declaratorOwner else none) := by
    -- seen from the declarator, the one place of a variable is its own
    intro way
    rw [declarationAt_cons hget]
    cases way with
    | nil => simp [variableAt, isDeclaratorPlace, at?, Tree.parts, hget]
    | cons => rfl
  rw [enclosing, nearest_cons, funext inner, nearest_or]
  exact Option.or_none

/-- Exporting a declaration of variables changes no owner. The place is one step longer, and that is
all. -/
theorem enclosing_exported {keyword : VariableKeyword} (place : List Nat) :
    (node .exportDeclaration [node (.declarators keyword) parts]).enclosing (0 :: place) =
      (node (.declarators keyword) parts).enclosing place := by
  have inner : ∀ way,
      ((node .exportDeclaration [node (.declarators keyword) parts]).declarationAt (0 :: way)).or
        ((node .exportDeclaration [node (.declarators keyword) parts]).variableAt (0 :: way)) =
      ((node (.declarators keyword) parts).declarationAt way).or
        ((node (.declarators keyword) parts).variableAt way) := by
    intro way
    rcases way with _ | ⟨i, _ | _⟩ <;> rfl
  rw [enclosing, nearest_cons, funext inner]
  exact Option.or_none

/-- Without variables of the module, functions and classes alone own mentions. -/
theorem enclosing_eq_nearest (h : ∀ way, ¬ statement.isDeclaratorPlace way) :
    statement.enclosing = nearest statement.declarationAt := by
  funext place
  unfold enclosing variableAt
  simp [h]

theorem moduleMentions_declarators (keyword : VariableKeyword) (declarators : List Tree) :
    (node (.declarators keyword) declarators).moduleMentions =
      declarators.flatMap fun d => d.mentions.map (.ownedBy d.declaratorOwner) := by
  cases declarators <;> rfl

theorem moduleMentions_exported (keyword : VariableKeyword) (declarators : List Tree) :
    (node .exportDeclaration [node (.declarators keyword) declarators]).moduleMentions =
      (node (.declarators keyword) declarators).moduleMentions := by
  cases declarators <;> rfl

/-- The mentions of a declaration of variables, each with the declaration that encloses its place: a
function or class around it if there is one, otherwise its declarator. -/
theorem mem_moduleMentions_declarators_iff {keyword : VariableKeyword} {m : Mention} :
    m ∈ (node (.declarators keyword) parts).moduleMentions ↔
      ∃ place, MentionsAt m.name m.sense (node (.declarators keyword) parts) place ∧
        m.owner = (node (.declarators keyword) parts).enclosing place := by
  rw [moduleMentions_declarators]
  simp only [List.mem_flatMap, List.mem_map]
  constructor
  · rintro ⟨d, hd, m', hm', rfl⟩
    obtain ⟨place, hplace, howner⟩ := mem_mentions_iff_at.mp hm'
    obtain ⟨i, hget⟩ := List.getElem?_of_mem hd
    refine ⟨i :: place, .inside hget (by simp [declaredFor, answered]) hplace, ?_⟩
    rw [enclosing_declarators hget, ← howner]
    rfl
  · rintro ⟨_, (_ | ⟨hget, -, hplace⟩), howner⟩
    rename_i i d place
    rw [enclosing_declarators hget] at howner
    exact ⟨d, List.mem_of_getElem? hget, ⟨m.name, m.sense, nearest d.declarationAt place⟩,
      mem_mentions_iff_at.mpr ⟨place, hplace, rfl⟩, by rw [Mention.ownedBy, ← howner]⟩

theorem mentionsAt_exported_iff :
    MentionsAt name sense (node .exportDeclaration [d]) place ↔
      ∃ rest, place = 0 :: rest ∧ MentionsAt name sense d rest := by
  constructor
  · rintro (_ | ⟨hget, -, h⟩)
    obtain ⟨rfl, rfl⟩ : _ = 0 ∧ _ = d := by
      simpa [List.getElem?_singleton, eq_comm] using hget
    exact ⟨_, rfl, h⟩
  · rintro ⟨rest, rfl, h⟩
    exact .inside rfl (by simp [declaredFor, answered]) h

/-- The mentions of a statement of a module are those at its places, with the declarations
that enclose them. -/
theorem mem_moduleMentions_iff {m : Mention} :
    m ∈ statement.moduleMentions ↔ ∃ place, MentionsAt m.name m.sense statement place ∧
      m.owner = statement.enclosing place := by
  by_cases hvariables : ∃ place, statement.isDeclaratorPlace place
  · obtain ⟨_, hplace⟩ := hvariables
    obtain ⟨keyword, declarators, _, ⟨rfl, -⟩ | ⟨rfl, -⟩⟩ := isDeclaratorPlace_iff.mp hplace
    · exact mem_moduleMentions_declarators_iff
    · rw [moduleMentions_exported, mem_moduleMentions_declarators_iff]
      constructor
      · rintro ⟨place, h, howner⟩
        exact ⟨_, mentionsAt_exported_iff.mpr ⟨place, rfl, h⟩, by rw [enclosing_exported, howner]⟩
      · rintro ⟨_, hmention, howner⟩
        obtain ⟨place, rfl, h⟩ := mentionsAt_exported_iff.mp hmention
        rw [enclosing_exported] at howner
        exact ⟨place, h, howner⟩
  · have none : statement.moduleDeclarators = [] := by
      unfold moduleDeclarators
      split
      · exact absurd ⟨[0], rfl⟩ hvariables
      · exact absurd ⟨[0, 0], rfl⟩ hvariables
      · rfl
    rw [enclosing_eq_nearest (not_exists.mp hvariables), ← mem_mentions_iff_at, moduleMentions,
      none]

/-! ## Uses -/

/-- A statement of the program mentions the name at a place, and the mention belongs to what the
module declares. -/
def RefersAt (program statement : Tree) (place : List Nat) (name : String) : Prop :=
  ∃ sense, MentionsAt name sense statement place ∧
    answered (varScopeEntries program.parts) name sense

/-- The uses of the wanted names are their mentions at the places of the statements, each with the
declaration that encloses its place. -/
theorem mem_uses_iff {program : Tree} {wanted : List String} {use : NameUse} :
    use ∈ (program.references wanted).uses ↔ use.name ∈ wanted ∧
      ∃ statement ∈ program.parts, ∃ place, program.RefersAt statement place use.name ∧
        use.owner = statement.enclosing place := by
  rw [mem_uses_references]
  refine and_congr_right fun _ => ?_
  simp only [Reports, List.mem_flatMap, mem_moduleMentions_iff]
  constructor
  · rintro ⟨m, ⟨statement, hstatement, place, hmention, howner⟩, hanswered, rfl⟩
    exact ⟨statement, hstatement, place, ⟨m.sense, hmention, hanswered⟩, howner⟩
  · rintro ⟨statement, hstatement, place, ⟨sense, hmention, hanswered⟩, howner⟩
    exact ⟨⟨use.name, sense, use.owner⟩, ⟨statement, hstatement, place, hmention, howner⟩,
      hanswered, rfl⟩

/-- A variable inside a function is passed over on the way back. -/
example : (node (.functionDeclaration (some "load")) [node .functionBody
    [node (.declarators .const) [node .declarator
      [node (.binding "data") [], node (.reference "api" .value) []]]]]).enclosing [0, 0, 0, 1] =
    some "load" := by
  decide

end Tree

end CodeAtlas.Script
