import CodeAtlas.Proofs.Script.Places

/-!
# The declared symbols of a program

The declared symbols come in two rows. First come the entries of the statements of the module: the
variables of a declaration, exported or not, and one symbol for a default export (`Tree.Enters`).
Then come the declarations that count wherever they stand (`Tree.Counts`). Each row has one entry
for each place and is in the order of the text (`eq_declaredSymbols_iff`).

A pattern binds names through objects, arrays, rest elements and defaults, to any depth
(`Tree.Binds`). The key of a property and the value of a default are no patterns: what stands in
them is not bound, even if it contains patterns of its own.
-/

namespace CodeAtlas.Script

namespace Tree

/-! ## Patterns -/

/-- A pattern binds a name at a place inside it. -/
inductive Binds : Tree → List Nat → String → Prop
  | binding {name : String} {parts : List Tree} : Binds (node (.binding name) parts) [] name
  | element {k : Kind} {parts : List Tree} {i : Nat} {u : Tree} {place : List Nat} {name : String} :
      (k = .objectPattern ∨ k = .arrayPattern ∨ k = .restPattern) → parts[i]? = some u →
      Binds u place name → Binds (node k parts) (i :: place) name
  | property {parts : List Tree} {u : Tree} {place : List Nat} {name : String} :
      parts.getLast? = some u → Binds u place name →
      Binds (node .patternProperty parts) ((parts.length - 1) :: place) name
  | defaulted {parts : List Tree} {u : Tree} {place : List Nat} {name : String} :
      parts.head? = some u → Binds u place name → Binds (node .defaulted parts) (0 :: place) name

theorem boundNamesOfAll_eq (parts : List Tree) :
    boundNamesOfAll parts = parts.flatMap boundNames := by
  induction parts with
  | nil => rfl
  | cons t ts ih => rw [boundNamesOfAll, ih, List.flatMap_cons]

theorem boundNamesOfLast_eq (parts : List Tree) :
    boundNamesOfLast parts = parts.getLast?.elim [] boundNames := by
  induction parts with
  | nil => rfl
  | cons t ts ih =>
    cases ts with
    | nil => rfl
    | cons u us =>
      rw [List.getLast?_cons_cons]
      exact ih

theorem boundNamesOfFirst_eq (parts : List Tree) :
    boundNamesOfFirst parts = parts.head?.elim [] boundNames := by
  cases parts <;> rfl

theorem inOrder_boundNamesOfAll {k : Kind} {parts : List Tree}
    (hk : k = .objectPattern ∨ k = .arrayPattern ∨ k = .restPattern)
    (h : ∀ u ∈ parts, InOrder u.Binds u.boundNames) :
    InOrder (node k parts).Binds (boundNamesOfAll parts) := by
  rw [boundNamesOfAll_eq]
  refine (InOrder.flatMap h).congr fun place name => ?_
  constructor
  · rintro ⟨i, rest, u, rfl, hget, hname⟩
    exact .element hk hget hname
  · rintro (_ | ⟨-, hget, hname⟩ | _ | _)
    case element => exact ⟨_, _, _, rfl, hget, hname⟩
    all_goals simp at hk

theorem inOrder_binds_part {part : Option Tree} (i : Nat)
    (h : ∀ u, part = some u → InOrder u.Binds u.boundNames) :
    InOrder (fun place name => ∃ u rest, part = some u ∧ place = i :: rest ∧ u.Binds rest name)
      (part.elim [] boundNames) := by
  cases part with
  | none => exact .nil fun place name ⟨u, _, hnone, _⟩ => nomatch hnone
  | some u => exact ((h u rfl).under i).congr fun place name => by simp

/-- A pattern lists the names that it binds, each once for each place. -/
theorem inOrder_boundNames (t : Tree) : InOrder t.Binds t.boundNames := by
  induction t using induction_on_parts with
  | h k parts ih =>
    cases k with
    | binding name =>
      refine (InOrder.singleton name).congr fun place a => ?_
      constructor
      · rintro ⟨rfl, rfl⟩
        exact .binding
      · rintro (_ | ⟨hk, -, -⟩)
        · exact ⟨rfl, rfl⟩
        · simp at hk
    | objectPattern => exact inOrder_boundNamesOfAll (.inl rfl) ih
    | arrayPattern => exact inOrder_boundNamesOfAll (.inr (.inl rfl)) ih
    | restPattern => exact inOrder_boundNamesOfAll (.inr (.inr rfl)) ih
    | patternProperty =>
      rw [boundNames, boundNamesOfLast_eq]
      refine (inOrder_binds_part (parts.length - 1) fun u hu =>
        ih u (List.mem_of_getLast? hu)).congr fun place name => ?_
      constructor
      · rintro ⟨u, rest, hlast, rfl, hname⟩
        exact .property hlast hname
      · rintro (_ | ⟨hk, -, -⟩ | ⟨hlast, hname⟩ | _)
        · simp at hk
        · exact ⟨_, _, hlast, rfl, hname⟩
    | defaulted =>
      rw [boundNames, boundNamesOfFirst_eq]
      refine (inOrder_binds_part 0 fun u hu =>
        ih u (List.mem_of_head? hu)).congr fun place name => ?_
      constructor
      · rintro ⟨u, rest, hhead, rfl, hname⟩
        exact .defaulted hhead hname
      · rintro (_ | ⟨hk, -, -⟩ | _ | ⟨hhead, hname⟩)
        · simp at hk
        · exact ⟨_, _, hhead, rfl, hname⟩
    | _ =>
      -- nothing else is a pattern
      refine .nil fun place a h => ?_
      cases h with
      | element hk => simp at hk

/-- The pattern `{ a, b: [c = x, ...d] }` binds neither its key nor the name in the default. -/
example : (node .objectPattern
    [node .patternProperty [node (.binding "a") []],
      node .patternProperty [node (.stringLiteral "b") [], node .arrayPattern
        [node .defaulted [node (.binding "c") [], node (.reference "x" .value) []],
          node .restPattern [node (.binding "d") []]]]]).boundNames = ["a", "c", "d"] := by
  decide

/-! ## Statements of the module -/

/-- Whether the place in a statement of a module is that of a declarator of its variables. -/
def isDeclaratorPlace (statement : Tree) (place : List Nat) : Bool :=
  match statement, place with
  | node (.declarators _) _, [_] => true
  | node .exportDeclaration [node (.declarators _) _], [0, _] => true
  | _, _ => false

/-- A pattern of the variables of a module binds a name at a place in the statement. The pattern is
the first part of its declarator. -/
def BindsVariable (statement : Tree) (place : List Nat) (name : String) : Prop :=
  ∃ way inner pattern, place = way ++ 0 :: inner ∧ statement.isDeclaratorPlace way ∧
    statement.at? (way ++ [0]) = some pattern ∧ pattern.Binds inner name

/-- A statement of a module enters a symbol: a variable where it is bound, or the default export. -/
inductive Enters : Tree → List Nat → DeclaredSymbol → Prop
  | variableName {statement : Tree} {place : List Nat} {name : String} :
      statement.BindsVariable place name → Enters statement place ⟨name, .variableName⟩
  | defaultExport {parts : List Tree} :
      Enters (node .exportDefault parts) [] ⟨NodeId.defaultName, .defaultExport⟩

/-- A row of declarators lists the names that their patterns bind. The value of a declarator stands
beside its pattern and binds nothing. -/
theorem inOrder_declaratorNames (declarators : List Tree) :
    InOrder (fun place name => ∃ i inner d pattern, place = i :: 0 :: inner ∧
      declarators[i]? = some d ∧ d.parts.head? = some pattern ∧ pattern.Binds inner name)
      (declarators.flatMap fun d => boundNamesOfFirst d.parts) := by
  have each : ∀ d ∈ declarators, InOrder (fun place name => ∃ pattern inner,
      d.parts.head? = some pattern ∧ place = 0 :: inner ∧ pattern.Binds inner name)
      (boundNamesOfFirst d.parts) := by
    intro d _
    rw [boundNamesOfFirst_eq]
    exact inOrder_binds_part 0 fun pattern _ => inOrder_boundNames pattern
  refine (InOrder.flatMap each).congr fun place name => ?_
  constructor
  · rintro ⟨i, _, d, rfl, hget, pattern, inner, hhead, rfl, hname⟩
    exact ⟨i, inner, d, pattern, rfl, hget, hhead, hname⟩
  · rintro ⟨i, inner, d, pattern, rfl, hget, hhead, hname⟩
    exact ⟨i, _, d, rfl, hget, pattern, inner, hhead, rfl, hname⟩

theorem at?_first_eq_some_iff {k : Kind} {parts : List Tree} {i : Nat} {pattern : Tree} :
    (node k parts).at? [i, 0] = some pattern ↔
      ∃ d, parts[i]? = some d ∧ d.parts.head? = some pattern := by
  simp [at?, Tree.parts, Option.bind_eq_some_iff, List.head?_eq_getElem?]

/-- A declarator of the module stands directly under a declaration of variables, or under one that
is exported. Nothing deeper counts. -/
theorem isDeclaratorPlace_iff {statement : Tree} {place : List Nat} :
    statement.isDeclaratorPlace place ↔ ∃ keyword declarators i,
      (statement = node (.declarators keyword) declarators ∧ place = [i]) ∨
      (statement = node .exportDeclaration [node (.declarators keyword) declarators] ∧
        place = [0, i]) := by
  constructor
  · intro h
    unfold isDeclaratorPlace at h
    split at h
    · exact ⟨_, _, _, .inl ⟨rfl, rfl⟩⟩
    · exact ⟨_, _, _, .inr ⟨rfl, rfl⟩⟩
    · cases h
  · rintro ⟨_, _, _, ⟨rfl, rfl⟩ | ⟨rfl, rfl⟩⟩ <;> rfl

/-- The variables of a statement of a module are listed in the order of the text, each once for each
place where a pattern binds it. -/
theorem inOrder_moduleVariables (statement : Tree) :
    InOrder statement.BindsVariable
      (statement.moduleDeclarators.flatMap fun d => boundNamesOfFirst d.parts) := by
  unfold moduleDeclarators
  split
  · rename_i keyword declarators
    refine (inOrder_declaratorNames declarators).congr fun place name => ?_
    constructor
    · rintro ⟨i, inner, d, pattern, rfl, hget, hhead, hname⟩
      exact ⟨[i], inner, pattern, rfl, rfl, at?_first_eq_some_iff.mpr ⟨d, hget, hhead⟩, hname⟩
    · rintro ⟨way, inner, pattern, rfl, hway, hat, hname⟩
      obtain ⟨_, _, i, ⟨-, rfl⟩ | ⟨hshape, -⟩⟩ := isDeclaratorPlace_iff.mp hway
      · obtain ⟨d, hget, hhead⟩ := at?_first_eq_some_iff.mp hat
        exact ⟨i, inner, d, pattern, rfl, hget, hhead, hname⟩
      · cases hshape
  · rename_i keyword declarators
    refine ((inOrder_declaratorNames declarators).under 0).congr fun place name => ?_
    constructor
    · rintro ⟨_, rfl, i, inner, d, pattern, rfl, hget, hhead, hname⟩
      have hat : (node (.declarators keyword) declarators).at? [i, 0] = some pattern :=
        at?_first_eq_some_iff.mpr ⟨d, hget, hhead⟩
      exact ⟨[0, i], inner, pattern, rfl, rfl, at?_cons_eq_some_iff.mpr ⟨_, rfl, hat⟩, hname⟩
    · rintro ⟨way, inner, pattern, rfl, hway, hat, hname⟩
      obtain ⟨_, _, i, ⟨hshape, -⟩ | ⟨-, rfl⟩⟩ := isDeclaratorPlace_iff.mp hway
      · cases hshape
      · obtain ⟨declaration, hfirst, hat⟩ := at?_cons_eq_some_iff.mp hat
        obtain rfl := Option.some.inj hfirst
        obtain ⟨d, hget, hhead⟩ := at?_first_eq_some_iff.mp hat
        exact ⟨_, rfl, i, inner, d, pattern, rfl, hget, hhead, hname⟩
  · rename_i hplain hexported
    refine .nil ?_
    rintro place name ⟨way, inner, pattern, rfl, hway, -, -⟩
    obtain ⟨_, _, _, ⟨rfl, -⟩ | ⟨rfl, -⟩⟩ := isDeclaratorPlace_iff.mp hway
    · exact hplain _ _ rfl
    · exact hexported _ _ rfl

/-- A statement of a module lists the symbols that it enters, each once for each place. -/
theorem inOrder_moduleSymbols (statement : Tree) :
    InOrder statement.Enters statement.moduleSymbols := by
  unfold moduleSymbols
  split
  · refine (InOrder.singleton _).congr fun place s => ?_
    constructor
    · rintro ⟨rfl, rfl⟩
      exact .defaultExport
    · rintro (⟨way, _, _, -, hway, -, -⟩ | _)
      · obtain ⟨_, _, _, ⟨hshape, -⟩ | ⟨hshape, -⟩⟩ := isDeclaratorPlace_iff.mp hway
        · cases hshape
        · cases hshape
      · exact ⟨rfl, rfl⟩
  · rename_i hdefault
    refine ((inOrder_moduleVariables statement).map
      (DeclaredSymbol.mk · .variableName)).congr fun place s => ?_
    constructor
    · rintro ⟨name, hname, rfl⟩
      exact .variableName hname
    · rintro (hname | _)
      · exact ⟨_, hname, rfl⟩
      · exact absurd rfl (hdefault _)

/-! ## Declarations at any depth -/

/-- A node is a declaration that counts wherever it stands. -/
inductive Counts : Tree → DeclaredSymbol → Prop
  | function {name : String} {parts : List Tree} :
      Counts (node (.functionDeclaration (some name)) parts) ⟨name, .function⟩
  | classType {name : String} {parts : List Tree} :
      Counts (node (.classDeclaration (some name)) parts) ⟨name, .classType⟩
  | enumeration {name : String} {parts : List Tree} :
      Counts (node (.enumDeclaration name) parts) ⟨name, .enumeration⟩
  | interface {name : String} {parts : List Tree} :
      Counts (node (.interfaceDeclaration name) parts) ⟨name, .interface⟩
  | typeAlias {name : String} {parts : List Tree} :
      Counts (node (.typeAlias name) parts) ⟨name, .typeAlias⟩

theorem declaration?_eq_some_iff {t : Tree} {s : DeclaredSymbol} :
    t.declaration? = some s ↔ t.Counts s := by
  obtain ⟨k, parts⟩ := t
  constructor
  · intro h
    unfold declaration? at h
    dsimp only at h
    split at h <;> cases h <;> constructor
  · rintro (_ | _ | _ | _ | _) <;> rfl

/-- **The declared symbols.** They are the entries of the statements of the module, statement by
statement, followed by the declarations that count wherever they stand. Both rows have one entry for
each place and follow the text. -/
theorem eq_declaredSymbols_iff {program : Tree} {list : List DeclaredSymbol} :
    list = program.declaredSymbols ↔
      ∃ ofModule anywhere, list = ofModule ++ anywhere ∧
        InOrder (fun place s => ∃ i inner statement, place = i :: inner ∧
          program.parts[i]? = some statement ∧ statement.Enters inner s) ofModule ∧
        InOrder (fun place s => ∃ t, program.at? place = some t ∧ t.Counts s) anywhere := by
  have first : InOrder (fun place s => ∃ i inner statement, place = i :: inner ∧
      program.parts[i]? = some statement ∧ statement.Enters inner s)
      (program.parts.flatMap moduleSymbols) :=
    .flatMap fun statement _ => inOrder_moduleSymbols statement
  have second : InOrder (fun place s => ∃ t, program.at? place = some t ∧ t.Counts s)
      program.nestedDeclarations :=
    ((inOrder_nodes program).filterMap declaration?).congr fun place s => by
      simp only [declaration?_eq_some_iff]
  constructor
  · rintro rfl
    exact ⟨_, _, rfl, first, second⟩
  · rintro ⟨ofModule, anywhere, rfl, hfirst, hsecond⟩
    rw [hfirst.unique first, hsecond.unique second]
    rfl

end Tree

end CodeAtlas.Script
