import CodeAtlas.Script.Declared

/-!
# Mentions of module-level names

A mention of a name belongs to the innermost scope that declares the name in a sense that answers
it: a value passes a type parameter of its name, a type passes a variable. `Tree.mentions` lists
the mentions of a tree that no scope inside the tree answers, each with the innermost named
declaration around it; it is computed from the parts upwards, and every scope removes what it
answers.

This does the work of the `oxc_semantic` package as far as names of a module go. The package builds
a tree of scopes and a table of symbols for the whole text; here neither is built, and its rules
about which scope a declaration belongs to and which senses it answers are those of `ScopeEntry`.
-/

namespace CodeAtlas.Script

/-- Which senses of a name a declaration answers. -/
structure Meaning where
  value : Bool
  type : Bool
  typeOf : Bool
deriving DecidableEq, Repr

namespace Meaning

def ofValue : Meaning := ⟨true, false, true⟩
def ofType : Meaning := ⟨false, true, false⟩
def ofAll : Meaning := ⟨true, true, true⟩

/-- What an import for types alone answers. -/
def ofTypeImport : Meaning := ⟨false, true, true⟩

def answers (m : Meaning) : Sense → Bool
  | .value => m.value
  | .type => m.type
  | .typeOf => m.typeOf
  | .anything => m.value || m.type

end Meaning

/-- A name that a scope declares. -/
structure ScopeEntry where
  name : String
  meaning : Meaning
deriving DecidableEq, Repr

/-- Whether one of some declarations answers a mention of `name`. -/
def answered (entries : List ScopeEntry) (name : String) (sense : Sense) : Bool :=
  entries.any fun e => e.name == name && e.meaning.answers sense

/-- A mention that is still looking for its scope. -/
structure Mention where
  name : String
  sense : Sense
  /-- The innermost named declaration around it. -/
  owner : Option String
deriving DecidableEq, Repr

namespace Mention

/-- The mentions that a scope with these declarations does not answer. -/
def passing (entries : List ScopeEntry) (mentions : List Mention) : List Mention :=
  mentions.filter fun m => !answered entries m.name m.sense

/-- Makes `name` the owner of a mention that has none. -/
def ownedBy (name : Option String) (m : Mention) : Mention :=
  { m with owner := m.owner.or name }

end Mention

namespace Tree

/-! ## What scopes declare -/

def importEntries (specifiers : List ImportSpecifier) : List ScopeEntry :=
  specifiers.map fun s => ⟨s.localName, if s.typeOnly then .ofTypeImport else .ofAll⟩

/-- The entry that a node makes in the scope around it. -/
def outerEntries : Kind → List ScopeEntry
  | .binding name => [⟨name, .ofValue⟩]
  | .functionDeclaration (some name) => [⟨name, .ofValue⟩]
  | .classDeclaration (some name) => [⟨name, .ofAll⟩]
  | .enumDeclaration name => [⟨name, .ofAll⟩]
  | .enumMember (some name) => [⟨name, .ofAll⟩]
  | .interfaceDeclaration name => [⟨name, .ofType⟩]
  | .typeAlias name => [⟨name, .ofType⟩]
  | .namespaceDeclaration (some name) => [⟨name, .ofAll⟩]
  | .typeParameter name => [⟨name, .ofType⟩]
  | .importDeclaration _ specifiers => importEntries specifiers
  | .importAlias name typeOnly => [⟨name, if typeOnly then .ofTypeImport else .ofAll⟩]
  | _ => []

/-- Whether the names declared in the parts of a node stay inside it. -/
def isScope : Kind → Bool
  | .functionDeclaration _ | .functionExpression _ | .arrow | .signature | .classScope _
  | .enumDeclaration _ | .interfaceDeclaration _ | .typeAlias _ | .namespaceDeclaration _
  | .scope _ => true
  | _ => false

/-- Whether names declared with `var` stay inside a node. -/
def isVarScope : Kind → Bool
  | .functionDeclaration _ | .functionExpression _ | .arrow | .namespaceDeclaration _
  | .scope .staticBlock => true
  | _ => false

mutual

/-- The entries that a tree makes in the scope around it, those of `var` apart. -/
def entries : Tree → List ScopeEntry
  | node k parts =>
    match k with
    | .declarators .var => []
    | _ => outerEntries k ++ if isScope k then [] else entriesOfAll parts

def entriesOfAll : List Tree → List ScopeEntry
  | [] => []
  | t :: ts => entries t ++ entriesOfAll ts

end

mutual

/-- The names that are declared with `var` in a tree and belong to the scope around it. -/
def varNames : Tree → List String
  | node k parts =>
    match k with
    | .declarators .var => (entriesOfAll parts).map (·.name) ++ varNamesOfAll parts
    | _ => if isVarScope k then [] else varNamesOfAll parts

def varNamesOfAll : List Tree → List String
  | [] => []
  | t :: ts => varNames t ++ varNamesOfAll ts

end

mutual

/-- The inferred names that belong to the conditional type around a tree. -/
def inferredNames : Tree → List String
  | node k parts =>
    match k with
    | .inferredType name => name :: inferredNamesOfAll parts
    | .scope .conditional => []
    | _ => inferredNamesOfAll parts

def inferredNamesOfAll : List Tree → List String
  | [] => []
  | t :: ts => inferredNames t ++ inferredNamesOfAll ts

end

/-- The entries of names declared with `var` in some trees. -/
def varEntries (parts : List Tree) : List ScopeEntry :=
  (varNamesOfAll parts).map (⟨·, .ofValue⟩)

/-- All entries of a scope where `var` stops. -/
def varScopeEntries (parts : List Tree) : List ScopeEntry := entriesOfAll parts ++ varEntries parts

/-- The entries of a block. A name that is also declared with `var` inside the block belongs to
the scope of the `var`. -/
def blockEntries (parts : List Tree) : List ScopeEntry :=
  let vars := varNamesOfAll parts
  (entriesOfAll parts).filter fun e => !vars.contains e.name

/-! ## Functions -/

def isBody : Tree → Bool
  | node .functionBody _ => true
  | _ => false

def hasParameters (parts : List Tree) : Bool :=
  parts.any fun
    | node .parameters (_ :: _) => true
    | _ => false

/-- What the head of a function declares: its own name if it is an expression, its type
parameters and its parameters. -/
def headEntries (own : Option String) (parts : List Tree) : List ScopeEntry :=
  own.toList.map (⟨·, .ofValue⟩) ++ entriesOfAll (parts.filter (!isBody ·))

/-- What a function declares in head and body. -/
def functionEntries (own : Option String) (parts : List Tree) : List ScopeEntry :=
  headEntries own parts ++ varScopeEntries (parts.filter isBody)

/-- The mentions of a function that pass it. Its parameters do not see the names of its body; a
function without parameters has one scope for all its parts. -/
def passingFunction (own : Option String) (parts : List Tree) (found : List (List Mention)) :
    List Mention :=
  let head := if hasParameters parts then headEntries own parts else functionEntries own parts
  (parts.zip found).flatMap fun (part, mentions) =>
    Mention.passing (if isBody part then functionEntries own parts else head) mentions

/-! ## Mentions -/

mutual

/-- The mentions of a tree that no scope inside it answers. -/
def mentions : Tree → List Mention
  | node k parts =>
    let found := mentionsOfEach parts
    match k with
    | .reference name sense => ⟨name, sense, none⟩ :: found.flatten
    | .functionDeclaration name => (passingFunction none parts found).map (.ownedBy name)
    | .functionExpression name => passingFunction name parts found
    | .arrow => passingFunction none parts found
    | .classDeclaration name => found.flatten.map (.ownedBy name)
    | .classScope own =>
      Mention.passing (own.toList.map (⟨·, .ofAll⟩) ++ entriesOfAll parts) found.flatten
    | .signature | .interfaceDeclaration _ | .typeAlias _ | .enumDeclaration _
    | .scope .mapped => Mention.passing (entriesOfAll parts) found.flatten
    | .namespaceDeclaration _ | .scope .staticBlock =>
      Mention.passing (varScopeEntries parts) found.flatten
    | .scope .block => Mention.passing (blockEntries parts) found.flatten
    | .scope .conditional =>
      Mention.passing ((inferredNamesOfAll parts).map (⟨·, .ofType⟩)) found.flatten
    | _ => found.flatten

def mentionsOfEach : List Tree → List (List Mention)
  | [] => []
  | t :: ts => mentions t :: mentionsOfEach ts

end

/-- The name that a declarator gives to the mentions inside it: the name it binds, unless it
binds a pattern. -/
def declaratorOwner : Tree → Option String
  | node _ (node (.binding name) _ :: _) => some name
  | _ => none

/-- The mentions of a statement of a module. The variables of a module own what their declarators
mention. -/
def moduleMentions (statement : Tree) : List Mention :=
  match statement.moduleDeclarators with
  | [] => statement.mentions
  | declarators =>
    declarators.flatMap fun d => d.mentions.map (.ownedBy d.declaratorOwner)

end Tree

/-- A use of a module-level name, with the innermost named declaration around it. -/
structure NameUse where
  name : String
  owner : Option String
deriving DecidableEq, Repr

/-- What a script mentions of the names declared at its module level. -/
structure References where
  /-- The uses, without repetition. -/
  uses : List NameUse
  dynamicImports : List String

/-- Uses are ordered by name, then by declaration; those outside all declarations come first. -/
def NameUse.le (a b : NameUse) : Bool :=
  ((compare a.name b.name).then (compare a.owner b.owner)).isLE

/-- Drops entries that equal the one before. -/
def dropRepeatedUses : List NameUse → List NameUse
  | [] => []
  | [a] => [a]
  | a :: b :: r => if a = b then dropRepeatedUses (b :: r) else a :: dropRepeatedUses (b :: r)

/-- The uses of the names `wanted`, of which only those declared at module level count. -/
def Tree.references (program : Tree) (wanted : List String) : References :=
  let entries := varScopeEntries program.parts
  let uses := (program.parts.flatMap moduleMentions).filter fun m =>
    wanted.contains m.name && answered entries m.name m.sense
  let sorted := (uses.map fun m => NameUse.mk m.name m.owner).mergeSort NameUse.le
  ⟨dropRepeatedUses sorted, program.dynamicSpecifiers⟩

end CodeAtlas.Script
