import CodeAtlas.Text.Cut

/-!
# Nodes of the symbol graph

A node is a whole file or a declaration in a file. Its text is the path of the file, followed for
a declaration by `#` and the name. Nodes are ordered by their structure, files first, and not by
their text.
-/

namespace CodeAtlas

/-- What a node stands for. -/
inductive SymbolKind where
  | file | function | classType | enumeration | interface | typeAlias | variableName
  | defaultExport
deriving DecidableEq, Repr

namespace SymbolKind

def name : SymbolKind → String
  | file => "file"
  | function => "function"
  | classType => "class"
  | enumeration => "enum"
  | interface => "interface"
  | typeAlias => "typeAlias"
  | variableName => "variable"
  | defaultExport => "default"

def all : List SymbolKind :=
  [file, function, classType, enumeration, interface, typeAlias, variableName, defaultExport]

def ofName? (text : String) : Option SymbolKind := all.find? fun k => k.name == text

theorem ofName?_name (k : SymbolKind) : ofName? k.name = some k := by
  cases k <;> decide

end SymbolKind

/-- The identity of a node. -/
inductive NodeId where
  | file (path : String)
  | symbol (path name : String)
deriving DecidableEq, Repr

namespace NodeId

/-- The name of the declaration that a default export makes. -/
def defaultName : String := "default"

def path : NodeId → String
  | file p => p
  | symbol p _ => p

/-- The declared name; a file shows a name that no declaration has. -/
def symbolName : NodeId → String
  | file _ => "(file)"
  | symbol _ n => n

def isFile : NodeId → Bool
  | file _ => true
  | symbol .. => false

/-- The node of the whole file. -/
def toFile (n : NodeId) : NodeId := file n.path

def text : NodeId → String
  | file p => p
  | symbol p n => p ++ "#" ++ n

/-- The node that a text means: what follows the last `#` is the name of a declaration. -/
def ofText (s : String) : NodeId :=
  match Text.cutLast? '#' s with
  | some (p, n) => symbol p n
  | none => file s

/-- Files come before declarations, files by path, declarations by path and then by name. -/
def cmp : NodeId → NodeId → Ordering
  | file p, file q => compare p q
  | file _, symbol .. => .lt
  | symbol .., file _ => .gt
  | symbol p m, symbol q n => (compare p q).then (compare m n)

instance : Ord NodeId := ⟨cmp⟩

theorem compare_eq (a b : NodeId) : compare a b = cmp a b := rfl

private theorem compare_swap (p q : String) : compare p q = (compare q p).swap :=
  Std.OrientedOrd.eq_swap

private theorem compare_isLE_trans {p q r : String} (h : (compare p q).isLE)
    (h' : (compare q r).isLE) : (compare p r).isLE :=
  Std.TransOrd.isLE_trans h h'

private theorem pair_isLE_trans {p q r m n o : String}
    (h : ((compare p q).then (compare m n)).isLE) (h' : ((compare q r).then (compare n o)).isLE) :
    ((compare p r).then (compare m o)).isLE := by
  let order : String × String → String × String → Ordering :=
    compareLex (compareOn Prod.fst) (compareOn Prod.snd)
  have : Std.TransCmp order := inferInstanceAs (Std.TransCmp (compareLex _ _))
  exact @Std.TransCmp.isLE_trans _ order _ (p, m) (q, n) (r, o) h h'

theorem cmp_swap (a b : NodeId) : cmp a b = (cmp b a).swap := by
  cases a with
  | file p =>
    cases b with
    | file q => exact compare_swap p q
    | symbol q n => rfl
  | symbol p m =>
    cases b with
    | file q => rfl
    | symbol q n =>
      simp only [cmp, Ordering.swap_then]
      rw [← compare_swap p q, ← compare_swap m n]

theorem isLE_trans {a b c : NodeId} (hab : (cmp a b).isLE) (hbc : (cmp b c).isLE) :
    (cmp a c).isLE := by
  cases a with
  | file p =>
    cases b with
    | file q =>
      cases c with
      | file r => exact compare_isLE_trans hab hbc
      | symbol r o => rfl
    | symbol q n =>
      cases c with
      | file r => simp [cmp] at hbc
      | symbol r o => rfl
  | symbol p m =>
    cases b with
    | file q => simp [cmp] at hab
    | symbol q n =>
      cases c with
      | file r => simp [cmp] at hbc
      | symbol r o =>
        exact pair_isLE_trans hab hbc

instance : Std.TransOrd NodeId where
  eq_swap {a b} := cmp_swap a b
  isLE_trans {a b c} := isLE_trans (a := a) (b := b) (c := c)

instance : Std.LawfulEqOrd NodeId where
  eq_of_compare {a b} h := by
    rw [compare_eq] at h
    cases a <;> cases b <;> simp only [cmp, Ordering.then_eq_eq, reduceCtorEq] at h
    · rw [Std.LawfulEqCmp.eq_of_compare h]
    · rw [Std.LawfulEqCmp.eq_of_compare h.1, Std.LawfulEqCmp.eq_of_compare h.2]

end NodeId

end CodeAtlas
