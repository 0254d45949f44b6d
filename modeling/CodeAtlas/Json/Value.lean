import CodeAtlas.Text.PairOrder

/-!
# JSON values

A JSON value as it stands in a document: a number is its literal, and an object is the list of
its members, in order and with repetitions. A string that names half of a surrogate pair alone
has no text; such a document is well formed, but the string can not be used.
-/

namespace CodeAtlas.Json

open CodeAtlas.Text

inductive Value where
  | null
  | bool (value : Bool)
  | number (literal : String)
  | string (text : Option String)
  | list (items : List Value)
  | object (members : List (Option String × Value))

namespace Value

def ofText (text : String) : Value := string (some text)

/-- The number with the digits of `n`. -/
def ofNat (n : Nat) : Value := number (Nat.repr n)

def ofTexts (texts : List String) : Value := list (texts.map ofText)

/-- The object with the given members. -/
def ofMembers (members : List (String × Value)) : Value :=
  object (members.map fun (key, value) => (some key, value))

def text? : Value → Option String
  | string text => text
  | _ => none

def texts? : Value → Option (List String)
  | list items => items.mapM text?
  | _ => none

/-- The members of an object whose keys all have texts. -/
def members? : Value → Option (List (String × Value))
  | object members => members.mapM fun (key, value) => key.map (·, value)
  | _ => none

/-- The last value of each key. -/
def lastByKey {α : Type} (members : List (String × α)) : TextMap α :=
  members.foldl (fun m (key, value) => m.insert key value) ∅

/-- The map that an object of strings stands for; the last member of a key counts. -/
def textMap? (value : Value) : Option (TextMap String) := do
  let members ← (← value.members?).mapM fun (key, item) => item.text?.map (key, ·)
  return lastByKey members

mutual

/-- How deep lists and objects are nested. -/
def depth : Value → Nat
  | list items => depthOfAll items + 1
  | object members => depthOfMembers members + 1
  | _ => 0

def depthOfAll : List Value → Nat
  | [] => 0
  | v :: vs => max (depth v) (depthOfAll vs)

def depthOfMembers : List (Option String × Value) → Nat
  | [] => 0
  | (_, v) :: vs => max (depth v) (depthOfMembers vs)

end

mutual

/-- Whether `test` holds of every literal number of a value, and every string has a text. -/
def allPlain (test : String → Bool) : Value → Bool
  | number literal => test literal
  | string text => text.isSome
  | list items => allPlainItems test items
  | object members => allPlainMembers test members
  | _ => true

/-- `allPlain` of all items of a list. -/
def allPlainItems (test : String → Bool) : List Value → Bool
  | [] => true
  | v :: vs => allPlain test v && allPlainItems test vs

/-- `allPlain` of all members of an object, and of their keys. -/
def allPlainMembers (test : String → Bool) : List (Option String × Value) → Bool
  | [] => true
  | (key, v) :: vs => key.isSome && allPlain test v && allPlainMembers test vs

end

end Value

end CodeAtlas.Json
