import CodeAtlas.Json.Value

/-!
# Overlays

One document laid over another: an object is laid over an object member by member, and anything
else takes the place of what it covers. A document that is laid over another has each key once, which
`Value.distinct` sees to. This is how the `figment` package merges the values of its sources; where
each value came from, which it keeps too, is left out.
-/

namespace CodeAtlas.Json.Value

mutual

/-- A value in which every object has each key once: its last member counts. -/
def distinct : Value → Value
  | list items => list (distinctItems items)
  | object members => object (distinctMembers members)
  | other => other

def distinctItems : List Value → List Value
  | [] => []
  | v :: vs => distinct v :: distinctItems vs

/-- The last member of each key, with a value in which each key occurs once. -/
def distinctMembers : List (Option String × Value) → List (Option String × Value)
  | [] => []
  | (key, v) :: rest =>
    let later := distinctMembers rest
    if later.any fun m => m.1 == key then later else (key, distinct v) :: later

end

mutual

/-- The second value laid over the first. -/
def overlay (below : Value) : Value → Value
  | object members =>
    match below with
    | object old => object (overlayMembers old members)
    | _ => object members
  | other => other

def overlayMembers (below : List (Option String × Value)) :
    List (Option String × Value) → List (Option String × Value)
  | [] => below
  | (key, v) :: rest =>
    let laid := match below.lookup key with
      | some old => overlay old v
      | none => v
    overlayMembers ((key, laid) :: below.filter fun m => m.1 != key) rest

end

end CodeAtlas.Json.Value
