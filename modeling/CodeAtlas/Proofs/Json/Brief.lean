import CodeAtlas.Json.Brief

/-!
# Values in the brief form

The brief form has no null: no value is (`ne_null_of_readBriefValue`), and no member of an object
(`readBrief_object`).
-/

namespace CodeAtlas.Json

variable {fuel : Nat} {text rest : List Char} {value : Value} {members : List (String × Value)}

/-- Values that are neither null nor an object. -/
def Value.Simple : Value → Prop
  | .null | .object _ => False
  | _ => True

theorem simple_plainValue (text : List Char) : (plainValue text).Simple := by
  unfold plainValue
  split
  · trivial
  · split <;> trivial

/-- A value that is read is an object whose members are read, or it is simple. -/
theorem readBriefValue_cases (h : readBriefValue fuel text = some (value, rest)) :
    (∃ (fuel : Nat) (inner rest : List Char) (members : List (String × Value)),
      readBriefMembers fuel inner = some (members, rest) ∧ value = .ofMembers members) ∨
      value.Simple := by
  cases fuel with
  | zero => simp [readBriefValue] at h
  | succ fuel =>
    unfold readBriefValue at h
    dsimp only at h
    split at h
    · cases h
      exact .inr trivial
    · split at h
      · cases h
        exact .inr trivial
      · split at h
        · obtain ⟨⟨members, rest⟩, hmembers, heq⟩ := Option.map_eq_some_iff.mp h
          cases heq
          exact .inl ⟨_, _, _, members, hmembers, rfl⟩
        · obtain ⟨⟨items, rest⟩, -, heq⟩ := Option.map_eq_some_iff.mp h
          cases heq
          exact .inr trivial
        · obtain ⟨⟨quoted, rest⟩, -, heq⟩ := Option.map_eq_some_iff.mp h
          cases heq
          exact .inr trivial
        · split at h
          · cases h
            exact .inr trivial
          · cases h
        · cases h
          exact .inr (simple_plainValue _)

theorem ne_null_of_readBriefValue (h : readBriefValue fuel text = some (value, rest)) :
    value ≠ .null := by
  rintro rfl
  rcases readBriefValue_cases h with ⟨_, _, _, _, -, ⟨⟩⟩ | simple
  exact simple

/-- No member that is read is null, by induction on the steps: a value in braces has members of its
own, and every other value is simple. -/
theorem ne_null_of_readBriefMembers (h : readBriefMembers fuel text = some (members, rest)) :
    ∀ m ∈ members, m.2 ≠ .null := by
  induction fuel generalizing text members rest with
  | zero => simp [readBriefMembers] at h
  | succ fuel ih =>
    unfold readBriefMembers at h
    split at h
    case h_1 => cases h
    case h_2 =>
      cases h
      exact nofun
    case h_3 text fuel' _ hfuel _ =>
      cases hfuel
      obtain ⟨⟨key, after⟩, -, h⟩ := Option.bind_eq_some_iff.mp h
      dsimp only at h
      split at h
      case h_2 => cases h
      case h_1 =>
        obtain ⟨⟨value, after⟩, hvalue, h⟩ := Option.bind_eq_some_iff.mp h
        dsimp only at h
        split at h
        · obtain ⟨⟨others, after⟩, hothers, h⟩ := Option.bind_eq_some_iff.mp h
          cases h
          exact List.forall_mem_cons.mpr ⟨ne_null_of_readBriefValue hvalue, ih hothers⟩
        · cases h
          exact List.forall_mem_singleton.mpr (ne_null_of_readBriefValue hvalue)
        · cases h

/-- The members of an object that a text stands for have keys, and none of them is null. -/
theorem readBrief_object {text : String} {members : List (Option String × Value)}
    (h : readBrief text = .object members) : ∀ m ∈ members, m.1.isSome ∧ m.2 ≠ .null := by
  unfold readBrief at h
  split at h
  case h_2 => cases h
  case h_1 value hvalue =>
    subst h
    rcases readBriefValue_cases hvalue with ⟨_, _, _, named, hnamed, heq⟩ | simple
    · cases heq
      intro m hm
      obtain ⟨n, hn, rfl⟩ := List.mem_map.mp hm
      exact ⟨rfl, ne_null_of_readBriefMembers hnamed n hn⟩
    · exact simple.elim

end CodeAtlas.Json
