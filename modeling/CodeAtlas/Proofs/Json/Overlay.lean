import CodeAtlas.Json.Overlay
import CodeAtlas.Proofs.Text.TextMap

/-!
# Look-ups in overlays

What a document yields for a key after another was laid over it follows from what the two yield for
that key (`lookup_overlayMembers`): a value of the upper one takes the place of that of the lower
one, unless both are objects (`over?_eq_or`). This holds of documents in which each key stands once,
as `distinct` makes them, and keeps it so.
-/

namespace CodeAtlas.Json.Value

open CodeAtlas.Text

variable {key : Option String} {v old top : Value} {lower upper : Option Value}
  {members below : List (Option String × Value)}

/-! ## Members with keys of their own -/

/-- Each key stands once. -/
def Keyed (members : List (Option String × Value)) : Prop := (members.map Prod.fst).Nodup

theorem mem_keys_iff : key ∈ members.map Prod.fst ↔ (members.lookup key).isSome := by
  simp [List.lookup_isSome_iff]

theorem any_key_iff : (members.any fun m => m.1 == key) = (members.lookup key).isSome := by
  rw [Bool.eq_iff_iff, ← mem_keys_iff]
  simp

namespace Keyed

theorem lookup_eq_some_iff (h : Keyed members) : members.lookup key = some v ↔ (key, v) ∈ members :=
  TextMap.lookup_eq_some_iff_mem h

theorem lookup_reverse (h : Keyed members) : members.reverse.lookup key = members.lookup key := by
  have reversed : Keyed members.reverse :=
    ((List.reverse_perm members).map Prod.fst).nodup_iff.mpr h
  refine Option.ext fun v => ?_
  rw [reversed.lookup_eq_some_iff, h.lookup_eq_some_iff, List.mem_reverse]

end Keyed

/-- The last member of a key counts. What the value itself repeats is settled in the same way. -/
theorem lookup_distinctMembers :
    (distinctMembers members).lookup key = (members.reverse.lookup key).map distinct := by
  induction members with
  | nil => rfl
  | cons m rest ih =>
    obtain ⟨k, v⟩ := m
    rw [distinctMembers, List.reverse_cons, List.lookup_append, any_key_iff]
    by_cases hkey : key = k
    · subst hkey
      cases hlater : rest.reverse.lookup key with
      | none => simp [ih, hlater]
      | some later => simp [ih, hlater]
    · have differs : (key == k) = false := beq_false_of_ne hkey
      have alone : [(k, v)].lookup key = none := by simp [List.lookup_cons, differs]
      rw [alone, Option.or_none, ← ih]
      split
      · rfl
      · rw [List.lookup_cons, differs]

theorem mem_keys_distinctMembers :
    key ∈ (distinctMembers members).map Prod.fst ↔ key ∈ members.map Prod.fst := by
  rw [mem_keys_iff, lookup_distinctMembers, Option.isSome_map, ← mem_keys_iff, List.map_reverse,
    List.mem_reverse]

/-- After that each key stands once, so the order of the members says nothing any more. -/
theorem keyed_distinctMembers (members : List (Option String × Value)) :
    Keyed (distinctMembers members) := by
  induction members with
  | nil => exact List.nodup_nil
  | cons m rest ih =>
    obtain ⟨k, v⟩ := m
    rw [distinctMembers, any_key_iff]
    split
    · exact ih
    · rename_i new
      exact List.nodup_cons.mpr ⟨fun mem => new (mem_keys_iff.mp mem), ih⟩

theorem exists_of_mem_distinctMembers (h : (key, v) ∈ distinctMembers members) :
    ∃ w, (key, w) ∈ members ∧ distinct w = v := by
  have found := (keyed_distinctMembers members).lookup_eq_some_iff.mpr h
  rw [lookup_distinctMembers] at found
  obtain ⟨w, hw, heq⟩ := Option.map_eq_some_iff.mp found
  obtain ⟨front, back, hmembers, -⟩ := List.lookup_eq_some_iff.mp hw
  refine ⟨w, List.mem_reverse.mp ?_, heq⟩
  rw [hmembers]
  exact List.mem_append_right front List.mem_cons_self

/-! ## Overlays -/

def isObject : Value → Bool
  | object _ => true
  | _ => false

/-- A value laid over another, where either may be missing. -/
def over? : (lower upper : Option Value) → Option Value
  | lower, none => lower
  | none, some top => some top
  | some old, some top => some (overlay old top)

theorem over?_none (upper : Option Value) : over? none upper = upper := by
  cases upper <;> rfl

theorem isSome_over? : (over? lower upper).isSome = (lower.isSome || upper.isSome) := by
  cases lower <;> cases upper <;> rfl

/-- What is no object takes the place of what it covers, and an object that of what is none. -/
theorem overlay_eq (h : old.isObject = false ∨ top.isObject = false) : overlay old top = top := by
  cases top with
  | object members =>
    rcases h with h | h
    · cases old with
      | object => cases h
      | _ => rfl
    · cases h
  | _ => rfl

/-- Where one of two values is no object, the upper one counts, and the lower only if there is no
upper. -/
theorem over?_eq_or (h : ∀ old top, lower = some old → upper = some top →
    old.isObject = false ∨ top.isObject = false) : over? lower upper = upper.or lower := by
  cases upper with
  | none => rfl
  | some top =>
    cases lower with
    | none => rfl
    | some old => exact congrArg some (overlay_eq (h old top rfl rfl))

theorem over?_flat (flat : top.isObject = false) : over? lower (some top) = some top :=
  over?_eq_or fun _ _ _ h => .inr (by cases h; exact flat)

/-- What lies on top is no object if the whole is none. -/
theorem over?_eq_or_of_flat (h : over? lower upper = some v) (flat : v.isObject = false) :
    over? lower upper = upper.or lower := by
  refine over?_eq_or fun old top hold htop => .inr ?_
  subst hold htop
  cases Option.some.inj h
  cases top with
  | object members => cases old <;> cases flat
  | _ => rfl

theorem lookup_filter_ne {k : Option String} (h : key ≠ k) :
    (below.filter fun m => m.1 != k).lookup key = below.lookup key := by
  induction below with
  | nil => rfl
  | cons m below ih =>
    by_cases hm : m.1 = k
    · have skipped : (key == m.1) = false := beq_false_of_ne (hm ▸ h)
      rw [List.filter_cons_of_neg (by simp [hm]), ih, List.lookup_cons, skipped]
    · rw [List.filter_cons_of_pos (by simpa using hm), List.lookup_cons, List.lookup_cons, ih]

/-- Members laid over others, key by key. The upper members have to have keys of their own, else an
earlier one would be laid under a later one. -/
theorem lookup_overlayMembers (h : Keyed members) :
    (overlayMembers below members).lookup key = over? (below.lookup key) (members.lookup key) := by
  induction members generalizing below with
  | nil => rfl
  | cons m rest ih =>
    obtain ⟨k, v⟩ := m
    obtain ⟨hnew, hrest⟩ := List.nodup_cons.mp h
    rw [overlayMembers, ih hrest, List.lookup_cons, List.lookup_cons]
    by_cases hkey : key = k
    · subst hkey
      have absent : rest.lookup key = none := by
        rw [← Option.not_isSome_iff_eq_none, ← mem_keys_iff]
        exact hnew
      rw [absent, beq_self_eq_true]
      cases below.lookup key <;> rfl
    · rw [beq_false_of_ne hkey, lookup_filter_ne hkey]

theorem keyed_overlayMembers (h : Keyed below) : Keyed (overlayMembers below members) := by
  induction members generalizing below with
  | nil => exact h
  | cons m rest ih =>
    obtain ⟨k, v⟩ := m
    rw [overlayMembers]
    refine ih (List.nodup_cons.mpr ⟨?_, h.sublist (List.filter_sublist.map _)⟩)
    simp

/-! ## Values whose members have keys of their own -/

/-- If the value is an object, each key stands once in it. -/
def Single (value : Option Value) : Prop := ∀ members, value = some (.object members) → Keyed members

theorem single_empty : Single (some (.object [])) := by
  intro members h
  cases h
  exact List.nodup_nil

theorem exists_of_distinct_eq_object (h : distinct v = .object members) :
    ∃ inner, v = .object inner ∧ distinctMembers inner = members := by
  cases v with
  | object inner =>
    cases h
    exact ⟨inner, rfl, rfl⟩
  | _ => cases h

theorem single_distinct (value : Option Value) : Single (value.map distinct) := by
  intro members h
  obtain ⟨v, -, hv⟩ := Option.map_eq_some_iff.mp h
  obtain ⟨inner, -, rfl⟩ := exists_of_distinct_eq_object hv
  exact keyed_distinctMembers inner

/-- Keys that stand once on both sides stand once in what the two give together. -/
theorem Single.over? (hlower : Single lower) (hupper : Single upper) : Single (over? lower upper) := by
  intro members h
  cases upper with
  | none => exact hlower members h
  | some top =>
    cases lower with
    | none => exact hupper members h
    | some old =>
      cases top with
      | object upper =>
        cases old with
        | object lower =>
          cases h
          exact keyed_overlayMembers (hlower lower rfl)
        | _ => exact hupper members h
      | _ => cases h

/-! ## Members of what lies on top -/

/-- The member of an object with a given key. -/
def member? (value : Option Value) (key : Option String) : Option Value :=
  match value with
  | some (.object members) => members.lookup key
  | _ => none

/-- Objects are united key by key. A value that is no object on either side counts as one without
members. -/
theorem lookup_of_over? (single : Single upper) (h : over? lower upper = some (.object members))
    (key : Option String) :
    members.lookup key = over? (member? lower key) (member? upper key) := by
  cases upper with
  | none =>
    change lower = some (.object members) at h
    rw [h]
    rfl
  | some top =>
    cases top with
    | object upper =>
      have keyed := single upper rfl
      cases lower with
      | none =>
        cases h
        exact (over?_none _).symm
      | some old =>
        cases old with
        | object lower =>
          cases h
          exact lookup_overlayMembers keyed
        | _ =>
          cases h
          exact (over?_none _).symm
    | _ => cases lower <;> cases h

/-- What is laid over the empty object keeps its members. -/
theorem member?_over?_empty (single : Single upper) :
    member? (over? (some (.object [])) upper) key = member? upper key := by
  cases upper with
  | none => rfl
  | some top =>
    cases top with
    | object upper => exact (lookup_overlayMembers (single upper rfl)).trans (over?_none _)
    | _ => rfl

end CodeAtlas.Json.Value
