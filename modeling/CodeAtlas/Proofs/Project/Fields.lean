import CodeAtlas.Project.Settings
import CodeAtlas.Proofs.Json.Shapes
import CodeAtlas.Proofs.Resolution.Packages

/-!
# The fields of a document of settings

A document stands for settings if it has known fields only and the value of each is of the kind that
the field takes (`ofDocument_eq_ok_iff`). The settings depend on nothing but the values that the
document yields for the names of the fields (`ofDocument_congr`).
-/

namespace CodeAtlas.Settings

open CodeAtlas.Json CodeAtlas.Text

variable {document document' : Document} {name : String} {v : Value} {s : Settings}

/-! ## Kinds of values -/

/-- An object of texts, and the table of its members. -/
inductive Lists : Value → TextMap String → Prop
  | object {members : Document} {table : TextMap String} (h : Value.Tabulates members table) :
      Lists (.object members) table

/-- A list of texts. -/
inductive Texts : Value → List String → Prop
  | list (texts : List String) : Texts (.ofTexts texts) texts

/-- A text that may be missing. -/
inductive MayBe : Value → Option String → Prop
  | missing : MayBe .null none
  | text (t : String) : MayBe (.ofText t) (some t)

/-- A direction by its name, by its place in the list of directions, or as the first member of an
object, whose value is null. -/
inductive Names : Value → Direction → Prop
  | name (d : Direction) : Names (.ofText d.name) d
  | place {literal : String} {n : Nat} {d : Direction} (hn : count? literal.toList = some n)
      (hd : [Direction.dependencies, .dependents, .both][n]? = some d) : Names (.number literal) d
  | first {members : Document} {d : Direction} {rest : List (String × Bool)}
      (h : (directionOf.lastMembers members).toList = (d.name, true) :: rest) :
      Names (.object members) d

/-- A number without sign, point and exponent. -/
inductive Counts : Value → Nat → Prop
  | number {literal : String} {n : Nat} (h : count? literal.toList = some n) :
      Counts (.number literal) n

theorem textMap?_eq_some_iff {table : TextMap String} (h : Value.Single (some v)) :
    v.textMap? = some table ↔ Lists v table := by
  cases v with
  | object members =>
    rw [Value.textMap?_eq_some_iff (h members rfl)]
    exact ⟨.object, fun h => by cases h; assumption⟩
  | _ => exact iff_of_false nofun nofun

theorem texts?_eq_some_iff {texts : List String} : v.texts? = some texts ↔ Texts v texts := by
  rw [Value.texts?_eq_some_iff]
  constructor
  · rintro rfl
    exact .list texts
  · rintro ⟨⟩
    rfl

theorem optionalText_eq_some_iff {text : Option String} :
    optionalText v = some text ↔ MayBe v text := by
  constructor
  · intro h
    unfold optionalText at h
    split at h
    · cases h
      exact .missing
    · obtain ⟨t, ht, rfl⟩ := Option.map_eq_some_iff.mp h
      rw [Value.text?_eq_some_iff.mp ht]
      exact .text t
  · rintro (_ | t) <;> rfl

theorem ofName?_eq_some_iff {d : Direction} : Direction.ofName? name = some d ↔ name = d.name := by
  constructor
  · intro h
    unfold Direction.ofName? at h
    split at h <;> cases h <;> rfl
  · rintro rfl
    exact Direction.ofName?_name d

/-- A direction is read from its name, from its number, or from an object whose least key names it.
-/
theorem directionOf_eq_some_iff {d : Direction} : directionOf v = some d ↔ Names v d := by
  constructor
  · intro h
    unfold directionOf at h
    split at h
    · cases ofName?_eq_some_iff.mp h
      exact .name d
    · obtain ⟨n, hn, hd⟩ := Option.bind_eq_some_iff.mp h
      exact .place hn hd
    · split at h
      · rename_i hfirst
        cases ofName?_eq_some_iff.mp h
        exact .first hfirst
      · cases h
    · cases h
  · rintro (d | ⟨hn, hd⟩ | hfirst)
    · exact Direction.ofName?_name d
    · exact Option.bind_eq_some_iff.mpr ⟨_, hn, hd⟩
    · rw [directionOf, hfirst]
      exact Direction.ofName?_name d

theorem countOf_eq_some_iff {n : Nat} : countOf v = some n ↔ Counts v n := by
  constructor
  · intro h
    cases v with
    | number literal => exact .number h
    | _ => cases h
  · rintro ⟨h⟩
    exact h

/-! ## Known fields -/

/-- All keys of a document are names of fields. -/
def Known (document : Document) : Prop :=
  ∀ key ∈ document.map Prod.fst, ∃ name ∈ fields, key = some name

theorem unknownField?_eq_none_iff : unknownField? document = none ↔ Known document := by
  have named : ∀ key : Option String, key.getD "" ∈ fields ↔ ∃ name ∈ fields, key = some name := by
    rintro (_ | key)
    · exact iff_of_false (by decide) (by rintro ⟨_, -, ⟨⟩⟩)
    · simp
  simp [unknownField?, Known, List.find?_eq_none, ← named]

/-! ## Values of fields -/

/-- What a field holds: what its value means, or `missing` if it has none. -/
def Holds {α : Type} (value? : Option Value) (missing : α) (Means : Value → α → Prop) (a : α) : Prop :=
  value? = none ∧ missing = a ∨ ∃ v, value? = some v ∧ Means v a

/-- A field is read as `a` exactly if its value means `a`, or it has no value and `a` is what stands
for a missing one. -/
theorem field_eq_ok_iff {α : Type} {read : Value → Option α} {Means : Value → α → Prop}
    {missing a : α} (h : ∀ v, document.lookup (some name) = some v → (read v = some a ↔ Means v a)) :
    field document name read missing = .ok a ↔
      Holds (document.lookup (some name)) missing Means a := by
  unfold field Holds
  cases hv : document.lookup (some name) with
  | none => simp
  | some v =>
    have means := h v hv
    cases hread : read v with
    | none => simp [hread, ← means]
    | some b => simp [hread, ← means]

theorem field_congr {α : Type} {read : Value → Option α} {missing : α}
    (h : (document.lookup (some name)).map read = (document'.lookup (some name)).map read) :
    field document name read missing = field document' name read missing := by
  unfold field
  cases hv : document.lookup (some name) with
  | none =>
    rw [hv] at h
    rw [Option.map_eq_none_iff.mp h.symm]
  | some v =>
    rw [hv] at h
    obtain ⟨v', hv', hread⟩ := Option.map_eq_some_iff.mp h.symm
    simp only [hv', hread]

/-! ## Documents -/

/-- What some layer gives to the fields by their names. -/
abbrev Layer := String → Option Value

/-- The values that a document gives to the fields. -/
def layerOf (document : Document) : Layer := fun name => document.lookup (some name)

/-- What the values of all fields mean together. -/
structure Describes (layer : Layer) (s : Settings) : Prop where
  aliases : Holds (layer "aliases") ∅ Lists s.aliases
  exclude : Holds (layer "exclude") [] Texts s.exclude
  tsconfig : Holds (layer "tsconfig") none MayBe s.tsconfig
  direction : Holds (layer "direction") .dependencies Names s.direction
  maxHops : Holds (layer "maxHops") 2 Counts s.maxHops

/-- A document stands for settings if its fields are known and have values that mean something. -/
theorem ofDocument_eq_ok_iff (single : Value.Single (document.lookup (some "aliases"))) :
    ofDocument document = .ok s ↔ Known document ∧ Describes (layerOf document) s := by
  have fields : ofDocument document = .ok s ↔ unknownField? document = none ∧
      field document "aliases" Value.textMap? ∅ = .ok s.aliases ∧
      field document "exclude" Value.texts? [] = .ok s.exclude ∧
      field document "tsconfig" optionalText none = .ok s.tsconfig ∧
      field document "direction" directionOf .dependencies = .ok s.direction ∧
      field document "maxHops" countOf 2 = .ok s.maxHops := by
    unfold ofDocument
    cases unknownField? document with
    | some name => exact iff_of_false nofun nofun
    | none =>
      simp only [Resolution.bind_eq_ok_iff]
      constructor
      · rintro ⟨a, ha, e, he, t, ht, d, hd, n, hn, hs⟩
        cases hs
        exact ⟨trivial, ha, he, ht, hd, hn⟩
      · rintro ⟨-, ha, he, ht, hd, hn⟩
        exact ⟨_, ha, _, he, _, ht, _, hd, _, hn, rfl⟩
  rw [fields, unknownField?_eq_none_iff,
    field_eq_ok_iff fun v hv => textMap?_eq_some_iff (hv ▸ single),
    field_eq_ok_iff fun _ _ => texts?_eq_some_iff,
    field_eq_ok_iff fun _ _ => optionalText_eq_some_iff,
    field_eq_ok_iff fun _ _ => directionOf_eq_some_iff,
    field_eq_ok_iff fun _ _ => countOf_eq_some_iff]
  refine and_congr_right fun _ => ⟨?_, ?_⟩
  · rintro ⟨ha, he, ht, hd, hn⟩
    exact ⟨ha, he, ht, hd, hn⟩
  · rintro ⟨ha, he, ht, hd, hn⟩
    exact ⟨ha, he, ht, hd, hn⟩

/-- The settings depend on a document only through its fields. Two documents with the same fields,
compared as the settings read them, give the same settings. -/
theorem ofDocument_congr (known : Known document) (known' : Known document')
    (aliases : (layerOf document "aliases").map Value.textMap? =
      (layerOf document' "aliases").map Value.textMap?)
    (same : ∀ name ∈ fields, name ≠ "aliases" → layerOf document name = layerOf document' name) :
    ofDocument document = ofDocument document' := by
  have equal : ∀ {α} (name) (read : Value → Option α) (missing : α), name ∈ fields →
      name ≠ "aliases" → field document name read missing = field document' name read missing :=
    fun name read missing hname hne => field_congr (congrArg (Option.map read) (same name hname hne))
  unfold ofDocument
  rw [unknownField?_eq_none_iff.mpr known, unknownField?_eq_none_iff.mpr known', field_congr aliases,
    equal "exclude" _ _ (by decide) (by decide), equal "tsconfig" _ _ (by decide) (by decide),
    equal "direction" _ _ (by decide) (by decide), equal "maxHops" _ _ (by decide) (by decide)]

end CodeAtlas.Settings
