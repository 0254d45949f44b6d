import CodeAtlas.Proofs.Json.Grammar
import CodeAtlas.Proofs.Project.Fields
import CodeAtlas.Proofs.Text.Cut
import Mathlib.Data.List.Induction

/-!
# Layers of settings

A layer gives values to some fields: a document does (`layerOf`), and so do the variables of an
environment (`variableLayer`). What layers give to a field together (`merged`) is what the highest of
them gives that gives anything (`topmost`), unless it is an object: objects are united, key by key.
-/

namespace CodeAtlas.Settings

open CodeAtlas.Json CodeAtlas.Json.Value CodeAtlas.Text

variable {environment : List (String × String)} {name field : String}

/-! ## Variables -/

/-- What follows the beginning of the names of variables, and the fields that they set. -/
def spellings : List (String × String) :=
  [("aliases", "aliases"), ("exclude", "exclude"), ("tsconfig", "tsconfig"),
    ("direction", "direction"), ("max_hops", "maxHops"), ("maxhops", "maxHops")]

/-- The variables that set a field. Blanks around a name and the case of its letters do not matter. -/
theorem fieldOfVariable?_eq_some_iff : fieldOfVariable? name = some field ↔
    ∃ rest, (String.ofList (trimmed name.toList)).toLower = variableStart ++ rest ∧
      (rest, field) ∈ spellings := by
  simp only [← dropPrefix?_eq_some_iff]
  unfold fieldOfVariable?
  cases dropPrefix? variableStart (String.ofList (trimmed name.toList)).toLower with
  | none => simp
  | some rest =>
    simp only [Option.bind_eq_bind, Option.bind_some, Option.some.injEq, exists_eq_left']
    constructor
    · intro h
      split at h <;> cases h <;> decide
    · intro h
      simp only [spellings, List.mem_cons, Prod.mk.injEq, List.not_mem_nil, or_false] at h
      rcases h with ⟨rfl, rfl⟩ | ⟨rfl, rfl⟩ | ⟨rfl, rfl⟩ | ⟨rfl, rfl⟩ | ⟨rfl, rfl⟩ | ⟨rfl, rfl⟩ <;> rfl

/-- No field is set by two variables. -/
def SetOnce (environment : List (String × String)) : Prop :=
  (environment.filterMap fun v => fieldOfVariable? v.1).Nodup

instance : Decidable (SetOnce environment) := inferInstanceAs (Decidable (List.Nodup _))

/-- The values that the variables give to the fields. -/
def variableLayer (environment : List (String × String)) : Layer := fun field =>
  (environment.find? fun v => fieldOfVariable? v.1 == some field).map fun v =>
    (readBrief v.2).distinct

/-- The member that a variable stands for. -/
def memberOf? (v : String × String) : Option (Option String × Value) :=
  (fieldOfVariable? v.1).map fun field => (some field, readBrief v.2)

/-- The value of a field in the environment is that of the first variable that names the field. -/
theorem lookup_filterMap_memberOf? (environment : List (String × String)) (field : String) :
    (environment.filterMap memberOf?).lookup (some field) =
      (environment.find? fun v => fieldOfVariable? v.1 == some field).map fun v => readBrief v.2 := by
  induction environment with
  | nil => rfl
  | cons v environment ih =>
    rw [List.find?_cons]
    cases hfield : fieldOfVariable? v.1 with
    | none =>
      have skipped : memberOf? v = none := by rw [memberOf?, hfield, Option.map_none]
      rw [List.filterMap_cons_none skipped]
      exact ih
    | some f =>
      have entered : memberOf? v = some (some f, readBrief v.2) := by
        rw [memberOf?, hfield, Option.map_some]
      rw [List.filterMap_cons_some entered, List.lookup_cons]
      by_cases heq : field = f
      · rw [heq, beq_self_eq_true, Option.map_some]
      · have differs : (some field == some f) = false := beq_false_of_ne (by simpa using heq)
        rw [differs, beq_false_of_ne (by simpa using Ne.symm heq)]
        exact ih

theorem SetOnce.keyed (once : SetOnce environment) : Keyed (environment.filterMap memberOf?) := by
  have key : ∀ v, (memberOf? v).map Prod.fst = (fieldOfVariable? v.1).map some := by
    intro v
    rw [memberOf?, Option.map_map]
    rfl
  rw [Keyed, List.map_filterMap]
  simp only [key, ← List.map_filterMap]
  exact once.map fun _ _ => Option.some.inj

theorem layerOf_documentOfVariables (once : SetOnce environment) :
    layerOf (documentOfVariables environment) = variableLayer environment := by
  funext field
  change (distinctMembers (environment.filterMap memberOf?)).lookup (some field) = _
  rw [lookup_distinctMembers, once.keyed.lookup_reverse, lookup_filterMap_memberOf?, Option.map_map]
  rfl

/-! ## Layers over each other -/

/-- What some layers, the lowest first, give together. -/
def merged (layers : List Layer) : Layer := fun name =>
  layers.foldl (fun below layer => over? below (layer name)) none

/-- What the highest layer gives that gives anything; the lowest comes first. -/
def topmost (layers : List Layer) : Layer := fun name =>
  layers.foldl (fun below layer => (layer name).or below) none

/-- A field of the layered document is what its values in the single documents make together, in the
same order. -/
theorem layerOf_layered {documents : List Document} (keyed : ∀ d ∈ documents, Keyed d) :
    layerOf (layered documents) = merged (documents.map layerOf) := by
  have lookup : ∀ (below : Document) key, (documents.foldl overlayMembers below).lookup key =
      (documents.map fun d => d.lookup key).foldl over? (below.lookup key) := by
    induction documents with
    | nil => exact fun _ _ => rfl
    | cons d documents ih =>
      intro below key
      rw [List.foldl_cons, ih fun d hd => keyed d (List.mem_cons_of_mem _ hd),
        lookup_overlayMembers (keyed d List.mem_cons_self)]
      rfl
  funext name
  rw [layerOf, layered, lookup, merged, List.foldl_map, List.foldl_map]
  rfl

/-- The layered document has unknown fields exactly if one of the documents has some. Which layer
brings them in plays no part. -/
theorem known_layered_iff {documents : List Document} (keyed : ∀ d ∈ documents, Keyed d) :
    Known (layered documents) ↔ ∀ d ∈ documents, Known d := by
  have mem : ∀ (below : Document) key, key ∈ (documents.foldl overlayMembers below).map Prod.fst ↔
      key ∈ below.map Prod.fst ∨ ∃ d ∈ documents, key ∈ d.map Prod.fst := by
    induction documents with
    | nil => simp
    | cons d documents ih =>
      intro below key
      rw [List.foldl_cons, ih fun d hd => keyed d (List.mem_cons_of_mem _ hd), mem_keys_iff,
        lookup_overlayMembers (keyed d List.mem_cons_self), isSome_over?, Bool.or_eq_true,
        ← mem_keys_iff, ← mem_keys_iff, or_assoc]
      simp
  have found : ∀ key, key ∈ (layered documents).map Prod.fst ↔
      ∃ d ∈ documents, key ∈ d.map Prod.fst := by
    intro key
    rw [layered, mem]
    exact or_iff_right List.not_mem_nil
  unfold Known
  constructor
  · exact fun h d hd key hkey => h key ((found key).mpr ⟨d, hd, hkey⟩)
  · intro h key hkey
    obtain ⟨d, hd, hkey⟩ := (found key).mp hkey
    exact h d hd key hkey

/-- What is no object comes from one layer. -/
theorem merged_eq_topmost {layers : List Layer}
    (flat : ∀ v, merged layers name = some v → v.isObject = false) :
    merged layers name = topmost layers name := by
  induction layers using List.reverseRecOn with
  | nil => rfl
  | append_singleton layers layer ih =>
    have step : merged (layers ++ [layer]) name = over? (merged layers name) (layer name) :=
      List.foldl_concat ..
    have top : topmost (layers ++ [layer]) name = (layer name).or (topmost layers name) :=
      List.foldl_concat ..
    rw [step] at flat ⊢
    rw [top]
    cases hv : layer name with
    | none =>
      rw [hv] at flat
      exact ih flat
    | some v =>
      obtain ⟨whole, hwhole⟩ : ∃ whole, over? (merged layers name) (some v) = some whole := by
        rw [← Option.isSome_iff_exists, isSome_over?]
        simp
      rw [hv] at flat
      exact over?_eq_or_of_flat hwhole (flat whole hwhole)

end CodeAtlas.Settings
