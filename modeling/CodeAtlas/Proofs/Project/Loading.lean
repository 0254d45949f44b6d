import CodeAtlas.Proofs.Project.Layers

/-!
# Loading settings

The document of a settings file is the object that its text spells (`documentOf_eq_ok_iff`). It is
one of four layers, and each of them has each key once, so that they can be laid over each other.
Loading reads what the layers give together: it yields settings if the file has known fields only and
the values that result mean something (`load_eq_ok_iff`). A layer alone may mean nothing.
-/

namespace CodeAtlas.Settings

open CodeAtlas.Json CodeAtlas.Json.Value CodeAtlas.Text

variable {written : Document} {environment : List (String × String)} {o : Overrides}
  {name : String} {s : Settings} {files : FileSystem} {root : String} {asked : Option String}

/-! ## What is written -/

theorem fromUTF8?_eq_some_iff {bytes : ByteArray} {text : String} :
    String.fromUTF8? bytes = some text ↔ bytes = text.toUTF8 := by
  unfold String.fromUTF8?
  constructor
  · intro h
    split at h
    · cases h
      rfl
    · cases h
  · rintro rfl
    rw [dif_pos (show text.toUTF8.IsValidUTF8 from text.isValidUTF8)]
    rfl

/-- The document of a settings file, or the empty one where there is none. The file has to be a JSON
text of an object. Half a surrogate pair, a number that is too large and a value that is nested too
deep are not read. -/
inductive Written (files : FileSystem) (root : String) (asked : Option String) : Document → Prop
  | absent (h : content files root asked = .ok none) : Written files root asked []
  | file {text : Spaced} {members : Document}
      (h : content files root asked = .ok (some (String.ofList (text.text false)).toUTF8))
      (object : text.value = .object members) (shallow : text.value.depth ≤ maxDepth)
      (plain : text.value.allPlain isFinite) : Written files root asked (distinctMembers members)

/-- The bytes of a settings file are accepted exactly if they are the UTF-8 form of a strict JSON
object, not too deep, with plain numbers and texts, in any spacing. -/
theorem documentOf_eq_ok_iff {bytes : ByteArray} : documentOf bytes = .ok written ↔
    ∃ (text : Spaced) (members : Document), bytes = (String.ofList (text.text false)).toUTF8 ∧
      text.value = .object members ∧ text.value.depth ≤ maxDepth ∧ text.value.allPlain isFinite ∧
      distinctMembers members = written := by
  constructor
  · intro h
    unfold documentOf at h
    split at h
    case h_1 => cases h
    case h_2 value hvalue =>
      obtain ⟨spelled, hspelled, hread⟩ := Option.bind_eq_some_iff.mp hvalue
      obtain ⟨text, rfl, rfl⟩ := read_eq_some_iff.mp hread
      split at h
      case isTrue => cases h
      case isFalse fits =>
        rw [Bool.or_eq_true, not_or, decide_eq_true_eq, Nat.not_lt, Bool.not_eq_true',
          Bool.not_eq_false] at fits
        cases object : text.value with
        | object members =>
          rw [object] at h
          cases h
          exact ⟨text, members, fromUTF8?_eq_some_iff.mp hspelled, object, fits.1, fits.2, rfl⟩
        | _ =>
          rw [object] at h
          cases h
  · rintro ⟨text, members, rfl, object, shallow, plain, rfl⟩
    have hread := read_eq_some_iff.mpr ⟨text, rfl, rfl⟩
    unfold documentOf
    rw [fromUTF8?_eq_some_iff.mpr rfl, Option.bind_some, hread]
    dsimp only
    rw [if_neg (by simp [plain, shallow]), object]
    rfl

theorem written_of_documentOf {bytes : ByteArray} (h : content files root asked = .ok (some bytes))
    (hdocument : documentOf bytes = .ok written) : Written files root asked written := by
  obtain ⟨text, members, rfl, object, shallow, plain, rfl⟩ := documentOf_eq_ok_iff.mp hdocument
  exact .file h object shallow plain

theorem Written.keyed (h : Written files root asked written) : Keyed written := by
  cases h with
  | absent => exact List.nodup_nil
  | file => exact keyed_distinctMembers _

theorem Written.single (h : Written files root asked written) (name : String) :
    Single (layerOf written name) := by
  cases h with
  | absent => exact fun _ h => by cases h
  | file =>
    rw [layerOf, lookup_distinctMembers]
    exact single_distinct _

theorem single_variableLayer (environment : List (String × String)) (name : String) :
    Single (variableLayer environment name) := by
  have value : variableLayer environment name = ((environment.find? fun v =>
      fieldOfVariable? v.1 == some name).map fun v => readBrief v.2).map distinct := by
    rw [Option.map_map]
    rfl
  rw [value]
  exact single_distinct _

/-! ## The four layers -/

/-- The layers of settings, the lowest first. -/
def layers (written : Document) (environment : List (String × String)) (o : Overrides) : List Layer :=
  [layerOf defaultDocument, layerOf written, variableLayer environment,
    layerOf (documentOfOverrides o)]

theorem keyed_default : Keyed defaultDocument := by
  simp [Keyed, defaultDocument]

theorem known_default : Known defaultDocument := by
  simp [Known, defaultDocument, fields]

theorem keyed_overrides (o : Overrides) : Keyed (documentOfOverrides o) := by
  obtain ⟨_ | d, _ | n⟩ := o <;> simp [Keyed, documentOfOverrides]

theorem known_overrides (o : Overrides) : Known (documentOfOverrides o) := by
  obtain ⟨_ | d, _ | n⟩ := o <;> simp [Known, documentOfOverrides, fields]

theorem mem_fields_of_fieldOfVariable? {field : String} (h : fieldOfVariable? name = some field) :
    field ∈ fields := by
  obtain ⟨rest, -, hmem⟩ := fieldOfVariable?_eq_some_iff.mp h
  simp only [spellings, List.mem_cons, Prod.mk.injEq, List.not_mem_nil, or_false] at hmem
  rcases hmem with ⟨-, rfl⟩ | ⟨-, rfl⟩ | ⟨-, rfl⟩ | ⟨-, rfl⟩ | ⟨-, rfl⟩ | ⟨-, rfl⟩ <;> decide

theorem known_variables (environment : List (String × String)) :
    Known (documentOfVariables environment) := by
  intro key hkey
  change key ∈ (distinctMembers (environment.filterMap memberOf?)).map Prod.fst at hkey
  rw [mem_keys_distinctMembers, List.mem_map] at hkey
  obtain ⟨m, hm, rfl⟩ := hkey
  obtain ⟨v, -, hv⟩ := List.mem_filterMap.mp hm
  obtain ⟨field, hfield, rfl⟩ := Option.map_eq_some_iff.mp hv
  exact ⟨field, mem_fields_of_fieldOfVariable? hfield, rfl⟩

theorem flat_overrides {v : Value} (h : layerOf (documentOfOverrides o) name = some v) :
    v.isObject = false := by
  have flat : ∀ m ∈ documentOfOverrides o, m.2.isObject = false := by
    obtain ⟨_ | d, _ | n⟩ := o <;> simp [documentOfOverrides, ofText, ofNat, isObject]
  exact flat _ ((keyed_overrides o).lookup_eq_some_iff.mp h)

theorem flag_direction (o : Overrides) :
    layerOf (documentOfOverrides o) "direction" = o.direction.map fun d => .ofText d.name := by
  obtain ⟨_ | d, _ | n⟩ := o <;> rfl

theorem flag_maxHops (o : Overrides) :
    layerOf (documentOfOverrides o) "maxHops" = o.maxHops.map .ofNat := by
  obtain ⟨_ | d, _ | n⟩ := o <;> rfl

theorem flag_other (h : name ∉ ["direction", "maxHops"]) :
    layerOf (documentOfOverrides o) name = none := by
  have keys : ∀ m ∈ documentOfOverrides o, m.1 ∈ [some "direction", some "maxHops"] := by
    obtain ⟨_ | d, _ | n⟩ := o <;> simp [documentOfOverrides]
  rw [layerOf, List.lookup_eq_none_iff]
  intro m hm
  have hkey := keys m hm
  simp only [List.mem_cons, List.not_mem_nil, or_false, not_or] at h hkey
  rcases hkey with hkey | hkey
  · simp [hkey, h.1]
  · simp [hkey, h.2]

/-- All layers as documents, the lowest first. -/
def documents (written : Document) (environment : List (String × String)) (o : Overrides) :
    List Document :=
  [defaultDocument, written, documentOfVariables environment, documentOfOverrides o]

theorem keyed_documents (h : Keyed written) : ∀ d ∈ documents written environment o, Keyed d := by
  simp only [documents, List.forall_mem_cons]
  exact ⟨keyed_default, h, keyed_distinctMembers _, keyed_overrides o, by simp⟩

theorem known_documents_iff : (∀ d ∈ documents written environment o, Known d) ↔ Known written := by
  simp only [documents, List.forall_mem_cons]
  constructor
  · exact fun h => h.2.1
  · exact fun h => ⟨known_default, h, known_variables _, known_overrides o, by simp⟩

theorem known_layered_documents_iff (h : Keyed written) :
    Known (layered (documents written environment o)) ↔ Known written := by
  rw [known_layered_iff (keyed_documents h), known_documents_iff]

theorem layerOf_layered_documents (h : Keyed written) (once : SetOnce environment) :
    layerOf (layered (documents written environment o)) = merged (layers written environment o) := by
  rw [layerOf_layered (keyed_documents h), layers, ← layerOf_documentOfVariables once]
  rfl

/-- Loading reads the document that the layers stand for together. -/
theorem load_eq (h : Written files root asked written) : load files environment root asked o =
    (ofDocument (layered (documents written environment o))).mapError
      DocumentFault.toSettingsFault := by
  unfold load
  cases h with
  | absent h =>
    rw [h]
    rfl
  | file h object shallow plain =>
    have read := documentOf_eq_ok_iff.mpr ⟨_, _, rfl, object, shallow, plain, rfl⟩
    rw [h]
    change (documentOf _).mapError DocumentFault.toSettingsFault >>= _ = _
    rw [read]
    rfl

theorem merged_layers (name : String) : merged (layers written environment o) name =
    over? (over? (over? (layerOf defaultDocument name) (layerOf written name))
      (variableLayer environment name)) (layerOf (documentOfOverrides o) name) := by
  rw [← over?_none (layerOf defaultDocument name)]
  rfl

theorem merged_aliases : merged (layers written environment o) "aliases" =
    over? (over? (some (.object [])) (layerOf written "aliases"))
      (variableLayer environment "aliases") := by
  obtain ⟨_ | d, _ | n⟩ := o <;> rfl

/-- **Loading succeeds if the file has known fields only and the layers mean something together.** -/
theorem load_eq_ok_iff (h : Written files root asked written) (once : SetOnce environment) :
    load files environment root asked o = .ok s ↔
      Known written ∧ Describes (merged (layers written environment o)) s := by
  have same : layerOf (layered (documents written environment o)) =
      merged (layers written environment o) := layerOf_layered_documents h.keyed once
  have single : Single (layerOf (layered (documents written environment o)) "aliases") := by
    rw [same, merged_aliases]
    exact .over? (.over? single_empty (h.single _)) (single_variableLayer _ _)
  rw [load_eq h, Resolution.mapError_eq_ok_iff, ofDocument_eq_ok_iff single, same,
    known_layered_documents_iff h.keyed]

/-- Nothing but what the layers give together matters, if the fields of the file are known. -/
theorem load_congr {files' : FileSystem} {root' : String} {asked' : Option String}
    {written' : Document} {environment' : List (String × String)}
    (h : Written files root asked written) (h' : Written files' root' asked' written')
    (once : SetOnce environment) (once' : SetOnce environment') (known : Known written)
    (known' : Known written')
    (aliases : (merged (layers written environment o) "aliases").map textMap? =
      (merged (layers written' environment' o) "aliases").map textMap?)
    (same : ∀ name ∈ fields, name ≠ "aliases" → merged (layers written environment o) name =
      merged (layers written' environment' o) name) :
    load files environment root asked o = load files' environment' root' asked' o := by
  rw [load_eq h, load_eq h']
  refine congrArg _ (ofDocument_congr ?_ ?_ ?_ ?_)
  · exact (known_layered_documents_iff h.keyed).mpr known
  · exact (known_layered_documents_iff h'.keyed).mpr known'
  · rw [layerOf_layered_documents h.keyed once, layerOf_layered_documents h'.keyed once']
    exact aliases
  · rw [layerOf_layered_documents h.keyed once, layerOf_layered_documents h'.keyed once']
    exact same

end CodeAtlas.Settings
