import CodeAtlas.Proofs.Json.Brief
import CodeAtlas.Proofs.Json.ReadBack
import CodeAtlas.Proofs.Project.Loading

/-!
# Directions that are objects

An object names a direction by its least key, if the value of that key is null (`names_object_iff`).
In the brief form nothing is null. So an object of the environment names no direction, and where it is
united with one of the file, the direction is that of the file, if there still is one
(`Names.of_overlay`).
-/

namespace CodeAtlas.Settings

open CodeAtlas.Json CodeAtlas.Json.Value CodeAtlas.Text

variable {members above : Document} {d : Direction}

/-- All members have keys, and each key stands once. -/
structure Labelled (members : Document) : Prop where
  keyed : Keyed members
  key : ∀ m ∈ members, m.1.isSome

theorem labelled_distinctMembers (h : ∀ m ∈ members, m.1.isSome) :
    Labelled (distinctMembers members) where
  keyed := keyed_distinctMembers members
  key m hm := by
    obtain ⟨w, hw, -⟩ := exists_of_mem_distinctMembers hm
    exact h (m.1, w) hw

theorem Labelled.nodup (h : Labelled members) : (members.map fun m => m.1.getD "").Nodup := by
  refine List.Nodup.of_map some ?_
  have keys : (members.map fun m => m.1.getD "").map some = members.map Prod.fst := by
    rw [List.map_map]
    refine List.map_congr_left fun m hm => ?_
    obtain ⟨key, hkey⟩ := Option.isSome_iff_exists.mp (h.key m hm)
    simp [hkey]
  rw [keys]
  exact h.keyed

/-- Whether a value is null. -/
def isNull : Value → Bool
  | .null => true
  | _ => false

theorem isNull_iff {v : Value} : isNull v = true ↔ v = .null := by
  cases v <;> simp [isNull]

/-- The members of an object with distinct keys are all in its table, each with whether its value is
null. -/
theorem getElem?_lastMembers (h : Labelled members) {key : String} {b : Bool} :
    (directionOf.lastMembers members)[key]? = some b ↔
      ∃ v, (some key, v) ∈ members ∧ isNull v = b := by
  have inserted : directionOf.lastMembers members =
      members.foldl (fun t m => t.insert (m.1.getD "") (isNull m.2)) ∅ := by
    unfold directionOf.lastMembers
    congr
  rw [inserted, TextMap.getElem?_foldl_insert_eq_some_iff h.nodup]
  constructor
  · rintro ⟨m, hm, rfl, rfl⟩
    obtain ⟨key, hkey⟩ := Option.isSome_iff_exists.mp (h.key m hm)
    refine ⟨m.2, ?_, rfl⟩
    rw [hkey, Option.getD_some, ← hkey]
    exact hm
  · rintro ⟨v, hv, rfl⟩
    exact ⟨_, hv, rfl, rfl⟩

/-- An object names a direction by its least key. The value of that key has to be null, and the
other members are not looked at. -/
theorem names_object_iff (h : Labelled members) : Names (.object members) d ↔
    (some d.name, .null) ∈ members ∧
      ∀ key v, (some key, v) ∈ members → (compare d.name key).isLE := by
  have first : Names (.object members) d ↔
      ∃ rest, (directionOf.lastMembers members).toList = (d.name, true) :: rest :=
    ⟨fun h => by cases h with | first h => exact ⟨_, h⟩, fun ⟨_, h⟩ => .first h⟩
  rw [first, TextMap.exists_toList_eq_cons_iff, getElem?_lastMembers h]
  refine and_congr ?_ ?_
  · constructor
    · rintro ⟨v, hv, hnull⟩
      rwa [← isNull_iff.mp hnull]
    · exact fun hnull => ⟨_, hnull, rfl⟩
  · constructor
    · exact fun least key v hv => least key (isNull v) ((getElem?_lastMembers h).mpr ⟨v, hv, rfl⟩)
    · intro least key b hb
      obtain ⟨v, hv, -⟩ := (getElem?_lastMembers h).mp hb
      exact least key v hv

/-! ## United objects -/

theorem overlay_ne_null {old top : Value} (h : top ≠ .null) : overlay old top ≠ .null := by
  cases top with
  | object members => cases old <;> exact nofun
  | _ => exact h

theorem Labelled.overlayMembers (h : Labelled members) (habove : Labelled above) :
    Labelled (overlayMembers members above) where
  keyed := keyed_overlayMembers h.keyed
  key m hm := by
    have found := mem_keys_iff.mp (List.mem_map_of_mem hm)
    rw [lookup_overlayMembers habove.keyed, isSome_over?, Bool.or_eq_true, ← mem_keys_iff,
      ← mem_keys_iff] at found
    rcases found with found | found
    · obtain ⟨m', hm', heq⟩ := List.mem_map.mp found
      exact heq ▸ h.key m' hm'
    · obtain ⟨m', hm', heq⟩ := List.mem_map.mp found
      exact heq ▸ habove.key m' hm'

/-- An object without null does not change which direction an object below it names. -/
theorem Names.of_overlay (h : Labelled members) (habove : Labelled above)
    (full : ∀ m ∈ above, m.2 ≠ .null) (names : Names (.object (overlayMembers members above)) d) :
    Names (.object members) d := by
  obtain ⟨hnull, least⟩ := (names_object_iff (h.overlayMembers habove)).mp names
  refine (names_object_iff h).mpr ⟨?_, ?_⟩
  · have whole := (h.overlayMembers habove).keyed.lookup_eq_some_iff.mpr hnull
    rw [lookup_overlayMembers habove.keyed] at whole
    cases hv : above.lookup (some d.name) with
    | none =>
      rw [hv] at whole
      exact h.keyed.lookup_eq_some_iff.mp whole
    | some v =>
      have filled := full _ (habove.keyed.lookup_eq_some_iff.mp hv)
      rw [hv] at whole
      cases hold : members.lookup (some d.name) with
      | none =>
        rw [hold] at whole
        exact absurd (Option.some.inj whole) filled
      | some old =>
        rw [hold] at whole
        exact absurd (Option.some.inj whole) (overlay_ne_null filled)
  · intro key v hv
    have found : ((overlayMembers members above).lookup (some key)).isSome := by
      rw [lookup_overlayMembers habove.keyed, isSome_over?, h.keyed.lookup_eq_some_iff.mpr hv]
      rfl
    obtain ⟨w, hw⟩ := Option.isSome_iff_exists.mp found
    exact least key w ((h.overlayMembers habove).keyed.lookup_eq_some_iff.mp hw)

/-! ## Objects of the layers -/

variable {written : Document} {environment : List (String × String)} {name : String}
  {files : FileSystem} {root : String} {asked : Option String}

/-- An object in a settings file has keys that are texts and distinct ones, since the file is read
as strict JSON. -/
theorem Written.labelled (h : Written files root asked written)
    (hmembers : layerOf written name = some (.object members)) : Labelled members := by
  have mem := h.keyed.lookup_eq_some_iff.mp hmembers
  cases h with
  | absent => cases mem
  | @file text whole h object shallow plain =>
    rw [object, allPlain_object_iff] at plain
    obtain ⟨w, hw, hdistinct⟩ := exists_of_mem_distinctMembers mem
    obtain ⟨inner, rfl, rfl⟩ := exists_of_distinct_eq_object hdistinct
    exact labelled_distinctMembers fun m hm => (allPlain_object_iff.mp (plain _ hw).2 m hm).1

/-- An object of the environment has no null. -/
theorem labelled_variable (h : variableLayer environment name = some (.object above)) :
    Labelled above ∧ ∀ m ∈ above, m.2 ≠ .null := by
  obtain ⟨v, -, hv⟩ := Option.map_eq_some_iff.mp h
  obtain ⟨inner, hinner, rfl⟩ := exists_of_distinct_eq_object hv
  have brief := readBrief_object hinner
  refine ⟨labelled_distinctMembers fun m hm => (brief m hm).1, ?_⟩
  intro m hm hnull
  obtain ⟨w, hw, hdistinct⟩ := exists_of_mem_distinctMembers hm
  rw [hnull] at hdistinct
  refine (brief _ hw).2 ?_
  cases w with
  | null => rfl
  | _ => cases hdistinct

end CodeAtlas.Settings
