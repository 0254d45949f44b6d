import CodeAtlas.Text.PairOrder
import Mathlib.Data.List.Nodup
import Std.Data.DTreeMap.Lemmas

/-!
# Values and entries of a map of texts

The values of a map come in the order of their keys (`values_eq`), and they are what look-up
yields (`mem_values`, `values_eq_filterMap_keys`). A list that is made of the entries of a map, at
most one for each, is searched by key like the map (`lookup_filterMap_toList`), and a list of entries
that is in order is fixed by its members (`eq_of_ordered`). Insertions in a row leave the other keys
alone and keep what they insert, unless a later one replaces it (`mem_of_getElem?_foldl_insert`,
`isSome_getElem?_foldl_insert`).
-/

namespace CodeAtlas.Text.TextMap

variable {β : Type} {m : TextMap β}

/-- The two lists are made by the same walk over the tree behind a map. -/
theorem values_eq (m : TextMap β) : m.values = m.toList.map Prod.snd := by
  obtain ⟨⟨q⟩⟩ := m
  induction q using Quotient.ind with
  | _ t =>
    change t.inner.values = (Std.DTreeMap.Internal.Impl.Const.toList t.inner).map Prod.snd
    rw [Std.DTreeMap.Internal.Impl.values_eq_map_snd,
      Std.DTreeMap.Internal.Impl.Const.toList_eq_toListModel_map, List.map_map]
    rfl

theorem mem_values {v : β} : v ∈ m.values ↔ ∃ path : String, m[path]? = some v := by
  rw [values_eq, List.mem_map]
  constructor
  · rintro ⟨⟨path, v⟩, h, rfl⟩
    exact ⟨path, Std.ExtTreeMap.mem_toList_iff_getElem?_eq_some.mp h⟩
  · rintro ⟨path, h⟩
    exact ⟨(path, v), Std.ExtTreeMap.mem_toList_iff_getElem?_eq_some.mpr h, rfl⟩

theorem values_eq_filterMap_keys (m : TextMap β) : m.values = m.keys.filterMap (m[·]?) := by
  have found : ∀ e ∈ m.toList, m[e.1]? = some e.2 := fun e he =>
    Std.ExtTreeMap.mem_toList_iff_getElem?_eq_some.mp he
  have entries : m.toList.filterMap (fun e => m[e.1]?) = m.toList.map Prod.snd :=
    List.filterMap_eq_map_iff_forall_eq_some.mpr found
  rw [values_eq, ← Std.ExtTreeMap.map_fst_toList_eq_keys, List.filterMap_map, ← entries]
  rfl

/-! ## Entries -/

theorem nodup_keys_toList (m : TextMap β) : (m.toList.map Prod.fst).Nodup := by
  rw [Std.ExtTreeMap.map_fst_toList_eq_keys]
  exact Std.ExtTreeMap.nodup_keys

/-- In a list with distinct keys, look-up yields whatever is there. -/
theorem lookup_eq_some_iff_mem {κ : Type} [BEq κ] [LawfulBEq κ] {entries : List (κ × β)}
    (h : (entries.map Prod.fst).Nodup) {key : κ} {v : β} :
    entries.lookup key = some v ↔ (key, v) ∈ entries := by
  induction entries with
  | nil => simp
  | cons e entries ih =>
    obtain ⟨hnew, hrest⟩ := List.nodup_cons.mp h
    rw [List.lookup_cons, List.mem_cons]
    by_cases hkey : key = e.1
    · subst hkey
      have absent : (e.1, v) ∉ entries := fun hm => hnew (List.mem_map.mpr ⟨_, hm, rfl⟩)
      simp [absent, Prod.ext_iff, eq_comm]
    · have differs : (key == e.1) = false := beq_false_of_ne hkey
      simp [hkey, differs, ih hrest, Prod.ext_iff]

/-- A list that is made of the entries of a map, at most one for each, holds what look-up and the
function yield. -/
theorem mem_filterMap_toList {γ : Type} {f : β → Option γ} {key : String} {c : γ} :
    (key, c) ∈ (m.toList.map fun e => (f e.2).map (e.1, ·)).filterMap id ↔
      ∃ v, m[key]? = some v ∧ f v = some c := by
  simp only [List.mem_filterMap, List.mem_map, id_eq]
  constructor
  · rintro ⟨_, ⟨⟨k, v⟩, hm, rfl⟩, he⟩
    obtain ⟨c', hc, hpair⟩ := Option.map_eq_some_iff.mp he
    cases hpair
    exact ⟨v, Std.ExtTreeMap.mem_toList_iff_getElem?_eq_some.mp hm, hc⟩
  · rintro ⟨v, hm, hc⟩
    refine ⟨_, ⟨(key, v), Std.ExtTreeMap.mem_toList_iff_getElem?_eq_some.mpr hm, rfl⟩, ?_⟩
    simp [hc]

theorem keys_filterMap_sublist {γ : Type} (f : β → Option γ) (entries : List (String × β)) :
    (((entries.map fun e => (f e.2).map (e.1, ·)).filterMap id).map Prod.fst).Sublist
      (entries.map Prod.fst) := by
  induction entries with
  | nil => exact .refl _
  | cons e entries ih =>
    cases h : f e.2 with
    | none => simpa [h] using ih.cons e.1
    | some c => simpa [h] using ih.cons_cons e.1

/-- Such a list is searched by key like the map, since it has each key at most once. -/
theorem lookup_filterMap_toList {γ : Type} {f : β → Option γ} {key : String} {c : γ} :
    ((m.toList.map fun e => (f e.2).map (e.1, ·)).filterMap id).lookup key = some c ↔
      ∃ v, m[key]? = some v ∧ f v = some c := by
  rw [lookup_eq_some_iff_mem ((keys_filterMap_sublist f _).nodup (nodup_keys_toList m)),
    mem_filterMap_toList]

theorem lookup_toList (m : TextMap β) (key : String) : m.toList.lookup key = m[key]? := by
  refine Option.ext fun v => ?_
  rw [lookup_eq_some_iff_mem (nodup_keys_toList m), Std.ExtTreeMap.mem_toList_iff_getElem?_eq_some]

/-- Only one list of some entries is in the order of the keys. -/
theorem eq_of_ordered {entries entries' : List (String × β)}
    (h : entries.Pairwise fun a b => compare a.1 b.1 = .lt)
    (h' : entries'.Pairwise fun a b => compare a.1 b.1 = .lt)
    (hmem : ∀ e, e ∈ entries ↔ e ∈ entries') : entries = entries' := by
  have distinct : ∀ {l : List (String × β)}, l.Pairwise (fun a b => compare a.1 b.1 = .lt) →
      l.Nodup := by
    intro l hl
    refine hl.imp ?_
    rintro a b hlt rfl
    rw [Std.compare_self] at hlt
    cases hlt
  have perm := (List.perm_ext_iff_of_nodup (distinct h) (distinct h')).mpr hmem
  refine perm.eq_of_pairwise ?_ h h'
  intro a b _ _ hab hba
  have swapped : compare b.1 a.1 = (compare a.1 b.1).swap := Std.OrientedCmp.eq_swap
  rw [swapped, hab] at hba
  cases hba

/-- The first entry is the one with the least key. -/
theorem exists_toList_eq_cons_iff {key : String} {v : β} : (∃ rest, m.toList = (key, v) :: rest) ↔
    m[key]? = some v ∧ ∀ other w, m[other]? = some w → (compare key other).isLE := by
  have ordered := Std.ExtTreeMap.ordered_keys_toList (t := m)
  have mem : ∀ {k : String} {w : β}, (k, w) ∈ m.toList ↔ m[k]? = some w :=
    Std.ExtTreeMap.mem_toList_iff_getElem?_eq_some
  constructor
  · rintro ⟨rest, heq⟩
    rw [heq] at ordered
    refine ⟨mem.mp (heq ▸ List.mem_cons_self), fun other w hw => ?_⟩
    have entry := mem.mpr hw
    rw [heq] at entry
    rcases List.mem_cons.mp entry with hfirst | hrest
    · cases hfirst
      simp
    · exact Ordering.isLE_of_eq_lt ((List.pairwise_cons.mp ordered).1 _ hrest)
  · rintro ⟨hv, least⟩
    have entry := mem.mpr hv
    cases hlist : m.toList with
    | nil =>
      rw [hlist] at entry
      cases entry
    | cons first rest =>
      rw [hlist] at entry ordered
      rcases List.mem_cons.mp entry with hfirst | hrest
      · exact ⟨rest, by rw [hfirst]⟩
      · -- a later entry would have a key below the least
        have later := (List.pairwise_cons.mp ordered).1 _ hrest
        have earlier := least first.1 first.2 (mem.mp (hlist ▸ List.mem_cons_self))
        have swapped : compare key first.1 = (compare first.1 key).swap := Std.OrientedCmp.eq_swap
        rw [swapped, later] at earlier
        cases earlier

/-! ## Insertions in a row -/

section Insertions

variable {α : Type} {key : α → String} {value : α → β} {as : List α} {name : String}

/-- Insertions in a row leave all keys alone but their own. -/
theorem getElem?_foldl_insert_of_not_mem (h : name ∉ as.map key) :
    (as.foldl (fun t a => t.insert (key a) (value a)) m)[name]? = m[name]? := by
  induction as generalizing m with
  | nil => rfl
  | cons a as ih =>
    rw [List.map_cons, List.mem_cons, not_or] at h
    rw [List.foldl_cons, ih h.2]
    simp only [Std.ExtTreeMap.getElem?_insert, Std.LawfulEqCmp.compare_eq_iff_eq]
    rw [if_neg (Ne.symm h.1)]

/-- An entry is an old one, or one of those that were inserted. -/
theorem mem_of_getElem?_foldl_insert {v : β}
    (h : (as.foldl (fun t a => t.insert (key a) (value a)) m)[name]? = some v) :
    m[name]? = some v ∨ ∃ a ∈ as, key a = name ∧ value a = v := by
  induction as generalizing m with
  | nil => exact .inl h
  | cons a as ih =>
    rcases ih h with h | ⟨b, hb, hkey⟩
    · simp only [Std.ExtTreeMap.getElem?_insert, Std.LawfulEqCmp.compare_eq_iff_eq] at h
      by_cases hkey : key a = name
      · rw [if_pos hkey] at h
        exact .inr ⟨a, List.mem_cons_self, hkey, Option.some.inj h⟩
      · rw [if_neg hkey] at h
        exact .inl h
    · exact .inr ⟨b, List.mem_cons_of_mem a hb, hkey⟩

/-- A key that something was inserted under is there in the end, if perhaps with a later value. -/
theorem isSome_getElem?_foldl_insert (h : name ∈ as.map key) :
    (as.foldl (fun t a => t.insert (key a) (value a)) m)[name]?.isSome := by
  induction as generalizing m with
  | nil => exact absurd h List.not_mem_nil
  | cons a as ih =>
    by_cases hlater : name ∈ as.map key
    · exact ih hlater
    · have hkey : name = key a := (List.mem_cons.mp h).resolve_right hlater
      rw [List.foldl_cons, getElem?_foldl_insert_of_not_mem hlater, hkey,
        Std.ExtTreeMap.getElem?_insert_self]
      rfl

/-- If the keys are distinct, what was inserted is there and nothing else. -/
theorem getElem?_foldl_insert_eq_some_iff (h : (as.map key).Nodup) {v : β} :
    (as.foldl (fun t a => t.insert (key a) (value a)) (∅ : TextMap β))[name]? = some v ↔
      ∃ a ∈ as, key a = name ∧ value a = v := by
  have inserted : ∀ {v : β},
      (as.foldl (fun t a => t.insert (key a) (value a)) (∅ : TextMap β))[name]? = some v →
        ∃ a ∈ as, key a = name ∧ value a = v := by
    intro v hv
    rcases mem_of_getElem?_foldl_insert hv with hold | hnew
    · simp at hold
    · exact hnew
  refine ⟨inserted, ?_⟩
  rintro ⟨a, ha, rfl, rfl⟩
  have there : (as.foldl (fun t a => t.insert (key a) (value a)) (∅ : TextMap β))[key a]?.isSome :=
    isSome_getElem?_foldl_insert (List.mem_map.mpr ⟨a, ha, rfl⟩)
  obtain ⟨v, hv⟩ := Option.isSome_iff_exists.mp there
  obtain ⟨b, hb, hkey, rfl⟩ := inserted hv
  rw [hv, List.inj_on_of_nodup_map h hb ha hkey]

end Insertions

/-- Insertions that keep what is there yield the first entry of a key. -/
theorem getElem?_foldl_insertIfNew {entries : List (String × β)} {key : String} :
    (entries.foldl (fun t e => t.insertIfNew e.1 e.2) m)[key]? =
      m[key]?.or (entries.lookup key) := by
  induction entries generalizing m with
  | nil => simp
  | cons e entries ih =>
    rw [List.foldl_cons, ih, Std.ExtTreeMap.getElem?_insertIfNew, List.lookup_cons]
    simp only [Std.LawfulEqCmp.compare_eq_iff_eq, Std.ExtTreeMap.mem_iff_isSome_getElem?]
    by_cases hkey : e.1 = key
    · cases hget : m[e.1]? with
      | none => simp [← hkey, hget]
      | some v => simp [← hkey, hget]
    · have differs : (key == e.1) = false := beq_false_of_ne (Ne.symm hkey)
      simp [hkey, differs]

end CodeAtlas.Text.TextMap
