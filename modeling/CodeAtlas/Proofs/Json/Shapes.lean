import CodeAtlas.Proofs.Json.Overlay

/-!
# Lists and tables of texts

A list is read as texts if it is the list of those texts, and an object as a table if it has a text
for each key. Where each key stands once, the table has an entry for each member and no other
(`textMap?_eq_some_iff`), so the order of the members does not matter (`textMap?_congr`).
-/

namespace CodeAtlas.Json.Value

open CodeAtlas.Text

variable {v : Value} {members members' : List (Option String × Value)} {table : TextMap String}

/-- If a step finds what another makes, a row of steps finds what a row of the others makes. -/
theorem mapM_eq_some_iff_eq_map {α β : Type} {f : α → Option β} {g : β → α}
    (h : ∀ a b, f a = some b ↔ a = g b) {as : List α} {bs : List β} :
    as.mapM f = some bs ↔ as = bs.map g := by
  induction as generalizing bs with
  | nil => cases bs <;> simp
  | cons a as ih =>
    have step : (a :: as).mapM f = some bs ↔
        ∃ b, f a = some b ∧ ∃ rest, as.mapM f = some rest ∧ b :: rest = bs := by
      simp [List.mapM_cons, Option.bind_eq_some_iff]
    rw [step]
    constructor
    · rintro ⟨b, hb, rest, hrest, rfl⟩
      rw [(h a b).mp hb, ih.mp hrest, List.map_cons]
    · intro heq
      obtain ⟨b, rest, rfl, rfl, rfl⟩ := List.map_eq_cons_iff.mp heq.symm
      exact ⟨b, (h _ _).mpr rfl, rest, ih.mpr rfl, rfl⟩

theorem text?_eq_some_iff {text : String} : v.text? = some text ↔ v = ofText text := by
  cases v <;> simp [text?, ofText]

theorem texts?_eq_some_iff {texts : List String} : v.texts? = some texts ↔ v = ofTexts texts := by
  cases v with
  | list items =>
    rw [texts?, mapM_eq_some_iff_eq_map fun _ _ => text?_eq_some_iff, ofTexts, list.injEq]
  | _ => exact iff_of_false nofun nofun

/-- The member that an entry of a table is. -/
def memberOf (entry : String × String) : Option String × Value := (some entry.1, ofText entry.2)

/-- An object is read as a table if all of its members have keys and texts; the last text of a key
counts. -/
theorem textMap?_object_eq_some_iff : textMap? (object members) = some table ↔
    ∃ entries : List (String × String), members = entries.map memberOf ∧ lastByKey entries = table := by
  have named : ∀ (m : Option String × Value) (n : String × Value),
      m.1.map (·, m.2) = some n ↔ m = (some n.1, n.2) := by
    rintro ⟨_ | key, v⟩ ⟨key', v'⟩ <;> simp
  have spelled : ∀ (n : String × Value) (e : String × String),
      n.2.text?.map (n.1, ·) = some e ↔ n = (e.1, ofText e.2) := by
    rintro ⟨key, v⟩ ⟨key', text⟩
    simp [text?_eq_some_iff, and_comm]
  have step : textMap? (object members) = some table ↔
      ∃ named, members.mapM (fun m => m.1.map (·, m.2)) = some named ∧
        ∃ entries, named.mapM (fun n => n.2.text?.map (n.1, ·)) = some entries ∧
          lastByKey entries = table := by
    simp [textMap?, members?, Option.bind_eq_some_iff]
  simp only [step, mapM_eq_some_iff_eq_map named, mapM_eq_some_iff_eq_map spelled]
  constructor
  · rintro ⟨_, rfl, entries, rfl, rfl⟩
    exact ⟨entries, by simp [memberOf], rfl⟩
  · rintro ⟨entries, rfl, rfl⟩
    exact ⟨_, by simp [memberOf], entries, rfl, rfl⟩

/-- A table has an entry for each of some members, which are all texts, and no other entry. -/
structure Tabulates (members : List (Option String × Value)) (table : TextMap String) : Prop where
  texts : ∀ member ∈ members, ∃ entry, memberOf entry = member
  entry : ∀ key text : String, table[key]? = some text ↔ memberOf (key, text) ∈ members

theorem Tabulates.unique {table' : TextMap String} (h : Tabulates members table)
    (h' : Tabulates members table') : table = table' := by
  refine Std.ExtTreeMap.ext_getElem? fun key => Option.ext fun text => ?_
  rw [h.entry, h'.entry]

theorem Tabulates.getElem?_eq (h : Tabulates members table) (keyed : Keyed members) (key : String) :
    table[key]? = (members.lookup (some key)).bind text? := by
  refine Option.ext fun text => ?_
  rw [h.entry, memberOf, ← keyed.lookup_eq_some_iff, Option.bind_eq_some_iff]
  simp [text?_eq_some_iff]

theorem Tabulates.exists_text (h : Tabulates members table) (keyed : Keyed members)
    {key : Option String} (hv : members.lookup key = some v) : ∃ text, ofText text = v := by
  obtain ⟨entry, heq⟩ := h.texts _ (keyed.lookup_eq_some_iff.mp hv)
  exact ⟨entry.2, congrArg Prod.snd heq⟩

/-- If the whole is a text, it is the upper text, or else the lower. So a text can be taken from the
layers one by one. -/
theorem bind_text?_over? {lower upper : Option Value}
    (texts : ∀ v, over? lower upper = some v → ∃ text, ofText text = v) :
    (over? lower upper).bind text? = (upper.bind text?).or (lower.bind text?) := by
  cases upper with
  | none => rfl
  | some top =>
    cases h : over? lower (some top) with
    | none => cases lower <;> cases h
    | some v =>
      obtain ⟨text, rfl⟩ := texts v h
      have whole := over?_eq_or_of_flat h rfl
      rw [h] at whole
      cases whole
      rfl

theorem memberOf_injective : Function.Injective memberOf := by
  rintro ⟨key, text⟩ ⟨key', text'⟩ h
  cases h
  rfl

theorem getElem?_lastByKey {entries : List (String × String)} (h : (entries.map Prod.fst).Nodup)
    {key text : String} : (lastByKey entries)[key]? = some text ↔ (key, text) ∈ entries := by
  refine (TextMap.getElem?_foldl_insert_eq_some_iff h).trans ?_
  constructor
  · rintro ⟨entry, hentry, rfl, rfl⟩
    exact hentry
  · exact fun hentry => ⟨_, hentry, rfl, rfl⟩

theorem tabulates_lastByKey {entries : List (String × String)} (h : Keyed (entries.map memberOf)) :
    Tabulates (entries.map memberOf) (lastByKey entries) := by
  have keys : (entries.map Prod.fst).Nodup := by
    refine List.Nodup.of_map some ?_
    rw [Keyed, List.map_map] at h
    rw [List.map_map]
    exact h
  constructor
  · exact fun member hmember => (List.mem_map.mp hmember).imp fun _ he => he.2
  · intro key text
    rw [List.mem_map_of_injective memberOf_injective, getElem?_lastByKey keys]

theorem exists_map_memberOf (h : ∀ member ∈ members, ∃ entry, memberOf entry = member) :
    ∃ entries : List (String × String), entries.map memberOf = members := by
  induction members with
  | nil => exact ⟨[], rfl⟩
  | cons member members ih =>
    obtain ⟨entry, rfl⟩ := h member List.mem_cons_self
    obtain ⟨entries, rfl⟩ := ih fun m hm => h m (List.mem_cons_of_mem _ hm)
    exact ⟨entry :: entries, rfl⟩

/-- An object whose keys stand once is read as the table of its members. -/
theorem textMap?_eq_some_iff (h : Keyed members) :
    textMap? (object members) = some table ↔ Tabulates members table := by
  rw [textMap?_object_eq_some_iff]
  constructor
  · rintro ⟨entries, rfl, rfl⟩
    exact tabulates_lastByKey h
  · intro htable
    obtain ⟨entries, rfl⟩ := exists_map_memberOf htable.texts
    exact ⟨entries, rfl, (tabulates_lastByKey h).unique htable⟩

/-- The order of the members of an object does not matter. -/
theorem textMap?_congr (h : Keyed members) (h' : Keyed members')
    (same : ∀ key, members.lookup key = members'.lookup key) :
    textMap? (object members) = textMap? (object members') := by
  have mem : ∀ m, m ∈ members ↔ m ∈ members' := by
    rintro ⟨key, v⟩
    rw [← h.lookup_eq_some_iff, same, h'.lookup_eq_some_iff]
  refine Option.ext fun table => ?_
  rw [textMap?_eq_some_iff h, textMap?_eq_some_iff h']
  constructor
  · exact fun t => ⟨fun m hm => t.texts m ((mem m).mpr hm), fun key text => by rw [t.entry, mem]⟩
  · exact fun t => ⟨fun m hm => t.texts m ((mem m).mp hm), fun key text => by rw [t.entry, mem]⟩

end CodeAtlas.Json.Value
