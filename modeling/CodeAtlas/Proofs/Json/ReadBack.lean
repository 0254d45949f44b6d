import CodeAtlas.Json.Writer
import CodeAtlas.Proofs.Json.Grammar

/-!
# Reading what was written

The text of a value is a way of writing it (`writesAt`), so it is read back as the value
(`read_write`), and values with equal texts are equal (`write_inj`). This is stated for values
without numbers. A number is kept as its literal, and not every literal is one that the grammar
admits.
-/

namespace CodeAtlas.Json

variable {c : Char} {level : Nat} {v : Value}

/-- A value without numbers, all of whose strings have texts. -/
def Value.Worded (v : Value) : Prop := v.allPlain (fun _ => false)

/-! ## Strings -/

theorem digitValue?_hexDigit {n : Nat} (h : n < 16) : digitValue? (hexDigit n) = some n := by
  have all : ∀ n < 16, digitValue? (hexDigit n) = some n := by decide
  exact all n h

theorem unit?_hexDigit {n : Nat} (h : n < 0x20) :
    unit? '0' '0' (hexDigit (n / 16)) (hexDigit (n % 16)) = some n := by
  have zero : digitValue? '0' = some 0 := by decide
  have high := digitValue?_hexDigit (show n / 16 < 16 by omega)
  have low := digitValue?_hexDigit (show n % 16 < 16 by omega)
  simp only [unit?, zero, high, low, Option.bind_eq_bind, Option.bind_some]
  congr 1
  omega

theorem spelled_unit (h : c.toNat < 0x20) (parts : List StringPart) :
    spelled (.unit c.toNat :: parts) = (spelled parts).map (c :: ·) := by
  have low : ¬ (0xD800 ≤ c.toNat ∧ c.toNat ≤ 0xDBFF) := by omega
  have high : ¬ (0xDC00 ≤ c.toNat ∧ c.toNat ≤ 0xDFFF) := by omega
  conv => lhs; unfold spelled
  rw [if_neg low, if_neg high, Char.ofNat_toNat]

theorem eq_ofNat {n : Nat} (h : c.toNat = n) : c = Char.ofNat n := by
  rw [← h, Char.ofNat_toNat]

/-- A character is escaped by a letter or by its number, or stands for itself. -/
theorem escapeChar_cases (c : Char) :
    (∃ e, escaped? e = some c ∧ escapeChar c = ['\\', e]) ∨
    (c.toNat < 0x20 ∧ escapeChar c =
      ['\\', 'u', '0', '0', hexDigit (c.toNat / 16), hexDigit (c.toNat % 16)]) ∨
    (c ≠ '"' ∧ c ≠ '\\' ∧ ¬ c.toNat < 0x20 ∧ escapeChar c = [c]) := by
  by_cases hquote : c = '"'
  · subst hquote
    exact .inl ⟨'"', rfl, rfl⟩
  by_cases hslash : c = '\\'
  · subst hslash
    exact .inl ⟨'\\', rfl, rfl⟩
  by_cases hline : c = '\n'
  · subst hline
    exact .inl ⟨'n', rfl, rfl⟩
  by_cases hreturn : c = '\r'
  · subst hreturn
    exact .inl ⟨'r', rfl, rfl⟩
  by_cases htab : c = '\t'
  · subst htab
    exact .inl ⟨'t', rfl, rfl⟩
  by_cases hback : c.toNat = 8
  · obtain rfl := eq_ofNat hback
    exact .inl ⟨'b', rfl, by decide⟩
  by_cases hfeed : c.toNat = 12
  · obtain rfl := eq_ofNat hfeed
    exact .inl ⟨'f', rfl, by decide⟩
  rw [escapeChar, if_neg hquote, if_neg hslash, if_neg hline, if_neg hreturn, if_neg htab,
    if_neg hback, if_neg hfeed]
  by_cases hcontrol : c.toNat < 0x20
  · rw [if_pos hcontrol]
    exact .inr (.inl ⟨hcontrol, rfl⟩)
  · rw [if_neg hcontrol]
    exact .inr (.inr ⟨hquote, hslash, hcontrol, rfl⟩)

/-- An escaped character is one glyph, which spells the character. -/
theorem exists_glyph (c : Char) :
    ∃ glyph : Glyph, glyph.text = escapeChar c ∧
      ∀ parts, spelled (glyph.part :: parts) = (spelled parts).map (c :: ·) := by
  obtain ⟨e, he, written⟩ | ⟨hcontrol, written⟩ | ⟨hquote, hslash, hcontrol, written⟩ :=
    escapeChar_cases c
  · exact ⟨.letter e c he, written.symm, fun _ => rfl⟩
  · exact ⟨.unit _ _ _ _ c.toNat (unit?_hexDigit hcontrol), written.symm, spelled_unit hcontrol⟩
  · exact ⟨.char c ⟨hquote, hslash, hcontrol⟩, written.symm, fun _ => rfl⟩

theorem exists_glyphs_escaped (chars : List Char) :
    ∃ glyphs : List Glyph, glyphs.flatMap Glyph.text = chars.flatMap escapeChar ∧
      spelled (glyphs.map Glyph.part) = some chars := by
  induction chars with
  | nil => exact ⟨[], rfl, rfl⟩
  | cons c chars ih =>
    obtain ⟨glyphs, written, spells⟩ := ih
    obtain ⟨glyph, writtenFirst, spellsFirst⟩ := exists_glyph c
    refine ⟨glyph :: glyphs, ?_, ?_⟩
    · rw [List.flatMap_cons, List.flatMap_cons, written, writtenFirst]
    · rw [List.map_cons, spellsFirst, spells]
      rfl

theorem exists_quoted (s : String) :
    ∃ glyphs, Glyph.quoted glyphs = (quoteText s).toList ∧ Glyph.spelling glyphs = some s := by
  obtain ⟨glyphs, written, spells⟩ := exists_glyphs_escaped s.toList
  refine ⟨glyphs, ?_, ?_⟩
  · simp [Glyph.quoted, quoteText, written]
  · rw [Glyph.spelling, spells, Option.map_some, String.ofList_toList]

/-! ## Items and members -/

/-- The text of a value that begins on a line of the given level is a way of writing it. -/
def WritesAt (level : Nat) (v : Value) : Prop :=
  ∃ t : Layout, t.value = v ∧ t.text false = (writeAt level v).toList

/-- The break between two lines. -/
def lineGap (level : Nat) : Gap where
  text := (newLine level).toList
  blank := by
    intro c hc
    simp only [newLine, String.toList_append, String.toList_ofList, List.mem_append,
      List.mem_replicate] at hc
    obtain hc | ⟨-, rfl⟩ := hc
    · obtain rfl : c = '\n' := by simpa using hc
      rfl
    · rfl

def noGap : Gap := ⟨[], nofun⟩

theorem exists_items {items : List Value} (close : Gap) (hv : WritesAt level v)
    (hitems : ∀ w ∈ items, WritesAt level w) :
    ∃ i : Items, i.values = v :: items ∧
      i.text false = (newLine level).toList ++ ((writeAt level v).toList ++
        ((writeItems level items).toList ++ close.text)) := by
  obtain ⟨t, rfl, written⟩ := hv
  induction items generalizing t with
  | nil =>
    exact ⟨.last (.mk (lineGap level) t close) none, rfl, by
      simp [Items.text, Spaced.text, trail, lineGap, writeItems, written]⟩
  | cons w items ih =>
    obtain ⟨u, rfl, writtenNext⟩ := hitems w List.mem_cons_self
    obtain ⟨others, values, text⟩ :=
      ih (fun x hx => hitems x (List.mem_cons_of_mem _ hx)) u writtenNext
    exact ⟨.next (.mk (lineGap level) t noGap) others, by rw [Items.values, values]; rfl, by
      simp [Items.text, Spaced.text, text, lineGap, noGap, writeItems, written]⟩

theorem exists_members {members : List (Option String × Value)} (key : String) (close : Gap)
    (hv : WritesAt level v) (hmembers : ∀ m ∈ members, m.1.isSome ∧ WritesAt level m.2) :
    ∃ ms : Members, ms.values = (some key, v) :: members ∧
      ms.text false = (newLine level).toList ++ ((quoteText key).toList ++ ':' ::
        ([' '] ++ (writeAt level v).toList ++
          ((writeMembers level members).toList ++ close.text))) := by
  obtain ⟨t, rfl, written⟩ := hv
  obtain ⟨glyphs, quoted, spells⟩ := exists_quoted key
  let label : Label := ⟨lineGap level, glyphs, noGap⟩
  let space : Gap := ⟨[' '], by simp [isJsonBlank]⟩
  induction members generalizing t key glyphs with
  | nil =>
    exact ⟨.last label (.mk space t close) none,
      by simp [Members.values, label, spells, Spaced.value], by
      simp [Members.text, Label.text, Spaced.text, trail, label, space, lineGap, noGap, quoted,
        writeMembers, written]⟩
  | cons m members ih =>
    obtain ⟨next, w⟩ := m
    obtain ⟨hnext, u, rfl, writtenNext⟩ := hmembers _ List.mem_cons_self
    obtain ⟨next, rfl⟩ := Option.isSome_iff_exists.mp hnext
    obtain ⟨glyphs', quoted', spells'⟩ := exists_quoted next
    obtain ⟨others, values, text⟩ := ih next
      (fun x hx => hmembers x (List.mem_cons_of_mem _ hx)) u writtenNext glyphs' quoted' spells'
    exact ⟨.next label (.mk space t noGap) others,
      by simp [Members.values, label, spells, Spaced.value, values], by
      simp [Members.text, Label.text, Spaced.text, text, label, space, lineGap, noGap, quoted,
        writeMembers, written]⟩

/-! ## Whole values -/

theorem worded_list_iff {items : List Value} :
    (Value.list items).Worded ↔ ∀ v ∈ items, v.Worded := by
  simp only [Value.Worded, Value.allPlain]
  induction items with
  | nil => simp [Value.allPlainItems]
  | cons w items ih => rw [Value.allPlainItems, Bool.and_eq_true, ih, List.forall_mem_cons]

theorem allPlain_object_iff {test : String → Bool} {members : List (Option String × Value)} :
    (Value.object members).allPlain test ↔ ∀ m ∈ members, m.1.isSome ∧ m.2.allPlain test := by
  rw [Value.allPlain]
  induction members with
  | nil => simp [Value.allPlainMembers]
  | cons m members ih =>
    rw [Value.allPlainMembers, Bool.and_eq_true, Bool.and_eq_true, ih, List.forall_mem_cons]

theorem worded_object_iff {members : List (Option String × Value)} :
    (Value.object members).Worded ↔ ∀ m ∈ members, m.1.isSome ∧ m.2.Worded :=
  allPlain_object_iff

theorem toList_writeAt_list (level : Nat) (v : Value) (items : List Value) :
    (writeAt level (.list (v :: items))).toList =
      '[' :: ((newLine (level + 1)).toList ++ ((writeAt (level + 1) v).toList ++
        ((writeItems (level + 1) items).toList ++ ((newLine level).toList ++ [']'])))) := by
  simp [writeAt]

theorem toList_writeAt_object (level : Nat) (key : String) (v : Value)
    (members : List (Option String × Value)) :
    (writeAt level (.object ((some key, v) :: members))).toList =
      '{' :: ((newLine (level + 1)).toList ++ ((quoteText key).toList ++
        ':' :: ([' '] ++ (writeAt (level + 1) v).toList ++
          ((writeMembers (level + 1) members).toList ++ ((newLine level).toList ++ ['}']))))) := by
  simp [writeAt]

/-- The text of a value is a way of writing it, by recursion on the value. -/
theorem writesAt (v : Value) (hv : v.Worded) (level : Nat) : WritesAt level v := by
  match v, hv with
  | .null, _ => exact ⟨.null, rfl, by simp [writeAt, Layout.text]⟩
  | .bool true, _ => exact ⟨.bool true, rfl, by simp [writeAt, Layout.text]⟩
  | .bool false, _ => exact ⟨.bool false, rfl, by simp [writeAt, Layout.text]⟩
  | .number _, hv => exact absurd hv (by simp [Value.Worded, Value.allPlain])
  | .string (some text), _ =>
    obtain ⟨glyphs, quoted, spells⟩ := exists_quoted text
    exact ⟨.string glyphs, congrArg Value.string spells, quoted⟩
  | .list [], _ => exact ⟨.emptyList noGap, rfl, by simp [writeAt, Layout.text, noGap]⟩
  | .list (w :: items), hv =>
    have words := worded_list_iff.mp hv
    obtain ⟨i, values, text⟩ := exists_items (lineGap level)
      (writesAt w (words w List.mem_cons_self) (level + 1))
      fun u hu => writesAt u (words u (List.mem_cons_of_mem w hu)) (level + 1)
    exact ⟨.list i, congrArg Value.list values, by
      simp [Layout.text, text, toList_writeAt_list, lineGap]⟩
  | .object [], _ => exact ⟨.emptyObject noGap, rfl, by simp [writeAt, Layout.text, noGap]⟩
  | .object ((key?, w) :: members), hv =>
    have words := worded_object_iff.mp hv
    obtain ⟨key, rfl⟩ := Option.isSome_iff_exists.mp (words _ List.mem_cons_self).1
    have others : ∀ m ∈ members, m.1.isSome ∧ WritesAt (level + 1) m.2 := by
      rintro ⟨other, u⟩ hm
      have word := words (other, u) (List.mem_cons_of_mem _ hm)
      have smaller : sizeOf u < sizeOf members := by
        have := List.sizeOf_lt_of_mem hm
        rw [Prod.mk.sizeOf_spec] at this
        omega
      exact ⟨word.1, writesAt u word.2 (level + 1)⟩
    obtain ⟨ms, values, text⟩ := exists_members key (lineGap level)
      (writesAt w (words _ List.mem_cons_self).2 (level + 1)) others
    exact ⟨.object ms, congrArg Value.object values, by
      simp [Layout.text, text, toList_writeAt_object, lineGap]⟩
termination_by v

theorem read_write (h : v.Worded) : read (write v) = some v := by
  obtain ⟨t, value, text⟩ := writesAt v h 0
  refine read_eq_some_iff.mpr ⟨.mk noGap t noGap, value, ?_⟩
  simp [Spaced.text, noGap, text, write]

theorem write_inj {w : Value} (hv : v.Worded) (hw : w.Worded) (h : write v = write w) : v = w := by
  have same := congrArg read h
  rw [read_write hv, read_write hw] at same
  exact Option.some.inj same

end CodeAtlas.Json
