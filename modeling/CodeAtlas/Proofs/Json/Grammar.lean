import CodeAtlas.Proofs.Json.Tokens
import CodeAtlas.Text.Blank

/-!
# The grammar of JSON

`Spaced` is a way of writing a value: the blanks between the tokens, the escapes of the strings, and
whether a comma stands behind the last item of a list or the last member of an object. Its text is
`Spaced.text true`. `Spaced.text false` is the same text without those commas, and the texts of this
form are exactly the ones that the reader takes, each as the value that is written
(`read_eq_some_iff`).

The reader counts its steps. It takes fewer than two for each character, and has two. So a text is
read by recursion on the way it is written (`Layout.reads`), and that nothing else is read is shown
by induction on the steps (`written`).
-/

namespace CodeAtlas.Json

/-! ## Ways of writing a value -/

/-- The key of a member up to the colon after it. -/
structure Label where
  before : Gap
  key : List Glyph
  after : Gap

def Label.text (label : Label) : List Char :=
  label.before.text ++ Glyph.quoted label.key ++ label.after.text ++ [':']

/-- What stands between the last item and the closing bracket: nothing, or a comma and the blanks
after it. -/
def trail (commas : Bool) : Option Gap → List Char
  | none => []
  | some gap => if commas then ',' :: gap.text else gap.text

mutual

/-- A value as it is written. -/
inductive Layout where
  | null
  | bool (b : Bool)
  | number (n : Numeral)
  | string (glyphs : List Glyph)
  | emptyList (gap : Gap)
  | list (items : Items)
  | emptyObject (gap : Gap)
  | object (members : Members)

/-- A value and the blanks around it. -/
inductive Spaced where
  | mk (before : Gap) (layout : Layout) (after : Gap)

/-- The items of a list, of which there is at least one. -/
inductive Items where
  | last (item : Spaced) (comma : Option Gap)
  | next (item : Spaced) (others : Items)

/-- The members of an object, of which there is at least one. -/
inductive Members where
  | last (label : Label) (value : Spaced) (comma : Option Gap)
  | next (label : Label) (value : Spaced) (others : Members)

end

mutual

/-- The value that is written. -/
def Layout.value : Layout → Value
  | .null => .null
  | .bool b => .bool b
  | .number n => .number (String.ofList n.text)
  | .string glyphs => .string (Glyph.spelling glyphs)
  | .emptyList _ => .list []
  | .list items => .list items.values
  | .emptyObject _ => .object []
  | .object members => .object members.values

def Spaced.value : Spaced → Value
  | .mk _ layout _ => layout.value

def Items.values : Items → List Value
  | .last item _ => [item.value]
  | .next item others => item.value :: others.values

def Members.values : Members → List (Option String × Value)
  | .last label value _ => [(Glyph.spelling label.key, value.value)]
  | .next label value others => (Glyph.spelling label.key, value.value) :: others.values

end

mutual

/-- The text of a value, with or without the commas that a closing bracket follows. -/
def Layout.text (commas : Bool) : Layout → List Char
  | .null => ['n', 'u', 'l', 'l']
  | .bool true => ['t', 'r', 'u', 'e']
  | .bool false => ['f', 'a', 'l', 's', 'e']
  | .number n => n.text
  | .string glyphs => Glyph.quoted glyphs
  | .emptyList gap => '[' :: (gap.text ++ [']'])
  | .list items => '[' :: (items.text commas ++ [']'])
  | .emptyObject gap => '{' :: (gap.text ++ ['}'])
  | .object members => '{' :: (members.text commas ++ ['}'])

def Spaced.text (commas : Bool) : Spaced → List Char
  | .mk before layout after => before.text ++ layout.text commas ++ after.text

def Items.text (commas : Bool) : Items → List Char
  | .last item comma => item.text commas ++ trail commas comma
  | .next item others => item.text commas ++ ',' :: others.text commas

def Members.text (commas : Bool) : Members → List Char
  | .last label value comma => label.text ++ value.text commas ++ trail commas comma
  | .next label value others => label.text ++ value.text commas ++ ',' :: others.text commas

end

variable {c : Char} {text rest : List Char} {fuel : Nat} {v : Value}

/-! ## Reading values -/

/-- The characters that a value begins with. -/
def Opens (c : Char) : Prop := c ∈ ['n', 't', 'f', '"', '[', '{', '-'] ∨ c.isDigit

theorem Opens.not_blank (h : Opens c) : Text.isBlank c = false := by
  obtain h | h := h
  · simp only [List.mem_cons, List.not_mem_nil, or_false] at h
    obtain rfl | rfl | rfl | rfl | rfl | rfl | rfl := h <;> rfl
  · simp only [Char.isDigit, Bool.and_eq_true, decide_eq_true_eq, ge_iff_le,
      UInt32.le_iff_toNat_le] at h
    have low : 48 ≤ c.toNat := h.1
    have high : c.toNat ≤ 57 := h.2
    simp [Text.isBlank]
    omega

theorem Opens.not_close (h : Opens c) : c ≠ ']' ∧ c ≠ '}' := by
  constructor
  all_goals
    rintro rfl
    exact absurd h (by simp [Opens])

theorem isBlank_of_isJsonBlank (h : isJsonBlank c) : Text.isBlank c := by
  simp only [isJsonBlank, Bool.or_eq_true, beq_iff_eq] at h
  obtain ((rfl | rfl) | rfl) | rfl := h <;> rfl

theorem Opens.not_jsonBlank (h : Opens c) : isJsonBlank c = false := by
  cases hc : isJsonBlank c with
  | false => rfl
  | true => exact absurd (isBlank_of_isJsonBlank hc) (by simp [h.not_blank])

/-- A number begins with a sign or a digit, so it is not mistaken for a word, a string or a bracket.
-/
theorem Numeral.opens (n : Numeral) :
    ∃ d r, n.text = d :: r ∧ Opens d ∧ (d = '-' ∨ d.isDigit) := by
  obtain ⟨d, r, whole, hd⟩ := n.isWhole.1.exists_cons
  obtain sign | sign := n.isSign
  · exact ⟨d, _, by rw [text, sign, whole]; rfl, .inr hd, .inr hd⟩
  · exact ⟨'-', _, by rw [text, sign]; rfl, .inl (by decide), .inl rfl⟩

/-- Every value has a first character, by which the reader tells what kind of value follows. -/
theorem Layout.opens (commas : Bool) (t : Layout) : ∃ c r, t.text commas = c :: r ∧ Opens c := by
  cases t with
  | null => exact ⟨_, _, rfl, by simp [Opens]⟩
  | bool b => cases b <;> exact ⟨_, _, rfl, by simp [Opens]⟩
  | number n =>
    obtain ⟨d, r, heq, opens, -⟩ := n.opens
    exact ⟨d, r, heq, opens⟩
  | string glyphs => exact ⟨_, _, rfl, by simp [Opens]⟩
  | emptyList gap => exact ⟨_, _, rfl, by simp [Opens]⟩
  | list items => exact ⟨_, _, rfl, by simp [Opens]⟩
  | emptyObject gap => exact ⟨_, _, rfl, by simp [Opens]⟩
  | object members => exact ⟨_, _, rfl, by simp [Opens]⟩

/-- After some blanks, a value or a key follows. -/
def Begins (text : List Char) : Prop :=
  ∃ (gap : Gap) (c : Char) (r : List Char), text = gap.text ++ c :: r ∧ Opens c

theorem Begins.append (h : Begins text) (rest : List Char) : Begins (text ++ rest) := by
  obtain ⟨gap, c, r, rfl, opens⟩ := h
  exact ⟨gap, c, r ++ rest, by simp, opens⟩

/-- What stands between two commas begins, after blanks, with a value. -/
theorem Spaced.begins (commas : Bool) (s : Spaced) : Begins (s.text commas) := by
  obtain ⟨before, layout, after⟩ := s
  obtain ⟨c, r, heq, opens⟩ := layout.opens commas
  exact ⟨before, c, r ++ after.text, by simp [text, heq], opens⟩

theorem Items.begins (commas : Bool) (items : Items) : Begins (items.text commas) := by
  cases items with
  | last item comma => exact (item.begins commas).append _
  | next item others => exact (item.begins commas).append _

theorem Label.begins (label : Label) : Begins label.text :=
  ⟨label.before, '"', _, by simp [text, Glyph.quoted]; rfl, .inl (by decide)⟩

theorem Members.begins (commas : Bool) (members : Members) : Begins (members.text commas) := by
  cases members with
  | last label value comma => exact (label.begins.append _).append _
  | next label value others => exact (label.begins.append _).append _

/-- Blanks after a number end it, whatever comes behind them. -/
theorem Stops.gap (h : Stops rest) (gap : Gap) : Stops (gap.text ++ rest) := by
  intro c hc
  cases htext : gap.text with
  | nil => exact h c (by simpa [htext] using hc)
  | cons d r =>
    obtain rfl : d = c := by simpa [htext] using hc
    have blank := gap.blank d (by simp [htext])
    simp only [isJsonBlank, Bool.or_eq_true, beq_iff_eq] at blank
    obtain ((rfl | rfl) | rfl) | rfl := blank <;> decide

theorem stops_nil : Stops [] := nofun

theorem stops_close (h : c = ',' ∨ c = ']' ∨ c = '}') (text : List Char) : Stops (c :: text) := by
  intro d hd
  cases hd
  obtain rfl | rfl | rfl := h <;> decide

theorem exists_trail (comma : Option Gap) : ∃ gap : Gap, trail false comma = gap.text := by
  cases comma with
  | none => exact ⟨⟨[], nofun⟩, rfl⟩
  | some gap => exact ⟨gap, rfl⟩

/-- A value that is neither a string nor in brackets is a word or a number. -/
theorem readValue_cons (blank : isJsonBlank c = false) (bare : c ∉ ['"', '[', '{']) :
    readValue (fuel + 1) (c :: text) =
      if c = 'n' then (readWord "ull" text).map (.null, ·)
      else if c = 't' then (readWord "rue" text).map (.bool true, ·)
      else if c = 'f' then (readWord "alse" text).map (.bool false, ·)
      else (readNumber (c :: text)).map fun (literal, rest) => (.number literal, rest) := by
  rw [readValue, skipBlanks_cons blank]
  split
  case h_1 heq => cases heq
  case h_2 heq => cases heq; simp at bare
  case h_3 heq => cases heq; simp at bare
  case h_4 heq => cases heq; simp at bare
  case h_5 heq => cases heq; rfl

/-- A number is read as its literal if what follows can not belong to it. -/
theorem readValue_number (n : Numeral) (h : Stops rest) (fuel : Nat) :
    readValue (fuel + 1) (n.text ++ rest) = some (.number (String.ofList n.text), rest) := by
  have read := readNumber_append n h
  obtain ⟨d, r, heq, opens, hd⟩ := n.opens
  have other : ∀ c : Char, c.isDigit = false → c ≠ '-' → d ≠ c := by
    rintro c hc hminus rfl
    simp [hc, hminus] at hd
  have bare : d ∉ ['"', '[', '{'] := by
    simp [other '"' (by decide) (by decide), other '[' (by decide) (by decide),
      other '{' (by decide) (by decide)]
  rw [heq, List.cons_append] at read ⊢
  rw [readValue_cons opens.not_jsonBlank bare, if_neg (other 'n' (by decide) (by decide)),
    if_neg (other 't' (by decide) (by decide)), if_neg (other 'f' (by decide) (by decide)), read]
  rfl

theorem readValue_gap (gap : Gap) (text : List Char) (fuel : Nat) :
    readValue fuel (gap.text ++ text) = readValue fuel text := by
  cases fuel with
  | zero => rfl
  | succ fuel => rw [readValue, readValue, skipBlanks_gap]

theorem readItems_last {left : List Char} (h : readValue fuel text = some (v, left))
    (hleft : skipBlanks left = ']' :: rest) : readItems (fuel + 1) text = some ([v], rest) := by
  rw [readItems, h]
  simp only [Option.bind_eq_bind, Option.bind_some, hleft]
  rfl

/-- Behind an item a comma leads to the next one; a closing bracket right after it would be no item.
-/
theorem readItems_next {left : List Char} (h : readValue fuel text = some (v, left))
    (hleft : skipBlanks left = ',' :: rest) :
    readItems (fuel + 1) text = (readItems fuel rest).map fun p => (v :: p.1, p.2) := by
  rw [readItems, h]
  simp only [Option.bind_eq_bind, Option.bind_some, hleft]
  cases readItems fuel rest <;> rfl

/-- The key of a member and its colon are read before the value, with the blanks that stand around
them. -/
theorem readMembers_label (label : Label) (text : List Char) (fuel : Nat) :
    readMembers (fuel + 1) (label.text ++ text) = (readValue fuel text).bind fun p =>
      match skipBlanks p.2 with
      | ',' :: r => (readMembers fuel r).bind fun q =>
        some ((Glyph.spelling label.key, p.1) :: q.1, q.2)
      | '}' :: rest => some ([(Glyph.spelling label.key, p.1)], rest)
      | _ => none := by
  rw [readMembers]
  simp only [Label.text, Glyph.quoted, List.append_assoc, List.cons_append, List.nil_append,
    skipBlanks_gap, skipBlanks_cons (c := '"') rfl, readString_glyphs,
    skipBlanks_cons (c := ':') rfl, Option.bind_eq_bind, Option.bind_some]
  rfl

theorem readMembers_last (label : Label) {left : List Char}
    (h : readValue fuel text = some (v, left)) (hleft : skipBlanks left = '}' :: rest) :
    readMembers (fuel + 1) (label.text ++ text) =
      some ([(Glyph.spelling label.key, v)], rest) := by
  rw [readMembers_label, h]
  simp only [Option.bind_some, hleft]

theorem readMembers_next (label : Label) {left : List Char}
    (h : readValue fuel text = some (v, left)) (hleft : skipBlanks left = ',' :: rest) :
    readMembers (fuel + 1) (label.text ++ text) =
      (readMembers fuel rest).map fun p => ((Glyph.spelling label.key, v) :: p.1, p.2) := by
  rw [readMembers_label, h]
  simp only [Option.bind_some, hleft]
  cases readMembers fuel rest <;> rfl

theorem readValue_list {items : List Value} (begins : Begins text)
    (h : readItems fuel text = some (items, rest)) :
    readValue (fuel + 1) ('[' :: text) = some (.list items, rest) := by
  obtain ⟨gap, c, r, rfl, opens⟩ := begins
  rw [readValue, skipBlanks_cons rfl]
  simp only [skipBlanks_gap, skipBlanks_cons opens.not_jsonBlank, h]
  split
  case h_1 heq => exact absurd (List.cons.inj heq).1 opens.not_close.1
  case h_2 => rfl

theorem readValue_object {members : List (Option String × Value)} (begins : Begins text)
    (h : readMembers fuel text = some (members, rest)) :
    readValue (fuel + 1) ('{' :: text) = some (.object members, rest) := by
  obtain ⟨gap, c, r, rfl, opens⟩ := begins
  rw [readValue, skipBlanks_cons rfl]
  simp only [skipBlanks_gap, skipBlanks_cons opens.not_jsonBlank, h]
  split
  case h_1 heq => exact absurd (List.cons.inj heq).1 opens.not_close.2
  case h_2 => rfl

mutual

/-- A value is read from its text, whatever follows it, if that does not go on with the value. Two
steps for each character are enough, since blanks cost none and every bracket pays for the step into
it. -/
theorem Layout.reads (t : Layout) (fuel : Nat) (rest : List Char) (hrest : Stops rest)
    (hfuel : 2 * (t.text false).length ≤ fuel) :
    readValue fuel (t.text false ++ rest) = some (t.value, rest) := by
  obtain ⟨fuel, rfl⟩ : ∃ n, fuel = n + 1 := by
    obtain ⟨c, r, heq, -⟩ := t.opens false
    rw [heq, List.length_cons] at hfuel
    exact Nat.exists_eq_add_one_of_ne_zero (by omega)
  match t with
  | .null => rfl
  | .bool true => rfl
  | .bool false => rfl
  | .number n => exact readValue_number n hrest fuel
  | .string glyphs =>
    simp only [Layout.text, Glyph.quoted, List.cons_append, List.append_assoc, List.nil_append]
    rw [readValue, skipBlanks_cons rfl]
    simp only [readString_glyphs]
    rfl
  | .emptyList gap =>
    simp only [Layout.text, List.cons_append, List.append_assoc, List.nil_append]
    rw [readValue, skipBlanks_cons rfl]
    simp only [skipBlanks_gap, skipBlanks_cons (c := ']') rfl]
    rfl
  | .list items =>
    rw [Layout.text, List.length_cons, List.length_append] at hfuel
    have read := items.reads fuel rest (by omega)
    simp only [Layout.text, List.append_assoc, List.cons_append, List.nil_append]
    exact readValue_list ((items.begins false).append _) read
  | .emptyObject gap =>
    simp only [Layout.text, List.cons_append, List.append_assoc, List.nil_append]
    rw [readValue, skipBlanks_cons rfl]
    simp only [skipBlanks_gap, skipBlanks_cons (c := '}') rfl]
    rfl
  | .object members =>
    rw [Layout.text, List.length_cons, List.length_append] at hfuel
    have read := members.reads fuel rest (by omega)
    simp only [Layout.text, List.append_assoc, List.cons_append, List.nil_append]
    exact readValue_object ((members.begins false).append _) read

theorem Spaced.reads (s : Spaced) (fuel : Nat) (rest : List Char) (hrest : Stops rest)
    (hfuel : 2 * (s.text false).length ≤ fuel) :
    ∃ left, readValue fuel (s.text false ++ rest) = some (s.value, left) ∧
      skipBlanks left = skipBlanks rest := by
  match s with
  | .mk before layout after =>
    simp only [Spaced.text, List.length_append] at hfuel
    refine ⟨after.text ++ rest, ?_, skipBlanks_gap after rest⟩
    rw [Spaced.text, List.append_assoc, List.append_assoc, readValue_gap]
    exact layout.reads fuel _ (hrest.gap after) (by omega)

/-- Items are read up to their closing bracket, by recursion along with the values in them. -/
theorem Items.reads (items : Items) (fuel : Nat) (rest : List Char)
    (hfuel : 2 * (items.text false).length < fuel) :
    readItems fuel (items.text false ++ ']' :: rest) = some (items.values, rest) := by
  obtain ⟨fuel, rfl⟩ : ∃ n, fuel = n + 1 := Nat.exists_eq_add_one_of_ne_zero (by omega)
  match items with
  | .last item comma =>
    obtain ⟨gap, heq⟩ := exists_trail comma
    rw [Items.text, heq, List.length_append] at hfuel
    obtain ⟨left, read, hleft⟩ := item.reads fuel (gap.text ++ ']' :: rest)
      ((stops_close (by simp) rest).gap gap) (by omega)
    rw [skipBlanks_gap, skipBlanks_cons rfl] at hleft
    rw [Items.text, heq, List.append_assoc]
    exact readItems_last read hleft
  | .next item others =>
    rw [Items.text, List.length_append, List.length_cons] at hfuel
    obtain ⟨left, read, hleft⟩ := item.reads fuel (',' :: (others.text false ++ ']' :: rest))
      (stops_close (by simp) _) (by omega)
    rw [skipBlanks_cons rfl] at hleft
    rw [Items.text, List.append_assoc, List.cons_append, readItems_next read hleft,
      others.reads fuel rest (by omega)]
    rfl

theorem Members.reads (members : Members) (fuel : Nat) (rest : List Char)
    (hfuel : 2 * (members.text false).length < fuel) :
    readMembers fuel (members.text false ++ '}' :: rest) = some (members.values, rest) := by
  obtain ⟨fuel, rfl⟩ : ∃ n, fuel = n + 1 := Nat.exists_eq_add_one_of_ne_zero (by omega)
  match members with
  | .last label value comma =>
    obtain ⟨gap, heq⟩ := exists_trail comma
    rw [Members.text, heq, List.length_append, List.length_append] at hfuel
    obtain ⟨left, read, hleft⟩ := value.reads fuel (gap.text ++ '}' :: rest)
      ((stops_close (by simp) rest).gap gap) (by omega)
    rw [skipBlanks_gap, skipBlanks_cons rfl] at hleft
    rw [Members.text, heq, List.append_assoc, List.append_assoc]
    exact readMembers_last label read hleft
  | .next label value others =>
    rw [Members.text, List.length_append, List.length_append, List.length_cons] at hfuel
    obtain ⟨left, read, hleft⟩ := value.reads fuel (',' :: (others.text false ++ '}' :: rest))
      (stops_close (by simp) _) (by omega)
    rw [skipBlanks_cons rfl] at hleft
    rw [Members.text, List.append_assoc, List.append_assoc, List.cons_append,
      readMembers_next label read hleft, others.reads fuel rest (by omega)]
    rfl

end

/-! ## What is read was written -/

/-- Whatever is read as a value within so many steps is the text of one. -/
def ValuesWritten (fuel : Nat) : Prop :=
  ∀ ⦃text v rest⦄, readValue fuel text = some (v, rest) →
    ∃ (gap : Gap) (t : Layout), t.value = v ∧ text = gap.text ++ t.text false ++ rest

def ItemsWritten (fuel : Nat) : Prop :=
  ∀ ⦃text vs rest⦄, readItems fuel text = some (vs, rest) →
    ∃ items : Items, items.values = vs ∧ text = items.text false ++ ']' :: rest

def MembersWritten (fuel : Nat) : Prop :=
  ∀ ⦃text ms rest⦄, readMembers fuel text = some (ms, rest) →
    ∃ members : Members, members.values = ms ∧ text = members.text false ++ '}' :: rest

theorem eq_append_of_readWord {word : String} {value : Value}
    (h : (readWord word text).map (value, ·) = some (v, rest)) :
    value = v ∧ text = word.toList ++ rest := by
  obtain ⟨rest', read, h⟩ := Option.map_eq_some_iff.mp h
  obtain ⟨rfl, rfl⟩ : value = v ∧ rest' = rest := by simpa using h
  exact ⟨rfl, Text.eq_append_of_dropPrefixChars? read⟩

/-- One more step of the reader reads no value but a word, a string, a number, or brackets around
items or members that were read in fewer steps. -/
theorem valuesWritten_succ (hitems : ItemsWritten fuel) (hmembers : MembersWritten fuel) :
    ValuesWritten (fuel + 1) := by
  intro text v rest h
  obtain ⟨gap, heq⟩ := exists_gap text
  rw [readValue] at h
  suffices written : ∃ t : Layout, t.value = v ∧ skipBlanks text = t.text false ++ rest by
    obtain ⟨t, value, same⟩ := written
    exact ⟨gap, t, value, by rw [List.append_assoc, ← same, ← heq]⟩
  split at h
  case h_1 => cases h
  case h_2 r first =>
    obtain ⟨s, read, rfl⟩ := exists_read (f := Value.string) h
    obtain ⟨glyphs, rfl, same⟩ := exists_glyphs_of_readString read
    exact ⟨.string glyphs, rfl, by rw [first, same]; rfl⟩
  case h_3 r first =>
    obtain ⟨inner, hinner⟩ := exists_gap r
    split at h
    case h_1 rest' close =>
      obtain ⟨rfl, rfl⟩ : Value.list [] = v ∧ rest' = rest := by simpa using h
      exact ⟨.emptyList inner, rfl, by rw [first, hinner, close]; simp [Layout.text]⟩
    case h_2 =>
      obtain ⟨vs, read, rfl⟩ := exists_read (f := Value.list) h
      obtain ⟨items, rfl, same⟩ := hitems read
      exact ⟨.list items, rfl, by rw [first, same]; simp [Layout.text]⟩
  case h_4 r first =>
    obtain ⟨inner, hinner⟩ := exists_gap r
    split at h
    case h_1 rest' close =>
      obtain ⟨rfl, rfl⟩ : Value.object [] = v ∧ rest' = rest := by simpa using h
      exact ⟨.emptyObject inner, rfl, by rw [first, hinner, close]; simp [Layout.text]⟩
    case h_2 =>
      obtain ⟨ms, read, rfl⟩ := exists_read (f := Value.object) h
      obtain ⟨members, rfl, same⟩ := hmembers read
      exact ⟨.object members, rfl, by rw [first, same]; simp [Layout.text]⟩
  case h_5 c r _ _ _ first =>
    split at h
    case isTrue letter =>
      obtain ⟨rfl, rfl⟩ := eq_append_of_readWord h
      exact ⟨.null, rfl, by rw [first, letter]; rfl⟩
    split at h
    case isTrue letter =>
      obtain ⟨rfl, rfl⟩ := eq_append_of_readWord h
      exact ⟨.bool true, rfl, by rw [first, letter]; rfl⟩
    split at h
    case isTrue letter =>
      obtain ⟨rfl, rfl⟩ := eq_append_of_readWord h
      exact ⟨.bool false, rfl, by rw [first, letter]; rfl⟩
    · obtain ⟨⟨literal, rest'⟩, read, h⟩ := Option.map_eq_some_iff.mp h
      obtain ⟨rfl, rfl⟩ : Value.number literal = v ∧ rest' = rest := by simpa using h
      obtain ⟨n, rfl, same⟩ := exists_numeral read
      exact ⟨.number n, rfl, by rw [first, same]; rfl⟩

/-- A value that is read, with the blanks that follow it. -/
theorem ValuesWritten.spaced (h : ValuesWritten fuel) {left : List Char}
    (read : readValue fuel text = some (v, left)) :
    ∃ s : Spaced, s.value = v ∧ text = s.text false ++ skipBlanks left := by
  obtain ⟨before, t, rfl, rfl⟩ := h read
  obtain ⟨after, heq⟩ := exists_gap left
  exact ⟨.mk before t after, rfl, by
    rw [Spaced.text, List.append_assoc, List.append_assoc, List.append_assoc, ← heq]⟩

/-- Items that are read were written: each is a value that was read in fewer steps, with a comma or
the closing bracket behind it. -/
theorem itemsWritten_succ (hvalues : ValuesWritten fuel) (hitems : ItemsWritten fuel) :
    ItemsWritten (fuel + 1) := by
  intro text vs rest h
  rw [readItems] at h
  simp only [Option.bind_eq_bind, Option.bind_eq_some_iff] at h
  obtain ⟨⟨v, left⟩, read, h⟩ := h
  obtain ⟨item, rfl, rfl⟩ := hvalues.spaced read
  split at h
  case h_1 r comma =>
    obtain ⟨others, read, rfl⟩ := exists_read (f := (item.value :: ·)) h
    obtain ⟨others, rfl, same⟩ := hitems read
    exact ⟨.next item others, rfl, by simp [Items.text, comma, same]⟩
  case h_2 rest' close =>
    obtain ⟨rfl, rfl⟩ : [item.value] = vs ∧ rest' = rest := by simpa using h
    exact ⟨.last item none, rfl, by simp [Items.text, trail, close]⟩
  case h_3 => cases h

/-- Members that are read were written, as `itemsWritten_succ` says of items, with a key and a colon
in front of each value. -/
theorem membersWritten_succ (hvalues : ValuesWritten fuel) (hmembers : MembersWritten fuel) :
    MembersWritten (fuel + 1) := by
  intro text ms rest h
  obtain ⟨before, hbefore⟩ := exists_gap text
  rw [readMembers] at h
  split at h
  case h_2 => cases h
  case h_1 r quote =>
    simp only [Option.bind_eq_bind, Option.bind_eq_some_iff] at h
    obtain ⟨⟨key, afterKey⟩, readKey, h⟩ := h
    obtain ⟨glyphs, rfl, hkey⟩ := exists_glyphs_of_readString readKey
    obtain ⟨after, hafter⟩ := exists_gap afterKey
    split at h
    case h_2 => cases h
    case h_1 r' colon =>
      have labelled : text = (Label.mk before glyphs after).text ++ r' := by
        rw [hbefore, quote, hkey, hafter, colon]
        simp [Label.text]
      simp only [Option.bind_eq_some_iff] at h
      obtain ⟨⟨v, left⟩, read, h⟩ := h
      obtain ⟨value, rfl, same⟩ := hvalues.spaced read
      split at h
      case h_1 r'' comma =>
        obtain ⟨others, read, rfl⟩ :=
          exists_read (f := ((Glyph.spelling glyphs, value.value) :: ·)) h
        obtain ⟨others, rfl, hothers⟩ := hmembers read
        exact ⟨.next ⟨before, glyphs, after⟩ value others, rfl, by
          rw [labelled, same, comma, hothers]
          simp [Members.text]⟩
      case h_2 rest' close =>
        obtain ⟨rfl, rfl⟩ : [(Glyph.spelling glyphs, value.value)] = ms ∧ rest' = rest := by
          simpa using h
        exact ⟨.last ⟨before, glyphs, after⟩ value none, rfl, by
          rw [labelled, same, close]
          simp [Members.text, trail]⟩
      case h_3 => cases h

/-- Nothing is read that was not written, by induction on the steps for values, items and members at
once. -/
theorem written (fuel : Nat) : ValuesWritten fuel ∧ ItemsWritten fuel ∧ MembersWritten fuel := by
  induction fuel with
  | zero => exact ⟨nofun, nofun, nofun⟩
  | succ fuel ih =>
    obtain ⟨hvalues, hitems, hmembers⟩ := ih
    exact ⟨valuesWritten_succ hitems hmembers, itemsWritten_succ hvalues hitems,
      membersWritten_succ hvalues hmembers⟩

/-- **The reader takes exactly the texts of the grammar**, each as the value that is written:
nothing else is read, and no text of the grammar needs more steps than the reader has. -/
theorem read_eq_some_iff {text : String} :
    read text = some v ↔ ∃ s : Spaced, s.value = v ∧ text = String.ofList (s.text false) := by
  constructor
  · intro h
    rw [read] at h
    split at h
    case h_2 => cases h
    case h_1 v' left readable =>
      obtain ⟨s, rfl, same⟩ := (written _).1.spaced readable
      split at h
      case isFalse => cases h
      case isTrue blank =>
        refine ⟨s, Option.some.inj h, ?_⟩
        rw [blank, List.append_nil] at same
        rw [← same, String.ofList_toList]
  · rintro ⟨s, rfl, rfl⟩
    have bound : 2 * (s.text false).length ≤ 2 * (s.text false).length + 2 := Nat.le_add_right _ _
    obtain ⟨left, readable, hleft⟩ := s.reads _ [] stops_nil bound
    rw [List.append_nil] at readable
    rw [read, String.toList_ofList, readable]
    exact if_pos hleft

end CodeAtlas.Json
