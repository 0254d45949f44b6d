import CodeAtlas.Json.Relaxed
import CodeAtlas.Proofs.Json.Grammar

/-!
# Trailing commas

A document may be written with a comma behind the last item of a list or the last member of an
object. The scanner that leaves such commas out commutes with the grammar: of every way of writing a
value it leaves the same way without those commas, which is read as the value
(`readRelaxed_faithful`). The scanner for comments, which comes first, finds none.

The scanners look at single characters, and the grammar is a tree. `Scans` joins the two. It says
what they leave of a text whatever follows it, so that it composes along the tree. Where a comma
stands, what follows it decides, so items are taken together with the closing bracket behind them.
After any other comma a value or a key begins, and none begins with a closing bracket (`Opens`).
-/

namespace CodeAtlas.Json

variable {c : Char} {loose strict loose' strict' text : List Char}

/-! ## Both scanners -/

/-- Whatever follows, the text `loose` holds no comment, and it is left as `strict`. -/
structure Scans (loose strict : List Char) : Prop where
  comments : ∀ rest, blankComments .code (loose ++ rest) =
    (blankComments .code rest).map (loose ++ ·)
  commas : ∀ rest, dropTrailingCommas (loose ++ rest) = strict ++ dropTrailingCommas rest

/-- The characters that neither scanner stops at. -/
def Ordinary (c : Char) : Prop := c ≠ '"' ∧ c ≠ ',' ∧ c ≠ '/'

namespace Scans

/-- Scanning composes: since it is settled whatever follows, the parts of a text can be scanned one
after the other. -/
theorem append (h : Scans loose strict) (h' : Scans loose' strict') :
    Scans (loose ++ loose') (strict ++ strict') where
  comments rest := by
    rw [List.append_assoc, h.comments, h'.comments, Option.map_map]
    congr 1
    funext left
    exact (List.append_assoc _ _ _).symm
  commas rest := by rw [List.append_assoc, h.commas, h'.commas, List.append_assoc]

theorem cons (hc : Ordinary c) (h : Scans loose strict) : Scans (c :: loose) (c :: strict) where
  comments rest := by
    rw [List.cons_append, blankComments, if_neg hc.2.2, if_neg hc.1, h.comments, Option.map_map]
    rfl
  commas rest := by
    rw [List.cons_append, dropTrailingCommas, if_neg hc.2.1, if_neg hc.1, h.commas,
      List.cons_append]

theorem ordinary (h : ∀ c ∈ text, Ordinary c) : Scans text text := by
  induction text with
  | nil => exact ⟨fun _ => by simp, fun _ => rfl⟩
  | cons c text ih =>
    rw [List.forall_mem_cons] at h
    exact cons h.1 (ih h.2)

end Scans

/-! ## Strings -/

/-- A hexadecimal digit neither ends a string nor begins an escape. -/
theorem ne_of_digitValue? {n : Nat} (h : digitValue? c = some n) : c ≠ '"' ∧ c ≠ '\\' := by
  constructor
  all_goals
    rintro rfl
    cases h

theorem ne_of_unit? {a b c d : Char} {n : Nat} (h : unit? a b c d = some n) :
    ∀ e ∈ [a, b, c, d], e ≠ '"' ∧ e ≠ '\\' := by
  simp only [unit?, Option.bind_eq_bind, Option.bind_eq_some_iff] at h
  obtain ⟨_, ha, _, hb, _, hc, _, hd, -⟩ := h
  simp only [List.forall_mem_cons]
  exact ⟨ne_of_digitValue? ha, ne_of_digitValue? hb, ne_of_digitValue? hc, ne_of_digitValue? hd,
    List.forall_mem_nil _⟩

theorem dropTrailingCommasInString_append (h : ∀ c ∈ text, c ≠ '"' ∧ c ≠ '\\') (rest : List Char) :
    dropTrailingCommasInString (text ++ rest) = text ++ dropTrailingCommasInString rest := by
  induction text with
  | nil => rfl
  | cons c text ih =>
    obtain ⟨quote, slash⟩ := h c List.mem_cons_self
    rw [List.cons_append, dropTrailingCommasInString.eq_3 _ _ fun _ _ h _ => slash h,
      if_neg quote, ih fun d hd => h d (List.mem_cons_of_mem c hd), List.cons_append]

theorem blankComments_string_append (h : ∀ c ∈ text, c ≠ '"' ∧ c ≠ '\\') (rest : List Char) :
    blankComments .string (text ++ rest) = (blankComments .string rest).map (text ++ ·) := by
  induction text with
  | nil => simp
  | cons c text ih =>
    obtain ⟨quote, slash⟩ := h c List.mem_cons_self
    rw [List.cons_append, blankComments]
    simp only [if_neg quote, if_neg slash]
    rw [ih fun d hd => h d (List.mem_cons_of_mem c hd), Option.map_map]
    rfl

/-- A glyph does not end the string that it stands in. -/
theorem dropTrailingCommasInString_glyph (glyph : Glyph) (rest : List Char) :
    dropTrailingCommasInString (glyph.text ++ rest) =
      glyph.text ++ dropTrailingCommasInString rest := by
  cases glyph with
  | char c plain =>
    have inside : ∀ d ∈ [c], d ≠ '"' ∧ d ≠ '\\' := by simpa using ⟨plain.1, plain.2.1⟩
    exact dropTrailingCommasInString_append inside rest
  | letter e c escapes => exact dropTrailingCommasInString.eq_2 e rest
  | unit a b c d n names =>
    have digits := dropTrailingCommasInString_append (ne_of_unit? names) rest
    simp only [List.cons_append, List.nil_append] at digits
    simp only [Glyph.text, List.cons_append, List.nil_append]
    rw [dropTrailingCommasInString.eq_2, digits]

/-- Nothing in a string begins a comment, not even an escaped slash. -/
theorem blankComments_glyph (glyph : Glyph) (rest : List Char) :
    blankComments .string (glyph.text ++ rest) =
      (blankComments .string rest).map (glyph.text ++ ·) := by
  have escape : ∀ (e : Char) (r : List Char), blankComments .string ('\\' :: e :: r) =
      (blankComments .string r).map fun left => '\\' :: e :: left := by
    intro e r
    rw [blankComments]
    simp only [Char.reduceEq, if_false, if_true]
    rw [blankComments, Option.map_map]
    rfl
  cases glyph with
  | char c plain =>
    have inside : ∀ d ∈ [c], d ≠ '"' ∧ d ≠ '\\' := by simpa using ⟨plain.1, plain.2.1⟩
    exact blankComments_string_append inside rest
  | letter e c escapes => exact escape e rest
  | unit a b c d n names =>
    have digits := blankComments_string_append (ne_of_unit? names) rest
    simp only [List.cons_append, List.nil_append] at digits
    simp only [Glyph.text, List.cons_append, List.nil_append]
    rw [escape, digits, Option.map_map]
    rfl

/-- Both scanners pass over a string as it is, whatever it holds. -/
theorem Scans.quoted (glyphs : List Glyph) :
    Scans (Glyph.quoted glyphs) (Glyph.quoted glyphs) where
  comments rest := by
    have body : blankComments .string (glyphs.flatMap Glyph.text ++ '"' :: rest) =
        (blankComments .code rest).map (glyphs.flatMap Glyph.text ++ '"' :: ·) := by
      induction glyphs with
      | nil => rfl
      | cons glyph glyphs ih =>
        rw [List.flatMap_cons, List.append_assoc, blankComments_glyph, ih, Option.map_map]
        simp [Function.comp_def]
    simp only [Glyph.quoted, List.cons_append, List.append_assoc, List.nil_append]
    rw [blankComments, if_neg (by decide), if_pos rfl, body, Option.map_map]
    rfl
  commas rest := by
    have body : dropTrailingCommasInString (glyphs.flatMap Glyph.text ++ '"' :: rest) =
        glyphs.flatMap Glyph.text ++ '"' :: dropTrailingCommas rest := by
      induction glyphs with
      | nil => rfl
      | cons glyph glyphs ih =>
        rw [List.flatMap_cons, List.append_assoc, dropTrailingCommasInString_glyph, ih,
          List.append_assoc]
    simp only [Glyph.quoted, List.cons_append, List.append_assoc, List.nil_append]
    rw [dropTrailingCommas, if_neg (by decide), if_pos rfl, body]

/-! ## Numbers and blanks -/

theorem ordinary_digits (h : IsDigits text) : ∀ c ∈ text, Ordinary c := by
  intro c hc
  have digit := h.2 c hc
  refine ⟨?_, ?_, ?_⟩
  all_goals
    rintro rfl
    exact absurd digit (by decide)

theorem IsFraction.ordinary (h : IsFraction text) : ∀ c ∈ text, Ordinary c := by
  cases h with
  | none => exact List.forall_mem_nil _
  | digits h => exact List.forall_mem_cons.mpr ⟨by simp [Ordinary], ordinary_digits h⟩

theorem IsExponent.ordinary (h : IsExponent text) : ∀ c ∈ text, Ordinary c := by
  cases h with
  | none => exact List.forall_mem_nil _
  | digits letter signed h =>
    refine List.forall_mem_cons.mpr ⟨?_, List.forall_mem_append.mpr ⟨?_, ordinary_digits h⟩⟩
    · obtain rfl | rfl := letter <;> simp [Ordinary]
    · obtain rfl | rfl | rfl := signed <;> simp [Ordinary]

theorem ordinary_numeral (n : Numeral) : ∀ c ∈ n.text, Ordinary c := by
  have sign : ∀ c ∈ n.sign, Ordinary c := by
    obtain h | h := n.isSign <;> simp [h, Ordinary]
  simp only [Numeral.text, List.forall_mem_append]
  exact ⟨⟨⟨sign, ordinary_digits n.isWhole.1⟩, n.isFraction.ordinary⟩, n.isExponent.ordinary⟩

theorem ordinary_gap (gap : Gap) : ∀ c ∈ gap.text, Ordinary c := by
  intro c hc
  have blank := gap.blank c hc
  simp only [isJsonBlank, Bool.or_eq_true, beq_iff_eq] at blank
  obtain ((rfl | rfl) | rfl) | rfl := blank <;> simp [Ordinary]

theorem Scans.gap (gap : Gap) : Scans gap.text gap.text := ordinary (ordinary_gap gap)

/-! ## Commas -/

theorem closesNext_gap (gap : Gap) (hc : Text.isBlank c = false) (rest : List Char) :
    closesNext (gap.text ++ c :: rest) = decide (c = '}' ∨ c = ']') := by
  have blank : ∀ d ∈ gap.text, Text.isBlank d := fun d hd => isBlank_of_isJsonBlank (gap.blank d hd)
  rw [closesNext, List.dropWhile_append_of_pos blank, List.dropWhile_cons_of_neg (by simp [hc])]
  simp

theorem Scans.comments_comma (h : Scans loose strict) (rest : List Char) :
    blankComments .code (',' :: loose ++ rest) =
      (blankComments .code rest).map (',' :: loose ++ ·) := by
  rw [List.cons_append, blankComments, if_neg (by decide), if_neg (by decide), h.comments,
    Option.map_map]
  rfl

/-- A comma stays if a value or a key follows it. -/
theorem Scans.comma (begins : Begins loose) (h : Scans loose strict) :
    Scans (',' :: loose) (',' :: strict) where
  comments := h.comments_comma
  commas rest := by
    have left := h.commas rest
    obtain ⟨gap, c, r, rfl, opens⟩ := begins
    rw [List.append_assoc, List.cons_append] at left
    rw [List.cons_append, List.append_assoc, List.cons_append, dropTrailingCommas, if_pos rfl,
      closesNext_gap gap opens.not_blank, left]
    simp [opens.not_close]

/-- A comma goes if a closing bracket follows it. -/
theorem Scans.dropped (gap : Gap) (hc : c = ']' ∨ c = '}') (h : Scans (gap.text ++ [c]) strict) :
    Scans (',' :: (gap.text ++ [c])) strict where
  comments := h.comments_comma
  commas rest := by
    have solid : Text.isBlank c = false := by obtain rfl | rfl := hc <;> rfl
    have left := h.commas rest
    simp only [List.append_assoc, List.cons_append, List.nil_append] at left ⊢
    rw [dropTrailingCommas, if_pos rfl, closesNext_gap gap solid, left]
    simp [hc.symm]

/-- What stands behind the last item is left without its comma, since a closing bracket follows. -/
theorem Scans.trail (commas : Bool) (comma : Option Gap) (hc : c = ']' ∨ c = '}') :
    Scans (trail commas comma ++ [c]) (trail false comma ++ [c]) := by
  have bracket : Ordinary c := by obtain rfl | rfl := hc <;> simp [Ordinary]
  have close : Scans [c] [c] := .ordinary (by simpa using bracket)
  cases comma with
  | none => exact close
  | some gap =>
    have kept : Scans (gap.text ++ [c]) (gap.text ++ [c]) := (Scans.gap gap).append close
    cases commas with
    | false => exact kept
    | true => exact kept.dropped gap hc

/-! ## Values -/

theorem Label.scans (label : Label) : Scans label.text label.text :=
  (((Scans.gap label.before).append (.quoted label.key)).append (.gap label.after)).append
    (.ordinary (by simp [Ordinary]))

mutual

/-- The scanners leave of any way of writing a value the same way without the commas in front of
closing brackets, by recursion on it. -/
theorem Layout.scans (commas : Bool) (t : Layout) : Scans (t.text commas) (t.text false) := by
  match t with
  | .null => exact .ordinary (by simp [Ordinary, Layout.text])
  | .bool true => exact .ordinary (by simp [Ordinary, Layout.text])
  | .bool false => exact .ordinary (by simp [Ordinary, Layout.text])
  | .number n => exact .ordinary (ordinary_numeral n)
  | .string glyphs => exact .quoted glyphs
  | .emptyList gap =>
    exact .cons (by simp [Ordinary]) ((Scans.gap gap).append (.ordinary (by simp [Ordinary])))
  | .list items => exact .cons (by simp [Ordinary]) (items.scans commas)
  | .emptyObject gap =>
    exact .cons (by simp [Ordinary]) ((Scans.gap gap).append (.ordinary (by simp [Ordinary])))
  | .object members => exact .cons (by simp [Ordinary]) (members.scans commas)

theorem Spaced.scans (commas : Bool) (s : Spaced) : Scans (s.text commas) (s.text false) := by
  match s with
  | .mk before layout after =>
    exact ((Scans.gap before).append (layout.scans commas)).append (.gap after)

theorem Items.scans (commas : Bool) (items : Items) :
    Scans (items.text commas ++ [']']) (items.text false ++ [']']) := by
  match items with
  | .last item comma =>
    simp only [Items.text, List.append_assoc]
    exact (item.scans commas).append (.trail commas comma (.inl rfl))
  | .next item others =>
    simp only [Items.text, List.append_assoc, List.cons_append]
    exact (item.scans commas).append
      (.comma ((others.begins commas).append _) (others.scans commas))

theorem Members.scans (commas : Bool) (members : Members) :
    Scans (members.text commas ++ ['}']) (members.text false ++ ['}']) := by
  match members with
  | .last label value comma =>
    simp only [Members.text, List.append_assoc]
    exact label.scans.append ((value.scans commas).append (.trail commas comma (.inr rfl)))
  | .next label value others =>
    simp only [Members.text, List.append_assoc, List.cons_append]
    exact label.scans.append ((value.scans commas).append
      (.comma ((others.begins commas).append _) (others.scans commas)))

end

/-! ## Documents -/

/-- A whole document is left without those commas, and is otherwise unchanged. -/
theorem dropTrailingCommas_text (s : Spaced) (commas : Bool) :
    dropTrailingCommas (s.text commas) = s.text false := by
  have scanned := (s.scans commas).commas []
  simpa only [List.append_nil, dropTrailingCommas] using scanned

theorem read_text (s : Spaced) : read (String.ofList (s.text false)) = some s.value :=
  read_eq_some_iff.mpr ⟨s, rfl, rfl⟩

theorem readRelaxed_text (s : Spaced) (commas : Bool) :
    readRelaxed (String.ofList (s.text commas)) = some s.value := by
  have code : blankComments .code (s.text commas) = some (s.text commas) := by
    have scanned := (s.scans commas).comments []
    simpa only [List.append_nil, blankComments, Option.map_some] using scanned
  rw [readRelaxed, String.toList_ofList, code]
  simp only [Option.bind_eq_bind, Option.bind_some, dropTrailingCommas_text, read_text]

theorem dropTrailingCommas_of_read {text : String} {v : Value} (h : read text = some v) :
    dropTrailingCommas text.toList = text.toList := by
  obtain ⟨s, -, rfl⟩ := read_eq_some_iff.mp h
  rw [String.toList_ofList, dropTrailingCommas_text]

/-- **Relaxed documents are read faithfully.** The texts that are read without leniency are the ways
of writing a value without a comma before a closing bracket. Of any way of writing a value, the
scanner leaves the same way without those commas, and no other character is lost or changed. What it
leaves is read as the value, and so is the document itself. A text that is read without leniency is
left as it is. -/
theorem readRelaxed_faithful :
    (∀ (text : String) (v : Value), read text = some v ↔
      ∃ s : Spaced, s.value = v ∧ text = String.ofList (s.text false)) ∧
    (∀ (s : Spaced) (commas : Bool),
      dropTrailingCommas (s.text commas) = s.text false ∧
      read (String.ofList (s.text false)) = some s.value ∧
      readRelaxed (String.ofList (s.text commas)) = some s.value) ∧
    (∀ (text : String) (v : Value), read text = some v →
      dropTrailingCommas text.toList = text.toList) :=
  ⟨fun _ _ => read_eq_some_iff,
    fun s commas => ⟨dropTrailingCommas_text s commas, read_text s, readRelaxed_text s commas⟩,
    fun _ _ => dropTrailingCommas_of_read⟩

/-- A list with a comma behind its item, which holds a comma, a bracket and an escaped quote. -/
def quotedMarks : Spaced :=
  let blank : Gap := ⟨[' '], by simp [isJsonBlank]⟩
  let item : List Glyph :=
    [.char ',' (by decide), .char ']' (by decide), .letter '"' '"' rfl]
  .mk blank (.list (.last (.mk blank (.string item) blank) (some blank))) blank

theorem readRelaxed_faithful_quotedMarks :
    readRelaxed " [ \",]\\\"\" , ] " = some (.list [.ofText ",]\""]) ∧
      read " [ \",]\\\"\"  ] " = some (.list [.ofText ",]\""]) ∧
      dropTrailingCommas " [ \",]\\\"\"  ] ".toList = " [ \",]\\\"\"  ] ".toList := by
  have relaxed := (readRelaxed_faithful.2.1 quotedMarks true).2.2
  have strict : read " [ \",]\\\"\"  ] " = some (.list [.ofText ",]\""]) :=
    (readRelaxed_faithful.2.1 quotedMarks true).2.1
  exact ⟨relaxed, strict, readRelaxed_faithful.2.2 _ _ strict⟩

end CodeAtlas.Json
