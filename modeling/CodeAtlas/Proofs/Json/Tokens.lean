import CodeAtlas.Json.Reader
import Mathlib.Data.List.TakeWhile

/-!
# The tokens of JSON

The ways to write what stands between values (`Gap`), a string (a list of `Glyph`) and a number
(`Numeral`), and that the reader takes exactly these. For each there are two lemmas: what is written
is read as what it stands for, whatever follows it, and what is read was written.

A string ends at its quote. A number has no mark at its end, so there the next character decides
(`Stops`).
-/

namespace CodeAtlas.Json

/-- Blanks between two tokens. -/
structure Gap where
  text : List Char
  blank : ∀ c ∈ text, isJsonBlank c

/-- What stands in a string for one part of it: a character, an escape of one letter, or an escape
of four digits. -/
inductive Glyph where
  | char (c : Char) (plain : c ≠ '"' ∧ c ≠ '\\' ∧ ¬ c.toNat < 0x20)
  | letter (e c : Char) (escapes : escaped? e = some c)
  | unit (a b c d : Char) (n : Nat) (names : unit? a b c d = some n)

namespace Glyph

def text : Glyph → List Char
  | char c _ => [c]
  | letter e _ _ => ['\\', e]
  | unit a b c d _ _ => ['\\', 'u', a, b, c, d]

def part : Glyph → StringPart
  | char c _ => .char c
  | letter _ c _ => .char c
  | unit _ _ _ _ n _ => .unit n

/-- A string literal. -/
def quoted (glyphs : List Glyph) : List Char := '"' :: (glyphs.flatMap text ++ ['"'])

/-- The text that a string literal stands for. -/
def spelling (glyphs : List Glyph) : Option String := (spelled (glyphs.map part)).map String.ofList

end Glyph

def IsDigits (text : List Char) : Prop := text ≠ [] ∧ ∀ c ∈ text, c.isDigit

/-- Digits that begin with a zero only if they are one. -/
def IsWhole (text : List Char) : Prop := IsDigits text ∧ (text.head? = some '0' → text = ['0'])

inductive IsFraction : List Char → Prop
  | none : IsFraction []
  | digits {text : List Char} (h : IsDigits text) : IsFraction ('.' :: text)

inductive IsExponent : List Char → Prop
  | none : IsExponent []
  | digits {e : Char} {sign text : List Char} (letter : e = 'e' ∨ e = 'E')
      (signed : sign = [] ∨ sign = ['+'] ∨ sign = ['-']) (h : IsDigits text) :
      IsExponent (e :: (sign ++ text))

/-- The literal of a number. -/
structure Numeral where
  sign : List Char
  whole : List Char
  fraction : List Char
  exponent : List Char
  isSign : sign = [] ∨ sign = ['-']
  isWhole : IsWhole whole
  isFraction : IsFraction fraction
  isExponent : IsExponent exponent

def Numeral.text (n : Numeral) : List Char := n.sign ++ n.whole ++ n.fraction ++ n.exponent

variable {c : Char} {text rest : List Char}

/-! ## Reading blanks -/

theorem skipBlanks_gap (gap : Gap) (rest : List Char) :
    skipBlanks (gap.text ++ rest) = skipBlanks rest :=
  List.dropWhile_append_of_pos gap.blank

theorem skipBlanks_cons (h : isJsonBlank c = false) (text : List Char) :
    skipBlanks (c :: text) = c :: text := by
  rw [skipBlanks, List.dropWhile_cons_of_neg (by simp [h])]

theorem exists_gap (text : List Char) : ∃ gap : Gap, text = gap.text ++ skipBlanks text :=
  ⟨⟨text.takeWhile isJsonBlank, fun _ => List.mem_takeWhile_imp⟩,
    List.takeWhile_append_dropWhile.symm⟩

theorem exists_read {α β : Type} {first : Option (α × List Char)} {f : α → β} {found : β}
    (h : (first.bind fun p => some (f p.1, p.2)) = some (found, rest)) :
    ∃ a, first = some (a, rest) ∧ f a = found := by
  obtain ⟨⟨a, rest'⟩, read, h⟩ := Option.bind_eq_some_iff.mp h
  obtain ⟨rfl, rfl⟩ : f a = found ∧ rest' = rest := by simpa using h
  exact ⟨a, read, rfl⟩

/-! ## Reading strings -/

/-- What stands for one part of a string is read as this part. The quote is none, so the string goes
on. -/
theorem stringParts_glyph (glyph : Glyph) (rest : List Char) :
    stringParts (glyph.text ++ rest) =
      (stringParts rest).map fun p => (glyph.part :: p.1, p.2) := by
  cases glyph with
  | char c plain =>
    obtain ⟨quote, slash, control⟩ := plain
    rw [Glyph.text, List.singleton_append,
      stringParts.eq_4 _ _ (fun _ _ _ _ _ h _ => slash h) fun _ _ h _ => slash h,
      if_neg quote, if_neg (by simp [control, slash])]
    cases stringParts rest <;> rfl
  | letter e c escapes =>
    have letter : e ≠ 'u' := by
      rintro rfl
      exact absurd escapes nofun
    simp only [Glyph.text, List.cons_append, List.nil_append]
    rw [stringParts.eq_3 _ _ fun _ _ _ _ _ h _ => letter h, escapes]
    cases stringParts rest <;> rfl
  | unit a b c d n names =>
    simp only [Glyph.text, List.cons_append, List.nil_append]
    rw [stringParts, names]
    cases stringParts rest <;> rfl

theorem stringParts_glyphs (glyphs : List Glyph) (rest : List Char) :
    stringParts (glyphs.flatMap Glyph.text ++ '"' :: rest) =
      some (glyphs.map Glyph.part, rest) := by
  induction glyphs with
  | nil => rfl
  | cons glyph glyphs ih =>
    rw [List.flatMap_cons, List.append_assoc, stringParts_glyph, ih]
    rfl

/-- Whatever is read as the parts of a string was written for them, up to the quote that ends it. -/
theorem exists_glyphs {parts : List StringPart} (h : stringParts text = some (parts, rest)) :
    ∃ glyphs : List Glyph, glyphs.map Glyph.part = parts ∧
      text = glyphs.flatMap Glyph.text ++ '"' :: rest := by
  fun_induction stringParts text generalizing parts with
  | case1 => cases h
  | case2 a b c d r ih =>
    obtain ⟨n, names, h⟩ := Option.bind_eq_some_iff.mp h
    obtain ⟨others, read, rfl⟩ := exists_read (f := (StringPart.unit n :: ·)) h
    obtain ⟨glyphs, rfl, rfl⟩ := ih read
    exact ⟨.unit a b c d n names :: glyphs, rfl, rfl⟩
  | case3 e r _ ih =>
    obtain ⟨c, escapes, h⟩ := Option.bind_eq_some_iff.mp h
    obtain ⟨others, read, rfl⟩ := exists_read (f := (StringPart.char c :: ·)) h
    obtain ⟨glyphs, rfl, rfl⟩ := ih read
    exact ⟨.letter e c escapes :: glyphs, rfl, rfl⟩
  | case4 r =>
    obtain ⟨rfl, rfl⟩ : [] = parts ∧ r = rest := by simpa using h
    exact ⟨[], rfl, rfl⟩
  | case5 => cases h
  | case6 c r _ _ quote plain ih =>
    obtain ⟨others, read, rfl⟩ := exists_read (f := (StringPart.char c :: ·)) h
    obtain ⟨glyphs, rfl, rfl⟩ := ih read
    have plain : ¬ c.toNat < 0x20 ∧ c ≠ '\\' := by simpa using plain
    exact ⟨.char c ⟨quote, plain.2, plain.1⟩ :: glyphs, rfl, rfl⟩

theorem readString_glyphs (glyphs : List Glyph) (rest : List Char) :
    readString (glyphs.flatMap Glyph.text ++ '"' :: rest) =
      some (Glyph.spelling glyphs, rest) := by
  rw [readString, stringParts_glyphs]
  rfl

theorem exists_glyphs_of_readString {s : Option String} (h : readString text = some (s, rest)) :
    ∃ glyphs, Glyph.spelling glyphs = s ∧ '"' :: text = Glyph.quoted glyphs ++ rest := by
  obtain ⟨parts, read, rfl⟩ := exists_read (f := fun ps => (spelled ps).map String.ofList) h
  obtain ⟨glyphs, rfl, rfl⟩ := exists_glyphs read
  exact ⟨glyphs, rfl, by simp [Glyph.quoted]⟩

/-! ## Reading numbers -/

/-- The text does not go on with a digit. -/
def EndsDigits (rest : List Char) : Prop := ∀ c ∈ rest.head?, c.isDigit = false

/-- The text does not go on with what could be part of a number. -/
def Stops (rest : List Char) : Prop :=
  ∀ c ∈ rest.head?, c.isDigit = false ∧ c ≠ '.' ∧ c ≠ 'e' ∧ c ≠ 'E'

theorem Stops.endsDigits (h : Stops rest) : EndsDigits rest := fun c hc => (h c hc).1

theorem IsDigits.exists_cons (h : IsDigits text) : ∃ d r, text = d :: r ∧ d.isDigit := by
  obtain ⟨d, r, rfl⟩ := List.exists_cons_of_ne_nil h.1
  exact ⟨d, r, rfl, h.2 d List.mem_cons_self⟩

theorem takeWhile_eq_nil (h : EndsDigits rest) : rest.takeWhile Char.isDigit = [] := by
  cases rest with
  | nil => rfl
  | cons c r => rw [List.takeWhile_cons_of_neg (by simp [h c rfl])]

/-- Digits are read as far as they go, if none follows them. -/
theorem readDigits_append (hdigits : IsDigits text) (h : EndsDigits rest) :
    readDigits (text ++ rest) = some (text, rest) := by
  have taken : (text ++ rest).takeWhile Char.isDigit = text := by
    rw [List.takeWhile_append_of_pos hdigits.2, takeWhile_eq_nil h, List.append_nil]
  have left : (text ++ rest).dropWhile Char.isDigit = rest := by
    have whole := List.takeWhile_append_dropWhile (p := Char.isDigit) (l := text ++ rest)
    rw [taken] at whole
    exact List.append_cancel_left whole
  obtain ⟨d, r, rfl, -⟩ := hdigits.exists_cons
  rw [readDigits, taken, left]

theorem isDigits_of_readDigits {digits : List Char} (h : readDigits text = some (digits, rest)) :
    IsDigits digits ∧ text = digits ++ rest := by
  rw [readDigits] at h
  split at h
  case h_1 => cases h
  case h_2 taken filled =>
    obtain ⟨rfl, rfl⟩ : text.takeWhile Char.isDigit = digits ∧
        text.dropWhile Char.isDigit = rest := by simpa using h
    exact ⟨⟨filled, fun _ => List.mem_takeWhile_imp⟩, List.takeWhile_append_dropWhile.symm⟩

theorem readInteger_append (hwhole : IsWhole text) (h : EndsDigits rest) :
    readInteger (text ++ rest) = some (text, rest) := by
  obtain ⟨digits, zero⟩ := hwhole
  obtain ⟨d, r, rfl, -⟩ := digits.exists_cons
  by_cases hd : d = '0'
  · subst hd
    obtain rfl : r = [] := by simpa using zero rfl
    cases rest with
    | nil => rfl
    | cons e r => simp [readInteger, h e rfl]
  · rw [List.cons_append, readInteger.eq_3 _ fun _ h => hd (List.cons.inj h).1,
      ← List.cons_append, readDigits_append digits h]

/-- What is read as a whole number has a zero in front only if it is zero. -/
theorem isWhole_of_readInteger {whole : List Char} (h : readInteger text = some (whole, rest)) :
    IsWhole whole ∧ text = whole ++ rest := by
  have zero : IsWhole ['0'] := ⟨⟨nofun, by simp⟩, fun _ => rfl⟩
  rw [readInteger.eq_def] at h
  split at h
  case h_1 r =>
    have read : some (['0'], r) = some (whole, rest) := by
      split at h
      · split at h
        · cases h
        · exact h
      · exact h
    obtain ⟨rfl, rfl⟩ : ['0'] = whole ∧ r = rest := by simpa using read
    exact ⟨zero, rfl⟩
  case h_2 nonzero =>
    obtain ⟨digits, rfl⟩ := isDigits_of_readDigits h
    obtain ⟨d, r, rfl, -⟩ := digits.exists_cons
    refine ⟨⟨digits, fun head => ?_⟩, rfl⟩
    obtain rfl : d = '0' := by simpa using head
    exact absurd rfl (nonzero _)

theorem readFraction_append (hfraction : IsFraction text) (h : EndsDigits rest)
    (point : rest.head? ≠ some '.') : readFraction (text ++ rest) = some (text, rest) := by
  cases hfraction with
  | none =>
    refine readFraction.eq_2 _ fun r hr => point ?_
    rw [show rest = '.' :: r from hr, List.head?_cons]
  | digits digits =>
    rw [List.cons_append, readFraction, readDigits_append digits h]
    rfl

theorem isFraction_of_readFraction {fraction : List Char}
    (h : readFraction text = some (fraction, rest)) :
    IsFraction fraction ∧ text = fraction ++ rest := by
  rw [readFraction.eq_def] at h
  split at h
  case h_1 r =>
    obtain ⟨digits, read, rfl⟩ := exists_read (f := ('.' :: ·)) h
    obtain ⟨isDigits, rfl⟩ := isDigits_of_readDigits read
    exact ⟨.digits isDigits, rfl⟩
  case h_2 =>
    obtain ⟨rfl, rfl⟩ : [] = fraction ∧ text = rest := by simpa using h
    exact ⟨.none, rfl⟩

/-- An exponent, or none, is read up to what can not belong to a number. -/
theorem readExponent_append (hexponent : IsExponent text) (h : Stops rest) :
    readExponent (text ++ rest) = some (text, rest) := by
  cases hexponent with
  | none =>
    cases rest with
    | nil => rfl
    | cons c r =>
      obtain ⟨-, -, he, hE⟩ := h c rfl
      simp [readExponent, he, hE]
  | @digits e sign digits letter signed isDigits =>
    have read := readDigits_append isDigits h.endsDigits
    obtain rfl | rfl | rfl := signed
    · obtain ⟨d, r, rfl, hd⟩ := isDigits.exists_cons
      have unsigned : ¬ (d = '+' ∨ d = '-') := by
        rintro (rfl | rfl) <;> exact absurd hd (by decide)
      rw [List.cons_append] at read
      simp [readExponent, letter, unsigned, read]
    · simp [readExponent, letter, read]
    · simp [readExponent, letter, read]

/-- What is read as an exponent is one, with its sign and at least one digit, or is empty where none
begins. -/
theorem isExponent_of_readExponent {exponent : List Char}
    (h : readExponent text = some (exponent, rest)) :
    IsExponent exponent ∧ text = exponent ++ rest := by
  rw [readExponent.eq_def] at h
  split at h
  case h_2 =>
    obtain ⟨rfl, rfl⟩ : [] = exponent ∧ [] = rest := by simpa using h
    exact ⟨.none, rfl⟩
  case h_1 e r =>
    split at h
    case isFalse =>
      obtain ⟨rfl, rfl⟩ : [] = exponent ∧ e :: r = rest := by simpa using h
      exact ⟨.none, rfl⟩
    case isTrue letter =>
      have letter : e = 'e' ∨ e = 'E' := by simpa using letter
      split at h
      case h_2 => cases h
      case h_1 s r' =>
        split at h
        case isTrue signed =>
          have signed : s = '+' ∨ s = '-' := by simpa using signed
          obtain ⟨digits, read, rfl⟩ := exists_read (f := fun ds => e :: s :: ds) h
          obtain ⟨isDigits, rfl⟩ := isDigits_of_readDigits read
          have sign : [s] = [] ∨ [s] = ['+'] ∨ [s] = ['-'] := .inr (by simpa using signed)
          exact ⟨.digits letter sign isDigits, rfl⟩
        case isFalse =>
          obtain ⟨digits, read, rfl⟩ := exists_read (f := (e :: ·)) h
          obtain ⟨isDigits, same⟩ := isDigits_of_readDigits read
          exact ⟨.digits letter (.inl rfl) isDigits, congrArg (e :: ·) same⟩

/-- An exponent does not continue the digits before it. -/
theorem IsExponent.ends (h : IsExponent text) (hrest : Stops rest) :
    EndsDigits (text ++ rest) ∧ (text ++ rest).head? ≠ some '.' := by
  cases h with
  | none => exact ⟨hrest.endsDigits, fun head => (hrest '.' head).2.1 rfl⟩
  | digits letter _ _ =>
    have ends : ∀ {e : Char} {r : List Char}, e.isDigit = false → e ≠ '.' →
        EndsDigits (e :: r) ∧ (e :: r).head? ≠ some '.' := by
      intro e r hdigit hpoint
      exact ⟨fun c hc => by cases hc; exact hdigit, by simpa using hpoint⟩
    obtain rfl | rfl := letter
    · exact ends (by decide) (by decide)
    · exact ends (by decide) (by decide)

theorem IsFraction.ends (h : IsFraction text) (hrest : EndsDigits rest) :
    EndsDigits (text ++ rest) := by
  cases h with
  | none => exact hrest
  | digits _ =>
    intro c hc
    cases hc
    decide

/-- The sign of a number is taken off first. -/
theorem readNumber_sign {sign : List Char}
    (hsign : sign = ['-'] ∨ sign = [] ∧ text.head? ≠ some '-') :
    readNumber (sign ++ text) = (readInteger text).bind fun whole =>
      (readFraction whole.2).bind fun fraction =>
        (readExponent fraction.2).bind fun exponent =>
          some (String.ofList (sign ++ whole.1 ++ fraction.1 ++ exponent.1), exponent.2) := by
  obtain rfl | ⟨rfl, unsigned⟩ := hsign
  · rfl
  · refine readNumber.eq_2 _ fun r heq => unsigned ?_
    rw [show text = '-' :: r from heq, List.head?_cons]

theorem IsWhole.head_ne (h : IsWhole text) : (text ++ rest).head? ≠ some '-' := by
  obtain ⟨d, r, rfl, hd⟩ := h.1.exists_cons
  intro head
  cases head
  exact absurd hd (by decide)

theorem readNumber_append (n : Numeral) (h : Stops rest) :
    readNumber (n.text ++ rest) = some (String.ofList n.text, rest) := by
  obtain ⟨ends, point⟩ := n.isExponent.ends h
  have sign : n.sign = ['-'] ∨ n.sign = [] ∧
      (n.whole ++ (n.fraction ++ (n.exponent ++ rest))).head? ≠ some '-' :=
    n.isSign.symm.imp_right fun unsigned => ⟨unsigned, n.isWhole.head_ne⟩
  have read := readNumber_sign sign
  simp only [readInteger_append n.isWhole (n.isFraction.ends ends), Option.bind_some,
    readFraction_append n.isFraction ends point, readExponent_append n.isExponent h] at read
  simpa only [Numeral.text, List.append_assoc] using read

/-- Whatever is read as a number was written as one: sign, whole part, fraction and exponent are
read in their order and nothing is lost between them. -/
theorem exists_numeral {literal : String} (h : readNumber text = some (literal, rest)) :
    ∃ n : Numeral, String.ofList n.text = literal ∧ text = n.text ++ rest := by
  obtain ⟨sign, body, hsign, rfl⟩ : ∃ sign body : List Char,
      (sign = ['-'] ∨ sign = [] ∧ body.head? ≠ some '-') ∧ text = sign ++ body := by
    by_cases head : text.head? = some '-'
    · obtain ⟨r, rfl⟩ := List.head?_eq_some_iff.mp head
      exact ⟨['-'], r, .inl rfl, rfl⟩
    · exact ⟨[], text, .inr ⟨rfl, head⟩, rfl⟩
  rw [readNumber_sign hsign] at h
  simp only [Option.bind_eq_some_iff] at h
  obtain ⟨⟨whole, r⟩, hwhole, ⟨fraction, r'⟩, hfraction, ⟨exponent, r''⟩, hexponent, h⟩ := h
  obtain ⟨isWhole, rfl⟩ := isWhole_of_readInteger hwhole
  obtain ⟨isFraction, rfl⟩ := isFraction_of_readFraction hfraction
  obtain ⟨isExponent, rfl⟩ := isExponent_of_readExponent hexponent
  have isSign : sign = [] ∨ sign = ['-'] := (hsign.imp_right And.left).symm
  obtain ⟨rfl, rfl⟩ := Prod.mk.inj (Option.some.inj h)
  exact ⟨⟨sign, whole, fraction, exponent, isSign, isWhole, isFraction, isExponent⟩, rfl, by
    simp [Numeral.text]⟩

end CodeAtlas.Json
