/-!
# Cutting texts

Cutting a text at a character and taking a known beginning or end off it. All of it is stated on
lists of characters, where the laws are plain inductions, and carried over to strings.
-/

namespace CodeAtlas.Text

/-! ## On lists of characters -/

/-- The parts before and after the first `c`. -/
def cutFirstChars? (c : Char) : List Char → Option (List Char × List Char)
  | [] => none
  | d :: r => if d = c then some ([], r) else (cutFirstChars? c r).map fun (a, b) => (d :: a, b)

/-- The parts before and after the last `c`. -/
def cutLastChars? (c : Char) : List Char → Option (List Char × List Char)
  | [] => none
  | d :: r =>
    match cutLastChars? c r with
    | some (a, b) => some (d :: a, b)
    | none => if d = c then some ([], r) else none

/-- What follows `start` in a text that begins with it. -/
def dropPrefixChars? : List Char → List Char → Option (List Char)
  | [], text => some text
  | _ :: _, [] => none
  | c :: cs, d :: ds => if c = d then dropPrefixChars? cs ds else none

/-- The pieces between the occurrences of `c`; there is one more piece than occurrences. -/
def piecesChars (c : Char) : List Char → List (List Char)
  | [] => [[]]
  | d :: r =>
    if d = c then [] :: piecesChars c r
    else
      match piecesChars c r with
      | [] => [[d]]
      | p :: ps => (d :: p) :: ps

/-- Whether `part` occurs in a text. -/
def occursIn (part : List Char) : List Char → Bool
  | [] => part.isEmpty
  | c :: r => (dropPrefixChars? part (c :: r)).isSome || occursIn part r

theorem dropPrefixChars?_append (start rest : List Char) :
    dropPrefixChars? start (start ++ rest) = some rest := by
  induction start with
  | nil => cases rest <;> rfl
  | cons c cs ih => simp [dropPrefixChars?, ih]

theorem eq_append_of_dropPrefixChars? {start text rest : List Char}
    (h : dropPrefixChars? start text = some rest) : text = start ++ rest := by
  fun_induction dropPrefixChars? start text with
  | case1 => simpa using h
  | case2 => simp at h
  | case3 _ _ _ ih => simp [ih h]
  | case4 => simp at h

theorem cutFirstChars?_eq_some {c : Char} {text a b : List Char}
    (h : cutFirstChars? c text = some (a, b)) : text = a ++ c :: b ∧ c ∉ a := by
  induction text generalizing a with
  | nil => simp [cutFirstChars?] at h
  | cons d r ih =>
    by_cases hd : d = c
    · simp [cutFirstChars?, hd] at h
      obtain ⟨rfl, rfl⟩ := h
      simp [hd]
    · simp only [cutFirstChars?, hd, if_false, Option.map_eq_some_iff, Prod.mk.injEq,
        Prod.exists] at h
      obtain ⟨a', b', h', rfl, rfl⟩ := h
      obtain ⟨rfl, hn⟩ := ih h'
      exact ⟨rfl, by simp [hn, Ne.symm hd]⟩

theorem cutLastChars?_eq_none_iff {c : Char} {text : List Char} :
    cutLastChars? c text = none ↔ c ∉ text := by
  induction text with
  | nil => simp [cutLastChars?]
  | cons d r ih =>
    cases h : cutLastChars? c r with
    | some p =>
      have hc : c ∈ r := Decidable.byContradiction fun hn => by simp [ih.mpr hn] at h
      simp [cutLastChars?, h, hc]
    | none =>
      have hn := ih.mp h
      by_cases hd : d = c
      · simp [cutLastChars?, h, hd]
      · simp [cutLastChars?, h, hd, hn, Ne.symm hd]

theorem cutLastChars?_eq_some {c : Char} {text a b : List Char}
    (h : cutLastChars? c text = some (a, b)) : text = a ++ c :: b ∧ c ∉ b := by
  induction text generalizing a with
  | nil => simp [cutLastChars?] at h
  | cons d r ih =>
    cases h' : cutLastChars? c r with
    | some p =>
      obtain ⟨a', b'⟩ := p
      simp only [cutLastChars?, h', Option.some.injEq, Prod.mk.injEq] at h
      obtain ⟨rfl, rfl⟩ := h
      obtain ⟨rfl, hn⟩ := ih h'
      exact ⟨rfl, hn⟩
    | none =>
      by_cases hd : d = c
      · simp only [cutLastChars?, h', hd, if_true, Option.some.injEq, Prod.mk.injEq] at h
        obtain ⟨rfl, rfl⟩ := h
        exact ⟨by simp [hd], cutLastChars?_eq_none_iff.mp h'⟩
      · simp [cutLastChars?, h', hd] at h

/-- A text is cut in one way at the first `c`. -/
theorem append_cons_inj {c : Char} {a a' b b' : List Char} (ha : c ∉ a) (ha' : c ∉ a')
    (h : a ++ c :: b = a' ++ c :: b') : a = a' ∧ b = b' := by
  induction a generalizing a' with
  | nil =>
    cases a' with
    | nil => simpa using h
    | cons d r =>
      simp only [List.nil_append, List.cons_append, List.cons.injEq] at h
      exact absurd (h.1 ▸ List.mem_cons_self) ha'
  | cons d r ih =>
    cases a' with
    | nil =>
      simp only [List.nil_append, List.cons_append, List.cons.injEq] at h
      exact absurd (h.1 ▸ List.mem_cons_self) ha
    | cons d' r' =>
      simp only [List.cons_append, List.cons.injEq] at h
      obtain ⟨rfl, rfl⟩ := ih (fun hm => ha (List.mem_cons_of_mem d hm))
        (fun hm => ha' (List.mem_cons_of_mem d' hm)) h.2
      exact ⟨by rw [h.1], rfl⟩

/-! ## On strings -/

/-- The parts of `s` before and after the first `c`. -/
def cutFirst? (c : Char) (s : String) : Option (String × String) :=
  (cutFirstChars? c s.toList).map fun (a, b) => (String.ofList a, String.ofList b)

/-- The parts of `s` before and after the last `c`. -/
def cutLast? (c : Char) (s : String) : Option (String × String) :=
  (cutLastChars? c s.toList).map fun (a, b) => (String.ofList a, String.ofList b)

/-- What follows `start` in `s`, if `s` begins with it. -/
def dropPrefix? (start s : String) : Option String :=
  (dropPrefixChars? start.toList s.toList).map String.ofList

/-- What precedes `tail` in `s`, if `s` ends with it. -/
def dropSuffix? (tail s : String) : Option String :=
  (dropPrefixChars? tail.toList.reverse s.toList.reverse).map fun r => String.ofList r.reverse

/-- The pieces of `s` between the occurrences of `c`. -/
def pieces (c : Char) (s : String) : List String :=
  (piecesChars c s.toList).map String.ofList

def replaceChar (c d : Char) (s : String) : String :=
  String.ofList (s.toList.map fun x => if x = c then d else x)

/-- `s` without the characters `c` that it begins with. -/
def trimStartChar (c : Char) (s : String) : String :=
  String.ofList (s.toList.dropWhile (· = c))

def beginsWith (c : Char) (s : String) : Bool := s.toList.head? == some c

def endsWith (c : Char) (s : String) : Bool := s.toList.getLast? == some c

def hasChar (c : Char) (s : String) : Bool := s.toList.contains c

def contains (part s : String) : Bool := occursIn part.toList s.toList

end CodeAtlas.Text
