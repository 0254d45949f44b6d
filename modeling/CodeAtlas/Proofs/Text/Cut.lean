import CodeAtlas.Text.Cut

/-!
# Parts of a text

What it means that a known beginning or end can be taken off a text, and that a text is cut at the
last occurrence of a mark, said with `++`. Two ways to write a text with `++` are compared by the
length of the beginning (`eq_of_append_eq`) or by where a slash stands (`exists_eq_append_slash`).
-/

namespace CodeAtlas.Text

variable {s start rest a b : String}

theorem dropPrefix?_eq_some_iff : dropPrefix? start s = some rest ↔ s = start ++ rest := by
  rw [dropPrefix?, Option.map_eq_some_iff]
  constructor
  · rintro ⟨chars, h, rfl⟩
    rw [← String.toList_inj, String.toList_append, String.toList_ofList]
    exact eq_append_of_dropPrefixChars? h
  · rintro rfl
    refine ⟨rest.toList, ?_, String.ofList_toList⟩
    rw [String.toList_append, dropPrefixChars?_append]

/-- A known end can be taken off a text if and only if the text is written with it. -/
theorem dropSuffix?_eq_some_iff {tail : String} :
    dropSuffix? tail s = some rest ↔ s = rest ++ tail := by
  have turned : ∀ chars : List Char, dropPrefixChars? tail.toList.reverse s.toList.reverse =
      some chars ↔ s.toList = chars.reverse ++ tail.toList := by
    intro chars
    constructor
    · intro h
      have := congrArg List.reverse (eq_append_of_dropPrefixChars? h)
      simpa using this
    · intro h
      rw [h, List.reverse_append, List.reverse_reverse, dropPrefixChars?_append]
  rw [dropSuffix?, Option.map_eq_some_iff]
  simp only [turned]
  constructor
  · rintro ⟨chars, h, rfl⟩
    rw [← String.toList_inj, String.toList_append, String.toList_ofList]
    exact h
  · rintro rfl
    refine ⟨rest.toList.reverse, ?_, ?_⟩
    · rw [String.toList_append, List.reverse_reverse]
    · rw [List.reverse_reverse, String.ofList_toList]

theorem beginsWith_append {c : Char} (hne : a ≠ "") : beginsWith c (a ++ b) = beginsWith c a := by
  unfold beginsWith
  rw [String.toList_append]
  cases ha : a.toList with
  | nil => exact absurd (String.toList_eq_nil_iff.mp ha) hne
  | cons d r => rfl

theorem endsWith_append {c : Char} (hne : b ≠ "") : endsWith c (a ++ b) = endsWith c b := by
  unfold endsWith
  rw [String.toList_append]
  cases hb : b.toList with
  | nil => exact absurd (String.toList_eq_nil_iff.mp hb) hne
  | cons d r =>
    rw [List.getLast?_append, List.getLast?_eq_some_getLast (List.cons_ne_nil d r), Option.some_or]

theorem beginsWith_slash_iff : beginsWith '/' s ↔ ∃ tail, s = "/" ++ tail := by
  rw [beginsWith, beq_iff_eq, List.head?_eq_some_iff]
  constructor
  · rintro ⟨tail, h⟩
    refine ⟨String.ofList tail, ?_⟩
    simp [← String.toList_inj, h]
  · rintro ⟨tail, rfl⟩
    exact ⟨tail.toList, by rw [String.toList_append]; rfl⟩

theorem dropPrefix?_slash_eq_none_iff : dropPrefix? "/" s = none ↔ ¬ beginsWith '/' s := by
  rw [beginsWith_slash_iff, Option.eq_none_iff_forall_ne_some, not_exists]
  simp only [ne_eq, dropPrefix?_eq_some_iff]

theorem append_cons_inj_last {c : Char} {as as' bs bs' : List Char} (hb : c ∉ bs) (hb' : c ∉ bs')
    (h : as ++ c :: bs = as' ++ c :: bs') : as = as' ∧ bs = bs' := by
  have reversed : bs.reverse ++ c :: as.reverse = bs'.reverse ++ c :: as'.reverse := by
    simpa using congrArg List.reverse h
  obtain ⟨hbs, has⟩ := append_cons_inj (by simpa using hb) (by simpa using hb') reversed
  exact ⟨List.reverse_inj.mp has, List.reverse_inj.mp hbs⟩

theorem cutLast?_eq_none_iff {c : Char} : cutLast? c s = none ↔ c ∉ s.toList := by
  rw [cutLast?, Option.map_eq_none_iff, cutLastChars?_eq_none_iff]

/-- Cutting at the last `c` yields the parts between which this `c` stands, and no `c` is left in
the second. -/
theorem cutLast?_eq_some_iff {c : Char} {mark : String} (hmark : mark.toList = [c]) :
    cutLast? c s = some (a, b) ↔ s = a ++ mark ++ b ∧ c ∉ b.toList := by
  have chars : ∀ xs ys : List Char, (String.ofList xs, String.ofList ys) = (a, b) ↔
      xs = a.toList ∧ ys = b.toList := by
    intro xs ys
    rw [Prod.mk.injEq, ← String.toList_inj, ← String.toList_inj, String.toList_ofList,
      String.toList_ofList]
  have parts : s = a ++ mark ++ b ↔ s.toList = a.toList ++ c :: b.toList := by
    rw [← String.toList_inj, String.toList_append, String.toList_append, hmark, List.append_assoc]
    rfl
  rw [cutLast?, Option.map_eq_some_iff, parts]
  constructor
  · rintro ⟨⟨xs, ys⟩, h, heq⟩
    obtain ⟨rfl, rfl⟩ := (chars xs ys).mp heq
    exact cutLastChars?_eq_some h
  · rintro ⟨h, hb⟩
    cases hcut : cutLastChars? c s.toList with
    | none =>
      have absent := cutLastChars?_eq_none_iff.mp hcut
      rw [h] at absent
      simp at absent
    | some p =>
      obtain ⟨xs, ys⟩ := p
      obtain ⟨hsplit, hys⟩ := cutLastChars?_eq_some hcut
      exact ⟨_, rfl, (chars xs ys).mpr (append_cons_inj_last hys hb (hsplit.symm.trans h))⟩

theorem cutLast?_slash_eq_some_iff :
    cutLast? '/' s = some (a, b) ↔ s = a ++ "/" ++ b ∧ '/' ∉ b.toList :=
  cutLast?_eq_some_iff rfl

theorem eq_of_beginning (h : s.toList <+: start.toList) (hsize : s.utf8ByteSize = start.utf8ByteSize) :
    s = start := by
  obtain ⟨rest, hrest⟩ := h
  have split : start = s ++ String.ofList rest := by
    simp [← String.toList_inj, hrest]
  have none : (String.ofList rest).utf8ByteSize = 0 := by
    have size := congrArg String.utf8ByteSize split
    rw [String.utf8ByteSize_append] at size
    omega
  rw [split, String.utf8ByteSize_eq_zero_iff.mp none, String.append_empty]

/-- Two beginnings of one text that are equally long are equal. -/
theorem eq_of_append_eq {x y : String} (h : a ++ x = b ++ y)
    (hsize : a.utf8ByteSize = b.utf8ByteSize) : a = b := by
  have chars : a.toList ++ x.toList = b.toList ++ y.toList := by
    rw [← String.toList_append, h, String.toList_append]
  have ha : a.toList <+: a.toList ++ x.toList := List.prefix_append _ _
  have hb : b.toList <+: a.toList ++ x.toList := chars ▸ List.prefix_append _ _
  rcases List.prefix_or_prefix_of_prefix ha hb with hab | hba
  · exact eq_of_beginning hab hsize
  · exact (eq_of_beginning hba hsize.symm).symm

/-- A slash that comes before a tail without slashes comes before the whole tail. -/
theorem exists_eq_append_slash {tail : String} (h : s ++ tail = a ++ "/" ++ b)
    (htail : '/' ∉ tail.toList) : ∃ rest, s = a ++ "/" ++ rest := by
  have slash : (a ++ "/").toList = a.toList ++ ['/'] := by
    rw [String.toList_append]
    rfl
  have whole : s.toList ++ tail.toList = (a ++ "/").toList ++ b.toList := by
    rw [← String.toList_append, h, String.toList_append]
  rcases List.append_eq_append_iff.mp whole with ⟨left, hleft, hright⟩ | ⟨left, hleft, hright⟩
  · -- the tail would begin within `a ++ "/"`, and hold its slash unless it begins right after it
    rcases List.eq_nil_or_concat left with rfl | ⟨front, c, rfl⟩
    · refine ⟨"", ?_⟩
      rw [← String.toList_inj]
      simpa using hleft.symm
    · have hc : c = '/' := by
        have := congrArg List.getLast? (slash.symm.trans hleft)
        simpa [← List.append_assoc] using this.symm
      rw [hright, hc] at htail
      simp at htail
  · refine ⟨String.ofList left, ?_⟩
    rw [← String.toList_inj, hleft]
    simp

/-- A slash that comes before the end of `s ++ "/"` is its last one or comes before the end of
`s`. -/
theorem eq_or_exists_of_append_slash (h : s ++ "/" = a ++ "/" ++ b) :
    s = a ∨ ∃ rest, s = a ++ "/" ++ rest := by
  have whole : s.toList ++ ['/'] = a.toList ++ '/' :: b.toList := by
    simpa using congrArg String.toList h
  rcases List.eq_nil_or_concat b.toList with hb | ⟨front, c, hb⟩
  · rw [hb] at whole
    exact .inl (String.toList_inj.mp (List.append_left_inj _ |>.mp whole))
  · refine .inr ⟨String.ofList front, ?_⟩
    have split : s.toList ++ ['/'] = (a.toList ++ '/' :: front) ++ [c] := by
      simpa [hb] using whole
    have := (List.append_inj' split rfl).1
    simp [← String.toList_inj, this]

end CodeAtlas.Text
