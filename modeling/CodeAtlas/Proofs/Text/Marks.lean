import CodeAtlas.Proofs.Path.Normal

/-!
# Marks in a text

A text is cut at its first `#`: it is what precedes the mark, followed by the rest
(`exists_marked`), in one way only (`atFirstMark_iff`). A replaced character comes back if nothing
stood for it before (`replaceChar_replaceChar`).
-/

namespace CodeAtlas.Text

variable {c : Char} {s a b tail : String}

/-! ## Replaced characters -/

theorem not_mem_replaceChar {d : Char} (h : c ≠ d) (s : String) :
    c ∉ (replaceChar c d s).toList := by
  rw [replaceChar, String.toList_ofList, List.mem_map]
  rintro ⟨x, -, hx⟩
  split at hx
  · exact h hx.symm
  · rename_i hne
    exact hne hx

theorem not_mem_replaceChar_of_not_mem {d x : Char} (h : x ∉ s.toList) (hd : x ≠ d) :
    x ∉ (replaceChar c d s).toList := by
  rw [replaceChar, String.toList_ofList, List.mem_map]
  rintro ⟨y, hy, rfl⟩
  split at hd
  · exact hd rfl
  · rename_i hne
    rw [if_neg hne] at h
    exact h hy

/-- A character that was replaced comes back if its substitute did not occur before; else it would
come back in too many places. -/
theorem replaceChar_replaceChar {d : Char} (h : d ∉ s.toList) :
    replaceChar d c (replaceChar c d s) = s := by
  have same : ∀ x ∈ s.toList, ((fun x => if x = d then c else x) ∘
      fun x => if x = c then d else x) x = x := by
    intro x hx
    have apart : x ≠ d := fun heq => h (heq ▸ hx)
    by_cases hc : x = c
    · simp [hc]
    · simp [hc, apart]
  rw [replaceChar, replaceChar, String.toList_ofList, List.map_map, List.map_congr_left same,
    List.map_id', String.ofList_toList]

theorem replaceChar_eq_self_iff {d : Char} (h : c ≠ d) : replaceChar c d s = s ↔ c ∉ s.toList := by
  constructor
  · intro heq
    rw [← heq]
    exact not_mem_replaceChar h s
  · exact replaceChar_of_not_mem

theorem mem_of_beginsWith (h : beginsWith c s) : c ∈ s.toList := by
  rw [beginsWith, beq_iff_eq] at h
  exact List.mem_of_mem_head? h

/-! ## Up to the first mark -/

theorem cutFirstChars?_of_not_mem {text : List Char} (h : c ∉ text) :
    cutFirstChars? c text = none := by
  cases hcut : cutFirstChars? c text with
  | none => rfl
  | some p =>
    obtain ⟨rfl, -⟩ := cutFirstChars?_eq_some hcut
    exact absurd (List.mem_append_right _ List.mem_cons_self) h

theorem cutFirstChars?_append_cons {as : List Char} (h : c ∉ as) (bs : List Char) :
    cutFirstChars? c (as ++ c :: bs) = some (as, bs) := by
  induction as with
  | nil => simp [cutFirstChars?]
  | cons d as ih =>
    rw [List.mem_cons, not_or] at h
    rw [List.cons_append, cutFirstChars?, if_neg (Ne.symm h.1), ih h.2]
    rfl

theorem cutFirst?_of_not_mem (h : c ∉ s.toList) : cutFirst? c s = none := by
  rw [cutFirst?, cutFirstChars?_of_not_mem h]
  rfl

theorem cutFirst?_hash (h : '#' ∉ a.toList) : cutFirst? '#' (a ++ "#" ++ b) = some (a, b) := by
  have chars : (a ++ "#" ++ b).toList = a.toList ++ '#' :: b.toList := by
    rw [String.toList_append, String.toList_append, List.append_assoc]
    rfl
  rw [cutFirst?, chars, cutFirstChars?_append_cons h]
  simp only [Option.map_some, String.ofList_toList]

/-- What may follow a text without a `#`: nothing, or a `#` and any text. -/
def IsMarked (tail : String) : Prop := tail = "" ∨ ∃ back, tail = "#" ++ back

theorem IsMarked.append (h : IsMarked tail) (hs : IsMarked s) : IsMarked (tail ++ s) := by
  rcases h with rfl | ⟨back, rfl⟩
  · rwa [String.empty_append]
  · exact .inr ⟨back ++ s, String.append_assoc⟩

theorem IsMarked.replaceChar {d : Char} (h : IsMarked tail) (hc : c ≠ '#') :
    IsMarked (replaceChar c d tail) := by
  rcases h with rfl | ⟨back, rfl⟩
  · exact .inl rfl
  · refine .inr ⟨Text.replaceChar c d back, ?_⟩
    rw [replaceChar_append, replaceChar_of_not_mem fun hmem => hc (List.mem_singleton.mp hmem)]

/-- What holds of the texts before and after the first `#`, if there is one. -/
def AtFirstMark (p : String → String → Prop) (s : String) : Prop :=
  ∀ front back, s = front ++ "#" ++ back → '#' ∉ front.toList → p front back

/-- Where no `#` stands in the front, the first mark is the one that the tail begins with, if it is
there. -/
theorem atFirstMark_iff {p : String → String → Prop} {front : String} (hfront : '#' ∉ front.toList)
    (htail : IsMarked tail) :
    AtFirstMark p (front ++ tail) ↔ ∀ back, tail = "#" ++ back → p front back := by
  constructor
  · rintro h back rfl
    exact h front back String.append_assoc.symm hfront
  · intro h first rest heq hfirst
    have chars : front.toList ++ tail.toList = first.toList ++ '#' :: rest.toList := by
      simpa using congrArg String.toList heq
    rcases htail with rfl | ⟨back, rfl⟩
    · rw [String.toList_empty, List.append_nil] at chars
      exact absurd (chars ▸ List.mem_append_right _ List.mem_cons_self) hfront
    · obtain ⟨hsame, hrest⟩ := append_cons_inj hfront hfirst (by simpa using chars)
      rw [← String.toList_inj.mp hsame, ← String.toList_inj.mp hrest]
      exact h back rfl

/-- A text is what precedes its first `#`, followed by the rest. -/
theorem exists_marked (s : String) :
    ∃ front tail : String, s = front ++ tail ∧ '#' ∉ front.toList ∧ IsMarked tail := by
  by_cases hmark : '#' ∈ s.toList
  · obtain ⟨as, bs, hsplit, hfront⟩ := List.eq_append_cons_of_mem hmark
    refine ⟨String.ofList as, "#" ++ String.ofList bs, ?_, ?_, .inr ⟨_, rfl⟩⟩
    · rw [← String.toList_inj, hsplit]
      simp
    · rwa [String.toList_ofList]
  · exact ⟨s, "", String.append_empty.symm, hmark, .inl rfl⟩

end CodeAtlas.Text
