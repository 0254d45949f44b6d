import CodeAtlas.Ignore.Rules
import CodeAtlas.Proofs.Resolution.Packages

/-!
# Marked patterns

An exclamation mark in front of the line of an ignore file includes again what the rest of the line
covers. A project gives its patterns with such a mark and takes the answer the other way round. The
line that a pattern makes with a mark covers just what the pattern covers, whatever the pattern
begins with (`ofLine?_marked`), so such lines never ignore anything (`verdict_marked_ne_ignored`).
-/

namespace CodeAtlas.Ignore

open CodeAtlas.Text

variable {rule : Rule} {body pattern : String} {patterns : List String} {path : List UInt8}
  {isDirectory : Bool}

/-! ## Brackets that are not closed -/

/-- A glob whose classes are closed is the same where an open class is no fault: the two readings
part only where a class is not closed, and there the strict one fails. -/
theorem readGlob_open {fuel : Nat} {d : GlobDraft} {last : Option Char} {text : List Char}
    {glob : Glob} (h : readGlob false fuel d last text = .ok glob) :
    readGlob true fuel d last text = .ok glob := by
  induction fuel generalizing d last text with
  | zero =>
    cases text with
    | nil => exact h
    | cons c r => cases h
  | succ fuel ih =>
    cases text with
    | nil => exact h
    | cons c r =>
      unfold readGlob at h ⊢
      dsimp only at h ⊢
      split at h
      · exact ih h
      · exact ih h
      -- a bracket: only a class that is not closed is read in two ways
      · cases hplain : d.plainBrackets with
        | true =>
          rw [if_pos hplain] at h
          rw [if_pos rfl]
          exact ih h
        | false =>
          rw [if_neg (Bool.eq_false_iff.mp hplain)] at h
          rw [if_neg Bool.false_ne_true]
          split at h
          · exact ih h
          · cases h
          · cases h
      · exact ih h
      · split at h
        · exact ih h
        · cases h
      · exact ih h
      · split at h
        · cases h
        · exact ih h
      · exact ih h

namespace Rule

/-- The text of the glob of a rule and its bond to directories, which the mark in front of the rule has
no part in. -/
theorem exists_ofBody_eq (body : String) : ∃ text only, ∀ openClasses includes,
    ofBody openClasses includes body =
      (Glob.ofText openClasses text).map fun glob => ⟨glob, includes, only⟩ := by
  have bind_eq : ∀ (x : Except GlobFault Glob) (includes only : Bool),
      (x >>= fun glob => pure ⟨glob, includes, only⟩) = x.map fun glob => Rule.mk glob includes only := by
    rintro (fault | glob) includes only <;> rfl
  unfold ofBody
  simp only [bind_eq]
  rcases dropPrefix? "/" body with _ | rest
  · rcases dropSuffix? "/" body with _ | front
    · exact ⟨_, _, fun _ _ => rfl⟩
    · exact ⟨_, _, fun _ _ => rfl⟩
  · dsimp only
    rcases dropSuffix? "/" rest with _ | front
    · exact ⟨_, _, fun _ _ => rfl⟩
    · exact ⟨_, _, fun _ _ => rfl⟩

/-- The mark changes what a rule says about what it covers, but not what it covers. -/
theorem ofBody_marked (h : ofBody false false body = .ok rule) :
    ofBody true true body = .ok { rule with includes := true } := by
  obtain ⟨text, only, heq⟩ := exists_ofBody_eq body
  rw [heq] at h ⊢
  obtain ⟨glob, hglob, rfl⟩ := Resolution.exists_ok_of_map h
  rw [Glob.ofText, readGlob_open hglob]
  rfl

theorem includes_of_ofBody {openClasses includes : Bool}
    (h : ofBody openClasses includes body = .ok rule) : rule.includes = includes := by
  obtain ⟨text, only, heq⟩ := exists_ofBody_eq body
  rw [heq] at h
  obtain ⟨glob, -, rfl⟩ := Resolution.exists_ok_of_map h
  rfl

/-- A mark in front of a line stays where it is when the blanks at the end of the line go. -/
theorem trimLine_marked (line : String) : trimLine ("!" ++ line) = "!" ++ trimLine line := by
  have escaped : (dropSuffix? "\\ " ("!" ++ line)).isSome = (dropSuffix? "\\ " line).isSome := by
    rw [Bool.eq_iff_iff, Option.isSome_iff_exists, Option.isSome_iff_exists]
    simp only [dropSuffix?_eq_some_iff]
    constructor
    · rintro ⟨rest, heq⟩
      have chars : '!' :: line.toList = rest.toList ++ ['\\', ' '] := by
        simpa using congrArg String.toList heq
      rcases List.cons_eq_append_iff.mp chars with ⟨-, hline⟩ | ⟨front, -, hline⟩
      · cases hline
      · exact ⟨String.ofList front, by simp [← String.toList_inj, hline]⟩
    · rintro ⟨rest, rfl⟩
      exact ⟨"!" ++ rest, String.append_assoc.symm⟩
  rw [trimLine, trimLine, escaped]
  split
  · rfl
  · have mark : isBlank '!' = false := by decide
    rw [← String.toList_inj]
    simp only [String.toList_append, List.reverse_append, List.dropWhile_append,
      String.toList_ofList]
    split
    · rename_i hblank
      simp [List.isEmpty_iff.mp hblank, mark]
    · simp

/-! ## Lines -/

/-- The line of a pattern with a mark, without the blanks at its end. The mark is no `#`, so the
line is never taken for a comment, and never for an empty one. -/
theorem ofLine?_marked_eq (pattern : String) :
    ofLine? ("!" ++ pattern) = (ofBody true true (trimLine pattern)).toOption := by
  have comment : beginsWith '#' ("!" ++ pattern) = false := by
    rw [beginsWith_append (by decide)]
    decide
  have mark : dropPrefix? "!" ("!" ++ trimLine pattern) = some (trimLine pattern) :=
    dropPrefix?_eq_some_iff.mpr rfl
  have blank : "!" ++ trimLine pattern ≠ "" := by
    intro heq
    simpa using congrArg String.toList heq
  rw [ofLine?, comment, if_neg Bool.false_ne_true]
  simp only [trimLine_marked, mark]
  rw [if_neg blank]

/-- The line that a pattern makes with a mark includes what the pattern covers. -/
theorem ofLine?_marked (h : ofPattern pattern = .ok rule) :
    ofLine? ("!" ++ pattern) = some { rule with includes := true } := by
  rw [ofLine?_marked_eq, ofBody_marked h]
  rfl

/-- A line with a mark, if it has a rule at all, has one that includes. -/
theorem includes_of_ofLine?_marked (h : ofLine? ("!" ++ pattern) = some rule) :
    rule.includes = true := by
  rw [ofLine?_marked_eq] at h
  cases hbody : ofBody true true (trimLine pattern) with
  | error fault =>
    rw [hbody] at h
    cases h
  | ok rule' =>
    rw [hbody] at h
    cases h
    exact includes_of_ofBody hbody

end Rule

/-- The rules of the lines that some patterns make with a mark. -/
def marked (patterns : List String) : List Rule :=
  patterns.filterMap fun pattern => Rule.ofLine? ("!" ++ pattern)

theorem mem_marked_iff : rule ∈ marked patterns ↔
    ∃ pattern ∈ patterns, Rule.ofLine? ("!" ++ pattern) = some rule :=
  List.mem_filterMap

theorem includes_of_mem_marked (h : rule ∈ marked patterns) : rule.includes = true := by
  obtain ⟨pattern, -, hread⟩ := mem_marked_iff.mp h
  exact Rule.includes_of_ofLine?_marked hread

/-- Marked lines never ignore anything. -/
theorem verdict_marked_ne_ignored :
    Rule.verdict (marked patterns) path isDirectory ≠ some .ignored := by
  rw [Rule.verdict, Ne, Option.map_eq_some_iff]
  rintro ⟨rule, hfind, hverdict⟩
  have mem := List.mem_reverse.mp (List.mem_of_find?_eq_some hfind)
  rw [includes_of_mem_marked mem] at hverdict
  cases hverdict

/-- Marked lines include what one of them covers, whichever it is: as all of them say the same, it
does not matter which comes last. -/
theorem verdict_marked_eq_included_iff :
    Rule.verdict (marked patterns) path isDirectory = some .included ↔
      ∃ rule ∈ marked patterns, rule.covers path isDirectory := by
  rw [Rule.verdict, Option.map_eq_some_iff]
  constructor
  · rintro ⟨rule, hfind, -⟩
    have mem := List.mem_reverse.mp (List.mem_of_find?_eq_some hfind)
    exact ⟨rule, mem, by simpa using List.find?_some hfind⟩
  · rintro ⟨rule, hrule, hcovers⟩
    cases hfind : (marked patterns).reverse.find? fun rule => rule.covers path isDirectory with
    | none => exact absurd hcovers (List.find?_eq_none.mp hfind rule (List.mem_reverse.mpr hrule))
    | some found =>
      have mem := List.mem_reverse.mp (List.mem_of_find?_eq_some hfind)
      exact ⟨found, rfl, if_pos (includes_of_mem_marked mem)⟩

end CodeAtlas.Ignore
