import CodeAtlas.Script.Grammar.Modules
import CodeAtlas.Source.Kind

/-!
# Reading scripts

A reader turns the text of a file into a program, or gives the text up, and tells the faults that it
found. Everything that is built on programs takes the reader as an argument and depends on nothing
but its answers; `readScript` is the reader for the grammar of this library. It tells that a text has
faults, but not how many.
-/

namespace CodeAtlas.Script

/-- What comes of reading a text. -/
structure ReadOutcome where
  /-- What the reader says about each fault, in order. -/
  faults : List String
  /-- The program, unless the text is given up. -/
  program : Option Tree

/-- A reader: from the path and the text of a file to what comes of it. -/
abbrev Reader := String → String → ReadOutcome

/-- Reads a file with the grammar that its path calls for. -/
def readScript : Reader := fun path text =>
  match parse (Dialect.ofPath path) text with
  | some parsed => ⟨if parsed.faulty then ["unexpected syntax"] else [], some parsed.program⟩
  | none => ⟨["unexpected syntax"], none⟩

end CodeAtlas.Script
