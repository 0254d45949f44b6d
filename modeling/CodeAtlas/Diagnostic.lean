import CodeAtlas.Text.Cut

/-!
# Diagnostics

What went wrong with single files while a graph was built. None of it stops a build. A
diagnostic has a text for people, and the file that it concerns.
-/

namespace CodeAtlas

/-- A step of a build that walks the syntax of a file. -/
inductive Pass where
  | discovery | linking
deriving DecidableEq, Repr

namespace Pass

/-- The pass in the words of a message. -/
def title : Pass → String
  | discovery => "symbol discovery"
  | linking => "dependency linking"

def name : Pass → String
  | discovery => "discovery"
  | linking => "linking"

def ofName? : String → Option Pass
  | "discovery" => some discovery
  | "linking" => some linking
  | _ => none

end Pass

inductive Diagnostic where
  | readFailed (path message : String)
  | fileTooLarge (path : String) (size max : Nat)
  | parseFailed (path message : String)
  /-- The file was parsed in spite of some errors. -/
  | recoverableParseErrors (path : String) (count : Nat) (first : String)
  /-- A relative import leads from one package into another. -/
  | illegalCrossPackageImport (importer specifier target : String)
  | traversalFailed (pass : Pass) (path message : String)
deriving DecidableEq, Repr

namespace Diagnostic

/-- The file that a diagnostic concerns. -/
def path : Diagnostic → String
  | readFailed p _ | fileTooLarge p _ _ | parseFailed p _ | recoverableParseErrors p _ _
  | illegalCrossPackageImport p _ _ | traversalFailed _ p _ => p

def message : Diagnostic → String
  | readFailed p m => "Failed to read " ++ p ++ ": " ++ m
  | fileTooLarge p size max =>
    "Skipped " ++ p ++ ": " ++ Nat.repr size ++ " bytes exceeds the " ++ Nat.repr max ++
      " byte limit"
  | parseFailed p m => "Failed to parse " ++ p ++ ": " ++ m
  | recoverableParseErrors p count first =>
    "Parsed " ++ p ++ " with " ++ Nat.repr count ++ " error(s), first: " ++ first
  | illegalCrossPackageImport p specifier target =>
    "Illegal cross-package relative import in " ++ p ++ ": '" ++ specifier ++
      "' resolves to " ++ target ++ ", use the package alias instead"
  | traversalFailed pass p m => "Error during " ++ pass.title ++ " in " ++ p ++ ": " ++ m

/-- Whether the text of one of some diagnostics mentions a path. -/
def anyMentions (list : List Diagnostic) (path : String) : Bool :=
  list.any fun d => Text.contains path d.message

end Diagnostic

end CodeAtlas
