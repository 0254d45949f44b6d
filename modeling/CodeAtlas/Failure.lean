import CodeAtlas.Text.Cut

/-!
# Failures

What stops an operation of the library: a configuration that makes no sense, a file that can not
be read, a graph that is not there. A failure is its cause; the wording is `message`.
-/

namespace CodeAtlas

/-- Why the file system refuses a file. -/
inductive IoCause where
  | notFound | isDirectory | notDirectory
  /-- A cause in the words of the system, and whether it is that nothing is there. -/
  | stated (isMissing : Bool) (text : String)
deriving DecidableEq, Repr

def IoCause.message : IoCause → String
  | notFound => "No such file or directory (os error 2)"
  | isDirectory => "Is a directory (os error 21)"
  | notDirectory => "Not a directory (os error 20)"
  | stated _ text => text

/-- Whether the cause is that nothing is there. -/
def IoCause.isMissing : IoCause → Bool
  | notFound => true
  | stated isMissing _ => isMissing
  | _ => false

inductive ConfigCause where
  | emptyPrefix (target : String)
  | emptyTarget (start : String)
  | unknownDirection (text : String)
  /-- A cause that is given as a text. -/
  | stated (text : String)
deriving DecidableEq, Repr

def ConfigCause.message : ConfigCause → String
  | emptyPrefix target => "alias for '" ++ target ++ "' has an empty prefix"
  | emptyTarget start => "alias '" ++ start ++ "' has an empty target"
  | unknownDirection text =>
    "unknown trace direction '" ++ text ++ "' (expected dependencies, dependents or both)"
  | stated text => text

/-- A failure of the library. -/
inductive Failure where
  | invalidConfig (cause : ConfigCause)
  | io (cause : IoCause)
  | invalidUtf8 (path : String)
  | graphUnavailable (reason : String)
deriving DecidableEq, Repr

def Failure.message : Failure → String
  | invalidConfig cause => "Invalid configuration: " ++ cause.message
  | io cause => "I/O error: " ++ cause.message
  | invalidUtf8 path => "File is not valid UTF-8: " ++ path
  | graphUnavailable reason => "Graph unavailable: " ++ reason

end CodeAtlas
