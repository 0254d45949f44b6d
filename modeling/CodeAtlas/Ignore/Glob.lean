/-!
# Globs

A glob is a pattern for paths. `Glob.ofText` reads it from a text, and `Glob.admits` tells whether
it covers the whole of a path. Both work on the bytes of UTF-8: a question mark covers one byte,
and so does a class. A star does not cross a slash, a double star between slashes does.

The syntax and the meaning are those of the `globset` package, with its options set as for the lines
of ignore files. The package turns a glob into a regular expression; here the tokens are matched as
they stand.
-/

namespace CodeAtlas.Ignore

inductive GlobToken where
  | byte (b : UInt8)
  /-- `?`: one byte other than a slash. -/
  | oneByte
  /-- `*`: any bytes other than slashes. -/
  | star
  /-- `**` with a slash at the beginning: any directories. -/
  | leading
  /-- `**` between slashes, which it includes: a slash, perhaps with directories. -/
  | inner
  /-- `**` after a slash, which it includes, at the end. -/
  | trailing
  /-- One byte within some ranges, or outside all of them. -/
  | oneOf (negated : Bool) (ranges : List (UInt8 × UInt8))
  /-- One of several globs. -/
  | anyOf (branches : List (List GlobToken))
deriving Repr

abbrev Glob := List GlobToken

inductive GlobFault where
  | unclosedClass
  | invalidRange (first last : Char)
  | unopenedGroup
  | unclosedGroup
  | danglingEscape
deriving DecidableEq, Repr

def GlobFault.message : GlobFault → String
  | unclosedClass => "unclosed character class; missing ']'"
  | invalidRange first last =>
    "invalid range; '" ++ first.toString ++ "' > '" ++ last.toString ++ "'"
  | unopenedGroup => "unopened alternate group; missing '\x7b'"
  | unclosedGroup => "unclosed alternate group; missing '\x7d'"
  | danglingEscape => "dangling '\\'"

/-! ## Matching -/

def slash : UInt8 := 47

/-- What may remain after some bytes other than slashes. -/
def afterSegment : List UInt8 → List (List UInt8)
  | [] => [[]]
  | b :: r => (b :: r) :: if b = slash then [] else afterSegment r

/-- What follows each slash of a path. -/
def afterSlashes : List UInt8 → List (List UInt8)
  | [] => []
  | b :: r => if b = slash then r :: afterSlashes r else afterSlashes r

def ends : List UInt8 → List (List UInt8)
  | [] => [[]]
  | b :: r => (b :: r) :: ends r

/-- Keeps the first of the ends of each length. -/
def distinct (rests : List (List UInt8)) : List (List UInt8) :=
  let step (acc : List Nat × List (List UInt8)) (rest : List UInt8) :=
    let n := rest.length
    if acc.1.contains n then acc else (n :: acc.1, rest :: acc.2)
  (rests.foldl step ([], [])).2.reverse

mutual

/-- Whether a token covers nothing because it offers nothing to choose from. -/
def GlobToken.isVoid : GlobToken → Bool
  | .anyOf branches => areVoidBranches branches
  | _ => false

def areVoid : List GlobToken → Bool
  | [] => true
  | t :: ts => t.isVoid && areVoid ts

def areVoidBranches : List (List GlobToken) → Bool
  | [] => true
  | b :: bs => areVoid b && areVoidBranches bs

end

mutual

/-- What may remain of a path after the part that a token covers. -/
def GlobToken.rests : GlobToken → List UInt8 → List (List UInt8)
  | .byte b, path =>
    match path with
    | c :: r => if c = b then [r] else []
    | [] => []
  | .oneByte, path =>
    match path with
    | c :: r => if c = slash then [] else [r]
    | [] => []
  | .star, path => afterSegment path
  | .leading, path => path :: afterSlashes path
  | .inner, path =>
    match path with
    | c :: r => if c = slash then r :: afterSlashes r else []
    | [] => []
  | .trailing, path =>
    match path with
    | c :: r => if c = slash then ends r else []
    | [] => []
  | .oneOf negated ranges, path =>
    match path with
    | c :: r => if (ranges.any fun (a, b) => a ≤ c && c ≤ b) != negated then [r] else []
    | [] => []
  | .anyOf branches, path => if areVoidBranches branches then [path] else branchRests branches path

def globRests : List GlobToken → List (List UInt8) → List (List UInt8)
  | [], paths => paths
  | t :: ts, paths => globRests ts (distinct (paths.flatMap t.rests))

/-- What may remain of a path after the part that one of some globs covers. A branch without
content is no choice. -/
def branchRests : List (List GlobToken) → List UInt8 → List (List UInt8)
  | [], _ => []
  | b :: bs, path => (if areVoid b then [] else globRests b [path]) ++ branchRests bs path

end

/-- Whether a glob covers a path. A double star alone covers every path. -/
def Glob.admits (glob : Glob) (path : List UInt8) : Bool :=
  match glob with
  | [.leading] => true
  | _ => (globRests glob [path]).contains []

/-! ## Reading -/

def charBytes (c : Char) : List UInt8 := c.toString.toUTF8.toList

/-- The tokens for a character that stands for itself, last byte first. -/
def charTokens (c : Char) : List GlobToken := (charBytes c).reverse.map .byte

/-- The ranges of bytes for a range of characters. A class covers one byte, so the bytes of a
character that takes several stand side by side in it. -/
def byteRanges (range : Char × Char) : List (UInt8 × UInt8) :=
  let single (b : UInt8) := (b, b)
  let (first, last) := range
  if first = last then (charBytes first).map single
  else
    match (charBytes first).reverse, charBytes last with
    | a :: before, b :: after => before.reverse.map single ++ [(a, b)] ++ after.map single
    | _, _ => []

structure ClassDraft where
  /-- The ranges so far, last one first. -/
  ranges : List (Char × Char)
  /-- A hyphen waits for the end of its range. -/
  inRange : Bool

def ClassDraft.add (d : ClassDraft) (c : Char) : Except GlobFault ClassDraft :=
  match d.inRange, d.ranges with
  | true, (first, _) :: before =>
    if c < first then .error (.invalidRange first c) else .ok ⟨(first, c) :: before, false⟩
  | _, ranges => .ok ⟨(c, c) :: ranges, false⟩

/-- The ranges of a class, in order; a hyphen at the end stands for itself. -/
def ClassDraft.close (d : ClassDraft) : List (Char × Char) :=
  (if d.inRange then ('-', '-') :: d.ranges else d.ranges).reverse

/-- The ranges of a class up to its closing bracket, and what follows. A closing bracket or a
hyphen that comes first stands for itself. -/
def readRanges (first : Bool) (draft : ClassDraft) :
    List Char → Except GlobFault (List (Char × Char) × List Char)
  | [] => .error .unclosedClass
  | c :: r =>
    if c = ']' && !first then .ok (draft.close, r)
    else if c = '-' && !first && !draft.inRange then readRanges false { draft with inRange := true } r
    else
      match draft.add c with
      | .ok draft => readRanges false draft r
      | .error fault => .error fault

def readClass (text : List Char) : Except GlobFault (GlobToken × List Char) := do
  let (negated, body) := match text with
    | '!' :: r | '^' :: r => (true, r)
    | r => (false, r)
  let (ranges, rest) ← readRanges true ⟨[], false⟩ body
  return (.oneOf negated (ranges.flatMap byteRanges), rest)

structure GlobDraft where
  /-- The branch that is being read, last token first. -/
  current : List GlobToken
  /-- The groups that are open, innermost first: the branches of each so far, last one first,
  and the branch that the group stands in. -/
  groups : List (List Glob × List GlobToken)
  /-- A class was not closed, and brackets stand for themselves from then on. -/
  plainBrackets : Bool

namespace GlobDraft

def push (d : GlobDraft) (tokens : List GlobToken) : GlobDraft :=
  { d with current := tokens ++ d.current }

def openGroup (d : GlobDraft) : GlobDraft :=
  { d with current := [], groups := ([], d.current) :: d.groups }

/-- Begins the next branch of a group; outside of groups a comma stands for itself. -/
def comma (d : GlobDraft) : GlobDraft :=
  match d.groups with
  | [] => d.push (charTokens ',')
  | (branches, outer) :: groups =>
    { d with current := [], groups := (d.current.reverse :: branches, outer) :: groups }

def closeGroup (d : GlobDraft) : Except GlobFault GlobDraft :=
  match d.groups with
  | [] => .error .unopenedGroup
  | (branches, outer) :: groups =>
    let all := (d.current.reverse :: branches).reverse
    .ok { d with current := .anyOf all :: outer, groups := groups }

/-- Puts a double star after a slash in place of the token before it, which ends in that slash. -/
def doubleStar (d : GlobDraft) (atEnd : Bool) : GlobDraft :=
  match d.current with
  | .leading :: _ | .trailing :: _ => d
  | _ :: before => { d with current := (if atEnd then .trailing else .inner) :: before }
  | [] => d

end GlobDraft

/-- Reads stars after the first: the draft, the character read last and what follows. A double
star has a meaning of its own where slashes, or the ends of the glob or of a branch, surround
it. -/
def readStars (d : GlobDraft) (last : Option Char) (text : List Char) :
    GlobDraft × Option Char × List Char :=
  match text with
  | '*' :: r =>
    let plain := (d.push [.star, .star], some '*', r)
    if d.current.isEmpty then
      match r with
      | [] => (d.push [.leading], some '*', [])
      | '/' :: r' => (d.push [.leading], some '/', r')
      | _ => plain
    else if last != some '/' && (d.groups.isEmpty || (last != some ',' && last != some '{')) then
      plain
    else
      match r with
      | [] => (d.doubleStar true, some '*', [])
      | '/' :: r' => (d.doubleStar false, some '/', r')
      | c :: _ =>
        if (c = ',' || c = '}') && !d.groups.isEmpty then (d.doubleStar true, some '*', r)
        else plain
  | _ => (d.push [.star], some '*', text)

/-- Reads a glob; `last` is the character read last. -/
def readGlob (openClasses : Bool) :
    (fuel : Nat) → GlobDraft → (last : Option Char) → List Char → Except GlobFault Glob
  | _, d, _, [] => if d.groups.isEmpty then .ok d.current.reverse else .error .unclosedGroup
  | 0, _, _, _ => .error .unclosedGroup
  | fuel + 1, d, last, c :: r =>
    let go := fun d last r => readGlob openClasses fuel d last r
    match c with
    | '?' => go (d.push [.oneByte]) (some c) r
    | '*' =>
      let (d, last, r) := readStars d last r
      go d last r
    | '[' =>
      if d.plainBrackets then go (d.push (charTokens c)) (some c) r
      else
        match readClass r with
        | .ok (token, rest) => go (d.push [token]) (some ']') rest
        | .error .unclosedClass =>
          if openClasses then
            go { d.push (charTokens c) with plainBrackets := true } (some c) r
          else .error .unclosedClass
        | .error fault => .error fault
    | '{' => go d.openGroup (some c) r
    | '}' =>
      match d.closeGroup with
      | .ok d => go d (some c) r
      | .error fault => .error fault
    | ',' => go d.comma (some c) r
    | '\\' =>
      match r with
      | [] => .error .danglingEscape
      | e :: r => go (d.push (charTokens e)) (some e) r
    | _ => go (d.push (charTokens c)) (some c) r

/-- The glob of a text. Where `openClasses` holds, a class that is not closed is no fault, and its
bracket stands for itself. -/
def Glob.ofText (openClasses : Bool) (text : String) : Except GlobFault Glob :=
  readGlob openClasses (text.toList.length + 1) ⟨[], [], false⟩ none text.toList

end CodeAtlas.Ignore
