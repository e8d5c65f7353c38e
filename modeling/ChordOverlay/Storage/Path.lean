/-!
Paths of files and folders as text, and the steps they are made of. Slashes that follow each other count as
one, and so does a single dot between them, except at the very start.
-/

namespace ChordOverlay

/-- What can stand in the way of reaching, making or reading a file or folder. -/
inductive FileFault where
  | missing
  | exists
  | notFolder
  | isFolder
  | nameTooLong
  | nulByte
  | other (text : String)
deriving DecidableEq, Repr

/-- The text of a fault as systems give it, with its number. -/
def FileFault.message : FileFault → String
  | .missing => "No such file or directory (os error 2)"
  | .exists => "File exists (os error 17)"
  | .notFolder => "Not a directory (os error 20)"
  | .isFolder => "Is a directory (os error 21)"
  | .nameTooLong => "File name too long (os error 36)"
  | .nulByte => "file name contained an unexpected NUL byte"
  | .other text => text

/-- One step of a path. -/
inductive Part where
  /-- To the root of all folders. -/
  | root
  /-- Staying, which is a step only at the start of a path. -/
  | here
  /-- To the folder around. -/
  | up
  | name (name : String)
deriving DecidableEq, Repr

/-- A path, step by step. -/
structure Path where
  parts : List Part
  /-- A slash at the end says that a folder is meant. -/
  slashed : Bool
deriving DecidableEq, Repr

namespace Path

/-- What stands between the slashes of a path. -/
def pieces (path : String) : List (List Char) := path.toList.splitOn '/'

/-- Whether a piece is no step of its own. -/
def isIdle (piece : List Char) : Bool := piece == [] || piece == ['.']

/-- What a piece between two slashes stands for. -/
def Part.ofPiece (piece : List Char) : Part := if piece = ['.', '.'] then .up else .name (String.ofList piece)

/-- The path that a text spells, without what changes nothing. -/
def ofText (path : String) : Path :=
  let pieces := pieces path
  let steps := (pieces.filter fun p => !isIdle p).map Part.ofPiece
  let start : List Part :=
    match pieces with
    | [] :: _ :: _ => [.root]
    | ['.'] :: _ => [.here]
    | _ => []
  ⟨start ++ steps, 1 < pieces.length && isIdle (pieces.getLast?.getD [])⟩

/-- The path of the folder around, which the root and the empty path do not have. -/
def parent? (path : Path) : Option Path :=
  match path.parts.getLast? with
  | none | some .root => none
  | some _ => some ⟨path.parts.dropLast, false⟩

/-- How a part is written. -/
def Part.text : Part → String
  | .root => ""
  | .here => "."
  | .up => ".."
  | .name name => name

/-- A path as it is written. -/
def text (path : Path) : String :=
  if path.parts = [.root] then "/"
  else "/".intercalate (path.parts.map Part.text) ++ (if path.slashed then "/" else "")

/-- A path below another; at least one slash stands between the two. -/
def below (base rest : String) : String :=
  if base.isEmpty || base.endsWith "/" then base ++ rest else base ++ "/" ++ rest

/-- What follows a tilde that is the first step of a path, with idle pieces cut off its ends. -/
def afterTilde? (path : String) : Option String :=
  match pieces path with
  | ['~'] :: rest =>
    let rest := (rest.dropWhile isIdle).reverse.dropWhile isIdle
    some (String.ofList (['/'].intercalate rest.reverse))
  | _ => none

end Path

end ChordOverlay
