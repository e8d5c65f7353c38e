import ChordOverlay.Program
import ChordOverlay.Ring.Name
import ChordOverlay.Storage.Path

/-!
Reading and writing files: the requests a program may make of a file system, and a file system held in memory
that meets them.
-/

namespace ChordOverlay

/-- The requests of a program that works with files. -/
inductive FileOp where
  | isFolder (path : Path)
  | makeFolder (path : Path)
  | write (path : Path) (text : String)
  | read (path : Path)
deriving Repr

/-- Reading gives nothing when there is something to open but no text in it, as with a folder. -/
def FileOps : Interface where
  Op := FileOp
  Answer
    | .isFolder _ => Bool
    | .makeFolder _ | .write .. => Except FileFault Unit
    | .read _ => Except FileFault (Option String)

/-- A program that works on files. -/
abbrev Filing (α : Type) := Program FileOps α

namespace Filing

/-- Makes one request. -/
def perform (op : FileOp) : Filing (FileOps.Answer op) := Program.request (I := FileOps) op

/-- Makes a folder and whatever is missing around it; the steps of its path are given last step first. -/
def makeFolders : List Part → Filing (Except FileFault Unit)
  | [] => pure (.ok ())
  | last :: around => do
    let path : Path := ⟨(last :: around).reverse, false⟩
    let settle (fault : FileFault) : Filing (Except FileFault Unit) := do
      let isFolder : Bool ← perform (.isFolder path)
      pure (if isFolder then .ok () else .error fault)
    match (← perform (.makeFolder path) : Except FileFault Unit) with
    | .ok () => pure (.ok ())
    | .error .missing =>
      match ← makeFolders around with
      | .error fault => pure (.error fault)
      | .ok () =>
        match (← perform (.makeFolder path) : Except FileFault Unit) with
        | .ok () => pure (.ok ())
        | .error fault => settle fault
    | .error fault => settle fault

end Filing

/-- Files and folders in memory. Locations are lists of names, and the empty one is the root folder. -/
structure Files where
  /-- What stands where: a folder, or a file with its text. -/
  entries : List (List String × Option String)
  /-- Where paths start that do not start at the root. -/
  home : List String
deriving Repr

namespace Files

/-- What stands at a location. -/
inductive Entry where
  | folder
  | file (text : String)

/-- What is at a place; the root is a folder at all times. -/
def entry? (f : Files) (location : List String) : Option Entry :=
  if location = [] then some .folder
  else (f.entries.lookup location).map fun
    | none => .folder
    | some text => .file text

/-- Takes one step from a location, which must be a folder to step on from. -/
def step (f : Files) (location : List String) (part : Part) : Except FileFault (List String) :=
  match part with
  | .root => .ok []
  | _ =>
    match f.entry? location with
    | none => .error .missing
    | some (.file _) => .error .notFolder
    | some .folder =>
      match part with
      | .up => .ok location.dropLast
      | .name name =>
        if name.contains '\x00' then .error .nulByte
        else if 255 < (utf8 name).length then .error .nameTooLong
        else .ok (location ++ [name])
      | _ => .ok location

/-- Where a path leads; what stands there is not looked at. -/
def locate (f : Files) (path : Path) : Except FileFault (List String) :=
  if path.parts = [] then .error .missing else path.parts.foldlM f.step f.home

/-- Puts something at a place, instead of what was there. -/
def put (f : Files) (location : List String) (entry : Option String) : Files :=
  { f with entries := (location, entry) :: f.entries.filter fun e => e.1 ≠ location }

/-- Whether a folder is there. -/
def isFolder (f : Files) (path : Path) : Bool :=
  match (f.locate path).map f.entry? with
  | .ok (some .folder) => true
  | _ => false

/-- A folder more, where nothing is yet. -/
def makeFolder (f : Files) (path : Path) : Except FileFault Files := do
  let location ← f.locate path
  match f.entry? location with
  | some _ => throw .exists
  | none => return f.put location none

/-- Puts a text into a file, which is there afterwards if it was not. -/
def write (f : Files) (path : Path) (text : String) : Except FileFault Files := do
  let location ← f.locate path
  if path.slashed then throw .isFolder
  match f.entry? location with
  | some .folder => throw .isFolder
  | _ => return f.put location (some text)

/-- The text of a file, or nothing for a folder. -/
def read (f : Files) (path : Path) : Except FileFault (Option String) := do
  let location ← f.locate path
  match f.entry? location with
  | none => throw .missing
  | some .folder => return none
  | some (.file text) => if path.slashed then throw .notFolder else return some text

/-- Keeps the files as they were after a fault. -/
def keep (f : Files) : Except FileFault Files → Files × Except FileFault Unit
  | .ok f => (f, .ok ())
  | .error fault => (f, .error fault)

/-- Meets one request. -/
def meet (f : Files) : (op : FileOp) → Files × FileOps.Answer op
  | .isFolder path => (f, f.isFolder path)
  | .makeFolder path => f.keep (f.makeFolder path)
  | .write path text => f.keep (f.write path text)
  | .read path => (f, f.read path)

/-- Carries a program out. -/
def run {α : Type} : Filing α → Files → Files × α
  | .done a, f => (f, a)
  | .ask op next, f =>
    let (f, answer) := f.meet op
    run (next answer) f

/-- A file system that holds one folder and the folders around it. -/
def onlyFolder (location : List String) : Files :=
  ⟨(List.range location.length).map fun n => (location.take (n + 1), none), location⟩

end Files

end ChordOverlay
