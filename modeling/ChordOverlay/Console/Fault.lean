import ChordOverlay.Storage.Path
import ChordOverlay.Text.Quoted

/-!
What stops the console program, with the number and the text of each fault.
-/

namespace ChordOverlay.Console

/-- Why a typed line is no message. -/
inductive LineFault where
  /-- The line holds fewer than two words. -/
  | noMessage (line : String)
  | emptyMessage
deriving DecidableEq, Repr

/-- What is said about a line that cannot be taken. -/
def LineFault.message : LineFault → String
  | .noMessage line => "expected `<name> <message>`, got " ++ Text.quoted line
  | .emptyMessage => "empty message"

/-- What can go wrong at the console. -/
inductive Fault where
  | unknownLevel (text : String)
  | badLine (fault : LineFault)
  | createFile (fault : FileFault)
  | openFile (fault : FileFault)
  | noHome
  | noParent
  | badSettings
deriving DecidableEq, Repr

namespace Fault

/-- What is said about a fault. -/
def message : Fault → String
  | .unknownLevel text => "Invalid logging level: " ++ text
  | .badLine fault => "Invalid input: " ++ fault.message
  | .createFile fault => "Create File Error: " ++ fault.message
  | .openFile fault => "Open File Error: " ++ fault.message
  | .noHome => "Cannot find home directory"
  | .noParent => "Cannot find parent directory"
  | .badSettings => "Serde yaml error"

/-- The number a fault is known by. -/
def code : Fault → Nat
  | .unknownLevel _ => 100
  | .badLine _ => 102
  | .createFile _ => 200
  | .openFile _ => 201
  | .noHome => 202
  | .noParent => 203
  | .badSettings => 300

end Fault

end ChordOverlay.Console
