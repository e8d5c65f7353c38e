import ChordOverlay.Text.UpperCase

/-!
How much a member tells about itself while it runs.
-/

namespace ChordOverlay.Console

/-- How much is logged. -/
inductive LogLevel where
  | debug
  | info
  | warn
  | error
  | trace
deriving DecidableEq, Repr

namespace LogLevel

/-- All levels there are. -/
def all : List LogLevel := [.debug, .info, .warn, .error, .trace]

/-- The name in settings and on the command line, where it is written in lower case only. -/
def name : LogLevel → String
  | .debug => "debug"
  | .info => "info"
  | .warn => "warn"
  | .error => "error"
  | .trace => "trace"

/-- The level of this name. -/
def ofName? (name : String) : Option LogLevel := all.find? fun level => level.name = name

/-- The name of the level in capitals. -/
def title (level : LogLevel) : String := Text.upperCase level.name

/-- Reads a name in any mixture of cases; a text that is none comes back in capitals. -/
def read (text : String) : Except String LogLevel :=
  let capitals := Text.upperCase text
  match all.find? fun level => level.title = capitals with
  | some level => .ok level
  | none => .error capitals

end LogLevel

end ChordOverlay.Console
