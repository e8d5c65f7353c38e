import ChordOverlay.Console.Options

/-!
The help that a command gives on itself: what it does, how it is used, and its options in a column beside what
they do.
-/

namespace ChordOverlay.Console.Help

/-- How wide a line may be. -/
def width : Nat := 100

/-- Puts words on lines of at most `room` characters; `used` tells how full the line is. -/
def fill (room : Nat) (margin : String) : Nat → List String → String
  | _, [] => ""
  | 0, word :: rest => word ++ fill room margin word.length rest
  | used, word :: rest =>
    if room < used + 1 + word.length then "\n" ++ margin ++ word ++ fill room margin word.length rest
    else " " ++ word ++ fill room margin (used + 1 + word.length) rest

/-- The name of an option with its value. -/
def title (s : Switch) : String :=
  let front :=
    match s.short with
    | some letter => "-" ++ String.singleton letter ++ ", "
    | none => "    "
  let value := (s.value?.map fun v => " <" ++ v ++ ">").getD ""
  front ++ "--" ++ s.name ++ value

/-- What an option does, where else its value may come from, and what the value may be. -/
def explanation (environment : String → Option String) (s : Switch) : String :=
  let notes :=
    (s.envName?.map fun v => "[env: " ++ v ++ "=" ++ (environment v).getD "" ++ "]").toList
      ++ (s.default?.map fun d => "[default: " ++ d ++ "]").toList
      ++ (if s.choices.isEmpty then [] else ["[possible values: " ++ ", ".intercalate s.choices ++ "]"])
  " ".intercalate ((if s.about.isEmpty then [] else [s.about]) ++ notes)

/-- The text, with blanks behind it up to a width of `n`. -/
def padded (n : Nat) (text : String) : String := text ++ String.ofList (List.replicate (n - text.length) ' ')

/-- Entries in two columns. -/
def table (entries : List (String × String)) : String :=
  let column := (entries.map fun e => e.1.length).foldl max 0
  let margin := padded (column + 4) ""
  String.join (entries.map fun (name, text) =>
    "  " ++ padded (column + 2) name ++ fill (width - (column + 4)) margin 0 (text.splitOn " ") ++ "\n")

/-- The switch that asks for help. -/
def helpSwitch : Switch := { name := "help", short := some 'h', about := "Print help" }

/-- The switch that asks for the version. -/
def versionSwitch : Switch := { name := "version", short := some 'V', about := "Print version" }

/-- The options of a command, the general ones last. -/
def options (environment : String → Option String) (g : Grammar) : String :=
  let general := if g.hasVersion then [helpSwitch, versionSwitch] else [helpSwitch]
  "Options:\n" ++ table ((g.switches ++ general).map fun s => (title s, explanation environment s))

/-- The help of a command: what it does, how it is used, and sections that follow. -/
def page (about usage : String) (sections : List String) : String :=
  about ++ "\n\nUsage: " ++ usage ++ "\n\n" ++ "\n".intercalate sections

end ChordOverlay.Console.Help
