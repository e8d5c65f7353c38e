/-!
The options of a command line: long and short names, values that stand behind an equals sign or in the next
word, and variables of the environment that stand in for options not given.
-/

namespace ChordOverlay.Console

/-- An option of a command. -/
structure Switch where
  name : String
  short : Option Char := none
  /-- The variable of the environment that stands in for it. -/
  envName? : Option String := none
  /-- What its value is called; an option without a value is given or not. -/
  value? : Option String := none
  /-- Whether a text is a value of it. -/
  accepts : String → Bool := fun _ => true
  about : String := ""
  /-- The value it has when it is not given. -/
  default? : Option String := none
  /-- The only values it takes, if they are few. -/
  choices : List String := []
  /-- A command cannot do without it. -/
  required : Bool := false

/-- Why a command line leads to no command. -/
inductive Halt where
  | misused
  | help
  | version
deriving DecidableEq, Repr

/-- The options given, with their values. -/
abbrev Given := List (String × String)

/-- What can be told from the look of a word. -/
inductive Word where
  | escape
  | long (name : String) (value : Option String)
  | short (letters : List Char)
  | plain

namespace Word

/-- Cuts at the first equals sign. -/
def cut (text : List Char) : Word :=
  match text.span (· ≠ '=') with
  | (name, _ :: value) => .long (String.ofList name) (some (String.ofList value))
  | (name, []) => .long (String.ofList name) none

/-- What a word on the command line is, by the dashes at its front. -/
def ofText (word : String) : Word :=
  match word.toList with
  | ['-', '-'] => .escape
  | '-' :: '-' :: rest => cut rest
  | '-' :: c :: rest => .short (c :: rest)
  | _ => .plain

end Word

/-- What the options of a command may be, and the words that end them because they name a command below it. -/
structure Grammar where
  switches : List Switch
  commands : List String := []
  hasVersion : Bool := false

namespace Grammar

variable (g : Grammar)

/-- The switch of this name. -/
def long? (name : String) : Option Switch := g.switches.find? fun s => s.name = name

/-- The switch of this letter. -/
def short? (letter : Char) : Option Switch := g.switches.find? fun s => s.short = some letter

/-- Takes an option with an acceptable value, once. -/
def take (given : Given) (s : Switch) (value : String) : Except Halt Given :=
  if (given.lookup s.name).isSome || !s.accepts value then .error .misused else .ok ((s.name, value) :: given)

/-- What an option needs after it has been named: its value may still be missing. -/
inductive Step where
  | taken (given : Given)
  | wants (s : Switch)

/-- Meets an option by its long name. -/
def meetLong (given : Given) (name : String) (value : Option String) : Except Halt Step :=
  if name = "help" then .error (if value.isNone then .help else .misused)
  else if name = "version" && g.hasVersion then .error (if value.isNone then .version else .misused)
  else
    match g.long? name with
    | none => .error .misused
    | some s =>
      match s.value?, value with
      | some _, some value => (take given s value).map .taken
      | some _, none => .ok (.wants s)
      | none, some _ => .error .misused
      | none, none => (take given s "").map .taken

/-- Meets options by their letters; the rest of the word is the value of the first one that has values. -/
def meetShort : Given → List Char → Except Halt Step
  | given, [] => .ok (.taken given)
  | given, letter :: rest =>
    if letter = 'h' then .error .help
    else if letter = 'V' && g.hasVersion then .error .version
    else
      match g.short? letter with
      | none => .error .misused
      | some s =>
        if s.value?.isNone then do meetShort (← take given s "") rest
        else
          match rest with
          | [] => .ok (.wants s)
          | '=' :: value => (take given s (String.ofList value)).map .taken
          | value => (take given s (String.ofList value)).map .taken

/-- Reads options up to the end or to the name of a command, which comes back with the words behind it. -/
def read : Given → List String → Except Halt (Given × Option (String × List String))
  | given, [] => .ok (given, none)
  | given, word :: rest => do
    let step ←
      match Word.ofText word with
      | .escape => if rest.isEmpty then return (given, none) else throw .misused
      | .plain => if g.commands.contains word then return (given, some (word, rest)) else throw .misused
      | .long name value => g.meetLong given name value
      | .short letters => g.meetShort given letters
    match step with
    | .taken given => read given rest
    | .wants s =>
      match rest with
      | [] => throw .misused
      | value :: rest =>
        match Word.ofText value with
        | .plain => read (← take given s value) rest
        | _ => throw .misused

/-- Adds the variables of the environment that stand in for options not given. -/
def addVariables (environment : String → Option String) (given : Given) : Except Halt Given :=
  g.switches.foldlM (fun given s =>
    match given.lookup s.name, s.envName?.bind environment with
    | none, some value => take given s value
    | _, _ => .ok given) given

/-- All options of a command: those in its words, those in the environment, and none required missing. -/
def readAll (environment : String → Option String) (words : List String) :
    Except Halt (Given × Option (String × List String)) := do
  let (given, below) ← g.read [] words
  let given ← g.addVariables environment given
  if g.switches.any fun s => s.required && (given.lookup s.name).isNone then throw .misused
  return (given, below)

end Grammar

end ChordOverlay.Console
