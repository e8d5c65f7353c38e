import ChordOverlay.Console.Config
import ChordOverlay.Console.Help

/-!
The commands of the program: one writes the file that configures a member, the other runs a member.
-/

namespace ChordOverlay.Console

/-- What the command line says about the member to run; what it leaves open is taken from the file. -/
structure RunOptions where
  name : Option String
  bindIp : Option Ipv4
  port : Option UInt16
  bootstrap : Option Address
  externalIp : Option Ipv4
  /-- The file is not read. -/
  noConfig : Bool
  config : String

/-- What the daemon is told to do. -/
inductive Command where
  | init (location name : String) (port : UInt16) (bootstrap : Option Address) (level : Option LogLevel)
  | run (options : RunOptions) (level : Option LogLevel)

/-- What a command line asks for. -/
inductive Request where
  | command (c : Command)
  /-- Only a text is wanted, such as help. -/
  | text (text : String)
  /-- The words make no command. -/
  | misused

namespace Command

/-- A port as a number with an optional sign. -/
def readPort (text : String) : Option UInt16 :=
  match text.toList with
  | '-' :: digits =>
    if !digits.isEmpty && digits.all (· == '0') then some 0 else none
  | digits => (Numeral.read 10 UInt16.size digits).toOption.map UInt16.ofNat

/-- An address of four numbers, if the text is one. -/
def readIp (text : String) : Option Ipv4 := Ipv4.read text.toList

/-- An address with its port, if the text is one. -/
def readAddress (text : String) : Option Address := Address.read text.toList

/-- The name the program goes by in its help. -/
def programName : String := "chordring"

/-- The package the program comes in, with its version. -/
def versionText : String := "chordring-node 0.1.0\n"

/-- What the program is for. -/
def summary : String :=
  "Chordring node daemon: loads configuration, sets up logging and runs a ring\nmember over TCP."

/-- What `init` is for. -/
def initSummary : String := "Writes a config file for a new node."

/-- What `run` is for. -/
def runSummary : String := "Creates or joins a ring and opens the message console."

/-- What `help` is for. -/
def helpSummary : String := "Print this message or the help of the given subcommand(s)"

/-- The switch for a port. -/
def portSwitch : Switch := { name := "port", value? := some "PORT", accepts := fun t => (readPort t).isSome }

/-- The switch for the member to join. -/
def bootstrapSwitch : Switch :=
  { name := "bootstrap", value? := some "BOOTSTRAP", accepts := fun t => (readAddress t).isSome }

/-- The options in front of the command. -/
def outer : Grammar where
  switches :=
    [{ name := "log-level", envName? := some "LOG_LEVEL", value? := some "LOG_LEVEL"
       accepts := fun t => (LogLevel.ofName? t).isSome, choices := LogLevel.all.map LogLevel.name
       about := "Overrides log_level of the config file" }]
  commands := ["init", "run", "help"]
  hasVersion := true

/-- The switches of `init`. -/
def initGrammar : Grammar where
  switches :=
    [{ name := "location", value? := some "LOCATION", default? := some Config.defaultPath
       about := "The location of config file" },
     { name := "name", value? := some "NAME", required := true
       about := "Node name, hashed into its ring id" },
     { portSwitch with default? := some "7000" },
     { bootstrapSwitch with about := "Ring member to join through" }]

/-- The switches of `run`, which may also be given in the environment. -/
def runGrammar : Grammar where
  switches :=
    [{ name := "name", envName? := some "NAME", value? := some "NAME"
       about := "Node name. If not provided, use name in config file" },
     { name := "bind-ip", envName? := some "BIND_IP", value? := some "BIND_IP"
       accepts := fun t => (readIp t).isSome
       about := "Listen ip. If not provided, use bind_ip in config file" },
     { portSwitch with
       short := some 'p', envName? := some "PORT"
       about := "Listen port. If not provided, use port in config file" },
     { bootstrapSwitch with
       short := some 'b', envName? := some "BOOTSTRAP"
       about := "Ring member to join through. If neither this nor the config file has one, a new ring is created" },
     { name := "external-ip", envName? := some "EXTERNAL_IP", value? := some "EXTERNAL_IP"
       accepts := fun t => (readIp t).isSome
       about := "Address advertised to other nodes" },
     { name := "no-config", about := "Ignore the config file and use defaults plus flags" },
     { name := "config", short := some 'c', envName? := some "CONFIG", value? := some "CONFIG"
       default? := some Config.defaultPath, about := "Config file location" }]

/-- The variables of the environment that matter. -/
def environmentNames : List String :=
  "HOME" :: (outer.switches ++ initGrammar.switches ++ runGrammar.switches).filterMap Switch.envName?

/-- The help on the whole program, on one command, or on help itself. -/
def help (environment : String → Option String) : List String → Request
  | [] =>
    .text (Help.page summary (programName ++ " [OPTIONS] <COMMAND>")
      ["Commands:\n" ++ Help.table [("init", initSummary), ("run", runSummary), ("help", helpSummary)],
       Help.options environment outer])
  | ["init"] =>
    .text (Help.page initSummary (programName ++ " init [OPTIONS] --name <NAME>")
      [Help.options environment initGrammar])
  | ["run"] =>
    .text (Help.page runSummary (programName ++ " run [OPTIONS]") [Help.options environment runGrammar])
  | ["help"] =>
    .text (Help.page helpSummary (programName ++ " help [COMMAND]...")
      ["Arguments:\n" ++ Help.table [("[COMMAND]...", "Print help for the subcommand(s)")]])
  | _ => .misused

/-- A command line that leads to no command still asks for something. -/
def ofHalt (environment : String → Option String) (topic : List String) : Halt → Request
  | .misused => .misused
  | .help => help environment topic
  | .version => .text versionText

/-- The command that the switches of `init` amount to. -/
def ofInit (level : Option LogLevel) (given : Given) : Command :=
  .init ((given.lookup "location").getD Config.defaultPath) ((given.lookup "name").getD "")
    (((given.lookup "port").bind readPort).getD 7000) ((given.lookup "bootstrap").bind readAddress) level

/-- The command that the switches of `run` amount to. -/
def ofRun (level : Option LogLevel) (given : Given) : Command :=
  .run {
    name := given.lookup "name"
    bindIp := (given.lookup "bind-ip").bind readIp
    port := (given.lookup "port").bind readPort
    bootstrap := (given.lookup "bootstrap").bind readAddress
    externalIp := (given.lookup "external-ip").bind readIp
    noConfig := (given.lookup "no-config").isSome
    config := (given.lookup "config").getD Config.defaultPath } level

/-- Reads the options of a command and turns them into the command. -/
def below (environment : String → Option String) (topic : String) (g : Grammar) (words : List String)
    (make : Given → Except Halt Command) : Request :=
  match g.readAll environment words with
  | .error halt => ofHalt environment [topic] halt
  | .ok (given, _) =>
    match make given with
    | .ok c => .command c
    | .error halt => ofHalt environment [topic] halt

/-- Reads a command line. The options in front are complete only after the command behind them has been read. -/
def ofWords (environment : String → Option String) (words : List String) : Request :=
  match outer.read [] words with
  | .error halt => ofHalt environment [] halt
  | .ok (_, none) => .misused
  | .ok (given, some (name, rest)) =>
    let level : Except Halt (Option LogLevel) :=
      (outer.addVariables environment given).map fun given => (given.lookup "log-level").bind LogLevel.ofName?
    match name with
    | "init" => below environment "init" initGrammar rest fun given => level.map fun level => ofInit level given
    | "run" => below environment "run" runGrammar rest fun given => level.map fun level => ofRun level given
    | _ => help environment rest

end Command

end ChordOverlay.Console
