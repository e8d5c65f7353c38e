import ChordOverlay.Console.Command
import ChordOverlay.Console.Line
import ChordOverlay.Failure
import ChordOverlay.Wire.Message

/-!
What the program does for a command, as a program over the requests it makes of its surroundings: files, the
console, and one member of a ring.
-/

namespace ChordOverlay.Console

/-- What whoever operates a member asks for. -/
inductive OperatorOp where
  | file (op : FileOp)
  /-- Prints a line, or prints a text as it is. -/
  | say (line : String)
  | show (text : String)
  /-- Prints a line among the errors. -/
  | complain (line : String)
  /-- The next line typed. -/
  | hear
  /-- Sets the member up. -/
  | listen (name : String) (ip : Ipv4) (port : UInt16) (settings : Settings)
  | create
  | join (bootstrap : Address)
  | route (target : RingId) (payload : Bytes)
  | leave

/-- What an operator can ask for, and what it is answered. -/
def OperatorOps : Interface where
  Op := OperatorOp
  Answer
    | .file op => FileOps.Answer op
    | .hear => Option String
    | .listen .. | .join _ | .route .. => Except Failure Peer
    | .create => Except Failure Unit
    | _ => Unit

/-- A program that operates a member. -/
abbrev Operator (α : Type) := Program OperatorOps α

namespace Operator

/-- Makes one request. -/
def perform (op : OperatorOp) : Operator (OperatorOps.Answer op) := Program.request (I := OperatorOps) op

/-- Prints a line. -/
def say (line : String) : Operator Unit := perform (.say line)

/-- Prints a line among the errors, marked as one. -/
def complain (text : String) : Operator Unit := perform (.complain ("Error: " ++ text))

/-- Works on files only. -/
def ofFiling {α : Type} (p : Filing α) : Operator α := p.compile fun op => perform (.file op)

/-- Ends the program with a complaint. -/
def giveUp (text : String) : Operator Nat := do
  complain text
  pure 1

/-- Handles one typed line: the message in it is sent to whoever owns the position of the name. -/
def handleLine (line : String) : Operator Unit :=
  if isBlankLine line.toList then pure ()
  else
    match Outgoing.read line.toList with
    | .error fault => complain (Fault.badLine fault).message
    | .ok out => do
      match (← perform (.route out.target (utf8 out.text)) : Except Failure Peer) with
      | .ok owner =>
        say ("sent to " ++ owner.display ++ " (owner of " ++ out.name ++ " " ++ out.target.display ++ ")")
      | .error e => complain e.message

/-- Handles lines until none comes any more, and at most `n`. -/
def converse : Nat → Operator Unit
  | 0 => pure ()
  | n + 1 => do
    match (← perform .hear : Option String) with
    | none => pure ()
    | some line =>
      handleLine line
      converse n

/-- More lines than anybody types. -/
def endless : Nat := Nat.pow 2 60

/-- Joins the ring of a member, or begins a new one. -/
def enter : Option Address → Operator (Except Failure Unit)
  | some bootstrap => do
    match (← perform (.join bootstrap) : Except Failure Peer) with
    | .error e => pure (.error e)
    | .ok successor =>
      say ("Joined via " ++ bootstrap.display ++ ", successor " ++ successor.display)
      pure (.ok ())
  | none => do
    match (← perform .create : Except Failure Unit) with
    | .error e => pure (.error e)
    | .ok () =>
      say "Created a new ring"
      pure (.ok ())

/-- The configuration to start from: the file, or nothing but a name. -/
def configOf (home : Option String) (options : RunOptions) : Operator (Except String Config) :=
  if options.noConfig then
    match options.name with
    | some name => pure (.ok { name })
    | none => pure (.error "--name is required with --no-config")
  else do
    match ← ofFiling (Config.load home options.config) with
    | .ok c => pure (.ok c)
    | .error fault => pure (.error fault.message)

/-- Runs a member: options win over the configuration. -/
def run (home : Option String) (options : RunOptions) : Operator Nat := do
  match ← configOf home options with
  | .error text => giveUp text
  | .ok c =>
    let name := options.name.getD c.name
    let settings := { c.settings with externalIp := options.externalIp <|> c.settings.externalIp }
    let ip := options.bindIp.getD c.bindIp
    let port := options.port.getD c.port
    match (← perform (.listen name ip port settings) : Except Failure Peer) with
    | .error e => giveUp e.message
    | .ok self =>
      say ("Node: " ++ name ++ " (" ++ self.display ++ ")")
      match ← enter (options.bootstrap <|> c.bootstrap) with
      | .error e => giveUp e.message
      | .ok () =>
        say "Enter `<name> <message>` to send, Ctrl-D to quit"
        converse endless
        perform .leave
        pure 0

/-- Writes the file that configures a member. -/
def init (home : Option String) (location : String) (c : Config) : Operator Nat := do
  match ← ofFiling (c.save home location) with
  | .error fault => giveUp fault.message
  | .ok place =>
    say ("Your config file has saved to: " ++ place)
    pure 0

/-- The whole program; its answer is the exit code. -/
def main (environment : String → Option String) (words : List String) : Operator Nat :=
  let home := environment "HOME"
  match Command.ofWords environment words with
  | .misused => pure 2
  | .text text => do
    perform (.show text)
    pure 0
  | .command (.init location name port bootstrap level) =>
    init home location { name, port, bootstrap, logLevel := level.getD .info }
  | .command (.run options _) => run home options

end Operator

end ChordOverlay.Console
