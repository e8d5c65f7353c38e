import ChordOverlay.Console.Operator
import ChordOverlay.Host.Station
import ChordOverlay.Member.Join
import ChordOverlay.Storage.Disk

/-!
The program at a terminal: its requests are met by the disk, the console and the network of this machine.
-/

namespace ChordOverlay.Console

/-- What the program keeps between two requests: the member, once it has been set up. -/
structure Terminal where
  station : IO.Ref Station

namespace Terminal

/-- Prints a text at once. -/
def print (text : String) : IO Unit := do
  IO.print text
  (← IO.getStdout).flush

/-- The next line typed, without its end. -/
def hear : IO (Option String) := do
  let line ← (← IO.getStdin).getLine
  if line.isEmpty then return none
  return some (String.ofList (chomp line.toList))

/-- Carries out a dialog of the member and waits for its end. -/
def talk {α : Type} (t : Terminal) (dialog : Settings → Dialog α) : IO α := do
  let station ← t.station.get
  let m ← station.member.get
  (station.carryOut (dialog m.settings)).block

/-- The rounds of the member begin when it has become part of a ring. -/
def settle {α : Type} (t : Terminal) : Except Failure α → IO (Except Failure α)
  | .error e => return .error e
  | .ok a => do
    (← t.station.get).keepAll.block
    return .ok a

/-- Meets one request. -/
def meet (t : Terminal) : (op : OperatorOp) → IO (OperatorOps.Answer op)
  | .file op => Disk.meet op
  | .say line => print (line ++ "\n")
  | .show text => print text
  | .complain line => IO.eprintln line
  | .hear => hear
  | .listen name ip port settings => do
    match ← Station.listen name ip port settings with
    | .error e => return .error e
    | .ok (station, self) =>
      t.station.set station
      return .ok self
  | .create => do
    let station ← t.station.get
    let created ← station.member.modifyGet fun m =>
      match m.create with
      | .ok m => (.ok (), m)
      | .error e => (.error e, m)
    t.settle created
  | .join bootstrap => do
    t.settle (← t.talk (Activity.join bootstrap).toDialog)
  | .route target payload => t.talk fun settings => Dialog.route settings target payload
  | .leave => t.talk fun _ => Dialog.shutdown

/-- Carries a program out. -/
def run {α : Type} (t : Terminal) : Operator α → IO α
  | .done a => pure a
  | .ask op next => do
    let answer ← t.meet op
    t.run (next answer)

end Terminal

/-- The variables of the environment that are set. -/
def variablesSet : IO (List (String × String)) :=
  Command.environmentNames.filterMapM fun name => do
    return (← IO.getEnv name).map fun value => (name, value)

end ChordOverlay.Console

open ChordOverlay Console in

/-- Runs the program on the arguments and the environment it is given. -/
def main (args : List String) : IO UInt32 := do
  let environment ← variablesSet
  let terminal : Terminal := ⟨← IO.mkRef (← Station.ofMember default)⟩
  try
    return (← terminal.run (Operator.main (fun name => environment.lookup name) args)).toUInt32
  catch e =>
    IO.eprintln ("Error: " ++ toString e)
    return 1
