import ChordOverlay.Console.Fault
import ChordOverlay.Ring.Name
import ChordOverlay.Text.Blank

/-!
The lines typed at the console: the name of whom to reach, blanks, and the message.
-/

namespace ChordOverlay.Console

/-- A message to send: the name typed, the position the name stands for, and the text. -/
structure Outgoing where
  name : String
  target : RingId
  text : String
deriving DecidableEq, Repr

/-- Reads a line: the first word is the name and the rest, without blanks around it, the message. -/
def Outgoing.read (line : List Char) : Except LineFault Outgoing :=
  let line := Text.trim line
  match line.span fun c => !Text.isBlank c with
  | (_, []) => .error (.noMessage (String.ofList line))
  | (name, _ :: rest) =>
    let text := Text.trimStart rest
    if text.isEmpty then .error .emptyMessage
    else .ok ⟨String.ofList name, .ofName (String.ofList name), String.ofList text⟩

/-- Cuts off the end of a line, which may have a carriage return in it. -/
def chomp (line : List Char) : List Char :=
  match line.reverse with
  | '\n' :: '\r' :: rest | '\n' :: rest => rest.reverse
  | _ => line

/-- Whether a line holds nothing but blanks. -/
def isBlankLine (line : List Char) : Bool := line.all Text.isBlank

end ChordOverlay.Console
