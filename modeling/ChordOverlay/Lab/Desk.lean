import ChordOverlay.Console.Operator
import ChordOverlay.Host.Client
import ChordOverlay.Host.Leave
import ChordOverlay.Member.Join

/-!
The program at a desk without a network: its files are held in memory, the lines to be typed are written down
beforehand, and no other host can be reached.
-/

namespace ChordOverlay

/-- What a host without a network says to every call. -/
def unreachable : NetFault := .io "Network is unreachable (os error 101)"

/-- Carries a dialog out for a member that reaches nobody. -/
def Dialog.runAlone {α : Type} : Dialog α → Member → Member × α
  | .done a, m => (m, a)
  | .ask op next, m =>
    match op with
    | .look => runAlone (next m) m
    | .store m => runAlone (next ()) m
    | .app => runAlone (next none) m
    | .note _ => runAlone (next ()) m
    | .leave => runAlone (next ()) m
    | .clock => runAlone (next (0 : Nat)) m
    | .pause _ => runAlone (next ()) m
    | .connect _ => runAlone (next (.error unreachable)) m
    | .push .. => runAlone (next .broken) m
    | .take .. => runAlone (next .ended) m
    | .finish _ => runAlone (next ()) m
    | .release _ => runAlone (next ()) m

/-- A member at work for somebody at a desk, with all that is typed and printed. -/
structure Desk where
  files : Files
  /-- The lines not typed yet. -/
  typed : List String
  /-- What has been printed. -/
  printed : String
  /-- The lines among the errors. -/
  complaints : List String
  member : Member

namespace Desk

/-- The port a member gets that asks for any. -/
def anyPort : UInt16 := 40000

/-- Sets a member up; where there is no network, no address is foreign. -/
def listen (d : Desk) (name : String) (ip : Ipv4) (port : UInt16) (s : Settings) : Desk × Peer :=
  let self : Peer := ⟨.ofName name, s.advertisedIp ip, if port = 0 then anyPort else port⟩
  ({ d with member := .fresh self s }, self)

/-- Carries a dialog of the member out. -/
def talk {α : Type} (d : Desk) (dialog : Dialog α) : Desk × α :=
  let (member, a) := dialog.runAlone d.member
  ({ d with member }, a)

/-- Begins a ring, if the member is in none. -/
def create (d : Desk) : Desk × Except Failure Unit :=
  match d.member.create with
  | .ok member => ({ d with member }, .ok ())
  | .error e => (d, .error e)

/-- Meets one request. -/
def meet (d : Desk) : (op : Console.OperatorOp) → Desk × Console.OperatorOps.Answer op
  | .file op =>
    let (files, answer) := d.files.meet op
    ({ d with files }, answer)
  | .say line => ({ d with printed := d.printed ++ line ++ "\n" }, ())
  | .show text => ({ d with printed := d.printed ++ text }, ())
  | .complain line => ({ d with complaints := d.complaints ++ [line] }, ())
  | .hear => ({ d with typed := d.typed.tail }, d.typed.head?)
  | .listen name ip port s =>
    let (d, self) := d.listen name ip port s
    (d, .ok self)
  | .create => d.create
  | .join bootstrap => d.talk ((Activity.join bootstrap).toDialog d.member.settings)
  | .route target payload => d.talk (Dialog.route d.member.settings target payload)
  | .leave => d.talk Dialog.shutdown

/-- Carries a program out. -/
def run {α : Type} : Console.Operator α → Desk → Desk × α
  | .done a, d => (d, a)
  | .ask op next, d =>
    let (d, answer) := d.meet op
    run (next answer) d

/-- A desk with files, and a text to be typed line by line. -/
def ofText (files : Files) (typed : String) : Desk :=
  ⟨files, linesOf typed.toList, "", [], default⟩
where
  /-- The lines of a text, without their ends. -/
  linesOf (text : List Char) : List String :=
    let pieces := text.splitOn '\n'
    let ended := pieces.dropLast.map fun line => Console.chomp (line ++ ['\n'])
    (ended ++ (pieces.getLast?.filter fun line => !line.isEmpty).toList).map String.ofList

end Desk

end ChordOverlay
