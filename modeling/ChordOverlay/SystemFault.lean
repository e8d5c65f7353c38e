import ChordOverlay.Failure
import ChordOverlay.Storage.Path

/-!
The faults of the machine underneath, by their numbers.
-/

namespace ChordOverlay.SystemFault

/-- The number of a fault as it is kept, and what is said about it. -/
def raw : IO.Error → Nat × String
  | .alreadyExists _ n text | .otherError n text | .resourceBusy n text | .resourceVanished n text
  | .unsupportedOperation n text | .hardwareFault n text | .unsatisfiedConstraints n text
  | .illegalOperation n text | .protocolError n text | .timeExpired n text | .interrupted _ n text
  | .noFileOrDirectory _ n text | .invalidArgument _ n text | .permissionDenied _ n text
  | .resourceExhausted _ n text | .inappropriateType _ n text | .noSuchThing _ n text => (n.toNat, text)
  | .unexpectedEof => (0, "unexpected end of file")
  | .userError text => (0, text)

/-- The number of a fault, which may be kept as its negative in 32 bits. -/
def number (kept : Nat) : Nat := if kept < Nat.pow 2 31 then kept else UInt32.size - kept

/-- What faults are called, except those that have a meaning of their own here. -/
def name? : Nat → Option String
  | 13 => some "Permission denied"
  | 22 => some "Invalid argument"
  | 28 => some "No space left on device"
  | 30 => some "Read-only file system"
  | 40 => some "Too many levels of symbolic links"
  | 98 => some "Address already in use"
  | 99 => some "Cannot assign requested address"
  | 101 => some "Network is unreachable"
  | 104 => some "Connection reset by peer"
  | 110 => some "Connection timed out"
  | 111 => some "Connection refused"
  | 113 => some "No route to host"
  | _ => none

/-- The number of a fault, and its text with the number in it. -/
def describe (e : IO.Error) : Nat × String :=
  let (kept, said) := raw e
  let n := number kept
  (n, if n = 0 then said else (name? n).getD said ++ " (os error " ++ toString n ++ ")")

/-- A fault of the network. -/
def toNetFault (e : IO.Error) : NetFault := .io (describe e).2

/-- A fault of an attempt to connect. -/
def ofConnect (target : Address) (e : IO.Error) : NetFault :=
  if (describe e).1 = 111 then .refused target else toNetFault e

/-- A fault of files and folders. -/
def toFileFault (e : IO.Error) : FileFault :=
  match describe e with
  | (2, _) => .missing
  | (17, _) => .exists
  | (20, _) => .notFolder
  | (21, _) => .isFolder
  | (36, _) => .nameTooLong
  | (_, text) => .other text

end ChordOverlay.SystemFault
