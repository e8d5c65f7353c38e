import ChordOverlay.Failure
import ChordOverlay.Wire.Message

/-!
The nine bytes in front of every body: the tag of the message and the length of the body in hexadecimal.
-/

namespace ChordOverlay

/-- What stands in front of each body. -/
structure Header where
  kind : Kind
  length : Nat
deriving DecidableEq, Repr

namespace Header

/-- A header is a tag and eight digits. -/
def size : Nat := 9

/-- What can be wrong with the bytes of a header apart from the tag. -/
inductive Fault where
  | short (got : Nat)
  | notText
  | badLength (digits : String)

/-- What is wrong with a header, in words. -/
def Fault.message : Fault → String
  | .short got => "need 9 bytes, got " ++ toString got
  | .notText => "length is not ascii"
  | .badLength digits => "bad length " ++ Text.quoted digits

/-- The failure that a faulty header is to its reader. -/
def Fault.failure (fault : Fault) : Failure := .malformedHeader fault.message

/-- Eight hexadecimal digits of either case. -/
def readLength (digits : Bytes) : Except Fault Nat :=
  match String.fromUTF8? ⟨digits.toArray⟩ with
  | none => .error .notText
  | some text =>
    match text.toList.mapM (Numeral.digitValue? 16) with
    | some values => .ok (values.foldl (fun acc v => acc * 16 + v) 0)
    | none => .error (.badLength text)

/-- Reads a header from the front of `bytes`; a bad tag is reported before a bad length. -/
def read (bytes : Bytes) : Except Failure Header :=
  match bytes.take size with
  | tag :: digits =>
    if bytes.length < size then .error (Fault.short bytes.length).failure
    else
      match Kind.ofTag? tag with
      | none => .error (.unknownKind tag)
      | some kind =>
        match readLength digits with
        | .ok length => .ok ⟨kind, length⟩
        | .error fault => .error fault.failure
  | [] => .error (Fault.short 0).failure

/-- The length is written in upper case. -/
def toBytes (h : Header) : Bytes :=
  h.kind.tag :: ((Numeral.padded 16 8 h.length).map fun c => c.toUpper.toUInt8)

/-- A header with all its fields, as a text. -/
def describe (h : Header) : String :=
  "Header \x7b message_type: " ++ h.kind.name ++ ", length: " ++ toString h.length ++ " \x7d"

end Header

end ChordOverlay
