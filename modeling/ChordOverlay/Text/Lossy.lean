/-!
Text out of bytes that may not be text: what is no UTF-8 is replaced, one mark for every longest stretch that
could have begun a character.
-/

namespace ChordOverlay.Text

/-- A character under way: its bits so far, how many bytes are missing, and the bounds of the next one. -/
structure Pending where
  bits : Nat
  missing : Nat
  lo : Nat := 0x80
  hi : Nat := 0xbf
deriving DecidableEq, Repr

/-- The characters read so far, last one first, and the one under way. -/
structure Lossy where
  chars : List Char
  pending : Option Pending
deriving DecidableEq, Repr

namespace Lossy

/-- What stands in for bytes that are no text. -/
def mark : Char := '\uFFFD'

/--
What a first byte begins. Forms longer than needed, surrogates and whatever lies beyond the last character are
ruled out by the bounds of the second byte.
-/
def begin? (b : Nat) : Option Pending :=
  if b < 0xc2 then none
  else if b < 0xe0 then some { bits := b % 0x20, missing := 1 }
  else if b = 0xe0 then some { bits := 0, missing := 2, lo := 0xa0 }
  else if b = 0xed then some { bits := 0xd, missing := 2, hi := 0x9f }
  else if b < 0xf0 then some { bits := b % 0x10, missing := 2 }
  else if b = 0xf0 then some { bits := 0, missing := 3, lo := 0x90 }
  else if b < 0xf4 then some { bits := b % 8, missing := 3 }
  else if b = 0xf4 then some { bits := 4, missing := 3, hi := 0x8f }
  else none

/-- Reads a byte where a character begins. -/
def start (chars : List Char) (b : Nat) : Lossy :=
  if b < 0x80 then ⟨Char.ofNat b :: chars, none⟩
  else
    match begin? b with
    | some p => ⟨chars, some p⟩
    | none => ⟨mark :: chars, none⟩

/-- Reads one byte more. -/
def feed (s : Lossy) (byte : UInt8) : Lossy :=
  let b := byte.toNat
  match s.pending with
  | none => start s.chars b
  | some p =>
    if p.lo ≤ b && b ≤ p.hi then
      let bits := p.bits * 0x40 + b % 0x40
      if p.missing ≤ 1 then ⟨Char.ofNat bits :: s.chars, none⟩
      else ⟨s.chars, some { bits, missing := p.missing - 1 }⟩
    else start (mark :: s.chars) b

/-- What has been read, with a mark for a character that was cut off. -/
def finish (s : Lossy) : String :=
  String.ofList (if s.pending.isSome then mark :: s.chars else s.chars).reverse

end Lossy

/-- The text in a list of bytes. -/
def lossy (bytes : List UInt8) : String := (bytes.foldl Lossy.feed ⟨[], none⟩).finish

end ChordOverlay.Text
