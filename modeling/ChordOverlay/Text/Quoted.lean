import ChordOverlay.Text.Hidden
import ChordOverlay.Text.Numeral

/-!
Texts and byte strings between double quotes, as messages show them.
-/

namespace ChordOverlay.Text

/-- How one character stands between double quotes; single quotes stand for themselves. -/
def quotedChar (c : Char) : List Char :=
  match c with
  | '\x00' => ['\\', '0']
  | '\t' => ['\\', 't']
  | '\r' => ['\\', 'r']
  | '\n' => ['\\', 'n']
  | '\\' => ['\\', '\\']
  | '"' => ['\\', '"']
  | _ =>
    if c.toNat < 0x20 || c.toNat == 0x7f || (0x80 ≤ c.toNat && isHidden c) then
      ['\\', 'u', '\x7b'] ++ Nat.toDigits 16 c.toNat ++ ['\x7d']
    else [c]

/-- A text between double quotes, with every character visible. -/
def quoted (text : String) : String :=
  String.ofList ('"' :: (text.toList.flatMap quotedChar ++ ['"']))

/-- How one byte stands in a quoted byte string: ASCII as itself where it is visible. -/
def quotedByte (b : UInt8) : List Char :=
  if b == 0 then ['\\', '0']
  else if b == 9 then ['\\', 't']
  else if b == 10 then ['\\', 'n']
  else if b == 13 then ['\\', 'r']
  else if b == 0x22 then ['\\', '"']
  else if b == 0x5c then ['\\', '\\']
  else if 0x20 ≤ b && b < 0x7f then [Char.ofNat b.toNat]
  else ['\\', 'x'] ++ Numeral.padded 16 2 b.toNat

/-- A byte string between double quotes, marked with a leading `b`. -/
def quotedBytes (bytes : List UInt8) : String :=
  String.ofList ('b' :: '"' :: (bytes.flatMap quotedByte ++ ['"']))

end ChordOverlay.Text
