import ChordOverlay.Text.Numeral

/-!
IPv4 addresses and the ports on them, with their text forms.
-/

namespace ChordOverlay

/-- An IPv4 address, most significant octet first. -/
structure Ipv4 where
  a : UInt8
  b : UInt8
  c : UInt8
  d : UInt8
deriving DecidableEq, Inhabited, Repr

namespace Ipv4

/-- The address that stands for all interfaces. -/
def unspecified : Ipv4 := ⟨0, 0, 0, 0⟩

/-- The address of a host for itself. -/
def loopback : Ipv4 := ⟨127, 0, 0, 1⟩

/-- The four numbers in order. -/
def toBytes (ip : Ipv4) : List UInt8 := [ip.a, ip.b, ip.c, ip.d]

/-- Four decimal numbers with dots between them. -/
def display (ip : Ipv4) : String := ".".intercalate (ip.toBytes.map fun o => toString o.toNat)

/-- One octet: one to three decimal digits, no superfluous zero in front, at most 255. -/
def readOctet (digits : List Char) : Option UInt8 :=
  if digits.isEmpty || 3 < digits.length || !digits.all Char.isDigit then none
  else if digits.head? == some '0' && 1 < digits.length then none
  else
    match Numeral.readDigits 10 256 0 digits with
    | .ok n => some (UInt8.ofNat n)
    | .error _ => none

/-- Reads exactly what `display` writes. -/
def read (text : List Char) : Option Ipv4 :=
  match text.splitOn '.' with
  | [a, b, c, d] => do return ⟨← readOctet a, ← readOctet b, ← readOctet c, ← readOctet d⟩
  | _ => none

end Ipv4

/-- A port on a host. -/
structure Address where
  ip : Ipv4
  port : UInt16
deriving DecidableEq, Inhabited, Repr

namespace Address

/-- An address as it is written. -/
def display (addr : Address) : String := addr.ip.display ++ ":" ++ toString addr.port.toNat

/-- A port in decimal, with any number of zeros in front. -/
def readPort (digits : List Char) : Option UInt16 :=
  if digits.isEmpty || !digits.all Char.isDigit then none
  else
    match Numeral.readDigits 10 UInt16.size 0 digits with
    | .ok n => some (UInt16.ofNat n)
    | .error _ => none

/-- An address and a port with a colon between them. -/
def read (text : List Char) : Option Address :=
  match text.splitOn ':' with
  | [ip, port] => do return ⟨← Ipv4.read ip, ← readPort port⟩
  | _ => none

end Address

end ChordOverlay
