/-!
Decimal numbers of any size beside binary floating point of 64 bits: which of them have no finite form.
-/

namespace ChordOverlay.Decimal

/-- The smallest whole number that rounds to no finite 64-bit number. -/
def floatLimit : Nat := Nat.pow 2 1024 - Nat.pow 2 970

/-- Whether `mantissa * 10 ^ exponent` has no finite 64-bit form. -/
def overflows (mantissa : Nat) (exponent : Int) : Bool :=
  if mantissa = 0 then false
  else if exponent < 0 then
    floatLimit * Nat.pow 10 (min exponent.natAbs (Nat.toDigits 10 mantissa).length) ≤ mantissa
  else 400 < exponent || floatLimit ≤ mantissa * Nat.pow 10 exponent.toNat

/-- The number that decimal digits write. -/
def ofDigits (digits : List Char) : Nat := digits.foldl (fun acc d => acc * 10 + (d.toNat - '0'.toNat)) 0

end ChordOverlay.Decimal
