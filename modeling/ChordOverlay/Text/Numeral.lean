/-!
Whole numbers as text: printing in a base with leading zeros, and reading with the reason why a text is no number.
-/

namespace ChordOverlay.Numeral

/-- Why a text is not an unsigned number below a limit. -/
inductive Fault where
  | empty
  | badDigit
  | tooLarge
deriving DecidableEq, Repr

/-- What is wrong with a numeral, in words. -/
def Fault.message : Fault → String
  | .empty => "cannot parse integer from empty string"
  | .badDigit => "invalid digit found in string"
  | .tooLarge => "number too large to fit in target type"

/-- The value of a digit in bases up to sixteen, in either case. -/
def digitValue? (base : Nat) (c : Char) : Option Nat :=
  let v :=
    if '0' ≤ c ∧ c ≤ '9' then some (c.toNat - '0'.toNat)
    else if 'a' ≤ c ∧ c ≤ 'f' then some (c.toNat - 'a'.toNat + 10)
    else if 'A' ≤ c ∧ c ≤ 'F' then some (c.toNat - 'A'.toNat + 10)
    else none
  v.filter (· < base)

/-- Reads digits onto `acc`; at each digit a bad character is noticed before a value of `limit` or more. -/
def readDigits (base limit : Nat) (acc : Nat) : List Char → Except Fault Nat
  | [] => .ok acc
  | c :: rest =>
    match digitValue? base c with
    | none => .error .badDigit
    | some v =>
      let next := acc * base + v
      if next < limit then readDigits base limit next rest else .error .tooLarge

/-- Reads an unsigned number below `limit`; one leading plus is allowed before the digits. -/
def read (base limit : Nat) : List Char → Except Fault Nat
  | [] => .error .empty
  | ['+'] => .error .badDigit
  | '+' :: digits => readDigits base limit 0 digits
  | digits => readDigits base limit 0 digits

/-- The digits of `n` in lower case, with zeros in front up to `width`. -/
def padded (base width n : Nat) : List Char :=
  let digits := Nat.toDigits base n
  List.replicate (width - digits.length) '0' ++ digits

/-- A number in hexadecimal digits, at least `width` of them. -/
def hex (width n : Nat) : String := String.ofList (padded 16 width n)

/-- A number in hexadecimal digits and capitals, at least `width` of them. -/
def upperHex (width n : Nat) : String := String.ofList ((padded 16 width n).map Char.toUpper)

end ChordOverlay.Numeral
