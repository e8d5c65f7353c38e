import ChordOverlay.Text.Decimal
import ChordOverlay.Text.Numeral

/-!
Scalars of YAML documents: the ways to write one, and what the text of a plain one stands for.
-/

namespace ChordOverlay.Yaml

/-- How a scalar is written. -/
inductive Style where
  | plain
  | single
  | double
  | literal
  | folded
deriving DecidableEq, Repr

/-- Digits that begin with a superfluous zero, after a sign or not: these are no number. -/
def isPadded (text : List Char) : Bool :=
  let digits :=
    match text with
    | '-' :: rest | '+' :: rest => rest
    | _ => text
  match digits with
  | '0' :: d :: rest => (d :: rest).all Char.isDigit
  | _ => false

/-- The base a prefix announces, and the digits behind it. -/
def based? : List Char → Option (Nat × List Char)
  | '0' :: 'x' :: digits => some (16, digits)
  | '0' :: 'o' :: digits => some (8, digits)
  | '0' :: 'b' :: digits => some (2, digits)
  | _ => none

/-- Digits without a sign that write a number below `limit`. -/
def magnitude? (base limit : Nat) (digits : List Char) : Option Nat :=
  if digits.head? = some '+' then none else (Numeral.read base limit digits).toOption

/-- The number below `limit` that a plain scalar stands for. -/
def natural? (limit : Nat) (text : List Char) : Option Nat :=
  let digits :=
    match text with
    | '+' :: rest => rest
    | _ => text
  match based? digits with
  | some (base, digits) => magnitude? base limit digits
  | none => if isPadded text then none else magnitude? 10 limit digits

/-- Whether a plain scalar stands for a negative whole number of at most 128 bits. -/
def isNegative : List Char → Bool
  | '-' :: digits =>
    match based? digits with
    | some (base, digits) => (magnitude? base (Nat.pow 2 127 + 1) digits).isSome
    | none => !isPadded ('-' :: digits) && (magnitude? 10 (Nat.pow 2 127 + 1) digits).isSome
  | _ => false

/-- The value of an exponent with its letter; no exponent counts as zero. -/
def exponent? : List Char → Option Int
  | [] => some 0
  | 'e' :: rest | 'E' :: rest =>
    let (sign, digits) : Int × List Char :=
      match rest with
      | '+' :: digits => (1, digits)
      | '-' :: digits => (-1, digits)
      | digits => (1, digits)
    if digits.isEmpty || !digits.all Char.isDigit then none else some (sign * Decimal.ofDigits digits)
  | _ => none

/-- Whether a text without a sign is a decimal number with a finite 64-bit form. -/
def isDecimal (text : List Char) : Bool :=
  let (whole, rest) := text.span Char.isDigit
  let (places, rest) :=
    match rest with
    | '.' :: rest => rest.span Char.isDigit
    | rest => ([], rest)
  match exponent? rest with
  | none => false
  | some exponent =>
    !(whole.isEmpty && places.isEmpty)
      && !Decimal.overflows (Decimal.ofDigits (whole ++ places)) (exponent - places.length)

/-- A number beyond all others. -/
def isInfinity (text : List Char) : Bool := [".inf", ".Inf", ".INF"].contains (String.ofList text)

/-- What is no number at all. -/
def isNan (text : List Char) : Bool := [".nan", ".NaN", ".NAN"].contains (String.ofList text)

/-- Whether a plain scalar stands for a floating-point number. -/
def isFloat (text : List Char) : Bool :=
  match text with
  | '+' :: rest => isInfinity rest || isDecimal rest
  | '-' :: rest => isInfinity rest || isDecimal rest
  | _ => isInfinity text || isNan text || isDecimal text

/-- The words for nothing. -/
def isNull (text : List Char) : Bool := ["null", "Null", "NULL", "~"].contains (String.ofList text)

/-- One of the words for yes and no. -/
def isBool (text : List Char) : Bool :=
  ["true", "True", "TRUE", "false", "False", "FALSE"].contains (String.ofList text)

/-- Whether a plain scalar stands for something else than its own text, or might be taken to. -/
def isTyped (text : List Char) : Bool :=
  text.isEmpty || isNull text || isBool text || (natural? (Nat.pow 2 128) text).isSome || isNegative text
    || isPadded text || isFloat text

end ChordOverlay.Yaml
