import ChordOverlay.Text.Decimal
import ChordOverlay.Text.Numeral

/-!
JSON documents as far as they can be read. A document that breaks off still yields the values in front of the
break, so that whoever wants typed values meets the first thing wrong in the order of the text.
-/

namespace ChordOverlay.Json

/-- What can be wrong with a document. -/
inductive Fault where
  /-- It is not JSON. -/
  | malformed
  /-- It ends too early. -/
  | cutShort
  /-- It is JSON, but not of the shape or range wanted. -/
  | mismatch
deriving DecidableEq, Repr

/-- A number as far as whole numbers care. -/
inductive Number where
  | natural (n : Nat)
  | negative (n : Nat)
  | fractional
deriving DecidableEq, Repr

/-- A document; parts that cannot be read hold the fault, and so does a list or record that does not end. -/
inductive Tree where
  | null
  | bool (b : Bool)
  | number (n : Except Fault Number)
  | text (t : Except Fault String)
  | list (items : List Tree) (fault : Option Fault)
  | record (fields : List (Except Fault String × Tree)) (fault : Option Fault)
  | broken (fault : Fault)
deriving Inhabited

/-- White space between the parts of a value. -/
def isSpace (c : Char) : Bool := c == ' ' || c == '\n' || c == '\t' || c == '\r'

/-- The text behind the white space at its front. -/
def skipSpace (cs : List Char) : List Char := cs.dropWhile isSpace

/-- Goes past the letters of a literal. -/
def literal : List Char → List Char → Except Fault (List Char)
  | [], cs => .ok cs
  | _ :: _, [] => .error .cutShort
  | w :: word, c :: cs => if w = c then literal word cs else .error .malformed

/-- Four hexadecimal digits. -/
def hexUnit : List Char → Except Fault (Nat × List Char)
  | a :: b :: c :: d :: rest =>
    match [a, b, c, d].mapM (Numeral.digitValue? 16) with
    | some vs => .ok (vs.foldl (fun acc v => acc * 16 + v) 0, rest)
    | none => .error .malformed
  | _ => .error .cutShort

/-- The first half of a character beyond the basic plane. -/
def isHighSurrogate (n : Nat) : Bool := 0xd800 ≤ n && n < 0xdc00

/-- The second half of a character beyond the basic plane. -/
def isLowSurrogate (n : Nat) : Bool := 0xdc00 ≤ n && n < 0xe000

/-- The second half of a surrogate pair, if it follows. -/
def lowSurrogate : List Char → Except Fault Nat
  | '\\' :: 'u' :: rest =>
    match hexUnit rest with
    | .ok (n, _) => if isLowSurrogate n then .ok n else .error .malformed
    | .error f => .error f
  | [] | ['\\'] => .error .cutShort
  | _ => .error .malformed

/-- The character of a one-letter escape. -/
def simpleEscape? : Char → Option Char
  | '"' => some '"'
  | '\\' => some '\\'
  | '/' => some '/'
  | 'b' => some '\x08'
  | 'f' => some '\x0c'
  | 'n' => some '\n'
  | 'r' => some '\r'
  | 't' => some '\t'
  | _ => none

/--
Reads the rest of a text after its opening quote: the characters, and what follows the closing quote. A
surrogate without its partner spoils the text but not what follows it.
-/
def textIn : Nat → List Char → Except Fault (List Char) → Except Fault String × Except Fault (List Char)
  | 0, _, acc => stop acc .cutShort
  | n + 1, cs, acc =>
    match cs with
    | [] => stop acc .cutShort
    | '"' :: rest => (acc.map fun cs => String.ofList cs.reverse, .ok rest)
    | '\\' :: 'u' :: rest =>
      match hexUnit rest with
      | .error f => stop acc f
      | .ok (unit, rest) =>
        if isLowSurrogate unit then textIn n rest (spoil acc .malformed)
        else if isHighSurrogate unit then
          match lowSurrogate rest with
          | .ok low =>
            textIn n (rest.drop 6) (push acc (Char.ofNat (0x10000 + (unit - 0xd800) * 0x400 + (low - 0xdc00))))
          | .error f => textIn n rest (spoil acc f)
        else textIn n rest (push acc (Char.ofNat unit))
    | '\\' :: c :: rest =>
      match simpleEscape? c with
      | some c => textIn n rest (push acc c)
      | none => stop acc .malformed
    | ['\\'] => stop acc .cutShort
    | c :: rest => if c.toNat < 0x20 then stop acc .malformed else textIn n rest (push acc c)
where
  push (acc : Except Fault (List Char)) (c : Char) : Except Fault (List Char) := acc.map (c :: ·)
  spoil (acc : Except Fault (List Char)) (f : Fault) : Except Fault (List Char) :=
    match acc with
    | .ok _ => .error f
    | .error f => .error f
  stop (acc : Except Fault (List Char)) (f : Fault) : Except Fault String × Except Fault (List Char) :=
    match acc with
    | .ok _ => (.error f, .error f)
    | .error first => (.error first, .error f)

/-- A text up to its closing quote; the opening one has been read. -/
def text (cs : List Char) : Except Fault String × Except Fault (List Char) :=
  textIn (cs.length + 1) cs (.ok [])

/-- At least one digit, and what follows the digits. -/
def digits (cs : List Char) : Except Fault (List Char × List Char) :=
  match cs.span Char.isDigit with
  | ([], []) => .error .cutShort
  | ([], _) => .error .malformed
  | r => .ok r

/-- Reads a fraction and an exponent behind the whole digits. -/
def fraction (whole : List Char) (cs : List Char) : Except Fault (Option (Nat × Int) × List Char) := do
  let (places, cs) ←
    match cs with
    | '.' :: cs => do
      let (places, cs) ← digits cs
      pure (some places, cs)
    | cs => pure (none, cs)
  let mantissa := Decimal.ofDigits (whole ++ places.getD [])
  let shift : Int := -(places.getD []).length
  match cs with
  | 'e' :: cs | 'E' :: cs =>
    let (sign, cs) : Int × List Char :=
      match cs with
      | '+' :: cs => (1, cs)
      | '-' :: cs => (-1, cs)
      | cs => (1, cs)
    let (power, cs) ← digits cs
    return (some (mantissa, shift + sign * Decimal.ofDigits power), cs)
  | cs => return (places.map fun _ => (mantissa, shift), cs)

/-- Reads a number without its sign. -/
def unsigned (isNegative : Bool) (cs : List Char) : Except Fault (Except Fault Number × List Char) := do
  let (whole, cs) ← digits cs
  if whole.head? = some '0' ∧ whole.length ≠ 1 then throw .malformed
  let (exact, cs) ← fraction whole cs
  let value : Except Fault Number :=
    match exact with
    | some (mantissa, exponent) => if Decimal.overflows mantissa exponent then .error .malformed else .ok .fractional
    | none =>
      let n := Decimal.ofDigits whole
      if isNegative then .ok (if n = 0 then .fractional else .negative n)
      else if n < UInt64.size then .ok (.natural n)
      else if Decimal.overflows n 0 then .error .malformed
      else .ok .fractional
  return (value, cs)

/-- A tree, and what follows it unless it breaks off inside. -/
abbrev Parsed := Tree × Except Fault (List Char)

/-- A number, of which the sign has been read. -/
def number (isNegative : Bool) (cs : List Char) : Parsed :=
  match unsigned isNegative cs with
  | .ok (value, rest) => (.number value, .ok rest)
  | .error f => (.broken f, .error f)

/-- One of the words that stand for a value of their own. -/
def word (tree : Tree) (letters : String) (cs : List Char) : Parsed :=
  match literal letters.toList cs with
  | .ok rest => (tree, .ok rest)
  | .error f => (.broken f, .error f)

mutual

/-- Reads one value; `n` bounds the nesting and the number of entries. -/
def value : Nat → List Char → Parsed
  | 0, _ => (.broken .cutShort, .error .cutShort)
  | n + 1, cs =>
    match skipSpace cs with
    | [] => (.broken .cutShort, .error .cutShort)
    | 'n' :: cs => word .null "ull" cs
    | 't' :: cs => word (.bool true) "rue" cs
    | 'f' :: cs => word (.bool false) "alse" cs
    | '"' :: cs =>
      let (t, rest) := text cs
      (.text t, rest)
    | '-' :: cs => number true cs
    | '[' :: cs =>
      match skipSpace cs with
      | ']' :: cs => (.list [] none, .ok cs)
      | [] => (.list [] (some .cutShort), .error .cutShort)
      | cs =>
        let (items, rest) := entries n cs
        (.list items (faultOf rest), rest)
    | '\x7b' :: cs =>
      match skipSpace cs with
      | '\x7d' :: cs => (.record [] none, .ok cs)
      | [] => (.record [] (some .cutShort), .error .cutShort)
      | cs =>
        let (fields, rest) := members n cs
        (.record fields (faultOf rest), rest)
    | c :: cs => if c.isDigit then number false (c :: cs) else (.broken .malformed, .error .malformed)

/-- Reads the items of a list up to its end. -/
def entries : Nat → List Char → List Tree × Except Fault (List Char)
  | 0, _ => ([], .error .cutShort)
  | n + 1, cs =>
    match value n cs with
    | (t, .error f) => ([t], .error f)
    | (t, .ok rest) =>
      match skipSpace rest with
      | ']' :: rest => ([t], .ok rest)
      | ',' :: rest =>
        match skipSpace rest with
        | ']' :: _ => ([t], .error .malformed)
        | [] => ([t], .error .cutShort)
        | rest =>
          let (ts, rest) := entries n rest
          (t :: ts, rest)
      | [] => ([t], .error .cutShort)
      | _ => ([t], .error .malformed)

/-- Reads the fields of a record up to its end. -/
def members : Nat → List Char → List (Except Fault String × Tree) × Except Fault (List Char)
  | 0, _ => ([], .error .cutShort)
  | n + 1, cs =>
    match cs with
    | '"' :: cs =>
      match text cs with
      | (key, .error f) => ([(key, .broken f)], .error f)
      | (key, .ok rest) =>
        match skipSpace rest with
        | ':' :: rest =>
          match value n rest with
          | (t, .error f) => ([(key, t)], .error f)
          | (t, .ok rest) =>
            match skipSpace rest with
            | '\x7d' :: rest => ([(key, t)], .ok rest)
            | ',' :: rest =>
              match skipSpace rest with
              | [] => ([(key, t)], .error .cutShort)
              | rest =>
                let (fields, rest) := members n rest
                ((key, t) :: fields, rest)
            | [] => ([(key, t)], .error .cutShort)
            | _ => ([(key, t)], .error .malformed)
        | [] => ([(key, .broken .cutShort)], .error .cutShort)
        | _ => ([(key, .broken .malformed)], .error .malformed)
    | _ => ([], .error .malformed)

/-- The fault that ends a list or record early. -/
def faultOf : Except Fault (List Char) → Option Fault
  | .ok _ => none
  | .error f => some f

end

/-- A whole document: one value, and what is wrong with what follows it. -/
def Tree.ofText (s : String) : Tree × Option Fault :=
  let cs := s.toList
  let (t, rest) := value (cs.length + 1) cs
  match rest with
  | .ok rest => (t, if (skipSpace rest).isEmpty then none else some .malformed)
  | .error _ => (t, none)

end ChordOverlay.Json
