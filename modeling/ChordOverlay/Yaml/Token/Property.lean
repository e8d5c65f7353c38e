import ChordOverlay.Text.Numeral
import ChordOverlay.Yaml.Cursor
import ChordOverlay.Yaml.Token

/-!
The tokens that say something about a node or about the whole document: anchors, tags and directives.
-/

namespace ChordOverlay.Yaml

/-- Reads the name of an anchor or alias behind its mark. -/
def anchorName (c : Cursor) : Option (String × Cursor) :=
  let name := c.rest.takeWhile isWord
  let c := c.advance name.length
  if !name.isEmpty && (c.openAt 0 || c.sees 0 fun ch => "?:,]\x7d%@\x60".toList.contains ch) then
    some (String.ofList name, c)
  else none

namespace Tag

/-- The characters of a tag's name apart from escapes; inside brackets and in directives there are more. -/
def isUri (wide : Bool) (c : Char) : Bool :=
  isWord c || ";/?:@&=+$.!~*'()".toList.contains c || (wide && ",[]".toList.contains c)

/-- The bytes of a run of percent escapes, and what follows it. -/
def escapes : List Char → Option (List UInt8 × List Char)
  | '%' :: a :: b :: rest => do
    let x ← Numeral.digitValue? 16 a
    let y ← Numeral.digitValue? 16 b
    let (bytes, rest) ← escapes rest
    return (UInt8.ofNat (x * 16 + y) :: bytes, rest)
  | '%' :: _ => none
  | rest => some ([], rest)

/-- Reads the name of a tag, escapes resolved; it may be empty. -/
def uriIn (wide : Bool) : Nat → Cursor → List Char → Option (List Char × Cursor)
  | 0, c, acc => some (acc, c)
  | n + 1, c, acc =>
    match c.rest with
    | '%' :: _ => do
      let (bytes, rest) ← escapes c.rest
      let text ← String.fromUTF8? ⟨bytes.toArray⟩
      uriIn wide n (c.advance (c.rest.length - rest.length)) (acc ++ text.toList)
    | ch :: _ => if isUri wide ch then uriIn wide n c.skip (acc ++ [ch]) else some (acc, c)
    | [] => some (acc, c)

/-- Reads a tag as far as its characters go. -/
def uri (wide : Bool) (c : Cursor) : Option (String × Cursor) :=
  (uriIn wide (c.rest.length + 1) c []).map fun (text, c) => (String.ofList text, c)

/-- Reads a handle: an exclamation mark, and word characters with another one behind them if it is there. -/
def handle (c : Cursor) : Option (String × Cursor) :=
  match c.rest with
  | '!' :: rest =>
    let name := rest.takeWhile isWord
    let c := c.advance (name.length + 1)
    if c.sees 0 (· == '!') then some (String.ofList ('!' :: (name ++ ['!'])), c.skip)
    else some (String.ofList ('!' :: name), c)
  | _ => none

/-- Whether a handle is closed by an exclamation mark of its own. -/
def isClosed (handle : String) : Bool := 1 < handle.length && handle.endsWith "!"

/-- Reads a tag behind which a blank, or in a flow collection a comma, has to follow. -/
def read (inFlow : Bool) (c : Cursor) : Option (TagName × Cursor) := do
  let (name, c) ←
    if c.sees 1 (· == '<') then do
      let (name, c) ← uri true (c.advance 2)
      if name.isEmpty || !c.sees 0 (· == '>') then none
      pure (TagName.verbatim name, c.skip)
    else do
      let (front, c) ← handle c
      let (rest, c) ← uri false c
      if isClosed front then
        if rest.isEmpty then none
        pure (TagName.short front rest, c)
      else
        let rest := String.ofList (front.toList.drop 1) ++ rest
        pure (if rest.isEmpty then TagName.verbatim "!" else TagName.short "!" rest, c)
  if c.openAt 0 || (inFlow && c.sees 0 (· == ',')) then return (name, c) else none

end Tag

namespace Directive

/-- One part of a version: at most nine digits. -/
def versionPart (c : Cursor) : Option (Nat × Cursor) :=
  let digits := c.rest.takeWhile Char.isDigit
  if digits.isEmpty || 9 < digits.length then none
  else some (Decimal.ofDigits digits, c.advance digits.length)

/-- Reads what is behind the directive for a version. -/
def version (c : Cursor) : Option (Token × Cursor) := do
  let (major, c) ← versionPart (c.skipWhile isSpace)
  if !c.sees 0 (· == '.') then none
  let (minor, c) ← versionPart c.skip
  return (.version major minor, c)

/-- Reads what is behind the directive for a handle. -/
def handle (c : Cursor) : Option (Token × Cursor) := do
  let (name, c) ← Tag.handle (c.skipWhile isSpace)
  if name ≠ "!" && !Tag.isClosed name then none
  if !c.sees 0 isSpace then none
  let (expansion, c) ← Tag.uri true (c.skipWhile isSpace)
  if expansion.isEmpty || !c.openAt 0 then none
  return (.handle name expansion, c)

/-- Reads a directive with its line; one of another name is not understood. -/
def read (c : Cursor) : Option (Token × Cursor) := do
  let c := c.skip
  let name := c.rest.takeWhile isWord
  let c := c.advance name.length
  if !c.openAt 0 then none
  let (token, c) ←
    match String.ofList name with
    | "YAML" => version c
    | "TAG" => handle c
    | _ => none
  let c := c.skipWhile isSpace
  let c := if c.sees 0 (· == '#') then c.skipWhile fun ch => !isBreak ch else c
  if c.atEnd || c.atBreak then return (token, c.skipBreak) else none

end Directive

end ChordOverlay.Yaml
