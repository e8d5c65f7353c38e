import ChordOverlay.Yaml.Gap

/-!
Plain scalars: words without quotes, up to an indicator, a comment, or a line that is indented too little.
-/

namespace ChordOverlay.Yaml.Plain

/-- A scalar that has been read, and where its text begins a new line behind it. -/
structure Found where
  text : List Char
  cursor : Cursor
  /-- The scalar is followed by a line break. -/
  broken : Bool

/-- The indicators of flow collections. -/
def isFlowMark (c : Char) : Bool := c == ',' || c == '[' || c == ']' || c == '\x7b' || c == '\x7d'

/-- Whether a word ends before a character. -/
def endsWord (inFlow : Bool) (c : Cursor) (ch : Char) : Bool :=
  (ch == ':' && c.openAt 1) || (inFlow && isFlowMark ch)

/-- Reads a word; in a flow collection a colon may not run into an indicator. -/
def word (inFlow : Bool) : Nat → Cursor → List Char → Option (List Char × Cursor)
  | 0, c, acc => some (acc, c)
  | n + 1, c, acc =>
    match c.rest with
    | [] => some (acc, c)
    | ch :: _ =>
      if isSpace ch || isBreak ch then some (acc, c)
      else if inFlow && ch == ':' && c.sees 1 (fun next => isFlowMark next || next == '?') then none
      else if endsWord inFlow c ch then some (acc, c)
      else word inFlow n c.skip (acc ++ [ch])

/-- Reads words and the gaps between them. -/
def words (inFlow : Bool) (indent : Nat) : Nat → Found → Gap → Option Found
  | 0, found, _ => some found
  | n + 1, found, gap =>
    let c := found.cursor
    if c.atDocumentMark || c.sees 0 (· == '#') then some found
    else do
      let (chars, c) ← word inFlow c.rest.length c []
      let found : Found :=
        if chars.isEmpty then found else ⟨found.text ++ gap.text ++ chars, c, false⟩
      if c.atEnd || !c.openAt 0 then return found
      let (gap, c) ← Gap.none.read indent c
      let found := { found with cursor := c, broken := gap.broken }
      if !inFlow && c.column < indent then return found
      words inFlow indent n found gap

/-- Reads a plain scalar whose further lines have to be indented by `indent` columns. -/
def read (inFlow : Bool) (indent : Nat) (c : Cursor) : Option Found :=
  words inFlow indent (c.rest.length + 1) ⟨[], c, false⟩ .none

end ChordOverlay.Yaml.Plain
