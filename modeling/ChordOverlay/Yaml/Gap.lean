import ChordOverlay.Yaml.Cursor

/-!
What lies between two words of a scalar that may run over several lines, and how it is folded: one line break
becomes a space, and of more than one the first is lost.
-/

namespace ChordOverlay.Yaml

/-- What lies between two words of a scalar. -/
structure Gap where
  /-- Blanks on the line of the word before. -/
  spaces : List Char
  /-- The first line break, and those that follow it. -/
  first : List Char
  more : List Char
  /-- The next word begins a line. -/
  broken : Bool
deriving DecidableEq, Repr

namespace Gap

/-- Nothing lies between. -/
def none : Gap := ⟨[], [], [], false⟩

/-- A gap behind a line break that counts for nothing. -/
def afterEscape : Gap := ⟨[], [], [], true⟩

/-- What becomes of the gap when its lines are folded. -/
def text (g : Gap) : List Char :=
  if !g.broken then g.spaces
  else if g.first = ['\n'] then (if g.more.isEmpty then [' '] else g.more)
  else g.first ++ g.more

/-- Reads on to the next word; a tab may not stand before column `indent` of a line. -/
def readIn (indent : Nat) : Nat → Gap → Cursor → Option (Gap × Cursor)
  | 0, g, c => some (g, c)
  | n + 1, g, c =>
    match c.rest with
    | [] => some (g, c)
    | ch :: _ =>
      if isSpace ch then
        if g.broken then
          if ch = '\t' && c.column < indent then Option.none else readIn indent n g c.skip
        else readIn indent n { g with spaces := g.spaces ++ [ch] } c.skip
      else if isBreak ch then
        let g :=
          if g.broken then { g with more := g.more ++ c.breakText }
          else { g with spaces := [], first := c.breakText, broken := true }
        readIn indent n g c.skipBreak
      else some (g, c)

/-- Reads on up to the next word. -/
def read (indent : Nat) (g : Gap) (c : Cursor) : Option (Gap × Cursor) := readIn indent c.rest.length g c

end Gap

end ChordOverlay.Yaml
