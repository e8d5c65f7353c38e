import ChordOverlay.Text.Numeral
import ChordOverlay.Yaml.Gap

/-!
Quoted scalars. Between single quotes only the quote itself is special, and is doubled; between double quotes
a backslash begins an escape, and before a line break it joins the two lines.
-/

namespace ChordOverlay.Yaml.Quoted

/-- The characters of escapes of one letter. -/
def letters : List (Char × Char) :=
  [('0', '\x00'), ('a', '\x07'), ('b', '\x08'), ('t', '\t'), ('\t', '\t'), ('n', '\n'), ('v', '\x0b'),
   ('f', '\x0c'), ('r', '\r'), ('e', '\x1b'), (' ', ' '), ('"', '"'), ('/', '/'), ('\\', '\\'),
   ('N', '\u0085'), ('_', '\u00a0'), ('L', '\u2028'), ('P', '\u2029')]

/-- How many hexadecimal digits follow the letter of a numeric escape. -/
def digitsAfter? : Char → Option Nat
  | 'x' => some 2
  | 'u' => some 4
  | 'U' => some 8
  | _ => none

/-- The character of a number that is one. -/
def charOf? (n : Nat) : Option Char :=
  if (0xd800 ≤ n && n ≤ 0xdfff) || 0x10ffff < n then none else some (Char.ofNat n)

/-- The character an escape stands for, and how long the escape is without its backslash. -/
def escape? : List Char → Option (Char × Nat)
  | [] => none
  | letter :: rest =>
    match digitsAfter? letter with
    | some count => do
      if rest.length < count then none
      let digits ← (rest.take count).mapM (Numeral.digitValue? 16)
      let c ← charOf? (digits.foldl (fun acc d => acc * 16 + d) 0)
      return (c, count + 1)
    | none => (letters.lookup letter).map fun c => (c, 1)

/-- A stretch of characters without blanks, and whether an escaped line break ended it. -/
structure Stretch where
  chars : List Char
  cursor : Cursor
  escaped : Bool

/-- Reads up to a blank, a line break, the closing quote or the end. -/
def stretch (quote : Char) : Nat → Cursor → List Char → Option Stretch
  | 0, c, acc => some ⟨acc, c, false⟩
  | n + 1, c, acc =>
    match c.rest with
    | [] => some ⟨acc, c, false⟩
    | ch :: next =>
      if isSpace ch || isBreak ch then some ⟨acc, c, false⟩
      else if ch = quote then
        if quote = '\'' && next.head? = some '\'' then stretch quote n (c.advance 2) (acc ++ ['\''])
        else some ⟨acc, c, false⟩
      else if quote = '"' && ch = '\\' then
        if next.head?.any isBreak then some ⟨acc, c.skip.skipBreak, true⟩
        else
          match escape? next with
          | some (char, length) => stretch quote n (c.advance (length + 1)) (acc ++ [char])
          | none => none
      else stretch quote n c.skip (acc ++ [ch])

/-- Reads stretches and the gaps between them up to the closing quote. -/
def stretches (quote : Char) : Nat → Cursor → List Char → Option (List Char × Cursor)
  | 0, _, _ => none
  | n + 1, c, acc =>
    if c.atDocumentMark || c.atEnd then none
    else do
      let found ← stretch quote c.rest.length c []
      let acc := acc ++ found.chars
      if found.cursor.sees 0 (· == quote) then return (acc, found.cursor.skip)
      let (gap, c) ← Gap.read 0 (if found.escaped then .afterEscape else .none) found.cursor
      stretches quote n c (acc ++ gap.text)

/-- Reads a scalar from its opening quote on. -/
def read (quote : Char) (c : Cursor) : Option (List Char × Cursor) :=
  stretches quote (c.rest.length + 1) c.skip []

end ChordOverlay.Yaml.Quoted
