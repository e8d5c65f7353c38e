import ChordOverlay.Yaml.Cursor
import ChordOverlay.Yaml.Scalar

/-!
Writing mappings of scalars as YAML. A text is written plain if it reads back as itself, between single quotes
if it would be taken for something else, between double quotes if it holds what cannot stand there as it is,
and line by line if it has several lines.
-/

namespace ChordOverlay.Yaml

namespace Writer

/-- The characters that can stand in a scalar as they are. -/
def isVisible (c : Char) : Bool :=
  let n := c.toNat
  n == 0xa || (0x20 ≤ n && n ≤ 0x7e) || (0xa0 ≤ n && n ≤ 0xfffd && n != 0xfeff)

/-- Whether a blank, a line break or the end comes next. -/
def isOpen (rest : List Char) : Bool := rest.head?.all fun c => isSpace c || isBreak c

/-- Whether two neighbours are of two kinds. -/
def hasPair (p q : Char → Bool) (text : List Char) : Bool :=
  (text.zip text.tail).any fun (a, b) => p a && q b

/-- The characters that no plain scalar begins with, whatever follows them. -/
def openers : List Char := "#,[]\x7b\x7d&*!|>'\"%@\x60".toList

/-- Whether the first characters have a meaning in a block. -/
def hasOpener (text : List Char) : Bool :=
  ["---".toList, "...".toList].contains (text.take 3)
    || match text with
      | c :: rest => openers.contains c || ((c == '?' || c == ':' || c == '-') && isOpen rest)
      | [] => false

/-- Whether a colon or a number sign stands where it has a meaning; `blank` tells of the character before. -/
def hasInner : (blank : Bool) → List Char → Bool
  | _, [] => false
  | blank, c :: rest =>
    (c == ':' && isOpen rest) || (c == '#' && blank) || hasInner (isSpace c || isBreak c) rest

/-- The text has to stand between double quotes. -/
def isSpecial (text : List Char) : Bool :=
  text.any (fun c => !isVisible c) || hasPair (· == ' ') isBreak text

/-- Whether a text may stand without quotes in a block. -/
def allowsPlain (text : List Char) : Bool :=
  !text.isEmpty && text.head? != some ' ' && text.getLast? != some ' ' && !text.any isBreak
    && !isSpecial text && !hasOpener text && !hasInner false text.tail

/-- The text can stand between single quotes. -/
def allowsSingle (text : List Char) : Bool := !isSpecial text && !hasPair isBreak (· == ' ') text

/-- The text can stand in a literal block. -/
def allowsLiteral (text : List Char) : Bool := !isSpecial text && text.getLast? != some ' '

/-- How a text is written. -/
def styleOf (text : List Char) : Style :=
  if text.contains '\n' then (if allowsLiteral text then .literal else .double)
  else if !isTyped text && allowsPlain text then .plain
  else if allowsSingle text then .single
  else .double

/-- The letters of short escapes. -/
def letters : List (Char × Char) :=
  [('\x00', '0'), ('\x07', 'a'), ('\x08', 'b'), ('\t', 't'), ('\n', 'n'), ('\x0b', 'v'), ('\x0c', 'f'),
   ('\r', 'r'), ('\x1b', 'e'), ('"', '"'), ('\\', '\\'), ('\u0085', 'N'), ('\u00a0', '_'), ('\u2028', 'L'),
   ('\u2029', 'P')]

/-- One character between double quotes. -/
def escape (c : Char) : List Char :=
  if isVisible c && !isBreak c && c != '"' && c != '\\' then [c]
  else
    match letters.lookup c with
    | some letter => ['\\', letter]
    | none =>
      let n := c.toNat
      let (letter, width) := if n ≤ 0xff then ('x', 2) else if n ≤ 0xffff then ('u', 4) else ('U', 8)
      '\\' :: letter :: (Numeral.padded 16 width n).map Char.toUpper

/-- How deep the lines of a scalar are indented. -/
def margin : List Char := [' ', ' ']

/-- The inside of single quotes; after a line break comes the margin. -/
def single : (broken : Bool) → List Char → List Char
  | broken, [] => if broken then margin else []
  | broken, c :: rest =>
    if isBreak c then c :: single true rest
    else (if broken then margin else []) ++ (if c = '\'' then ['\'', '\''] else [c]) ++ single false rest

/-- The lines of a literal scalar; lines without text have no margin. -/
def literal : (broken : Bool) → List Char → List Char
  | _, [] => []
  | broken, c :: rest =>
    if isBreak c then c :: literal true rest
    else (if broken then margin else []) ++ c :: literal false rest

/-- Whether all line breaks at the end have to be kept: there are several, or nothing else. -/
def keepsBreaks (text : List Char) : Bool :=
  match text.reverse with
  | [c] => isBreak c
  | c :: before :: _ => isBreak c && isBreak before
  | [] => false

/-- What stands behind the mark of a literal scalar. -/
def hints (text : List Char) : List Char :=
  (if text.head?.any (fun c => c == ' ' || isBreak c) then ['2'] else [])
    ++ (if keepsBreaks text then ['+'] else if text.getLast?.any isBreak then [] else ['-'])

/-- A text as the value of a field, up to the end of its last line. -/
def scalar (text : List Char) : List Char :=
  match styleOf text with
  | .single => '\'' :: (single false text ++ ['\'', '\n'])
  | .double => '"' :: (text.flatMap escape ++ ['"', '\n'])
  | .literal =>
    ['|'] ++ hints text ++ '\n' :: (literal true text ++ (if text.getLast?.any isBreak then [] else ['\n']))
  | _ => text ++ ['\n']

end Writer

/-- What the fields of a written mapping hold. -/
inductive Value where
  | text (text : String)
  /-- A number, or a word that means what it says. -/
  | bare (text : String)
  | fields (fields : List (String × String))
deriving Repr

namespace Value

/-- The value behind the colon of its key. -/
def write : Value → List Char
  | .text t => ' ' :: Writer.scalar t.toList
  | .bare t => ' ' :: t.toList ++ ['\n']
  | .fields entries =>
    '\n' :: entries.flatMap fun (key, t) => Writer.margin ++ key.toList ++ [':', ' '] ++ t.toList ++ ['\n']

/-- Whether a reader could take line breaks behind the value for a part of it. -/
def isOpenEnded : Value → Bool
  | .text t => Writer.styleOf t.toList == .literal && Writer.keepsBreaks t.toList
  | _ => false

end Value

/-- Writes a mapping; its end is marked if a value in it keeps all its line breaks. -/
def write (fields : List (String × Value)) : String :=
  let body := fields.flatMap fun (key, value) => key.toList ++ ':' :: value.write
  String.ofList (body ++ if fields.any fun f => f.2.isOpenEnded then "...\n".toList else [])

end ChordOverlay.Yaml
