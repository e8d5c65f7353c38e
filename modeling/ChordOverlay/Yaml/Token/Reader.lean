import ChordOverlay.Yaml.Scalar.Block
import ChordOverlay.Yaml.Scalar.Plain
import ChordOverlay.Yaml.Scalar.Quoted
import ChordOverlay.Yaml.Token.Property

/-!
From text to tokens. A key is known for one only when its colon is met, so every place where a key may have
begun is kept in mind as a candidate, one for the lines of the block and one for every open flow collection;
a colon then puts the tokens of a key in front of the candidate.
-/

namespace ChordOverlay.Yaml

/-- A place where a key may have begun. -/
structure Candidate where
  /-- How many tokens come before it. -/
  number : Nat
  index : Nat
  line : Nat
  column : Nat
  /-- Nothing but a key can stand there. -/
  required : Bool
deriving DecidableEq, Repr

/-- Where the reader of tokens stands. -/
structure Reader where
  cursor : Cursor
  /-- The tokens so far, in order. -/
  tokens : List Token
  /-- The indentation of the innermost block, and of those around it; `-1` outside all blocks. -/
  indent : Int
  outer : List Int
  /-- Whether a key may begin here. -/
  keyAllowed : Bool
  /-- The candidate of the innermost collection, and of those around it. -/
  candidates : List (Option Candidate)
deriving DecidableEq, Repr

namespace Reader

/-- The reader at the beginning of a text. -/
def start (text : List Char) : Reader := ⟨.start text, [], -1, [], true, [none]⟩

/-- The reader is between brackets or braces. -/
def inFlow (r : Reader) : Bool := 1 < r.candidates.length

/-- One token more. -/
def emit (r : Reader) (t : Token) : Reader := { r with tokens := r.tokens ++ [t] }

/-- Puts a token in front of those from number `k` on. -/
def emitAt (r : Reader) (k : Nat) (t : Token) : Reader :=
  { r with tokens := r.tokens.take k ++ t :: r.tokens.drop k }

/-- Emits a token of `n` characters. -/
def emitMark (r : Reader) (n : Nat) (t : Token) : Reader := { r.emit t with cursor := r.cursor.advance n }

/-- Says whether a key may begin here. -/
def allowKey (r : Reader) (allowed : Bool) : Reader := { r with keyAllowed := allowed }

/-- Opens a block at a column that is deeper than the innermost one, in front of token number `k`. -/
def openBlock (r : Reader) (column : Nat) (k : Nat) (t : Token) : Reader :=
  if !r.inFlow && r.indent < column then
    { r.emitAt k t with outer := r.indent :: r.outer, indent := column }
  else r

/-- Closes the blocks that are indented deeper than a column. -/
def closeIn (column : Int) : List Int → Reader → Reader
  | [], r => r
  | around :: outer, r =>
    if column < r.indent then
      closeIn column outer { r.emit .blockEnd with indent := around, outer }
    else r

/-- Ends the blocks that are indented deeper than a column; between brackets or braces there are
none to end. -/
def closeBlocks (r : Reader) (column : Int) : Reader := if r.inFlow then r else closeIn column r.outer r

/-- Gives up the innermost candidate, which must not be a required one. -/
def dropCandidate (r : Reader) : Option Reader :=
  match r.candidates with
  | [] => some r
  | some ⟨_, _, _, _, true⟩ :: _ => none
  | _ :: around => some { r with candidates := none :: around }

/-- A key may begin here, if it is allowed to. -/
def markCandidate (r : Reader) : Option Reader :=
  if !r.keyAllowed then some r
  else do
    let r ← r.dropCandidate
    let c := r.cursor
    let required := !r.inFlow && r.indent == c.column
    return { r with candidates := some ⟨r.tokens.length, c.index, c.line, c.column, required⟩ :: r.candidates.tail }

/-- The longest key, in characters. -/
def keyLimit : Nat := 1024

/-- A key ends on its line and within the limit; candidates that can no longer be keys are given up. -/
def ageCandidate (c : Cursor) : Option Candidate → Option (Option Candidate)
  | none => some none
  | some k =>
    if k.line < c.line || k.index + keyLimit < c.index then (if k.required then none else some none)
    else some (some k)

/-- Gives up the keys that can no longer be ones. -/
def ageCandidates (r : Reader) : Option Reader := do
  return { r with candidates := ← r.candidates.mapM (ageCandidate r.cursor) }

/-- Goes over blanks, comments and line breaks; on a new line of a block a key may begin. -/
def skipIn : Nat → Reader → Reader
  | 0, r => r
  | n + 1, r =>
    let c := if r.cursor.column == 0 && r.cursor.sees 0 (· == '\ufeff') then r.cursor.skip else r.cursor
    let c := c.skipWhile fun ch => ch == ' ' || ((r.inFlow || !r.keyAllowed) && ch == '\t')
    let c := if c.sees 0 (· == '#') then c.skipWhile fun ch => !isBreak ch else c
    if c.atBreak then skipIn n { r with cursor := c.skipBreak, keyAllowed := r.keyAllowed || !r.inFlow }
    else { r with cursor := c }

/-- Begins or ends a document: all blocks are closed. -/
def documentMark (r : Reader) (t : Token) : Option Reader := do
  let r ← (r.closeBlocks (-1)).dropCandidate
  return (r.emitMark 3 t).allowKey false

/-- Reads a directive. -/
def directive (r : Reader) : Option Reader := do
  let r ← (r.closeBlocks (-1)).dropCandidate
  let (t, cursor) ← Directive.read r.cursor
  return { (r.emit t).allowKey false with cursor }

/-- Opens a sequence or a mapping between brackets or braces. -/
def openFlow (r : Reader) (t : Token) : Option Reader := do
  let r ← r.markCandidate
  return { (r.emitMark 1 t).allowKey true with candidates := none :: r.candidates }

/-- Closes what was opened last. -/
def closeFlow (r : Reader) (t : Token) : Option Reader := do
  let r ← r.dropCandidate
  let candidates := if r.inFlow then r.candidates.tail else r.candidates
  return { (r.emitMark 1 t).allowKey false with candidates }

/-- Goes on to the next item between brackets or braces. -/
def flowEntry (r : Reader) : Option Reader := do
  let r ← r.dropCandidate
  return (r.emitMark 1 .flowEntry).allowKey true

/-- Opens a block here if there has to be one; outside flow collections a key must be allowed. -/
def openHere (r : Reader) (t : Token) : Option Reader :=
  if r.inFlow then some r
  else if r.keyAllowed then some (r.openBlock r.cursor.column r.tokens.length t)
  else none

/-- Begins an item of a block. -/
def blockEntry (r : Reader) : Option Reader := do
  let r ← (← r.openHere .blockSequence).dropCandidate
  return (r.emitMark 1 .blockEntry).allowKey true

/-- Begins a key that is marked as one. -/
def key (r : Reader) : Option Reader := do
  let r ← (← r.openHere .blockMapping).dropCandidate
  return (r.emitMark 1 .key).allowKey !r.inFlow

/-- A colon makes the candidate a key; without a candidate it stands behind an explicit key or none. -/
def value (r : Reader) : Option Reader :=
  match r.candidates with
  | some k :: around =>
    let r := { r with candidates := none :: around }
    let r := (r.emitAt k.number .key).openBlock k.column k.number .blockMapping
    some ((r.emitMark 1 .value).allowKey false)
  | _ => do
    let r ← r.openHere .blockMapping
    return (r.emitMark 1 .value).allowKey !r.inFlow

/-- Emits a token that a key may consist of. -/
def content (r : Reader) (read : Reader → Option (Token × Cursor)) : Option Reader := do
  let r ← r.markCandidate
  let (t, cursor) ← read r
  return { (r.emit t).allowKey false with cursor }

/-- Reads a scalar in a block of its own. -/
def blockScalar (r : Reader) (style : Style) : Option Reader := do
  let r ← r.dropCandidate
  let (text, cursor) ← Block.read r.indent (style == .literal) r.cursor
  return { (r.emit (.scalar (String.ofList text) style)).allowKey true with cursor }

/-- Reads a scalar that stands without quotes. -/
def plainScalar (r : Reader) : Option Reader := do
  let r ← r.markCandidate
  let found ← Plain.read r.inFlow (r.indent + 1).toNat r.cursor
  return { (r.emit (.scalar (String.ofList found.text) .plain)).allowKey found.broken with cursor := found.cursor }

/-- The characters that no plain scalar begins with. -/
def indicators : List Char := "-?:,[]\x7b\x7d#&*!|>'\"%@\x60".toList

/-- Whether a plain scalar begins here. -/
def beginsPlain (r : Reader) (ch : Char) : Bool :=
  !(indicators.contains ch)
    || (ch == '-' && !r.cursor.sees 1 isSpace)
    || (!r.inFlow && (ch == '?' || ch == ':') && !r.cursor.openAt 1)

/-- Reads a scalar between quotes. -/
def quoted (quote : Char) (style : Style) (r : Reader) : Option (Token × Cursor) :=
  (Quoted.read quote r.cursor).map fun (text, c) => (.scalar (String.ofList text) style, c)

/-- Reads what begins with a character. -/
def dispatch (r : Reader) (ch : Char) : Option Reader :=
  let c := r.cursor
  if c.column == 0 && ch == '%' then r.directive
  else if c.atTriple '-' then r.documentMark .documentStart
  else if c.atTriple '.' then r.documentMark .documentEnd
  else if ch == '[' then r.openFlow .flowSequence
  else if ch == '\x7b' then r.openFlow .flowMapping
  else if ch == ']' then r.closeFlow .flowSequenceEnd
  else if ch == '\x7d' then r.closeFlow .flowMappingEnd
  else if ch == ',' then r.flowEntry
  else if ch == '-' && c.openAt 1 then r.blockEntry
  else if ch == '?' && (r.inFlow || c.openAt 1) then r.key
  else if ch == ':' && (r.inFlow || c.openAt 1) then r.value
  else if ch == '*' then r.content fun r => (anchorName r.cursor.skip).map fun (name, c) => (.alias name, c)
  else if ch == '&' then r.content fun r => (anchorName r.cursor.skip).map fun (name, c) => (.anchor name, c)
  else if ch == '!' then r.content fun r => (Tag.read r.inFlow r.cursor).map fun (name, c) => (.tag name, c)
  else if ch == '|' && !r.inFlow then r.blockScalar .literal
  else if ch == '>' && !r.inFlow then r.blockScalar .folded
  else if ch == '\'' then r.content (quoted '\'' .single)
  else if ch == '"' then r.content (quoted '"' .double)
  else if r.beginsPlain ch then r.plainScalar
  else none

/-- Reads token after token to the end, where all blocks are closed. -/
def toEnd : Nat → Reader → Option Reader
  | 0, _ => none
  | n + 1, r => do
    let r ← (skipIn (r.cursor.rest.length + 1) r).ageCandidates
    let r := r.closeBlocks r.cursor.column
    match r.cursor.rest with
    | [] => (r.closeBlocks (-1)).dropCandidate
    | ch :: _ => toEnd n (← r.dispatch ch)

end Reader

/-- The tokens of a text; a mark of the byte order in front of it does not count. -/
def tokens? (text : String) : Option (List Token) :=
  let text :=
    match text.toList with
    | '\ufeff' :: rest => rest
    | rest => rest
  if text.all isAllowed then
    ((Reader.start text).toEnd (text.length + 1)).map Reader.tokens
  else none

end ChordOverlay.Yaml
