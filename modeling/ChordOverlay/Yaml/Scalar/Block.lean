import ChordOverlay.Yaml.Cursor

/-!
Block scalars: indented lines behind a mark, either kept line by line or folded, with a rule for the line
breaks at their end.
-/

namespace ChordOverlay.Yaml.Block

/-- What becomes of the line breaks at the end. -/
inductive Chomp where
  /-- The last line keeps its break. -/
  | clip
  /-- No break is kept. -/
  | strip
  /-- Every break is kept. -/
  | keep
deriving DecidableEq, Repr

/-- What may stand behind the mark: a rule for the end, and how much deeper than the parent the lines are. -/
structure Hints where
  chomp : Chomp
  depth : Option Nat

/-- What a mark behind the indicator does with the breaks at the end. -/
def chomp? : Char → Option Chomp
  | '+' => some .keep
  | '-' => some .strip
  | _ => none

/-- The depth a digit gives, which may not be zero; nothing for what is no digit. -/
def depth? (c : Option Char) : Option (Option Nat) :=
  match c with
  | some c => if c.isDigit then (if c = '0' then none else some (some (c.toNat - '0'.toNat))) else some none
  | none => some none

/-- Reads the hints, in either order. -/
def hints (c : Cursor) : Option (Hints × Cursor) := do
  match c.rest.head?.bind chomp? with
  | some chomp =>
    let c := c.skip
    match ← depth? c.rest.head? with
    | some depth => return (⟨chomp, some depth⟩, c.skip)
    | none => return (⟨chomp, none⟩, c)
  | none =>
    match ← depth? c.rest.head? with
    | some depth =>
      let c := c.skip
      match c.rest.head?.bind chomp? with
      | some chomp => return (⟨chomp, some depth⟩, c.skip)
      | none => return (⟨.clip, some depth⟩, c)
    | none => return (⟨.clip, none⟩, c)

/-- The breaks of lines without text, the indentation, and where the next text begins. -/
structure Margin where
  breaks : List Char
  indent : Nat
  cursor : Cursor

/--
Goes over lines without text. If the indentation is not known yet it is the widest one met, and at least
`least`; a tab may not stand in it.
-/
def marginIn (least : Nat) (indent : Option Nat) : Nat → Nat → List Char → Cursor → Option Margin
  | 0, _, _, _ => none
  | n + 1, seen, breaks, c =>
    let wanted := (c.rest.takeWhile (· == ' ')).length
    let c := c.advance (match indent with
      | some indent => min wanted (indent - c.column)
      | none => wanted)
    let seen := max seen c.column
    if indent.all (c.column < ·) && c.sees 0 (· == '\t') then none
    else if c.atBreak then marginIn least indent n seen (breaks ++ c.breakText) c.skipBreak
    else some ⟨breaks, indent.getD (max 1 (max seen least)), c⟩

/-- Reads the breaks in front of a line, and the indentation that it has. -/
def margin (least : Nat) (indent : Option Nat) (c : Cursor) : Option Margin :=
  marginIn least indent (c.rest.length + 1) 0 [] c

/-- A scalar under construction. -/
structure Draft where
  text : List Char
  /-- The break of the line before. -/
  lead : List Char
  /-- The line before begins with a blank. -/
  leadBlank : Bool
  margin : Margin

/-- Reads line after line as long as they are indented as the first one. -/
def lines (literal : Bool) : Nat → Draft → Option Draft
  | 0, d => some d
  | n + 1, d =>
    let c := d.margin.cursor
    if c.column ≠ d.margin.indent || c.atEnd then some d
    else do
      let blank := c.sees 0 isSpace
      let lead :=
        if !literal && d.lead == ['\n'] && !d.leadBlank && !blank then
          (if d.margin.breaks.isEmpty then [' '] else [])
        else d.lead
      let line := c.rest.takeWhile fun ch => !isBreak ch
      let c := c.advance line.length
      let margin ← margin 0 (some d.margin.indent) c.skipBreak
      lines literal n ⟨d.text ++ lead ++ d.margin.breaks ++ line, c.breakText, blank, margin⟩

/-- Reads a scalar from its mark on, inside a collection indented by `indent` columns if there is one. -/
def read (indent : Int) (literal : Bool) (c : Cursor) : Option (List Char × Cursor) := do
  let (hints, c) ← hints c.skip
  let c := c.skipWhile isSpace
  let c := if c.sees 0 (· == '#') then c.skipWhile fun ch => !isBreak ch else c
  if !c.atEnd && !c.atBreak then none
  let own := hints.depth.map fun depth => (max indent 0).toNat + depth
  let margin ← margin (indent + 1).toNat own c.skipBreak
  let d ← lines literal (c.rest.length + 1) ⟨[], [], false, margin⟩
  let text :=
    match hints.chomp with
    | .strip => d.text
    | .clip => d.text ++ d.lead
    | .keep => d.text ++ d.lead ++ d.margin.breaks
  return (text, d.margin.cursor)

end ChordOverlay.Yaml.Block
