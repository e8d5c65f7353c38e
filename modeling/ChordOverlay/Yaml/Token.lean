import ChordOverlay.Yaml.Scalar

/-!
The tokens of a YAML document. Indentation has become tokens too: a block begins where its lines are indented
deeper than those around it.
-/

namespace ChordOverlay.Yaml

/-- The kind of a tag as it is written. -/
inductive TagName where
  /-- In full, between angle brackets. -/
  | verbatim (name : String)
  /-- A handle that stands for the front of the name, and the rest of it. -/
  | short (handle rest : String)
deriving DecidableEq, Repr

/-- A token of the text. -/
inductive Token where
  | version (major minor : Nat)
  | handle (handle expansion : String)
  | documentStart
  | documentEnd
  | blockSequence
  | blockMapping
  | blockEnd
  | flowSequence
  | flowSequenceEnd
  | flowMapping
  | flowMappingEnd
  | blockEntry
  | flowEntry
  | key
  | value
  | alias (name : String)
  | anchor (name : String)
  | tag (name : TagName)
  | scalar (text : String) (style : Style)
deriving DecidableEq, Repr

end ChordOverlay.Yaml
