import ChordOverlay.Net.Address
import ChordOverlay.Record
import ChordOverlay.Yaml.Node

/-!
Typed values from YAML documents.
-/

namespace ChordOverlay.Yaml

/-- Why no value could be read. -/
inductive Fault where
  /-- The text is not one YAML document. -/
  | malformed
  /-- The document is not of the shape or range wanted. -/
  | mismatch
deriving DecidableEq, Repr

/-- Reads a value off a node. -/
abbrev Decoder (α : Type) := Node → Except Fault α

namespace Document

variable (d : Document)

/-- The tag of a number. -/
def intTag : String := "tag:yaml.org,2002:int"

/-- The tag of nothing. -/
def nullTag : String := "tag:yaml.org,2002:null"

/-- The text of any scalar, whatever it might stand for. -/
def text : Decoder String := fun node =>
  match d.resolve node with
  | .scalar text _ _ => .ok text
  | _ => .error .mismatch

/-- A whole number below `limit`, which is not quoted. -/
def natBelow (limit : Nat) : Decoder Nat := fun node =>
  match d.resolve node with
  | .scalar text style tag =>
    if style == .plain || (style == .literal && tag == some intTag) then
      match natural? limit text.toList with
      | some n => .ok n
      | none => .error .mismatch
    else .error .mismatch
  | _ => .error .mismatch

/-- A value in a text of its own form. -/
def parsed {α : Type} (read : List Char → Option α) : Decoder α := fun node => do
  match read (← d.text node).toList with
  | some a => .ok a
  | none => .error .mismatch

/-- Nothing for an empty plain scalar and for the words that mean nothing. -/
def optional {α : Type} (read : Decoder α) : Decoder (Option α) := fun node =>
  match d.resolve node with
  | .scalar text .plain none =>
    if text.isEmpty || isNull text.toList then .ok none else (read node).map some
  | .scalar text .plain (some tag) =>
    if tag = nullTag then (if isNull text.toList then .ok none else .error .mismatch)
    else (read node).map some
  | _ => (read node).map some

/-- One of some names, as a text, or as a local tag on an empty scalar. -/
def choice {α : Type} (ofName? : String → Option α) : Decoder α := fun node =>
  let ofName (name : String) : Except Fault α :=
    match ofName? name with
    | some a => .ok a
    | none => .error .mismatch
  match d.resolve node with
  | .scalar text style tag =>
    match tag.map String.toList with
    | some ('!' :: name) =>
      if style == .plain && (text.isEmpty || isNull text.toList) then ofName (String.ofList name)
      else .error .mismatch
    | _ => ofName text
  | _ => .error .mismatch

/-- Fills fields in the order of the text; unknown names are skipped and repeated ones refused. -/
def fill {σ : Type} (fields : List (Field Node Fault σ)) : σ → List (Node × Node) → Except Fault σ
  | s, [] => .ok s
  | s, (key, value) :: rest => do
    match Field.find? fields (← d.text key) with
    | some field =>
      if field.isFilled s then throw .mismatch
      fill fields (← field.fill s value) rest
    | none => fill fields s rest

/-- A record from a mapping, or from nothing at all. -/
def record {σ α : Type} (fields : List (Field Node Fault σ)) (empty : σ) (finish : σ → Option α) : Decoder α :=
  fun node => do
    let s ←
      match d.resolve node with
      | .mapping entries => d.fill fields empty entries
      | .scalar "" .plain _ => pure empty
      | _ => throw .mismatch
    match finish s with
    | some a => return a
    | none => throw .mismatch

end Document

/-- Reads a text that is one document. -/
def read {α : Type} (decode : Document → Decoder α) (text : String) : Except Fault α :=
  match Document.ofText? text with
  | some d => decode d d.root
  | none => .error .malformed

end ChordOverlay.Yaml
