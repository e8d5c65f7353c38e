import ChordOverlay.Json.Tree
import ChordOverlay.Net.Address
import ChordOverlay.Record

/-!
Typed values from documents: the first fault in the order of the text decides.
-/

namespace ChordOverlay.Json

/-- Reads a value off a tree. -/
abbrev Decoder (α : Type) := Tree → Except Fault α

/-- What is wrong with a value that is not of the kind wanted: its own fault, if it has one. -/
def mismatch : Tree → Fault
  | .broken f | .number (.error f) | .text (.error f) => f
  | _ => .mismatch

/-- A whole number below `limit`. -/
def natBelow (limit : Nat) : Decoder Nat
  | .number (.ok (.natural n)) => if n < limit then .ok n else .error .mismatch
  | t => .error (mismatch t)

/-- A text, whole. -/
def textOf : Decoder String
  | .text (.ok t) => .ok t
  | t => .error (mismatch t)

/-- An address of four numbers, as a text. -/
def ipv4 : Decoder Ipv4 := fun t => do
  match Ipv4.read (← textOf t).toList with
  | some ip => .ok ip
  | none => .error .mismatch

/-- Nothing for null. -/
def optional {α : Type} (d : Decoder α) : Decoder (Option α)
  | .null => .ok none
  | t => (d t).map some

/-- A list of values; the items are read first, and then what broke the list off counts. -/
def listOf {α : Type} (d : Decoder α) : Decoder (List α)
  | .list items fault => do
    let values ← items.mapM d
    match fault with
    | some f => .error f
    | none => .ok values
  | t => .error (mismatch t)

/-- A field filled from a tree. -/
abbrev TreeField (σ : Type) := Field Tree Fault σ

/-- Fills fields by name in the order of the text; unknown names are skipped and repeated ones refused. -/
def fillByName {σ : Type} (fields : List (TreeField σ)) : σ → List (Except Fault String × Tree) → Except Fault σ
  | s, [] => .ok s
  | s, (key, t) :: rest => do
    match Field.find? fields (key.toOption.getD "") with
    | some field =>
      let _ ← key
      if field.isFilled s then throw .mismatch
      fillByName fields (← field.fill s t) rest
    | none =>
      let _ ← key
      fillByName fields s rest

/-- Fills fields in their own order from a list, which may be shorter than they are but not longer. -/
def fillInOrder {σ : Type} : List (TreeField σ) → σ → List Tree → Except Fault σ
  | _, s, [] => .ok s
  | [], _, _ :: _ => .error .malformed
  | field :: fields, s, t :: rest => do fillInOrder fields (← field.fill s t) rest

/--
A record, or a list of at least `atLeast` of its fields in order. `finish` supplies what is missing or refuses.
-/
def record {σ α : Type} (fields : List (TreeField σ)) (empty : σ) (atLeast : Nat) (finish : σ → Option α) :
    Decoder α
  | .record entries fault => do
    let s ← fillByName fields empty entries
    match fault, finish s with
    | some f, _ => .error f
    | none, some a => .ok a
    | none, none => .error .mismatch
  | .list items fault => do
    let s ← fillInOrder fields empty items
    match fault, finish s with
    | some f, _ => .error f
    | none, some a => if items.length < atLeast then .error .mismatch else .ok a
    | none, none => .error .mismatch
  | t => .error (mismatch t)

/-- Reads a whole document. -/
def read {α : Type} (d : Decoder α) (s : String) : Except Fault α := do
  let (t, trailing) := Tree.ofText s
  let a ← d t
  match trailing with
  | some f => .error f
  | none => .ok a

end ChordOverlay.Json
