/-!
Records under construction, whatever the document they are read from: each field has a name, and a place that
is filled at most once.
-/

namespace ChordOverlay

/-- A field of a draft `σ`, filled from a part `δ` of a document, which may be at fault. -/
structure Field (δ ε σ : Type) where
  name : String
  isFilled : σ → Bool
  fill : σ → δ → Except ε σ

namespace Field

variable {δ ε σ α : Type}

/-- A field kept in an optional place of the draft. -/
def of (name : String) (read : δ → Except ε α) (get : σ → Option α) (set : σ → α → σ) : Field δ ε σ :=
  ⟨name, fun s => (get s).isSome, fun s d => (read d).map (set s)⟩

/-- The field of this name. -/
def find? (fields : List (Field δ ε σ)) (name : String) : Option (Field δ ε σ) :=
  fields.find? fun f => f.name = name

end Field

end ChordOverlay
