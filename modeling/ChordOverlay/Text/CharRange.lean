/-!
Ranges of characters, the material of character tables.
-/

namespace ChordOverlay.Text

/-- The characters numbered `lo` to `hi`, both included. -/
structure CharRange where
  lo : Nat
  hi : Nat
deriving DecidableEq, Repr

/-- Whether a character lies in the range, both ends included. -/
def CharRange.contains (range : CharRange) (c : Char) : Bool :=
  range.lo ≤ c.toNat && c.toNat ≤ range.hi

end ChordOverlay.Text
