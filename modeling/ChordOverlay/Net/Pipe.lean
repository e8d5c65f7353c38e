/-!
One direction of a connection: bytes on their way, up to a capacity, and whether more may come.
-/

namespace ChordOverlay

/-- Bytes on their way in one direction. -/
structure Pipe where
  held : List UInt8
  closed : Bool
deriving DecidableEq, Repr

namespace Pipe

/-- How many bytes may be on their way at once. -/
def capacity : Nat := 64 * 1024

/-- A pipe into which nothing has been written. -/
def empty : Pipe := ⟨[], false⟩

/-- How much more fits. -/
def room (p : Pipe) : Nat := capacity - p.held.length

/-- Appends as many of `bytes` as there is room for, and says how many those are. -/
def push (p : Pipe) (bytes : List UInt8) : Pipe × Nat :=
  let taken := bytes.take p.room
  ({ p with held := p.held ++ taken }, taken.length)

/-- Removes bytes from the front, all of them or at most `limit`. -/
def take (p : Pipe) : Option Nat → Pipe × List UInt8
  | none => ({ p with held := [] }, p.held)
  | some limit => ({ p with held := p.held.drop limit }, p.held.take limit)

/-- No more will be written. -/
def close (p : Pipe) : Pipe := { p with closed := true }

/-- Nothing is lost and nothing is made up by a push. -/
theorem push_held (p : Pipe) (bytes : List UInt8) :
    (p.push bytes).1.held ++ bytes.drop (p.push bytes).2 = p.held ++ bytes := by
  simp only [push, List.append_assoc, List.length_take]
  congr 1
  rcases Nat.le_total p.room bytes.length with h | h
  · rw [Nat.min_eq_left h, List.take_append_drop]
  · rw [Nat.min_eq_right h, List.take_of_length_le h, List.drop_of_length_le (Nat.le_refl _), List.append_nil]

end Pipe

end ChordOverlay
