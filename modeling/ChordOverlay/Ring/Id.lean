import ChordOverlay.Text.Numeral

/-!
Positions on the identifier ring: 32-bit words, walked clockwise and wrapping through zero.
-/

namespace ChordOverlay

/-- A position on the ring of `2 ^ 32` identifiers. -/
structure RingId where
  word : UInt32
deriving DecidableEq, Inhabited, Repr

namespace RingId

/-- The number of bits of a position, which is also the number of slots of a full finger table. -/
def bits : Nat := 32

/-- The position of a number, all round the ring. -/
def ofNat (n : Nat) : RingId := ⟨UInt32.ofNat n⟩

/-- The number of a position. -/
def toNat (id : RingId) : Nat := id.word.toNat

instance (n : Nat) : OfNat RingId n := ⟨.ofNat n⟩

/-- The number of steps clockwise from `a` to `b`. -/
def distance (a b : RingId) : Nat := (b.word - a.word).toNat

/-- The position `n` steps clockwise from `id`. -/
def advance (id : RingId) (n : Nat) : RingId := ⟨id.word + UInt32.ofNat n⟩

/-- Where the interval watched by finger slot `k` begins. -/
def fingerStart (id : RingId) (k : Nat) : RingId := id.advance (Nat.pow 2 k)

/-- Order by number, without regard to the wrap at zero. -/
def compare (a b : RingId) : Ordering := Ord.compare a.toNat b.toNat

/-- The word in network byte order. -/
def toBytes (id : RingId) : List UInt8 :=
  [(id.word >>> 24).toUInt8, (id.word >>> 16).toUInt8, (id.word >>> 8).toUInt8, id.word.toUInt8]

/-- The position whose network-order bytes are given, most significant first. -/
def ofOctets (a b c d : UInt8) : RingId :=
  ⟨(a.toUInt32 <<< 24) ||| (b.toUInt32 <<< 16) ||| (c.toUInt32 <<< 8) ||| d.toUInt32⟩

/-- Hexadecimal with all eight digits. -/
def display (id : RingId) : String := "0x" ++ Numeral.hex 8 id.toNat

/-- The form used inside descriptions of records. -/
def describe (id : RingId) : String := "RingId(" ++ toString id.toNat ++ ")"

/-- Reads hexadecimal after `0x` or `0X`, and decimal otherwise. -/
def read (text : List Char) : Except Numeral.Fault RingId :=
  let number :=
    match text with
    | '0' :: 'x' :: digits | '0' :: 'X' :: digits => Numeral.read 16 UInt32.size digits
    | digits => Numeral.read 10 UInt32.size digits
  number.map .ofNat

theorem ofNat_toNat (id : RingId) : ofNat id.toNat = id := by
  cases id; simp [ofNat, toNat]

theorem toNat_lt (id : RingId) : id.toNat < UInt32.size := id.word.toNat_lt

theorem distance_lt (a b : RingId) : a.distance b < UInt32.size := (b.word - a.word).toNat_lt

@[simp] theorem distance_self (a : RingId) : a.distance a = 0 := by simp [distance]

theorem distance_eq (a b : RingId) : a.distance b = (UInt32.size - a.toNat + b.toNat) % UInt32.size := by
  simp [distance, toNat, UInt32.toNat_sub]

end RingId

end ChordOverlay
