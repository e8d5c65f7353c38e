/-!
The SHA-1 digest of a byte string.
-/

namespace ChordOverlay.Sha1

/-- The five words carried from block to block. -/
structure Chain where
  a : UInt32
  b : UInt32
  c : UInt32
  d : UInt32
  e : UInt32

/-- The chain before the first block. -/
def Chain.start : Chain := ⟨0x67452301, 0xefcdab89, 0x98badcfe, 0x10325476, 0xc3d2e1f0⟩

/-- Adds two chains word by word. -/
def Chain.add (x y : Chain) : Chain := ⟨x.a + y.a, x.b + y.b, x.c + y.c, x.d + y.d, x.e + y.e⟩

/-- The words of a chain in order. -/
def Chain.words (x : Chain) : List UInt32 := [x.a, x.b, x.c, x.d, x.e]

/-- Turns the bits of a word to the left by `n`. -/
def rotate (x : UInt32) (n : UInt32) : UInt32 := (x <<< n) ||| (x >>> (32 - n))

/-- The bytes of a word, the highest first. -/
def octets (w : UInt32) : List UInt8 :=
  [(w >>> 24).toUInt8, (w >>> 16).toUInt8, (w >>> 8).toUInt8, w.toUInt8]

/-- The message, a single bit, zeros, and the length in bits as eight bytes: whole blocks of 64 bytes. -/
def pad (message : List UInt8) : List UInt8 :=
  let length := message.length
  let zeros := (119 - length % 64) % 64
  let size := UInt64.ofNat (8 * length)
  let tail := ([56, 48, 40, 32, 24, 16, 8, 0] : List UInt64).map fun shift => (size >>> shift).toUInt8
  message ++ 0x80 :: List.replicate zeros 0 ++ tail

/-- Groups bytes into big-endian words. -/
def words : List UInt8 → List UInt32
  | a :: b :: c :: d :: rest =>
    ((a.toUInt32 <<< 24) ||| (b.toUInt32 <<< 16) ||| (c.toUInt32 <<< 8) ||| d.toUInt32) :: words rest
  | _ => []

/-- The eighty words of a block, newest first. -/
def schedule (block : List UInt32) : List UInt32 :=
  (List.range 64).foldl (fun known _ =>
    let w := known.getD 2 0 ^^^ known.getD 7 0 ^^^ known.getD 13 0 ^^^ known.getD 15 0
    rotate w 1 :: known) block.reverse

/-- The function and the constant of step `t`. -/
def mix (t : Nat) (b c d : UInt32) : UInt32 :=
  if t < 20 then ((b &&& c) ||| (~~~b &&& d)) + 0x5a827999
  else if t < 40 then (b ^^^ c ^^^ d) + 0x6ed9eba1
  else if t < 60 then ((b &&& c) ||| (b &&& d) ||| (c &&& d)) + 0x8f1bbcdc
  else (b ^^^ c ^^^ d) + 0xca62c1d6

/-- One of the rounds over a block. -/
def step (x : Chain) (item : UInt32 × Nat) : Chain :=
  ⟨rotate x.a 5 + mix item.2 x.b x.c x.d + x.e + item.1, x.a, rotate x.b 30, x.c, x.d⟩

/-- Takes one block into the chain. -/
def compress (x : Chain) (block : List UInt32) : Chain :=
  ((schedule block).reverse.zipIdx.foldl step x).add x

/-- Runs `compress` over groups of sixteen words; `n` groups are taken. -/
def digestBlocks : Nat → Chain → List UInt32 → Chain
  | 0, x, _ => x
  | n + 1, x, ws => digestBlocks n (compress x (ws.take 16)) (ws.drop 16)

/-- The digest of a message, in twenty bytes. -/
def digest (message : List UInt8) : List UInt8 :=
  let ws := words (pad message)
  (digestBlocks (ws.length / 16) .start ws).words.flatMap octets

end ChordOverlay.Sha1
