import ChordOverlay.Ring.Id
import ChordOverlay.Text.Sha1

/-!
Names are placed on the ring by hashing them.
-/

namespace ChordOverlay

/-- The bytes of a text in UTF-8. -/
def utf8 (text : String) : List UInt8 := text.toUTF8.data.toList

/-- The first four bytes of the SHA-1 digest of the name, most significant first. -/
def RingId.ofName (name : String) : RingId :=
  match Sha1.digest (utf8 name) with
  | a :: b :: c :: d :: _ => .ofOctets a b c d
  | _ => 0

end ChordOverlay
