import ChordOverlay.Wire.Body

/-!
Frames on a byte stream. A header is taken off the buffer as soon as its nine bytes are there, and its body
once all of it has arrived, so a frame may come in any pieces.
-/

namespace ChordOverlay

/-- The largest number a body length can be written as. -/
def maxDeclared : Nat := UInt32.size - 1

/-- The frame of a message: header, then body; a body above `limit` is refused. -/
def Message.frame (limit : Nat) (m : Message) : Except Failure Bytes :=
  let length := min m.body.length maxDeclared
  if limit < length then .error (.tooLarge length limit)
  else .ok ((Header.mk m.kind length).toBytes ++ m.body)

/-- The header in front of a body of `length` bytes; one that declares more than `limit` is refused. -/
def Header.announce (limit : Nat) (kind : Kind) (length : Nat) : Except Failure Header :=
  let declared := min length maxDeclared
  if limit < declared then .error (.tooLarge declared limit) else .ok ⟨kind, declared⟩

theorem Message.frame_eq_announce (limit : Nat) (m : Message) :
    m.frame limit = (Header.announce limit m.kind m.body.length).map (·.toBytes ++ m.body) := by
  simp only [Message.frame, Header.announce]
  split <;> rfl

/-- A reader of frames: the longest body it accepts, and the header whose body it waits for. -/
structure Codec where
  limit : Nat
  header : Option Header
deriving DecidableEq, Repr

namespace Codec

/-- A codec at the beginning of a stream. -/
def start (limit : Nat) : Codec := ⟨limit, none⟩

/-- The longest body members accept when nothing else is configured. -/
def defaultLimit : Nat := 1024 * 1024

/-- A codec with all its fields, as a text. -/
def describe (c : Codec) : String :=
  let pending :=
    match c.header with
    | none => "None"
    | some h => "Some(" ++ h.describe ++ ")"
  "MessageCodec \x7b max_len: " ++ toString c.limit ++ ", header: " ++ pending ++ " \x7d"

/-- Puts the frame of a message behind `buffer`; the buffer is untouched when the message is refused. -/
def encode (c : Codec) (m : Message) (buffer : Bytes) : Bytes × Except Failure Unit :=
  match m.frame c.limit with
  | .ok frame => (buffer ++ frame, .ok ())
  | .error e => (buffer, .error e)

/-- What one attempt at decoding leaves behind. -/
structure Outcome where
  codec : Codec
  buffer : Bytes
  /-- Nothing when more bytes are needed. -/
  result : Except Failure (Option Message)

/-- Takes a body off the buffer if it is complete. -/
def decodeBody (c : Codec) (header : Header) (buffer : Bytes) : Outcome :=
  if buffer.length < header.length then ⟨{ c with header := some header }, buffer, .ok none⟩
  else
    ⟨{ c with header := none }, buffer.drop header.length,
      (Message.ofBody header (buffer.take header.length)).map some⟩

/-- Decodes at most one message from the front of `buffer`. -/
def decode (c : Codec) (buffer : Bytes) : Outcome :=
  match c.header with
  | some header => c.decodeBody header buffer
  | none =>
    if buffer.length < Header.size then ⟨c, buffer, .ok none⟩
    else
      match Header.read buffer with
      | .error e => ⟨c, buffer, .error e⟩
      | .ok header =>
        if c.limit < header.length then ⟨c, buffer, .error (.tooLarge header.length c.limit)⟩
        else c.decodeBody header (buffer.drop Header.size)

/-- Decodes when no more bytes will come: a frame that is not complete by now is cut short. -/
def decodeEnd (c : Codec) (buffer : Bytes) : Outcome :=
  let o := c.decode buffer
  match o.result with
  | .ok none =>
    if o.buffer.isEmpty && o.codec.header.isNone then o
    else { o with result := .error (BodyFault.cut o.buffer.length).failure }
  | _ => o

end Codec

end ChordOverlay
