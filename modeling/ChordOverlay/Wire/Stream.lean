import ChordOverlay.Wire.Codec

/-!
The receiving side of a connection as a sequence of messages: a codec, the bytes it has not used yet, and
how the stream stands.
-/

namespace ChordOverlay

/-- A stream that is read frame by frame. -/
structure FrameStream where
  codec : Codec
  buffer : Bytes
  /-- No more bytes are expected. -/
  ended : Bool
  /-- The buffer may hold another message. -/
  unread : Bool
  /-- The last item was a failure. -/
  failed : Bool
deriving DecidableEq, Repr

/-- What a stream gives when asked for its next item. -/
inductive Item where
  | message (m : Message)
  | failure (e : Failure)
  | finished
deriving DecidableEq, Repr

namespace FrameStream

/-- A stream of which nothing has been read. -/
def start (limit : Nat) : FrameStream := ⟨.start limit, [], false, false, false⟩

/-- The stream after a decoding attempt, with the item that came of it. -/
def settle (s : FrameStream) (o : Codec.Outcome) : FrameStream × Option Item :=
  let s := { s with codec := o.codec, buffer := o.buffer }
  match o.result with
  | .ok (some m) => (s, some (.message m))
  | .ok none => ({ s with unread := false }, if s.ended then some .finished else none)
  | .error e => ({ s with failed := true }, some (.failure e))

/--
The next item that can be had without more bytes, if any. A failure is followed by one `finished`, after
which decoding is tried again.
-/
def pull (s : FrameStream) : FrameStream × Option Item :=
  if s.failed then ({ s with failed := false, unread := false }, some .finished)
  else if !s.unread then (s, none)
  else if s.ended then s.settle (s.codec.decodeEnd s.buffer)
  else s.settle (s.codec.decode s.buffer)

/-- More bytes have arrived. -/
def feed (s : FrameStream) (bytes : Bytes) : FrameStream :=
  { s with buffer := s.buffer ++ bytes, ended := false, unread := true }

/-- The other side has closed; told a second time, the stream has nothing left to try. -/
def feedEnd (s : FrameStream) : Option FrameStream :=
  if s.ended then none else some { s with ended := true, unread := true }

end FrameStream

end ChordOverlay
