import ChordOverlay.Wire.Codec

/-!
# Frames in pieces

What is read from a stream depends on its bytes alone, not on the pieces in which they arrive: bytes that come later
do not change what has been decoded, and a header that is kept stands for the nine bytes it was read from.
-/

namespace ChordOverlay

/-! ## What is read from a stream -/

/-- Messages in their order, and after them a failure or what the reading leaves. -/
@[ext]
structure Reading (α : Type) where
  messages : List Message
  rest : Except Failure α

namespace Reading

variable {α β : Type}

/-- Nothing was read, and this is left. -/
def ofRest (a : α) : Reading α := ⟨[], .ok a⟩

/-- Nothing was read but a failure. -/
def failed (e : Failure) : Reading α := ⟨[], .error e⟩

/-- A message in front of all others. -/
def cons (m : Message) (r : Reading α) : Reading α := { r with messages := m :: r.messages }

/-- Reads on from what has been left; a failure is final. -/
def andThen (r : Reading α) (f : α → Reading β) : Reading β :=
  match r.rest with
  | .error e => ⟨r.messages, .error e⟩
  | .ok a => ⟨r.messages ++ (f a).messages, (f a).rest⟩

@[simp] theorem ofRest_andThen (a : α) (f : α → Reading β) : (ofRest a).andThen f = f a := rfl

@[simp] theorem failed_andThen (e : Failure) (f : α → Reading β) : (failed e).andThen f = failed e := rfl

@[simp] theorem cons_andThen (m : Message) (r : Reading α) (f : α → Reading β) :
    (r.cons m).andThen f = (r.andThen f).cons m := by
  obtain ⟨messages, rest⟩ := r
  cases rest <;> rfl

theorem andThen_congr {r : Reading α} {f g : α → Reading β} (h : ∀ a, r.rest = .ok a → f a = g a) :
    r.andThen f = r.andThen g := by
  obtain ⟨messages, rest⟩ := r
  cases rest with
  | error e => rfl
  | ok a => simp only [andThen, h a rfl]

end Reading

/-! ## Headers -/

namespace Header

variable {buffer digits : Bytes} {tag : UInt8}

/-- Enough bytes for a header are its tag, its eight digits, and what follows. -/
theorem exists_parts (hlong : size ≤ buffer.length) :
    ∃ tag digits rest, buffer = tag :: (digits ++ rest) ∧ digits.length = 8 := by
  cases buffer with
  | nil => cases hlong
  | cons tag buffer =>
      have hlong : 8 ≤ buffer.length := Nat.le_of_succ_le_succ hlong
      exact ⟨tag, buffer.take 8, buffer.drop 8, by rw [List.take_append_drop], List.length_take_of_le hlong⟩

/-- The tag is looked at before the digits, and nothing behind them is. -/
theorem read_parts (hdigits : digits.length = 8) (tag : UInt8) (rest : Bytes) : read (tag :: (digits ++ rest)) =
    match Kind.ofTag? tag with
    | none => .error (.unknownKind tag)
    | some kind =>
      match readLength digits with
      | .ok length => .ok ⟨kind, length⟩
      | .error fault => .error fault.failure := by
  have htake : (tag :: (digits ++ rest)).take size = tag :: digits := by
    rw [size, List.take_succ_cons, List.take_append_of_le_length (Nat.le_of_eq hdigits.symm), ← hdigits,
      List.take_length]
  have hlong : ¬ (tag :: (digits ++ rest)).length < size := by
    rw [List.length_cons, List.length_append, size]
    omega
  unfold read
  rw [htake]
  exact if_neg hlong

theorem read_append (hlong : size ≤ buffer.length) (more : Bytes) : read (buffer ++ more) = read buffer := by
  obtain ⟨tag, digits, rest, rfl, hdigits⟩ := exists_parts hlong
  rw [List.cons_append, List.append_assoc, read_parts hdigits, read_parts hdigits]

end Header

namespace Codec

variable {c c' : Codec} {buffer left more : Bytes} {m : Message} {e : Failure} {s : Codec × Bytes}

/-! ## One attempt -/

/-- The header whose body comes next and the bytes behind it, if they have arrived. -/
def frameHead (c : Codec) (buffer : Bytes) : Except Failure (Option (Header × Bytes)) :=
  match c.header with
  | some header => .ok (some (header, buffer))
  | none =>
    if buffer.length < Header.size then .ok none
    else
      match Header.read buffer with
      | .error e => .error e
      | .ok header =>
        if c.limit < header.length then .error (.tooLarge header.length c.limit)
        else .ok (some (header, buffer.drop Header.size))

theorem decode_eq (c : Codec) (buffer : Bytes) : c.decode buffer =
    match c.frameHead buffer with
    | .error e => ⟨c, buffer, .error e⟩
    | .ok none => ⟨c, buffer, .ok none⟩
    | .ok (some (header, rest)) => c.decodeBody header rest := by
  unfold decode frameHead
  cases c.header with
  | some header => rfl
  | none =>
      simp only
      split
      · rfl
      · cases Header.read buffer with
        | error e => rfl
        | ok header =>
            simp only
            split <;> rfl

/-- Once there is a header or a reason to refuse it, more bytes only stand behind it. -/
theorem frameHead_append (hhead : c.frameHead buffer ≠ .ok none) (more : Bytes) : c.frameHead (buffer ++ more) =
    (c.frameHead buffer).map (Option.map fun head => (head.1, head.2 ++ more)) := by
  unfold frameHead at hhead ⊢
  cases hheader : c.header with
  | some header => rfl
  | none =>
      simp only [hheader] at hhead ⊢
      split at hhead
      · exact absurd rfl hhead
      · rename_i hshort
        have hlong := Nat.not_lt.mp hshort
        have hboth : ¬ (buffer ++ more).length < Header.size := by
          rw [List.length_append]
          omega
        rw [if_neg hshort, if_neg hboth, Header.read_append hlong, List.drop_append_of_le_length hlong]
        cases Header.read buffer with
        | error e => rfl
        | ok header =>
            simp only
            split <;> rfl

/-- Bytes that come later do not change a message, a failure, or what a codec waits for. -/
theorem decode_append (c : Codec) (buffer more : Bytes) :
    match c.decode buffer with
    | ⟨c', left, .ok (some m)⟩ => c.decode (buffer ++ more) = ⟨c', left ++ more, .ok (some m)⟩
    | ⟨_, _, .error e⟩ => (c.decode (buffer ++ more)).result = .error e
    | ⟨c', left, .ok none⟩ => c.decode (buffer ++ more) = c'.decode (left ++ more) := by
  rw [decode_eq c buffer]
  cases hhead : c.frameHead buffer with
  | error e =>
      have hdecided : c.frameHead buffer ≠ .ok none := by simp [hhead]
      have happend := frameHead_append hdecided more
      rw [hhead] at happend
      simp only [decode_eq c (buffer ++ more), happend]
      rfl
  | ok head =>
      cases head with
      | none => rfl
      | some head =>
          obtain ⟨header, rest⟩ := head
          have hdecided : c.frameHead buffer ≠ .ok none := by simp [hhead]
          have happend := frameHead_append hdecided more
          rw [hhead] at happend
          have hdecode : c.decode (buffer ++ more) = c.decodeBody header (rest ++ more) := by
            rw [decode_eq, happend]
            rfl
          simp only [hdecode]
          by_cases hshort : rest.length < header.length
          · -- The header is kept, and read on under it.
            have hkept : { c with header := some header }.decode (rest ++ more) =
                c.decodeBody header (rest ++ more) := by
              rw [decode_eq]
              rfl
            simp only [decodeBody, if_pos hshort]
            exact hkept.symm
          · have hlong := Nat.not_lt.mp hshort
            have hboth : ¬ (rest ++ more).length < header.length := by
              rw [List.length_append]
              omega
            simp only [decodeBody, if_neg hshort, if_neg hboth, List.take_append_of_le_length hlong,
              List.drop_append_of_le_length hlong]
            cases Message.ofBody header (rest.take header.length) <;> rfl

/-! ## Until more bytes are needed -/

/-- What a codec can still decode from without more bytes: the bytes left, and a header taken off before. -/
def due (c : Codec) (buffer : Bytes) : Nat := buffer.length + c.header.toList.length

theorem length_of_frameHead {header : Header} {rest : Bytes} (h : c.frameHead buffer = .ok (some (header, rest))) :
    rest.length < c.due buffer := by
  unfold frameHead at h
  unfold due
  cases hheader : c.header with
  | some kept =>
      simp only [hheader] at h
      cases h
      exact Nat.lt_succ_self _
  | none =>
      simp only [hheader] at h
      split at h
      · cases h
      · rename_i hshort
        split at h
        · cases h
        · split at h
          · cases h
          · cases h
            simp only [List.length_drop, Header.size, Option.toList_none, List.length_nil] at hshort ⊢
            omega

/-- A message uses up bytes, or the header that was kept for it. -/
theorem due_of_message (h : c.decode buffer = ⟨c', left, .ok (some m)⟩) : c'.due left < c.due buffer := by
  rw [decode_eq] at h
  cases hhead : c.frameHead buffer with
  | error e => simp [hhead] at h
  | ok head =>
      cases head with
      | none => simp [hhead] at h
      | some head =>
          obtain ⟨header, rest⟩ := head
          have hrest := length_of_frameHead hhead
          simp only [hhead, decodeBody] at h
          split at h
          · simp at h
          · injection h with hc hleft _
            rw [← hc, ← hleft]
            refine Nat.lt_of_le_of_lt ?_ hrest
            simp only [due, Option.toList_none, List.length_nil, List.length_drop]
            omega

/-- Decodes message after message until more bytes are needed. -/
def drain (c : Codec) (buffer : Bytes) : Reading (Codec × Bytes) :=
  match _h : c.decode buffer with
  | ⟨c', left, .ok (some m)⟩ => (drain c' left).cons m
  | ⟨c', left, .ok none⟩ => .ofRest (c', left)
  | ⟨_, _, .error e⟩ => .failed e
termination_by c.due buffer
decreasing_by exact due_of_message _h

theorem drain_of_message (h : c.decode buffer = ⟨c', left, .ok (some m)⟩) :
    c.drain buffer = (c'.drain left).cons m := by
  rw [drain]
  split <;> simp_all

theorem drain_of_wait (h : c.decode buffer = ⟨c', left, .ok none⟩) : c.drain buffer = .ofRest (c', left) := by
  rw [drain]
  split <;> simp_all

theorem drain_of_error (h : (c.decode buffer).result = .error e) : c.drain buffer = .failed e := by
  rw [drain]
  split <;> simp_all

theorem drain_congr (h : c.decode buffer = c'.decode left) : c.drain buffer = c'.drain left := by
  rcases hdecode : c'.decode left with ⟨after, rest, e | none | m⟩ <;> rw [hdecode] at h
  · rw [drain_of_error (e := e) (by rw [h]), drain_of_error (e := e) (by rw [hdecode])]
  · rw [drain_of_wait h, drain_of_wait hdecode]
  · rw [drain_of_message h, drain_of_message hdecode]

/-- Bytes that come later are read on from where the reading has stopped. -/
theorem drain_append (c : Codec) (buffer more : Bytes) :
    c.drain (buffer ++ more) = (c.drain buffer).andThen fun s => s.1.drain (s.2 ++ more) := by
  have happend := decode_append c buffer more
  induction c, buffer using drain.induct with
  | case1 c buffer c' left m hdecode ih =>
      rw [hdecode] at happend
      rw [drain_of_message happend, drain_of_message hdecode, Reading.cons_andThen, ih (decode_append c' left more)]
  | case2 c buffer c' left hdecode =>
      rw [hdecode] at happend
      rw [drain_congr happend, drain_of_wait hdecode, Reading.ofRest_andThen]
  | case3 c buffer c' left e hdecode =>
      rw [hdecode] at happend
      rw [drain_of_error happend, drain_of_error (e := e) (by rw [hdecode]), Reading.failed_andThen]

/-- Nothing is left to decode where a reading has stopped. -/
def Quiet (s : Codec × Bytes) : Prop := s.1.drain s.2 = .ofRest s

theorem quiet_of_drain (h : (c.drain buffer).rest = .ok s) : Quiet s := by
  -- Read on with no more bytes: what comes then has to be nothing.
  have happend := drain_append c buffer []
  rw [List.append_nil] at happend
  generalize c.drain buffer = r at h happend
  obtain ⟨messages, rest⟩ := r
  obtain rfl : rest = .ok s := h
  simp only [Reading.andThen, List.append_nil, Reading.mk.injEq, List.self_eq_append_right] at happend
  obtain ⟨hmessages, hrest⟩ := happend
  exact Reading.ext hmessages hrest.symm

/-! ## Piece by piece -/

/-- Decodes all there is after each piece. -/
def feed (s : Codec × Bytes) : List Bytes → Reading (Codec × Bytes)
  | [] => .ofRest s
  | piece :: pieces => (s.1.drain (s.2 ++ piece)).andThen fun s => feed s pieces

theorem feed_eq (hquiet : Quiet s) (pieces : List Bytes) : feed s pieces = s.1.drain (s.2 ++ pieces.flatten) := by
  induction pieces generalizing s with
  | nil => rw [feed, List.flatten_nil, List.append_nil, hquiet]
  | cons piece pieces ih =>
      rw [feed, List.flatten_cons, ← List.append_assoc, drain_append s.1 (s.2 ++ piece)]
      exact Reading.andThen_congr fun s' hs' => ih (quiet_of_drain hs')

/-- The end of the stream: what is left must not be a part of a frame. -/
def close (s : Codec × Bytes) : Reading Unit :=
  match (s.1.decodeEnd s.2).result with
  | .ok (some m) => (Reading.ofRest ()).cons m
  | .ok none => .ofRest ()
  | .error e => .failed e

/-- A whole stream, from its first byte to its end. -/
def readStream (limit : Nat) (pieces : List Bytes) : Reading Unit := (feed (.start limit, []) pieces).andThen close

theorem quiet_start (limit : Nat) : Quiet (.start limit, []) := drain_of_wait rfl

/--
However a stream is cut, its pieces give the messages of the whole and leave the codec with the same header and the
same bytes, or end with the same failure; and so does the stream with its end.
-/
theorem cuts_do_not_matter (limit : Nat) (pieces : List Bytes) :
    feed (.start limit, []) pieces = feed (.start limit, []) [pieces.flatten] ∧
      readStream limit pieces = readStream limit [pieces.flatten] := by
  have hfeed : feed (.start limit, []) pieces = feed (.start limit, []) [pieces.flatten] := by
    rw [feed_eq (quiet_start limit), feed_eq (quiet_start limit), List.flatten_singleton]
  exact ⟨hfeed, congrArg (Reading.andThen · close) hfeed⟩

end Codec

end ChordOverlay
