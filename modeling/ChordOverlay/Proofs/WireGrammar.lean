import ChordOverlay.Proofs.Bodies
import ChordOverlay.Proofs.Chunking
import ChordOverlay.Proofs.Digits

/-!
# The grammar of the wire

A frame is a tag, eight hexadecimal digits, and as many bytes as they say, which fit the tag. Whatever is written is
read back as it was, and a stream is read as one message just when it is one frame.
-/

namespace ChordOverlay

variable {limit n : Nat} {tag : UInt8} {kind : Kind} {digits body bytes rest : Bytes} {m : Message} {ms : List Message}

theorem Kind.tag_of_ofTag? (h : ofTag? tag = some kind) : kind.tag = tag := by
  have hfound := List.find?_some h
  exact beq_iff_eq.mp hfound

theorem Kind.ofTag?_eq_none : ofTag? tag = none ↔ ∀ kind : Kind, kind.tag ≠ tag := by
  constructor
  · intro h kind hkind
    rw [← hkind, ofTag?_tag] at h
    cases h
  · exact fun h => Option.eq_none_iff_forall_ne_some.mpr fun kind hkind => h kind (tag_of_ofTag? hkind)

/-! ## Frames that are written -/

namespace Message

/-- Writes messages one after another behind what is in the buffer. -/
def write (limit : Nat) (buffer : Bytes) : List Message → Except Failure Bytes
  | [] => .ok buffer
  | m :: ms =>
    match m.frame limit with
    | .error e => .error e
    | .ok frame => write limit (buffer ++ frame) ms

/-- The frame of a message whose length eight digits can tell. -/
def wire (m : Message) : Bytes := m.kind.tag :: (upperHex 8 m.body.length ++ m.body)

theorem frame_eq (hlimit : m.body.length ≤ limit) (hsize : m.body.length < UInt32.size) :
    m.frame limit = .ok m.wire := by
  have hmin : min m.body.length maxDeclared = m.body.length := Nat.min_eq_left (Nat.le_sub_one_of_lt hsize)
  rw [frame, hmin, if_neg (Nat.not_lt.mpr hlimit)]
  rfl

theorem write_eq (hfit : ∀ m ∈ ms, m.body.length ≤ limit ∧ m.body.length < UInt32.size) (buffer : Bytes) :
    write limit buffer ms = .ok (buffer ++ ms.flatMap wire) := by
  induction ms generalizing buffer with
  | nil => rw [List.flatMap_nil, List.append_nil, write]
  | cons m ms ih =>
      obtain ⟨hlimit, hsize⟩ := hfit m List.mem_cons_self
      rw [write, frame_eq hlimit hsize, List.flatMap_cons, ← List.append_assoc]
      exact ih (fun m' hm' => hfit m' (List.mem_cons_of_mem m hm')) (buffer ++ m.wire)

end Message

namespace Codec

/-! ## Frames that are read -/

theorem decode_short (h : bytes.length < Header.size) :
    (start limit).decode bytes = ⟨start limit, bytes, .ok none⟩ := by
  rw [decode_eq, frameHead]
  simp only [start, if_pos h]

/-- What nine bytes decide: the tag is looked at first, then the digits, then the limit. -/
theorem decode_parts (limit : Nat) (hdigits : digits.length = 8) (tag : UInt8) (rest : Bytes) :
    (start limit).decode (tag :: (digits ++ rest)) =
      match Kind.ofTag? tag with
      | none => ⟨start limit, tag :: (digits ++ rest), .error (.unknownKind tag)⟩
      | some kind =>
        match Header.readLength digits with
        | .error fault => ⟨start limit, tag :: (digits ++ rest), .error fault.failure⟩
        | .ok length =>
          if limit < length then ⟨start limit, tag :: (digits ++ rest), .error (.tooLarge length limit)⟩
          else (start limit).decodeBody ⟨kind, length⟩ rest := by
  have hlong : ¬ (tag :: (digits ++ rest)).length < Header.size := by
    rw [List.length_cons, List.length_append, Header.size]
    omega
  have hdrop : (tag :: (digits ++ rest)).drop Header.size = rest := by
    rw [Header.size, List.drop_succ_cons, ← hdigits, List.drop_left]
  simp only [decode, start, if_neg hlong, Header.read_parts hdigits, hdrop]
  cases Kind.ofTag? tag with
  | none => rfl
  | some kind => cases Header.readLength digits <;> rfl

theorem decodeBody_append (kind : Kind) (body rest : Bytes) :
    (start limit).decodeBody ⟨kind, body.length⟩ (body ++ rest) =
      ⟨start limit, rest, ((Body.read kind body).mapError BodyFault.failure).map some⟩ := by
  have hlong : ¬ (body ++ rest).length < body.length := by
    rw [List.length_append]
    omega
  simp only [decodeBody, if_neg hlong, List.take_left, List.drop_left, Message.ofBody, if_true]
  rfl

end Codec

/-! ## The grammar -/

/-- The frames for a reader with this limit: the tag, the digits and the body of one. -/
structure IsFrame (limit : Nat) (kind : Kind) (digits body bytes : Bytes) : Prop where
  parts : bytes = kind.tag :: (digits ++ body)
  eight : digits.length = 8
  declared : hexNumber? digits = some body.length
  within : body.length ≤ limit
  fits : kind.Fits body

/-- The frame that is written for what a frame is read as: upper-case digits, and nothing left out. -/
def rewritten (kind : Kind) (digits body : Bytes) : Bytes :=
  match kind, body with
  | .lookup, [a, b, c, d] => "S00000005".toList.map Char.toUInt8 ++ [a, b, c, d, 32]
  | .aliveCheck, [] => "A00000001Y".toList.map Char.toUInt8
  | kind, body => kind.tag :: (digits.map upperDigit ++ body)

/-- Apart from the two short forms, nothing is filled in. -/
theorem Kind.Fits.complete_cases (h : kind.Fits body) :
    (kind = .lookup ∧ ∃ a b c d, body = [a, b, c, d]) ∨ (kind = .aliveCheck ∧ body = []) ∨
      (kind.complete body = body ∧
        ∀ digits, rewritten kind digits body = kind.tag :: (digits.map upperDigit ++ body)) := by
  cases kind with
  | lookup =>
      rcases h with h | h
      · match body, h with
        | [a, b, c, d], _ => exact Or.inl ⟨rfl, a, b, c, d, rfl⟩
      · match body, h with
        | [a, b, c, d, ttl], _ => exact Or.inr (Or.inr ⟨rfl, fun _ => rfl⟩)
  | aliveCheck =>
      rcases h with rfl | rfl
      · exact Or.inr (Or.inl ⟨rfl, rfl⟩)
      · exact Or.inr (Or.inr ⟨rfl, fun _ => rfl⟩)
  | lookupReport | predecessorQuery | predecessorReport | aliveReport | notice | noticeReport | payload | unknown =>
      exact Or.inr (Or.inr ⟨rfl, fun _ => rfl⟩)

namespace IsFrame

theorem wire_eq (h : IsFrame limit kind digits body bytes) (hkind : m.kind = kind)
    (hbody : m.body = kind.complete body) : m.body.length < UInt32.size ∧ m.wire = rewritten kind digits body := by
  rw [Message.wire, hkind, hbody]
  obtain ⟨rfl, a, b, c, d, rfl⟩ | ⟨rfl, rfl⟩ | ⟨hcomplete, hrewritten⟩ := h.fits.complete_cases
  · have hdigits : upperHex 8 5 = "00000005".toList.map Char.toUInt8 := by decide +kernel
    refine ⟨show 5 < UInt32.size by decide, ?_⟩
    change Kind.lookup.tag :: (upperHex 8 5 ++ [a, b, c, d, 32]) = _
    rw [hdigits]
    rfl
  · have hdigits : upperHex 8 1 = "00000001".toList.map Char.toUInt8 := by decide +kernel
    refine ⟨show 1 < UInt32.size by decide, ?_⟩
    change Kind.aliveCheck.tag :: (upperHex 8 1 ++ [Body.yes]) = _
    rw [hdigits]
    rfl
  · have hsome : digits ≠ [] := List.ne_nil_of_length_pos (by rw [h.eight]; decide)
    have hsmall := hexNumber?_lt h.declared
    have hupper := upperHex_of_hexNumber? hsome h.declared
    rw [h.eight] at hsmall hupper
    rw [hcomplete, hrewritten, hupper]
    exact ⟨hsmall, rfl⟩

/-- A frame is decoded as the message its completed body is written for, whatever stands behind it. -/
theorem decode (h : IsFrame limit kind digits body bytes) (rest : Bytes) :
    ∃ m, m.kind = kind ∧ m.body = kind.complete body ∧
      (Codec.start limit).decode (bytes ++ rest) = ⟨.start limit, rest, .ok (some m)⟩ := by
  obtain ⟨m, hkind, hbody, hread⟩ := Body.exists_of_fits h.fits
  refine ⟨m, hkind, hbody, ?_⟩
  rw [h.parts, List.cons_append, List.append_assoc, Codec.decode_parts limit h.eight, Kind.ofTag?_tag,
    readLength_eq_ok.mpr h.declared]
  simp only [if_neg (Nat.not_lt.mpr h.within), Codec.decodeBody_append, hread]
  rfl

end IsFrame

namespace Codec

/-! ## Written streams -/

/-- Attempt after attempt gives these messages, and then leaves this codec and these bytes. -/
def Yields (c : Codec) (buffer : Bytes) : List Message → Codec × Bytes → Prop
  | [], s => (c, buffer) = s
  | m :: ms, s => ∃ c' left, c.decode buffer = ⟨c', left, .ok (some m)⟩ ∧ Yields c' left ms s

theorem drain_of_yields {c : Codec} {buffer : Bytes} {s : Codec × Bytes} (h : c.Yields buffer ms s) (hquiet : Quiet s) :
    c.drain buffer = ⟨ms, .ok s⟩ := by
  induction ms generalizing c buffer with
  | nil =>
      cases h
      exact hquiet
  | cons m ms ih =>
      obtain ⟨c', left, hdecode, h⟩ := h
      rw [drain_of_message hdecode, ih h]
      rfl

/-- A body that is as long as its header says is read, whatever stands behind it. -/
theorem decode_declared (hlimit : body.length ≤ limit) (hsize : body.length < UInt32.size) (kind : Kind) (rest : Bytes) :
    (start limit).decode ((Header.mk kind body.length).toBytes ++ (body ++ rest)) =
      ⟨start limit, rest, ((Body.read kind body).mapError BodyFault.failure).map some⟩ := by
  obtain ⟨hlength, hnumber⟩ := @upperHex_spec 8 body.length (by decide) hsize
  change (start limit).decode (kind.tag :: (upperHex 8 body.length ++ (body ++ rest))) = _
  rw [decode_parts limit hlength, Kind.ofTag?_tag, readLength_eq_ok.mpr hnumber]
  simp only [if_neg (Nat.not_lt.mpr hlimit), decodeBody_append]

theorem decode_written (hlimit : m.body.length ≤ limit) (hsize : m.body.length < UInt32.size) (more : Bytes) :
    (start limit).decode (m.wire ++ more) = ⟨start limit, more, .ok (some m)⟩ := by
  have hwire : m.wire = (Header.mk m.kind m.body.length).toBytes ++ m.body := rfl
  rw [hwire, List.append_assoc, decode_declared hlimit hsize, Body.read_body]
  rfl

theorem yields_written (hfit : ∀ m ∈ ms, m.body.length ≤ limit ∧ m.body.length < UInt32.size) (more : Bytes) :
    (start limit).Yields (ms.flatMap Message.wire ++ more) ms (start limit, more) := by
  induction ms with
  | nil => rfl
  | cons m ms ih =>
      obtain ⟨hlimit, hsize⟩ := hfit m List.mem_cons_self
      refine ⟨start limit, ms.flatMap Message.wire ++ more, ?_, ih fun m' hm' => hfit m' (List.mem_cons_of_mem m hm')⟩
      rw [List.flatMap_cons, List.append_assoc, decode_written hlimit hsize]

/--
Messages that are written one behind the other are read back as they were: nothing is left of them and nothing is
waited for, and what stands behind them is still to be read.
-/
theorem written_stream_is_read (hfit : ∀ m ∈ ms, m.body.length ≤ limit ∧ m.body.length < UInt32.size) :
    ∃ bytes, Message.write limit [] ms = .ok bytes ∧
      drain (start limit) bytes = ⟨ms, .ok (start limit, [])⟩ ∧
      decodeEnd (start limit) [] = ⟨start limit, [], .ok none⟩ ∧
      ∀ more, (start limit).Yields (bytes ++ more) ms (start limit, more) := by
  have hyields := yields_written hfit
  have hall := hyields []
  rw [List.append_nil] at hall
  exact ⟨ms.flatMap Message.wire, Message.write_eq hfit [], drain_of_yields hall (quiet_start limit), rfl, hyields⟩

/-- A message of every kind. -/
def oneOfEach : List Message :=
  let peer : Peer := ⟨⟨0x01020304⟩, ⟨10, 0, 0, 1⟩, 42000⟩
  [.lookup ⟨0xFFFFFFFF⟩ 7, .lookupReport (some peer), .predecessorQuery ⟨0⟩, .predecessorReport none, .aliveCheck,
    .aliveReport false, .notice ⟨9⟩ 80, .noticeReport true, .payload [0, 255], .unknown []]

theorem written_stream_is_read_kinds :
    (∀ m ∈ oneOfEach, m.body.length ≤ 11 ∧ m.body.length < UInt32.size) ∧
      ∃ bytes, Message.write 11 [] oneOfEach = .ok bytes ∧
        drain (start 11) bytes = ⟨oneOfEach, .ok (start 11, [])⟩ ∧
        decodeEnd (start 11) [] = ⟨start 11, [], .ok none⟩ ∧
        ∀ more, (start 11).Yields (bytes ++ more) oneOfEach (start 11, more) :=
  ⟨by decide, written_stream_is_read (by decide)⟩

/-! ## What is read as one message -/

/-- The failures that bytes can have. -/
inductive OfWire : Failure → Prop
  | unknownKind (tag : UInt8) : OfWire (.unknownKind tag)
  | malformedHeader (what : String) : OfWire (.malformedHeader what)
  | tooLarge (size limit : Nat) : OfWire (.tooLarge size limit)
  | malformedBody (what : String) : OfWire (.malformedBody what)

theorem readStream_one (limit : Nat) (bytes : Bytes) :
    readStream limit [bytes] = ((start limit).drain bytes).andThen close := by
  rw [readStream, feed_eq (quiet_start limit), List.flatten_singleton]
  rfl

theorem readStream_of_message (h : (start limit).decode bytes = ⟨start limit, rest, .ok (some m)⟩) :
    readStream limit [bytes] = (readStream limit [rest]).cons m := by
  rw [readStream_one, readStream_one, drain_of_message h, Reading.cons_andThen]

theorem readStream_of_error {e : Failure} (h : ((start limit).decode bytes).result = .error e) :
    readStream limit [bytes] = .failed e := by
  rw [readStream_one, drain_of_error h, Reading.failed_andThen]

/-- A stream must not end while its reader waits, unless it waits for a frame to begin. -/
theorem readStream_of_wait {c : Codec} (h : (start limit).decode bytes = ⟨c, rest, .ok none⟩)
    (hopen : (rest.isEmpty && c.header.isNone) = false) :
    readStream limit [bytes] = .failed (BodyFault.cut rest.length).failure := by
  have hagain : c.decode rest = ⟨c, rest, .ok none⟩ := by
    have happend := decode_append (start limit) bytes []
    rw [h] at happend
    simpa [h] using happend.symm
  rw [readStream_one, drain_of_wait h, Reading.ofRest_andThen, close, decodeEnd, hagain]
  simp only [hopen, Bool.false_eq_true, if_false]

theorem readStream_nil (limit : Nat) : readStream limit [[]] = .ofRest () := by
  rw [readStream_one, quiet_start, Reading.ofRest_andThen]
  rfl

/-- Behind a header, a body that fits is read, and anything else is refused. -/
theorem readStream_of_header (h : (start limit).decode bytes = (start limit).decodeBody ⟨kind, n⟩ rest) :
    (∃ e, OfWire e ∧ readStream limit [bytes] = .failed e) ∨
      ∃ body rest' m, rest = body ++ rest' ∧ body.length = n ∧ kind.Fits body ∧
        readStream limit [bytes] = (readStream limit [rest']).cons m := by
  by_cases hcut : rest.length < n
  · rw [decodeBody, if_pos hcut] at h
    exact Or.inl ⟨_, .malformedBody _, readStream_of_wait h (Bool.and_false _)⟩
  · obtain ⟨body, rest', rfl, rfl⟩ : ∃ body rest', rest = body ++ rest' ∧ body.length = n :=
      ⟨rest.take n, rest.drop n, (List.take_append_drop n rest).symm, List.length_take_of_le (Nat.not_lt.mp hcut)⟩
    rw [decodeBody_append] at h
    cases hread : Body.read kind body with
    | error fault =>
        rw [hread] at h
        exact Or.inl ⟨fault.failure, .malformedBody _, readStream_of_error (by rw [h]; rfl)⟩
    | ok m =>
        rw [hread] at h
        exact Or.inr ⟨body, rest', m, rfl, rfl, Body.fits_of_read hread, readStream_of_message h⟩

/-- How the reading of a stream begins. -/
theorem readStream_cases (limit : Nat) (bytes : Bytes) :
    bytes = [] ∨ (∃ e, OfWire e ∧ readStream limit [bytes] = .failed e) ∨
      ∃ kind digits body frame rest m, bytes = frame ++ rest ∧ IsFrame limit kind digits body frame ∧
        readStream limit [bytes] = (readStream limit [rest]).cons m := by
  by_cases hshort : bytes.length < Header.size
  · by_cases hnil : bytes = []
    · exact Or.inl hnil
    · have hopen : (bytes.isEmpty && (start limit).header.isNone) = false := by simp [hnil]
      exact Or.inr (Or.inl ⟨_, .malformedBody _, readStream_of_wait (decode_short hshort) hopen⟩)
  obtain ⟨tag, digits, rest, rfl, hdigits⟩ := Header.exists_parts (Nat.not_lt.mp hshort)
  have hdecode := decode_parts limit hdigits tag rest
  refine Or.inr ?_
  cases hkind : Kind.ofTag? tag with
  | none =>
      simp only [hkind] at hdecode
      exact Or.inl ⟨_, .unknownKind tag, readStream_of_error (by rw [hdecode])⟩
  | some kind =>
      obtain rfl := Kind.tag_of_ofTag? hkind
      cases hlength : Header.readLength digits with
      | error fault =>
          simp only [hkind, hlength] at hdecode
          exact Or.inl ⟨fault.failure, .malformedHeader _, readStream_of_error (by rw [hdecode])⟩
      | ok length =>
          simp only [hkind, hlength] at hdecode
          by_cases hlimit : limit < length
          · rw [if_pos hlimit] at hdecode
            exact Or.inl ⟨_, .tooLarge length limit, readStream_of_error (by rw [hdecode])⟩
          · rw [if_neg hlimit] at hdecode
            obtain hfailed | ⟨body, rest', m, rfl, rfl, hfits, hread⟩ := readStream_of_header hdecode
            · exact Or.inl hfailed
            · have hframe : IsFrame limit kind digits body (kind.tag :: (digits ++ body)) :=
                ⟨rfl, hdigits, readLength_eq_ok.mp hlength, Nat.not_lt.mp hlimit, hfits⟩
              exact Or.inr ⟨kind, digits, body, _, rest', m, by simp, hframe, hread⟩

/-- A stream ends cleanly or in a failure of its bytes. -/
theorem readStream_rest (limit : Nat) (bytes : Bytes) :
    (readStream limit [bytes]).rest = .ok () ∨ ∃ e, OfWire e ∧ (readStream limit [bytes]).rest = .error e := by
  induction hn : bytes.length using Nat.strong_induction_on generalizing bytes with
  | h n ih =>
      obtain rfl | ⟨e, he, hread⟩ | ⟨kind, digits, body, frame, rest, m, rfl, hframe, hread⟩ := readStream_cases limit bytes
      · exact Or.inl (by rw [readStream_nil]; rfl)
      · exact Or.inr ⟨e, he, by rw [hread]; rfl⟩
      · rw [hread]
        have hlt : rest.length < n := by
          rw [← hn, hframe.parts, List.length_append, List.length_cons]
          omega
        exact ih rest.length hlt rest rfl

theorem readStream_clean (h : readStream limit [bytes] = ⟨[], .ok ()⟩) : bytes = [] := by
  obtain hnil | ⟨e, he, hread⟩ | ⟨kind, digits, body, frame, rest, m, rfl, hframe, hread⟩ := readStream_cases limit bytes
  · exact hnil
  · rw [hread] at h
    cases h
  · rw [hread] at h
    cases h

theorem readStream_of_frame (h : IsFrame limit kind digits body bytes) :
    ∃ m, m.kind = kind ∧ m.body = kind.complete body ∧ readStream limit [bytes] = ⟨[m], .ok ()⟩ := by
  obtain ⟨m, hkind, hbody, hdecode⟩ := h.decode []
  rw [List.append_nil] at hdecode
  refine ⟨m, hkind, hbody, ?_⟩
  rw [readStream_of_message hdecode, readStream_nil]
  rfl

theorem exists_frame (h : readStream limit [bytes] = ⟨[m], .ok ()⟩) :
    ∃ kind digits body, IsFrame limit kind digits body bytes := by
  obtain rfl | ⟨e, he, hread⟩ | ⟨kind, digits, body, frame, rest, m', rfl, hframe, hread⟩ := readStream_cases limit bytes
  · rw [readStream_nil] at h
    cases h
  · rw [hread] at h
    cases h
  · rw [hread, Reading.cons] at h
    injection h with hmessages hrest
    injection hmessages with _ hmessages
    obtain rfl := readStream_clean (Reading.ext hmessages hrest)
    exact ⟨kind, digits, body, by rwa [List.append_nil]⟩

/-- What nine bytes decide by themselves: the tag comes before the digits, and these before the limit. -/
theorem decode_header (hdigits : digits.length = 8) (tag : UInt8) (rest : Bytes) :
    let result := ((start limit).decode (tag :: (digits ++ rest))).result
    ((∀ kind : Kind, kind.tag ≠ tag) → result = .error (.unknownKind tag)) ∧
      ∀ kind : Kind, kind.tag = tag →
        (hexNumber? digits = none → ∃ what, result = .error (.malformedHeader what)) ∧
          ∀ n, hexNumber? digits = some n → limit < n → result = .error (.tooLarge n limit) := by
  intro result
  have hdecode := decode_parts limit hdigits tag rest
  refine ⟨fun htag => ?_, fun kind hkind => ⟨fun hnone => ?_, fun n hn hlimit => ?_⟩⟩
  · rw [Kind.ofTag?_eq_none.mpr htag] at hdecode
    exact congrArg Outcome.result hdecode
  · subst hkind
    cases hlength : Header.readLength digits with
    | error fault =>
        simp only [Kind.ofTag?_tag, hlength] at hdecode
        exact ⟨_, congrArg Outcome.result hdecode⟩
    | ok length =>
        rw [readLength_eq_ok.mp hlength] at hnone
        cases hnone
  · subst hkind
    simp only [Kind.ofTag?_tag, readLength_eq_ok.mpr hn, if_pos hlimit] at hdecode
    exact congrArg Outcome.result hdecode

/--
A stream is read as one message just when it is one frame, and that message is written as the same frame in its full
form. Any other stream is empty, or has more than one message, or a failure of its bytes; and what nine bytes are
refused for is known without any that follow.
-/
theorem reads_the_grammar (limit : Nat) (bytes : Bytes) :
    ((∃ m, readStream limit [bytes] = ⟨[m], .ok ()⟩) ↔ ∃ kind digits body, IsFrame limit kind digits body bytes) ∧
    (∀ m kind digits body, readStream limit [bytes] = ⟨[m], .ok ()⟩ → IsFrame limit kind digits body bytes →
      ∀ limit', m.body.length ≤ limit' → m.frame limit' = .ok (rewritten kind digits body)) ∧
    ((¬ ∃ kind digits body, IsFrame limit kind digits body bytes) →
      (bytes = [] ∧ readStream limit [bytes] = ⟨[], .ok ()⟩) ∨
      (∃ m m' ms, readStream limit [bytes] = ⟨m :: m' :: ms, .ok ()⟩) ∨
      ∃ ms e, OfWire e ∧ readStream limit [bytes] = ⟨ms, .error e⟩) ∧
    (bytes.length < 9 → (start limit).decode bytes = ⟨start limit, bytes, .ok none⟩) ∧
    ∀ tag digits rest, bytes = tag :: (digits ++ rest) → digits.length = 8 →
      ((∀ kind : Kind, kind.tag ≠ tag) → ((start limit).decode bytes).result = .error (.unknownKind tag)) ∧
      ∀ kind : Kind, kind.tag = tag →
        (hexNumber? digits = none → ∃ what, ((start limit).decode bytes).result = .error (.malformedHeader what)) ∧
        ∀ n, hexNumber? digits = some n → limit < n →
          ((start limit).decode bytes).result = .error (.tooLarge n limit) := by
  refine ⟨⟨fun ⟨m, hread⟩ => exists_frame hread, fun ⟨kind, digits, body, hframe⟩ => ?_⟩,
    fun m kind digits body hread hframe limit' hlimit => ?_, fun hnone => ?_, decode_short, ?_⟩
  · obtain ⟨m, _, _, hread⟩ := readStream_of_frame hframe
    exact ⟨m, hread⟩
  · obtain ⟨m', hkind, hbody, hread'⟩ := readStream_of_frame hframe
    obtain rfl : m = m' := by
      rw [hread] at hread'
      cases hread'
      rfl
    obtain ⟨hsize, hwire⟩ := hframe.wire_eq hkind hbody
    rw [m.frame_eq hlimit hsize, hwire]
  · obtain hclean | ⟨e, he, herror⟩ := readStream_rest limit bytes
    · match hmessages : (readStream limit [bytes]).messages with
      | [] =>
        have hread : readStream limit [bytes] = ⟨[], .ok ()⟩ := Reading.ext hmessages hclean
        exact Or.inl ⟨readStream_clean hread, hread⟩
      | [m] => exact absurd (exists_frame (Reading.ext hmessages hclean)) hnone
      | m :: m' :: ms => exact Or.inr (Or.inl ⟨m, m', ms, Reading.ext hmessages hclean⟩)
    · exact Or.inr (Or.inr ⟨_, e, he, Reading.ext rfl herror⟩)
  · rintro tag digits rest rfl hdigits
    exact decode_header hdigits tag rest

end Codec
end ChordOverlay
