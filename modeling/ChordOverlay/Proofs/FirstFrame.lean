import ChordOverlay.Proofs.Bodies
import ChordOverlay.Proofs.Chunking
import ChordOverlay.Proofs.Surroundings

/-!
# The first frame of a connection

What is read first from a connection is what the codec decodes first from all that arrives, however that is cut into
pieces and wherever the first frame ends among them.
-/

namespace ChordOverlay

/-! ## What arrives -/

/-- What arrives on a connection before time is up: its pieces, and whether the end comes after them. -/
structure Inflow where
  pieces : List Bytes
  ended : Bool
  full : ∀ piece ∈ pieces, piece ≠ []

/-- What the read of this number brings. -/
def Inflow.nth (f : Inflow) (k : Nat) : Taken :=
  match f.pieces[k]? with
  | some bytes => .bytes bytes
  | none => if f.ended then .ended else .late

/-- The request is a read at this end. -/
def DialogOp.takes (e : End) : DialogOp → Bool
  | .take e' _ _ => e' = e
  | _ => false

theorem DialogOp.takes_eq_false {op : DialogOp} {e : End} (h : op.end? ≠ some e) : op.takes e = false := by
  cases op with
  | take e' => exact decide_eq_false fun heq => h (congrArg some heq)
  | _ => rfl

/-- The act is a read at this end. -/
def Act.takes (e : End) (act : Act) : Bool := act.op.takes e

theorem Act.countP_take {e : End} {past : List Act} (limit deadline : Option Nat) (taken : Taken) :
    (past ++ [Act.asked (.take e limit deadline) taken]).countP (Act.takes e) = past.countP (Act.takes e) + 1 := by
  simp [List.countP_append, Act.takes, Act.op, DialogOp.takes]

theorem of_drop_eq_cons {α : Type} {x : α} {xs rest : List α} {k : Nat} (h : xs.drop k = x :: rest) :
    xs[k]? = some x ∧ xs.drop (k + 1) = rest := by
  rw [← List.head?_drop, ← List.tail_drop, h]
  exact ⟨rfl, rfl⟩

/-- What is read at an end with this deadline is what arrives there, piece by piece. -/
def Surroundings.Brings (w : Surroundings) (e : End) (deadline : Option Nat) (f : Inflow) : Prop :=
  ∀ past, w.answer past (.take e none deadline) = f.nth (past.countP (Act.takes e))

/-- What is read at an end under a deadline is what arrives there, piece by piece. -/
def Surroundings.Delivers (w : Surroundings) (e : End) (f : Inflow) : Prop :=
  ∀ past deadline, w.answer past (.take e none (some deadline)) = f.nth (past.countP (Act.takes e))

/-- Surroundings in which nobody else is there, and all that is written is taken. -/
def Surroundings.quiet (e : End) (f : Inflow) : Surroundings where
  answer past
    | .look => (default : Member)
    | .app => (none : Option App)
    | .clock => (0 : Nat)
    | .connect target => (.error (.refused target) : Except NetFault End)
    | .push _ bytes _ => Pushed.accepted bytes.length
    | .take .. => f.nth (past.countP (Act.takes e))
    | .store _ | .note _ | .leave | .pause _ | .finish _ | .release _ => ()
  drift _ m := m
  calls h := by cases h
  moves hbytes h := by
    cases h
    exact List.length_pos_iff.mpr hbytes
  waits := nofun

theorem Surroundings.quiet_delivers (e : End) (f : Inflow) : (quiet e f).Delivers e f := fun _ _ => rfl

/-! ## What comes first -/

namespace Codec

variable {c c' : Codec} {buffer left : Bytes}

/-- The item that a decoding attempt gives, if it is known that no more bytes come or that more may come. -/
def Outcome.item (ended : Bool) (o : Outcome) : Option Item :=
  match o.result with
  | .ok (some m) => some (.message m)
  | .ok none => if ended then some .finished else none
  | .error e => some (.failure e)

/-- The first item of some bytes, with the end behind them or not. -/
def item (c : Codec) (ended : Bool) (buffer : Bytes) : Option Item :=
  ((if ended then c.decodeEnd buffer else c.decode buffer)).item ended

theorem Outcome.item_or_waits (o : Outcome) : (∃ item, o.item false = some item) ∨ o = ⟨o.codec, o.buffer, .ok none⟩ := by
  obtain ⟨c', left, e | _ | m⟩ := o
  · exact Or.inl ⟨_, rfl⟩
  · exact Or.inr rfl
  · exact Or.inl ⟨_, rfl⟩

/-- Bytes behind the first message, or behind what cannot be one, are not looked at. -/
theorem item_append {item : Item} (h : (c.decode buffer).item false = some item) (ended : Bool) (more : Bytes) :
    c.item ended (buffer ++ more) = some item := by
  have happend := decode_append c buffer more
  rcases hdecode : c.decode buffer with ⟨c', left, e | _ | m⟩ <;> rw [hdecode] at h happend
  · cases ended <;> simp_all [Codec.item, decodeEnd, Outcome.item]
  · cases h
  · cases ended <;> simp_all [Codec.item, decodeEnd, Outcome.item]

theorem item_of_wait (h : c.decode buffer = ⟨c', left, .ok none⟩) (ended : Bool) (more : Bytes) :
    c.item ended (buffer ++ more) = c'.item ended (left ++ more) := by
  have happend := decode_append c buffer more
  rw [h] at happend
  simp only [item, decodeEnd, happend]

/-- To have read `got` is to be where the codec is, with what is in the buffer. -/
def HasRead (c : Codec) (limit : Nat) (got buffer : Bytes) : Prop :=
  ∀ ended more, (start limit).item ended (got ++ more) = c.item ended (buffer ++ more)

theorem HasRead.feed {limit : Nat} {got : Bytes} (h : c.HasRead limit got buffer)
    (hwait : c.decode buffer = ⟨c', left, .ok none⟩) (bytes : Bytes) :
    c'.HasRead limit (got ++ bytes) (left ++ bytes) := fun ended more => by
  rw [List.append_assoc, List.append_assoc, h, item_of_wait hwait]

theorem HasRead.item {limit : Nat} {got : Bytes} (h : c.HasRead limit got buffer) (ended : Bool) :
    (start limit).item ended got = c.item ended buffer := by
  have hsame := h ended []
  rwa [List.append_nil, List.append_nil] at hsame

theorem result_of_item {m : Message} {ended : Bool} (h : c.item ended buffer = some (.message m)) :
    (c.decode buffer).result = .ok (some m) := by
  rcases hdecode : c.decode buffer with ⟨c', left, e | _ | message⟩
  · cases ended <;> simp_all [item, decodeEnd, Outcome.item]
  · cases ended with
    | false => simp_all [item, Outcome.item]
    | true =>
        simp only [item, if_true, decodeEnd, hdecode] at h
        split at h <;> cases h
  · cases ended <;> simp_all [item, decodeEnd, Outcome.item]

/-! ## How much a codec waits for -/

/-- A header is kept for a body of a length that is allowed. -/
def Fit (c : Codec) : Prop := ∀ header ∈ c.header, header.length ≤ c.limit

theorem fit_start (limit : Nat) : (start limit).Fit := nofun

/-- How many bytes are there, those of a header that was read included. -/
def stock (c : Codec) (buffer : Bytes) : Nat := buffer.length + Header.size * c.header.toList.length

theorem stock_append (c : Codec) (buffer more : Bytes) : c.stock (buffer ++ more) = c.stock buffer + more.length := by
  rw [stock, stock, List.length_append]
  omega

theorem stock_of_frameHead (hc : c.Fit) {header : Header} {rest : Bytes}
    (h : c.frameHead buffer = .ok (some (header, rest))) :
    header.length ≤ c.limit ∧ rest.length + Header.size = c.stock buffer := by
  unfold frameHead at h
  unfold stock
  cases hheader : c.header with
  | some kept =>
      simp only [hheader] at h
      cases h
      exact ⟨hc header hheader, rfl⟩
  | none =>
      simp only [hheader] at h
      split at h
      · cases h
      · rename_i hshort
        split at h
        · cases h
        · split at h
          · cases h
          · rename_i hlimit
            cases h
            refine ⟨Nat.not_lt.mp hlimit, ?_⟩
            rw [List.length_drop]
            exact Nat.sub_add_cancel (Nat.not_lt.mp hshort)

/-- A codec that waits keeps all that has arrived, and that is less than the largest frame. -/
theorem stock_of_wait (hc : c.Fit) (h : c.decode buffer = ⟨c', left, .ok none⟩) :
    c'.Fit ∧ c'.limit = c.limit ∧ c'.stock left = c.stock buffer ∧ c'.stock left < Header.size + c.limit := by
  rw [decode_eq] at h
  cases hhead : c.frameHead buffer with
  | error e => simp [hhead] at h
  | ok head =>
      cases head with
      | none =>
          simp only [hhead] at h
          cases h
          refine ⟨hc, rfl, rfl, ?_⟩
          unfold frameHead at hhead
          unfold stock
          cases hheader : c.header with
          | some kept => simp [hheader] at hhead
          | none =>
              simp only [hheader] at hhead
              split at hhead
              · rename_i hshort
                simp only [Option.toList_none, List.length_nil]
                omega
              · split at hhead
                · cases hhead
                · split at hhead <;> cases hhead
      | some head =>
          obtain ⟨header, rest⟩ := head
          obtain ⟨hlength, hstock⟩ := stock_of_frameHead hc hhead
          simp only [hhead, decodeBody] at h
          split at h
          · rename_i hshort
            cases h
            refine ⟨fun kept hkept => Option.mem_some_iff.mp hkept ▸ hlength, rfl, hstock, ?_⟩
            simp only [stock, Option.toList_some, List.length_singleton]
            omega
          · simp only [Outcome.mk.injEq] at h
            cases hbody : Message.ofBody header (rest.take header.length) <;> simp [hbody, Except.map] at h

/-- A message comes from a body that is allowed and fits its kind. -/
theorem exists_body (hc : c.Fit) {m : Message} (h : (c.decode buffer).result = .ok (some m)) :
    ∃ body, body.length ≤ c.limit ∧ m.kind.Fits body := by
  rw [decode_eq] at h
  cases hhead : c.frameHead buffer with
  | error e => simp [hhead] at h
  | ok head =>
      cases head with
      | none => simp [hhead] at h
      | some head =>
          obtain ⟨header, rest⟩ := head
          obtain ⟨hlimit, -⟩ := stock_of_frameHead hc hhead
          have hread : Body.read header.kind (rest.take header.length) = .ok m := by
            simp only [hhead, decodeBody] at h
            split at h
            · cases h
            · simp only [Message.ofBody] at h
              split at h
              · cases hread : Body.read header.kind (rest.take header.length) <;>
                  simp_all [Except.map, Except.mapError]
              · cases h
          have hfits := Body.fits_of_read hread
          obtain ⟨m', hkind, -, hread'⟩ := Body.exists_of_fits hfits
          cases hread.symm.trans hread'
          exact ⟨_, Nat.le_trans (List.length_take_le _ _) hlimit, hkind ▸ hfits⟩

end Codec

/-- The first item on a connection, or nothing if time is up before it is there. -/
def Inflow.first (limit : Nat) (f : Inflow) : Option Item := (Codec.start limit).item f.ended f.pieces.flatten

theorem Inflow.exists_body {limit : Nat} {f : Inflow} {m : Message} (h : f.first limit = some (.message m)) :
    ∃ body, body.length ≤ limit ∧ m.kind.Fits body := by
  exact Codec.exists_body (Codec.fit_start limit) (Codec.result_of_item h)

/-! ## Reading it -/

/-- A stream whose bytes have just arrived. -/
def FrameStream.ready (c : Codec) (buffer : Bytes) : FrameStream := ⟨c, buffer, false, true, false⟩

/-- The item that was read. -/
def Trace.item (t : Trace (Option Item × FrameStream)) : Option Item := t.value.1

namespace Dialog

variable {w : Surroundings} {e : End} {f : Inflow} {past : List Act} {m : Member} {deadline : Option Nat}

theorem receive_start (limit : Nat) : receive e deadline (.start limit) =
    receiveIn e deadline (Header.size + limit + 3) (.ready (.start limit) []) := rfl

/-- As many reads as are allowed for are enough for the largest frame. -/
theorem fuel_receive (limit : Nat) (buffer : Bytes) : Header.size + (Codec.start limit).limit <
    (Codec.start limit).stock buffer + (Header.size + limit + 2) := by
  change Header.size + limit < _
  omega

theorem receiveIn_of_item {c : Codec} {buffer : Bytes} {item : Item} (h : (c.decode buffer).item false = some item)
    (e : End) (deadline : Option Nat) (n : Nat) :
    ∃ s, receiveIn e deadline (n + 1) (.ready c buffer) = .done (some item, s) := by
  have hpull : (FrameStream.ready c buffer).pull = (FrameStream.ready c buffer).settle (c.decode buffer) := rfl
  rw [receiveIn, hpull]
  rcases hdecode : c.decode buffer with ⟨c', left, f | _ | message⟩ <;> rw [hdecode] at h
  · cases h
    exact ⟨_, rfl⟩
  · cases h
  · cases h
    exact ⟨_, rfl⟩

theorem receiveIn_of_wait {c c' : Codec} {buffer left : Bytes} (h : c.decode buffer = ⟨c', left, .ok none⟩)
    (e : End) (deadline : Option Nat) (n : Nat) : receiveIn e deadline (n + 1) (.ready c buffer) =
      perform (.take e none deadline) >>= fun taken : Taken => match taken with
        | .bytes bytes => receiveIn e deadline n (.ready c' (left ++ bytes))
        | .late => pure (none, ⟨c', left, false, false, false⟩)
        | .ended => receiveIn e deadline n ⟨c', left, true, true, false⟩ := by
  have hpull : (FrameStream.ready c buffer).pull = (FrameStream.ready c buffer).settle (c.decode buffer) := rfl
  rw [receiveIn, hpull, h]
  refine congrArg (Program.ask (I := DialogOps) (DialogOp.take e none deadline)) (funext fun taken => ?_)
  cases (taken : Taken) <;> rfl

theorem receiveIn_ended (c : Codec) (left : Bytes) (e : End) (deadline : Option Nat) (n : Nat) :
    ∃ s, receiveIn e deadline (n + 1) ⟨c, left, true, true, false⟩ = .done (c.item true left, s) := by
  have hpull : FrameStream.pull ⟨c, left, true, true, false⟩ =
      FrameStream.settle ⟨c, left, true, true, false⟩ (c.decodeEnd left) := rfl
  rw [receiveIn, hpull]
  rcases hdecode : c.decodeEnd left with ⟨c', left, f | _ | message⟩ <;>
    exact ⟨_, by simp [FrameStream.settle, Codec.item, hdecode, Codec.Outcome.item]; rfl⟩

theorem item_receiveIn (hw : w.Brings e deadline f) {rest : List Bytes} (hrest : f.pieces.drop (past.countP (Act.takes e)) = rest)
    {c : Codec} (hc : c.Fit) {buffer : Bytes} {n : Nat} (hn : Header.size + c.limit < c.stock buffer + n) :
    (run w (receiveIn e deadline (n + 1) (.ready c buffer)) past m).item =
      c.item f.ended (buffer ++ rest.flatten) := by
  -- A codec that still waits holds less than the largest frame and gets more with every piece, so the fuel cannot run
  -- out before the pieces or the waiting do.
  induction rest generalizing past m c buffer n with
  | nil =>
      rcases (c.decode buffer).item_or_waits with ⟨item, hitem⟩ | hwait
      · obtain ⟨s, heq⟩ := receiveIn_of_item hitem e deadline n
        rw [heq, Codec.item_append hitem]
        rfl
      · obtain ⟨-, hlimit, hstock, hsmall⟩ := Codec.stock_of_wait hc hwait
        obtain ⟨n, rfl⟩ : ∃ k, n = k + 1 := ⟨n - 1, by omega⟩
        rw [receiveIn_of_wait hwait]
        refine meets (Q := fun t => Trace.item t = _) (.take e none deadline) trivial fun taken m' hanswer _ => ?_
        rw [hw, Inflow.nth, List.getElem?_eq_none (List.drop_eq_nil_iff.mp hrest)] at hanswer
        simp only at hanswer
        split at hanswer
        · rename_i hended
          cases hanswer
          obtain ⟨s, heq⟩ := receiveIn_ended (c.decode buffer).codec (c.decode buffer).buffer e deadline n
          rw [hended, Codec.item_of_wait hwait, List.flatten_nil, List.append_nil]
          simp only [heq]
          rfl
        · rename_i hended
          cases hanswer
          rw [show f.ended = false by simpa using hended, List.flatten_nil, List.append_nil, Codec.item]
          simp only [Bool.false_eq_true, if_false]
          rw [hwait]
          rfl
  | cons piece rest ih =>
      rcases (c.decode buffer).item_or_waits with ⟨item, hitem⟩ | hwait
      · obtain ⟨s, heq⟩ := receiveIn_of_item hitem e deadline n
        rw [heq, Codec.item_append hitem]
        rfl
      · obtain ⟨hfit, hlimit, hstock, hsmall⟩ := Codec.stock_of_wait hc hwait
        obtain ⟨n, rfl⟩ : ∃ k, n = k + 1 := ⟨n - 1, by omega⟩
        rw [receiveIn_of_wait hwait, Codec.item_of_wait hwait]
        refine meets (Q := fun t => Trace.item t = _) (.take e none deadline) trivial fun taken m' hanswer _ => ?_
        obtain ⟨hpiece, hrest'⟩ := of_drop_eq_cons hrest
        rw [← Act.countP_take none deadline (.bytes piece)] at hrest'
        rw [hw, Inflow.nth, hpiece] at hanswer
        cases hanswer
        have hpositive : 0 < piece.length := List.length_pos_iff.mpr (f.full piece (List.mem_of_getElem? hpiece))
        rw [List.flatten_cons, ← List.append_assoc]
        refine ih hrest' hfit ?_
        rw [Codec.stock_append]
        omega

/-- What is read first is what comes first, and there is time for it whatever the pieces are. -/
theorem item_receive (hw : w.Brings e deadline f) (hpast : past.countP (Act.takes e) = 0) (limit : Nat) :
    (run w (receive e deadline (.start limit)) past m).item = f.first limit := by
  rw [receive_start, item_receiveIn hw rfl (Codec.fit_start limit) (fuel_receive limit []), hpast]
  rfl

end Dialog

end ChordOverlay
