import ChordOverlay.Proofs.Handlers

/-!
# Conversations

However the bytes of a connection are cut, and however many of them are there before the application is called, the
application is told of every payload that was sent, in order, and then of how the connection ended. What is read ahead
of one payload stays with the connection and is not lost to the next.
-/

namespace ChordOverlay

/-! ## What arrives -/

/-- These pieces are there to be read at an end with this deadline. -/
def Surroundings.Hands (w : Surroundings) (e : End) (deadline : Option Nat) (pieces : List Bytes) : Prop :=
  ∀ past piece, pieces[past.countP (Act.takes e)]? = some piece → w.answer past (.take e none deadline) = Taken.bytes piece

/-- When time is up for the first frame of a connection that is served from now on. -/
def Surroundings.due (w : Surroundings) (m : Member) : Nat :=
  let start : Nat := w.answer [] .clock
  start + m.settings.patience

/-- What is done while the first frame of a connection is waited for. -/
def Surroundings.listening (w : Surroundings) (inbound : Inbound) (m : Member) : List Act :=
  (Dialog.run w (Dialog.listen m.settings inbound.here) [] m).acts

/-- All that is sent on a connection until it is closed, of which the early pieces are there when time is up. -/
structure Surroundings.Conveys (w : Surroundings) (e : End) (due : Nat) (early : List Bytes) (f : Inflow) : Prop where
  prompt : w.Hands e (some due) early
  patient : w.Brings e none f
  order : early <+: f.pieces
  closed : f.ended = true

theorem Surroundings.Brings.hands {w : Surroundings} {e : End} {deadline : Option Nat} {f : Inflow}
    (h : w.Brings e deadline f) : w.Hands e deadline f.pieces := fun past piece hpiece => by
  rw [h, Inflow.nth, hpiece]

/-! ## Reading on -/

namespace Dialog

variable {w : Surroundings} {e : End} {deadline : Option Nat} {past : List Act} {m : Member} {message : Message}

theorem receiveIn_of_message {c c' : Codec} {buffer left : Bytes} (h : c.decode buffer = ⟨c', left, .ok (some message)⟩)
    (n : Nat) : receiveIn e deadline (n + 1) (.ready c buffer) = .done (some (.message message), .ready c' left) := by
  have hpull : (FrameStream.ready c buffer).pull = (FrameStream.ready c buffer).settle (c.decode buffer) := rfl
  rw [receiveIn, hpull, h]
  rfl

/-- A message is read, and nothing of what is behind it is lost: it is in the buffer or still to come. -/
structure Reads (e : End) (pieces : List Bytes) (message : Message) (c : Codec) (left : Bytes) (got : Bytes)
    (t : Trace (Option Item × FrameStream)) : Prop where
  value : t.value = (some (.message message), .ready c got)
  taken : t.acts.countP (Act.takes e) ≤ pieces.length
  kept : got ++ (pieces.drop (t.acts.countP (Act.takes e))).flatten = left

theorem Reads.since {piece : Bytes} {pieces : List Bytes} {c : Codec} {left got : Bytes}
    {t : Trace (Option Item × FrameStream)} (h : Reads e pieces message c left got t) :
    Reads e (piece :: pieces) message c left got (t.since [.asked (.take e none deadline) (Taken.bytes piece)]) := by
  have hcount : (t.since [.asked (.take e none deadline) (Taken.bytes piece)]).acts.countP (Act.takes e) =
      t.acts.countP (Act.takes e) + 1 := by
    simp [Act.takes, Act.op, DialogOp.takes]
  refine ⟨h.value, ?_, ?_⟩
  · rw [hcount]
    exact Nat.succ_le_succ h.taken
  · rw [hcount]
    exact h.kept

theorem reads_receiveIn {pieces rest : List Bytes} (hw : w.Hands e deadline pieces) (hfull : ∀ piece ∈ pieces, piece ≠ [])
    (hrest : pieces.drop (past.countP (Act.takes e)) = rest) {c c' : Codec} (hc : c.Fit) {buffer left : Bytes} {n : Nat}
    (hn : Header.size + c.limit < c.stock buffer + n)
    (hdecode : c.decode (buffer ++ rest.flatten) = ⟨c', left, .ok (some message)⟩) :
    ∃ got, Reads e rest message c' left got (run w (receiveIn e deadline (n + 1) (.ready c buffer)) past m) := by
  -- From piece to piece, what is decoded from the buffer and all that is still to come stays the same.
  induction rest generalizing past m c buffer n with
  | nil =>
      rw [List.flatten_nil, List.append_nil] at hdecode
      rw [receiveIn_of_message hdecode]
      exact ⟨left, rfl, Nat.le_refl _, List.append_nil left⟩
  | cons piece rest ih =>
      have happend := Codec.decode_append c buffer (piece :: rest).flatten
      rcases hhead : c.decode buffer with ⟨c₁, left₁, failure | _ | first⟩ <;> rw [hhead, hdecode] at happend
      · cases happend
      · obtain ⟨hfit, hlimit, hstock, hsmall⟩ := Codec.stock_of_wait hc hhead
        obtain ⟨n, rfl⟩ : ∃ k, n = k + 1 := ⟨n - 1, by omega⟩
        obtain ⟨hpiece, hrest'⟩ := of_drop_eq_cons hrest
        rw [← Act.countP_take none deadline (.bytes piece)] at hrest'
        rw [receiveIn_of_wait hhead]
        refine meets (Q := fun t => ∃ got, Reads e (piece :: rest) message c' left got t) (.take e none deadline) trivial
          fun taken m' hanswer _ => ?_
        rw [hw past piece hpiece] at hanswer
        cases hanswer
        have hpositive : 0 < piece.length := List.length_pos_iff.mpr (hfull piece (List.mem_of_getElem? hpiece))
        have hmore : c₁.decode (left₁ ++ piece ++ rest.flatten) = ⟨c', left, .ok (some message)⟩ := by
          rw [List.append_assoc, ← List.flatten_cons, ← happend]
        have hfuel : Header.size + c₁.limit < c₁.stock (left₁ ++ piece) + n := by
          rw [Codec.stock_append]
          omega
        obtain ⟨got, hreads⟩ := ih (m := m') hrest' hfit hfuel hmore
        exact ⟨got, hreads.since⟩
      · cases happend
        rw [receiveIn_of_message hhead]
        exact ⟨left₁, rfl, Nat.zero_le _, rfl⟩

end Dialog

/-! ## What the application is told -/

/-- How a connection ends behind its payloads, and what the application is told of that. -/
inductive Ending (limit : Nat) : Bytes → Except Failure (Option Bytes) → Prop
  | closed : Ending limit [] (.ok none)
  | other {tail : Bytes} {m : Message} (kind : m.kind ≠ .payload)
      (frame : ((Codec.start limit).decode tail).result = .ok (some m)) :
      Ending limit tail (.error (.unexpectedReply m.describe))
  | malformed {tail : Bytes} {f : Failure} (fault : ((Codec.start limit).decode tail).result = .error f) :
      Ending limit tail (.error f)
  | cut {tail left : Bytes} {c : Codec} (something : tail ≠ [])
      (waits : (Codec.start limit).decode tail = ⟨c, left, .ok none⟩) :
      Ending limit tail (.error (BodyFault.cut left.length).failure)

/-- What the application is told of an item. -/
def Item.told : Item → Except Failure (Option Bytes)
  | .message (.payload bytes) => .ok (some bytes)
  | .message m => .error (.unexpectedReply m.describe)
  | .failure f => .error f
  | .finished => .ok none

theorem Ending.exists_item {limit : Nat} {tail : Bytes} {last : Except Failure (Option Bytes)} (h : Ending limit tail last) :
    ∃ item, (Codec.start limit).item true tail = some item ∧ item.told = last := by
  cases h with
  | closed => exact ⟨.finished, rfl, rfl⟩
  | @other _ m kind frame =>
      refine ⟨.message m, by simp [Codec.item, Codec.decodeEnd, Codec.Outcome.item, frame], ?_⟩
      cases m <;> first | rfl | exact absurd rfl kind
  | @malformed _ f fault =>
      exact ⟨.failure f, by simp [Codec.item, Codec.decodeEnd, Codec.Outcome.item, fault], rfl⟩
  | @cut _ left c something waits =>
      -- All of the tail is in stock, as bytes or as a header, so there is something to cut.
      obtain ⟨-, -, hstock, -⟩ := Codec.stock_of_wait (Codec.fit_start limit) waits
      have hsome : (left.isEmpty && c.header.isNone) = false := by
        rw [Bool.eq_false_iff]
        intro hnone
        obtain ⟨hleft, hheader⟩ := Bool.and_eq_true_iff.mp hnone
        rw [Codec.stock, Codec.stock, List.isEmpty_iff.mp hleft, Option.isNone_iff_eq_none.mp hheader] at hstock
        exact something (List.eq_nil_of_length_eq_zero (Nat.add_eq_zero_iff.mp hstock.symm).1)
      exact ⟨.failure (BodyFault.cut left.length).failure,
        by simp [Codec.item, Codec.decodeEnd, Codec.Outcome.item, waits, hsome], rfl⟩

/-- What is still to be read: what is in the buffer, and the pieces that have not been taken. -/
def Inflow.ahead (f : Inflow) (e : End) (past : List Act) (buffer : Bytes) : Bytes :=
  buffer ++ (f.pieces.drop (past.countP (Act.takes e))).flatten

theorem Inflow.ahead_append {e : End} {acts : List Act} (h : acts.countP (Act.takes e) = 0) (f : Inflow) (past : List Act)
    (buffer : Bytes) : f.ahead e (past ++ acts) buffer = f.ahead e past buffer := by
  rw [ahead, List.countP_append, h]
  rfl

namespace Dialog

variable {w : Surroundings} {e : End} {f : Inflow} {past : List Act} {m : Member} {deadline : Option Nat} {limit : Nat}
  {buffer : Bytes}

theorem nextPayload_eq (e : End) (s : FrameStream) : nextPayload e s = (receive e none s).bind fun received =>
    .done ((received.1.getD .finished).told, received.2) := by
  refine congrArg (Program.bind _) (funext fun received => ?_)
  obtain ⟨item, s⟩ := received
  rcases item with _ | message | _ | _
  · rfl
  · cases message <;> rfl
  · rfl
  · rfl

theorem receive_ready (limit : Nat) (buffer : Bytes) : receive e none (.ready (.start limit) buffer) =
    receiveIn e none (Header.size + limit + 2 + 1) (.ready (.start limit) buffer) := rfl

theorem ahead_of_only {α : Type} {d : Dialog α} (h : d.Only fun op => op.takes e = false) :
    f.ahead e (past ++ (run w d past m).acts) buffer = f.ahead e past buffer :=
  Inflow.ahead_append (List.countP_eq_zero.mpr fun act hact => by simp [Act.takes, h.acts act hact]) f past buffer

/-- The payload is read, and just what is behind it is still to be read. -/
def Receives (f : Inflow) (e : End) (limit : Nat) (payload more : Bytes) (past : List Act)
    (t : Trace (Option Item × FrameStream)) : Prop :=
  ∃ got, t.value = (some (.message (.payload payload)), .ready (.start limit) got) ∧ f.ahead e (past ++ t.acts) got = more

theorem receives_receiveIn {pieces late : List Bytes} (hw : w.Hands e deadline pieces) (hfull : ∀ piece ∈ pieces, piece ≠ [])
    (hlate : f.pieces.drop (past.countP (Act.takes e)) = pieces.drop (past.countP (Act.takes e)) ++ late)
    {payload more : Bytes} (hlimit : payload.length ≤ limit) (hsize : payload.length < UInt32.size)
    (hwhole : (Message.payload payload).wire <+: buffer ++ (pieces.drop (past.countP (Act.takes e))).flatten)
    (hahead : f.ahead e past buffer = (Message.payload payload).wire ++ more) :
    Receives f e limit payload more past
      (run w (receiveIn e deadline (Header.size + limit + 2 + 1) (.ready (.start limit) buffer)) past m) := by
  obtain ⟨between, hbetween⟩ := hwhole
  have hdecode := @Codec.decode_written limit (.payload payload) hlimit hsize between
  rw [hbetween] at hdecode
  have hmore : between ++ late.flatten = more := by
    rw [Inflow.ahead, hlate, List.flatten_append, ← List.append_assoc, ← hbetween, List.append_assoc] at hahead
    exact List.append_cancel_left hahead
  obtain ⟨got, hvalue, htaken, hkept⟩ := reads_receiveIn (m := m) hw hfull rfl (Codec.fit_start limit)
    (fuel_receive limit buffer) hdecode
  refine ⟨got, hvalue, ?_⟩
  rw [Inflow.ahead, List.countP_append, ← List.drop_drop, hlate, List.drop_append_of_le_length htaken, List.flatten_append,
    ← List.append_assoc, hkept, hmore]

theorem next_payload (hw : w.Brings e none f) {payload more : Bytes} (hlimit : payload.length ≤ limit)
    (hsize : payload.length < UInt32.size) (hahead : f.ahead e past buffer = (Message.payload payload).wire ++ more) :
    ∃ got, (run w (nextPayload e (.ready (.start limit) buffer)) past m).value =
        (.ok (some payload), .ready (.start limit) got) ∧
      f.ahead e (past ++ (run w (nextPayload e (.ready (.start limit) buffer)) past m).acts) got = more := by
  obtain ⟨got, hvalue, hkept⟩ := receives_receiveIn (m := m) hw.hands f.full (List.append_nil _).symm hlimit hsize
    ⟨more, hahead.symm⟩ hahead
  rw [nextPayload_eq, run_bind, receive_ready]
  refine ⟨got, by rw [hvalue]; rfl, ?_⟩
  rw [run_done, Trace.since_acts, List.append_nil]
  exact hkept

theorem next_last (hw : w.Brings e none f) (hended : f.ended = true) {tail : Bytes} {last : Except Failure (Option Bytes)}
    (hending : Ending limit tail last) (hahead : f.ahead e past buffer = tail) :
    (run w (nextPayload e (.ready (.start limit) buffer)) past m).value.1 = last := by
  obtain ⟨item, hitem, rfl⟩ := hending.exists_item
  have hread : (run w (receiveIn e none (Header.size + limit + 2 + 1) (.ready (.start limit) buffer)) past m).item = _ :=
    item_receiveIn hw rfl (Codec.fit_start limit) (fuel_receive limit buffer)
  rw [hended, ← Inflow.ahead, hahead, hitem, Trace.item] at hread
  rw [nextPayload_eq, run_bind, receive_ready]
  change ((run w (receiveIn _ _ _ _) past m).value.1.getD .finished).told = item.told
  rw [hread]
  rfl

end Dialog

/-! ## What is noted -/

/-- The note that is written down. -/
def DialogOp.note? : DialogOp → Option Note
  | .note entry => some entry
  | _ => none

/-- All that is written down, in order. -/
def noted (acts : List Act) : List Note := acts.filterMap fun act => act.op.note?

/-- How it is written down what an application is told when it asks for the next payload. -/
def Note.ofTold : Except Failure (Option Bytes) → Note
  | .ok (some payload) => .followed payload
  | .ok none => .closed
  | .error f => .failed f

theorem noted_append (xs ys : List Act) : noted (xs ++ ys) = noted xs ++ noted ys := List.filterMap_append

namespace Dialog

variable {w : Surroundings} {e : End} {past : List Act} {m : Member} {limit : Nat}

theorem noted_of_only {α : Type} {d : Dialog α} (h : d.Only fun op => op.note? = none) :
    noted (run w d past m).acts = [] := List.filterMap_eq_nil_iff.mpr h.acts

/-- Carried out, the handler writes down these notes, and then each time what it is told. -/
def Jots (handler : Handler e) (notes : List Note) : Prop :=
  ∀ (w : Surroundings) (past : List Act) (m : Member) (limit : Nat) (s : FrameStream),
    noted (run w (conduct e limit handler s) past m).acts =
      notes ++ (run w (conduct e limit handler s) past m).value.map Note.ofTold

theorem jots_done : Jots (e := e) (.done ()) [] := fun _ _ _ _ _ => rfl

theorem jots_next {next : Except Failure (Option Bytes) → Handler e} (h : ∀ told, Jots (next told) [.ofTold told]) :
    Jots (.ask .next next) [] := fun w past m limit s => by
  have hread : noted (run w (nextPayload e s) past m).acts = [] :=
    noted_of_only (only_nextPayload (P := fun op => op.note? = none) rfl s)
  rw [conduct_next, run_bind, run_bind, Trace.since_acts, Trace.since_acts, noted_append, noted_append, hread]
  exact (List.append_nil _).trans (h _ ..)

theorem jots_send {next : Except Failure Unit → Handler e} {notes : List Note} (h : ∀ sent, Jots (next sent) notes)
    (message : Message) : Jots (.ask (.send message) next) notes := fun w past m limit s => by
  have hwrite : noted (run w (send e limit none message) past m).acts = [] :=
    noted_of_only (only_send (P := fun op => op.note? = none) (fun _ => rfl) limit message)
  rw [conduct_send, run_bind, Trace.since_acts, noted_append, hwrite]
  exact h _ ..

theorem jots_note {next : Unit → Handler e} {notes : List Note} (h : Jots (next ()) notes) (entry : Note) :
    Jots (.ask (.other (.note entry) nofun) next) (entry :: notes) := fun w _ _ _ s =>
  congrArg (entry :: ·) (h w _ _ _ s)

theorem jots_echoing (n : Nat) : Jots (App.echoing e n) [] := by
  induction n with
  | zero => exact jots_done
  | succ n ih =>
      refine jots_next fun told => ?_
      rcases told with f | _ | payload
      · exact jots_note jots_done (.failed f)
      · exact jots_note jots_done .closed
      · refine jots_note (jots_send (fun sent => ?_) (.payload payload)) (.followed payload)
        cases sent with
        | ok _ => exact ih
        | error f => exact jots_done

/-- The applications there are write down what they are told, and nothing else but the arrival. -/
theorem jots_handler (app : App) (source : Address) (payload : Bytes) : Jots (app.handler e source payload) [] := by
  cases app with
  | record | fail => exact jots_done
  | echo | farewell => exact jots_send (fun _ => jots_done) _
  | echoAll =>
      refine jots_send (fun sent => ?_) _
      cases sent with
      | ok _ => exact jots_echoing _
      | error f => exact jots_done

/-- A handler is told just what it has asked for. -/
theorem hears_conduct (handler : Handler e) (s : FrameStream) :
    handler.Hears (run w (conduct e limit handler s) past m).value := by
  induction handler generalizing s past m with
  | done a => exact .done
  | ask op next ih =>
      cases op with
      | next =>
          rw [conduct_next, run_bind, run_bind]
          exact .next (ih _ _)
      | send message =>
          rw [conduct_send, run_bind]
          exact .send _ (ih _ _)
      | other op away =>
          change Handler.Hears _ (run w ((perform op).bind _) past m).value
          rw [run_bind]
          exact .other _ (ih _ _)

end Dialog

/-! ## Whole conversations -/

/-- The lists agree as far as both go. -/
def Agree {α : Type} (xs ys : List α) : Prop := xs <+: ys ∨ ys <+: xs

theorem Agree.cons {α : Type} {xs ys : List α} (h : Agree xs ys) (x : α) : Agree (x :: xs) (x :: ys) :=
  h.imp (List.prefix_cons_inj x).mpr (List.prefix_cons_inj x).mpr

/-- The bytes of these payloads, one after another. -/
def wires (payloads : List Bytes) : Bytes := (payloads.map Message.payload).flatMap Message.wire

theorem wires_cons (payload : Bytes) (payloads : List Bytes) :
    wires (payload :: payloads) = (Message.payload payload).wire ++ wires payloads := rfl

/-- What a handler is told of these payloads, with this behind them. -/
def telling (payloads : List Bytes) (last : Except Failure (Option Bytes)) : List (Except Failure (Option Bytes)) :=
  payloads.map (fun payload => .ok (some payload)) ++ [last]

/-- Each of these payloads can be sent. -/
def AllFit (limit : Nat) (payloads : List Bytes) : Prop :=
  ∀ payload ∈ payloads, payload.length ≤ limit ∧ payload.length < UInt32.size

namespace Dialog

variable {w : Surroundings} {e : End} {f : Inflow} {past : List Act} {m : Member} {limit : Nat} {buffer : Bytes}
  {payloads : List Bytes} {tail : Bytes} {last : Except Failure (Option Bytes)} {inbound : Inbound}

theorem agree_conduct (hw : w.Brings e none f) (hended : f.ended = true) (hfits : AllFit limit payloads)
    (hending : Ending limit tail last) (handler : Handler e) (hahead : f.ahead e past buffer = wires payloads ++ tail) :
    Agree (run w (conduct e limit handler (.ready (.start limit) buffer)) past m).value (telling payloads last) := by
  induction handler generalizing payloads past m buffer with
  | done a => exact .inl List.nil_prefix
  | ask op next ih =>
      cases op with
      | next =>
          rw [conduct_next]
          cases payloads with
          | nil =>
              have hlast := next_last (m := m) hw hended hending hahead
              rw [run_bind, run_bind]
              exact .inr ⟨_, by rw [← hlast]; rfl⟩
          | cons payload payloads =>
              obtain ⟨hfit, hfits⟩ := List.forall_mem_cons.mp hfits
              rw [wires_cons, List.append_assoc] at hahead
              obtain ⟨got, hvalue, hkept⟩ := next_payload (m := m) hw hfit.1 hfit.2 hahead
              rw [run_bind, hvalue, run_bind]
              exact (ih _ hfits hkept).cons _
      | send message =>
          rw [conduct_send, run_bind]
          exact ih _ hfits ((ahead_of_only (only_send (fun _ => rfl) limit message)).trans hahead)
      | other op away =>
          have honly : (perform op).Only fun op => op.takes e = false := ⟨DialogOp.takes_eq_false away, fun _ => trivial⟩
          change Agree (run w ((perform op).bind _) past m).value _
          rw [run_bind]
          exact ih _ hfits ((ahead_of_only honly).trans hahead)

/-- Listening brings the first payload, if that is there before time is up. -/
theorem receives_listen {early : List Bytes} {payload more : Bytes} (hconveys : w.Conveys e (w.due m) early f)
    (hlimit : payload.length ≤ m.settings.maxMessageLength) (hsize : payload.length < UInt32.size)
    (hprompt : (Message.payload payload).wire <+: early.flatten)
    (hsent : f.pieces.flatten = (Message.payload payload).wire ++ more) :
    Receives f e m.settings.maxMessageLength payload more [] (run w (listen m.settings e) [] m) := by
  obtain ⟨hearly, -, ⟨late, hlate⟩, -⟩ := hconveys
  have hfull : ∀ piece ∈ early, piece ≠ [] := fun piece hpiece =>
    f.full piece (hlate ▸ List.mem_append_left late hpiece)
  refine meets (Q := Receives f e m.settings.maxMessageLength payload more []) .clock trivial
    fun (start : Nat) m' hstart _ => ?_
  have hdue : w.due m = start + m.settings.patience := congrArg (fun n : Nat => n + m.settings.patience) hstart
  rw [hdue] at hearly
  -- Nothing has been taken yet, and nothing is in the buffer.
  have hlate : f.pieces.drop (List.countP (Act.takes e) [.asked .clock start]) =
      early.drop (List.countP (Act.takes e) [.asked .clock start]) ++ late := hlate.symm
  have hwhole : (Message.payload payload).wire <+:
      [] ++ (early.drop (List.countP (Act.takes e) [.asked .clock start])).flatten := hprompt
  have hahead : f.ahead e [.asked .clock start] [] = (Message.payload payload).wire ++ more := hsent
  exact receives_receiveIn hearly hfull hlate hlimit hsize hwhole hahead

/-- To serve is to listen, to attend to what has been heard, and to close. -/
theorem run_serveWith (inbound : Inbound) (handle : App → Address → Bytes → Handler inbound.here) :
    let heard := run w (listen m.settings inbound.here) [] m
    let served := run w (attendWith handle m.settings inbound.source heard.value.2 heard.value.1) heard.acts heard.member
    (run w (serveWith inbound handle) [] m).value = served.value ∧
      (run w (serveWith inbound handle) [] m).acts = heard.acts ++ served.acts ++ [.asked (.release inbound.here) ()] := by
  rw [serveWith_eq]
  change (run w (listen m.settings inbound.here >>= _) [] m).value = _ ∧
    (run w (listen m.settings inbound.here >>= _) [] m).acts = _
  rw [Program.bind_eq, run_bind, Program.bind_eq, run_bind]
  exact ⟨rfl, by simp; rfl⟩

/-- What is done when the application is called with a payload, before its handler is carried out. -/
def calling (app : App) (source : Address) (payload : Bytes) : List Act :=
  [.asked .app (some app : Option App), .asked (.note (.arrived source payload)) ()]

/-- A payload is attended to by one call of the handler of the application, which is carried out in the way of `t`. -/
structure Called (app : App) (source : Address) (payload : Bytes) (t : Trace (List (Except Failure (Option Bytes))))
    (served : Trace (Option Interview)) : Prop where
  value : served.value = some ⟨app, source, payload, t.value⟩
  acts : served.acts = calling app source payload ++ t.acts

theorem called_attendWith {app : App} (happ : w.answer past .app = some app) (handle : App → Address → Bytes → Handler e)
    (member : Settings) (source : Address) (s : FrameStream) (payload : Bytes) : ∃ m',
      Called app source payload (run w (conduct e member.maxMessageLength (handle app source payload) s)
        (past ++ calling app source payload) m')
      (run w (attendWith handle member source s (some (.message (.payload payload)))) past m) := by
  refine meets (Q := fun served : Trace (Option Interview) => ∃ m', Called app source payload
    (run w (conduct e member.maxMessageLength (handle app source payload) s) (past ++ calling app source payload) m') served)
    .app trivial fun found m₁ hfound _ => ?_
  cases hfound.symm.trans happ
  refine meets (Q := fun served : Trace (Option Interview) => ∃ m', Called app source payload
    (run w (conduct e member.maxMessageLength (handle app source payload) s) (past ++ calling app source payload) m')
    (served.since [.asked .app (some app : Option App)])) (.note (.arrived source payload)) trivial
    fun (_ : Unit) m₂ _ _ => ⟨m₂, ?_⟩
  change Called _ _ _ _ (((run w ((conduct e _ _ s).bind _) _ m₂).since _).since _)
  rw [run_bind, List.append_assoc]
  exact ⟨rfl, by simp [calling]⟩

/-- What has come first is handed to the application, and its handler finds all the rest still ahead. -/
theorem called_serveWith {app : App} {payload more : Bytes} (hheard : Receives f inbound.here m.settings.maxMessageLength
    payload more [] (run w (listen m.settings inbound.here) [] m)) (happ : w.answer (w.listening inbound m) .app = some app)
    (handle : App → Address → Bytes → Handler inbound.here) : ∃ got past m', f.ahead inbound.here past got = more ∧
      let t := run w (conduct inbound.here m.settings.maxMessageLength (handle app inbound.source payload)
        (.ready (.start m.settings.maxMessageLength) got)) past m'
      (run w (serveWith inbound handle) [] m).value = some ⟨app, inbound.source, payload, t.value⟩ ∧
        noted (run w (serveWith inbound handle) [] m).acts = .arrived inbound.source payload :: noted t.acts := by
  obtain ⟨got, hvalue, hahead⟩ := hheard
  obtain ⟨hserved, hacts⟩ := run_serveWith (w := w) (m := m) inbound handle
  have hlisten : noted (run w (listen m.settings inbound.here) [] m).acts = [] :=
    noted_of_only (only_listen (P := fun op => op.note? = none) rfl (fun _ => rfl) m.settings)
  rw [hvalue] at hserved hacts
  obtain ⟨m', hcalled⟩ := called_attendWith (m := (run w (listen m.settings inbound.here) [] m).member) happ handle m.settings
    inbound.source (.ready (.start m.settings.maxMessageLength) got) payload
  refine ⟨got, _, m', ?_, hserved.trans hcalled.value, ?_⟩
  · exact (Inflow.ahead_append rfl f _ got).trans hahead
  · rw [hacts, noted_append, noted_append, hlisten]
    refine (List.append_nil _).trans ?_
    exact congrArg noted hcalled.acts

theorem run_serve_eq (inbound : Inbound) :
    (run w (serve inbound) [] m).acts = (run w (serveWith inbound (App.handler inbound.here)) [] m).acts := by
  rw [← serveAs_handler, serveAs, Program.silent, run_bind]
  exact List.append_nil _

end Dialog

open Dialog

/--
The application is called with the first payload, and whatever it does then, each time it asks it is told of the next
one, unchanged and in order, and once they are all told, of how the connection ended. What the applications there are have
been told they write down.
-/
theorem conversation_loses_nothing {w : Surroundings} {inbound : Inbound} {m : Member} {app : App} {early : List Bytes}
    {f : Inflow} {payload : Bytes} {payloads : List Bytes} {tail : Bytes} {last : Except Failure (Option Bytes)}
    (hfits : AllFit m.settings.maxMessageLength (payload :: payloads))
    (hconveys : w.Conveys inbound.here (w.due m) early f)
    (hsent : f.pieces.flatten = wires (payload :: payloads) ++ tail)
    (hprompt : (Message.payload payload).wire <+: early.flatten)
    (happ : w.answer (w.listening inbound m) .app = some app)
    (hending : Ending m.settings.maxMessageLength tail last)
    (handle : App → Address → Bytes → Handler inbound.here) :
    Message.write m.settings.maxMessageLength [] ((payload :: payloads).map .payload) = .ok (wires (payload :: payloads)) ∧
    (∃ told, (run w (serveWith inbound handle) [] m).value = some ⟨app, inbound.source, payload, told⟩ ∧
      (handle app inbound.source payload).Hears told ∧ Agree told (telling payloads last)) ∧
    ∃ told, (app.handler inbound.here inbound.source payload).Hears told ∧ Agree told (telling payloads last) ∧
      noted (run w (serve inbound) [] m).acts = .arrived inbound.source payload :: told.map Note.ofTold := by
  obtain ⟨hfit, hrest⟩ := List.forall_mem_cons.mp hfits
  rw [wires_cons, List.append_assoc] at hsent
  have hheard := receives_listen hconveys hfit.1 hfit.2 hprompt hsent
  refine ⟨Message.write_eq (fun message hmessage => ?_) [], ?_, ?_⟩
  · obtain ⟨payload, hpayload, rfl⟩ := List.mem_map.mp hmessage
    exact hfits payload hpayload
  · obtain ⟨got, past, m', hahead, hvalue, -⟩ := called_serveWith hheard happ handle
    exact ⟨_, hvalue, hears_conduct _ _,
      agree_conduct hconveys.patient hconveys.closed hrest hending (handle app inbound.source payload) hahead⟩
  · obtain ⟨got, past, m', hahead, -, hnoted⟩ := called_serveWith hheard happ (App.handler inbound.here)
    rw [← run_serve_eq, jots_handler] at hnoted
    exact ⟨_, hears_conduct _ _, agree_conduct hconveys.patient hconveys.closed hrest hending _ hahead, hnoted⟩

namespace Surroundings

/-- The same surroundings, with an application above the member. -/
def hosting (w : Surroundings) (app : App) : Surroundings where
  answer past
    | .app => some app
    | op => w.answer past op
  drift := w.drift
  calls h := w.calls h
  moves hbytes h := w.moves hbytes h
  waits := w.waits

theorem quiet_conveys (e : End) {f : Inflow} (hended : f.ended = true) (app : App) (due : Nat) :
    ((quiet e f).hosting app).Conveys e due f.pieces f := by
  have hbrings (deadline : Option Nat) : ((quiet e f).hosting app).Brings e deadline f := fun _ => rfl
  exact ⟨(hbrings _).hands, hbrings _, List.prefix_refl _, hended⟩

end Surroundings

/-- A connection to somebody, from a port that was drawn. -/
def mailbox : Inbound := ⟨0, ⟨⟨10, 0, 0, 1⟩, 40000⟩⟩

/-- Both payloads are there before the application is called, in one piece with the beginning of another frame. -/
def bundle : Inflow := ⟨[wires [[1], [2, 3]] ++ [77, 48]], true, by decide +kernel⟩

theorem conversation_loses_nothing_bundle :
    (∃ told, (run ((Surroundings.quiet mailbox.here bundle).hosting .echoAll)
        (serveWith mailbox (App.handler mailbox.here)) [] (.fresh default {})).value =
          some ⟨.echoAll, mailbox.source, [1], told⟩ ∧
      (App.echoAll.handler mailbox.here mailbox.source [1]).Hears told ∧
      Agree told (telling [[2, 3]] (.error (BodyFault.cut 2).failure))) ∧
    ∃ told, (App.echoAll.handler mailbox.here mailbox.source [1]).Hears told ∧
      Agree told (telling [[2, 3]] (.error (BodyFault.cut 2).failure)) ∧
      noted (run ((Surroundings.quiet mailbox.here bundle).hosting .echoAll) (serve mailbox) [] (.fresh default {})).acts =
        .arrived mailbox.source [1] :: told.map Note.ofTold := by
  have hfits : AllFit (Member.fresh default {}).settings.maxMessageLength [[1], [2, 3]] := by
    unfold AllFit
    decide +kernel
  have hsent : bundle.pieces.flatten = wires [[1], [2, 3]] ++ [77, 48] := List.append_nil _
  have hprompt : (Message.payload [1]).wire <+: bundle.pieces.flatten :=
    ⟨wires [[2, 3]] ++ [77, 48], by rw [hsent, wires_cons [1], List.append_assoc]⟩
  exact (conversation_loses_nothing hfits (Surroundings.quiet_conveys mailbox.here rfl .echoAll _) hsent hprompt rfl
    (.cut (List.cons_ne_nil _ _) rfl) (App.handler mailbox.here)).2

example : (run ((Surroundings.quiet mailbox.here bundle).hosting .echoAll)
    (serveWith mailbox (App.handler mailbox.here)) [] (.fresh default {})).value.map Interview.told =
      some [.ok (some [2, 3]), .error (BodyFault.cut 2).failure] := by
  decide +kernel

end ChordOverlay
