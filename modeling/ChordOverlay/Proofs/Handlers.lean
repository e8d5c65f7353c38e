import ChordOverlay.Host.Handler
import ChordOverlay.Proofs.Serving

/-!
# Handlers at work

A connection can be served with any handlers; with those of the applications there are, that is to serve it.
-/

namespace ChordOverlay

theorem Program.silent_bind {I : Interface} {α β : Type} (p : Program I α) (f : α → Program I β) :
    (p.bind f).silent = p.bind fun a => (f a).silent :=
  bind_assoc p f _

/-- The note tells of a payload that has come first on its connection. -/
def Note.Arrives : Note → Prop
  | .arrived .. => True
  | _ => False

namespace Handler

variable {e : End} {P : DialogOp → Prop}

/-- All that the application can come to ask for away from its connection is of a kind. -/
def Keeps (P : DialogOp → Prop) : Handler e → Prop
  | .done _ => True
  | .ask (.other op _) next => P op ∧ ∀ x, Keeps P (next x)
  | .ask .next next | .ask (.send _) next => ∀ x, Keeps P (next x)

/-- The application comes to its end, and this is what it was told, each time it asked for the next payload. -/
inductive Hears : Handler e → List (Except Failure (Option Bytes)) → Prop
  | done : Hears (.done ()) []
  | next {next : Except Failure (Option Bytes) → Handler e} {told : Except Failure (Option Bytes)}
      {more : List (Except Failure (Option Bytes))} (rest : Hears (next told) more) : Hears (.ask .next next) (told :: more)
  | send {m : Message} {next : Except Failure Unit → Handler e} {told : List (Except Failure (Option Bytes))}
      (sent : Except Failure Unit) (rest : Hears (next sent) told) : Hears (.ask (.send m) next) told
  | other {op : DialogOp} {away : op.end? ≠ some e} {next : DialogOps.Answer op → Handler e}
      {told : List (Except Failure (Option Bytes))} (x : DialogOps.Answer op) (rest : Hears (next x) told) :
      Hears (.ask (.other op away) next) told

end Handler

namespace App

variable {P : DialogOp → Prop}

theorem keeps_echoing (hnote : ∀ entry : Note, ¬ entry.Arrives → P (.note entry)) (e : End) (n : Nat) :
    (echoing e n).Keeps P := by
  induction n with
  | zero => trivial
  | succ n ih =>
      intro told
      rcases (told : Except Failure (Option Bytes)) with f | _ | payload
      · exact ⟨hnote _ id, fun _ => trivial⟩
      · exact ⟨hnote _ id, fun _ => trivial⟩
      · refine ⟨hnote _ id, fun _ sent => ?_⟩
        cases (sent : Except Failure Unit) with
        | ok _ => exact ih
        | error f => trivial

/-- All that the applications do besides is to take notes, and never of an arrival. -/
theorem keeps_handler (hnote : ∀ entry : Note, ¬ entry.Arrives → P (.note entry)) (e : End) (app : App) (source : Address)
    (payload : Bytes) : (app.handler e source payload).Keeps P := by
  cases app with
  | record | fail => trivial
  | echo | farewell => exact fun _ => trivial
  | echoAll =>
      intro sent
      cases (sent : Except Failure Unit) with
      | ok _ => exact keeps_echoing hnote e _
      | error f => trivial

end App

namespace Dialog

variable {e : End} {limit : Nat} {P : DialogOp → Prop}

/-! ## Handlers at work -/

theorem conduct_send (m : Message) (next : Except Failure Unit → Handler e) (s : FrameStream) :
    conduct e limit (.ask (.send m) next) s = (send e limit none m).bind fun sent => conduct e limit (next sent) s := rfl

theorem conduct_next (next : Except Failure (Option Bytes) → Handler e) (s : FrameStream) :
    conduct e limit (.ask .next next) s = (nextPayload e s).bind fun result =>
      (conduct e limit (next result.1) result.2).bind fun more => .done (result.1 :: more) := rfl

theorem only_nextPayload (htake : P (.take e none none)) (s : FrameStream) : (nextPayload e s).Only P := by
  refine (only_receiveIn htake _ _).bind fun received => ?_
  obtain ⟨_ | message | _ | _, s⟩ := received
  · trivial
  · cases message <;> trivial
  · trivial
  · trivial

/-- To carry out a handler is to read and to write on the connection, and to do what it asks for away from it. -/
theorem only_conduct (hpush : ∀ bytes, P (.push e bytes none)) (htake : P (.take e none none)) {handler : Handler e}
    (h : handler.Keeps P) (s : FrameStream) : (conduct e limit handler s).Only P := by
  induction handler generalizing s with
  | done a => trivial
  | ask op next ih =>
      cases op with
      | next => exact (only_nextPayload htake s).bind fun told => (ih _ (h _) _).bind fun _ => trivial
      | send message => exact (only_send hpush limit message).bind fun sent => ih _ (h _) s
      | other op away => exact ⟨h.1, fun x => ih x (h.2 x) s⟩

/-! ## Serving with handlers -/

/-- What is done with the first item of a connection, and with the connection then. -/
def attendTo (handle : Handling) (v : Member) (inbound : Inbound) (received : Option Item × FrameStream) : Dialog Unit :=
  (attendWith (handle inbound.here) v.settings inbound.source received.2 received.1).bind fun _ => release inbound.here

theorem attendWith_request {handle : App → Address → Bytes → Handler e} {request : Message} {kind : Kind}
    (hreport : request.kind.report = some kind) (member : Settings) (source : Address) (s : FrameStream) :
    attendWith handle member source s (some (.message request)) =
      (respond member e source.ip request).bind fun _ => .done none := by
  cases request <;> first | rfl | cases hreport

theorem serveWith_eq (inbound : Inbound) (handle : App → Address → Bytes → Handler inbound.here) :
    serveWith inbound handle = look >>= fun m => listen m.settings inbound.here >>= fun received =>
      attendWith handle m.settings inbound.source received.2 received.1 >>= fun call =>
        release inbound.here >>= fun _ => pure call := rfl

theorem serveAs_eq (handle : Handling) (inbound : Inbound) :
    serveAs handle inbound = look >>= fun m => listen m.settings inbound.here >>= attendTo handle m inbound := by
  rw [serveAs, serveWith_eq]
  refine congrArg (Program.ask (I := DialogOps) DialogOp.look) (funext fun m => ?_)
  refine (Program.silent_bind (listen m.settings inbound.here) _).trans ?_
  exact congrArg (Program.bind _) (funext fun received => Program.silent_bind _ _)

/-! ## Serving is serving with the handlers there are -/

theorem conduct_echoing (n : Nat) (s : FrameStream) :
    (conduct e limit (App.echoing e n) s).silent = echoRest e limit n s := by
  induction n generalizing s with
  | zero => rfl
  | succ n ih =>
      refine (Program.silent_bind (nextPayload e s) _).trans ?_
      refine congrArg (nextPayload e s).bind (funext fun result => ?_)
      refine (Program.silent_bind (conduct e limit _ result.2) _).trans ?_
      obtain ⟨failure | _ | payload, s⟩ := result
      · rfl
      · rfl
      · refine congrArg (Program.ask (I := DialogOps) (DialogOp.note (.followed payload))) (funext fun _ => ?_)
        refine (Program.bind_assoc (send e limit none (.payload payload)) _ _).trans ?_
        refine congrArg (Program.bind _) (funext fun sent => ?_)
        cases sent with
        | ok sent => exact ih s
        | error failure => rfl

theorem conduct_handler (app : App) (source : Address) (payload : Bytes) (s : FrameStream) :
    (note (.arrived source payload) >>= fun _ => (conduct e limit (app.handler e source payload) s).silent) =
      converse app e limit source payload s := by
  refine congrArg (Program.ask (I := DialogOps) (DialogOp.note (.arrived source payload))) (funext fun _ => ?_)
  cases app with
  | record | fail => rfl
  | echo => exact Program.silent_bind (send e limit none (.payload payload)) _
  | farewell => exact Program.silent_bind (send e limit none (.unknown ("bye".toUTF8).data.toList)) _
  | echoAll =>
      refine (Program.silent_bind (send e limit none (.payload payload)) _).trans ?_
      refine congrArg (Program.bind _) (funext fun sent => ?_)
      cases sent with
      | ok sent => exact conduct_echoing endless s
      | error failure => rfl

theorem attendWith_handler (member : Settings) (source : Address) (s : FrameStream) (item : Option Item) :
    (attendWith (App.handler e) member source s item).silent = attend member e source s item := by
  rcases item with _ | message | failure | _
  · rfl
  · cases message with
    | payload payload =>
        refine congrArg (Program.ask (I := DialogOps) DialogOp.app) (funext fun app => ?_)
        cases (app : Option App) with
        | none => rfl
        | some app =>
            refine Eq.trans ?_ (conduct_handler app source payload s)
            refine congrArg (Program.ask (I := DialogOps) (DialogOp.note (.arrived source payload))) (funext fun _ => ?_)
            exact Program.silent_bind (conduct e member.maxMessageLength (app.handler e source payload) s) _
    | _ => exact (Program.silent_bind (respond member e source.ip _) _).trans (Program.bind_done _)
  · rfl
  · rfl

theorem serveAs_handler (inbound : Inbound) : serveAs (fun e => App.handler e) inbound = serve inbound := by
  rw [serve_eq, serveAs_eq]
  refine congrArg (Program.ask (I := DialogOps) DialogOp.look) (funext fun m => ?_)
  refine congrArg (Program.bind (listen m.settings inbound.here)) (funext fun received => ?_)
  obtain ⟨item, s⟩ := received
  rw [← attendWith_handler m.settings inbound.source s item]
  exact (Program.bind_assoc (attendWith (App.handler inbound.here) m.settings inbound.source s item) (fun _ => .done ())
    fun _ => release inbound.here).symm

end Dialog

end ChordOverlay
