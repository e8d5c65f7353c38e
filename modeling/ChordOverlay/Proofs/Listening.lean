import ChordOverlay.Proofs.LocalCall

/-!
# A message that arrives in pieces

Whoever serves a connection reads on until the first message is there as a whole, in whatever pieces that comes, and only
then does what it asks for.
-/

namespace ChordOverlay

/-! ## What is left to be read -/

namespace Codec

variable {limit : Nat} {m : Message} {got more : Bytes}

theorem item_start_nil (limit : Nat) : (start limit).item true [] = some .finished := rfl

/-- A part of a message is no message. -/
theorem item_of_part (hlimit : m.body.length ≤ limit) (hsize : m.body.length < UInt32.size) (hparts : got ++ more = m.wire)
    (hmore : more ≠ []) : ((start limit).decode got).item false = none := by
  have happend := decode_append (start limit) got more
  have hwhole := decode_written hlimit hsize []
  rw [List.append_nil] at hwhole
  rw [hparts, hwhole] at happend
  rcases hdecode : (start limit).decode got with ⟨c', left, e | _ | m'⟩ <;> rw [hdecode] at happend
  · cases happend
  · rfl
  · -- What is left behind the message is nothing, and so is what comes later.
    simp only [Outcome.mk.injEq] at happend
    exact absurd (List.append_eq_nil_iff.mp happend.2.1.symm).2 hmore

end Codec

namespace Dialog

/-- Of the message `got` has been read, and time is not up before dusk. -/
inductive Hears (handle : Handling) (v : Member) (inbound : Inbound) (message : Message) (dusk : Nat) :
    Bytes → Dialog Unit → Prop
  | enter : Hears handle v inbound message dusk [] (serveAs handle inbound)
  | start : Hears handle v inbound message dusk [] ((listen v.settings inbound.here).bind (attendTo handle v inbound))
  | reads {got buffer more : Bytes} {due n : Nat} {c : Codec} (parts : got ++ more = message.wire) (rest : more ≠ [])
      (late : dusk ≤ due) (fit : c.Fit) (fuel : Header.size + c.limit < c.stock buffer + n)
      (stands : c.HasRead v.settings.maxMessageLength got buffer) :
      Hears handle v inbound message dusk got
        ((receiveIn inbound.here (some due) (n + 1) (.ready c buffer)).bind (attendTo handle v inbound))

/-- What the next read leads to, when `got` has been read before. -/
structure Minds (handle : Handling) (v : Member) (inbound : Inbound) (message : Message) (dusk : Nat) (got : Bytes)
    (next : Taken → Dialog Unit) :
    Prop where
  part {bytes more : Bytes} (parts : got ++ bytes ++ more = message.wire) (some : bytes ≠ []) (rest : more ≠ []) :
    Hears handle v inbound message dusk (got ++ bytes) (next (.bytes bytes))
  whole {bytes : Bytes} (parts : got ++ bytes = message.wire) :
    ∃ s, next (.bytes bytes) = attendTo handle v inbound (some (.message message), s)
  ended (nothing : got = []) : Only (DialogOp.Closes inbound.here) (next .ended)

variable {handle : Handling} {v : Member} {inbound : Inbound} {message : Message} {dusk : Nat} {got : Bytes} {d : Dialog Unit}

theorem hears_receive {due : Nat} (hlate : dusk ≤ due) : Hears handle v inbound message dusk []
    ((receive inbound.here (some due) (.start v.settings.maxMessageLength)).bind (attendTo handle v inbound)) := by
  rw [receive_start]
  refine .reads (List.nil_append message.wire) ?_ hlate (fun header hheader => by cases hheader) ?_ fun _ _ => rfl
  · exact List.ne_nil_of_length_pos message.length_wire_pos
  · change Header.size + v.settings.maxMessageLength < 0 + (Header.size + v.settings.maxMessageLength + 2)
    omega

theorem Hears.ne_wire (h : Hears handle v inbound message dusk got d) : got ≠ message.wire := by
  have hpositive := message.length_wire_pos
  cases h with
  | enter => exact (List.ne_nil_of_length_pos hpositive).symm
  | start => exact (List.ne_nil_of_length_pos hpositive).symm
  | reads parts rest =>
      intro heq
      rw [heq] at parts
      exact rest (List.append_right_eq_self.mp parts)

/-- Until the message is there, all that is done is to look, to see what time it is, and to read. -/
theorem Hears.cases (h : Hears handle v inbound message dusk got d) (hlimit : message.body.length ≤ v.settings.maxMessageLength)
    (hsize : message.body.length < UInt32.size) :
    (∃ next, d = .ask .look next ∧ Hears handle v inbound message dusk got (next v)) ∨
    (∃ next, d = .ask .clock next ∧
      ∀ start : Nat, dusk ≤ start + v.settings.patience → Hears handle v inbound message dusk got (next start)) ∨
    ∃ due next, d = .ask (.take inbound.here none (some due)) next ∧ dusk ≤ due ∧
      Minds handle v inbound message dusk got next := by
  cases h with
  | enter => exact .inl ⟨_, serveAs_eq handle inbound, .start⟩
  | start => exact .inr (.inl ⟨_, rfl, fun start hlate => hears_receive hlate⟩)
  | @reads _ buffer more due n c parts rest late fit fuel stands =>
      have hwait : c.decode buffer = ⟨(c.decode buffer).codec, (c.decode buffer).buffer, .ok none⟩ := by
        refine ((c.decode buffer).item_or_waits).resolve_left ?_
        rintro ⟨item, hitem⟩
        cases (Codec.item_of_part hlimit hsize parts rest).symm.trans ((stands.item false).trans hitem)
      obtain ⟨hfit, hcodec, hstock, hsmall⟩ := Codec.stock_of_wait fit hwait
      obtain ⟨n, rfl⟩ : ∃ k, n = k + 1 := ⟨n - 1, by omega⟩
      refine .inr (.inr ⟨due, _, congrArg (Program.bind · _) (receiveIn_of_wait hwait inbound.here (some due) (n + 1)),
        late, ?part, ?whole, ?ended⟩)
      case part =>
        intro bytes more' hparts hbytes hmore
        refine .reads hparts hmore late hfit ?_ (stands.feed hwait bytes)
        have hpositive := List.length_pos_iff.mpr hbytes
        rw [Codec.stock_append]
        omega
      case whole =>
        intro bytes hparts
        have hitem : ((c.decode buffer).codec.decode ((c.decode buffer).buffer ++ bytes)).item false =
            some (.message message) := by
          have hread := Codec.decode_written hlimit hsize []
          have hsame := (stands.feed hwait bytes).item false
          rw [List.append_nil] at hread
          rw [hparts, Codec.item, if_neg Bool.false_ne_true, hread] at hsame
          exact hsame.symm
        obtain ⟨s, hs⟩ := receiveIn_of_item hitem inbound.here (some due) n
        exact ⟨s, congrArg (Program.bind · _) hs⟩
      case ended =>
        rintro rfl
        have hitem := (stands true []).symm.trans (Codec.item_start_nil _)
        rw [Codec.item_of_wait hwait, List.append_nil] at hitem
        obtain ⟨s, hs⟩ := receiveIn_ended (c.decode buffer).codec (c.decode buffer).buffer inbound.here (some due) n
        rw [hitem] at hs
        change Only _ (Program.bind (receiveIn _ _ _ _) _)
        rw [hs]
        exact ⟨.inr rfl, fun _ => trivial⟩

end Dialog

end ChordOverlay
