import ChordOverlay.Proofs.Quietude

/-!
# Calls on a quiet machine

A call comes to what the called member finds out, in whatever order everybody goes on; and when it is over the machine is
as quiet as before.
-/

namespace ChordOverlay

namespace Machine

variable {α β : Type} {g : Machine} {dusk : Nat} {party : Option Nat} {ip : Ipv4}

/-- Wherever all is quiet but for the connections in `held`, the dialog comes to `v` and touches none of those. -/
def Yields (g : Machine) (dusk : Nat) (party : Option Nat) (ip : Ipv4) (d : Dialog α) (v : α) : Prop :=
  ∀ held m, Lull g dusk held m → Ends dusk party ip (Intact g dusk held) (fun m' r => r = v ∧ Lull g dusk held m') m d

namespace Yields

theorem done (v : α) : Yields g dusk party ip (.done v) v := fun _ _ hm => .done hm.toIntact ⟨rfl, hm⟩

theorem bind {d : Dialog α} {f : α → Dialog β} {a : α} {v : β} (hd : Yields g dusk party ip d a)
    (hf : Yields g dusk party ip (f a) v) : Yields g dusk party ip (d.bind f) v := fun held m hm => by
  refine Ends.bind ((hd held m hm).mono (fun _ => id) ?_)
  rintro m' _ - ⟨rfl, hm'⟩
  exact hf held m' hm'

theorem look {next : Member → Dialog α} {v : α} (h : Yields g dusk party ip (next (g.member party)) v) :
    Yields g dusk party ip (.ask .look next) v := fun held m hm => by
  refine (Lull.steady g dusk held).ends (fun hm => hm.toIntact) (fun _ => .inl rfl) (fun {m m' x} hm met => ?_) hm
  have hmember : m.member party = g.member party := by
    simp only [Machine.member, party?, hm.parties]
  change (m, some (m.member party)) = (m', some x) at met
  cases met
  rw [hmember]
  exact h held m hm

end Yields

variable {held : List (Nat × Link)} {m : Machine} {q : Query} {k : Nat} {host : Ipv4} {v : Member} {inbound : Inbound}
  {due : Nat} {d : Dialog (Except Failure q.Answer)} {r : q.Answer}

/-! ## The reply -/

/-- The answer is reported to the caller: it is still to be written, or it is there to be read. -/
inductive Replying (g : Machine) (dusk : Nat) (held : List (Nat × Link)) (q : Query) (k : Nat) (host : Ipv4) (v : Member)
    (inbound : Inbound) (r : q.Answer) : Machine → Prop
  | writing {m : Machine}
      (attended : Attended g dusk held k host inbound.link .fresh (Dialog.handOver v.settings inbound.here q r) m) :
      Replying g dusk held q k host v inbound r m
  | written {m : Machine} {l : Link} {callee : Dialog Unit} (attended : Attended g dusk held k host inbound.link l callee m)
      (closes : callee.Only (DialogOp.Closes inbound.here)) (holds : l.back.held = (q.report r).wire)
      (stays : l.callerHeld = true) : Replying g dusk held q k host v inbound r m

namespace Replying

theorem intact (h : Replying g dusk held q k host v inbound r m) : Intact g dusk held m := by
  cases h with
  | writing attended => exact attended.intact.tail
  | written attended => exact attended.intact.tail

theorem steady (hlimit : 11 ≤ v.settings.maxMessageLength) : Steady dusk (Replying g dusk held q k host v inbound r) where
  tame here := by
    cases here with
    | writing attended =>
        obtain ⟨_, hhand, -⟩ := Dialog.exists_handOver hlimit inbound.here q r
        exact attended.tame fun target next hask => by cases hhand.symm.trans hask
    | written attended closes => exact (attended.lull closes).tame
  works here works := by
    cases here with
    | writing attended =>
        rcases attended.works works with ⟨i, op, next, x, hcallee, hlull, met, hthread⟩ | hothers
        · obtain ⟨_, hhand, hcloses⟩ := Dialog.exists_handOver hlimit inbound.here q r
          cases hhand.symm.trans hcallee
          rw [meet_push (e := inbound.here) hlull.link rfl (Message.length_wire_le (q.length_report r))] at met
          obtain ⟨haside, hx⟩ := Prod.mk.inj met
          cases hx
          have hlink := link?_relink (f := (Link.setOutgoing · Side.callee ⟨(q.report r).wire, false⟩)) hlull.link rfl
          exact .written ⟨i, hthread, haside ▸ hlull.reset hlink⟩ hcloses rfl rfl
        · exact .writing hothers
    | written attended closes holds stays =>
        rcases attended.works works with ⟨i, op, next, x, rfl, hlull, met, hthread⟩ | hothers
        · obtain ⟨l', hlink, hheld, hstays⟩ := Talk.closes_met closes.1 hlull.link stays met
          obtain ⟨f, haside⟩ := exists_relink closes.1 met
          rw [haside] at hlink
          exact .written ⟨i, hthread, haside ▸ hlull.reset hlink⟩ (closes.2 x) (hheld.trans holds) hstays
        · exact .written hothers closes holds stays
  passes here later early := by
    cases here with
    | writing attended => exact .writing (attended.passes later early)
    | written attended closes holds stays => exact .written (attended.passes later early) closes holds stays

/-- A reply that is found reaches the caller. -/
theorem ends (h : Replying g dusk held q k host v inbound r m) (hlimit : 11 ≤ v.settings.maxMessageLength)
    (hlate : dusk ≤ due) (hwaits : Dialog.Waits q inbound.there due d) :
    Ends dusk party ip (Intact g dusk held) (fun m' r' => r' = .ok r ∧ Lull g dusk held m') m d := by
  obtain ⟨_, rfl, hread⟩ := hwaits
  refine (steady hlimit).ends (fun here => here.intact) (fun here => ?goes) (fun here met => ?on) h
  case goes =>
    cases here with
    | writing attended =>
        obtain ⟨_, hhand, -⟩ := Dialog.exists_handOver hlimit inbound.here q r
        rw [hhand] at attended
        exact .inr (attended.goes (canMeet_push (e := inbound.here) attended.intact.link Pipe.room_empty none))
    | written attended closes holds =>
        have hheld := List.ne_nil_of_length_pos (Message.length_wire_pos (q.report r))
        exact .inl (canMeet_take (e := inbound.there) attended.intact.link (holds ▸ hheld) none (some due))
  case on =>
    cases here with
    | writing attended => exact absurd met (attended.intact.unmet (e := inbound.there) rfl hlate)
    | @written l _ attended closes holds =>
        rw [meet_take (e := inbound.there) attended.intact.link holds (Message.length_wire_pos _)] at met
        cases met
        rw [hread]
        have hlull := (attended.lull closes).relink attended.intact.apart (Link.setIncoming · .caller ⟨[], l.back.closed⟩)
        refine (Lull.steady g dusk held).ends (fun hm => hm.toIntact) (fun _ => .inl rfl) (fun hm met => ?_) hlull
        cases met
        have hreleased := hm.relink attended.intact.apart (Link.release · .caller)
        exact .done hreleased.toIntact ⟨rfl, hreleased⟩

end Replying

/-! ## The query -/

/-- As soon as the callee has heard the query, it finds out the answer, and reports it. -/
theorem ends_asked (hawaits : g.Awaits dusk k v q.request) (hanswerer : 11 ≤ v.settings.maxMessageLength)
    (hresolve : Yields g dusk (some k) host ((q.resolve inbound.source.ip).toDialog v.settings) r)
    (hlate : dusk ≤ due) (hwaits : Dialog.Waits q inbound.there due d)
    (h : Listens g dusk held k host v inbound q.request [] ⟨⟨q.request.wire, false⟩, .empty, true, true⟩ m) :
    Ends dusk party ip (Intact g dusk held) (fun m' r' => r' = .ok r ∧ Lull g dusk held m') m d := by
  have hread := hwaits
  obtain ⟨_, rfl, -⟩ := hwaits
  have hwire : q.request.wire ≠ [] := List.ne_nil_of_length_pos (Message.length_wire_pos _)
  refine Ends.of_stage (fun here => here.intact.tail) (fun here => here.tame hawaits)
    (fun here => .inr (here.goes hawaits hwire)) (fun here met => ?on) (fun here hstirs => ?stirs) h
  case on => exact absurd met (here.intact.unmet (e := inbound.there) rfl hlate)
  case stirs =>
    cases hstirs with
    | passes later early => exact .inl (here.passes later early)
    | works works =>
        rcases here.reads hawaits hwire rfl works with hlistens | ⟨next, hminds, i, hthread, hlull⟩
        · exact .inl hlistens
        · obtain ⟨s, hnext⟩ := hminds.whole (List.nil_append q.request.wire)
          have hreply : next (.bytes q.request.wire) = Dialog.reply v.settings inbound q :=
            hnext.trans (Dialog.attendTo_query (g.handle k) v inbound q s)
          rw [hreply, Dialog.reply] at hthread
          refine .inr (Ends.wait (hresolve _ _ hlull) hthread (fun _ hintact => ⟨?_, ?_⟩) ?_)
          · exact hintact.tail.anyone _
          · exact hintact.blocks (e := inbound.there) rfl hlate
          · rintro m r' ⟨rfl, hlull⟩ hthread
            exact (Replying.writing ⟨i, hthread, hlull⟩).ends hanswerer hlate hread

/-- What a call comes to is what the callee finds out. -/
theorem Yields.inquire {s : Settings} {target : Address} {p : Party} (hserves : g.Serves target k v) (hp : g.parties[k]? = some p)
    (hasker : 11 ≤ s.maxMessageLength) (hanswerer : 11 ≤ v.settings.maxMessageLength) (htime : dusk ≤ g.now + q.patience s)
    (htime' : dusk ≤ g.now + v.settings.patience)
    (hresolve : Yields g dusk (some k) p.ip ((q.resolve ip).toDialog v.settings) r) :
    Yields g dusk party ip (Dialog.inquire s target q) (.ok r) := fun held m hm => by
  have hawaits : g.Awaits dusk k v q.request :=
    ⟨hserves.hosts, htime', Nat.le_trans q.length_request hanswerer, Message.length_lt_size q.length_request⟩
  rw [Dialog.inquire_eq]
  -- The time at which to give up is fixed, then a connection is made, and the query is written.
  refine (Lull.steady g dusk held).ends (fun hm => hm.toIntact) (fun _ => .inl rfl) (fun {m _ _} hm met => ?_) hm
  cases met
  have hlate : dusk ≤ m.now + q.patience s := Nat.le_trans htime (Nat.add_le_add_right hm.since _)
  refine (Lull.steady g dusk held).ends (fun hm => hm.toIntact) (fun _ => .inl rfl) (fun hm met => ?_) hm
  obtain ⟨inbound, rfl, hx, hattended⟩ := hm.connect hserves hp met
  rw [hx]
  obtain ⟨_, hputs, hwaits⟩ := Dialog.puts_proceedWith hasker q m.now inbound.there
  rw [hputs]
  refine (Listens.steady (l := .fresh) hawaits rfl).ends (fun here => here.intact.tail)
    (fun here => .inl (canMeet_push (e := inbound.there) here.intact.link Pipe.room_empty _)) (fun here met => ?_)
    ⟨_, hattended, .enter⟩
  rw [meet_push (e := inbound.there) here.intact.link rfl (Message.length_wire_le q.length_request)] at met
  cases met
  have hlink := link?_relink (f := (Link.setOutgoing · Side.caller ⟨q.request.wire, false⟩)) here.intact.link rfl
  exact ends_asked hawaits hanswerer hresolve hlate hwaits (here.reset hlink)

end Machine

end ChordOverlay
