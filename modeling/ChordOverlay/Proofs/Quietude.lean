import ChordOverlay.Proofs.Listening
import ChordOverlay.Proofs.RemoteCall
import ChordOverlay.Proofs.Turns

/-!
# Calls on a quiet machine

Where all others are done but for closing their connections, a call comes to what the called member finds out, in
whatever order everybody goes on; and when it is over the machine is as quiet as before.
-/

namespace ChordOverlay

namespace Machine

variable {g m m' : Machine} {dusk j : Nat} {l : Link} {held : List (Nat × Link)} {party : Option Nat} {ip : Ipv4}
  {op : DialogOp} {x : DialogOps.Answer op}

/-! ## Quiet machines -/

/-- Since `g` nothing has changed but the clock and the connections, and those in `held` stand as they are said to. -/
structure Intact (g : Machine) (dusk : Nat) (held : List (Nat × Link)) (m : Machine) : Prop where
  parties : m.parties = g.parties
  handle : m.handle = g.handle
  listeners : m.network.listeners = g.network.listeners
  swallowing : m.network.swallowing = g.network.swallowing
  since : g.now ≤ m.now
  early : m.now < dusk
  distinct : (held.map Prod.fst).Nodup
  stands : ∀ entry ∈ held, m.network.link? entry.1 = some entry.2 ∧ entry.1 < m.network.next

/-- All that others will still do is to close connections that are not in `held`. -/
structure Lull (g : Machine) (dusk : Nat) (held : List (Nat × Link)) (m : Machine) : Prop extends Intact g dusk held m where
  closers : ∀ t ∈ m.threads, ∃ e : End, t.rest.Only (DialogOp.Closes e) ∧ e.link < m.network.next ∧
    ∀ entry ∈ held, entry.1 ≠ e.link

theorem exists_relink {e : End} (hop : op.Closes e) (met : m.meet party ip op = (m', some x)) :
    ∃ f, m' = m.relink e.link f := by
  rcases hop with rfl | rfl
  · exact ⟨_, (Prod.mk.inj met).1.symm⟩
  · exact ⟨_, (Prod.mk.inj met).1.symm⟩

namespace Intact

theorem anyone (h : Intact g dusk held m) (threads : List (Thread Unit)) : Intact g dusk held { m with threads } :=
  ⟨h.parties, h.handle, h.listeners, h.swallowing, h.since, h.early, h.distinct, h.stands⟩

theorem passes (h : Intact g dusk held m) {now : Nat} (later : m.now < now) (early : now < dusk) :
    Intact g dusk held { m with now } :=
  ⟨h.parties, h.handle, h.listeners, h.swallowing, Nat.le_trans h.since (Nat.le_of_lt later), early, h.distinct, h.stands⟩

theorem relink (h : Intact g dusk held m) (hapart : ∀ entry ∈ held, entry.1 ≠ j) (f : Link → Link) :
    Intact g dusk held (m.relink j f) where
  parties := h.parties
  handle := h.handle
  listeners := h.listeners
  swallowing := h.swallowing
  since := h.since
  early := h.early
  distinct := h.distinct
  stands entry hentry :=
    ⟨(Network.link?_updateLink_of_ne (hapart entry hentry).symm).trans (h.stands entry hentry).1, (h.stands entry hentry).2⟩

theorem apart (h : Intact g dusk ((j, l) :: held) m) : ∀ entry ∈ held, entry.1 ≠ j := by
  intro entry hentry heq
  subst heq
  exact (List.nodup_cons.mp h.distinct).1 (List.mem_map.mpr ⟨entry, hentry, rfl⟩)

theorem tail (h : Intact g dusk ((j, l) :: held) m) : Intact g dusk held m :=
  ⟨h.parties, h.handle, h.listeners, h.swallowing, h.since, h.early, (List.nodup_cons.mp h.distinct).2,
    fun entry hentry => h.stands entry (List.mem_cons_of_mem _ hentry)⟩

theorem link (h : Intact g dusk ((j, l) :: held) m) : m.network.link? j = some l := (h.stands _ List.mem_cons_self).1

theorem made (h : Intact g dusk ((j, l) :: held) m) : j < m.network.next := (h.stands _ List.mem_cons_self).2

/-- What is done to a connection changes how that one stands, and no other. -/
theorem reset (h : Intact g dusk ((j, l) :: held) m) {l' : Link} {f : Link → Link}
    (hl' : (m.relink j f).network.link? j = some l') : Intact g dusk ((j, l') :: held) (m.relink j f) := by
  have hrest := h.tail.relink h.apart f
  refine ⟨hrest.parties, hrest.handle, hrest.listeners, hrest.swallowing, hrest.since, hrest.early, h.distinct,
    fun entry hentry => ?_⟩
  rcases List.mem_cons.mp hentry with rfl | hentry
  · exact ⟨hl', h.made⟩
  · exact hrest.stands entry hentry

/-- Whoever reads before there is something, and before time is up, has to wait. -/
theorem blocks {e : End} {due : Nat} (h : Intact g dusk ((e.link, l) :: held) m) (hempty : l.incoming e.side = .empty)
    (late : dusk ≤ due) : m.canMeet (.take e none (some due)) = false := by
  rw [canMeet_take_empty h.link hempty]
  exact decide_eq_false (Nat.not_le.mpr (Nat.lt_of_lt_of_le h.early late))

theorem unmet {e : End} {due : Nat} {taken : Taken} (h : Intact g dusk ((e.link, l) :: held) m)
    (hempty : l.incoming e.side = .empty) (late : dusk ≤ due) :
    m.meet party ip (.take e none (some due)) ≠ (m', some taken) := fun hmet => by
  have hblocked := h.blocks hempty late
  rw [canMeet_of_met hmet] at hblocked
  cases hblocked

end Intact

namespace Lull

theorem passes (h : Lull g dusk held m) {now : Nat} (later : m.now < now) (early : now < dusk) :
    Lull g dusk held { m with now } := ⟨h.toIntact.passes later early, h.closers⟩

theorem relink (h : Lull g dusk held m) (hapart : ∀ entry ∈ held, entry.1 ≠ j) (f : Link → Link) :
    Lull g dusk held (m.relink j f) := ⟨h.toIntact.relink hapart f, h.closers⟩

theorem tail (h : Lull g dusk ((j, l) :: held) m) : Lull g dusk held m :=
  ⟨h.toIntact.tail, fun t ht => by
    obtain ⟨e, hcloses, hmade, hapart⟩ := h.closers t ht
    exact ⟨e, hcloses, hmade, fun entry hentry => hapart entry (List.mem_cons_of_mem _ hentry)⟩⟩

theorem reset (h : Lull g dusk ((j, l) :: held) m) {l' : Link} {f : Link → Link}
    (hl' : (m.relink j f).network.link? j = some l') : Lull g dusk ((j, l') :: held) (m.relink j f) :=
  ⟨h.toIntact.reset hl', fun t ht => by
    obtain ⟨e, hcloses, hmade, hapart⟩ := h.closers t ht
    refine ⟨e, hcloses, hmade, fun entry hentry => ?_⟩
    rcases List.mem_cons.mp hentry with rfl | hentry
    · exact hapart (j, l) List.mem_cons_self
    · exact hapart entry (List.mem_cons_of_mem _ hentry)⟩

theorem tame (h : Lull g dusk held m) : m.Tame := by
  intro t ht target next hrest
  obtain ⟨e, hcloses, -⟩ := h.closers t ht
  rcases (hrest ▸ hcloses).1 with hop | hop <;> cases hop

theorem works (h : Lull g dusk held m) (hworks : m.Works m') : Lull g dusk held m' := by
  cases hworks with
  | @intro k _ _ _ _ _ _ thread met =>
      obtain ⟨e, hcloses, hmade, hapart⟩ := h.closers _ (List.mem_of_getElem? thread)
      obtain ⟨f, rfl⟩ := exists_relink hcloses.1 met
      refine ⟨(h.toIntact.relink hapart f).anyone _, fun t ht => ?_⟩
      rcases List.mem_or_eq_of_mem_set ht with ht | rfl
      · exact h.closers t ht
      · exact ⟨e, hcloses.2 _, hmade, hapart⟩

theorem steady (g : Machine) (dusk : Nat) (held : List (Nat × Link)) : Steady dusk (Lull g dusk held) where
  tame h := h.tame
  works h := h.works
  passes h := h.passes

end Lull

/-! ## Somebody who serves a connection -/

/-- The party `k` is left to do `callee` for the connection `j`, which stands as `l`; otherwise all is quiet. -/
def Attended (g : Machine) (dusk : Nat) (held : List (Nat × Link)) (k : Nat) (host : Ipv4) (j : Nat) (l : Link)
    (callee : Dialog Unit) (m : Machine) : Prop :=
  ∃ i, m.threads[i]? = some ⟨some k, host, callee⟩ ∧ Lull g dusk ((j, l) :: held) (m.aside i)

theorem mem_aside {i : Nat} {t t' : Thread Unit} (ht : m.threads[i]? = some t) (ht' : t' ∈ m.threads) :
    t' = t ∨ t' ∈ (m.aside i).threads := by
  obtain ⟨n, hn⟩ := List.mem_iff_getElem?.mp ht'
  by_cases hni : n = i
  · subst hni
    exact .inl (Option.some.inj (hn.symm.trans ht))
  · exact .inr (List.mem_of_getElem? ((getElem?_eraseIdx_of_ne hni).trans hn))

namespace Attended

variable {k : Nat} {host : Ipv4} {callee : Dialog Unit}

theorem intact (h : Attended g dusk held k host j l callee m) : Intact g dusk ((j, l) :: held) m := by
  obtain ⟨i, -, hlull⟩ := h
  exact hlull.toIntact.anyone m.threads

theorem passes (h : Attended g dusk held k host j l callee m) {now : Nat} (later : m.now < now) (early : now < dusk) :
    Attended g dusk held k host j l callee { m with now } := by
  obtain ⟨i, hthread, hlull⟩ := h
  exact ⟨i, hthread, hlull.passes later early⟩

theorem reset (h : Attended g dusk held k host j l callee m) {l' : Link} {f : Link → Link}
    (hl' : (m.relink j f).network.link? j = some l') : Attended g dusk held k host j l' callee (m.relink j f) := by
  obtain ⟨i, hthread, hlull⟩ := h
  exact ⟨i, hthread, hlull.reset (m := m.aside i) hl'⟩

theorem tame (h : Attended g dusk held k host j l callee m) (hcallee : ∀ target next, callee ≠ .ask (.connect target) next) :
    m.Tame := by
  obtain ⟨i, hthread, hlull⟩ := h
  intro t ht
  rcases mem_aside hthread ht with rfl | ht
  · exact hcallee
  · exact hlull.tame t ht

/-- A callee that only closes the connection is one of those who close theirs. -/
theorem lull (h : Attended g dusk held k host j l callee m) {side : Side}
    (hcallee : callee.Only (DialogOp.Closes ⟨j, side⟩)) : Lull g dusk held m := by
  obtain ⟨i, hthread, hlull⟩ := h
  refine ⟨hlull.toIntact.tail.anyone m.threads, fun t ht => ?_⟩
  rcases mem_aside hthread ht with rfl | ht
  · exact ⟨_, hcallee, hlull.made, hlull.apart⟩
  · exact hlull.tail.closers t ht

/-- The callee goes on, or somebody closes another connection. -/
theorem works (h : Attended g dusk held k host j l callee m) (hworks : m.Works m') :
    (∃ i op next x, callee = .ask op next ∧ Lull g dusk ((j, l) :: held) (m.aside i) ∧
      (m.aside i).meet (some k) host op = (m'.aside i, some x) ∧ m'.threads[i]? = some ⟨some k, host, next x⟩) ∨
        Attended g dusk held k host j l callee m' := by
  obtain ⟨i, hthread, hlull⟩ := h
  rcases hworks.cases_aside hthread with ⟨op, next, x, hcallee, hmet, hthread'⟩ | ⟨hothers, hthread'⟩
  · exact .inl ⟨i, op, next, x, hcallee, hlull, hmet, hthread'⟩
  · exact .inr ⟨i, hthread', hlull.works hothers⟩

theorem goes {next : DialogOps.Answer op → Dialog Unit}
    (h : Attended g dusk held k host j l (.ask op next) m) (hmeet : m.canMeet op = true) : ∃ m', m.Works m' := by
  obtain ⟨i, hthread, -⟩ := h
  obtain ⟨m', x, met⟩ := exists_met hmeet (some k) host
  exact ⟨_, .intro hthread met⟩

end Attended

/-- The party `k` is the member `v`; it has until dusk for a message, and takes one of that length. -/
structure Awaits (g : Machine) (dusk k : Nat) (v : Member) (message : Message) : Prop where
  hosts : g.Hosts k v
  patient : dusk ≤ g.now + v.settings.patience
  fits : message.body.length ≤ v.settings.maxMessageLength
  sized : message.body.length < UInt32.size

/-- The party `k` has heard `got` of the message on the connection, which stands as `l`, and listens for the rest. -/
def Listens (g : Machine) (dusk : Nat) (held : List (Nat × Link)) (k : Nat) (host : Ipv4) (v : Member) (inbound : Inbound)
    (message : Message) (got : Bytes) (l : Link) (m : Machine) : Prop :=
  ∃ callee, Attended g dusk held k host inbound.link l callee m ∧ Dialog.Hears (g.handle k) v inbound message dusk got callee

namespace Listens

variable {k : Nat} {host : Ipv4} {v : Member} {inbound : Inbound} {message : Message} {got : Bytes}

theorem intact (h : Listens g dusk held k host v inbound message got l m) : Intact g dusk ((inbound.link, l) :: held) m := by
  obtain ⟨callee, hattended, -⟩ := h
  exact hattended.intact

theorem passes (h : Listens g dusk held k host v inbound message got l m) {now : Nat} (later : m.now < now)
    (early : now < dusk) : Listens g dusk held k host v inbound message got l { m with now } := by
  obtain ⟨callee, hattended, hhears⟩ := h
  exact ⟨callee, hattended.passes later early, hhears⟩

theorem reset (h : Listens g dusk held k host v inbound message got l m) {l' : Link} {f : Link → Link}
    (hl' : (m.relink inbound.link f).network.link? inbound.link = some l') :
    Listens g dusk held k host v inbound message got l' (m.relink inbound.link f) := by
  obtain ⟨callee, hattended, hhears⟩ := h
  exact ⟨callee, hattended.reset hl', hhears⟩

theorem ne_wire (h : Listens g dusk held k host v inbound message got l m) : got ≠ message.wire := by
  obtain ⟨callee, -, hhears⟩ := h
  exact hhears.ne_wire

theorem tame (h : Listens g dusk held k host v inbound message got l m) (hawaits : g.Awaits dusk k v message) : m.Tame := by
  obtain ⟨callee, hattended, hhears⟩ := h
  refine hattended.tame fun target next hcallee => ?_
  rcases hhears.cases hawaits.fits hawaits.sized with ⟨_, hask, -⟩ | ⟨_, hask, -⟩ | ⟨_, _, hask, -⟩ <;>
    cases hcallee.symm.trans hask

/-- Where there is something to be read, the callee can go on. -/
theorem goes (h : Listens g dusk held k host v inbound message got l m) (hawaits : g.Awaits dusk k v message)
    (hheld : l.there.held ≠ []) : ∃ m', m.Works m' := by
  obtain ⟨callee, hattended, hhears⟩ := h
  rcases hhears.cases hawaits.fits hawaits.sized with ⟨_, rfl, -⟩ | ⟨_, rfl, -⟩ | ⟨_, _, rfl, -⟩
  · exact hattended.goes rfl
  · exact hattended.goes rfl
  · exact hattended.goes (canMeet_take (e := inbound.here) hattended.intact.link hheld none _)

/-- Whoever goes on, the callee listens on, or it reads what is there. -/
theorem works (h : Listens g dusk held k host v inbound message got l m) (hawaits : g.Awaits dusk k v message)
    (hworks : m.Works m') : Listens g dusk held k host v inbound message got l m' ∨
      ∃ i due next taken, dusk ≤ due ∧ Dialog.Minds (g.handle k) v inbound message dusk got next ∧
        Lull g dusk ((inbound.link, l) :: held) (m.aside i) ∧
        (m.aside i).meet (some k) host (.take inbound.here none (some due)) = (m'.aside i, some taken) ∧
        m'.threads[i]? = some ⟨some k, host, next taken⟩ := by
  obtain ⟨callee, hattended, hhears⟩ := h
  rcases hattended.works hworks with ⟨i, op, next, x, rfl, hlull, hmet, hthread⟩ | hattended
  · rcases hhears.cases hawaits.fits hawaits.sized with ⟨_, hask, hnext⟩ | ⟨_, hask, hnext⟩ | ⟨due, _, hask, hlate, hminds⟩
    · cases hask
      have hmember : (m.aside i).member (some k) = v := (hawaits.hosts.of_parties hlull.parties).member
      change (m.aside i, some ((m.aside i).member (some k))) = _ at hmet
      obtain ⟨haside, hx⟩ := Prod.mk.inj hmet
      cases hx
      exact .inl ⟨_, ⟨i, hthread, haside ▸ hlull⟩, hmember ▸ hnext⟩
    · cases hask
      change (m.aside i, some m.now) = _ at hmet
      obtain ⟨haside, hx⟩ := Prod.mk.inj hmet
      cases hx
      exact .inl ⟨_, ⟨i, hthread, haside ▸ hlull⟩, hnext _ (Nat.le_trans hawaits.patient (Nat.add_le_add_right hlull.since _))⟩
    · cases hask
      exact .inr ⟨i, due, _, x, hlate, hminds, hlull, hmet, hthread⟩
  · exact .inl ⟨callee, hattended, hhears⟩

/-- Before anything is written to it, and before time is up, the callee listens on. -/
theorem waits (h : Listens g dusk held k host v inbound message got l m) (hawaits : g.Awaits dusk k v message)
    (hempty : l.there = .empty) (hworks : m.Works m') : Listens g dusk held k host v inbound message got l m' := by
  rcases h.works hawaits hworks with hlistens | ⟨i, due, next, taken, hlate, -, hlull, met, -⟩
  · exact hlistens
  · exact absurd met (hlull.unmet (e := inbound.here) hempty hlate)

theorem steady (hawaits : g.Awaits dusk k v message) (hempty : l.there = .empty) :
    Steady dusk (Listens g dusk held k host v inbound message got l) where
  tame h := h.tame hawaits
  works h := h.waits hawaits hempty
  passes h := h.passes

/-- What has been written to it is read as a whole. -/
theorem reads (h : Listens g dusk held k host v inbound message got l m) (hawaits : g.Awaits dusk k v message)
    (hheld : l.there.held ≠ []) (hstays : l.calleeHeld = true) (hworks : m.Works m') :
    Listens g dusk held k host v inbound message got l m' ∨ ∃ next, Dialog.Minds (g.handle k) v inbound message dusk got next ∧
      Attended g dusk held k host inbound.link (l.setIncoming .callee ⟨[], l.there.closed⟩) (next (.bytes l.there.held)) m' := by
  rcases h.works hawaits hworks with hlistens | ⟨i, due, next, taken, -, hminds, hlull, met, hthread⟩
  · exact .inl hlistens
  · rw [meet_take (e := inbound.here) hlull.link rfl (List.length_pos_iff.mpr hheld)] at met
    obtain ⟨haside, htaken⟩ := Prod.mk.inj met
    cases htaken
    have hlink := link?_relink (f := (Link.setIncoming · Side.callee ⟨[], l.there.closed⟩)) hlull.link (by
      rw [Link.isHeld, Link.setIncoming, hstays, Bool.or_true])
    exact .inr ⟨next, hminds, i, hthread, haside ▸ hlull.reset hlink⟩

/-- Where nothing has been written and nothing will be, the callee comes to the end. -/
theorem ends (h : Listens g dusk held k host v inbound message got l m) (hawaits : g.Awaits dusk k v message)
    (hheld : l.there.held = []) (hclosed : l.there.closed = true) (hworks : m.Works m') :
    Listens g dusk held k host v inbound message got l m' ∨ ∃ next, Dialog.Minds (g.handle k) v inbound message dusk got next ∧
      Attended g dusk held k host inbound.link l (next .ended) m' := by
  rcases h.works hawaits hworks with hlistens | ⟨i, due, next, taken, -, hminds, hlull, met, hthread⟩
  · exact .inl hlistens
  · rw [meet_take_ended (e := inbound.here) hlull.link hheld hclosed] at met
    obtain ⟨haside, htaken⟩ := Prod.mk.inj met
    cases htaken
    exact .inr ⟨next, hminds, i, hthread, haside ▸ hlull⟩

end Listens

/-! ## Making a connection -/

theorem Intact.serves {target : Address} {k : Nat} {v : Member} (h : Intact g dusk held m) (hg : g.Serves target k v) :
    m.Serves target k v where
  listens := by
    have hlistens := hg.listens
    rwa [Network.holder?, Network.listener?, ← h.listeners] at hlistens
  answers := by
    have hanswers := hg.answers
    rwa [Network.isSwallowing, ← h.swallowing] at hanswers
  hosts := hg.hosts.of_parties h.parties
  prompt := by
    rw [Prompt, h.listeners]
    exact hg.prompt

/-- What is queued by a connection is taken out of the queue as it is accepted. -/
theorem Prompt.listeners_connect (h : m.Prompt) (ip : Ipv4) (target : Address) :
    ((m.network.enqueue ip target).dequeue target).listeners = m.network.listeners := by
  simp only [Network.dequeue, Network.enqueue, List.map_map]
  refine (List.map_congr_left fun l hl => ?_).trans (List.map_id _)
  obtain ⟨address, owner, queue⟩ := l
  obtain rfl : queue = [] := h _ hl
  by_cases haddress : address = target <;> simp [haddress]

theorem Lull.connected {target : Address} (h : Lull g dusk held m) (hm : m.Prompt) (ip : Ipv4) :
    Lull g dusk ((m.network.next, .fresh) :: held)
      { m with network := (m.network.enqueue ip target).dequeue target } where
  parties := h.parties
  handle := h.handle
  listeners := (hm.listeners_connect ip target).trans h.listeners
  swallowing := h.swallowing
  since := h.since
  early := h.early
  distinct := by
    refine List.nodup_cons.mpr ⟨fun hmem => ?_, h.distinct⟩
    obtain ⟨entry, hentry, hnext⟩ := List.mem_map.mp hmem
    exact Nat.lt_irrefl _ (hnext ▸ (h.stands entry hentry).2)
  stands entry hentry := by
    rcases List.mem_cons.mp hentry with rfl | hentry
    · refine ⟨?_, Nat.lt_succ_self _⟩
      simp [Network.link?, Network.dequeue, Network.enqueue, Network.addLink]
    · obtain ⟨hlink, hmade⟩ := h.stands entry hentry
      exact ⟨(Network.link?_addLink_of_lt hmade).trans hlink, Nat.lt_succ_of_lt hmade⟩
  closers t ht := by
    obtain ⟨e, hcloses, hmade, hapart⟩ := h.closers t ht
    refine ⟨e, hcloses, Nat.lt_succ_of_lt hmade, fun entry hentry => ?_⟩
    rcases List.mem_cons.mp hentry with rfl | hentry
    · exact Nat.ne_of_gt hmade
    · exact hapart entry hentry

/-- Whoever connects has a connection of its own, and somebody to serve it. -/
theorem Lull.connect {target : Address} {k : Nat} {v : Member} {p : Party} (h : Lull g dusk held m) (hg : g.Serves target k v)
    (hp : g.parties[k]? = some p) {connected : Except NetFault End}
    (hmet : m.meet party ip (.connect target) = (m', some connected)) :
    ∃ inbound : Inbound, inbound.source.ip = ip ∧ connected = .ok inbound.there ∧
      Attended g dusk held k p.ip inbound.link .fresh (Dialog.serveAs (g.handle k) inbound) m' := by
  have hserves := h.toIntact.serves hg
  rw [hserves.meet_connect (h.parties.symm ▸ hp) party ip] at hmet
  obtain ⟨rfl, hconnected⟩ := Prod.mk.inj hmet
  refine ⟨⟨m.network.next, ⟨ip, m.network.ephemeralPort⟩⟩, rfl, (Option.some.inj hconnected).symm, m.threads.length, ?_, ?_⟩
  · simp [h.handle]
  · have hleft (t : Thread Unit) : (m.threads ++ [t]).eraseIdx m.threads.length = m.threads := by
      simp [List.eraseIdx_append_of_length_le]
    rw [Machine.aside, hleft]
    exact h.connected hserves.prompt ip

end Machine

end ChordOverlay
