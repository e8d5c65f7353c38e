import ChordOverlay.Lab.Machine
import ChordOverlay.Proofs.Influence
import ChordOverlay.Proofs.Listeners

/-!
# What happens elsewhere

Whoever calls others does so on connections of its own: whatever it does there, every other connection, the clock and the
members stay as they are.
-/

namespace ChordOverlay

/-! ## One connection among others -/

namespace Network

variable {n : Network} {j k : Nat} {l : Link} {f : Link → Link}

theorem link?_updateLink (hl : n.link? k = some l) (hheld : (f l).isHeld = true) :
    (n.updateLink k f).link? k = some (f l) := by
  simp only [link?, updateLink] at hl ⊢
  generalize n.links = links at hl
  induction links with
  | nil => cases hl
  | cons entry links ih =>
      obtain ⟨j, l'⟩ := entry
      rw [List.lookup_cons] at hl
      by_cases hj : j = k
      · subst hj
        rw [beq_self_eq_true] at hl
        cases hl
        simp [hheld]
      · have hne : (k == j) = false := beq_eq_false_iff_ne.mpr (Ne.symm hj)
        rw [hne] at hl
        simp [hj, hne, List.lookup_cons, ih hl]

theorem link?_updateLink_of_ne (hne : j ≠ k) : (n.updateLink j f).link? k = n.link? k := by
  simp only [link?, updateLink]
  induction n.links with
  | nil => rfl
  | cons entry links ih =>
      obtain ⟨i, l⟩ := entry
      by_cases hi : i = j
      · subst hi
        have hk : (k == i) = false := beq_eq_false_iff_ne.mpr (Ne.symm hne)
        rw [List.lookup_cons, hk]
        by_cases hheld : (f l).isHeld = true
        · simp [hheld, List.lookup_cons, hk, ih]
        · simp [hheld, ih]
      · simp [hi, List.lookup_cons, ih]

theorem link?_addLink_of_lt (hk : k < n.next) : n.addLink.1.link? k = n.link? k := by
  have hne : (k == n.next) = false := beq_eq_false_iff_ne.mpr (Nat.ne_of_lt hk)
  simp [link?, addLink, List.lookup_cons, hne]

theorem connect_elsewhere (n : Network) (ip : Ipv4) (target : Address) :
    (∀ k < n.next, (n.connect ip target).1.link? k = n.link? k) ∧ n.next ≤ (n.connect ip target).1.next ∧
      ∀ e, (n.connect ip target).2 = .ok e → e.link = n.next := by
  unfold connect
  split
  · exact ⟨fun k hk => link?_addLink_of_lt hk, Nat.le_succ _, by rintro e ⟨⟩; rfl⟩
  · split
    · exact ⟨fun k hk => link?_addLink_of_lt (n := n) hk, Nat.le_succ _, by rintro e ⟨⟩; rfl⟩
    · exact ⟨fun _ _ => rfl, Nat.le_refl _, nofun⟩

theorem accept_elsewhere (n : Network) (addr : Address) :
    (n.accept addr).1.links = n.links ∧ (n.accept addr).1.next = n.next := by
  unfold accept
  split <;> exact ⟨rfl, rfl⟩

theorem listener?_enqueue {l : Listener} {target : Address} (hl : n.listener? target = some l)
    (ip : Ipv4) : (n.enqueue ip target).listener? target =
      some { l with queue := l.queue ++ [⟨n.next, ⟨ip, n.ephemeralPort⟩⟩] } := by
  have hsame (queue : List Inbound → List Inbound) : (fun l : Listener => decide (l.address = target)) ∘
      (fun l => if l.address = target then { l with queue := queue l.queue } else l) =
        fun l => decide (l.address = target) := by
    funext l
    simp only [Function.comp_apply]
    split <;> rfl
  rw [listener?, enqueue, List.find?_map, hsame fun queue => queue ++ _]
  rw [listener?] at hl
  simp [hl, show l.address = target by simpa using List.find?_some hl]

end Network

/-- An answer does not give an end of the connection `link`. -/
def DialogOp.Spares (link : Nat) : (op : DialogOp) → DialogOps.Answer op → Prop
  | .connect _, (.ok e : Except NetFault End) => e.link ≠ link
  | _, _ => True

/-! ## One member among others -/

namespace Machine

variable {m m' : Machine} {k link : Nat} {v v' : Member} {party : Option Nat} {ip : Ipv4}

/-- The party `k` is the member `v`. -/
def Hosts (m : Machine) (k : Nat) (v : Member) : Prop := ∃ p app, m.parties[k]? = some p ∧ p.role = .member v app

theorem Hosts.member (h : m.Hosts k v) : m.member (some k) = v := by
  obtain ⟨p, app, hp, hrole⟩ := h
  simp [Machine.member, party?, hp, hrole]

theorem Hosts.of_parties (h : m.Hosts k v) (hparties : m'.parties = m.parties) : m'.Hosts k v := by
  rwa [Hosts, hparties]

theorem Hosts.setMember (h : m.Hosts k v) (v' : Member) : (m.setMember (some k) v').Hosts k v' := by
  obtain ⟨p, app, hp, hrole⟩ := h
  refine ⟨{ p with role := .member v' app }, app, ?_, rfl⟩
  simp [Machine.setMember, updateParty, hp, hrole]

theorem Hosts.updateParty (h : m.Hosts k v) (party : Option Nat) {f : Party → Party}
    (hf : ∀ p app, p.role = .member v app → (f p).role = .member v app) : (m.updateParty party f).Hosts k v := by
  cases party with
  | none => exact h
  | some j =>
      obtain ⟨p, app, hp, hrole⟩ := h
      by_cases hj : j = k
      · subst hj
        exact ⟨f p, app, by simp [Machine.updateParty, hp], hf p app hrole⟩
      · exact ⟨p, app, by simp [Machine.updateParty, hj, hp], hrole⟩

theorem serveAt_elsewhere (m : Machine) (j : Nat) (inbound : Inbound) :
    (m.serveAt j inbound).network = m.network ∧ (m.serveAt j inbound).now = m.now ∧
      ∀ {k v}, m.Hosts k v → (m.serveAt j inbound).Hosts k v := by
  unfold serveAt
  split
  · exact ⟨rfl, rfl, id⟩
  · rename_i p hp
    split
    · exact ⟨rfl, rfl, fun h => h.of_parties rfl⟩
    · rename_i s hscript
      refine ⟨rfl, rfl, fun {k v} h => ?_⟩
      obtain ⟨p', app, hp', hrole⟩ := h
      -- A script is kept by a party that is no member.
      have hne : j ≠ k := by
        rintro rfl
        rw [hp] at hp'
        cases hp'
        rw [hscript] at hrole
        cases hrole
      exact ⟨p', app, by simp [Machine.updateParty, hne, hp'], hrole⟩

theorem acceptAt_elsewhere (m : Machine) (addr : Address) :
    (m.acceptAt addr).network.links = m.network.links ∧ (m.acceptAt addr).network.next = m.network.next ∧
      (m.acceptAt addr).now = m.now ∧ ∀ {k v}, m.Hosts k v → (m.acceptAt addr).Hosts k v := by
  unfold acceptAt
  split
  · rename_i l network inbound hlistener haccept
    obtain ⟨hnetwork, hnow, hhosts⟩ := serveAt_elsewhere { m with network } l.owner inbound
    have hkept := m.network.accept_elsewhere addr
    rw [haccept] at hkept
    rw [hnetwork, hnow]
    exact ⟨hkept.1, hkept.2, rfl, fun h => hhosts (h.of_parties rfl)⟩
  · exact ⟨rfl, rfl, rfl, id⟩

/-- Something is done to one connection. -/
def relink (m : Machine) (j : Nat) (f : Link → Link) : Machine := { m with network := m.network.updateLink j f }

/-- What becomes of a machine by a request that is met. -/
inductive Moves (m : Machine) (party : Option Nat) (ip : Ipv4) : DialogOp → Machine → Prop
  | rest {op : DialogOp} : Moves m party ip op m
  | store (v : Member) : Moves m party ip (.store v) (m.setMember party v)
  | note (entry : Note) :
      Moves m party ip (.note entry) (m.updateParty party fun p => { p with journal := p.journal ++ [entry] })
  | leave (owner : Nat) : Moves m party ip .leave { m with network := m.network.unlisten owner }
  | connect (target : Address) : Moves m party ip (.connect target)
      (acceptAt { m with network := (m.network.connect ip target).1 } target)
  | work {op : DialogOp} {e : End} (f : Link → Link) (own : op.end? = some e) : Moves m party ip op (m.relink e.link f)

variable {op : DialogOp} {x : DialogOps.Answer op}

theorem moves_push (e : End) (bytes : Bytes) (deadline : Option Nat) :
    m.Moves party ip (.push e bytes deadline) (m.push e bytes).1 := by
  unfold push
  split
  · exact .rest
  · dsimp only
    split
    · exact .rest
    · split
      · exact .rest
      · exact .work _ rfl

theorem moves_take (e : End) (limit deadline : Option Nat) : m.Moves party ip (.take e limit deadline) (m.take e limit).1 := by
  unfold take
  split
  · exact .rest
  · dsimp only
    split
    · exact .rest
    · exact .work _ rfl

theorem moves_meet (hmet : m.meet party ip op = (m', some x)) : m.Moves party ip op m' := by
  have hmoves : m.Moves party ip op (m.meet party ip op).1 := by
    unfold meet
    split
    · cases op with
      | store v' => exact .store v'
      | note entry => exact .note entry
      | leave =>
          cases party with
          | none => exact .rest
          | some k => exact .leave k
      | connect target => exact .connect target
      | push e bytes deadline => exact moves_push e bytes deadline
      | take e limit deadline => exact moves_take e limit deadline
      | finish e => exact .work _ rfl
      | release e => exact .work _ rfl
      | _ => exact .rest
    · exact .rest
  rwa [hmet] at hmoves

/-- The clock stands still, and no number of a connection is given out twice. -/
theorem Moves.forward (h : m.Moves party ip op m') : m'.now = m.now ∧ m.network.next ≤ m'.network.next := by
  cases h with
  | store v => cases party <;> exact ⟨rfl, Nat.le_refl _⟩
  | note entry => cases party <;> exact ⟨rfl, Nat.le_refl _⟩
  | leave owner =>
      obtain ⟨links, heq⟩ := m.network.unlisten_eq owner
      rw [heq]
      exact ⟨rfl, Nat.le_refl _⟩
  | connect target =>
      obtain ⟨-, hnext, hnow, -⟩ := acceptAt_elsewhere { m with network := (m.network.connect ip target).1 } target
      exact ⟨hnow, hnext.symm ▸ (m.network.connect_elsewhere ip target).2.1⟩
  | _ => exact ⟨rfl, Nat.le_refl _⟩

/-- Only a store changes a member. -/
theorem Moves.hosts (hmoves : m.Moves party ip op m') (hop : ¬ op.IsStore) (h : m.Hosts k v) : m'.Hosts k v := by
  cases hmoves with
  | store v => exact absurd trivial hop
  | note entry => exact h.updateParty party fun _ _ hrole => hrole
  | connect target => exact (acceptAt_elsewhere _ target).2.2.2 (h.of_parties rfl)
  | _ => exact h

theorem acceptAt_enqueue {target : Address} {l : Listener} (hl : m.network.listener? target = some l) (hqueue : l.queue = [])
    (ip : Ipv4) : acceptAt { m with network := m.network.enqueue ip target } target =
      serveAt { m with network := (m.network.enqueue ip target).dequeue target } l.owner
        ⟨m.network.next, ⟨ip, m.network.ephemeralPort⟩⟩ := by
  have hwaiting := Network.listener?_enqueue hl ip
  have haccept := Network.accept_eq hwaiting
  rw [hqueue, List.nil_append] at hwaiting haccept
  rw [if_neg (List.cons_ne_nil _ _)] at haccept
  simp only [acceptAt, hwaiting, haccept, List.head?_cons]

/-- Nobody waits to be accepted. -/
def Prompt (m : Machine) : Prop := ∀ l ∈ m.network.listeners, l.queue = []

theorem Prompt.acceptAt (hm : m.Prompt) (addr : Address) : (m.acceptAt addr).Prompt := by
  unfold Machine.acceptAt
  cases hl : m.network.listener? addr with
  | none => exact hm
  | some l =>
      rw [Network.accept_eq hl, hm l (Network.mem_of_listener? hl).1]
      exact hm

theorem Prompt.unlisten (hm : m.Prompt) (owner : Nat) : Prompt { m with network := m.network.unlisten owner } := by
  obtain ⟨links, heq⟩ := m.network.unlisten_eq owner
  intro l hl
  rw [heq] at hl
  exact hm l (List.mem_filter.mp hl).1

/-- Whoever connects is accepted at once, so nobody ever waits. -/
theorem Moves.prompt (h : m.Moves party ip op m') (hm : m.Prompt) : m'.Prompt := by
  cases h with
  | store v => cases party <;> exact hm
  | note entry => cases party <;> exact hm
  | leave owner => exact hm.unlisten owner
  | connect target =>
      rcases m.network.connect_cases ip target with ⟨-, hconnect⟩ | ⟨-, hlistens, hconnect⟩ | ⟨-, -, hconnect⟩ <;> rw [hconnect]
      · refine Prompt.acceptAt ?_ target
        exact hm
      · obtain ⟨l, hl⟩ := Option.isSome_iff_exists.mp hlistens
        intro waiting hwaiting
        -- The one connection that waits in the queue is taken out of it in the same breath.
        rw [acceptAt_enqueue hl (hm l (Network.mem_of_listener? hl).1), (serveAt_elsewhere ..).1] at hwaiting
        simp only [Network.dequeue, Network.enqueue, List.map_map, List.mem_map, Function.comp_apply] at hwaiting
        obtain ⟨before, hbefore, rfl⟩ := hwaiting
        by_cases haddress : before.address = target
        · simp [haddress, hm before hbefore]
        · simp [haddress, hm before hbefore]
      · refine Prompt.acceptAt ?_ target
        exact hm
  | _ => exact hm

/-- What can happen to a machine: a request of somebody is met, the network is set up otherwise, or all else changes. -/
inductive Happens (m : Machine) : Machine → Prop
  | met {party : Option Nat} {ip : Ipv4} {op : DialogOp} {x : DialogOps.Answer op} {m' : Machine}
      (met : m.meet party ip op = (m', some x)) : Happens m m'
  | listen (ip : Ipv4) (port : UInt16) (owner : Nat) :
      Happens m { m with network := (m.network.listen ip port owner).1 }
  | unlisten (owner : Nat) : Happens m { m with network := m.network.unlisten owner }
  | swallow (addr : Address) : Happens m { m with network := m.network.swallow addr }
  | restore (addr : Address) : Happens m { m with network := m.network.restore addr }
  | away {m' : Machine} (network : m'.network = m.network) : Happens m m'

theorem Happens.prompt (h : m.Happens m') (hm : m.Prompt) : m'.Prompt := by
  cases h with
  | met hmet => exact (moves_meet hmet).prompt hm
  | listen ip port owner =>
      obtain ⟨drawn, ⟨-, heq⟩ | ⟨-, heq⟩⟩ := m.network.listen_cases ip port owner <;> rw [heq]
      · exact hm
      · exact List.forall_mem_append.mpr ⟨hm, List.forall_mem_singleton.mpr rfl⟩
  | unlisten owner => exact hm.unlisten owner
  | swallow addr =>
      obtain ⟨swallowing, heq⟩ := m.network.swallow_eq addr
      rw [heq]
      exact hm
  | restore addr =>
      obtain ⟨links, heq⟩ := m.network.restore_eq addr
      rw [heq]
      exact hm
  | away hnetwork => exact fun l hl => hm l (hnetwork ▸ hl)

/-- Whatever happens, one after another, to a machine on which nobody waits, nobody ever waits on it. -/
theorem Prompt.of_happens (hm : m.Prompt) (h : Relation.ReflTransGen Happens m m') : m'.Prompt := by
  induction h with
  | refl => exact hm
  | tail _ hnext ih => exact hnext.prompt ih

theorem prompt_empty : empty.Prompt := nofun

/-- Nothing has been done to the connection `link`, to the clock or to a member. -/
structure Beside (link : Nat) (m m' : Machine) : Prop where
  link : m'.network.link? link = m.network.link? link
  now : m'.now = m.now
  next : m.network.next ≤ m'.network.next
  hosts {k : Nat} {v : Member} : m.Hosts k v → m'.Hosts k v

/-- Whoever calls others and has no end of a connection leaves it alone. -/
theorem Moves.beside (h : m.Moves party ip op m') (hop : op = .look ∨ op.Calls)
    (haway : ∀ e, op.end? = some e → e.link ≠ link) (hlink : link < m.network.next) : m.Beside link m' := by
  have hstore : ¬ op.IsStore := by
    rcases hop with rfl | hop
    · exact id
    · exact not_isStore_of_calls hop
  obtain ⟨hnow, hnext⟩ := h.forward
  refine ⟨?_, hnow, hnext, h.hosts hstore⟩
  cases h with
  | rest => rfl
  | store v => exact absurd trivial hstore
  | note entry => rcases hop with hop | hop <;> cases hop
  | leave owner => rcases hop with hop | hop <;> cases hop
  | connect target =>
      rw [Network.link?, (acceptAt_elsewhere _ target).1]
      exact (m.network.connect_elsewhere ip target).1 link hlink
  | work f own => exact Network.link?_updateLink_of_ne (haway _ own)

theorem spares_meet (hlink : link < m.network.next) (hmet : m.meet party ip op = (m', some x)) : op.Spares link x := by
  cases op with
  | connect target =>
      have hsnd := congrArg Prod.snd hmet
      have hresult : (m.network.connect ip target).2 = x := Option.some.inj hsnd
      subst hresult
      change DialogOp.Spares link (.connect target) (m.network.connect ip target).2
      cases hconnect : (m.network.connect ip target).2 with
      | error fault => trivial
      | ok e =>
          change e.link ≠ link
          rw [(m.network.connect_elsewhere ip target).2.2 e hconnect]
          exact Nat.ne_of_gt hlink
  | _ => trivial

/-- The connection `link` is as it was, time has gone on, and the member `k` has become `v`, with its settings kept. -/
structure Elsewhere (link k : Nat) (v : Member) (m m' : Machine) : Prop where
  link : m'.network.link? link = m.network.link? link
  time : m.now ≤ m'.now
  next : m.network.next ≤ m'.network.next
  hosts : m'.Hosts k v
  settings : v.settings = (m.member (some k)).settings

theorem Beside.elsewhere (h : m.Beside link m') (hv : m.Hosts k v) : m.Elsewhere link k v m' where
  link := h.link
  time := Nat.le_of_eq h.now.symm
  next := h.next
  hosts := h.hosts hv
  settings := congrArg Member.settings hv.member.symm

end Machine

/-! ## Dialogs that stay away from a connection -/

namespace Dialog

variable {α β : Type} {link : Nat}

/-- No request is made at an end of the connection `link`, as long as no end of it is given away. -/
def Avoids (link : Nat) : Dialog α → Prop
  | .done _ => True
  | .ask op next => (∀ e, DialogOp.end? op = some e → e.link ≠ link) ∧ ∀ x, DialogOp.Spares link op x → Avoids link (next x)

theorem Avoids.bind {d : Dialog α} {f : α → Dialog β} (hd : d.Avoids link) (hf : ∀ a, (f a).Avoids link) :
    Avoids link (d.bind f) := by
  induction d with
  | done a => exact hf a
  | ask op next ih => exact ⟨hd.1, fun x hx => ih x (hd.2 x hx)⟩

theorem Only.avoids {d : Dialog α} (h : d.Only fun op => ∀ e, op.end? = some e → e.link ≠ link) : d.Avoids link := by
  induction d with
  | done a => trivial
  | ask op next ih => exact ⟨h.1, fun x _ => ih x (h.2 x)⟩

theorem avoids_inquire (s : Settings) (target : Address) (q : Query) : (inquire s target q).Avoids link := by
  refine Avoids.bind ⟨nofun, fun (start : Nat) _ => ⟨nofun, fun connected hconnected => ?_⟩⟩ fun r => by cases r <;> trivial
  cases (connected : Except NetFault End) with
  | error fault => trivial
  | ok e =>
      have hopen : ∀ op : DialogOp, op.end? = some e → ∀ e', op.end? = some e' → e'.link ≠ link := by
        intro op hop e' he'
        cases hop.symm.trans he'
        exact hconnected
      have honly : Only (fun op => ∀ e', op.end? = some e' → e'.link ≠ link)
          (requestOn e s.maxMessageLength (start + q.patience s) q.request >>= fun reply =>
            release e >>= fun _ => pure reply) :=
        (only_requestOn (fun _ => hopen _ rfl) (hopen _ rfl) q.request).bind fun _ => ⟨hopen _ rfl, fun _ => trivial⟩
      exact honly.avoids

theorem avoids_toDialog (s : Settings) (a : Activity α) : (a.toDialog s).Avoids link := by
  induction a with
  | done x => trivial
  | ask op next ih =>
      refine Avoids.bind ?_ ih
      cases op with
      | look => exact ⟨nofun, fun _ _ => trivial⟩
      | store m => exact ⟨nofun, fun _ _ => trivial⟩
      | query target q => exact avoids_inquire s target q

end Dialog

end ChordOverlay
