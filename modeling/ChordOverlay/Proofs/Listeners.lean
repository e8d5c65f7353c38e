import ChordOverlay.Net.Network
import Mathlib.Data.List.Nodup

/-!
# What is done to a network

Each of the things that can be done on a network, as what it changes there and what it leaves alone.
-/

namespace ChordOverlay

/-- The connection that waits, and from where it seems to come. -/
def Inbound.origin (inbound : Inbound) : Nat × Ipv4 := (inbound.link, inbound.source.ip)

namespace Network

variable {n : Network} {addr : Address} {l : Listener}

/-! ## Who listens where -/

/-- The listener that holds an address. -/
def holder? (n : Network) (addr : Address) : Option Nat := (n.listener? addr).map Listener.owner

theorem mem_of_listener? (h : n.listener? addr = some l) : l ∈ n.listeners ∧ l.address = addr :=
  ⟨List.mem_of_find?_eq_some h, by simpa using List.find?_some h⟩

theorem listener?_of_mem (hnodup : (n.listeners.map Listener.address).Nodup) (hl : l ∈ n.listeners) :
    n.listener? l.address = some l := by
  cases hfind : n.listener? l.address with
  | none => exact absurd (List.find?_eq_none.mp hfind l hl) (by simp)
  | some l' =>
      obtain ⟨hl', haddress⟩ := mem_of_listener? hfind
      rw [List.inj_on_of_nodup_map hnodup hl' hl haddress]

theorem isListening_iff : n.isListening addr = true ↔ ∃ l ∈ n.listeners, l.address = addr := by
  simp [isListening, listener?]

theorem isListening_eq_false (h : n.isListening addr = false) : ∀ l ∈ n.listeners, l.address ≠ addr := by
  simpa [isListening, listener?] using h

/-- Changing queues moves no listener. -/
theorem map_queue {α : Type} (f : Listener → α) (hf : ∀ l queue, f { l with queue } = f l) (addr : Address)
    (g : List Inbound → List Inbound) (listeners : List Listener) :
    (listeners.map fun l => if l.address = addr then { l with queue := g l.queue } else l).map f = listeners.map f := by
  rw [List.map_map]
  refine List.map_congr_left fun l _ => ?_
  rw [Function.comp_apply]
  split
  · exact hf l _
  · rfl

/-- The address that `listen` is to take into use. -/
def wanted (n : Network) (ip : Ipv4) (port : UInt16) : Address := ⟨ip, if port = 0 then n.ephemeralPort else port⟩

theorem listen_cases (n : Network) (ip : Ipv4) (port : UInt16) (owner : Nat) :
    ∃ drawn, (n.isListening (n.wanted ip port) = true ∧
        n.listen ip port owner = ({ n with drawn }, .error (.inUse (n.wanted ip port)))) ∨
      (n.isListening (n.wanted ip port) = false ∧ n.listen ip port owner =
        ({ n with drawn, listeners := n.listeners ++ [⟨n.wanted ip port, owner, []⟩] }, .ok (n.wanted ip port))) := by
  unfold listen wanted isListening listener?
  by_cases hport : port = 0
  · refine ⟨n.drawn + 1, ?_⟩
    simp only [hport, if_true]
    split <;> simp_all
  · refine ⟨n.drawn, ?_⟩
    simp only [hport, if_false]
    split <;> simp_all

/-! ## Connections that are made and accepted -/

/-- A connection from `ip` to a listener that is there. -/
def enqueue (n : Network) (ip : Ipv4) (target : Address) : Network :=
  { n.addLink.1 with
    drawn := n.drawn + 1
    listeners := n.listeners.map fun l =>
      if l.address = target then { l with queue := l.queue ++ [⟨n.next, ⟨ip, n.ephemeralPort⟩⟩] } else l }

/-- A connection that is swallowed where it was made to. -/
def park (n : Network) (target : Address) : Network :=
  { n.addLink.1 with parked := n.parked ++ [(target, n.next)] }

theorem connect_cases (n : Network) (ip : Ipv4) (target : Address) :
    (n.isSwallowing target = true ∧ n.connect ip target = (n.park target, .ok ⟨n.next, .caller⟩)) ∨
      (n.isSwallowing target = false ∧ n.isListening target = true ∧
        n.connect ip target = (n.enqueue ip target, .ok ⟨n.next, .caller⟩)) ∨
      n.isSwallowing target = false ∧ n.isListening target = false ∧
        n.connect ip target = (n, .error (.refused target)) := by
  unfold connect
  by_cases hswallowing : n.isSwallowing target = true
  · exact .inl ⟨hswallowing, by rw [if_pos hswallowing]; rfl⟩
  · rw [if_neg hswallowing]
    by_cases hlistening : n.isListening target = true
    · exact .inr (.inl ⟨by simpa using hswallowing, hlistening, by rw [if_pos hlistening]; rfl⟩)
    · exact .inr (.inr ⟨by simpa using hswallowing, by simpa using hlistening, by rw [if_neg hlistening]⟩)

/-- The oldest connection that waits at an address is taken from there. -/
def dequeue (n : Network) (addr : Address) : Network :=
  { n with listeners := n.listeners.map fun l => if l.address = addr then { l with queue := l.queue.tail } else l }

theorem accept_eq (h : n.listener? addr = some l) :
    n.accept addr = ((if l.queue = [] then n else n.dequeue addr), l.queue.head?) := by
  unfold accept
  rw [h, Option.bind_some]
  cases hqueue : l.queue with
  | nil => rfl
  | cons inbound rest => rfl

/-! ## Connections that are abandoned -/

theorem abandon_eq (n : Network) (abandoned : List Nat) : ∃ links, n.abandon abandoned = { n with links } := by
  unfold abandon
  induction abandoned generalizing n with
  | nil => exact ⟨n.links, rfl⟩
  | cons k abandoned ih =>
      obtain ⟨links, heq⟩ := ih (n.release ⟨k, .callee⟩)
      exact ⟨links, heq⟩

theorem unlisten_eq (n : Network) (owner : Nat) :
    ∃ links, n.unlisten owner = { n with listeners := n.listeners.filter fun l => l.owner ≠ owner, links } := by
  unfold unlisten
  simp only [List.partition_eq_filter_filter]
  obtain ⟨links, heq⟩ := abandon_eq { n with listeners := n.listeners.filter (not ∘ fun l => decide (l.owner = owner)) }
    (((n.listeners.filter fun l => decide (l.owner = owner)).flatMap Listener.queue).map Inbound.link)
  refine ⟨links, heq.trans ?_⟩
  congr 1
  exact List.filter_congr fun l _ => by simp

theorem restore_eq (n : Network) (addr : Address) :
    ∃ links, n.restore addr = { n with
      swallowing := n.swallowing.filter (· ≠ addr), parked := n.parked.filter fun entry => entry.1 ≠ addr, links } := by
  unfold restore
  simp only [List.partition_eq_filter_filter]
  obtain ⟨links, heq⟩ := abandon_eq { n with
      swallowing := n.swallowing.filter (· ≠ addr)
      parked := n.parked.filter (not ∘ fun entry => decide (entry.1 = addr)) }
    ((n.parked.filter fun entry => decide (entry.1 = addr)).map Prod.snd)
  refine ⟨links, heq.trans ?_⟩
  congr 1
  exact List.filter_congr fun entry _ => by simp

/-! ## Addresses that swallow -/

theorem swallow_eq (n : Network) (addr : Address) : ∃ swallowing, n.swallow addr = { n with swallowing } := by
  unfold swallow
  split
  · exact ⟨n.swallowing, rfl⟩
  · exact ⟨addr :: n.swallowing, rfl⟩

theorem isSwallowing_swallow (n : Network) (addr addr' : Address) :
    (n.swallow addr).isSwallowing addr' = (decide (addr = addr') || n.isSwallowing addr') := by
  unfold swallow
  split
  next hswallowing =>
    by_cases heq : addr = addr'
    · rw [← heq, hswallowing, Bool.or_true]
    · simp [heq]
  next => simp [isSwallowing, eq_comm]

theorem isSwallowing_restore (n : Network) (addr addr' : Address) :
    (n.restore addr).isSwallowing addr' = (decide (addr ≠ addr') && n.isSwallowing addr') := by
  obtain ⟨links, heq⟩ := n.restore_eq addr
  rw [heq, Bool.eq_iff_iff]
  simp only [isSwallowing, List.contains_eq_mem, List.mem_filter, decide_eq_true_eq, Bool.and_eq_true, ne_comm (a := addr)]
  exact and_comm

end Network

end ChordOverlay
