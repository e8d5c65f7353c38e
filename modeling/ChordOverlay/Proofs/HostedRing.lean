import ChordOverlay.Proofs.Passage
import ChordOverlay.Proofs.QuietCalls

/-!
# A ring on a machine

The members of a ring are parties of one machine and listen at their addresses. A lookup is passed on from one to the next,
each time over a connection of its own, and comes back with the owner.
-/

namespace ChordOverlay

namespace Machine

variable {α : Type} {ι : Type} {g : Machine} {σ : ι → Member} {seat : ι → Nat} {limit dusk : Nat} {id : RingId} {ttl : UInt8}
  {k : ι} {party : Option Nat} {ip : Ipv4}

/--
Nobody is at work on the machine. Its parties at the seats are the members of a ring, each with an application; they listen
at their addresses, their fingers are among them, and all send and accept messages of one length.
-/
structure Populated (g : Machine) (σ : ι → Member) (seat : ι → Nat) (limit : Nat) : Prop extends Ring σ where
  fingers : ∀ k p, some p ∈ (σ k).view.fingers.slots → ∃ j, p = (σ j).self
  hosts : ∀ k, ∃ p app, g.parties[seat k]? = some p ∧ p.role = .member (σ k) (some app)
  listens : ∀ k, g.network.holder? (σ k).self.address = some (seat k)
  answers : ∀ k, g.network.isSwallowing (σ k).self.address = false
  shared : ∀ k, (σ k).settings.maxMessageLength = limit
  prompt : g.Prompt
  idle : g.threads = []

/-- Dusk comes before any member has waited as long as it would. -/
def InTime (g : Machine) (σ : ι → Member) (dusk : Nat) : Prop := ∀ k, dusk ≤ g.now + (σ k).settings.patience

theorem Yields.of_look {s : Settings} {f : Member → Activity α} {v : α}
    (h : Yields g dusk party ip ((f (g.member party)).toDialog s) v) :
    Yields g dusk party ip ((Activity.look >>= f).toDialog s) v := Yields.look h

theorem Yields.of_bind {β : Type} {s : Settings} {a : Activity α} {f : α → Activity β} {x : α} {v : β}
    (ha : Yields g dusk party ip (a.toDialog s) x) (hf : Yields g dusk party ip ((f x).toDialog s) v) :
    Yields g dusk party ip (Activity.toDialog s (a.bind f)) v := by
  rw [Activity.toDialog_bind]
  exact ha.bind hf

namespace Populated

theorem serves (h : g.Populated σ seat limit) (k : ι) : g.Serves (σ k).self.address (seat k) (σ k) where
  listens := h.listens k
  answers := h.answers k
  hosts := by
    obtain ⟨p, app, hp, hrole⟩ := h.hosts k
    exact ⟨p, some app, hp, hrole⟩
  prompt := h.prompt

theorem member (h : g.Populated σ seat limit) (k : ι) : g.member (some (seat k)) = σ k := (h.serves k).hosts.member

theorem lull (h : g.Populated σ seat limit) (hdusk : g.now < dusk) : Lull g dusk [] g where
  parties := rfl
  handle := rfl
  listeners := rfl
  swallowing := rfl
  since := Nat.le_refl _
  early := hdusk
  distinct := .nil
  stands := fun _ hentry => absurd hentry List.not_mem_nil
  closers := fun t ht => by
    rw [h.idle] at ht
    cases ht

/-- A lookup that may be passed on often enough comes to the owner. -/
theorem yields_lookup [Fintype ι] (h : g.Populated σ seat limit) (hlimit : 11 ≤ limit) (htime : g.InTime σ dusk)
    (ip : Ipv4) (hhops : (ahead σ k id).card ≤ ttl.toNat) : ∃ p, Owns σ id p ∧
      Yields g dusk (some (seat k)) ip ((Activity.lookup id ttl).toDialog (σ k).settings) (.ok p) := by
  induction hcard : (ahead σ k id).card using Nat.strong_induction_on generalizing k ttl ip with
  | h c ih =>
      have hlooks {p : Peer} (hyields : Yields g dusk (some (seat k)) ip
          ((Activity.lookupFrom id ttl Activity.lookupAttempts (.noSuccessor id)).toDialog (σ k).settings) (.ok p)) :
          Yields g dusk (some (seat k)) ip ((Activity.lookup id ttl).toDialog (σ k).settings) (.ok p) := by
        refine Yields.of_look ?_
        rwa [h.member k, if_pos (h.joined k)]
      have hfound {p : Peer} (hp : (σ k).view.findSuccessor id = .found p) : ∃ p, Owns σ id p ∧
          Yields g dusk (some (seat k)) ip ((Activity.lookup id ttl).toDialog (σ k).settings) (.ok p) := by
        refine ⟨p, h.found hp, hlooks (Yields.of_look ?_)⟩
        rw [h.member k, hp]
        exact .done _
      rcases (h.sound k).findSuccessor_cases id with ⟨_, heq⟩ | ⟨_, heq, _⟩ | ⟨hid, heq, _, _, hbetween⟩
      · exact hfound heq
      · exact hfound heq
      · obtain ⟨j, hj⟩ := h.toRing.exists_hop (h.fingers k) hid
        rw [hj] at heq hbetween
        have hmem : j ∈ ahead σ k id := mem_ahead.mpr hbetween
        have hlt := card_ahead_lt hmem
        have hpositive : ttl ≠ 0 := by
          rintro rfl
          exact absurd (Finset.card_pos.mpr ⟨j, hmem⟩) (Nat.not_lt.mpr hhops)
        have hleft := hops_left hpositive
        obtain ⟨host, _, hhost, -⟩ := h.hosts j
        -- The hop does the same with one hop less, and it has fewer members ahead.
        obtain ⟨p, howns, hcallee⟩ := ih _ (hcard ▸ hlt) host.ip (show (ahead σ j id).card ≤ (ttl - 1).toNat by omega) rfl
        refine ⟨p, howns, hlooks (Yields.of_look ?_)⟩
        rw [h.member k, heq]
        simp only [if_neg hpositive]
        refine Yields.bind (a := .ok (some p)) (Yields.inquire (h.serves j) hhost ?_ ?_ ?_ (htime j) ?_) (.done _)
        · rwa [h.shared k]
        · rwa [h.shared j]
        · exact Nat.le_trans (htime k) (Nat.add_le_add_left (Nat.le_add_right _ _) _)
        · exact Yields.of_bind (f := fun r => pure r.toOption) hcallee (.done _)

/-- With a hop for every other member, whoever asks for the owner of a position is told it. -/
theorem yields_findSuccessor [Fintype ι] (h : g.Populated σ seat limit) (hlimit : 11 ≤ limit) (htime : g.InTime σ dusk)
    (hhops : Fintype.card ι - 1 ≤ (σ k).settings.maxHops.toNat) (ip : Ipv4) (id : RingId) : ∃ j, Owns σ id (σ j).self ∧
      Yields g dusk (some (seat k)) ip ((Activity.findSuccessor id).toDialog (σ k).settings) (.ok (σ j).self) := by
  obtain ⟨p, howns, hyields⟩ := h.yields_lookup hlimit htime ip (Nat.le_trans (card_ahead_le σ k id) hhops)
  obtain ⟨j, rfl⟩ := howns.1
  refine ⟨j, howns, Yields.of_look ?_⟩
  rwa [h.member k, if_pos (h.joined k)]

end Populated

end Machine

end ChordOverlay
