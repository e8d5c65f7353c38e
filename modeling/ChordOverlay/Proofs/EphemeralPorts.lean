import ChordOverlay.Proofs.Delivery
import Mathlib.Order.Nat

/-!
# Ports that are chosen by the network

To listen on port zero is to listen on the port whose turn it is, whether it is free or not. One that is taken is refused
while others may be free; but its turn is over then, and whoever tries again comes to a free one if there is any.
-/

namespace ChordOverlay

/-- A port of the range that the network chooses from. -/
def IsEphemeral (port : UInt16) : Prop := 40000 ≤ port.toNat ∧ port.toNat ≤ 65534

namespace Network

/-! ## Turns -/

theorem toNat_ephemeralPort (n : Network) : n.ephemeralPort.toNat = 40000 + n.drawn.toNat % 25535 := by
  have hturn : n.drawn.toNat % 25535 < 25535 := Nat.mod_lt _ (by decide)
  refine UInt16.toNat_ofNat_of_lt' ?_
  change 40000 + n.drawn.toNat % 25535 < 65536
  omega

theorem isEphemeral_ephemeralPort (n : Network) : IsEphemeral n.ephemeralPort := by
  have hturn : n.drawn.toNat % 25535 < 25535 := Nat.mod_lt _ (by decide)
  rw [IsEphemeral, toNat_ephemeralPort]
  omega

/-- Whose turn it is makes no difference to who listens where. -/
theorem isListening_drawn (n : Network) (drawn : UInt16) (addr : Address) :
    { n with drawn }.isListening addr = n.isListening addr := rfl

theorem wanted_zero (n : Network) (ip : Ipv4) : n.wanted ip 0 = ⟨ip, n.ephemeralPort⟩ := rfl

theorem listen_zero_of_free {n : Network} {ip : Ipv4} (h : n.isListening (n.wanted ip 0) = false) (owner : Nat) :
    n.listen ip 0 owner = ({ n with drawn := n.drawn + 1, listeners := n.listeners ++ [⟨n.wanted ip 0, owner, []⟩] },
      .ok (n.wanted ip 0)) := by
  rw [wanted_zero] at h ⊢
  simp only [listen, if_true, isListening_drawn, h, Bool.false_eq_true, if_false]

theorem listen_zero_of_taken {n : Network} {ip : Ipv4} (h : n.isListening (n.wanted ip 0) = true) (owner : Nat) :
    n.listen ip 0 owner = ({ n with drawn := n.drawn + 1 }, .error (.inUse (n.wanted ip 0))) := by
  rw [wanted_zero] at h ⊢
  simp only [listen, if_true, isListening_drawn, h]

/-- The network `k` turns later, with nothing else done. -/
def later (n : Network) (k : Nat) : Network := { n with drawn := n.drawn + UInt16.ofNat k }

theorem toNat_drawn_later (n : Network) (k : Nat) : (n.later k).drawn.toNat = (n.drawn.toNat + k) % 65536 := by
  change (n.drawn + UInt16.ofNat k).toNat = _
  rw [UInt16.toNat_add, UInt16.toNat_ofNat', Nat.add_mod_mod]

theorem later_succ (n : Network) (k : Nat) : { n.later k with drawn := (n.later k).drawn + 1 } = n.later (k + 1) := by
  have hdrawn : n.drawn + UInt16.ofNat k + 1 = n.drawn + UInt16.ofNat (k + 1) := by
    rw [UInt16.ofNat_add, ← UInt16.add_assoc]
    rfl
  exact congrArg (fun drawn => { n with drawn }) hdrawn

/-- Wherever the counter is, the turn of a port comes; the wait is longest where the counter wraps in the middle of a round. -/
theorem exists_turn {drawn : Nat} (turn : Nat) (hdrawn : drawn < 65536) (hturn : turn < 25535) :
    ∃ k ≤ 40000, (drawn + k) % 65536 % 25535 = turn := by
  by_cases hfirst : drawn ≤ turn
  · exact ⟨turn - drawn, by omega⟩
  by_cases hsecond : drawn ≤ turn + 25535
  · exact ⟨turn + 25535 - drawn, by omega⟩
  by_cases hthird : drawn ≤ turn + 51070 ∧ turn + 51070 < 65536
  · exact ⟨turn + 51070 - drawn, by omega⟩
  · exact ⟨turn + 65536 - drawn, by omega⟩

theorem exists_later_ephemeralPort (n : Network) {port : UInt16} (hport : IsEphemeral port) :
    ∃ k ≤ 40000, (n.later k).ephemeralPort = port := by
  obtain ⟨hlow, hhigh⟩ := hport
  obtain ⟨k, hk, hturn⟩ := exists_turn (port.toNat - 40000) n.drawn.toNat_lt (by omega)
  refine ⟨k, hk, UInt16.toNat_inj.mp ?_⟩
  rw [toNat_ephemeralPort, toNat_drawn_later, hturn]
  omega

end Network

/-! ## Trying again -/

namespace History

/-- What is there after listening on port zero has been tried `k` times more. -/
def retried (ops : List Traffic) (ip : Ipv4) (k : Nat) : Network :=
  (run (ops ++ List.replicate k (.listen ip 0))).network

theorem retried_zero (ops : List Traffic) (ip : Ipv4) : retried ops ip 0 = (run ops).network := by
  rw [retried, List.replicate_zero, List.append_nil]

theorem retried_succ (ops : List Traffic) (ip : Ipv4) (k : Nat) :
    ∃ owner, retried ops ip (k + 1) = ((retried ops ip k).listen ip 0 owner).1 := by
  have hrun : run (ops ++ List.replicate (k + 1) (.listen ip 0)) =
      (run (ops ++ List.replicate k (.listen ip 0))).step (.listen ip 0) := by
    rw [List.replicate_succ', ← List.append_assoc, run, List.foldl_append]
    rfl
  refine ⟨(run (ops ++ List.replicate k (.listen ip 0))).made, ?_⟩
  rw [retried, hrun, step]
  split
  · rename_i hlisten
    rw [retried, hlisten]
    rfl
  · rename_i hlisten
    rw [retried, hlisten]

/-- As long as the port whose turn it is is taken, trying changes nothing but the turn. -/
theorem retried_of_taken {ops : List Traffic} {ip : Ipv4} {k : Nat}
    (h : ∀ j < k, (run ops).network.isListening ⟨ip, ((run ops).network.later j).ephemeralPort⟩ = true) :
    retried ops ip k = (run ops).network.later k := by
  induction k with
  | zero =>
      rw [retried_zero, Network.later]
      exact congrArg (fun drawn => { (run ops).network with drawn }) (UInt16.add_zero _).symm
  | succ k ih =>
      have hbefore := ih fun j hj => h j (Nat.lt_succ_of_lt hj)
      obtain ⟨owner, hnext⟩ := retried_succ ops ip k
      rw [hnext, hbefore, Network.listen_zero_of_taken (h k (Nat.lt_succ_self k))]
      exact Network.later_succ _ k

end History

/-- What it comes to on a network to listen on port zero: the port whose turn it is decides. -/
structure Network.TakesTurns (n : Network) (ip : Ipv4) (owner : Nat) : Prop where
  ranged : IsEphemeral n.ephemeralPort
  bound (free : n.isListening ⟨ip, n.ephemeralPort⟩ = false) : n.listen ip 0 owner =
    ({ n with drawn := n.drawn + 1, listeners := n.listeners ++ [⟨⟨ip, n.ephemeralPort⟩, owner, []⟩] },
      .ok ⟨ip, n.ephemeralPort⟩)
  refused (taken : n.isListening ⟨ip, n.ephemeralPort⟩ = true) :
    n.listen ip 0 owner = ({ n with drawn := n.drawn + 1 }, .error (.inUse ⟨ip, n.ephemeralPort⟩))

open History

/--
Listening on port zero takes the port whose turn it is, if it is free, and is refused otherwise, with nothing changed but
whose turn it is next. If a port of the range is free at all, then no more than 40000 tries are refused, and the next one
takes a free port.
-/
theorem free_port_is_found {ops : List Traffic} {ip : Ipv4}
    (hfree : ∃ port, IsEphemeral port ∧ (run ops).network.isListening ⟨ip, port⟩ = false) (owner : Nat) :
    (run ops).network.TakesTurns ip owner ∧
    ∃ k ≤ 40000, (∀ j < k, ((retried ops ip j).listen ip 0 owner).2 = .error (.inUse ((retried ops ip j).wanted ip 0))) ∧
      ∃ port, IsEphemeral port ∧ (retried ops ip k).isListening ⟨ip, port⟩ = false ∧
        ((retried ops ip k).listen ip 0 owner).2 = .ok ⟨ip, port⟩ ∧
        ((retried ops ip k).listen ip 0 owner).1.isListening ⟨ip, port⟩ = true := by
  refine ⟨⟨Network.isEphemeral_ephemeralPort _, fun h => Network.listen_zero_of_free h owner,
    fun h => Network.listen_zero_of_taken h owner⟩, ?_⟩
  obtain ⟨port, hport, hfree⟩ := hfree
  obtain ⟨bound, hbound, hturn⟩ := (run ops).network.exists_later_ephemeralPort hport
  have hexists : ∃ k, (run ops).network.isListening ⟨ip, ((run ops).network.later k).ephemeralPort⟩ = false :=
    ⟨bound, by rw [hturn, hfree]⟩
  have hle : Nat.find hexists ≤ bound := Nat.find_le (by rw [hturn, hfree])
  have hfound := Nat.find_spec hexists
  have hmin := fun j (hj : j < Nat.find hexists) => Bool.of_not_eq_false (Nat.find_min hexists hj)
  generalize Nat.find hexists = k at hmin hfound hle
  have htaken {j : Nat} (hj : j ≤ k) : retried ops ip j = (run ops).network.later j :=
    retried_of_taken fun i hi => hmin i (Nat.lt_of_lt_of_le hi hj)
  refine ⟨k, hle.trans hbound, fun j hj => ?_, _, Network.isEphemeral_ephemeralPort ((run ops).network.later k), ?_⟩
  · rw [htaken (Nat.le_of_lt hj), Network.listen_zero_of_taken (hmin j hj)]
  · rw [htaken (Nat.le_refl k), Network.listen_zero_of_free hfound]
    refine ⟨hfound, rfl, ?_⟩
    simp [Network.isListening, Network.listener?, Network.wanted_zero]

/-- The first two ports that could be drawn are taken. -/
def crowded : List Traffic := [.listen ⟨10, 0, 0, 1⟩ 40000, .listen ⟨10, 0, 0, 1⟩ 40001]

/-- The two ports whose turns come first are taken by name here. -/
theorem free_port_is_found_behind_two :
    (∃ port, IsEphemeral port ∧ (run crowded).network.isListening ⟨⟨10, 0, 0, 1⟩, port⟩ = false) ∧
    ((run crowded).network.TakesTurns ⟨10, 0, 0, 1⟩ 2 ∧
    ∃ k ≤ 40000, (∀ j < k, ((retried crowded ⟨10, 0, 0, 1⟩ j).listen ⟨10, 0, 0, 1⟩ 0 2).2 =
        .error (.inUse ((retried crowded ⟨10, 0, 0, 1⟩ j).wanted ⟨10, 0, 0, 1⟩ 0))) ∧
      ∃ port, IsEphemeral port ∧ (retried crowded ⟨10, 0, 0, 1⟩ k).isListening ⟨⟨10, 0, 0, 1⟩, port⟩ = false ∧
        ((retried crowded ⟨10, 0, 0, 1⟩ k).listen ⟨10, 0, 0, 1⟩ 0 2).2 = .ok ⟨⟨10, 0, 0, 1⟩, port⟩ ∧
        ((retried crowded ⟨10, 0, 0, 1⟩ k).listen ⟨10, 0, 0, 1⟩ 0 2).1.isListening ⟨⟨10, 0, 0, 1⟩, port⟩ = true) :=
  have hfree : ∃ port, IsEphemeral port ∧ (run crowded).network.isListening ⟨⟨10, 0, 0, 1⟩, port⟩ = false :=
    ⟨40002, by unfold IsEphemeral; decide, by decide⟩
  ⟨hfree, free_port_is_found hfree 2⟩

/-- A free port is not always found at once: with one port taken whose turn it is, all others are free in vain. -/
theorem free_port_is_missed : ¬ ∀ (ops : List Traffic) (ip : Ipv4) (owner : Nat),
    (∃ port, IsEphemeral port ∧ (run ops).network.isListening ⟨ip, port⟩ = false) →
      ∃ port, IsEphemeral port ∧ (run ops).network.isListening ⟨ip, port⟩ = false ∧
        ((run ops).network.listen ip 0 owner).2 = .ok ⟨ip, port⟩ := by
  intro h
  obtain ⟨port, -, -, hbound⟩ := h [.listen ⟨10, 0, 0, 1⟩ 40000] ⟨10, 0, 0, 1⟩ 1
    ⟨40001, by unfold IsEphemeral; decide, by decide⟩
  have hrefused : ((run [.listen ⟨10, 0, 0, 1⟩ 40000]).network.listen ⟨10, 0, 0, 1⟩ 0 1).2 =
      .error (.inUse ⟨⟨10, 0, 0, 1⟩, 40000⟩) := by
    decide
  rw [hrefused] at hbound
  cases hbound

end ChordOverlay
