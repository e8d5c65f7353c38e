import ChordOverlay.Proofs.Listeners

/-!
# Delivery on the network

Listeners come and go, addresses are made to swallow connections and restored, and connections are made and accepted in
any order. What has been done decides who listens where, which addresses swallow, and what waits: a connection reaches
the listener that held the address when it was made, behind those made before it, and nobody else; one that is swallowed
reaches nobody.
-/

namespace ChordOverlay

/-! ## What is done on a network -/

/-- Every listener is a thing of its own, known by the number of those before it. -/
inductive Traffic where
  | listen (ip : Ipv4) (port : UInt16)
  | connect (ip : Ipv4) (target : Address)
  | accept (holder : Nat)
  | unlisten (holder : Nat)
  | swallow (addr : Address)
  | restore (addr : Address)

/-- What was done and what came back, as those see it who do it. What is refused, or finds nothing, leaves no deed. -/
inductive Deed where
  | bound (holder : Nat) (addr : Address)
  | left (holder : Nat)
  | connected (ip : Ipv4) (target : Address) (link : Nat)
  | accepted (holder : Nat) (inbound : Inbound)
  | swallowed (addr : Address)
  | restored (addr : Address)
deriving DecidableEq

namespace Deed

/-- The connection that is made. -/
def made? : Deed → Option Nat
  | .connected _ _ link => some link
  | _ => none

/-- The connection that is accepted. -/
def accepted? : Deed → Option Nat
  | .accepted _ inbound => some inbound.link
  | _ => none

end Deed

/-- All that was done, the latest first. -/
abbrev Past := List Deed

namespace Past

/-- Whether an address swallows what is made to it: from when it is told to until it is restored. -/
def swallows (addr : Address) : Past → Bool
  | [] => false
  | .swallowed addr' :: past => addr' = addr || swallows addr past
  | .restored addr' :: past => addr' ≠ addr && swallows addr past
  | _ :: past => swallows addr past

/-- Where a listener listens: where it was bound, until it leaves. -/
def seat? (holder : Nat) : Past → Option Address
  | [] => none
  | .bound holder' addr :: past => if holder' = holder then some addr else seat? holder past
  | .left holder' :: past => if holder' = holder then none else seat? holder past
  | _ :: past => seat? holder past

/-- The connections made to the address of a listener while it listened there and the address did not swallow. -/
def queuedTo (holder : Nat) : Past → List (Nat × Ipv4)
  | [] => []
  | .connected ip target link :: past =>
    if seat? holder past = some target ∧ swallows target past = false then queuedTo holder past ++ [(link, ip)]
    else queuedTo holder past
  | _ :: past => queuedTo holder past

/-- The connections a listener has accepted, and from where they seem to come. -/
def acceptedBy (holder : Nat) : Past → List (Nat × Ipv4)
  | [] => []
  | .accepted holder' inbound :: past =>
    if holder' = holder then acceptedBy holder past ++ [inbound.origin] else acceptedBy holder past
  | _ :: past => acceptedBy holder past

/-- How many connections were made to an address while it swallowed them, since it was last restored. -/
def swallowedAt (addr : Address) : Past → Nat
  | [] => 0
  | .connected _ target _ :: past =>
    if target = addr ∧ swallows addr past = true then swallowedAt addr past + 1 else swallowedAt addr past
  | .restored addr' :: past => if addr' = addr then 0 else swallowedAt addr past
  | _ :: past => swallowedAt addr past

end Past

/-- A network, how many listeners there have been, and all that was done. -/
structure History where
  network : Network
  made : Nat
  past : Past

namespace History

/-- Before anything is done. -/
def start : History := ⟨.empty, 0, []⟩

/-- A deed, and the network it leaves. -/
def note (h : History) (network : Network) (deed : Deed) : History := { h with network, past := deed :: h.past }

/-- One thing more is done. A listener that accepts does so where it was bound, if it has not left. -/
def step (h : History) : Traffic → History
  | .listen ip port =>
    match h.network.listen ip port h.made with
    | (network, .ok addr) => { h.note network (.bound h.made addr) with made := h.made + 1 }
    | (network, .error _) => { h with network }
  | .connect ip target =>
    match h.network.connect ip target with
    | (network, .ok e) => h.note network (.connected ip target e.link)
    | (network, .error _) => { h with network }
  | .accept holder =>
    match h.past.seat? holder with
    | some addr =>
      match h.network.accept addr with
      | (network, some inbound) => h.note network (.accepted holder inbound)
      | (network, none) => { h with network }
    | none => h
  | .unlisten holder => h.note (h.network.unlisten holder) (.left holder)
  | .swallow addr => h.note (h.network.swallow addr) (.swallowed addr)
  | .restore addr => h.note (h.network.restore addr) (.restored addr)

/-- All of it is done, one after the other. -/
def run (ops : List Traffic) : History := ops.foldl step start

end History

/-! ## What the past says -/

namespace Past

variable {past before before' : Past} {deed : Deed} {holder link : Nat} {ip ip' : Ipv4} {target target' : Address}

/-- A connection was made to a listener: to where it listened then, and that did not swallow. -/
def MadeTo (holder : Nat) (ip : Ipv4) (link : Nat) (past : Past) : Prop :=
  ∃ target before, .connected ip target link :: before <:+ past ∧
    seat? holder before = some target ∧ swallows target before = false

/-- No two listeners are at one address. -/
def Single (past : Past) : Prop :=
  ∀ {holder holder' addr}, past.seat? holder = some addr → past.seat? holder' = some addr → holder = holder'

theorem madeTo_cons : MadeTo holder ip link (deed :: past) ↔
    (∃ target, deed = .connected ip target link ∧ seat? holder past = some target ∧ swallows target past = false) ∨
      MadeTo holder ip link past := by
  constructor
  · rintro ⟨target, before, h, hthen⟩
    rcases List.suffix_cons_iff.mp h with heq | h
    · obtain ⟨rfl, rfl⟩ := List.cons.inj heq
      exact .inl ⟨target, rfl, hthen⟩
    · exact .inr ⟨target, before, h, hthen⟩
  · rintro (⟨target, rfl, hnow⟩ | ⟨target, before, h, hthen⟩)
    · exact ⟨target, past, List.suffix_refl _, hnow⟩
    · exact ⟨target, before, h.trans (List.suffix_cons ..), hthen⟩

theorem mem_queuedTo : (link, ip) ∈ past.queuedTo holder ↔ MadeTo holder ip link past := by
  fun_induction queuedTo holder past with
  | case1 => exact ⟨nofun, fun ⟨_, _, h, _⟩ => absurd (List.suffix_nil.mp h) nofun⟩
  | case2 ip' target link' past hhere ih =>
      rw [madeTo_cons, ← ih, List.mem_append, List.mem_singleton, Prod.mk.injEq, or_comm]
      refine or_congr_left ⟨?_, ?_⟩
      · rintro ⟨rfl, rfl⟩
        exact ⟨target, rfl, hhere⟩
      · rintro ⟨_, hdeed, -⟩
        obtain ⟨rfl, -, rfl⟩ := Deed.connected.inj hdeed
        exact ⟨rfl, rfl⟩
  | case3 ip' target link' past helse ih =>
      rw [madeTo_cons, ← ih, or_iff_right]
      rintro ⟨_, hdeed, hhere⟩
      obtain ⟨-, rfl, -⟩ := Deed.connected.inj hdeed
      exact helse hhere
  | case4 deed past hother ih =>
      rw [madeTo_cons, ← ih, or_iff_right]
      rintro ⟨target, rfl, -⟩
      exact hother _ _ _ rfl

theorem origin_mem_acceptedBy {inbound : Inbound} (h : .accepted holder inbound ∈ past) :
    inbound.origin ∈ past.acceptedBy holder := by
  fun_induction acceptedBy holder past with
  | case1 => cases h
  | case2 inbound' past ih =>
      rcases List.mem_cons.mp h with heq | h
      · obtain ⟨-, rfl⟩ := Deed.accepted.inj heq
        exact List.mem_append_right _ List.mem_cons_self
      · exact List.mem_append_left _ (ih h)
  | case3 holder' inbound' past helse ih =>
      rcases List.mem_cons.mp h with heq | h
      · exact absurd (Deed.accepted.inj heq).1.symm helse
      · exact ih h
  | case4 deed past hother ih =>
      rcases List.mem_cons.mp h with rfl | h
      · exact absurd rfl (hother _ _)
      · exact ih h

/-- One number stands for one connection, so all that is said of it is said of one moment. -/
theorem connected_unique (hmade : (past.filterMap Deed.made?).Nodup) (h : .connected ip target link :: before <:+ past)
    (h' : .connected ip' target' link :: before' <:+ past) : ip = ip' ∧ target = target' ∧ before = before' := by
  -- Of the two moments, one would lie behind the other and the number be given twice.
  have hbehind {a b : Past} {ip₁ ip₂ : Ipv4} {t₁ t₂ : Address} (h₁ : .connected ip₁ t₁ link :: a <:+ past)
      (h₂ : .connected ip₂ t₂ link :: b <:+ past) (hlater : Deed.connected ip₁ t₁ link :: a <:+ .connected ip₂ t₂ link :: b) :
      ip₁ = ip₂ ∧ t₁ = t₂ ∧ a = b := by
    rcases List.suffix_cons_iff.mp hlater with heq | hlater
    · obtain ⟨hdeed, rfl⟩ := List.cons.inj heq
      obtain ⟨rfl, rfl, -⟩ := Deed.connected.inj hdeed
      exact ⟨rfl, rfl, rfl⟩
    · have hnodup := hmade.sublist (h₂.sublist.filterMap Deed.made?)
      have hmem : link ∈ b.filterMap Deed.made? :=
        (hlater.sublist.filterMap Deed.made?).subset List.mem_cons_self
      exact absurd hmem (List.nodup_cons.mp hnodup).1
  rcases List.suffix_or_suffix_of_suffix h h' with hlater | hlater
  · exact hbehind h h' hlater
  · obtain ⟨rfl, rfl, rfl⟩ := hbehind h' h hlater
    exact ⟨rfl, rfl, rfl⟩

/-- No connection waits twice. -/
theorem queuedTo_nodup (hmade : (past.filterMap Deed.made?).Nodup) (holder : Nat) : (past.queuedTo holder).Nodup := by
  fun_induction queuedTo holder past with
  | case1 => exact List.nodup_nil
  | case2 ip target link past hhere ih =>
      obtain ⟨hfresh, hmade⟩ := List.nodup_cons.mp hmade
      refine List.nodup_append.mpr ⟨ih hmade, List.nodup_singleton _, ?_⟩
      rintro ⟨link', ip'⟩ hqueued _ hmem heq
      obtain ⟨rfl, -⟩ := Prod.mk.inj (heq.trans (List.mem_singleton.mp hmem))
      obtain ⟨_, before, h, -⟩ := mem_queuedTo.mp hqueued
      exact hfresh ((h.sublist.filterMap Deed.made?).subset List.mem_cons_self)
  | case3 ip target link past helse ih => exact ih (List.nodup_cons.mp hmade).2
  | case4 deed past hother ih => exact ih (hmade.sublist ((List.sublist_cons_self ..).filterMap _))

end Past

/-! ## What the network makes of it -/

/-- Who listens, and where. -/
def Network.seats (n : Network) : List (Nat × Address) := n.listeners.map fun l => (l.owner, l.address)

/-- Those listen whom the past has listening, each of them at an address of its own. -/
structure Network.Seated (n : Network) (past : Past) : Prop where
  owners : (n.seats.map Prod.fst).Nodup
  addresses : (n.seats.map Prod.snd).Nodup
  listens : ∀ holder addr, past.seat? holder = some addr ↔ (holder, addr) ∈ n.seats

namespace Network.Seated

variable {n : Network} {past : Past} {holder : Nat} {addr : Address} {l l' : Listener}

theorem nodup_address (hs : n.Seated past) : (n.listeners.map Listener.address).Nodup := by
  simpa [Network.seats, Function.comp_def] using hs.addresses

theorem owner_inj (hs : n.Seated past) (hl : l ∈ n.listeners) (hl' : l' ∈ n.listeners) (h : l.owner = l'.owner) : l = l' :=
  List.inj_on_of_nodup_map (f := Listener.owner) (by simpa [Network.seats, Function.comp_def] using hs.owners) hl hl' h

theorem seat?_of_mem (hs : n.Seated past) (hl : l ∈ n.listeners) : past.seat? l.owner = some l.address :=
  (hs.listens _ _).mpr (List.mem_map_of_mem hl)

theorem exists_listener (hs : n.Seated past) (h : past.seat? holder = some addr) :
    ∃ l ∈ n.listeners, l.owner = holder ∧ l.address = addr := by
  obtain ⟨l, hl, heq⟩ := List.mem_map.mp ((hs.listens _ _).mp h)
  exact ⟨l, hl, Prod.mk.inj heq⟩

theorem single (hs : n.Seated past) : past.Single := by
  intro holder holder' addr h h'
  obtain ⟨l, hl, rfl, haddress⟩ := hs.exists_listener h
  obtain ⟨l', hl', rfl, haddress'⟩ := hs.exists_listener h'
  rw [List.inj_on_of_nodup_map hs.nodup_address hl hl' (haddress.trans haddress'.symm)]

theorem isListening_iff (hs : n.Seated past) : n.isListening addr = true ↔ ∃ holder, past.seat? holder = some addr := by
  rw [Network.isListening_iff]
  constructor
  · rintro ⟨l, hl, rfl⟩
    exact ⟨l.owner, hs.seat?_of_mem hl⟩
  · rintro ⟨holder, h⟩
    obtain ⟨l, hl, -, haddress⟩ := hs.exists_listener h
    exact ⟨l, hl, haddress⟩

/-- As long as nobody comes or goes. -/
theorem congr (hs : n.Seated past) {n' : Network} {past' : Past} (hseats : n'.seats = n.seats)
    (hpast : ∀ holder, past'.seat? holder = past.seat? holder) : n'.Seated past' :=
  ⟨hseats ▸ hs.owners, hseats ▸ hs.addresses, fun holder addr => by rw [hpast, hseats]; exact hs.listens holder addr⟩

theorem bind (hs : n.Seated past) {n' : Network} (hseats : n'.seats = n.seats ++ [(holder, addr)])
    (hnew : ∀ l ∈ n.listeners, l.owner ≠ holder) (hvacant : ∀ l ∈ n.listeners, l.address ≠ addr) :
    n'.Seated (.bound holder addr :: past) := by
  have howner {addr' : Address} : (holder, addr') ∉ n.seats := fun h => by
    obtain ⟨l, hl, heq⟩ := List.mem_map.mp h
    exact hnew l hl (Prod.mk.inj heq).1
  have haddress {holder' : Nat} : (holder', addr) ∉ n.seats := fun h => by
    obtain ⟨l, hl, heq⟩ := List.mem_map.mp h
    exact hvacant l hl (Prod.mk.inj heq).2
  refine ⟨?_, ?_, fun holder' addr' => ?_⟩
  · rw [hseats, List.map_append, List.map_singleton, ← List.concat_eq_append]
    exact hs.owners.concat (by simpa using fun _ => howner)
  · rw [hseats, List.map_append, List.map_singleton, ← List.concat_eq_append]
    exact hs.addresses.concat (by simpa using fun _ => haddress)
  · rw [hseats, List.mem_append, List.mem_singleton, Prod.mk.injEq, Past.seat?]
    split
    next heq => simp [← heq, howner, eq_comm]
    next hne => simp [hs.listens, Ne.symm hne]

theorem leave (hs : n.Seated past) {n' : Network} (hlisteners : n'.listeners = n.listeners.filter fun l => l.owner ≠ holder) :
    n'.Seated (.left holder :: past) := by
  have hseats : n'.seats = n.seats.filter fun seat => seat.1 ≠ holder := by
    rw [Network.seats, hlisteners, Network.seats, List.filter_map]
    rfl
  refine ⟨?_, ?_, fun holder' addr' => ?_⟩
  · exact hs.owners.sublist ((hseats ▸ List.filter_sublist).map _)
  · exact hs.addresses.sublist ((hseats ▸ List.filter_sublist).map _)
  · rw [hseats, List.mem_filter, Past.seat?]
    split
    next heq => simp [heq]
    next hne => simp [hs.listens, Ne.symm hne]

end Network.Seated

namespace History

variable {h : History} {holder : Nat} {addr : Address}

/-- The network does what the past says, and nothing that waits is lost, delivered twice or mistaken for another. -/
structure Sound (h : History) : Prop where
  seated : h.network.Seated h.past
  single : ∀ past : Past, past <:+ h.past → past.Single
  swallowing : ∀ addr, h.network.isSwallowing addr = h.past.swallows addr
  known : ∀ l ∈ h.network.listeners, l.owner < h.made
  unknown : ∀ holder, h.made ≤ holder → h.past.queuedTo holder = [] ∧ h.past.acceptedBy holder = []
  kept : ∀ l ∈ h.network.listeners, h.past.queuedTo l.owner = h.past.acceptedBy l.owner ++ l.queue.map Inbound.origin
  ordered : ∀ holder, h.past.acceptedBy holder <+: h.past.queuedTo holder
  numbered : (h.past.filterMap Deed.made?).Nodup
  fresh : ∀ link ∈ h.past.filterMap Deed.made?, link < h.network.next
  once : (h.past.filterMap Deed.accepted?).Nodup
  parked : ∀ addr, h.network.parkedAt addr = h.past.swallowedAt addr

theorem sound_start : start.Sound where
  seated := ⟨List.nodup_nil, List.nodup_nil, fun _ _ => ⟨nofun, nofun⟩⟩
  single _ hpast := List.suffix_nil.mp hpast ▸ nofun
  swallowing _ := rfl
  known := nofun
  unknown _ _ := ⟨rfl, rfl⟩
  kept := nofun
  ordered _ := List.prefix_refl _
  numbered := List.nodup_nil
  fresh := nofun
  once := List.nodup_nil
  parked _ := rfl

namespace Sound

theorem single_cons (hs : h.Sound) {network : Network} {deed : Deed} (hseated : network.Seated (deed :: h.past)) :
    ∀ past : Past, past <:+ deed :: h.past → past.Single := by
  intro past hpast
  rcases List.suffix_cons_iff.mp hpast with rfl | hpast
  · exact hseated.single
  · exact hs.single past hpast

/-- Something is done that is no concern of any listener. -/
theorem aside (hs : h.Sound) {network : Network} {deed : Deed} (hlisteners : network.listeners = h.network.listeners)
    (hseat : ∀ holder, Past.seat? holder (deed :: h.past) = h.past.seat? holder)
    (hqueued : ∀ holder, Past.queuedTo holder (deed :: h.past) = h.past.queuedTo holder)
    (haccepted : ∀ holder, Past.acceptedBy holder (deed :: h.past) = h.past.acceptedBy holder)
    (hswallowing : ∀ addr, network.isSwallowing addr = Past.swallows addr (deed :: h.past))
    (hnumbered : ((deed :: h.past).filterMap Deed.made?).Nodup)
    (hfresh : ∀ link ∈ (deed :: h.past).filterMap Deed.made?, link < network.next)
    (honce : (deed :: h.past).filterMap Deed.accepted? = h.past.filterMap Deed.accepted?)
    (hparked : ∀ addr, network.parkedAt addr = Past.swallowedAt addr (deed :: h.past)) : (h.note network deed).Sound := by
  have hseated : network.Seated (deed :: h.past) := hs.seated.congr (by simp only [Network.seats, hlisteners]) hseat
  refine ⟨hseated, hs.single_cons hseated, hswallowing, fun l hl => hs.known l (hlisteners ▸ hl), fun holder hholder => ?_,
    fun l hl => ?_, fun holder => ?_, hnumbered, hfresh, (congrArg List.Nodup honce).mpr hs.once, hparked⟩
  · exact ⟨(hqueued holder).trans (hs.unknown holder hholder).1, (haccepted holder).trans (hs.unknown holder hholder).2⟩
  · change Past.queuedTo _ (deed :: h.past) = Past.acceptedBy _ (deed :: h.past) ++ _
    rw [hqueued, haccepted]
    exact hs.kept l (hlisteners ▸ hl)
  · change Past.acceptedBy _ (deed :: h.past) <+: Past.queuedTo _ (deed :: h.past)
    rw [hqueued, haccepted]
    exact hs.ordered holder

/-- Every connection that is made has a number of its own. -/
theorem numbers (hs : h.Sound) (ip : Ipv4) (target : Address) {next : Nat} (hnext : next = h.network.next + 1) :
    ((.connected ip target h.network.next :: h.past).filterMap Deed.made?).Nodup ∧
      ∀ link ∈ (.connected ip target h.network.next :: h.past).filterMap Deed.made?, link < next := by
  rw [List.filterMap_cons_some (rfl : Deed.made? (.connected ip target h.network.next) = some h.network.next), hnext]
  refine ⟨List.nodup_cons.mpr ⟨fun hmem => Nat.lt_irrefl _ (hs.fresh _ hmem), hs.numbered⟩, fun link hlink => ?_⟩
  rcases List.mem_cons.mp hlink with rfl | hlink
  · exact Nat.lt_succ_self _
  · exact Nat.lt_succ_of_lt (hs.fresh link hlink)

/-! ### Listeners that come and go -/

theorem listen (hs : h.Sound) (ip : Ipv4) (port : UInt16) : (h.step (.listen ip port)).Sound := by
  obtain ⟨drawn, ⟨_, heq⟩ | ⟨hfree, heq⟩⟩ := h.network.listen_cases ip port h.made
  · simp only [History.step, heq]
    exact { hs with seated := hs.seated.congr rfl fun _ => rfl }
  · have hseated : (h.network.listen ip port h.made).1.Seated (.bound h.made (h.network.wanted ip port) :: h.past) :=
      hs.seated.bind (by simp [heq, Network.seats]) (fun l hl => Nat.ne_of_lt (hs.known l hl))
        (Network.isListening_eq_false hfree)
    simp only [History.step, heq] at hseated ⊢
    obtain ⟨hqueued, haccepted⟩ := hs.unknown h.made (Nat.le_refl _)
    refine ⟨hseated, hs.single_cons hseated, hs.swallowing, fun l hl => ?_, fun holder hholder => ?_, fun l hl => ?_,
      hs.ordered, hs.numbered, hs.fresh, hs.once, hs.parked⟩
    · rcases List.mem_append.mp hl with hl | hl
      · exact Nat.lt_succ_of_lt (hs.known l hl)
      · rw [List.mem_singleton.mp hl]
        exact Nat.lt_succ_self _
    · exact hs.unknown holder (Nat.le_of_succ_le hholder)
    · rcases List.mem_append.mp hl with hl | hl
      · exact hs.kept l hl
      · obtain rfl := List.mem_singleton.mp hl
        exact hqueued.trans (haccepted.symm.trans (List.append_nil _).symm)

theorem unlisten (hs : h.Sound) (holder : Nat) : (h.step (.unlisten holder)).Sound := by
  obtain ⟨links, heq⟩ := h.network.unlisten_eq holder
  have hseated : (h.network.unlisten holder).Seated (.left holder :: h.past) := hs.seated.leave (by rw [heq])
  simp only [History.step, heq] at hseated ⊢
  have hstayed {l : Listener} (hl : l ∈ h.network.listeners.filter fun l => l.owner ≠ holder) : l ∈ h.network.listeners :=
    (List.mem_filter.mp hl).1
  exact ⟨hseated, hs.single_cons hseated, hs.swallowing, fun l hl => hs.known l (hstayed hl), hs.unknown,
    fun l hl => hs.kept l (hstayed hl), hs.ordered, hs.numbered, hs.fresh, hs.once, hs.parked⟩

/-! ### Connections that are swallowed -/

theorem swallow (hs : h.Sound) (addr : Address) : (h.step (.swallow addr)).Sound := by
  obtain ⟨swallowing, heq⟩ := h.network.swallow_eq addr
  refine hs.aside (by rw [heq]) (fun _ => rfl) (fun _ => rfl) (fun _ => rfl) (fun addr' => ?_) hs.numbered ?_ rfl
    fun addr' => ?_
  · rw [Network.isSwallowing_swallow, hs.swallowing]
    rfl
  · rw [heq]
    exact hs.fresh
  · rw [heq]
    exact hs.parked addr'

theorem restore (hs : h.Sound) (addr : Address) : (h.step (.restore addr)).Sound := by
  obtain ⟨links, heq⟩ := h.network.restore_eq addr
  refine hs.aside (by rw [heq]) (fun _ => rfl) (fun _ => rfl) (fun _ => rfl) (fun addr' => ?_) hs.numbered ?_ rfl
    fun addr' => ?_
  · rw [Network.isSwallowing_restore, hs.swallowing]
    rfl
  · rw [heq]
    exact hs.fresh
  · rw [heq, Past.swallowedAt, ← hs.parked, Network.parkedAt, List.countP_filter]
    split
    next heq => simp [heq]
    next hne =>
      refine List.countP_congr fun entry _ => ?_
      have : entry.1 = addr' → entry.1 ≠ addr := fun h h' => hne (h'.symm.trans h)
      simpa using this

theorem park (hs : h.Sound) (ip : Ipv4) {target : Address} (hswallowing : h.network.isSwallowing target = true) :
    (h.note (h.network.park target) (.connected ip target h.network.next)).Sound := by
  have hswallows : h.past.swallows target = true := (hs.swallowing target).symm.trans hswallowing
  obtain ⟨hnumbered, hfresh⟩ := hs.numbers ip target (rfl : (h.network.park target).next = _)
  refine hs.aside rfl (fun _ => rfl) (fun holder => if_neg ?_) (fun _ => rfl) hs.swallowing hnumbered hfresh rfl
    fun addr => ?_
  · rintro ⟨-, hanswers⟩
    exact absurd (hswallows.symm.trans hanswers) nofun
  · rw [Past.swallowedAt, ← hs.parked, Network.parkedAt, Network.park, List.countP_append]
    by_cases heq : target = addr
    · simp [← heq, hswallows, Network.parkedAt]
    · simp [heq, Network.parkedAt]

/-! ### Connections that wait, and those that are accepted -/

/-- The queue of one listener has changed, and a deed has been done there. -/
theorem at_listener (hs : h.Sound) {network : Network} {deed : Deed} {l : Listener} {g : List Inbound → List Inbound}
    (hl : l ∈ h.network.listeners)
    (hlisteners : network.listeners =
      h.network.listeners.map fun l' => if l'.address = l.address then { l' with queue := g l'.queue } else l')
    (hseat : ∀ holder, Past.seat? holder (deed :: h.past) = h.past.seat? holder)
    (helse : ∀ holder, holder ≠ l.owner → Past.queuedTo holder (deed :: h.past) = h.past.queuedTo holder ∧
      Past.acceptedBy holder (deed :: h.past) = h.past.acceptedBy holder)
    (hkept : Past.queuedTo l.owner (deed :: h.past) =
      Past.acceptedBy l.owner (deed :: h.past) ++ (g l.queue).map Inbound.origin)
    (hswallowing : ∀ addr, network.isSwallowing addr = Past.swallows addr (deed :: h.past))
    (hnumbered : ((deed :: h.past).filterMap Deed.made?).Nodup)
    (hfresh : ∀ link ∈ (deed :: h.past).filterMap Deed.made?, link < network.next)
    (honce : ((deed :: h.past).filterMap Deed.accepted?).Nodup)
    (hparked : ∀ addr, network.parkedAt addr = Past.swallowedAt addr (deed :: h.past)) : (h.note network deed).Sound := by
  have hseated : network.Seated (deed :: h.past) := hs.seated.congr
    (by rw [Network.seats, hlisteners, Network.map_queue _ fun _ _ => rfl]; rfl) hseat
  refine ⟨hseated, hs.single_cons hseated, hswallowing, fun l' hl' => ?_, fun holder hholder => ?_, fun l' hl' => ?_,
    fun holder => ?_, hnumbered, hfresh, honce, hparked⟩
  · obtain ⟨l', hmem, rfl⟩ := List.mem_map.mp (hlisteners ▸ hl' : l' ∈ _)
    have := hs.known l' hmem
    split <;> exact this
  · obtain ⟨hqueued, haccepted⟩ := helse holder (Nat.ne_of_gt (Nat.lt_of_lt_of_le (hs.known l hl) hholder))
    obtain ⟨hnone, hnone'⟩ := hs.unknown holder hholder
    exact ⟨hqueued.trans hnone, haccepted.trans hnone'⟩
  · obtain ⟨l', hmem, rfl⟩ := List.mem_map.mp (hlisteners ▸ hl' : l' ∈ _)
    by_cases haddress : l'.address = l.address
    · obtain rfl := List.inj_on_of_nodup_map hs.seated.nodup_address hmem hl haddress
      simpa [note] using hkept
    · have hne : l'.owner ≠ l.owner := fun heq => haddress (congrArg _ (hs.seated.owner_inj hmem hl heq))
      obtain ⟨hqueued, haccepted⟩ := helse _ hne
      simpa [note, haddress, hqueued, haccepted] using hs.kept l' hmem
  · by_cases hholder : holder = l.owner
    · rw [hholder]
      exact hkept ▸ List.prefix_append _ _
    · obtain ⟨hqueued, haccepted⟩ := helse holder hholder
      simpa [note, hqueued, haccepted] using hs.ordered holder

theorem enqueue (hs : h.Sound) (ip : Ipv4) {l : Listener} (hl : l ∈ h.network.listeners)
    (hanswers : h.network.isSwallowing l.address = false) :
    (h.note (h.network.enqueue ip l.address) (.connected ip l.address h.network.next)).Sound := by
  obtain ⟨hnumbered, hfresh⟩ := hs.numbers ip l.address (rfl : (h.network.enqueue ip l.address).next = _)
  rw [hs.swallowing] at hanswers
  have hseat := hs.seated.seat?_of_mem hl
  refine hs.at_listener (g := fun queue => queue ++ [⟨h.network.next, ⟨ip, h.network.ephemeralPort⟩⟩]) hl rfl (fun _ => rfl)
    (fun holder hne => ⟨if_neg ?_, rfl⟩) ?_ hs.swallowing hnumbered hfresh hs.once fun addr => ?_
  · rintro ⟨hseat', -⟩
    exact hne (hs.seated.single hseat' hseat)
  · rw [Past.queuedTo, if_pos ⟨hseat, hanswers⟩, hs.kept l hl]
    simp [Past.acceptedBy, Inbound.origin]
  · rw [Past.swallowedAt, if_neg, ← hs.parked]
    · rfl
    · rintro ⟨rfl, hswallows⟩
      exact absurd (hswallows.symm.trans hanswers) nofun

theorem connect (hs : h.Sound) (ip : Ipv4) (target : Address) : (h.step (.connect ip target)).Sound := by
  rcases h.network.connect_cases ip target with ⟨hswallowing, heq⟩ | ⟨hanswers, hlistening, heq⟩ | ⟨_, _, heq⟩
  · simp only [History.step, heq]
    exact hs.park ip hswallowing
  · obtain ⟨l, hl, rfl⟩ := Network.isListening_iff.mp hlistening
    simp only [History.step, heq]
    exact hs.enqueue ip hl hanswers
  · simp only [History.step, heq]
    exact hs

/-- What was accepted was made to the one that accepted it. -/
theorem madeTo_of_accepted (hs : h.Sound) {inbound : Inbound} (haccepted : .accepted holder inbound ∈ h.past) :
    Past.MadeTo holder inbound.source.ip inbound.link h.past :=
  Past.mem_queuedTo.mp ((hs.ordered holder).subset (Past.origin_mem_acceptedBy haccepted))

theorem not_accepted (hs : h.Sound) {l : Listener} (hl : l ∈ h.network.listeners) {inbound : Inbound} {rest : List Inbound}
    (hqueue : l.queue = inbound :: rest) : inbound.link ∉ h.past.filterMap Deed.accepted? := by
  have hkept := hs.kept l hl
  rw [hqueue, List.map_cons] at hkept
  intro haccepted
  obtain ⟨deed, hdeed, heq⟩ := List.mem_filterMap.mp haccepted
  cases deed with
  | accepted holder inbound' =>
      have hlink : inbound'.link = inbound.link := Option.some.inj heq
      obtain ⟨target, before, hmade, hseat, -⟩ := hs.madeTo_of_accepted hdeed
      obtain ⟨target', before', hmade', hseat', -⟩ : Past.MadeTo l.owner inbound.source.ip inbound.link h.past :=
        Past.mem_queuedTo.mp (hkept ▸ List.mem_append_right _ List.mem_cons_self)
      -- Both speak of one connection, and only one could listen where it was made to.
      obtain ⟨hip, rfl, rfl⟩ := Past.connected_unique hs.numbered (hlink ▸ hmade) hmade'
      obtain rfl := hs.single before ((List.suffix_cons ..).trans hmade) hseat hseat'
      have hnodup := Past.queuedTo_nodup hs.numbered l.owner
      rw [hkept, List.nodup_append] at hnodup
      exact hnodup.2.2 _ (Past.origin_mem_acceptedBy hdeed) _ List.mem_cons_self (Prod.ext hlink hip)
  | _ => cases heq

theorem dequeue (hs : h.Sound) {l : Listener} (hl : l ∈ h.network.listeners) {inbound : Inbound} {rest : List Inbound}
    (hqueue : l.queue = inbound :: rest) : (h.note (h.network.dequeue l.address) (.accepted l.owner inbound)).Sound := by
  refine hs.at_listener (g := List.tail) hl rfl (fun _ => rfl) (fun holder hne => ⟨rfl, if_neg hne.symm⟩) ?_ hs.swallowing
    hs.numbered hs.fresh (List.nodup_cons.mpr ⟨hs.not_accepted hl hqueue, hs.once⟩) hs.parked
  rw [Past.acceptedBy, if_pos rfl, List.append_assoc]
  exact (hs.kept l hl).trans (by rw [hqueue]; rfl)

/-- A listener that is there accepts what has waited longest, and nothing if nothing waits. -/
theorem accept_eq (hs : h.Sound) {l : Listener} (hl : l ∈ h.network.listeners) : h.step (.accept l.owner) =
    match l.queue with
    | [] => h
    | inbound :: _ => h.note (h.network.dequeue l.address) (.accepted l.owner inbound) := by
  simp only [History.step, hs.seated.seat?_of_mem hl,
    Network.accept_eq (Network.listener?_of_mem hs.seated.nodup_address hl)]
  cases l.queue <;> rfl

theorem accept (hs : h.Sound) (holder : Nat) : (h.step (.accept holder)).Sound := by
  cases hseat : h.past.seat? holder with
  | none =>
      simp only [History.step, hseat]
      exact hs
  | some addr =>
      obtain ⟨l, hl, rfl, -⟩ := hs.seated.exists_listener hseat
      rw [hs.accept_eq hl]
      cases hqueue : l.queue with
      | nil => exact hs
      | cons inbound rest => exact hs.dequeue hl hqueue

theorem step (hs : h.Sound) (op : Traffic) : (h.step op).Sound := by
  cases op with
  | listen ip port => exact hs.listen ip port
  | connect ip target => exact hs.connect ip target
  | accept holder => exact hs.accept holder
  | unlisten holder => exact hs.unlisten holder
  | swallow addr => exact hs.swallow addr
  | restore addr => exact hs.restore addr

theorem run (ops : List Traffic) : (History.run ops).Sound := by
  have hfold {h : History} (hs : h.Sound) : (ops.foldl History.step h).Sound := by
    induction ops generalizing h with
    | nil => exact hs
    | cons op ops ih => exact ih (hs.step op)
  exact hfold sound_start

/-! ### What the past allows -/

theorem isListening_eq_false (hs : h.Sound) (hfree : ∀ holder, h.past.seat? holder ≠ some addr) :
    h.network.isListening addr = false :=
  Bool.eq_false_iff.mpr fun hlistening => (hs.seated.isListening_iff.mp hlistening).elim hfree

theorem seat?_iff (hs : h.Sound) : h.past.seat? holder = some addr ↔
    ∃ l ∈ h.network.listeners, l.owner = holder ∧ l.address = addr := by
  refine ⟨hs.seated.exists_listener, ?_⟩
  rintro ⟨l, hl, rfl, rfl⟩
  exact hs.seated.seat?_of_mem hl

variable {ip : Ipv4} {port : UInt16} {target : Address}

theorem listen_eq (hs : h.Sound) (owner : Nat) (htaken : h.past.seat? holder = some (h.network.wanted ip port)) :
    ∃ drawn, h.network.listen ip port owner = ({ h.network with drawn }, .error (.inUse (h.network.wanted ip port))) := by
  obtain ⟨drawn, ⟨_, heq⟩ | ⟨hfree, _⟩⟩ := h.network.listen_cases ip port owner
  · exact ⟨drawn, heq⟩
  · exact absurd ((hs.seated.isListening_iff.mpr ⟨holder, htaken⟩).symm.trans hfree) nofun

theorem listen_taken (hs : h.Sound) (owner : Nat) (htaken : h.past.seat? holder = some (h.network.wanted ip port)) :
    (h.network.listen ip port owner).2 = .error (.inUse (h.network.wanted ip port)) ∧
      (h.network.listen ip port owner).1.listeners = h.network.listeners ∧ (h.step (.listen ip port)).past = h.past := by
  obtain ⟨drawn, heq⟩ := hs.listen_eq owner htaken
  obtain ⟨drawn', heq'⟩ := hs.listen_eq h.made htaken
  rw [heq]
  exact ⟨rfl, rfl, by simp only [History.step, heq']⟩

theorem listen_vacant (hs : h.Sound) (hfree : ∀ holder, h.past.seat? holder ≠ some (h.network.wanted ip port)) :
    (h.step (.listen ip port)).past = .bound h.made (h.network.wanted ip port) :: h.past := by
  obtain ⟨drawn, ⟨htaken, _⟩ | ⟨_, heq⟩⟩ := h.network.listen_cases ip port h.made
  · exact absurd (htaken.symm.trans (hs.isListening_eq_false hfree)) nofun
  · simp only [History.step, heq, History.note]

theorem connects_iff (hs : h.Sound) : (∃ e, (h.network.connect ip target).2 = .ok e) ↔
    h.past.swallows target = true ∨ ∃ holder, h.past.seat? holder = some target := by
  rw [← hs.swallowing, ← hs.seated.isListening_iff]
  rcases h.network.connect_cases ip target with ⟨hswallowing, heq⟩ | ⟨_, hlistening, heq⟩ | ⟨hanswers, hfree, heq⟩
  · simp [heq, hswallowing]
  · simp [heq, hlistening]
  · simp [heq, hanswers, hfree]

theorem connect_refused (hs : h.Sound) (hanswers : h.past.swallows target = false)
    (hfree : ∀ holder, h.past.seat? holder ≠ some target) :
    (h.network.connect ip target).2 = .error (.refused target) ∧ h.step (.connect ip target) = h := by
  rw [← hs.swallowing] at hanswers
  rcases h.network.connect_cases ip target with ⟨hswallowing, _⟩ | ⟨_, hlistening, _⟩ | ⟨_, _, heq⟩
  · exact absurd (hswallowing.symm.trans hanswers) nofun
  · exact absurd (hlistening.symm.trans (hs.isListening_eq_false hfree)) nofun
  · exact ⟨by rw [heq], by simp only [History.step, heq]⟩

theorem connect_parked (hs : h.Sound) (hswallows : h.past.swallows target = true) :
    (h.step (.connect ip target)).past = .connected ip target h.network.next :: h.past ∧
      (h.step (.connect ip target)).network.parkedAt target = h.network.parkedAt target + 1 := by
  have hparked := (hs.step (.connect ip target)).parked target
  have hswallowing := (hs.swallowing target).trans hswallows
  rcases h.network.connect_cases ip target with ⟨_, heq⟩ | ⟨hanswers, _⟩ | ⟨hanswers, _⟩
  · simp only [History.step, heq, History.note, true_and] at hparked ⊢
    rw [hparked, Past.swallowedAt, if_pos ⟨rfl, hswallows⟩, hs.parked]
  · exact absurd (hswallowing.symm.trans hanswers) nofun
  · exact absurd (hswallowing.symm.trans hanswers) nofun

theorem connect_queued (hs : h.Sound) (hanswers : h.past.swallows target = false)
    (hlistens : h.past.seat? holder = some target) :
    (h.step (.connect ip target)).past = .connected ip target h.network.next :: h.past ∧
      (h.step (.connect ip target)).past.queuedTo holder = h.past.queuedTo holder ++ [(h.network.next, ip)] := by
  rcases h.network.connect_cases ip target with ⟨hswallowing, _⟩ | ⟨_, _, heq⟩ | ⟨_, hfree, _⟩
  · exact absurd ((hs.swallowing target).symm.trans hswallowing) (by simp [hanswers])
  · simp only [History.step, heq, History.note, true_and]
    exact if_pos ⟨hlistens, hanswers⟩
  · exact absurd ((hs.seated.isListening_iff.mpr ⟨holder, hlistens⟩).symm.trans hfree) nofun

theorem accepts_next (hs : h.Sound) {link : Nat} {rest : List (Nat × Ipv4)} (hlives : h.past.seat? holder = some addr)
    (hwaits : h.past.queuedTo holder = h.past.acceptedBy holder ++ (link, ip) :: rest) :
    ∃ port, (h.step (.accept holder)).past = .accepted holder ⟨link, ⟨ip, port⟩⟩ :: h.past := by
  obtain ⟨l, hl, rfl, -⟩ := hs.seated.exists_listener hlives
  obtain ⟨inbound, queue, hqueue, horigin, -⟩ := List.map_eq_cons_iff.mp
    (List.append_cancel_left ((hs.kept l hl).symm.trans hwaits))
  obtain ⟨rfl, rfl⟩ := Prod.mk.inj horigin
  exact ⟨inbound.source.port, by rw [hs.accept_eq hl, hqueue]; rfl⟩

theorem accepts_nothing (hs : h.Sound)
    (hdone : h.past.seat? holder = none ∨ h.past.queuedTo holder = h.past.acceptedBy holder) :
    h.step (.accept holder) = h := by
  cases hseat : h.past.seat? holder with
  | none => simp only [History.step, hseat]
  | some addr =>
      have hserved := hdone.resolve_left fun hnone => by rw [hseat] at hnone; cases hnone
      obtain ⟨l, hl, rfl, -⟩ := hs.seated.exists_listener hseat
      have hqueue : l.queue = [] := by simpa [hserved] using hs.kept l hl
      rw [hs.accept_eq hl, hqueue]

/-- What was swallowed was made to nobody, so nobody has accepted it. -/
theorem never_accepted (hs : h.Sound) {link : Nat} {before : Past} {inbound : Inbound}
    (hmade : .connected ip target link :: before <:+ h.past) (hswallows : before.swallows target = true)
    (haccepted : .accepted holder inbound ∈ h.past) : inbound.link ≠ link := by
  rintro rfl
  obtain ⟨target', before', hmade', -, hanswers⟩ := hs.madeTo_of_accepted haccepted
  obtain ⟨-, rfl, rfl⟩ := Past.connected_unique hs.numbered hmade hmade'
  exact absurd (hswallows.symm.trans hanswers) nofun

end Sound

end History

/--
How connections are made and delivered, seen at one moment of a history: who listens and what swallows are what the past
says, and the past says what can be done next.
-/
structure Delivery (h : History) : Prop where
  told (addr : Address) : (h.step (.swallow addr)).past = .swallowed addr :: h.past ∧
    (h.step (.restore addr)).past = .restored addr :: h.past
  leaves (holder : Nat) : (h.step (.unlisten holder)).past = .left holder :: h.past
  swallowing (addr : Address) : h.network.isSwallowing addr = h.past.swallows addr
  listening (holder : Nat) (addr : Address) : h.past.seat? holder = some addr ↔
    ∃ l ∈ h.network.listeners, l.owner = holder ∧ l.address = addr
  answering (addr : Address) : h.network.isListening addr = true ↔ ∃ holder, h.past.seat? holder = some addr
  waiting {l : Listener} (lives : l ∈ h.network.listeners) :
    h.past.queuedTo l.owner = h.past.acceptedBy l.owner ++ l.queue.map Inbound.origin
  alone : (h.network.listeners.map Listener.address).Nodup
  single {past : Past} (earlier : past <:+ h.past) : past.Single
  exclusive {ip : Ipv4} {port : UInt16} {holder : Nat} (owner : Nat)
    (taken : h.past.seat? holder = some (h.network.wanted ip port)) :
    (h.network.listen ip port owner).2 = .error (.inUse (h.network.wanted ip port)) ∧
      (h.network.listen ip port owner).1.listeners = h.network.listeners ∧ (h.step (.listen ip port)).past = h.past
  vacant {ip : Ipv4} {port : UInt16} (free : ∀ holder, h.past.seat? holder ≠ some (h.network.wanted ip port)) :
    (h.step (.listen ip port)).past = .bound h.made (h.network.wanted ip port) :: h.past
  reached (ip : Ipv4) (target : Address) : (∃ e, (h.network.connect ip target).2 = .ok e) ↔
    h.past.swallows target = true ∨ ∃ holder, h.past.seat? holder = some target
  refused (ip : Ipv4) {target : Address} (answers : h.past.swallows target = false)
    (free : ∀ holder, h.past.seat? holder ≠ some target) :
    (h.network.connect ip target).2 = .error (.refused target) ∧ h.step (.connect ip target) = h
  parks (ip : Ipv4) {target : Address} (swallows : h.past.swallows target = true) :
    (h.step (.connect ip target)).past = .connected ip target h.network.next :: h.past ∧
      (h.step (.connect ip target)).network.parkedAt target = h.network.parkedAt target + 1
  queues (ip : Ipv4) {target : Address} {holder : Nat} (answers : h.past.swallows target = false)
    (listens : h.past.seat? holder = some target) :
    (h.step (.connect ip target)).past = .connected ip target h.network.next :: h.past ∧
      (h.step (.connect ip target)).past.queuedTo holder = h.past.queuedTo holder ++ [(h.network.next, ip)]
  distinct : (h.past.filterMap Deed.made?).Nodup
  once : (h.past.filterMap Deed.accepted?).Nodup
  addressed {holder : Nat} {inbound : Inbound} (accepted : .accepted holder inbound ∈ h.past) :
    Past.MadeTo holder inbound.source.ip inbound.link h.past
  ordered (holder : Nat) : h.past.acceptedBy holder <+: h.past.queuedTo holder
  next {holder link : Nat} {addr : Address} {ip : Ipv4} {rest : List (Nat × Ipv4)} (lives : h.past.seat? holder = some addr)
    (waits : h.past.queuedTo holder = h.past.acceptedBy holder ++ (link, ip) :: rest) :
    ∃ port, (h.step (.accept holder)).past = .accepted holder ⟨link, ⟨ip, port⟩⟩ :: h.past
  idle {holder : Nat} (done : h.past.seat? holder = none ∨ h.past.queuedTo holder = h.past.acceptedBy holder) :
    h.step (.accept holder) = h
  unheard {ip : Ipv4} {target : Address} {link holder : Nat} {before : Past} {inbound : Inbound}
    (made : .connected ip target link :: before <:+ h.past) (swallowed : before.swallows target = true)
    (accepted : .accepted holder inbound ∈ h.past) : inbound.link ≠ link
  held (addr : Address) : h.network.parkedAt addr = h.past.swallowedAt addr

/--
Whatever is done on a network in whatever order: an address swallows from when it is told to until it is restored, a
listener is where it was bound until it leaves, no address has two listeners, and every connection that is not swallowed
waits at the one that listens there when it is made, until that accepts it in its turn or goes away.
-/
theorem connections_are_delivered (ops : List Traffic) : Delivery (.run ops) :=
  have hs := History.Sound.run ops
  { told := fun _ => ⟨rfl, rfl⟩
    leaves := fun _ => rfl
    swallowing := hs.swallowing
    listening := fun _ _ => hs.seat?_iff
    answering := fun _ => hs.seated.isListening_iff
    waiting := fun lives => hs.kept _ lives
    alone := hs.seated.nodup_address
    single := hs.single _
    exclusive := hs.listen_taken
    vacant := hs.listen_vacant
    reached := fun _ _ => hs.connects_iff
    refused := fun _ _ => hs.connect_refused
    parks := fun _ _ => hs.connect_parked
    queues := fun _ _ _ => hs.connect_queued
    distinct := hs.numbered
    once := hs.once
    addressed := hs.madeTo_of_accepted
    ordered := hs.ordered
    next := hs.accepts_next
    idle := hs.accepts_nothing
    unheard := hs.never_accepted
    held := hs.parked }

/-- A connection waits while its address begins to swallow others; those are never accepted, also not once it is restored. -/
example : let door : Address := ⟨⟨10, 0, 0, 1⟩, 7000⟩
    let h := History.run [.listen door.ip door.port, .connect ⟨10, 0, 0, 2⟩ door, .swallow door, .connect ⟨10, 0, 0, 3⟩ door,
      .restore door, .connect ⟨10, 0, 0, 4⟩ door, .accept 0, .accept 0, .accept 0]
    h.past.acceptedBy 0 = [(0, ⟨10, 0, 0, 2⟩), (2, ⟨10, 0, 0, 4⟩)] ∧ h.network.parkedAt door = 0 := by
  decide

end ChordOverlay
