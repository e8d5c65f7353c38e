import ChordOverlay.Proofs.Payloads

/-!
# Routed payloads

Whoever routes a payload to a position is told its owner, and the payload is handed to the application of that one and of
nobody else.
-/

namespace ChordOverlay

/-- What is made of the owner that a lookup has come to. -/
def Dialog.passOn (s : Settings) (payload : Bytes) : Except Failure Peer → Dialog (Except Failure Peer)
  | .error f => pure (.error f)
  | .ok owner => sendPayload s owner.address payload >>= fun sent => pure (sent.map fun _ => owner)

theorem Dialog.route_eq (s : Settings) (id : RingId) (payload : Bytes) :
    route s id payload = ((Activity.findSuccessor id).toDialog s).bind (passOn s payload) := by
  refine congrArg (Program.bind _) (funext fun found => ?_)
  rcases found with f | owner
  · rfl
  · refine congrArg (Program.bind _) (funext fun sent => ?_)
    rcases sent with f | ⟨⟨⟩⟩ <;> rfl

namespace Machine

variable {ι : Type} [Fintype ι] {g : Machine} {σ : ι → Member} {seat : ι → Nat} {limit dusk : Nat}

/--
On a ring that is at rest, whose members have hops for each other, and before any of them has to wait too long: whoever goes
on first, a payload routed to a position that is not too large is handed to the application of the owner, once and as it is,
and the owner is returned; one that is too large is handed to nobody, and that is returned. Whatever the applications do
with payloads, no more is asked of that of the owner than to call nobody else on account of it.
-/
theorem routed_payload_reaches_owner (h : g.Populated σ seat limit) (hlimit : 11 ≤ limit) (hsize : limit < UInt32.size)
    (hhops : ∀ k, Fintype.card ι - 1 ≤ (σ k).settings.maxHops.toNat) (hdusk : g.now < dusk) (htime : g.InTime σ dusk) (k : ι)
    (ip : Ipv4) (id : RingId) (payload : Bytes) : ∃ j, Owns σ id (σ j).self ∧
      (payload.length ≤ limit → (g.handle (seat j)).Discreet → Ends dusk (some (seat k)) ip
        (fun m => m.parties = g.parties ∨ Delivered g (seat j) ip payload m)
        (fun m r => r = .ok (σ j).self ∧ m.Settles dusk (Delivered g (seat j) ip payload))
        g (Dialog.route (σ k).settings id payload)) ∧
      (limit < payload.length → payload.length < UInt32.size → Ends dusk (some (seat k)) ip
        (fun m => m.parties = g.parties)
        (fun m r => r = .error (.tooLarge payload.length limit) ∧ m.Settles dusk fun m' => m'.parties = g.parties)
        g (Dialog.route (σ k).settings id payload)) := by
  obtain ⟨j, howns, hyields⟩ := h.yields_findSuccessor hlimit htime (hhops k) ip id
  have hlookup := hyields [] g (h.lull hdusk)
  obtain ⟨host, app, hhost, hrole⟩ := h.hosts j
  refine ⟨j, howns, fun hsmall hdiscreet => ?_, fun hlarge hsize => ?_⟩
  · have hawaits : g.Awaits dusk (seat j) (σ j) (.payload payload) :=
      ⟨(h.serves j).hosts, htime j, (h.shared j).symm ▸ hsmall, Nat.lt_of_le_of_lt hsmall hsize⟩
    have happ : g.app (some (seat j)) = some app := by simp [Machine.app, party?, hhost, hrole]
    rw [Dialog.route_eq]
    refine Ends.bind (hlookup.mono (fun _ hintact => .inl hintact.parties) ?_)
    rintro m _ - ⟨rfl, hlull⟩
    refine Ends.bind (Ends.mono (ends_sending hlull (h.serves j) hhost happ hdiscreet hawaits (htime k)
      ((h.shared k).symm ▸ hsmall)) (fun _ hkept => hkept) ?_)
    rintro m' _ hkept ⟨rfl, hsettles⟩
    exact .done hkept ⟨rfl, hsettles⟩
  · rw [Dialog.route_eq]
    refine Ends.bind (hlookup.mono (fun _ hintact => hintact.parties) ?_)
    rintro m _ - ⟨rfl, hlull⟩
    refine Ends.bind (Ends.mono (ends_refusing hlull (h.serves j) hhost (htime j) ((h.shared k).symm ▸ hlarge) hsize)
      (fun _ hkept => hkept) ?_)
    rintro m' _ hkept ⟨rfl, hsettles⟩
    rw [h.shared k]
    exact .done hkept ⟨rfl, hsettles⟩

/-- The four members of the ideal ring on one machine, each with an application that sends payloads back. -/
def fourHosts : Machine where
  now := 0
  network := { Network.empty with listeners := (List.finRange 4).map fun k => ⟨(Ideal.four k).address, k.val, []⟩ }
  parties := (List.finRange 4).map fun k => ⟨(Ideal.four k).ip, .member (Ideal.fourMembers k) (some .echo), []⟩
  threads := []

theorem populated_four : fourHosts.Populated Ideal.fourMembers Fin.val Codec.defaultLimit where
  toRing := Ideal.ideal_four.toRing
  fingers := fun k p hp => Ideal.ideal_four.exists_finger hp
  hosts := fun k => ⟨⟨(Ideal.four k).ip, .member (Ideal.fourMembers k) (some .echo), []⟩, .echo, by simp [fourHosts], rfl⟩
  listens := by decide
  answers := by decide
  shared := fun _ => rfl
  prompt := fun l hl => by
    obtain ⟨k, -, rfl⟩ := List.mem_map.mp hl
    rfl
  idle := rfl

/-- Over the third and the fourth member the lookup comes back to the first, and so does the payload, if it is sent. -/
theorem routed_payload_reaches_owner_four : fourHosts.Populated Ideal.fourMembers Fin.val Codec.defaultLimit ∧
    11 ≤ Codec.defaultLimit ∧ Codec.defaultLimit < UInt32.size ∧
    (∀ k, Fintype.card (Fin 4) - 1 ≤ (Ideal.fourMembers k).settings.maxHops.toNat) ∧ fourHosts.now < 5000 ∧
    fourHosts.InTime Ideal.fourMembers 5000 ∧ (fourHosts.handle 0).Discreet ∧ [7, 8].length ≤ Codec.defaultLimit ∧
    Codec.defaultLimit < (List.replicate (Codec.defaultLimit + 1) (0 : UInt8)).length ∧
    (List.replicate (Codec.defaultLimit + 1) (0 : UInt8)).length < UInt32.size ∧
    Ends 5000 (some 0) ⟨10, 0, 0, 0⟩ (fun m => m.parties = fourHosts.parties ∨ Delivered fourHosts 0 ⟨10, 0, 0, 0⟩ [7, 8] m)
      (fun m r => r = .ok (Ideal.four 0) ∧ m.Settles 5000 (Delivered fourHosts 0 ⟨10, 0, 0, 0⟩ [7, 8]))
      fourHosts (Dialog.route {} 1800 [7, 8]) ∧
    Ends 5000 (some 0) ⟨10, 0, 0, 0⟩ (fun m => m.parties = fourHosts.parties)
      (fun m r => r = .error (.tooLarge (Codec.defaultLimit + 1) Codec.defaultLimit) ∧
        m.Settles 5000 fun m' => m'.parties = fourHosts.parties)
      fourHosts (Dialog.route {} 1800 (List.replicate (Codec.defaultLimit + 1) 0)) := by
  have hhops : ∀ k, Fintype.card (Fin 4) - 1 ≤ (Ideal.fourMembers k).settings.maxHops.toNat := by
    rw [Fintype.card_fin]
    exact fun _ => Nat.le_of_ble_eq_true rfl
  have htime : fourHosts.InTime Ideal.fourMembers 5000 := fun _ => le_refl 5000
  have hfirst : Owns Ideal.fourMembers 1800 (Ideal.four 0) := by
    unfold Owns
    decide
  have hroutes := routed_payload_reaches_owner populated_four (by decide) (by decide) hhops (by decide) htime 0 ⟨10, 0, 0, 0⟩ 1800
  have hlarge : (List.replicate (Codec.defaultLimit + 1) (0 : UInt8)).length = Codec.defaultLimit + 1 := List.length_replicate
  have hover : Codec.defaultLimit < (List.replicate (Codec.defaultLimit + 1) (0 : UInt8)).length := by
    rw [hlarge]
    exact Nat.lt_succ_self _
  have hsize : (List.replicate (Codec.defaultLimit + 1) (0 : UInt8)).length < UInt32.size := by
    rw [hlarge]
    decide
  refine ⟨populated_four, by decide, by decide, hhops, by decide, htime, App.discreet_handler, by decide, hover, hsize, ?_, ?_⟩
  · obtain ⟨j, howns, hsmall, -⟩ := hroutes [7, 8]
    obtain rfl : j = 0 := Ideal.ideal_four.distinct _ _ (congrArg Peer.id (howns.unique Ideal.ideal_four.distinct hfirst))
    exact hsmall (by decide) App.discreet_handler
  · obtain ⟨-, -, -, hrefused⟩ := hroutes (List.replicate (Codec.defaultLimit + 1) 0)
    rw [hlarge] at hrefused
    exact hrefused (Nat.lt_succ_self _) (hlarge ▸ hsize)

end Machine

end ChordOverlay
