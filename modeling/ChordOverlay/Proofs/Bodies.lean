import ChordOverlay.Wire.Body
import ChordOverlay.Proofs.Distance
import Mathlib.Data.Nat.Bitwise

/-!
# Bodies

Just the bodies that fit their kind are read. One that leaves out what it may is read as the message of the body with
that filled in, and every other body is what is written for the message it is read as.
-/

namespace ChordOverlay

/-! ## Octets -/

/-- Bits put in front of lower ones are added to them. -/
theorem shiftLeft_or {n m i : Nat} (h : m < 2 ^ i) : n <<< i ||| m = n * 2 ^ i + m := by
  rw [← Nat.shiftLeft_add_eq_or_of_lt h, Nat.shiftLeft_eq]

namespace RingId

theorem toNat_ofOctets (a b c d : UInt8) :
    (ofOctets a b c d).toNat = a.toNat * 2 ^ 24 + (b.toNat * 2 ^ 16 + (c.toNat * 2 ^ 8 + d.toNat)) := by
  have ha := a.toNat_lt
  have hb := b.toNat_lt
  have hc := c.toNat_lt
  have hd := d.toNat_lt
  have hwide : ∀ (x : UInt8) {i : Nat}, i ≤ 24 → x.toNat <<< i % 2 ^ 32 = x.toNat <<< i := fun x i hi => by
    refine Nat.mod_eq_of_lt ?_
    rw [Nat.shiftLeft_eq, show 32 = 8 + 24 from rfl, Nat.pow_add]
    exact Nat.mul_lt_mul_of_lt_of_le x.toNat_lt (Nat.pow_le_pow_right (by decide) hi) (Nat.two_pow_pos 24)
  simp only [ofOctets, toNat, UInt32.toNat_or, UInt32.toNat_shiftLeft, UInt8.toNat_toUInt32]
  change a.toNat <<< 24 % 2 ^ 32 ||| b.toNat <<< 16 % 2 ^ 32 ||| c.toNat <<< 8 % 2 ^ 32 ||| d.toNat = _
  have hcd : c.toNat <<< 8 ||| d.toNat = c.toNat * 2 ^ 8 + d.toNat := shiftLeft_or hd
  have hbcd : b.toNat <<< 16 ||| (c.toNat * 2 ^ 8 + d.toNat) = _ := shiftLeft_or (by omega)
  have habcd : a.toNat <<< 24 ||| (b.toNat * 2 ^ 16 + (c.toNat * 2 ^ 8 + d.toNat)) = _ := shiftLeft_or (by omega)
  rw [hwide a (by decide), hwide b (by decide), hwide c (by decide), Nat.or_assoc, Nat.or_assoc, hcd, hbcd, habcd]

theorem toBytes_ofOctets (a b c d : UInt8) : (ofOctets a b c d).toBytes = [a, b, c, d] := by
  have heq : (ofOctets a b c d).word.toNat = _ := toNat_ofOctets a b c d
  have ha := a.toNat_lt
  have hb := b.toNat_lt
  have hc := c.toNat_lt
  have hd := d.toNat_lt
  simp only [toBytes, List.cons.injEq, and_true, ← UInt8.toNat_inj, UInt32.toNat_toUInt8, UInt32.toNat_shiftRight,
    Nat.shiftRight_eq_div_pow, heq]
  refine ⟨?_, ?_, ?_, ?_⟩
  · change _ / 2 ^ 24 % _ = _
    omega
  · change _ / 2 ^ 16 % _ = _
    omega
  · change _ / 2 ^ 8 % _ = _
    omega
  · omega

theorem exists_octets (id : RingId) : ∃ a b c d, id = ofOctets a b c d := by
  have hid : id.word.toNat < 2 ^ 32 := id.toNat_lt
  refine ⟨(id.word >>> 24).toUInt8, (id.word >>> 16).toUInt8, (id.word >>> 8).toUInt8, id.word.toUInt8, ?_⟩
  rw [← toNat_inj, toNat_ofOctets]
  simp only [UInt32.toNat_toUInt8, UInt32.toNat_shiftRight, Nat.shiftRight_eq_div_pow]
  change id.word.toNat = id.word.toNat / 2 ^ 24 % 2 ^ 8 * 2 ^ 24 + (id.word.toNat / 2 ^ 16 % 2 ^ 8 * 2 ^ 16
    + (id.word.toNat / 2 ^ 8 % 2 ^ 8 * 2 ^ 8 + id.word.toNat % 2 ^ 8))
  omega

end RingId

/-! ## Ports -/

/-- A port from its two octets, high one first. -/
def portOf (p q : UInt8) : UInt16 := (p.toUInt16 <<< 8) ||| q.toUInt16

theorem toNat_portOf (p q : UInt8) : (portOf p q).toNat = p.toNat * 2 ^ 8 + q.toNat := by
  have hp := p.toNat_lt
  have hq := q.toNat_lt
  simp only [portOf, UInt16.toNat_or, UInt16.toNat_shiftLeft, UInt8.toNat_toUInt16]
  change p.toNat <<< 8 % 2 ^ 16 ||| q.toNat = _
  rw [Nat.mod_eq_of_lt (by rw [Nat.shiftLeft_eq]; omega), shiftLeft_or hq]

theorem octets_portOf (p q : UInt8) : (portOf p q >>> 8).toUInt8 = p ∧ (portOf p q).toUInt8 = q := by
  have heq := toNat_portOf p q
  have hp := p.toNat_lt
  have hq := q.toNat_lt
  simp only [← UInt8.toNat_inj, UInt16.toNat_toUInt8, UInt16.toNat_shiftRight, Nat.shiftRight_eq_div_pow, heq]
  constructor
  · change _ / 2 ^ 8 % _ = _
    omega
  · omega

theorem exists_portOf (port : UInt16) : ∃ p q, port = portOf p q := by
  have hport := port.toNat_lt
  refine ⟨(port >>> 8).toUInt8, port.toUInt8, ?_⟩
  rw [← UInt16.toNat_inj, toNat_portOf]
  simp only [UInt16.toNat_toUInt8, UInt16.toNat_shiftRight, Nat.shiftRight_eq_div_pow]
  change port.toNat = port.toNat / 2 ^ 8 % 2 ^ 8 * 2 ^ 8 + port.toNat % 2 ^ 8
  omega

/-! ## Peers -/

theorem Peer.ofBytes?_toBytes (p : Peer) : Peer.ofBytes? p.toBytes = some p := by
  obtain ⟨id, ip, port⟩ := p
  obtain ⟨a, b, c, d, rfl⟩ := id.exists_octets
  obtain ⟨p, q, rfl⟩ := exists_portOf port
  obtain ⟨hp, hq⟩ := octets_portOf p q
  simp only [toBytes, RingId.toBytes_ofOctets, hp, hq]
  rfl

/-- Just the texts of ten bytes are read, each as the peer it is written for. -/
theorem Peer.exists_of_length {bytes : Bytes} (h : bytes.length = wireLength) :
    ∃ p : Peer, bytes = p.toBytes := by
  match bytes, h with
  | [a, b, c, d, e, f, g, h, p, q], _ =>
    refine ⟨⟨.ofOctets a b c d, ⟨e, f, g, h⟩, portOf p q⟩, ?_⟩
    obtain ⟨hp, hq⟩ := octets_portOf p q
    simp only [toBytes, RingId.toBytes_ofOctets, hp, hq]
    rfl

theorem Peer.ofBytes?_eq_none {bytes : Bytes} (h : bytes.length ≠ wireLength) : Peer.ofBytes? bytes = none := by
  unfold ofBytes?
  split
  · exact absurd rfl h
  · rfl

/-! ## What fits -/

namespace Body

/-- The body of an answer that may name a peer. -/
def MayName (body : Bytes) : Prop := body = [no] ∨ ∃ peer : Bytes, body = yes :: peer ∧ peer.length = Peer.wireLength

end Body

namespace Kind

/-- The bodies that a frame of each kind may carry. -/
def Fits : Kind → Bytes → Prop
  | .lookup, body => body.length = 4 ∨ body.length = 5
  | .predecessorQuery, body => body.length = 4
  | .lookupReport, body | .predecessorReport, body => Body.MayName body
  | .aliveCheck, body => body = [] ∨ body = [Body.yes]
  | .aliveReport, body | .noticeReport, body => body = [Body.yes] ∨ body = [Body.no]
  | .notice, body => body.length = 6
  | .payload, _ | .unknown, _ => True

/-- The body with what a short form leaves out. -/
def complete : Kind → Bytes → Bytes
  | .lookup, body => if body.length = 4 then body ++ [Body.defaultHops] else body
  | .aliveCheck, _ => [Body.yes]
  | _, body => body

end Kind

namespace Body

variable {kind : Kind} {body : Bytes} {m : Message}

/-! ## Bodies that are read -/

theorem readPeer?_ofPeer? (kind : Kind) (p : Option Peer) : readPeer? kind (ofPeer? p) = .ok p := by
  cases p with
  | none => rfl
  | some p => simp only [ofPeer?, readPeer?, Peer.ofBytes?_toBytes, if_true]

theorem readFlag_ofFlag (kind : Kind) (flag : Bool) : readFlag kind (ofFlag flag) = .ok flag := by
  cases flag <;> rfl

/-- What is written for a message is read as that message. -/
theorem read_body (m : Message) : read m.kind m.body = .ok m := by
  cases m with
  | lookup id ttl =>
      obtain ⟨a, b, c, d, rfl⟩ := id.exists_octets
      simp only [Message.kind, Message.body, RingId.toBytes_ofOctets]
      rfl
  | predecessorQuery id =>
      obtain ⟨a, b, c, d, rfl⟩ := id.exists_octets
      simp only [Message.kind, Message.body, RingId.toBytes_ofOctets]
      rfl
  | notice id port =>
      obtain ⟨a, b, c, d, rfl⟩ := id.exists_octets
      obtain ⟨p, q, rfl⟩ := exists_portOf port
      obtain ⟨hp, hq⟩ := octets_portOf p q
      simp only [Message.kind, Message.body, RingId.toBytes_ofOctets, hp, hq]
      rfl
  | lookupReport owner =>
      simp only [Message.kind, Message.body, read, readPeer?_ofPeer?]
      rfl
  | predecessorReport predecessor =>
      simp only [Message.kind, Message.body, read, readPeer?_ofPeer?]
      rfl
  | aliveReport alive =>
      simp only [Message.kind, Message.body, read, readFlag_ofFlag]
      rfl
  | noticeReport accepted =>
      simp only [Message.kind, Message.body, read, readFlag_ofFlag]
      rfl
  | aliveCheck | payload | unknown => rfl

theorem MayName.exists_peer (h : MayName body) : ∃ p, body = ofPeer? p := by
  rcases h with rfl | ⟨peer, rfl, hlength⟩
  · exact ⟨none, rfl⟩
  · obtain ⟨p, rfl⟩ := Peer.exists_of_length hlength
    exact ⟨some p, rfl⟩

/-- A body that is written for a message, and has nothing to fill in, is read as that message. -/
theorem exists_of_written (hkind : m.kind = kind) (hbody : m.body = body) (hcomplete : kind.complete body = body) :
    ∃ m, m.kind = kind ∧ m.body = kind.complete body ∧ read kind body = .ok m := by
  subst hkind hbody
  exact ⟨m, rfl, hcomplete.symm, read_body m⟩

/-- Every body that fits is read, as the message that its complete form is written for. -/
theorem exists_of_fits (h : kind.Fits body) :
    ∃ m, m.kind = kind ∧ m.body = kind.complete body ∧ read kind body = .ok m := by
  cases kind with
  | lookup =>
      rcases h with h | h
      · match body, h with
        | [a, b, c, d], _ =>
          have hbody : (Message.lookup (.ofOctets a b c d) defaultHops).body = [a, b, c, d, defaultHops] := by
            rw [Message.body, RingId.toBytes_ofOctets]
            rfl
          exact ⟨.lookup (.ofOctets a b c d) defaultHops, rfl, hbody, rfl⟩
      · match body, h with
        | [a, b, c, d, ttl], _ =>
          have hbody : (Message.lookup (.ofOctets a b c d) ttl).body = [a, b, c, d, ttl] := by
            rw [Message.body, RingId.toBytes_ofOctets]
            rfl
          exact exists_of_written rfl hbody rfl
  | predecessorQuery =>
      match body, h with
      | [a, b, c, d], _ =>
        have hbody : (Message.predecessorQuery (.ofOctets a b c d)).body = [a, b, c, d] :=
          RingId.toBytes_ofOctets a b c d
        exact exists_of_written rfl hbody rfl
  | notice =>
      match body, h with
      | [a, b, c, d, p, q], _ =>
        obtain ⟨hp, hq⟩ := octets_portOf p q
        have hbody : (Message.notice (.ofOctets a b c d) (portOf p q)).body = [a, b, c, d, p, q] := by
          rw [Message.body, RingId.toBytes_ofOctets, hp, hq]
          rfl
        exact exists_of_written rfl hbody rfl
  | lookupReport =>
      obtain ⟨p, rfl⟩ := MayName.exists_peer h
      exact exists_of_written (m := .lookupReport p) rfl rfl rfl
  | predecessorReport =>
      obtain ⟨p, rfl⟩ := MayName.exists_peer h
      exact exists_of_written (m := .predecessorReport p) rfl rfl rfl
  | aliveCheck => rcases h with rfl | rfl <;> exact ⟨.aliveCheck, rfl, rfl, rfl⟩
  | aliveReport =>
      rcases h with rfl | rfl
      · exact exists_of_written (m := .aliveReport true) rfl rfl rfl
      · exact exists_of_written (m := .aliveReport false) rfl rfl rfl
  | noticeReport =>
      rcases h with rfl | rfl
      · exact exists_of_written (m := .noticeReport true) rfl rfl rfl
      · exact exists_of_written (m := .noticeReport false) rfl rfl rfl
  | payload => exact exists_of_written (m := .payload body) rfl rfl rfl
  | unknown => exact exists_of_written (m := .unknown body) rfl rfl rfl

/-! ## Bodies that fit -/

theorem mayName_of_readPeer? {p : Option Peer} (h : readPeer? kind body = .ok p) : MayName body := by
  unfold readPeer? at h
  split at h
  · cases h
  · rename_i status rest
    split at h
    · rename_i hyes
      split at h
      · rename_i p hp
        refine Or.inr ⟨rest, by rw [hyes], Classical.byContradiction fun hlength => ?_⟩
        rw [Peer.ofBytes?_eq_none hlength] at hp
        cases hp
      · cases h
    · split at h
      · rename_i hno
        split at h
        · rename_i hrest
          exact Or.inl (by rw [hno, List.isEmpty_iff.mp hrest])
        · cases h
      · cases h

theorem flag_of_readFlag {flag : Bool} (h : readFlag kind body = .ok flag) : body = [yes] ∨ body = [no] := by
  unfold readFlag at h
  split at h
  · split at h
    · rename_i hyes
      exact Or.inl (by rw [hyes])
    · split at h
      · rename_i hno
        exact Or.inr (by rw [hno])
      · cases h
  · cases h

theorem exists_of_map {α β ε : Type} {f : α → β} {x : Except ε α} {b : β} (h : x.map f = .ok b) : ∃ a, x = .ok a := by
  cases x with
  | error e => cases h
  | ok a => exact ⟨a, rfl⟩

theorem fits_of_read (h : read kind body = .ok m) : kind.Fits body := by
  cases kind with
  | lookup =>
      simp only [read] at h
      split at h
      · exact Or.inl rfl
      · exact Or.inr rfl
      · cases h
  | predecessorQuery | notice =>
      simp only [read] at h
      split at h
      · exact rfl
      · cases h
  | lookupReport | predecessorReport =>
      obtain ⟨p, hp⟩ := exists_of_map h
      exact mayName_of_readPeer? hp
  | aliveCheck =>
      simp only [read] at h
      split at h
      · assumption
      · cases h
  | aliveReport | noticeReport =>
      obtain ⟨flag, hflag⟩ := exists_of_map h
      exact flag_of_readFlag hflag
  | payload | unknown => trivial

end Body

end ChordOverlay
