import ChordOverlay.Proofs.WireGrammar

/-!
# The limit of a writer

A writer refuses what a reader with the same limit would refuse, and what it writes is read back. Eight digits tell no
length above `maxDeclared`, and a longer body is announced as one of `maxDeclared` bytes. Under any lower limit that is
refused like any other, but the greatest limit lets it through, and its reader finds the body cut.
-/

namespace ChordOverlay

variable {limit length : Nat} {kind : Kind} {m : Message} {c : Codec}

theorem Header.length_toBytes (h : length < UInt32.size) : (mk kind length).toBytes.length = size := by
  change (kind.tag :: upperHex 8 length).length = size
  rw [List.length_cons, (upperHex_spec (by decide) h).1]
  rfl

theorem Message.length_body_or_carries (m : Message) :
    m.body.length ≤ Peer.wireLength + 1 ∨ ∃ bytes, m = .payload bytes ∨ m = .unknown bytes := by
  have hpeer : ∀ p : Option Peer, (Body.ofPeer? p).length ≤ Peer.wireLength + 1 := by
    rintro (_ | p)
    · exact Nat.succ_le_succ (Nat.zero_le _)
    · exact Nat.le_refl (Peer.wireLength + 1)
  have hfew : ∀ n ≤ 6, n ≤ Peer.wireLength + 1 := fun n hn => hn.trans (by decide)
  cases m with
  | payload bytes => exact .inr ⟨bytes, .inl rfl⟩
  | unknown bytes => exact .inr ⟨bytes, .inr rfl⟩
  | lookupReport owner => exact .inl (hpeer owner)
  | predecessorReport predecessor => exact .inl (hpeer predecessor)
  | lookup | predecessorQuery | aliveCheck | aliveReport | notice | noticeReport =>
      exact .inl (hfew _ (Nat.le_of_ble_eq_true rfl))

namespace Codec

/-! ## Writing -/

theorem encode_of_le (h : min m.body.length maxDeclared ≤ c.limit) (buffer : Bytes) : c.encode m buffer =
    (buffer ++ ((Header.mk m.kind (min m.body.length maxDeclared)).toBytes ++ m.body), .ok ()) := by
  simp only [encode, Message.frame_eq_announce, Header.announce, if_neg (Nat.not_lt.mpr h), Except.map]

theorem encode_of_lt (h : c.limit < min m.body.length maxDeclared) (buffer : Bytes) :
    c.encode m buffer = (buffer, .error (.tooLarge (min m.body.length maxDeclared) c.limit)) := by
  simp only [encode, Message.frame_eq_announce, Header.announce, if_pos h, Except.map]

/-- Whether a message is written hangs on the length that is announced for it. -/
theorem encode_ok_iff (buffer : Bytes) : (c.encode m buffer).2 = .ok () ↔ min m.body.length maxDeclared ≤ c.limit := by
  by_cases h : min m.body.length maxDeclared ≤ c.limit
  · rw [encode_of_le h]
    exact iff_of_true rfl h
  · rw [encode_of_lt (Nat.lt_of_not_le h)]
    exact iff_of_false nofun h

/-- The length that is announced for a body exceeds the limit with the body, unless there is no length above the limit. -/
theorem announced_le_iff (hlimit : limit ≤ maxDeclared) :
    min length maxDeclared ≤ limit ↔ length ≤ limit ∨ limit = maxDeclared := by
  omega

/-! ## Reading what was written -/

/-- What is announced as shorter than it is, is cut there; the rest is taken for what comes next. -/
theorem decode_overrun (hlong : maxDeclared < m.body.length) :
    ∃ m', m'.kind = m.kind ∧ m'.body = m.body.take maxDeclared ∧
      (start maxDeclared).decode ((Header.mk m.kind maxDeclared).toBytes ++ m.body) =
        ⟨start maxDeclared, m.body.drop maxDeclared, .ok (some m')⟩ := by
  have hlength : (m.body.take maxDeclared).length = maxDeclared := List.length_take_of_le (Nat.le_of_lt hlong)
  have hsize : (m.body.take maxDeclared).length < UInt32.size := hlength.trans_lt (by decide)
  have hcut := decode_declared (Nat.le_of_eq hlength) hsize m.kind (m.body.drop maxDeclared)
  rw [hlength, List.take_append_drop] at hcut
  obtain hshort | ⟨bytes, rfl | rfl⟩ := m.length_body_or_carries
  · exact absurd (hlong.trans_le hshort) (by decide)
  · exact ⟨.payload (bytes.take maxDeclared), rfl, rfl, hcut⟩
  · exact ⟨.unknown (bytes.take maxDeclared), rfl, rfl, hcut⟩

/--
With any limit but the greatest, a message is written just when its body is within the limit; a refused one leaves the
buffer as it was, and a written one is read back, with nothing left over. With the greatest limit every message is
written, but one with a longer body is read back cut.
-/
theorem limit_is_enforced (hlimit : c.limit ≤ maxDeclared) (m : Message) (buffer : Bytes) :
    ((c.encode m buffer).2 = .ok () ↔ m.body.length ≤ c.limit ∨ c.limit = maxDeclared) ∧
    (m.body.length ≤ c.limit → ∃ head, head.length = Header.size ∧
      c.encode m buffer = (buffer ++ (head ++ m.body), .ok ()) ∧
      (start c.limit).decode (head ++ m.body) = ⟨start c.limit, [], .ok (some m)⟩) ∧
    (c.limit < m.body.length → c.limit < maxDeclared →
      c.encode m buffer = (buffer, .error (.tooLarge (min m.body.length maxDeclared) c.limit))) ∧
    (maxDeclared < m.body.length → c.limit = maxDeclared → ∃ head m', head.length = Header.size ∧
      c.encode m buffer = (buffer ++ (head ++ m.body), .ok ()) ∧
      m'.kind = m.kind ∧ m'.body = m.body.take maxDeclared ∧
      (start c.limit).decode (head ++ m.body) = ⟨start c.limit, m.body.drop maxDeclared, .ok (some m')⟩) := by
  refine ⟨(encode_ok_iff buffer).trans (announced_le_iff hlimit), fun hwithin => ?_, fun habove hbelow => ?_,
    fun hlong hgreatest => ?_⟩
  · have hdeclared : min m.body.length maxDeclared = m.body.length := Nat.min_eq_left (hwithin.trans hlimit)
    have hsize : m.body.length < UInt32.size := Nat.lt_of_le_of_lt (hwithin.trans hlimit) (by decide)
    have hencode := encode_of_le (hdeclared.symm ▸ hwithin) buffer
    have hdecode := decode_written hwithin hsize []
    rw [hdeclared] at hencode
    rw [List.append_nil] at hdecode
    exact ⟨_, Header.length_toBytes hsize, hencode, hdecode⟩
  · exact encode_of_lt (Nat.lt_min.mpr ⟨habove, hbelow⟩) buffer
  · have hdeclared : min m.body.length maxDeclared = maxDeclared := Nat.min_eq_right (Nat.le_of_lt hlong)
    have hencode := encode_of_le (hdeclared ▸ Nat.le_of_eq hgreatest.symm) buffer
    obtain ⟨m', hkind, hbody, hdecode⟩ := decode_overrun hlong
    rw [hdeclared] at hencode
    rw [hgreatest]
    exact ⟨_, m', Header.length_toBytes (by decide), hencode, hkind, hbody, hdecode⟩

theorem limit_is_enforced_sixteen : (start 16).limit ≤ maxDeclared ∧
    (start 16).encode (.payload (List.replicate 17 0)) [77] = ([77], .error (.tooLarge 17 16)) :=
  have hlimit : (start 16).limit ≤ maxDeclared := by decide
  ⟨hlimit, (limit_is_enforced hlimit (.payload (List.replicate 17 0)) [77]).2.2.1 (by decide) (by decide)⟩

/-- The greatest limit is not enforced: a body of one byte more is written, since it is not announced as that long. -/
theorem limit_is_passed : ¬ ∀ (c : Codec) (m : Message) (buffer : Bytes), c.limit ≤ maxDeclared →
    ((c.encode m buffer).2 = .ok () ↔ m.body.length ≤ c.limit) := by
  intro h
  have hwritten := h (start maxDeclared) (.payload (List.replicate UInt32.size 0)) [] (Nat.le_refl _)
  rw [encode_ok_iff] at hwritten
  have hwithin := hwritten.mp (Nat.min_le_right _ _)
  change (List.replicate UInt32.size (0 : UInt8)).length ≤ maxDeclared at hwithin
  rw [List.length_replicate] at hwithin
  exact absurd hwithin (by decide)

end Codec

end ChordOverlay
