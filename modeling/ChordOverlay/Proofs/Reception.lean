import ChordOverlay.Proofs.Serving

/-!
# Dialogs that nobody disturbs

A dialog whose member nobody else changes while it waits: what it comes to depends on nothing but what it is answered.
What it has received by then is told by its acts, and what it has read of that is what comes first in it.
-/

namespace ChordOverlay

/-! ## What has been received -/

/-- What a read has brought in. -/
def Act.brought : Act → Bytes
  | .asked (.take ..) (.bytes bytes) => bytes
  | _ => []

/-- A read has met the end. -/
def Act.metEnd : Act → Bool
  | .asked (.take ..) .ended => true
  | _ => false

/-- All that has been read, in order. -/
def received (acts : List Act) : Bytes := acts.flatMap Act.brought

/-- The first item of all that has been received, if it is there. -/
def firstReceived (limit : Nat) (acts : List Act) : Option Item :=
  (Codec.start limit).item (acts.any Act.metEnd) (received acts)

/-- The request is a read. -/
def DialogOp.IsTake : DialogOp → Prop
  | .take .. => True
  | _ => False

/-- A read that is answered by bytes brings at least one. -/
def DialogOp.Admits : (op : DialogOp) → DialogOps.Answer op → Prop
  | .take .., .bytes bytes => bytes ≠ []
  | _, _ => True

variable {acts past : List Act} {limit : Nat}

theorem received_append (xs ys : List Act) : received (xs ++ ys) = received xs ++ received ys := List.flatMap_append

theorem brought_of_not_take {act : Act} (h : ¬ act.op.IsTake) : act.brought = [] ∧ act.metEnd = false := by
  cases act with
  | stored before after => exact ⟨rfl, rfl⟩
  | asked op x => cases op <;> first | exact ⟨rfl, rfl⟩ | exact absurd trivial h

theorem firstReceived_of_takeless (h : ∀ act ∈ acts, ¬ act.op.IsTake) :
    firstReceived limit (past ++ acts) = firstReceived limit past := by
  have hbytes : received acts = [] := List.flatMap_eq_nil_iff.mpr fun act hact => (brought_of_not_take (h act hact)).1
  have hends : acts.any Act.metEnd = false := by
    rw [List.any_eq_false]
    exact fun act hact => by simp [(brought_of_not_take (h act hact)).2]
  rw [firstReceived, firstReceived, received_append, hbytes, List.append_nil, List.any_append, hends, Bool.or_false]

/-! ## What can be wrong -/

/-- The failure of a join at a position that is taken. -/
def Failure.IsDuplicate : Failure → Prop
  | .duplicateId _ => True
  | _ => False

/-- If it fails, then not because a position is taken. -/
def Faultless {α : Type} (r : Except Failure α) : Prop := ∀ f, r = .error f → ¬ f.IsDuplicate

theorem Faultless.ok {α : Type} (a : α) : Faultless (.ok a) := nofun

theorem Faultless.error {α : Type} {f : Failure} (h : ¬ f.IsDuplicate) : Faultless (.error f : Except Failure α) := by
  rintro f' ⟨⟩
  exact h

theorem Header.faultless_read (bytes : Bytes) : Faultless (Header.read bytes) := by
  unfold Header.read
  split
  · split
    · exact .error id
    · split
      · exact .error id
      · split
        · exact .ok _
        · exact .error id
  · exact .error id

theorem Message.faultless_ofBody (header : Header) (body : Bytes) : Faultless (Message.ofBody header body) := by
  unfold Message.ofBody
  split
  · cases Body.read header.kind body with
    | ok m => exact .ok m
    | error fault => exact .error id
  · exact .error id

theorem Message.faultless_frame (limit : Nat) (message : Message) : Faultless (message.frame limit) := by
  unfold Message.frame
  dsimp only
  split
  · exact .error id
  · exact .ok _

theorem Query.faultless_read (q : Query) (reply : Message) : Faultless (q.read reply) := by
  cases q <;> cases reply <;> first | exact .ok _ | exact .error id

namespace Codec

theorem faultless_decodeBody (c : Codec) (header : Header) (buffer : Bytes) :
    Faultless (c.decodeBody header buffer).result := by
  unfold decodeBody
  split
  · exact .ok none
  · have hbody := Message.faultless_ofBody header (buffer.take header.length)
    dsimp only
    cases hread : Message.ofBody header (buffer.take header.length) with
    | ok m => exact .ok _
    | error f => exact .error (hbody f hread)

theorem faultless_decode (c : Codec) (buffer : Bytes) : Faultless (c.decode buffer).result := by
  unfold decode
  split
  · exact c.faultless_decodeBody _ _
  · split
    · exact .ok none
    · split
      · rename_i hread
        exact .error (Header.faultless_read _ _ hread)
      · split
        · exact .error id
        · exact c.faultless_decodeBody _ _

theorem faultless_decodeEnd (c : Codec) (buffer : Bytes) : Faultless (c.decodeEnd buffer).result := by
  unfold decodeEnd
  dsimp only
  split
  · split
    · exact c.faultless_decode buffer
    · exact .error id
  · exact c.faultless_decode buffer

/-- No bytes are mistaken for the news that a position is taken. -/
theorem faultless_item {c : Codec} {ended : Bool} {buffer : Bytes} {f : Failure}
    (h : c.item ended buffer = some (.failure f)) : ¬ f.IsDuplicate := by
  have hresult : Faultless (if ended then c.decodeEnd buffer else c.decode buffer).result := by
    split
    · exact c.faultless_decodeEnd buffer
    · exact c.faultless_decode buffer
  unfold item at h
  generalize (if ended then c.decodeEnd buffer else c.decode buffer) = o at h hresult
  obtain ⟨c', left, e | _ | m⟩ := o
  · cases h
    exact hresult f rfl
  · cases ended <;> cases h
  · cases h

end Codec

namespace Dialog

theorem gives_sendBytesIn (e : End) (deadline : Option Nat) (n : Nat) (bytes : Bytes) :
    (sendBytesIn e deadline n bytes).Gives Faultless := by
  induction n generalizing bytes with
  | zero => exact .ok ()
  | succ n ih =>
      rw [sendBytesIn]
      split
      · exact .ok ()
      · intro (pushed : Pushed)
        cases pushed with
        | accepted count => exact ih _
        | broken => exact .error id
        | late => exact .error id

theorem gives_send (e : End) (limit : Nat) (deadline : Option Nat) (message : Message) :
    (send e limit deadline message).Gives Faultless := by
  rw [send]
  split
  · rename_i f hframe
    exact .error (Message.faultless_frame limit message f hframe)
  · exact gives_sendBytesIn e deadline _ _

end Dialog

/-! ## Dialogs by themselves -/

namespace Dialog

variable {α β : Type} {phase : Phase} {post : List Act → Member → α → Prop} {P : DialogOp → Prop} {d : Dialog α} {m : Member}
  {op : DialogOp} {next : DialogOps.Answer op → Dialog α}

/--
As long as nobody else changes its member, the dialog waits in the phase `phase` only, and what it ends with satisfies
`post`, together with all that it has had answered and with the member as it is then.
-/
def Settles (phase : Phase) (post : List Act → Member → α → Prop) : Dialog α → List Act → Member → Prop
  | .done a, past, m => post past m a
  | .ask .look next, past, m => Settles phase post (next m) past m
  | .ask (.store m) next, past, _ => Settles phase post (next ()) past m
  | .ask op next, past, m =>
      m.phase = phase ∧ ∀ x, op.Admits x → Settles phase post (next x) (past ++ [.asked op x]) m

theorem settles_ask (hop : op.Asks) : Settles phase post (.ask op next) past m ↔
    m.phase = phase ∧ ∀ x, op.Admits x → Settles phase post (next x) (past ++ [.asked op x]) m := by
  cases op <;> first | exact Iff.rfl | cases hop

theorem Settles.mono {post' : List Act → Member → α → Prop} (h : Settles phase post d past m)
    (hpost : ∀ past m a, post past m a → post' past m a) : Settles phase post' d past m := by
  induction d generalizing past m with
  | done a => exact hpost past m a h
  | ask op next ih =>
      cases op with
      | look => exact ih m h
      | store m' => exact ih () h
      | _ => exact ⟨h.1, fun x hx => ih x (h.2 x hx)⟩

theorem Settles.bind {post : List Act → Member → β → Prop} {f : α → Dialog β}
    (h : Settles phase (fun past m a => Settles phase post (f a) past m) d past m) :
    Settles phase post (d.bind f) past m := by
  induction d generalizing past m with
  | done a => exact h
  | ask op next ih =>
      cases op with
      | look => exact ih m h
      | store m' => exact ih () h
      | _ => exact ⟨h.1, fun x hx => ih x (h.2 x hx)⟩

theorem Settles.ahead (h : Settles phase post d past m) : Settles phase post (d.ahead m).1 past (d.ahead m).2 := by
  induction d generalizing m with
  | done a => exact h
  | ask op next ih =>
      cases op with
      | look => exact ih m h
      | store m' => exact ih () h
      | _ => exact h

/-- Where the dialog comes to wait, its member is in the phase. -/
theorem Settles.halts (h : Settles phase post d past m) : (∃ a, (d.ahead m).1 = .done a) ∨ (d.ahead m).2.phase = phase := by
  induction d generalizing m with
  | done a => exact .inl ⟨a, rfl⟩
  | ask op next ih =>
      cases op with
      | look => exact ih m h
      | store m' => exact ih () h
      | _ => exact .inr h.1

/-- A dialog that leaves its member alone and asks for nothing but what is of a kind. -/
theorem settles_of_only {Q : α → Prop} (hP : ∀ op, P op → op.Asks) (hd : d.Only P) (hQ : d.Gives Q)
    (hphase : m.phase = phase) (hpost : ∀ acts a, (∀ act ∈ acts, P act.op) → Q a → post (past ++ acts) m a) :
    Settles phase post d past m := by
  induction d generalizing past with
  | done a =>
      have := hpost [] a (fun _ hact => absurd hact List.not_mem_nil) hQ
      rwa [List.append_nil] at this
  | ask op next ih =>
      refine (settles_ask (hP op hd.1)).mpr ⟨hphase, fun x _ => ih x (hd.2 x) (hQ x) fun acts a hacts ha => ?_⟩
      rw [List.append_assoc]
      refine hpost _ a (fun act hact => ?_) ha
      rcases List.mem_cons.mp hact with rfl | hact
      · exact hd.1
      · exact hacts act hact

/-! ## Reading -/

/-- The codec with its buffer is where all that has been received has brought it, and more may come. -/
structure Stands (limit : Nat) (past : List Act) (c : Codec) (buffer : Bytes) : Prop where
  unended : past.any Act.metEnd = false
  item : c.HasRead limit (received past) buffer

section Reading

variable {e : End} {deadline n : Nat} {c c' : Codec} {buffer left : Bytes}

theorem Stands.first (h : Stands limit past c buffer) : firstReceived limit past = (c.decode buffer).item false := by
  rw [firstReceived, h.unended, h.item.item]
  rfl

theorem Stands.feed (h : Stands limit past c buffer) (hwait : c.decode buffer = ⟨c', left, .ok none⟩) (bytes : Bytes) :
    Stands limit (past ++ [.asked (.take e none (some deadline)) (Taken.bytes bytes)]) c' (left ++ bytes) where
  unended := by
    rw [List.any_append, h.unended]
    rfl
  item := by
    have hfeed := h.item.feed hwait bytes
    rw [received_append]
    simpa [received, Act.brought] using hfeed

theorem Stands.late (h : Stands limit past c buffer) (hwait : c.decode buffer = ⟨c', left, .ok none⟩) :
    firstReceived limit (past ++ [.asked (.take e none (some deadline)) Taken.late]) = none := by
  have hnone : firstReceived limit past = none := by
    rw [h.first, hwait]
    rfl
  rw [← hnone, firstReceived, firstReceived, received_append, List.any_append]
  simp [received, Act.brought, Act.metEnd]

theorem Stands.ended (h : Stands limit past c buffer) (hwait : c.decode buffer = ⟨c', left, .ok none⟩) :
    firstReceived limit (past ++ [.asked (.take e none (some deadline)) Taken.ended]) = c'.item true left := by
  have hleft := Codec.item_of_wait hwait true []
  rw [List.append_nil, List.append_nil] at hleft
  rw [← hleft, ← h.item.item, firstReceived, received_append, List.any_append]
  simp [received, Act.brought, Act.metEnd]

theorem settles_receiveIn {post : List Act → Member → Option Item × FrameStream → Prop} (hphase : m.phase = phase)
    (hc : c.Fit) (hn : Header.size + c.limit < c.stock buffer + n) (hstands : Stands limit past c buffer)
    (hpost : ∀ past s, post past m (firstReceived limit past, s)) :
    Settles phase post (receiveIn e (some deadline) (n + 1) (.ready c buffer)) past m := by
  -- A codec that waits gets more with every read, so the fuel cannot run out before there is an item or no more comes.
  induction n using Nat.strong_induction_on generalizing past c buffer with
  | _ n ih =>
      rcases (c.decode buffer).item_or_waits with ⟨item, hitem⟩ | hwait
      · obtain ⟨s, heq⟩ := receiveIn_of_item hitem e (some deadline) n
        have hdone := hpost past s
        rw [hstands.first, hitem] at hdone
        rwa [heq]
      obtain ⟨hfit, hlimit, hstock, hsmall⟩ := Codec.stock_of_wait hc hwait
      obtain ⟨n, rfl⟩ : ∃ k, n = k + 1 := ⟨n - 1, by omega⟩
      rw [receiveIn_of_wait hwait]
      refine ⟨hphase, fun (taken : Taken) admits => ?_⟩
      cases taken with
      | late =>
          have hdone := hpost (past ++ [.asked (.take e none (some deadline)) Taken.late])
          rw [hstands.late hwait] at hdone
          exact hdone _
      | ended =>
          obtain ⟨s, heq⟩ := receiveIn_ended (c.decode buffer).codec (c.decode buffer).buffer e (some deadline) n
          have hdone := hpost (past ++ [.asked (.take e none (some deadline)) Taken.ended]) s
          rw [hstands.ended hwait] at hdone
          simp only [heq]
          exact hdone
      | bytes bytes =>
          have hpositive : 0 < bytes.length := List.length_pos_iff.mpr admits
          refine ih n (Nat.lt_succ_self n) hfit ?_ (hstands.feed hwait bytes)
          rw [Codec.stock_append]
          omega

/-- What is read first is what comes first in all that is received. -/
theorem settles_receive {post : List Act → Member → Option Item × FrameStream → Prop} (hphase : m.phase = phase)
    (hpast : ∀ act ∈ past, ¬ act.op.IsTake) (hpost : ∀ past s, post past m (firstReceived limit past, s)) :
    Settles phase post (receive e (some deadline) (.start limit)) past m := by
  have hstands : Stands limit past (.start limit) [] := by
    refine ⟨?_, fun ended more => ?_⟩
    · rw [List.any_eq_false]
      exact fun act hact => by simp [(brought_of_not_take (hpast act hact)).2]
    · have hnothing : received past = [] :=
        List.flatMap_eq_nil_iff.mpr fun act hact => (brought_of_not_take (hpast act hact)).1
      rw [hnothing]
  rw [receive_start]
  exact settles_receiveIn hphase (Codec.fit_start limit) (fuel_receive limit []) hstands hpost

end Reading

/-! ## Calling -/

/-- What a call returns, by what has been received in all: the message that comes first, or that there is none. -/
inductive Replied (limit : Nat) (past : List Act) : Except Failure Message → Prop
  | message {reply : Message} (first : firstReceived limit past = some (.message reply)) : Replied limit past (.ok reply)
  | none {f : Failure} (first : ∀ reply, firstReceived limit past ≠ some (.message reply))
      (faultless : ¬ f.IsDuplicate) : Replied limit past (.error f)

/-- What a lookup at another peer returns: what the report says that comes first, or that there is none. -/
inductive Reported (limit : Nat) (past : List Act) : Except Failure (Option Peer) → Prop
  | report {owner : Option Peer} (first : firstReceived limit past = some (.message (.lookupReport owner))) :
      Reported limit past (.ok owner)
  | none {f : Failure} (first : ∀ owner, firstReceived limit past ≠ some (.message (.lookupReport owner)))
      (faultless : ¬ f.IsDuplicate) : Reported limit past (.error f)

theorem firstReceived_eq_none (h : ∀ act ∈ past, ¬ act.op.IsTake) : firstReceived limit past = none := by
  have hnothing : firstReceived limit ([] ++ past) = firstReceived limit [] := firstReceived_of_takeless h
  rwa [List.nil_append] at hnothing

section Calling

variable {post : List Act → Member → Except Failure Message → Prop}

theorem settles_requestOn {e : End} {deadline : Nat} (hphase : m.phase = phase) (hpast : ∀ act ∈ past, ¬ act.op.IsTake)
    (message : Message) (hpost : ∀ past r, Replied limit past r → post past m r) :
    Settles phase post (requestOn e limit deadline message) past m := by
  have honly : (send e limit (some deadline) message).Only fun op => op.Asks ∧ ¬ op.IsTake :=
    only_send (fun _ => ⟨trivial, id⟩) limit message
  refine Settles.bind (settles_of_only (fun _ hop => hop.1) honly (gives_send e limit _ message) hphase
    fun acts sent hacts hsent => ?_)
  have hwritten : ∀ act ∈ past ++ acts, ¬ act.op.IsTake := fun act hact =>
    (List.mem_append.mp hact).elim (hpast act) fun hact => (hacts act hact).2
  cases sent with
  | error f => exact hpost _ _ (.none (by simp [firstReceived_eq_none hwritten]) (hsent f rfl))
  | ok _ =>
      refine Settles.bind (settles_receive hphase hwritten fun past s => ?_)
      cases hfirst : firstReceived limit past with
      | none => exact hpost _ _ (.none (by simp [hfirst]) id)
      | some item =>
          cases item with
          | message reply => exact hpost _ _ (.message hfirst)
          | failure f => exact hpost _ _ (.none (by simp [hfirst]) (Codec.faultless_item hfirst))
          | finished => exact hpost _ _ (.none (by simp [hfirst]) id)

theorem settles_exchange {patience : Nat} {target : Address} (hphase : m.phase = phase)
    (hpast : ∀ act ∈ past, ¬ act.op.IsTake) (message : Message) (hpost : ∀ past r, Replied limit past r → post past m r) :
    Settles phase post (exchange limit patience target message) past m := by
  refine ⟨hphase, fun (start : Nat) _ => ⟨hphase, fun connected _ => ?_⟩⟩
  have hcalled : ∀ act ∈ past ++ [.asked .clock start] ++ [.asked (.connect target) connected], ¬ act.op.IsTake := by
    intro act hact
    rw [List.append_assoc] at hact
    rcases List.mem_append.mp hact with hact | hact
    · exact hpast act hact
    · rcases List.mem_cons.mp hact with rfl | hact
      · exact id
      · exact List.mem_singleton.mp hact ▸ id
  cases (connected : Except NetFault End) with
  | error fault => exact hpost _ _ (.none (fun _ h => by cases (firstReceived_eq_none hcalled).symm.trans h) id)
  | ok e =>
      change Settles phase post ((requestOn e limit (start + patience) message).bind fun reply => release e >>= fun _ =>
        pure reply) _ m
      refine Settles.bind (settles_requestOn hphase hcalled message fun past r hr => ⟨hphase, fun _ _ => hpost _ r ?_⟩)
      -- To close the connection brings nothing in.
      have hrelease : firstReceived limit (past ++ [.asked (.release e) ()]) = firstReceived limit past :=
        firstReceived_of_takeless fun act hact => List.mem_singleton.mp hact ▸ id
      cases hr with
      | message first => exact .message (hrelease.trans first)
      | none first faultless => exact .none (fun reply h => first reply (hrelease.symm.trans h)) faultless

theorem settles_lookup {post : List Act → Member → Except Failure (Option Peer) → Prop} {s : Settings} {target : Address}
    {id : RingId} {ttl : UInt8} (hphase : m.phase = phase) (hpast : ∀ act ∈ past, ¬ act.op.IsTake)
    (hpost : ∀ past r, Reported s.maxMessageLength past r → post past m r) :
    Settles phase post (inquire s target (.owner id ttl)) past m := by
  refine Settles.bind (settles_exchange hphase hpast _ fun past r hr => ?_)
  cases hr with
  | none first faultless => exact hpost _ _ (.none (fun owner => first _) faultless)
  | @message reply first =>
      have hread := Query.faultless_read (.owner id ttl) reply
      cases reply with
      | lookupReport owner => exact hpost _ _ (.report first)
      | _ => exact hpost _ _ (.none (by simp [first]) (hread _ rfl))

end Calling

end Dialog

end ChordOverlay
