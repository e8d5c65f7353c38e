import ChordOverlay.Json.Decode
import ChordOverlay.Settings.Draft
import ChordOverlay.View

/-!
The records of the ring in JSON: positions, peers, settings, finger tables and neighbourhoods.
-/

namespace ChordOverlay

namespace Json

/-- A text between quotes. None of those written needs an escape. -/
def quoted (s : String) : String := "\"" ++ s ++ "\""

/-- The items between brackets. -/
def list (items : List String) : String := "[" ++ ",".intercalate items ++ "]"

/-- The entries between braces, each behind its name. -/
def fields (entries : List (String × String)) : String :=
  "\x7b" ++ ",".intercalate (entries.map fun (name, value) => quoted name ++ ":" ++ value) ++ "\x7d"

/-- A value that may be missing. -/
def nullable {α : Type} (write : α → String) : Option α → String
  | none => "null"
  | some a => write a

end Json

open Json

namespace RingId

/-- A position as the number it is. -/
def decode : Decoder RingId := fun t => (natBelow UInt32.size t).map ofNat

/-- A position as the number it is. -/
def toJson (id : RingId) : String := toString id.toNat

end RingId

namespace Peer

/-- A peer, whose three fields may come in any order. -/
def decode : Decoder Peer :=
  record (σ := Option RingId × Option Ipv4 × Option Nat)
    [.of "id" RingId.decode (·.1) (fun s a => (some a, s.2)),
     .of "ip" ipv4 (·.2.1) (fun s a => (s.1, some a, s.2.2)),
     .of "port" (natBelow UInt16.size) (·.2.2) (fun s a => (s.1, s.2.1, some a))]
    (none, none, none) 3
    fun (id, ip, port) => do return ⟨← id, ← ip, UInt16.ofNat (← port)⟩

/-- A peer as a record of three fields. -/
def toJson (p : Peer) : String :=
  fields [("id", p.id.toJson), ("ip", quoted p.ip.display), ("port", toString p.port.toNat)]

end Peer

/-- A finger table with its declared size, which need not be the number of its slots. -/
structure FingerRecord where
  owner : Peer
  size : Nat
  slots : List (Option Peer)

namespace FingerRecord

/-- The record of a finger table, with its size beside the slots. -/
def ofFingers (t : Fingers) : FingerRecord := ⟨t.owner, t.slots.length, t.slots⟩

/-- A finger table as it is written, not yet checked against its size. -/
def decode : Decoder FingerRecord :=
  record (σ := Option Peer × Option Nat × Option (List (Option Peer)))
    [.of "owner" Peer.decode (·.1) (fun s a => (some a, s.2)),
     .of "size" (natBelow UInt64.size) (·.2.1) (fun s a => (s.1, some a, s.2.2)),
     .of "finger" (listOf (optional Peer.decode)) (·.2.2) (fun s a => (s.1, s.2.1, some a))]
    (none, none, none) 3
    fun (owner, size, slots) => do return ⟨← owner, ← size, ← slots⟩

/-- A finger table as a record of three fields. -/
def toJson (r : FingerRecord) : String :=
  fields [("owner", r.owner.toJson), ("size", toString r.size),
    ("finger", list (r.slots.map (nullable Peer.toJson)))]

end FingerRecord

/-- A snapshot of what a member knows. -/
structure Topology where
  node : Peer
  successors : List Peer
  predecessor : Option Peer
  fingers : List (Option Peer)

/-- What a view shows of itself. -/
def View.topology (v : View) : Topology :=
  ⟨v.self, v.successors.peers, v.predecessor, v.fingers.slots⟩

namespace Topology

/-- A topology being read. -/
structure Draft where
  node : Option Peer := none
  successors : Option (List Peer) := none
  predecessor : Option (Option Peer) := none
  fingers : Option (List (Option Peer)) := none

/-- A topology, whose four fields may come in any order. -/
def decode : Decoder Topology :=
  record
    [.of "node" Peer.decode Draft.node (fun s a => { s with node := some a }),
     .of "successors" (listOf Peer.decode) Draft.successors (fun s a => { s with successors := some a }),
     .of "predecessor" (optional Peer.decode) Draft.predecessor (fun s a => { s with predecessor := some a }),
     .of "fingers" (listOf (optional Peer.decode)) Draft.fingers (fun s a => { s with fingers := some a })]
    {} 4
    fun s => do return ⟨← s.node, ← s.successors, s.predecessor.join, ← s.fingers⟩

/-- A topology as a record of four fields. -/
def toJson (t : Topology) : String :=
  fields [("node", t.node.toJson), ("successors", list (t.successors.map Peer.toJson)),
    ("predecessor", nullable Peer.toJson t.predecessor), ("fingers", list (t.fingers.map (nullable Peer.toJson)))]

end Topology

namespace Settings

/-- Settings whose missing fields are those of `base`. -/
def decodeOver (base : Settings) : Decoder Settings :=
  record (Draft.fields natBelow (optional ipv4)) {} 0 fun d => some (d.finish base)

/-- Settings in which every field may be left out. -/
def decode : Decoder Settings := decodeOver {}

/-- Settings with all their fields. -/
def toJson (s : Settings) : String :=
  fields [("successor_list_len", toString s.successorListLength),
    ("stabilize_interval_ms", toString s.stabilizeEvery),
    ("check_predecessor_interval_ms", toString s.checkEvery), ("rpc_timeout_ms", toString s.patience),
    ("hop_timeout_margin_ms", toString s.hopMargin), ("max_hops", toString s.maxHops.toNat),
    ("max_message_len", toString s.maxMessageLength),
    ("external_ip", nullable (fun ip => quoted (Ipv4.display ip)) s.externalIp)]

end Settings

end ChordOverlay
