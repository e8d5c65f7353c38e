import ChordOverlay.Record
import ChordOverlay.Settings

/-!
Settings as documents give them: field by field, each of which may be missing.
-/

namespace ChordOverlay.Settings

/-- Settings being read. -/
structure Draft where
  successorListLength : Option Nat := none
  stabilizeEvery : Option Nat := none
  checkEvery : Option Nat := none
  patience : Option Nat := none
  hopMargin : Option Nat := none
  maxHops : Option Nat := none
  maxMessageLength : Option Nat := none
  externalIp : Option (Option Ipv4) := none

namespace Draft

/-- What the draft leaves open is taken from `base`. -/
def finish (base : Settings) (d : Draft) : Settings where
  successorListLength := d.successorListLength.getD base.successorListLength
  stabilizeEvery := d.stabilizeEvery.getD base.stabilizeEvery
  checkEvery := d.checkEvery.getD base.checkEvery
  patience := d.patience.getD base.patience
  hopMargin := d.hopMargin.getD base.hopMargin
  maxHops := (d.maxHops.map UInt8.ofNat).getD base.maxHops
  maxMessageLength := d.maxMessageLength.getD base.maxMessageLength
  externalIp := d.externalIp.getD base.externalIp

/-- The fields in their order, for a document format that can read numbers below a limit and addresses. -/
def fields {δ ε : Type} (natBelow : Nat → δ → Except ε Nat) (ip? : δ → Except ε (Option Ipv4)) :
    List (Field δ ε Draft) :=
  [.of "successor_list_len" (natBelow UInt8.size) successorListLength
    (fun s a => { s with successorListLength := some a }),
   .of "stabilize_interval_ms" (natBelow UInt64.size) stabilizeEvery
    (fun s a => { s with stabilizeEvery := some a }),
   .of "check_predecessor_interval_ms" (natBelow UInt64.size) checkEvery
    (fun s a => { s with checkEvery := some a }),
   .of "rpc_timeout_ms" (natBelow UInt64.size) patience (fun s a => { s with patience := some a }),
   .of "hop_timeout_margin_ms" (natBelow UInt64.size) hopMargin (fun s a => { s with hopMargin := some a }),
   .of "max_hops" (natBelow UInt8.size) maxHops (fun s a => { s with maxHops := some a }),
   .of "max_message_len" (natBelow UInt32.size) maxMessageLength
    (fun s a => { s with maxMessageLength := some a }),
   .of "external_ip" ip? externalIp (fun s a => { s with externalIp := some a })]

end Draft

end ChordOverlay.Settings
