import ChordOverlay.Json.Records
import ChordOverlay.Lab.Desk
import ChordOverlay.Lab.Settle
import ChordOverlay.Main
import ChordOverlay.Proofs.Distance
import ChordOverlay.Proofs.Arcs
import ChordOverlay.Proofs.SuccessorList
import ChordOverlay.Proofs.FingerTable
import ChordOverlay.Proofs.FingerOrder
import ChordOverlay.Proofs.SuccessorChoice
import ChordOverlay.Proofs.Neighbourhood
import ChordOverlay.Proofs.Notices
import ChordOverlay.Proofs.Adoption
import ChordOverlay.Proofs.FingerChoice
import ChordOverlay.Proofs.Removal
import ChordOverlay.Proofs.Overlay
import ChordOverlay.Proofs.Pact
import ChordOverlay.Proofs.Unity
import ChordOverlay.Proofs.SuccessorCycle
import ChordOverlay.Proofs.Course
import ChordOverlay.Proofs.Ownership
import ChordOverlay.Proofs.HopBound
import ChordOverlay.Proofs.Evolution
import ChordOverlay.Proofs.Attempts
import ChordOverlay.Proofs.LoopFreedom
import ChordOverlay.Proofs.Gap
import ChordOverlay.Proofs.Alignment
import ChordOverlay.Proofs.Stillness
import ChordOverlay.Proofs.Fixpoint
import ChordOverlay.Proofs.Alone
import ChordOverlay.Proofs.Rounds
import ChordOverlay.Proofs.Settling
import ChordOverlay.Proofs.Approach
import ChordOverlay.Proofs.Recovery
import ChordOverlay.Proofs.Acquaintance
import ChordOverlay.Proofs.Convergence
import ChordOverlay.Proofs.Lapse
import ChordOverlay.Proofs.Passage
import ChordOverlay.Proofs.FingerRepair
import ChordOverlay.Proofs.Promotion
import ChordOverlay.Proofs.Admission
import ChordOverlay.Proofs.Chunking
import ChordOverlay.Proofs.Digits
import ChordOverlay.Proofs.Bodies
import ChordOverlay.Proofs.WireGrammar
import ChordOverlay.Proofs.Lifetime
import ChordOverlay.Proofs.ViewForm
import ChordOverlay.Proofs.Surroundings
import ChordOverlay.Proofs.FirstFrame
import ChordOverlay.Proofs.Serving
import ChordOverlay.Proofs.OneReply
import ChordOverlay.Proofs.Influence
import ChordOverlay.Proofs.Listeners
import ChordOverlay.Proofs.Delivery
import ChordOverlay.Proofs.Patience
import ChordOverlay.Proofs.Deadlines
import ChordOverlay.Proofs.Caution
import ChordOverlay.Proofs.Blame
import ChordOverlay.Proofs.Elsewhere
import ChordOverlay.Proofs.LocalCall
import ChordOverlay.Proofs.RemoteCall
import ChordOverlay.Proofs.Requests
import ChordOverlay.Proofs.SuccessorWalk
import ChordOverlay.Proofs.DeadFingers
import ChordOverlay.Proofs.Reception
import ChordOverlay.Proofs.FailedJoin
import ChordOverlay.Proofs.Turns
import ChordOverlay.Proofs.Listening
import ChordOverlay.Proofs.Quietude
import ChordOverlay.Proofs.QuietCalls
import ChordOverlay.Proofs.HostedRing
import ChordOverlay.Proofs.Payloads
import ChordOverlay.Proofs.Routing
import ChordOverlay.Proofs.TypedLine
import ChordOverlay.Proofs.EphemeralPorts
import ChordOverlay.Proofs.EncoderLimit
import ChordOverlay.Proofs.Handlers
import ChordOverlay.Proofs.Conversation
