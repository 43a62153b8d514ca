import Beacon.Address
import Beacon.Commitment
import Beacon.Delay.Claim
import Beacon.Delay.Squaring
import Beacon.Digest.Keccak
import Beacon.Digest.Sha256
import Beacon.Json.Format
import Beacon.Json.Printer
import Beacon.Json.Reader
import Beacon.Json.Strict
import Beacon.Json.Value
import Beacon.Leader.Basic
import Beacon.Leader.Clock
import Beacon.Leader.Driver
import Beacon.Leader.Inbound
import Beacon.Leader.Order
import Beacon.Main
import Beacon.Merkle
import Beacon.Message.Basic
import Beacon.Message.Kind
import Beacon.Message.Packed
import Beacon.Network
import Beacon.Node.Acting
import Beacon.Node.Startup
import Beacon.Number.Binary64
import Beacon.Octets
import Beacon.Operator.Basic
import Beacon.Record.Kept
import Beacon.Record.Proofs
import Beacon.Record.Rounds
import Beacon.Recovery
import Beacon.RevealOrder
import Beacon.Round.Basic
import Beacon.Round.Operation
import Beacon.Round.Registry
import Beacon.Settings.Basic
import Beacon.Settings.Endpoint
import Beacon.Settings.Roles
import Beacon.Signature.Basic
import Beacon.Signature.Curve
import Beacon.Signature.Signer
import Beacon.Store.Disk
import Beacon.Store.Records
import Beacon.Text.Basic
import Beacon.Text.Hex
import Beacon.Time.Instant
import Beacon.Time.Rfc3339
import Beacon.Time.Span
import Beacon.Proofs.Recovery.Verdict
import Beacon.Proofs.Round.Coherence
import Beacon.Proofs.Round.Outcome
import Beacon.Proofs.Delay.Chain
import Beacon.Proofs.Delay.Halving
import Beacon.Proofs.Delay.Completeness
import Beacon.Proofs.Delay.Acceptance
import Beacon.Proofs.Digest.Unrolled
import Beacon.Proofs.Recovery.Seal
import Beacon.Proofs.Recovery.Solving
import Beacon.Proofs.Round.Fault
import Beacon.Proofs.Round.Independence
import Beacon.Proofs.Round.Courses
import Beacon.Proofs.Round.Closing
import Beacon.Proofs.Round.Provenance
import Beacon.Proofs.RevealOrder
import Beacon.Proofs.Round.Honest
import Beacon.Proofs.Record.Kept
import Beacon.Proofs.Operator.Calls
import Beacon.Proofs.Leader.Closing
import Beacon.Proofs.Leader.Refusal
import Beacon.Proofs.Message.Packed
import Beacon.Proofs.Node.Authenticity
import Beacon.Proofs.Record.Formats
import Beacon.Proofs.Store.Holdings
import Beacon.Proofs.Leader.Registration
import Beacon.Proofs.Leader.Numbers
import Beacon.Proofs.Leader.Lineage
import Beacon.Proofs.Round.Shift
import Beacon.Proofs.Round.Turns
import Beacon.Proofs.Round.Remaining
import Beacon.Proofs.Leader.Work
import Beacon.Proofs.Leader.Drivers
import Beacon.Proofs.Leader.Driving
import Beacon.Proofs.Leader.Requests
import Beacon.Proofs.Round.Commuting
import Beacon.Proofs.Round.Finished
import Beacon.Proofs.Round.Commits
import Beacon.Proofs.Recovery.Bases
import Beacon.Proofs.Merkle.Levels
import Beacon.Proofs.Merkle.Inclusion
import Beacon.Proofs.Merkle.Binding
import Beacon.Proofs.Merkle.Soundness
import Beacon.Proofs.Merkle.Filling
import Beacon.Proofs.Leader.FittingOrder
import Beacon.Proofs.Leader.KeptOrder
import Beacon.Proofs.Delay.Answers
import Beacon.Proofs.Delay.Shape
import Beacon.Proofs.Recovery.Untrusted
import Beacon.Proofs.Delay.Transcript
import Beacon.Proofs.Number.Binary64
import Beacon.Proofs.Time.Span
import Beacon.Proofs.Settings.Loading
import Beacon.Proofs.Delay.Stopping
import Beacon.Proofs.Round.Pruning
import Beacon.Proofs.Round.OnFile
import Beacon.Proofs.Leader.Filing
import Beacon.Proofs.Leader.RecordsOnFile
