import Beacon.Record.Proofs
import Beacon.Round.Basic

/-
  The JSON records of rounds: phases and standings by name, the record of one
  operator, and the outcome.
-/

namespace Beacon.Format

open Fields (need)

def phase : Format Phase := name Phase.all Phase.name

def standing : Format Standing := name Standing.all Standing.name

/-- One operator's part in a round. What is not known yet may be left out. -/
def participant : Format Participant :=
  (need "operator" .address <| need "commit_index" .index <| need "cvs" .word <|
    need "sealed" .word <| .cons "cos" (.optional .word) (some none) <|
    .cons "secret" (.optional .word) (some none) <| need "state" .standing <|
    .cons "recovery" (.optional .recovery) (some none) .nil).record
    (fun p => (p.operator, p.commitIndex, p.cvs, p.sealed, p.cos, p.secret, p.standing,
      p.recovery, ()))
    fun (operator, commitIndex, cvs, sealed, cos, secret, standing, recovery, ()) =>
      { operator, commitIndex, cvs, sealed, cos, secret, standing, recovery }

/-- The outcome of a round. The combined value may be left out. -/
def roundOutcome : Format RoundOutcome :=
  (need "round" .uint64 <| need "merkle_root" .word <|
    .cons "combined" (.optional .word) (some none) <|
    need "reveal_order" (.list .address) <|
    need "secrets" (.list (.pair .address .wordBytes)) <|
    need "recoveries" (.list .recovery) <| need "faulted" (.list .address) <|
    need "random_value" .word .nil).record
    (fun o => (o.round, o.merkleRoot, o.combined, o.revealOrder, o.secrets, o.recoveries,
      o.faulted, o.randomValue, ()))
    fun (round, merkleRoot, combined, revealOrder, secrets, recoveries, faulted, randomValue,
        ()) =>
      { round, merkleRoot, combined, revealOrder, secrets, recoveries, faulted, randomValue }

end Beacon.Format
