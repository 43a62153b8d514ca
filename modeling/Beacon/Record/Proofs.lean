import Beacon.Json.Format
import Beacon.Recovery
import Beacon.Merkle
import Beacon.RevealOrder

/-
  The JSON records of commitments and proofs. The order of the fields is the order
  in which they are written.
-/

namespace Beacon

open Fields (need)

def Commitment.fields : Fields [UInt64, Address, Word, Word, Word] :=
  need "round" .uint64 <| need "operator" .address <| need "secret" .word <|
    need "cos" .word <| need "cvs" .word .nil

def Commitment.values (c : Commitment) : Values [UInt64, Address, Word, Word, Word] :=
  (c.round, c.operator, c.secret, c.cos, c.cvs, ())

def Commitment.ofValues : Values [UInt64, Address, Word, Word, Word] → Commitment
  | (round, operator, secret, cos, cvs, ()) => { round, operator, secret, cos, cvs }

namespace Format

def commitment : Format Commitment :=
  Commitment.fields.record Commitment.values Commitment.ofValues

def merkleStep : Format MerkleStep :=
  (need "sibling" .word <| need "is_right" .bool .nil).record
    (fun s => (s.sibling, s.isRight, ()))
    fun (sibling, isRight, ()) => { sibling, isRight }

def merkleProof : Format MerkleProof :=
  (need "leaf_index" .index <| need "siblings" (.list .merkleStep) .nil).record
    (fun p => (p.leafIndex, p.siblings, ()))
    fun (leafIndex, siblings, ()) => { leafIndex, siblings }

def revealOrder : Format RevealOrder :=
  (need "combined" .word <| need "order" (.list .index) .nil).record
    (fun o => (o.combined, o.order, ()))
    fun (combined, order, ()) => { combined, order }

def delayParams : Format DelayParams :=
  (need "modulus" .large <| need "delay" .uint64 .nil).record
    (fun p => (p.modulus, p.delay, ()))
    fun (modulus, delay, ()) => { modulus, delay }

def delayClaim : Format DelayClaim :=
  (need "n" .large <| need "x" .large <| need "y" .large <| need "t" .uint64 <|
    need "v" .large .nil).record
    (fun c => (c.n, c.x, c.y, c.t, c.v, ()))
    fun (n, x, y, t, v, ()) => { n, x, y, t, v }

def delayProof : Format DelayProof :=
  (need "claims" (.list .delayClaim) .nil).record
    (fun p => (p.claims, ()))
    fun (claims, ()) => { claims }

def puzzle : Format Puzzle :=
  (need "round" .uint64 <| need "operator" .address <| need "cvs" .word <|
    need "sealed" .word .nil).record
    (fun p => (p.round, p.operator, p.cvs, p.sealed, ()))
    fun (round, operator, cvs, sealed, ()) => { round, operator, cvs, sealed }

def recovery : Format Recovery :=
  (need "round" .uint64 <| need "operator" .address <| need "secret" .word <|
    need "proof" .delayProof .nil).record
    (fun r => (r.round, r.operator, r.secret, r.proof, ()))
    fun (round, operator, secret, proof, ()) => { round, operator, secret, proof }

end Format

end Beacon
