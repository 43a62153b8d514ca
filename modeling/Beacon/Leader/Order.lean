import Beacon.Node.Acting

/-
  The order of reveals across restarts. It is determined once for a round and kept
  on disk; a kept order is used again only if it was determined from the very same
  disclosed first stages.
-/

namespace Beacon

namespace OrderRecord

/-- Whether a record belongs to these commits and these disclosed first stages: the
root and the combined value agree, and each place names the operator that it
stands for. -/
def fits (o : OrderRecord) (merkleRoot combined : Word) (disclosed : List (Address × Word)) : Bool :=
  o.merkleRoot = merkleRoot && o.combined = combined && o.order.length = disclosed.length &&
    o.operators.length = disclosed.length &&
    (o.order.zip o.operators).all fun e => disclosed[e.1]?.map (·.1) = some e.2

/-- The record of the order that the disclosed first stages determine. -/
def determine (round : UInt64) (merkleRoot : Word) (disclosed : List (Address × Word)) :
    Except OrderError OrderRecord :=
  (RevealOrder.determine (disclosed.map (·.2))).map fun o =>
    { round
      combined := o.combined
      order := o.order
      operators := o.order.filterMap fun i => disclosed[i]?.map (·.1)
      merkleRoot }

/-- The order of reveals of a round: the kept one if it fits, and else a new one,
which is kept. -/
def keptOrNew (round : UInt64) (merkleRoot : Word) (disclosed : List (Address × Word)) :
    Acting Disk OrderRecord := do
  let disk ← Acting.state
  match ← Acting.give .store (disk.loadOrder round) with
  | some kept =>
    if kept.fits merkleRoot (RevealOrder.combine (disclosed.map (·.2))) disclosed then return kept
    else renew
  | none => renew
where
  /-- Determines the order and keeps it. -/
  renew : Acting Disk OrderRecord := do
    let o ← Acting.give .order (determine round merkleRoot disclosed)
    Acting.ofOperation .store (·.saveOrder o)
    return o

end OrderRecord

end Beacon
