import Beacon.Digest.Keccak
import Beacon.Text.Basic

/-
  Merkle trees over words. A level pairs its nodes from left to right and hashes
  each pair; an odd last node is paired with itself. The root attests to the
  leaves in their order, and an inclusion path leads from one leaf to the root.
-/

namespace Beacon

/-- Why no tree can be built. -/
inductive MerkleError where
  | empty
  | leafTooLong (index length : Nat)
  deriving DecidableEq

def MerkleError.message : MerkleError → String
  | .empty => "cannot build a merkle root over zero leaves"
  | .leafTooLong index length =>
    "leaf " ++ Numeral.decimalText index ++ " is " ++ Numeral.decimalText length ++
      " bytes, longer than a word"

def MerkleError.code : MerkleError → String
  | .empty => "Empty"
  | .leafTooLong _ _ => "LeafTooLong"

/-- One step of an inclusion path: the other node of the pair, and whether it
stands on the right. -/
structure MerkleStep where
  sibling : Word
  isRight : Bool
  deriving DecidableEq

/-- An inclusion path from the leaf at `leafIndex` to the root. -/
structure MerkleProof where
  leafIndex : Nat
  siblings : List MerkleStep
  deriving DecidableEq

namespace Merkle

/-- The level above: each pair hashed, an odd last node with itself. -/
def levelUp : List Word → List Word
  | [] => []
  | [a] => [sha3Pair a a]
  | a :: b :: rest => sha3Pair a b :: levelUp rest

theorem length_levelUp : (level : List Word) → (levelUp level).length = (level.length + 1) / 2
  | [] => by simp [levelUp]
  | [_] => by simp [levelUp]
  | _ :: _ :: rest => by simp [levelUp, length_levelUp rest]; omega

/-- The levels from the given one up to the first with at most one node. -/
def levels (level : List Word) : List (List Word) :=
  if _ : 1 < level.length then level :: levels (levelUp level) else [level]
termination_by level.length
decreasing_by rw [length_levelUp]; omega

def nodeAt (level : List Word) (i : Nat) : Word := level.getD i Word.zero

/-- The node that the node at `i` is paired with; an odd last node is its own. -/
def siblingAt (level : List Word) (i : Nat) : Word :=
  (level[if i % 2 = 0 then i + 1 else i - 1]?).getD (nodeAt level i)

/-- The steps from place `i` of the first level to the last. -/
def pathFrom : List (List Word) → Nat → List MerkleStep
  | [], _ => []
  | [_], _ => []
  | level :: above, i =>
    { sibling := siblingAt level i, isRight := i % 2 = 0 } :: pathFrom above (i / 2)

/-- The node above a node and the sibling of a step. -/
def climb (node : Word) (step : MerkleStep) : Word :=
  if step.isRight then sha3Pair node step.sibling else sha3Pair step.sibling node

/-- Every leaf extended to a word, or the place of the first that is too long. -/
def words (leaves : List Bytes) : Except MerkleError (List Word) :=
  go 0 leaves
where
  go (index : Nat) : List Bytes → Except MerkleError (List Word)
    | [] => .ok []
    | leaf :: rest =>
      match Word.ofShort? leaf with
      | some w => (go (index + 1) rest).map (w :: ·)
      | none => .error (.leafTooLong index leaf.length)

end Merkle

/-- A tree: its levels, leaves first, the root alone in the last. -/
structure MerkleTree where
  levels : List (List Word)
  deriving DecidableEq

namespace MerkleTree

def ofWords (leaves : List Word) : Except MerkleError MerkleTree :=
  if leaves = [] then .error .empty else .ok ⟨Merkle.levels leaves⟩

/-- The tree over leaves of at most a word each. -/
def ofLeaves (leaves : List Bytes) : Except MerkleError MerkleTree :=
  (Merkle.words leaves).bind ofWords

def root (t : MerkleTree) : Word := (t.levels.getLastD []).headD Word.zero

def leafCount (t : MerkleTree) : Nat := (t.levels.headD []).length

/-- The inclusion path of the leaf at a place, if there is one. -/
def proof? (t : MerkleTree) (index : Nat) : Option MerkleProof :=
  if index < t.leafCount then some ⟨index, Merkle.pathFrom t.levels index⟩ else none

end MerkleTree

/-- Whether an inclusion path leads from a leaf to a root. -/
def MerkleProof.verifies (p : MerkleProof) (root leaf : Word) : Bool :=
  p.siblings.foldl Merkle.climb leaf == root

def merkleRoot (leaves : List Word) : Except MerkleError Word :=
  (MerkleTree.ofWords leaves).map MerkleTree.root

end Beacon
