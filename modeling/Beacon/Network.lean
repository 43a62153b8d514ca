import Beacon.Message.Basic

/-
  A network of named peers inside one process. A message to a peer that joined is
  delivered at once; one to a peer that never joined or left, or that takes nothing
  more, is refused.
-/

namespace Beacon

/-- Whether a peer still takes messages. -/
inductive PeerState where
  | joined
  | closed
  deriving DecidableEq

/-- A message that reached a peer. -/
structure Delivery where
  peer : String
  kind : Kind
  payload : Payload
  deriving DecidableEq

/-- Why a message does not reach a peer. -/
inductive NetworkError where
  | unknownPeer (peer : String)
  | closed (peer : String)
  deriving DecidableEq

def NetworkError.message : NetworkError → String
  | .unknownPeer peer => "unknown peer: " ++ peer
  | .closed peer => "peer " ++ peer ++ " closed"

def NetworkError.code : NetworkError → String
  | .unknownPeer _ => "UnknownPeer"
  | .closed _ => "Closed"

/-- The peers, and what they were sent, latest last. -/
structure Network where
  peers : List (String × PeerState)
  delivered : List Delivery
  deriving DecidableEq

namespace Network

def empty : Network := ⟨[], []⟩

/-- Whether a peer takes messages, if it is known. -/
def find? (n : Network) (peer : String) : Option PeerState :=
  (n.peers.find? (·.1 = peer)).map (·.2)

def leave (n : Network) (peer : String) : Network :=
  { n with peers := n.peers.filter (·.1 ≠ peer) }

/-- The network with a peer that takes messages, whatever it was before. -/
def join (n : Network) (peer : String) : Network :=
  { n with peers := (peer, .joined) :: (n.leave peer).peers }

/-- The network with a known peer that takes nothing more. -/
def close (n : Network) (peer : String) : Network :=
  { n with peers := n.peers.map fun p => if p.1 = peer then (peer, .closed) else p }

/-- Whether a message can reach a peer. -/
def reach (n : Network) (peer : String) : Except NetworkError Unit :=
  match n.find? peer with
  | none => .error (.unknownPeer peer)
  | some .closed => .error (.closed peer)
  | some .joined => .ok ()

def send (n : Network) (peer : String) (kind : Kind) (payload : Payload) :
    Network × Except NetworkError Unit :=
  match n.reach peer with
  | .error e => (n, .error e)
  | .ok () => ({ n with delivered := n.delivered ++ [⟨peer, kind, payload⟩] }, .ok ())

/-- Sends a message to a peer, as JSON. -/
def sendMessage {k : Kind} (n : Network) (peer : String) (m : Message k) :
    Network × Except NetworkError Unit :=
  n.send peer k (.text m.json)

end Network

end Beacon
