import Beacon.Settings.Basic

/-
  What each role takes from the settings of a node.
-/

namespace Beacon

/-- What a leader needs to know: its windows and the delay function. -/
structure LeaderSettings where
  commitWindow : Span
  cosWindow : Span
  revealTimeout : Span
  delay : DelayParams
  deriving DecidableEq

/-- What an operator needs to know: its leader, where it can be reached itself, and
the delay function. -/
structure OperatorSettings where
  leaderAddress : Address
  leaderPeer : String
  advertised : String
  delay : DelayParams
  deriving DecidableEq

namespace Settings

def forLeader (s : Settings) : LeaderSettings :=
  { commitWindow := s.commitWindow
    cosWindow := s.cosWindow
    revealTimeout := s.revealTimeout
    delay := s.delay }

/-- The settings of an operator, if its leader is known. -/
def forOperator (s : Settings) : Except SettingsError OperatorSettings :=
  match s.leaderAddress, s.leaderPeer with
  | none, _ => .error (.missing "DRB_LEADER_ADDRESS")
  | some _, none => .error (.missing "DRB_LEADER_PEER")
  | some leaderAddress, some leaderPeer =>
    .ok { leaderAddress, leaderPeer, advertised := s.advertised, delay := s.delay }

end Settings

end Beacon
