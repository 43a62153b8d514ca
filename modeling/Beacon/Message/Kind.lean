/-
  The kinds of messages between operators and the leader, in the order of a round.
  Each kind travels on a path of its own.
-/

namespace Beacon

inductive Kind where
  | register
  | roundOpened
  | commit
  | commitClosed
  | cos
  | requestSecret
  | secretValue
  deriving DecidableEq

namespace Kind

/-- Every kind, in the order of a round. -/
def all : List Kind :=
  [.register, .roundOpened, .commit, .commitClosed, .cos, .requestSecret, .secretValue]

def name : Kind → String
  | .register => "Register"
  | .roundOpened => "RoundOpened"
  | .commit => "Commit"
  | .commitClosed => "CommitClosed"
  | .cos => "Cos"
  | .requestSecret => "RequestSecret"
  | .secretValue => "SecretValue"

/-- The path on which messages of a kind travel. -/
def path : Kind → String
  | .register => "/register"
  | .roundOpened => "/round-opened"
  | .commit => "/commit"
  | .commitClosed => "/commit-closed"
  | .cos => "/cos"
  | .requestSecret => "/request-secret"
  | .secretValue => "/secret-value"

def ofPath? (path : String) : Option Kind := all.find? (·.path = path)

/-- The tag that starts what is signed of a message. -/
def tag : Kind → String
  | .register => "DRB_REGISTER_V1"
  | .roundOpened => "DRB_ROUND_OPENED_V1"
  | .commit => "DRB_COMMIT_V1"
  | .commitClosed => "DRB_COMMIT_CLOSED_V1"
  | .cos => "DRB_COS_V1"
  | .requestSecret => "DRB_REQUEST_SECRET_V1"
  | .secretValue => "DRB_SECRET_VALUE_V1"

end Kind

end Beacon
