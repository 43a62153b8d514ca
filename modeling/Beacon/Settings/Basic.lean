import Beacon.Address
import Beacon.Delay.Squaring
import Beacon.Settings.Endpoint
import Beacon.Text.Basic
import Beacon.Time.Span

/-
  Settings of a node. They come from variables `DRB_*`, each read by the rules of
  its kind in a fixed order, on top of defaults, and are then checked together.

  The delay must suit the windows: one evaluation of the delay function fits into
  the commit window, so that an operator can seal its secret in time, and two
  outlast the commit and disclosure windows together, so that nobody can open a
  seal before the order of reveals is fixed.
-/

namespace Beacon

/-- Which side of the protocol a node plays. -/
inductive Role where
  | leader
  | operator
  deriving DecidableEq

namespace Role

def name : Role → String
  | .leader => "Leader"
  | .operator => "Operator"

/-- The role a text names, in letters of either case. -/
def parse (s : String) : Option Role :=
  match s.toLower with
  | "leader" => some .leader
  | "operator" => some .operator
  | "regular" => some .operator
  | _ => none

end Role

/-- Why settings are refused. `spanTooLong` stands for arithmetic on spans that
has no result. -/
inductive SettingsError where
  | invalid (key value : String)
  | missing (key : String)
  | spanTooLong
  deriving DecidableEq

def SettingsError.message : SettingsError → String
  | .invalid key value => "invalid value for " ++ key ++ ": " ++ value
  | .missing key => key ++ " is required for this role"
  | .spanTooLong => "span of time too long"

def SettingsError.code : SettingsError → String
  | .invalid _ _ => "Invalid"
  | .missing _ => "Missing"
  | .spanTooLong => "SpanTooLong"

structure Settings where
  role : Role
  bindAddress : Endpoint
  advertised : String
  dataDirectory : String
  privateKey : Option String
  leaderAddress : Option Address
  leaderPeer : Option String
  commitWindow : Span
  cosWindow : Span
  revealTimeout : Span
  roundInterval : Span
  delay : DelayParams
  squaringRate : UInt64
  maxConnections : UInt64
  deriving DecidableEq

/-- A modulus of 2048 bits that nobody is known to have factored. -/
def DelayParams.standardModulus : Nat :=
  0xc7970ceedcc3b0754490201a7aa613cd73911081c790f5f1a8726f463550bb5b7ff0db8e1ea1189ec72f93d1650011bd721aeeacc2acde32a04107f0648c2813a31f5b0b7765ff8b44b4b6ffc93384b646eb09c7cf5e8592d40ea33c80039f35b4f14a04b51f7bfd781be4d1673164ba8eb991c2c4d730bbbe35f592bdef524af7e8daefd26c66fc02c479af89d64d373f442709439de66ceb955f3ea37d5159f6135809f85334b5cb1813addc80cd05609f10ac6a95ad65872c909525bdad32bc729592642920f24c61dc5b3c3b7923e56b16a4d9d373d8721f24a3fc0f1b3131f55615172866bccc30f95054c824e733a5eb6817f7bc16399d48c6361cc7e5

/-- The delay that is used unless another is set. -/
def DelayParams.standard : DelayParams := ⟨standardModulus, 10000000⟩

namespace Settings

/-- The settings before any variable is read. -/
def standard : Settings :=
  let bindAddress : Endpoint := ⟨.v4 (Octets.zero 4), 9600⟩
  { role := .operator
    bindAddress
    advertised := bindAddress.text
    dataDirectory := "./drb-data"
    privateKey := none
    leaderAddress := none
    leaderPeer := none
    commitWindow := Span.ofSeconds 60
    cosWindow := Span.ofSeconds 15
    revealTimeout := Span.ofSeconds 10
    roundInterval := Span.ofSeconds 120
    delay := .standard
    squaringRate := 225000
    maxConnections := 1000 }

/-! ## Checks -/

/-- The time of one evaluation at a number of squarings per second. -/
def evaluationTime (s : Settings) (rate : UInt64) : Option Span :=
  Span.ofRate? s.delay.delay rate

def invalidDelay (s : Settings) : SettingsError :=
  .invalid "DRB_VDF_DELAY" (Numeral.decimalText s.delay.delay.toNat)

/-- A span, unless it would be too long. -/
def spanOrRefuse (d : Option Span) : Except SettingsError Span :=
  match d with
  | some d => .ok d
  | none => .error .spanTooLong

/-- Checks the delay against the windows on hardware of a number of squarings per
second. -/
def checkDelay (s : Settings) (rate : UInt64) : Except SettingsError Unit := do
  let once ← spanOrRefuse (s.evaluationTime rate)
  if s.commitWindow.le once then throw s.invalidDelay
  let twice ← spanOrRefuse once.double?
  let windows ← spanOrRefuse (s.commitWindow.add? s.cosWindow)
  if twice.le windows then throw s.invalidDelay

/-- Checks the modulus and the delay by themselves. -/
def checkParams (s : Settings) : Except SettingsError Unit :=
  match DelayParams.check s.delay.modulus s.delay.delay with
  | .ok _ => .ok ()
  | .error .invalidModulus => .error (.invalid "DRB_VDF_MODULUS" (Numeral.decimalText s.delay.modulus))
  | .error _ => .error s.invalidDelay

/-- Checks that an operator knows its leader. -/
def checkLeader (s : Settings) : Except SettingsError Unit :=
  if s.leaderAddress.isNone then .error (.missing "DRB_LEADER_ADDRESS")
  else if s.leaderPeer.isNone then .error (.missing "DRB_LEADER_PEER")
  else .ok ()

def check (s : Settings) : Except SettingsError Unit := do
  s.checkParams
  if s.squaringRate = 0 then throw (.invalid "DRB_VDF_SQUARINGS_PER_SEC" "0")
  s.checkDelay s.squaringRate
  if s.roundInterval.nanoseconds = 0 then throw (.invalid "DRB_ROUND_INTERVAL_SECS" "0")
  if s.role = .operator then s.checkLeader

/-! ## Variables -/

/-- The values of the variables that are set. -/
abbrev Variables := String → Option String

/-- The names of all variables that settings are read from. -/
def variableNames : List String :=
  ["DRB_ROLE", "DRB_BIND_ADDR", "DRB_ADVERTISE_ADDR", "DRB_DATA_DIR", "DRB_PRIVATE_KEY",
    "DRB_LEADER_ADDRESS", "DRB_LEADER_PEER", "DRB_COMMIT_WINDOW_SECS", "DRB_COS_WINDOW_SECS",
    "DRB_REVEAL_TIMEOUT_SECS", "DRB_ROUND_INTERVAL_SECS", "DRB_VDF_MODULUS", "DRB_VDF_DELAY",
    "DRB_VDF_SQUARINGS_PER_SEC", "DRB_MAX_CONNECTIONS"]

/-- A number above one, in decimal or behind `0x` in hexadecimal, with blanks
around it. -/
def parseModulus (s : String) : Option Nat :=
  let n := match Text.trim s.toList with
    | '0' :: 'x' :: ds => Numeral.parseLarge 16 ds
    | ds => Numeral.parseLarge 10 ds
  n.filter (1 < ·)

/-- The value of a variable read by a rule, or the default if it is not set. -/
def read {α : Type} (vars : Variables) (key : String) (rule : String → Option α) (default : α) :
    Except SettingsError α :=
  match vars key with
  | none => .ok default
  | some v =>
    match rule v with
    | some a => .ok a
    | none => .error (.invalid key v)

def parseSeconds (s : String) : Option Span := (Numeral.parseUInt64 s).map Span.ofSeconds

/-- The settings that variables make, unchecked. A bind address is also what is
advertised, unless that is set too. -/
def ofVariables (vars : Variables) : Except SettingsError Settings := do
  let s := standard
  let role ← read vars "DRB_ROLE" Role.parse s.role
  let bindAddress ← read vars "DRB_BIND_ADDR" Endpoint.parse s.bindAddress
  let leaderAddress ←
    read vars "DRB_LEADER_ADDRESS" (fun v => (Address.parse v).toOption.map some) s.leaderAddress
  let commitWindow ← read vars "DRB_COMMIT_WINDOW_SECS" parseSeconds s.commitWindow
  let cosWindow ← read vars "DRB_COS_WINDOW_SECS" parseSeconds s.cosWindow
  let revealTimeout ← read vars "DRB_REVEAL_TIMEOUT_SECS" parseSeconds s.revealTimeout
  let roundInterval ← read vars "DRB_ROUND_INTERVAL_SECS" parseSeconds s.roundInterval
  let modulus ← read vars "DRB_VDF_MODULUS" parseModulus s.delay.modulus
  let delay ← read vars "DRB_VDF_DELAY" Numeral.parseUInt64 s.delay.delay
  let squaringRate ← read vars "DRB_VDF_SQUARINGS_PER_SEC" Numeral.parseUInt64 s.squaringRate
  let maxConnections ← read vars "DRB_MAX_CONNECTIONS" Numeral.parseUInt64 s.maxConnections
  return {
    role, bindAddress
    advertised := (vars "DRB_ADVERTISE_ADDR").getD bindAddress.text
    dataDirectory := (vars "DRB_DATA_DIR").getD s.dataDirectory
    privateKey := (vars "DRB_PRIVATE_KEY").filter (· ≠ "")
    leaderAddress
    leaderPeer := vars "DRB_LEADER_PEER"
    commitWindow, cosWindow, revealTimeout, roundInterval
    delay := ⟨modulus, delay⟩
    squaringRate, maxConnections }

/-- The settings that variables make, checked. -/
def load (vars : Variables) : Except SettingsError Settings := do
  let s ← ofVariables vars
  s.check
  return s

end Settings

end Beacon
