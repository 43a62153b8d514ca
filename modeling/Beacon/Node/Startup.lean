import Beacon.Settings.Basic
import Beacon.Signature.Signer

/-
  Starting a node: its settings are read from variables and checked, and its private
  key is read if one is set. A node without one uses the key in its data directory.
-/

namespace Beacon

inductive StartupError where
  | settings (cause : SettingsError)
  | privateKey (cause : AuthError)
  deriving DecidableEq

def StartupError.message : StartupError → String
  | .settings cause => "invalid configuration: " ++ cause.message
  | .privateKey cause => "invalid DRB_PRIVATE_KEY: " ++ cause.message

/-- A node that is ready to start: its settings, and its signer if a key is set. -/
structure Startup where
  settings : Settings
  signer : Option Signer

namespace Startup

def signerOf (s : Settings) : Except StartupError (Option Signer) :=
  match s.privateKey with
  | none => .ok none
  | some key => ((Signer.parse key).map some).mapError .privateKey

def ofVariables (vars : Settings.Variables) : Except StartupError Startup := do
  let settings ← (Settings.load vars).mapError .settings
  return { settings, signer := ← signerOf settings }

/-- What is known of the node's address. -/
def identity (s : Startup) : String :=
  match s.signer with
  | some signer => "address: " ++ signer.address.text
  | none => "key in " ++ s.settings.dataDirectory

/-- The size of the modulus and the number of squarings. -/
def delayText (s : Startup) : String :=
  "delay: " ++ Numeral.decimalText (s.settings.delay.modulus.log2 + 1) ++ "-bit modulus, T = " ++
    Numeral.decimalText s.settings.delay.delay.toNat

/-- What a node says of itself when it starts. -/
def report (s : Startup) : List String :=
  ["role: " ++ s.settings.role.name ++ ", " ++ s.identity, s.delayText,
    "serving on " ++ s.settings.bindAddress.text ++ " as " ++ s.settings.advertised]

end Startup

end Beacon
