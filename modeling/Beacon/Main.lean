import Beacon.Node.Startup

/-
  The command line: checks the settings in the environment and says what node they
  describe. The exit code is 1 if they describe none.
-/

namespace Beacon

def environment : IO Settings.Variables := do
  let values ← Settings.variableNames.mapM fun name => return (name, ← IO.getEnv name)
  return fun name => (values.find? (·.1 = name)).bind (·.2)

end Beacon

/-- Reports the node that the environment describes, or why there is none. -/
def main : IO UInt32 := do
  match Beacon.Startup.ofVariables (← Beacon.environment) with
  | .ok node =>
    node.report.forM (IO.println ·)
    return 0
  | .error e =>
    IO.eprintln ("Error: " ++ e.message)
    return 1
