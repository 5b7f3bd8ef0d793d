import ApproxQuery.CommandLine

/-! The program: arguments, environment and file in, two streams and an exit code out. -/
namespace ApproxQuery.Program

/-- The content of a file, or why it cannot be read. -/
def readContent (path : String) : IO (Except String String) := do
  try
    return .ok (← IO.FS.readFile path)
  catch
    | .noFileOrDirectory _ _ _ => return .error "No such file or directory (os error 2)"
    | .permissionDenied _ _ _ => return .error "Permission denied (os error 13)"
    | .inappropriateType _ _ _ => return .error "Is a directory (os error 21)"
    | .userError _ => return .error "stream did not contain valid UTF-8"
    | e => return .error (toString e)

/-- The settings of the environment. -/
def readConfig : IO Config := do
  let values ← Config.variableNames.filterMapM fun name => do
    return (← IO.getEnv name).map fun value => (name, value)
  return Config.ofEnvironment fun name => values.lookup name

/-- Eight random hexadecimal digits. -/
def drawTag : IO String := do
  let digits ← (List.range 8).mapM fun _ => IO.rand 0 15
  return String.ofList (digits.map Json.hexDigit)

end ApproxQuery.Program

open ApproxQuery ApproxQuery.Program in
def main (arguments : List String) : IO UInt32 := do
  let outcome ← match Command.ofArguments arguments with
    | some c => do
      pure (c.execute (← readConfig) (← drawTag) (← readContent c.path))
    | none => pure Outcome.unusable
  IO.print outcome.output
  IO.eprint outcome.errors
  return outcome.code.toUInt32
