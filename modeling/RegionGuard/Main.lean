import RegionGuard.CommandLine
import RegionGuard.Json.Writer
set_option autoImplicit false

namespace RegionGuard

def readText? (path : String) : IO (Option String) := do
  try
    return some (← IO.FS.readFile path)
  catch _ =>
    return none

end RegionGuard

def main (arguments : List String) : IO UInt32 := do
  let result := RegionGuard.CommandLine.run (← arguments.mapM RegionGuard.readText?)
  for e in result.log do IO.eprintln e.text
  if let some j := result.output then IO.println (j.pretty "")
  return result.exitCode.toUInt32
