import RegionGuard.Instrument.Pipeline
import RegionGuard.Interchange.Code
import RegionGuard.Json.Reader
set_option autoImplicit false

namespace RegionGuard.CommandLine

structure Result where
  exitCode : UInt8
  log : List LogEntry
  output : Option Json

abbrev File := Option String

/-- Reads a file that holds one JSON value. -/
def decodeFile {α : Type} (d : Decoder α) (file : File) : Outcome α := do
  let text ← Failure.orRaise file .unreadable
  Failure.orRaise ((Json.parse? text).bind d.run) .malformed

/-- The configuration of a run. The file is read before superfluous arguments are refused. -/
def configuration : List File → Outcome Configuration
  | [] => pure .default
  | file :: rest => do
    let c ← decodeFile Configuration.decode file
    if rest.isEmpty then return c else Failure.raise (.request .usage)

def writeReport (c : Configuration) (r : GuardReport) : Logged Unit := do
  for rule in [GuardRule.invariantHoist, .inductionHoist, .fallback] do
    Logged.write .info s!"{rule.text}: {r.count rule} accesses"
  Logged.write .info s!"redundant: {r.redundant} accesses"
  Logged.write .info s!"stack guards: {r.stackGuards.length}"
  if c.debug then
    for d in r.decisions do
      Logged.write .debug
        s!"{d.function} {d.location.text}: {d.access.text} of {d.pointer.text}: {d.rule.text}"

def instrumentFile : List File → Logged Json
  | [] => Failure.raise (.request .usage)
  | file :: rest => do
    let c ← configuration rest
    let p ← decodeFile Program.decode file
    let (report, p) ← p.instrument c
    writeReport c report.guards
    Failure.orRaise p.encode? .malformed

/-- Runs on the contents of the files that the arguments name. -/
def run (files : List File) : Result :=
  match (instrumentFile files).runFrom [] with
  | (.ok j, log) => ⟨0, log, some j⟩
  | (.error (.error e), log) => ⟨1, log ++ [⟨.error, e.message⟩], none⟩
  | (.error (.fatal _), log) => ⟨101, log, none⟩

end RegionGuard.CommandLine
