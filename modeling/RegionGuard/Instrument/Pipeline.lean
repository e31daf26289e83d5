import RegionGuard.Flow.Preheader
import RegionGuard.Flow.WellFormed
import RegionGuard.Guard.Injection
import RegionGuard.Instrument.Allocations
set_option autoImplicit false

namespace RegionGuard

structure InstrumentationReport where
  preheaders : Nat
  allocation : AllocationReport
  guards : GuardReport
deriving DecidableEq, Repr

namespace InstrumentationReport

def summary (r : InstrumentationReport) (p : Program) : String :=
  s!"instrumented {p.definedNames.length} functions: {r.preheaders} preheaders, "
    ++ s!"{r.allocation.allocations} allocations, {r.allocation.frees} frees, "
    ++ s!"{r.allocation.globals} globals, {r.allocation.escapes} escapes, {r.guards.injected} guards"

end InstrumentationReport

namespace Program

/-- Gives the loops of a program preheaders, and answers how many were missing. -/
def simplifyLoops (p : Program) (c : Configuration) : Outcome (Nat × Program) := do
  let (counts, p) ← p.editFunctions fun f => if c.instruments f then f.simplifyLoops else pure (0, f)
  return (counts.foldl (· + ·) 0, p)

def verifyResult (p : Program) : Logged Unit :=
  match p.verify with
  | .error (.error e) => do
    Logged.write .error ("instrumented program does not verify: " ++ e.message)
    Failure.raise e
  | o => (o : Outcome Unit)

def instrument (p : Program) (c : Configuration) : Logged (InstrumentationReport × Program) := do
  if c.verification then p.verify
  let (preheaders, p) ← (p.declareHooks c.hooks).simplifyLoops c
  let (allocation, p) ← p.reportAllocations c
  let (guards, p) ← p.placeGuards c
  if c.verification then p.verifyResult
  let report : InstrumentationReport := ⟨preheaders, allocation, guards⟩
  Logged.write .info (report.summary p)
  return (report, p)

end Program

end RegionGuard
