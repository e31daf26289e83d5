import RegionGuard.Failure
set_option autoImplicit false

namespace RegionGuard

namespace Stateful

variable {σ τ α : Type}

/-- The result of a computation, and the state it leaves behind. -/
def runFrom (x : Stateful σ α) (s : σ) : Outcome α × σ := Id.run (StateT.run (ExceptT.run x) s)

def zoom (part : σ → τ) (put : τ → σ → σ) (x : Stateful τ α) : Stateful σ α :=
  ExceptT.mk fun s =>
    let (o, t) := x.runFrom (part s)
    (o, put t s)

def ask (f : σ → Outcome α) : Stateful σ α := do
  f (← get)

def change (f : σ → Outcome σ) : Stateful σ Unit := do
  set (← f (← get))

def eval (f : σ → Outcome (α × σ)) : Stateful σ α := do
  let (a, s) ← f (← get)
  set s
  return a

/-- Changes the state after an error, and raises it again. A stop is left alone. -/
def onError (x : Stateful σ α) (change : σ → σ) : Stateful σ α :=
  tryCatch x fun f =>
    match f with
    | .error e => do
      modify change
      Failure.raise e
    | .fatal f => Failure.stop f

end Stateful

inductive Severity where
  | error
  | info
  | debug
deriving DecidableEq, Repr

structure LogEntry where
  severity : Severity
  message : String
deriving DecidableEq, Repr

def Severity.text : Severity → String
  | .error => "ERROR"
  | .info => "INFO"
  | .debug => "DEBUG"

def LogEntry.text (e : LogEntry) : String := e.severity.text ++ " - " ++ e.message

abbrev Logged (α : Type) := Stateful (List LogEntry) α

namespace Logged

def write (severity : Severity) (message : String) : Logged Unit :=
  modify fun log => log ++ [⟨severity, message⟩]

end Logged

end RegionGuard
