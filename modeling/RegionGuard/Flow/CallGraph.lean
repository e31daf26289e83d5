import RegionGuard.IL.Program
set_option autoImplicit false

namespace RegionGuard

structure CallSite where
  caller : String
  location : Location
  arguments : List Value
deriving DecidableEq, Repr

/-- The call sites in program order, each with the function called, and the functions whose address is
used as a value. -/
structure CallGraph where
  sites : List (String × CallSite)
  addressTaken : KeySet String

namespace CallGraph

def siteOf (caller : String) (l : Location) (i : Instruction) : Option (String × CallSite) :=
  match i.operation with
  | .call _ (.direct callee) arguments => some (callee, ⟨caller, l, arguments⟩)
  | _ => none

def functionsAmong (values : List Value) : List String :=
  values.filterMap fun v =>
    match v with
    | .function name => some name
    | _ => none

def ofProgram (p : Program) : CallGraph :=
  let functions := p.functions.values
  ⟨functions.flatMap fun f => f.located.filterMap fun (l, i) => siteOf f.name l i,
    KeySet.ofKeys
      (functions.flatMap fun f => f.located.flatMap fun (_, i) => functionsAmong i.operation.reads)⟩

def sitesOf (g : CallGraph) (callee : String) : List CallSite :=
  (g.sites.filter (·.1 = callee)).map (·.2)

def isAddressTaken (g : CallGraph) (function : String) : Bool := g.addressTaken.contains function

def callersAreKnown (g : CallGraph) (f : Function) : Bool :=
  !f.linkage.isExternallyVisible && !g.isAddressTaken f.name && !(g.sitesOf f.name).isEmpty

end CallGraph

end RegionGuard
