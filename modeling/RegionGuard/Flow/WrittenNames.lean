import RegionGuard.Flow.Dataflow
import RegionGuard.Flow.DefUse
set_option autoImplicit false

namespace RegionGuard.WrittenNames

def written (f : Function) : List String :=
  f.located.filterMap fun (_, i) => i.operation.written?.map (·.name)

def transfer (forbidden : Option String) (l : Location) (i : Instruction) (s : KeySet String) :
    Outcome (KeySet String) :=
  match i.operation.written? with
  | some v =>
    if forbidden = some v.name then Failure.raise (.analysis (.stopped l)) else pure (s.add v.name)
  | none => pure s

def onSomePath (f : Function) (boundary : List String) (forbidden : Option String) :
    DataflowProblem (KeySet String) where
  transfer := transfer forbidden
  join := fun s t => pure (t.keys.foldl KeySet.add s)
  boundary := KeySet.ofKeys boundary
  top := ∅
  height := (KeySet.ofKeys (boundary ++ written f)).size

def onEveryPath (f : Function) (boundary : List String) (forbidden : Option String) :
    DataflowProblem (KeySet String) where
  transfer := transfer forbidden
  join := fun s t => pure (s.filter fun k _ => t.contains k)
  boundary := KeySet.ofKeys boundary
  top := KeySet.ofKeys (boundary ++ written f)
  height := (KeySet.ofKeys (boundary ++ written f)).size

end RegionGuard.WrittenNames
