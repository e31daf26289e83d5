import RegionGuard.Interchange.Decisions
import RegionGuard.Json.Exchange
set_option autoImplicit false

namespace RegionGuard

instance : Accept Ty := { accept := Ty.decode.run }
instance : Accept Value := { accept := Value.decode.run }
instance : Accept Operation := { accept := Operation.decode.run }
instance : Accept Condition := { accept := Condition.decode.run }
instance : Accept Linkage := { accept := Linkage.decode.run }
instance : Accept BinaryOperator := { accept := BinaryOperator.decode.run }
instance : Accept Predicate := { accept := Predicate.decode.run }
instance : Accept CastKind := { accept := CastKind.decode.run }
instance : Accept IndexKind := { accept := IndexKind.decode.run }
instance : Accept Access := { accept := Access.decode.run }

instance : Emit (KeySet Nat) := { emit := fun s => .nats s.keys }
instance : Emit (KeySet String) := { emit := fun s => .strings s.keys }
instance : Emit PlainEdge := { emit := fun e => .nats [e.head, e.tail] }

end RegionGuard
