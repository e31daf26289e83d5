import RegionGuard.Guard.Decision
import RegionGuard.Interchange.Code
import RegionGuard.Ledger
import RegionGuard.Region.Index
set_option autoImplicit false

namespace RegionGuard

open Decoder (choice record tags)

namespace Protection

def encode (p : Protection) : Json := .object [("bits", .ofNat p.bits.toNat)]

def decode : Decoder Protection := record ["bits"] fun r => do
  let bits ← r.required "bits" (.natBelow 0x100000000)
  return ⟨UInt32.ofNat bits⟩

end Protection

namespace Access

def tag : Access → String
  | .read => "Read"
  | .write => "Write"

def decode : Decoder Access := tags ([Access.read, .write].map fun a => (a.tag, a))

end Access

namespace Fault

def encode (f : Fault) : Json :=
  .object [("address", .ofWord f.address), ("access", .string f.access.tag),
    ("thread", .ofOption .ofWord f.thread)]

def decode : Decoder Fault := record ["address", "access", "thread"] fun r => do
  return ⟨← r.required "address" .word, ← r.required "access" Access.decode,
    ← r.optional "thread" .word⟩

end Fault

namespace Region

def encode (r : Region) : Json :=
  .object [("start", .ofWord r.start), ("physical_start", .ofWord r.physicalStart),
    ("length", .ofWord r.length), ("protection", r.protection.encode),
    ("requested", r.requested.encode)]

def decode : Decoder Region :=
  record ["start", "physical_start", "length", "protection", "requested"] fun r => do
    return ⟨← r.required "start" .word, ← r.required "physical_start" .word,
      ← r.required "length" .word, ← r.required "protection" Protection.decode,
      ← r.required "requested" Protection.decode⟩

end Region

namespace IndexKind

def decode : Decoder IndexKind := tags ([IndexKind.keyed, .sorted].map fun k => (k.text, k))

def encodeSettings (k : IndexKind) : Json := .object [("index", .string k.text)]

def decodeSettings : Decoder IndexKind := record ["index"] fun r => r.defaulted "index" .keyed decode

end IndexKind

namespace Origin

def encode : Origin → Json
  | .heap => .string "Heap"
  | .global id => .tagged "Global" (.ofWord id)
  | .stack => .string "Stack"

def decode : Decoder Origin := choice
  [("Heap", .unit .heap), ("Global", .content (Decoder.word.map .global)), ("Stack", .unit .stack)]

end Origin

namespace Allocation

def encode (a : Allocation) : Json :=
  .object [("start", .ofWord a.start), ("length", .ofWord a.length), ("kind", a.origin.encode)]

def decode : Decoder Allocation := record ["start", "length", "kind"] fun r => do
  return ⟨← r.required "start" .word, ← r.required "length" .word, ← r.required "kind" Origin.decode⟩

end Allocation

namespace Redundancy

def tag : Redundancy → String
  | .alreadyValidated => "AlreadyValidated"
  | .stackLocal => "StackLocal"
  | .global => "Global"
  | .freshAllocation => "FreshAllocation"
  | .derived => "Derived"
  | .mustAlias => "MustAlias"
  | .argument => "Argument"

def all : List Redundancy :=
  [.alreadyValidated, .stackLocal, .global, .freshAllocation, .derived, .mustAlias, .argument]

def decode : Decoder Redundancy := tags (all.map fun r => (r.tag, r))

end Redundancy

namespace GuardRule

def encode : GuardRule → Json
  | .redundant reason => .tagged "Redundant" (.string reason.tag)
  | .invariantHoist => .string "InvariantHoist"
  | .inductionHoist => .string "InductionHoist"
  | .fallback => .string "Fallback"

def decode : Decoder GuardRule := choice
  [("Redundant", .content (Redundancy.decode.map .redundant)),
    ("InvariantHoist", .unit .invariantHoist), ("InductionHoist", .unit .inductionHoist),
    ("Fallback", .unit .fallback)]

end GuardRule

namespace GuardPlacement

def encode : GuardPlacement → Json
  | .omitted => .string "Omitted"
  | .before l => .tagged "Before" l.encode
  | .preheader header block =>
    .tagged "Preheader" (.object [("header", .ofNat header), ("preheader", .ofNat block)])

def decode : Decoder GuardPlacement := choice
  [("Omitted", .unit .omitted), ("Before", .content (Location.decode.map .before)),
    ("Preheader", .content (record ["header", "preheader"] fun r => do
      return .preheader (← r.required "header" .nat) (← r.required "preheader" .nat)))]

end GuardPlacement

namespace RangePlan

def encodeCast : CastKind × Ty → Json
  | (kind, ty) => .array [.string kind.tag, ty.encode]

def encode (p : RangePlan) : Json :=
  .object [("source", p.source.encode), ("base", p.base.encode),
    ("indices", .ofList Value.encode p.indices), ("position", .ofNat p.position),
    ("cast", .ofOption encodeCast p.cast), ("start", p.start.encode), ("step", .integer p.step),
    ("predicate", .string p.predicate.tag), ("bound", p.bound.encode),
    ("overshoot", .ofNat p.overshoot), ("top_tested", .bool p.topTested)]

def decode : Decoder RangePlan :=
  record
    ["source", "base", "indices", "position", "cast", "start", "step", "predicate", "bound",
      "overshoot", "top_tested"] fun r => do
    return ⟨← r.required "source" Ty.decode, ← r.required "base" Value.decode,
      ← r.required "indices" (.list Value.decode), ← r.required "position" .nat,
      ← r.optional "cast" (.pair CastKind.decode Ty.decode), ← r.required "start" Value.decode,
      ← r.required "step" .signed, ← r.required "predicate" Predicate.decode,
      ← r.required "bound" Value.decode, ← r.required "overshoot" .nat,
      ← r.required "top_tested" .bool⟩

end RangePlan

namespace GuardShape

def encode : GuardShape → Json
  | .single => .string "Single"
  | .range plan => .tagged "Range" plan.encode

def decode : Decoder GuardShape := choice
  [("Single", .unit .single), ("Range", .content (RangePlan.decode.map .range))]

end GuardShape

namespace GuardDecision

def encode (d : GuardDecision) : Json :=
  .object [("function", .string d.function), ("location", d.location.encode),
    ("pointer", d.pointer.encode), ("access", .string d.access.tag), ("rule", d.rule.encode),
    ("placement", d.placement.encode), ("shape", d.shape.encode)]

def decode : Decoder GuardDecision :=
  record ["function", "location", "pointer", "access", "rule", "placement", "shape"] fun r => do
    return ⟨← r.required "function" .string, ← r.required "location" Location.decode,
      ← r.required "pointer" Value.decode, ← r.required "access" Access.decode,
      ← r.required "rule" GuardRule.decode, ← r.required "placement" GuardPlacement.decode,
      ← r.required "shape" GuardShape.decode⟩

end GuardDecision

namespace StackGuardDecision

def encodePlacement : StackGuardPlacement → Json
  | .functionEntry => .string "FunctionEntry"
  | .beforeCall l => .tagged "BeforeCall" l.encode

def encode (d : StackGuardDecision) : Json :=
  .object [("function", .string d.function), ("placement", encodePlacement d.placement),
    ("frame_size", .ofWord d.frameSize)]

end StackGuardDecision

end RegionGuard
