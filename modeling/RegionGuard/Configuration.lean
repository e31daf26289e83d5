import RegionGuard.Table
set_option autoImplicit false

namespace RegionGuard

inductive AllocatorMode where
  | user
  | kernel
deriving DecidableEq, Repr

inductive AllocatorKind where
  | malloc
  | calloc
  | realloc
deriving DecidableEq, Repr

structure Hooks where
  notifyMalloc : String
  notifyCalloc : String
  notifyRealloc : String
  notifyFree : String
  notifyGlobal : String
  notifyEscape : String
  guardAddress : String
  guardCalleeStack : String
  pinPointer : String
deriving DecidableEq, Repr

structure Configuration where
  globals : Bool
  mallocs : Bool
  frees : Bool
  escapes : Bool
  protection : Bool
  restriction : Bool
  verification : Bool
  optimizeGuards : Bool
  allocatorMode : AllocatorMode
  debug : Bool
  hooks : Hooks
  globalInitFunction : String
  skipFunctions : KeySet String
deriving DecidableEq

namespace AllocatorMode

def text : AllocatorMode → String
  | .user => "User"
  | .kernel => "Kernel"

def allocators : AllocatorMode → List (String × AllocatorKind)
  | .user =>
    [("malloc", .malloc), ("calloc", .calloc), ("realloc", .realloc), ("_Znwm", .malloc),
      ("_Znam", .malloc)]
  | .kernel => [("kmem_malloc", .malloc), ("kmem_mallocz", .malloc), ("kmem_realloc", .realloc)]

def deallocators : AllocatorMode → List String
  | .user => ["free", "_ZdlPv", "_ZdaPv"]
  | .kernel => ["kmem_free"]

end AllocatorMode

def AllocatorKind.text : AllocatorKind → String
  | .malloc => "Malloc"
  | .calloc => "Calloc"
  | .realloc => "Realloc"

namespace Hooks

def default : Hooks where
  notifyMalloc := "carat_notify_malloc"
  notifyCalloc := "carat_notify_calloc"
  notifyRealloc := "carat_notify_realloc"
  notifyFree := "carat_notify_free"
  notifyGlobal := "carat_notify_global"
  notifyEscape := "carat_notify_escape"
  guardAddress := "carat_guard_address"
  guardCalleeStack := "carat_guard_callee_stack"
  pinPointer := "carat_pin_pointer"

def names (h : Hooks) : List String :=
  [h.notifyMalloc, h.notifyCalloc, h.notifyRealloc, h.notifyFree, h.notifyGlobal, h.notifyEscape,
    h.guardAddress, h.guardCalleeStack, h.pinPointer]

end Hooks

namespace Configuration

def default : Configuration where
  globals := true
  mallocs := true
  frees := true
  escapes := true
  protection := true
  restriction := true
  verification := true
  optimizeGuards := true
  allocatorMode := .user
  debug := false
  hooks := .default
  globalInitFunction := "main"
  skipFunctions := ∅

def allocator? (c : Configuration) (function : String) : Option AllocatorKind :=
  c.allocatorMode.allocators.lookup function

def isAllocator (c : Configuration) (function : String) : Bool := (c.allocator? function).isSome

def isDeallocator (c : Configuration) (function : String) : Bool :=
  c.allocatorMode.deallocators.contains function

def isHook (c : Configuration) (function : String) : Bool := c.hooks.names.contains function

def intrinsicPrefix : String := "llvm."

def isIntrinsic (function : String) : Bool := function.startsWith intrinsicPrefix

def isKnownFunction (c : Configuration) (function : String) : Bool :=
  c.isAllocator function || c.isDeallocator function || c.isHook function || isIntrinsic function

def shouldInstrument (c : Configuration) (function : String) : Bool :=
  !c.skipFunctions.contains function && !c.isHook function

end Configuration

end RegionGuard
