import RegionGuard.Interchange.Exchange
import RegionGuard.Main
import RegionGuard.Proofs.Adjacency
import RegionGuard.Proofs.AllocatorCalls
import RegionGuard.Proofs.ElementOffsets
import RegionGuard.Proofs.EscapeRuns
import RegionGuard.Proofs.Evolutions
import RegionGuard.Proofs.FailedMoves
import RegionGuard.Proofs.FixedRegions
import RegionGuard.Proofs.FlatMemory
import RegionGuard.Proofs.ForcedGrowth
import RegionGuard.Proofs.GatheredNames
import RegionGuard.Proofs.InstructionNumbers
import RegionGuard.Proofs.LoopSimplification
import RegionGuard.Proofs.NestedLoops
import RegionGuard.Proofs.RegisteredGlobals
import RegionGuard.Proofs.SafeChains
import RegionGuard.Proofs.SimplifiedRuns
import RegionGuard.Proofs.StackGuardRuns
import RegionGuard.Proofs.StackSlots
import RegionGuard.Proofs.SwitchedThreads
import RegionGuard.Proofs.WrittenPrograms
import RegionGuard.Registry
