import Bao.Milp.GlobalConsistency
import Bao.Milp.SummaryNvm
import Bao.Milp.Simulation
import Bao.Dataflow.RoundRobin
import Bao.Milp.Liveness
import Bao.Milp.MemoryLiveness
import Bao.Milp.SSALiveness
import Bao.Milp.SSAMachine
import Bao.Milp.SSAConsistency
import Bao.Milp.SummaryLiveIn
import Bao.Milp.AbstractViews
import Bao.Machine.Visits
import Bao.Milp.CommitEnergy
import Bao.Milp.StripMining
import Bao.Milp.StripMiningTripCount
import Bao.Milp.ChunkCounter
import Bao.Milp.ExitRewriteEffects
import Bao.Milp.UnifyBehaviour
import Bao.Milp.StripMiningIterations
import Bao.Graph.HeaviestWalk
import Bao.Milp.Completeness
import Bao.Milp.CoarseAllocation
import Bao.Milp.Pruning
import Bao.Milp.Reclamp
import Bao.Milp.ShadowGlobals
import Bao.Machine.CrashCode
import Bao.Runtime.BoundaryProtocol
import Bao.Runtime.Violation
import Bao.Runtime.Recovery
import Bao.Schematic.CallFold
import Bao.Schematic.BackEdge
import Bao.Schematic.DataConsistency
import Bao.RockClimb.Optimizer
import Bao.RockClimb.CallEnergy
import Bao.RockClimb.IterationEnergy
import Bao.RockClimb.LoopUnroll
import Bao.Trace.Exact
import Bao.Addressing.Segments
import Bao.Energy.Analyzer
import Bao.Energy.Attribution
import Bao.Energy.BlockEnergies
import Bao.Schematic.OffsetConsistency
import Bao.Schematic.ModuleShadows
import Bao.Schematic.PlacementRuns
import Bao.Schematic.WorstCaseEnergy
import Bao.Schematic.BudgetTests
import Bao.Schematic.MergeCompatibility
import Bao.Schematic.SubTraces
import Bao.Schematic.TraceLoader
import Bao.Schematic.CollectedCalls
import Bao.Schematic.LoopFits
import Bao.Schematic.ConditionalCheckpoint
import Bao.Schematic.LoopPaths
import Bao.RockClimb.SaveCharge
import Bao.RockClimb.LivenessAgreement
import Bao.Disassembler.Inverse
import Bao.Milp.ProfiledOverhead
