import Bao.Schematic.Allocation
import Mathlib.Order.WithBot
import Mathlib.Logic.Function.Basic

/-!
# The solution of a function

The state the SCHEMATIC analyses work on (`SchematicSolution.h`, `SchematicBlock.h`): the graph of
real and synthetic blocks, the checkpoint state of every edge, and for every block its energies, its
decided placements and its allocation.

The blocks of a region share one allocation object, and an analysis may extend that object long
after the region was fixed. `SchematicSolution.heap` holds the objects and `blockAllocation` the
pointers, so that an extension reaches every block that shares the object.
-/

namespace Bao.Schematic

/-! ### Blocks and edges -/

/-- A `SchematicBlock`: a basic block, or one of the synthetic boundaries of the function or of the
loop with the given header. -/
inductive Block
  | real (bb : BasicBlock)
  | startFunc
  | endFunc
  | startLoop (header : BasicBlock)
  | endLoop (header : BasicBlock)
deriving DecidableEq

/-- The basic block behind a block; synthetic blocks have none. -/
def Block.getLLVMBlock : Block → Option BasicBlock
  | .real bb => some bb
  | _ => none

/-- An edge of the graph. -/
structure CFGEdge where
  src : Block
  dst : Block
deriving DecidableEq

/-- The graph of blocks. An edge is added to the successors of its source and to the predecessors of
its target at once, so one list of edges, in the order of insertion, holds both. -/
structure SchematicGraph where
  edges : List CFGEdge := []

namespace SchematicGraph

variable (graph : SchematicGraph)

/-- The successors of a block, in the order in which they were added. -/
def successors (b : Block) : List Block :=
  (graph.edges.filter fun e => e.src = b).map CFGEdge.dst

/-- The predecessors of a block, in the order in which they were added. -/
def predecessors (b : Block) : List Block :=
  (graph.edges.filter fun e => e.dst = b).map CFGEdge.src

/-- Adds an edge that is not there yet. -/
def addEdge (e : CFGEdge) : SchematicGraph :=
  if e ∈ graph.edges then graph else { edges := graph.edges ++ [e] }

/-- Adds the edges between adjacent blocks of a trace. -/
def addTraceEdges (trace : List Block) : SchematicGraph :=
  (trace.zip trace.tail).foldl (fun g p => g.addEdge ⟨p.1, p.2⟩) graph

/-- The edges of the function's CFG. -/
def addCFGEdges (cfg : CFGAnalysis) : SchematicGraph :=
  cfg.edges.foldl (fun g e => g.addEdge ⟨.real e.1, .real e.2⟩) graph

/-- Depth-first search for `dst`; a block is expanded once, so the fuel below suffices. -/
def reaches (dst : Block) : ℕ → List Block → List Block → Bool
  | 0, _, _ => false
  | _ + 1, [], _ => false
  | fuel + 1, cur :: worklist, visited =>
    if cur = dst then true
    else if cur ∈ visited then reaches dst fuel worklist visited
    else reaches dst fuel ((graph.successors cur).reverse ++ worklist) (cur :: visited)

/-- Maps an edge of a loop-collapsed trace to an edge of the graph: the first successor of its
source that reaches its target. -/
def resolveCheckpointEdge (edge : CFGEdge) : CFGEdge :=
  if edge.dst ∈ graph.successors edge.src then edge
  else match (graph.successors edge.src).find? fun succ =>
      graph.reaches edge.dst (graph.edges.length + 2) [succ] [] with
    | some succ => ⟨edge.src, succ⟩
    | none => edge

end SchematicGraph

/-! ### Loops -/

/-- A loop of `LoopInfo`: its blocks, header first. -/
structure Loop where
  header : BasicBlock
  blocks : List BasicBlock
  latch : Option BasicBlock
  preheader : Option BasicBlock
  header_first : blocks.head? = some header := by rfl
deriving DecidableEq

/-- The block belongs to the loop. -/
def Loop.contains (L : Loop) (bb : BasicBlock) : Bool := bb ∈ L.blocks

/-- The loops of the function, innermost loops before the loops around them. -/
structure LoopInfo where
  loops : List Loop := []

/-- The innermost loop of a block. -/
def LoopInfo.getLoopFor (LI : LoopInfo) (bb : BasicBlock) : Option Loop :=
  LI.loops.find? fun L => L.contains bb

/-- The edge leads to the header of the innermost loop of its target, from inside that loop. -/
def isLoopBackEdge (LI : LoopInfo) (srcBB dstBB : BasicBlock) : Bool :=
  match LI.getLoopFor dstBB with
  | some L => dstBB = L.header && L.contains srcBB
  | none => false

/-! ### The solution -/

/-- What is known about the checkpoint on an edge. -/
inductive CheckpointState
  | potential
  | disabled
  | active
  | virtual
  | loopLatch
deriving DecidableEq

/-- The scaling of a loop that was analyzed: `nbIter` iterations between checkpoints. -/
structure LoopMark where
  header : BasicBlock
  nbIter : Nat
  costOneIt : ℚ

/-- The energies of a block. An `E_left` of `⊤` is the `numeric_limits` default. -/
structure BlockMetadata where
  analyzed : Bool := false
  E_left : WithTop ℚ := ⊤
  E_to_leave : ℚ := 0
  loop : Option LoopMark := none

/-- The checkpoint of a loop's back edge. -/
structure LoopCheckpointDecision where
  loop : Loop
  mandatoryBackEdge : Bool := false
  loopFitsEntirely : Bool := false
  numIterationsPerCharge : Nat := 0
  E_loop : ℚ := 0
  hadEnabledCheckpoints : Bool := false
  convergenceApplied : Bool := false
  bodyAllocation : RegionAllocation := {}

/-- An interval the RCG chose, with its allocation. -/
structure RegionSolution where
  blocks : List Block
  allocation : RegionAllocation

/-- An allocation object. -/
abbrev AllocRef := Nat

/-- The solution of a function. A block that a map of the source has no entry for reads as the
default entry, which the source does not distinguish. -/
structure SchematicSolution where
  enabledCheckpoints : List CFGEdge := []
  checkpointStates : AList (fun _ : CFGEdge => CheckpointState) := ∅
  regions : List RegionSolution := []
  blockMeta : Block → BlockMetadata := fun _ => {}
  loopDecisions : AList (fun _ : Block => LoopCheckpointDecision) := ∅
  decidedPlacements : Block → ValueMap Placement := fun _ => ∅
  blockAllocation : Block → Option AllocRef := fun _ => none
  heap : AllocRef → RegionAllocation := fun _ => {}
  nextRef : AllocRef := 0
  functionCallBlocks : List Block := []

namespace SchematicSolution

variable (solution : SchematicSolution)

/-- The allocation of a block. -/
def allocationOf (b : Block) : Option RegionAllocation :=
  (solution.blockAllocation b).map solution.heap

/-- Replaces the energies of a block. -/
def setMeta (b : Block) (m : BlockMetadata) : SchematicSolution :=
  { solution with blockMeta := Function.update solution.blockMeta b m }

/-- Replaces the decided placements of a block. -/
def setPlacements (b : Block) (p : ValueMap Placement) : SchematicSolution :=
  { solution with decidedPlacements := Function.update solution.decidedPlacements b p }

/-- Replaces the contents of an allocation object. -/
def setObject (r : AllocRef) (a : RegionAllocation) : SchematicSolution :=
  { solution with heap := Function.update solution.heap r a }

/-- Points a block to an allocation object. -/
def setBlockAllocation (b : Block) (r : Option AllocRef) : SchematicSolution :=
  { solution with blockAllocation := Function.update solution.blockAllocation b r }

/-- A new allocation object, at `nextRef`. -/
def makeShared (a : RegionAllocation) : SchematicSolution :=
  { solution.setObject solution.nextRef a with nextRef := solution.nextRef + 1 }

/-- The state of an edge; an edge without an entry is `potential`. -/
def getCheckpointState (graph : SchematicGraph) (edge : CFGEdge) : CheckpointState :=
  (solution.checkpointStates.lookup (graph.resolveCheckpointEdge edge)).getD .potential

/-- Sets the state of an edge; the enabled checkpoints are the active ones. -/
def setCheckpointState (graph : SchematicGraph) (edge : CFGEdge) (state : CheckpointState) :
    SchematicSolution :=
  let resolved := graph.resolveCheckpointEdge edge
  { solution with
    checkpointStates := solution.checkpointStates.insert resolved state
    enabledCheckpoints :=
      if state = .active then
        if resolved ∈ solution.enabledCheckpoints then solution.enabledCheckpoints
        else solution.enabledCheckpoints ++ [resolved]
      else solution.enabledCheckpoints.filter fun e => e ≠ resolved }

/-- The checkpoint on an edge is taken. -/
def enableCheckpoint (graph : SchematicGraph) (edge : CFGEdge) : SchematicSolution :=
  solution.setCheckpointState graph edge .active

/-- There is no checkpoint on an edge. -/
def disableCheckpoint (graph : SchematicGraph) (edge : CFGEdge) : SchematicSolution :=
  solution.setCheckpointState graph edge .disabled

/-- The checkpoint on a back edge is taken by the counter of its loop. -/
def setLoopLatchCheckpoint (graph : SchematicGraph) (edge : CFGEdge) : SchematicSolution :=
  solution.setCheckpointState graph edge .loopLatch

/-- **The regime of a call to the function**: it contains a checkpoint. A loop that fits entirely
takes none, although its iterations per charge are set. -/
def hasNonDisabledCheckpoint : Bool :=
  !solution.enabledCheckpoints.isEmpty ||
  (solution.checkpointStates.entries.any fun e =>
    e.2 = .active || e.2 = .loopLatch || e.2 = .virtual) ||
  solution.loopDecisions.entries.any fun e =>
    !e.2.loopFitsEntirely &&
      (e.2.mandatoryBackEdge || decide (0 < e.2.numIterationsPerCharge) ||
        e.2.hadEnabledCheckpoints)

/-! ### Costs -/

/-- The execution energy of a block: its all-NVM cost less the penalty of the accesses that its
decided placements direct to VM. -/
def getBlockExecEnergy (block : Block) (cfg : CFGAnalysis) (state : SchematicStateAnalysis)
    (params : SchematicParams) : ℚ :=
  match block.getLLVMBlock with
  | none => 0
  | some bb =>
    cfg.energyCost bb - ((solution.decidedPlacements block).walk.map fun e =>
      if e.2 = .vm then
        params.nvmAccessPenalty * ((state.getLoadCount bb e.1 + state.getStoreCount bb e.1 : ℕ) : ℚ)
      else 0).sum

/-- The cost of moving the VM variables of a block, at a cost per byte. -/
def allocationCost (energyPerByte : ℚ) (block : Block) (state : SchematicStateAnalysis) : ℚ :=
  ((solution.decidedPlacements block).walk.map fun e =>
    if e.2 = .vm then energyPerByte * state.getVarSizeBytes e.1 else 0).sum

/-- The cost of restoring the VM variables of a block. -/
def computeAllocationRestoreCost (block : Block) (state : SchematicStateAnalysis)
    (params : SchematicParams) : ℚ :=
  solution.allocationCost params.memRestoreEnergyPerByte block state

/-- The cost of saving the VM variables of a block. -/
def computeAllocationSaveCost (block : Block) (state : SchematicStateAnalysis)
    (params : SchematicParams) : ℚ :=
  solution.allocationCost params.memStoreEnergyPerByte block state

end SchematicSolution

end Bao.Schematic
