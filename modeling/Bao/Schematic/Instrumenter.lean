import Bao.Schematic.Pass

/-!
# Instrumentation

What `SchematicInstrumenter.cpp` emits for a solution:

* a shadow for every variable that some region or some loop decision places in VM;
* every operand of a block that is a variable which the block's allocation places in VM becomes the
  shadow of the variable;
* an enabled edge gets a save of the source block's variables, the boundary call, and a restore of
  the target block's variables;
* a back edge that the loop logic handles gets the same sequence with the decision's
  `bodyAllocation` on both sides, in every iteration or behind a counter.
-/

namespace Bao.Schematic

/-- The loop logic emits a checkpoint on the back edge: in every iteration, or behind a counter. -/
def LoopCheckpointDecision.handledByLoopLogic (d : LoopCheckpointDecision) : Bool :=
  d.mandatoryBackEdge || (decide (0 < d.numIterationsPerCharge) && !d.loopFitsEntirely)

/-- A checkpoint: the variables copied from their shadows before the boundary call, and those copied
to their shadows after it. -/
structure CheckpointSequence where
  saves : List Value
  restores : List Value
deriving DecidableEq

namespace SchematicSolution

variable (solution : SchematicSolution)

/-- The variables that get a shadow (`createShadowGlobals`): those that a region or a loop decision
has in VM, as a `std::set`. -/
def vmPlacedVals : List Value :=
  ((solution.regions.map RegionSolution.allocation ++
    solution.loopDecisions.entries.map fun e => e.2.bodyAllocation).flatMap fun a =>
      (a.vars.walk.filter fun e => e.2.placement = .vm).map Prod.fst).dedup.insertionSort fun v w =>
        v.address ≤ w.address

/-- The variable has a shadow. -/
def hasShadow (v : Value) : Bool := v ∈ solution.vmPlacedVals

/-- The allocation keeps the variable in its shadow. -/
def keepsInShadow (a : RegionAllocation) (v : Value) : Bool :=
  (a.vars.lookup v).any (fun va => va.placement = .vm) && solution.hasShadow v

/-- An operand of a block that is the variable itself becomes its shadow
(`rewriteAccessesInRegion`). -/
def usesShadow (bb : BasicBlock) (v : Value) : Bool :=
  match solution.allocationOf (.real bb) with
  | some a => solution.keepsInShadow a v
  | none => false

/-- **`insertCheckpointSequence`**: what the ending region saves and the starting region
restores. -/
def insertCheckpointSequence (endingAlloc startingAlloc : Option RegionAllocation) :
    CheckpointSequence :=
  { saves := ((endingAlloc.getD {}).vars.walk.filter fun e =>
      e.2.needSave && solution.hasShadow e.1).map Prod.fst
    restores := ((startingAlloc.getD {}).vars.walk.filter fun e =>
      e.2.needRestore && solution.hasShadow e.1).map Prod.fst }

/-- The checkpoint on the back edge of a loop. -/
def backEdgeSequence (d : LoopCheckpointDecision) : CheckpointSequence :=
  solution.insertCheckpointSequence (some d.bodyAllocation) (some d.bodyAllocation)

/-- The edge is a back edge that the loop logic handles. -/
def isHandledBackEdge (srcBB dstBB : BasicBlock) : Bool :=
  solution.loopDecisions.entries.any fun e =>
    e.2.handledByLoopLogic && decide (e.2.loop.latch = some srcBB) &&
      decide (e.1.getLLVMBlock = some dstBB)

/-- The blocks that are reachable without passing `dst`. -/
def reachableAvoiding (cfg : CFGAnalysis) (dst : BasicBlock) :
    ℕ → List BasicBlock → List BasicBlock → List BasicBlock
  | 0, _, reached => reached
  | _ + 1, [], reached => reached
  | fuel + 1, cur :: queue, reached =>
    let fresh := (((cfg.edges.filter fun e => e.1 = cur).map Prod.snd).filter fun succ =>
      succ ≠ dst ∧ succ ∉ reached).dedup
    reachableAvoiding cfg dst fuel (queue ++ fresh) (reached ++ fresh)

/-- The checkpoints on the edges of the function, in the order in which an edge runs them. -/
abbrev EdgeCheckpoints := BasicBlock × BasicBlock → List CheckpointSequence

/-- Adds a checkpoint to an edge. The block before a second checkpoint on an edge is the one of the
first, which has no allocation. -/
def splitEdge (edge : BasicBlock × BasicBlock) (startingAlloc : Option RegionAllocation)
    (placed : EdgeCheckpoints) : EdgeCheckpoints :=
  let endingAlloc :=
    if (placed edge).isEmpty then solution.allocationOf (.real edge.1) else none
  Function.update placed edge
    (placed edge ++ [solution.insertCheckpointSequence endingAlloc startingAlloc])

/-- Places the checkpoint of one enabled edge. An edge of a loop-collapsed trace is placed on every
edge into its target from a block that its source reaches. -/
def placeCheckpoint (cfg : CFGAnalysis) (placed : EdgeCheckpoints) (edge : CFGEdge) :
    EdgeCheckpoints :=
  match edge.src.getLLVMBlock, edge.dst.getLLVMBlock with
  | some srcBB, some dstBB =>
    let startingAlloc := solution.allocationOf (.real dstBB)
    if solution.isHandledBackEdge srcBB dstBB then placed
    else if (srcBB, dstBB) ∈ cfg.edges ∧ (placed (srcBB, dstBB)).isEmpty then
      solution.splitEdge (srcBB, dstBB) startingAlloc placed
    else
      let reached := reachableAvoiding cfg dstBB (cfg.edges.length + 2) [srcBB] [srcBB]
      ((cfg.edges.filter fun e => decide (e.2 = dstBB) && decide (e.1 ∈ reached)).dedup).foldl
        (fun placed e => solution.splitEdge e startingAlloc placed) placed
  | _, _ => placed

/-- **The checkpoints of the enabled edges** (`instrumentFunction`). -/
def edgeCheckpoints (cfg : CFGAnalysis) : EdgeCheckpoints :=
  solution.enabledCheckpoints.foldl (solution.placeCheckpoint cfg) fun _ => []

end SchematicSolution

end Bao.Schematic
