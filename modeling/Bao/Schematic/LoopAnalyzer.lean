import Bao.Schematic.TraceAnalyzer
import Mathlib.Algebra.Order.Floor.Ring
import Mathlib.Data.Rat.Floor

/-!
# Loop analysis

`LoopAnalyzer.cpp`: the body of a loop is analyzed like a function between two synthetic boundaries,
then the checkpoint of the back edge is decided.

* Header and latch place variables differently: the back edge gets a mandatory checkpoint
  (`propagateMandatoryLoopBoundary`).
* Otherwise the energy `E_loop` of one iteration is read off the boundaries, the number of
  iterations per charge follows, and the loop fits entirely, gets a counter, or a mandatory
  checkpoint (`applyLoopCheckpointPolicy`). A body without a checkpoint is allocated again for that
  number of iterations first (`refineLoopBudgetWithConvergence`), and a body that does not fit is
  split.

Whatever the decision, the checkpoint on the back edge moves the variables of `bodyAllocation`.
-/

namespace Bao.Schematic

/-- A trace of an iteration with the number of times it was seen. -/
structure EnumeratedPath where
  blocks : List Block
  count : ℕ := 1

/-- The traces of a loop. -/
structure LoadedLoopTrace where
  loop : Loop
  depth : ℕ
  members : List Block
  iterationPaths : List EnumeratedPath
  maxTripCount : Option ℕ

/-- The blocks at the boundary of a loop. -/
structure LoopBoundaryBlocks where
  headerBlock : Block
  latchBlock : Option Block
  startSynth : Block
  endSynth : Block

/-- The real and synthetic boundary blocks of a loop. -/
def createLoopBoundaryBlocks (L : Loop) : LoopBoundaryBlocks :=
  ⟨.real L.header, L.latch.map .real, .startLoop L.header, .endLoop L.header⟩

/-- The placements at the two ends of the loop body. -/
structure LoopBoundaryPlacements where
  headerAlloc : ValueMap Placement
  latchAlloc : ValueMap Placement
  allocationsDiffer : Bool

/-- How many iterations a charge pays for. -/
structure LoopIterationBudget where
  startEToLeave : ℚ
  endEToLeave : ℚ
  ELoop : ℚ
  availableEnergy : ℚ
  rawNumIterations : ℤ
  numIterations : ℕ

/-- The energy left after a restore of the VM variables of an allocation. -/
def computeLoopEntryEnergyLeft (alloc : RegionAllocation) (state : SchematicStateAnalysis)
    (params : SchematicParams) : ℚ :=
  params.capacity - params.chkptRestore - (alloc.vars.walk.map fun e =>
    if e.2.placement = .vm then params.memRestoreEnergyPerByte * state.getVarSizeBytes e.1
    else 0).sum

/-- The energy of a save of the VM variables of an allocation. -/
def computeLoopExitEnergyToLeave (alloc : RegionAllocation) (state : SchematicStateAnalysis)
    (params : SchematicParams) (includeLoopIncrementCost : Bool) : ℚ :=
  params.chkptSave + (if includeLoopIncrementCost then params.loopIncrementCostNvm else 0) +
    (alloc.vars.walk.map fun e =>
      if e.2.placement = .vm then params.memStoreEnergyPerByte * state.getVarSizeBytes e.1
      else 0).sum

/-- Some variable is in VM at one end only, or placed differently at the two ends. -/
def boundaryPlacementsDiffer (headerAlloc latchAlloc : ValueMap Placement) : Bool :=
  (headerAlloc.walk.any fun e =>
    match latchAlloc.lookup e.1 with
    | some place => place ≠ e.2
    | none => e.2 = .vm) ||
  latchAlloc.walk.any fun e => !decide (e.1 ∈ headerAlloc) && decide (e.2 = .vm)

/-- Adds the placements of `source` that `target` lacks. -/
def fillPlacements (target source : ValueMap Placement) : ValueMap Placement :=
  source.walk.foldl (fun t e => if e.1 ∈ t then t else t.insert e.1 e.2) target

/-- **`buildBoundaryAllocation`**: the given placements, all variables to be saved and restored, at
addresses of their own. -/
def buildBoundaryAllocation (placement : ValueMap Placement) (state : SchematicStateAnalysis) :
    RegionAllocation :=
  placement.walk.foldl (fun alloc e =>
    let alloc := { alloc with vars := alloc.vars.insert e.1 { placement := e.2 } }
    if e.2 = .vm then
      { alloc with
        vmOffsets := alloc.vmOffsets.insert e.1 alloc.vmBytesUsed
        vmBytesUsed := (alloc.vmBytesUsed + state.getVarSizeBytes e.1) % 2 ^ 32 }
    else alloc) {}

/-- The expected accesses of `numIterations` iterations, weighted by the frequency of the traces. -/
def estimateLoopVariableAccess (loopTrace : LoadedLoopTrace) (state : SchematicStateAnalysis)
    (numIterations : ℕ) : ValueMap VariableAccessEstimate :=
  let total : ℕ := (loopTrace.iterationPaths.map EnumeratedPath.count).sum
  let freq (path : EnumeratedPath) : ℚ :=
    if total = 0 then 1 / (loopTrace.iterationPaths.length : ℚ) else path.count / total
  state.candidates.foldl (fun accesses v =>
    let visits := loopTrace.iterationPaths.flatMap fun path =>
      (path.blocks.filterMap Block.getLLVMBlock).filterMap fun bb =>
        let n := state.getLoadCount bb v + state.getStoreCount bb v
        if n = 0 then none else some (bb, (n : ℚ) * freq path * numIterations)
    if visits.isEmpty then accesses
    else
      let weighted := (visits.map Prod.snd).sum
      let needRestore := (visits.findSome? fun p => state.getFirstOpIsLoad p.1 v).getD false
      accesses.insert v ⟨max 1 (⌊weighted + 1 / 2⌋.toNat % 2 ^ 32), needRestore, true⟩) ∅

namespace SchematicSolution

variable (solution : SchematicSolution) (graph : SchematicGraph) (ctx : Context)

/-! ### Boundary state -/

/-- Forgets the synthetic boundaries of a loop. -/
def eraseSyntheticLoopBoundaryState (blocks : LoopBoundaryBlocks) : SchematicSolution :=
  [blocks.startSynth, blocks.endSynth].foldl (fun s b =>
    ((s.setMeta b {}).setPlacements b ∅).setBlockAllocation b none) solution

/-- A full buffer before the loop body, a save after it. -/
def initializeSyntheticLoopBoundaryState (blocks : LoopBoundaryBlocks) : SchematicSolution :=
  let s := solution.setMeta blocks.startSynth { solution.blockMeta blocks.startSynth with
    E_left := some (computeLoopEntryEnergyLeft {} ctx.state ctx.params), analyzed := true }
  let s := s.setPlacements blocks.startSynth ∅
  let s := s.setMeta blocks.endSynth { s.blockMeta blocks.endSynth with
    E_to_leave := computeLoopExitEnergyToLeave {} ctx.state ctx.params false, analyzed := true }
  s.setPlacements blocks.endSynth ∅

/-- The placements of header and latch; where they agree, each takes over what the other one
mentions. -/
def resolveLoopBoundaryPlacements (blocks : LoopBoundaryBlocks) :
    LoopBoundaryPlacements × SchematicSolution :=
  let headerAlloc := solution.decidedPlacements blocks.headerBlock
  let latchAlloc := match blocks.latchBlock with
    | some latch => solution.decidedPlacements latch
    | none => ∅
  if boundaryPlacementsDiffer headerAlloc latchAlloc then
    (⟨headerAlloc, latchAlloc, true⟩, solution)
  else
    let headerAlloc := fillPlacements headerAlloc latchAlloc
    let latchAlloc := fillPlacements latchAlloc headerAlloc
    let s := solution.setPlacements blocks.headerBlock headerAlloc
    (⟨headerAlloc, latchAlloc, false⟩, match blocks.latchBlock with
      | some latch => s.setPlacements latch latchAlloc
      | none => s)

/-- Reads the energies of header and latch into the synthetic boundaries. -/
def copyLoopBoundaryEnergyToSyntheticBlocks (blocks : LoopBoundaryBlocks) : SchematicSolution :=
  let h := solution.blockMeta blocks.headerBlock
  let s := solution.setMeta blocks.startSynth { solution.blockMeta blocks.startSynth with
    E_to_leave := h.E_to_leave, E_left := h.E_left }
  match blocks.latchBlock with
  | some latch => s.setMeta blocks.endSynth { s.blockMeta blocks.endSynth with
      E_left := (s.blockMeta latch).E_left }
  | none => s

/-- **`readLoopIterationBudget`**: what is left between the restore that starts a charge and the
save that ends it, in iterations. -/
def readLoopIterationBudget (blocks : LoopBoundaryBlocks) (bodyAlloc : RegionAllocation) :
    LoopIterationBudget :=
  let startEToLeave := (solution.blockMeta blocks.startSynth).E_to_leave
  let endEToLeave := (solution.blockMeta blocks.endSynth).E_to_leave
  let ELoop := startEToLeave - endEToLeave + ctx.params.loopIncrementCostNvm
  let availableEnergy := computeLoopEntryEnergyLeft bodyAlloc ctx.state ctx.params - endEToLeave
  let raw : ℤ := if 0 < ELoop then ⌊availableEnergy / ELoop⌋ - 1 else 0
  ⟨startEToLeave, endEToLeave, ELoop, availableEnergy, raw, raw.toNat⟩

/-! ### Checkpoints of the body -/

/-- Some checkpoint of the body is enabled. -/
def hasEnabledCheckpointsInLoop (L : Loop) : Bool :=
  solution.enabledCheckpoints.any fun e =>
    match e.src.getLLVMBlock, e.dst.getLLVMBlock with
    | some srcBB, some dstBB => L.contains srcBB && L.contains dstBB
    | _, _ => false

/-- Every edge of the body but the back edge is disabled, the edges at the boundaries included. -/
def hasOnlyDisabledCheckpointsInLoop (L : Loop) (blocks : LoopBoundaryBlocks) : Bool :=
  let inLoop (b : Block) : Bool := b.getLLVMBlock.any fun bb => L.contains bb
  let isDisabled (src dst : Block) : Bool :=
    decide (solution.getCheckpointState graph ⟨src, dst⟩ = .disabled)
  (ctx.cfg.edges.all fun e =>
    !L.contains e.1 || !L.contains e.2 || (decide (some e.1 = L.latch) &&
      decide (e.2 = L.header)) ||
      isDisabled (.real e.1) (.real e.2)) &&
  ((graph.successors blocks.startSynth).all fun succ =>
    !inLoop succ || isDisabled blocks.startSynth succ) &&
  (graph.predecessors blocks.endSynth).all fun pred =>
    !inLoop pred || isDisabled pred blocks.endSynth

/-- Collects the object of a block, unless it is there already. -/
def collectMemoryAllocation (refs : List AllocRef) (bb : BasicBlock) : List AllocRef :=
  match solution.blockAllocation (.real bb) with
  | some r => if r ∈ refs then refs else refs ++ [r]
  | none => refs

/-- The allocation objects of the body, each once. -/
def collectLoopMemoryAllocations (L : Loop) : List AllocRef :=
  L.blocks.foldl solution.collectMemoryAllocation []

/-- The first block of a path that is analyzed gets a checkpoint in front of it. -/
def splitLoopBodyAtFixedBoundary (bodyPaths : List (List Block)) : Option SchematicSolution :=
  bodyPaths.foldlM (fun s path =>
    ((path.zip path.tail).find? fun p => (s.blockMeta p.2).analyzed).map fun p =>
      s.enableCheckpoint graph ⟨p.1, p.2⟩) solution

/-! ### Deciding the back edge -/

/-- The energies of a body whose back edge always takes a checkpoint. -/
def propagateMandatoryLoopBoundary (L : Loop) (blocks : LoopBoundaryBlocks)
    (bodyAllocation : RegionAllocation) : SchematicSolution :=
  let energyLeftStart := computeLoopEntryEnergyLeft bodyAllocation ctx.state ctx.params
  let eToLeave := computeLoopExitEnergyToLeave bodyAllocation ctx.state ctx.params true
  let s := match (graph.successors blocks.startSynth).head? with
    | some dst => solution.propagateEnergyLeft graph ctx (some blocks.startSynth, some dst)
        (some energyLeftStart) (some L)
    | none => solution
  let s := match (graph.predecessors blocks.endSynth).head? with
    | some src => s.propagateEnergyToLeave graph ctx (some src, some blocks.endSynth) eToLeave
        (some L)
    | none => s
  let s := s.setMeta blocks.startSynth { s.blockMeta blocks.startSynth with
    E_to_leave := (s.blockMeta blocks.headerBlock).E_to_leave, E_left := some energyLeftStart }
  s.setMeta blocks.endSynth { s.blockMeta blocks.endSynth with E_to_leave := eToLeave }

/-- Gives a block of the body the converged allocation and forgets its energies. -/
def resetBlock (b : Block) (sharedAlloc : AllocRef) (bodyAlloc : RegionAllocation) :
    SchematicSolution :=
  let s := solution.setMeta b { solution.blockMeta b with
    analyzed := true, E_left := ⊤, E_to_leave := 0 }
  let s := s.setPlacements b (bodyAlloc.vars.walk.foldl
    (fun p e => p.insert e.1 e.2.placement) (s.decidedPlacements b))
  match s.blockAllocation b with
  | some _ => s.extendBlock b (s.heap sharedAlloc)
  | none => s.setBlockAllocation b (some sharedAlloc)

/-- Resets every block of the body. -/
def resetLoopBody (L : Loop) (bodyAlloc : RegionAllocation) : SchematicSolution :=
  L.blocks.dedup.foldl (fun s bb => s.resetBlock (.real bb) solution.nextRef bodyAlloc)
    (solution.makeShared bodyAlloc)

/-- **`recomputeLoopBodyEnergyOnCFG`**: the energies of one traversal of the body. -/
def recomputeLoopBodyEnergyOnCFG (L : Loop) (bodyAlloc : RegionAllocation)
    (blocks : LoopBoundaryBlocks) : SchematicSolution :=
  let energyLeftStart := computeLoopEntryEnergyLeft bodyAlloc ctx.state ctx.params
  let eToLeave := computeLoopExitEnergyToLeave bodyAlloc ctx.state ctx.params true
  let s := solution.resetLoopBody L bodyAlloc
  let s := s.propagateEnergyLeft graph ctx (some blocks.startSynth, some blocks.headerBlock)
    (some energyLeftStart) (some L)
  let s := s.propagateEnergyToLeave graph ctx (blocks.latchBlock, some blocks.endSynth) eToLeave
    (some L)
  let s := s.setMeta blocks.startSynth { s.blockMeta blocks.startSynth with
    E_left := some energyLeftStart, E_to_leave := (s.blockMeta blocks.headerBlock).E_to_leave }
  let s := s.setMeta blocks.endSynth { s.blockMeta blocks.endSynth with
    E_left := match blocks.latchBlock with
      | some latch => (s.blockMeta latch).E_left
      | none => (s.blockMeta blocks.endSynth).E_left
    E_to_leave := eToLeave }
  (s.setPlacements blocks.startSynth (s.decidedPlacements blocks.headerBlock)).setPlacements
    blocks.endSynth (s.decidedPlacements blocks.headerBlock)

/-- **`applyLoopCheckpointPolicy`**: the loop fits, or gets a checkpoint in every iteration, or one
every `numIterations` iterations. -/
def applyLoopCheckpointPolicy (maxTripCount : ℕ) (blocks : LoopBoundaryBlocks)
    (budget : LoopIterationBudget) (decision : LoopCheckpointDecision) :
    LoopCheckpointDecision × SchematicSolution :=
  let onBackEdge (f : CFGEdge → SchematicSolution) : SchematicSolution :=
    match blocks.latchBlock with
    | some latch => f ⟨latch, blocks.headerBlock⟩
    | none => solution
  if maxTripCount < budget.numIterations then
    ({ decision with numIterationsPerCharge := maxTripCount, loopFitsEntirely := true },
      onBackEdge (solution.disableCheckpoint graph))
  else if budget.numIterations < 3 then
    ({ decision with mandatoryBackEdge := true, numIterationsPerCharge := 1 },
      onBackEdge (solution.enableCheckpoint graph))
  else ({ decision with numIterationsPerCharge := budget.numIterations },
    onBackEdge (solution.setLoopLatchCheckpoint graph))

/-- **`applyLoopIterationAdjustment`**: the remaining iterations are charged to every block of the
loop. -/
def applyLoopIterationAdjustment (L : Loop) (maxTripCount : ℕ) (decision : LoopCheckpointDecision)
    (ELoop : ℚ) : SchematicSolution :=
  if decision.numIterationsPerCharge ≤ 1 then solution
  else
    let adjIter :=
      if decision.loopFitsEntirely then maxTripCount else decision.numIterationsPerCharge
    let adjustment : ℚ := ((adjIter + (2 ^ 32 - 1)) % 2 ^ 32 : ℕ) * ELoop
    L.blocks.foldl (fun s bb =>
      let m := s.blockMeta (.real bb)
      s.setMeta (.real bb) { m with
        loop := some ⟨L.header, adjIter, ELoop⟩
        E_to_leave := m.E_to_leave + adjustment
        E_left := m.E_left.map (· - adjustment) }) solution

/-- Records the decision of a loop. -/
def setDecision (header : Block) (decision : LoopCheckpointDecision) : SchematicSolution :=
  { solution with loopDecisions := solution.loopDecisions.insert header decision }

end SchematicSolution

open SchematicSolution

/-- What the convergence of a loop changes. -/
structure Convergence where
  solution : SchematicSolution
  tracker : VMAddressTracker
  budget : LoopIterationBudget
  bodyAlloc : RegionAllocation
  decision : LoopCheckpointDecision

/-- One round of the convergence: the body is allocated for the iterations of the budget, and the
budget is read again. `none` leaves the loop of the source with the state of this round. -/
def Convergence.round (ctx : Context) (graph : SchematicGraph) (trace : LoadedLoopTrace)
    (maxTripCount : ℕ) (allocations : List AllocRef) (C : Convergence) : Convergence × Bool :=
  let L := trace.loop
  let blocks := createLoopBoundaryBlocks L
  let accesses := estimateLoopVariableAccess trace ctx.state
    (min C.budget.numIterations maxTripCount % 2 ^ 32)
  let ((bodyAlloc, _), tracker) := chooseMemoryAllocationOf accesses ctx.state ctx.params none none
    (allocations.map C.solution.heap) C.tracker
  let s := (C.solution.recomputeLoopBodyEnergyOnCFG graph ctx L bodyAlloc
    blocks).refreshDisabledCheckpointEnergy graph ctx (some L)
  let budget := s.readLoopIterationBudget ctx blocks bodyAlloc
  let decision := { C.decision with E_loop := budget.ELoop, bodyAllocation := bodyAlloc }
  if budget.ELoop ≤ 0 then (⟨s, tracker, budget, bodyAlloc, decision⟩, false)
  else
    let available :=
      computeLoopEntryEnergyLeft bodyAlloc ctx.state ctx.params - budget.startEToLeave
    if available ≤ 0 then
      (⟨s, tracker, { budget with availableEnergy := available }, bodyAlloc, decision⟩, false)
    else
      let raw : ℤ := ⌊available / budget.ELoop⌋ - 1
      (⟨s, tracker, { budget with
        availableEnergy := available, rawNumIterations := raw, numIterations := raw.toNat },
        bodyAlloc, decision⟩, true)

/-- The rounds of the convergence: at most `fuel`, and none once the number of iterations no longer
shrinks. -/
def Convergence.rounds (ctx : Context) (graph : SchematicGraph) (trace : LoadedLoopTrace)
    (maxTripCount : ℕ) (allocations : List AllocRef) : ℕ → ℕ → Convergence → Convergence
  | 0, _, C => C
  | fuel + 1, previous, C =>
    if previous ≠ 0 ∧ previous ≤ C.budget.numIterations then C
    else
      match C.round ctx graph trace maxTripCount allocations with
      | (C', true) => rounds ctx graph trace maxTripCount allocations fuel C.budget.numIterations C'
      | (C', false) => C'

/-- **`refineLoopBudgetWithConvergence`**. Only a body without a checkpoint is refined. -/
def refineLoopBudgetWithConvergence (ctx : Context) (graph : SchematicGraph)
    (trace : LoadedLoopTrace) (maxTripCount : ℕ) (C : Convergence) : Convergence :=
  let blocks := createLoopBoundaryBlocks trace.loop
  let C := { C with decision := { C.decision with
    hadEnabledCheckpoints := C.solution.hasEnabledCheckpointsInLoop trace.loop } }
  if !C.solution.hasOnlyDisabledCheckpointsInLoop graph ctx trace.loop blocks ||
      C.budget.numIterations ≤ 1 then C
  else
    let C := { C with decision := { C.decision with convergenceApplied := true } }
    C.rounds ctx graph trace maxTripCount (C.solution.collectLoopMemoryAllocations trace.loop) 15 0

/-- Splits a body that does not fit and reads the budget again. -/
def splitLoopBody (ctx : Context) (graph : SchematicGraph) (L : Loop)
    (bodyPaths : List (List Block)) (C : Convergence) : Except Failure Convergence :=
  let blocks := createLoopBoundaryBlocks L
  if 0 ≤ C.budget.rawNumIterations then .ok C
  else match C.solution.splitLoopBodyAtFixedBoundary graph bodyPaths with
    | none => .error .infeasible
    | some s =>
      let s := (s.recomputeLoopBodyEnergyOnCFG graph ctx L C.bodyAlloc
        blocks).refreshDisabledCheckpointEnergy graph ctx (some L)
      let budget := s.readLoopIterationBudget ctx blocks C.bodyAlloc
      if budget.rawNumIterations < 0 then .error .infeasible
      else .ok { C with
        solution := s, budget := budget, decision := { C.decision with E_loop := budget.ELoop } }

namespace Analysis

/-- The body of a loop, between its synthetic boundaries: traces, uncovered blocks, edges. -/
def analyzeLoopBody (ctx : Context) (trace : LoadedLoopTrace) (A : Analysis) :
    Except Failure Analysis := do
  let L := trace.loop
  let blocks := createLoopBoundaryBlocks L
  let bodyPaths := (trace.iterationPaths.map EnumeratedPath.blocks).filter fun p => !p.isEmpty
  if bodyPaths.isEmpty then throw .infeasible
  let A := { A with solution := A.solution.initializeSyntheticLoopBoundaryState ctx blocks }
  let A ← bodyPaths.foldlM (fun A path =>
    let path := blocks.startSynth :: path ++ [blocks.endSynth]
    analyzeTrace ctx (some L) path { A with graph := A.graph.addTraceEdges path }) A
  let A ← A.findAndAnalyzeNotFixedPaths ctx (some L)
  return { A with
    solution := (A.solution.removePotentialCheckpointsBetweenFixedBBs A.graph ctx
      (some L)).refreshDisabledCheckpointEnergy A.graph ctx (some L) }

/-- The decision for a back edge whose two ends place variables differently. -/
def decideMismatch (ctx : Context) (L : Loop) (headerAlloc : ValueMap Placement) (A : Analysis) :
    Analysis :=
  let blocks := createLoopBoundaryBlocks L
  let decision : LoopCheckpointDecision := {
    loop := L
    mandatoryBackEdge := true
    numIterationsPerCharge := 1
    bodyAllocation := buildBoundaryAllocation headerAlloc ctx.state }
  let s := (A.solution.setDecision blocks.headerBlock decision).propagateMandatoryLoopBoundary
    A.graph ctx L blocks decision.bodyAllocation
  { A with solution := match blocks.latchBlock with
      | some latch => s.enableCheckpoint A.graph ⟨latch, blocks.headerBlock⟩
      | none => s }

/-- The decision for a back edge whose two ends agree. -/
def decideByBudget (ctx : Context) (trace : LoadedLoopTrace) (headerAlloc : ValueMap Placement)
    (A : Analysis) : Except Failure Analysis := do
  let L := trace.loop
  let blocks := createLoopBoundaryBlocks L
  let maxTripCount := trace.maxTripCount.getD (2 ^ 32 - 1)
  let bodyPaths := (trace.iterationPaths.map EnumeratedPath.blocks).filter fun p => !p.isEmpty
  let bodyAlloc := buildBoundaryAllocation headerAlloc ctx.state
  let s := A.solution.copyLoopBoundaryEnergyToSyntheticBlocks blocks
  let budget := s.readLoopIterationBudget ctx blocks bodyAlloc
  let decision : LoopCheckpointDecision := {
    loop := L, E_loop := budget.ELoop, bodyAllocation := bodyAlloc }
  if budget.ELoop ≤ 0 then
    return { A with solution := s.setDecision blocks.headerBlock decision }
  if budget.availableEnergy ≤ 0 then
    let decision := { decision with mandatoryBackEdge := true, numIterationsPerCharge := 1 }
    let s := s.setDecision blocks.headerBlock decision
    return { A with solution := match blocks.latchBlock with
      | some latch => s.enableCheckpoint A.graph ⟨latch, blocks.headerBlock⟩
      | none => s }
  let C := refineLoopBudgetWithConvergence ctx A.graph trace maxTripCount
    ⟨s, A.tracker, budget, bodyAlloc, decision⟩
  let C ← splitLoopBody ctx A.graph L bodyPaths C
  let (decision, s) := C.solution.applyLoopCheckpointPolicy A.graph (maxTripCount % 2 ^ 32) blocks
    C.budget C.decision
  let s := (s.setDecision blocks.headerBlock decision).applyLoopIterationAdjustment L
    (maxTripCount % 2 ^ 32) decision C.budget.ELoop
  return { A with solution := s, tracker := C.tracker }

/-- **`analyzeLoop`**. -/
def analyzeLoop (ctx : Context) (trace : LoadedLoopTrace) (A : Analysis) :
    Except Failure Analysis := do
  let blocks := createLoopBoundaryBlocks trace.loop
  let A ← A.analyzeLoopBody ctx trace
  let (placements, s) := A.solution.resolveLoopBoundaryPlacements blocks
  let A := { A with solution := s }
  let A ← if placements.allocationsDiffer then
      pure (A.decideMismatch ctx trace.loop placements.headerAlloc)
    else A.decideByBudget ctx trace placements.headerAlloc
  return { A with solution := A.solution.eraseSyntheticLoopBoundaryState blocks }

/-- Every member of a traced loop is on one of its traces or inside a traced loop in it, and no loop
inside a traced loop lacks a trace. -/
def coversLoops (LI : LoopInfo) (traces : List LoadedLoopTrace) : Bool :=
  let nested (outer inner : Loop) : Bool := decide (inner ≠ outer) && outer.contains inner.header
  (traces.all fun t => t.members.all fun m =>
    (t.iterationPaths.any fun p => m ∈ p.blocks) ||
      traces.any fun c => nested t.loop c.loop && decide (m ∈ c.members)) &&
  LI.loops.all fun L =>
    (traces.any fun t => t.loop.header = L.header) ||
      !(LI.loops.any fun outer => nested outer L && traces.any
        fun t => t.loop.header = outer.header)

/-- **`analyzeLoops`**: the traced loops, innermost first. -/
def analyzeLoops (ctx : Context) (traces : List LoadedLoopTrace) (A : Analysis) :
    Except Failure Analysis :=
  if !coversLoops ctx.LI traces then .error .fatal
  else (traces.insertionSort fun a b => b.depth ≤ a.depth).foldlM
    (fun A trace => A.analyzeLoop ctx trace) A

end Analysis

end Bao.Schematic
