import Bao.Schematic.RCGSolver

/-!
# Trace analysis

How the analyses change a solution (`TraceAnalyzer.cpp`, and `applyMemoryAllocation` of
`MemoryAllocator.cpp`):

* `analyzeTrace` cuts a trace into its unanalyzed stretches, solves each and applies the result;
* `findAndAnalyzeNotFixedPaths` does the same for blocks no trace covers;
* `removePotentialCheckpointsBetweenFixedBBs` decides the edges that are left;
* `refreshDisabledCheckpointEnergy` propagates the energies of a loop body again until they settle.
-/

namespace Bao.Schematic

/-- Why an analysis gives up: a trace that does not fit, or a fatal error. -/
inductive Failure
  | infeasible
  | fatal
deriving DecidableEq

/-- What an analysis changes. -/
structure Analysis where
  solution : SchematicSolution := {}
  graph : SchematicGraph := {}
  tracker : VMAddressTracker := {}

namespace SchematicSolution

variable (solution : SchematicSolution) (graph : SchematicGraph) (ctx : Context)

/-! ### Applying an RCG result -/

/-- Enables the selected edges of a trace and disables the others. -/
def updateCheckpointType (trace : List Block) (selectedCheckpoints : List CFGEdge) :
    SchematicSolution :=
  let selectedResolved := selectedCheckpoints.map graph.resolveCheckpointEdge
  (trace.zip trace.tail).foldl (fun s p =>
    let resolved := graph.resolveCheckpointEdge ⟨p.1, p.2⟩
    if resolved ∈ selectedResolved then s.enableCheckpoint graph resolved
    else s.disableCheckpoint graph resolved) solution

/-- Extends the object a block points to, if it has one. -/
def extendBlock (b : Block) (source : RegionAllocation) : SchematicSolution :=
  match solution.blockAllocation b with
  | some r => solution.setObject r (extendsAllocation (solution.heap r) source)
  | none => solution

/-- Lets every block that points to one object point to another. -/
def redirect (old new : AllocRef) : SchematicSolution :=
  { solution with blockAllocation := fun b =>
      if solution.blockAllocation b = some old then some new else solution.blockAllocation b }

/-- The extension at one end of the trace: where no checkpoint separates the end from interval `n`,
the end takes over the variables of the interval, and the interval the allocation of the end. -/
def extendEnd (b : Block) (noSeparation : Bool) (n : ℕ) (allocations : List RegionAllocation) :
    SchematicSolution × List RegionAllocation :=
  match solution.blockAllocation b with
  | some r =>
    if noSeparation then
      let s := solution.extendBlock b (allocations.getD n {})
      (s, allocations.set n (s.heap r))
    else (solution, allocations)
  | none => (solution, allocations)

/-- Without any checkpoint on the trace both ends take over the one interval, and the blocks that
share the object of the start share the object of the end from now on. -/
def unifyEnds (front back : Block) (alloc : RegionAllocation) : SchematicSolution :=
  let s := (solution.extendBlock front alloc).extendBlock back alloc
  match s.blockAllocation front, s.blockAllocation back with
  | some old, some new => if old = new then s else s.redirect old new
  | _, _ => s

/-- The boundary extension of `applyMemoryAllocation`. -/
def extendBoundaries (trace : List Block) (selectedCheckpoints : List CFGEdge)
    (allocations : List RegionAllocation) : SchematicSolution × List RegionAllocation :=
  if allocations.isEmpty then (solution, allocations)
  else
    let front := trace.headD .startFunc
    let back := trace.getLastD .endFunc
    let p := solution.extendEnd front
      (selectedCheckpoints.head?.all fun (c : CFGEdge) => decide (c.src ≠ front)) 0 allocations
    let q := p.1.extendEnd back
      (selectedCheckpoints.getLast?.all fun (c : CFGEdge) => decide (c.dst ≠ back))
      (p.2.length - 1) p.2
    if selectedCheckpoints.isEmpty then (q.1.unifyEnds front back (q.2.headD {}), q.2)
    else q

/-- Fixes a block of an interval: it is analyzed, takes the placements it lacks, and its allocation
is extended, or is the object of the interval if it had none. -/
def fixBlock (b : Block) (memoryAlloc : AllocRef) (vars : ValueMap VariableAllocation) :
    SchematicSolution :=
  let s := solution.setMeta b { solution.blockMeta b with analyzed := true }
  let s := s.setPlacements b (vars.walk.foldl (fun p e =>
    if e.1 ∈ p then p else p.insert e.1 e.2.placement) (s.decidedPlacements b))
  match s.blockAllocation b with
  | some _ => s.extendBlock b (s.heap memoryAlloc)
  | none => s.setBlockAllocation b (some memoryAlloc)

/-- The blocks of an interval: those up to its checkpoint, if it ends with one. -/
def splitAtCheckpoint (checkpoint : Option CFGEdge) : List Block → List Block × List Block
  | [] => ([], [])
  | [b] => ([], [b])
  | b :: c :: rest =>
    if checkpoint = some ⟨b, c⟩ then ([b], c :: rest)
    else
      let p := splitAtCheckpoint checkpoint (c :: rest)
      (b :: p.1, p.2)

/-- Records the allocations along a trace. The last block of the trace gets the last object. -/
def recordAllocations :
    SchematicSolution → List Block → List CFGEdge → List (RegionAllocation × List Block) →
      Option AllocRef → SchematicSolution
  | s, rest, _, [], memoryAlloc =>
    match memoryAlloc, rest with
    | some r, b :: _ => s.fixBlock b r (s.heap r).vars
    | _, _ => s
  | s, rest, checkpoints, (alloc, blocks) :: allocations, _ =>
    let p := splitAtCheckpoint checkpoints.head? rest
    let r := s.nextRef
    let s := p.1.foldl (fun s b => s.fixBlock b r alloc.vars) (s.makeShared alloc)
    recordAllocations { s with regions := s.regions ++ [⟨blocks, alloc⟩] } p.2 checkpoints.tail
      allocations (some r)

/-- The energies after a checkpoint: a block that starts the trace and has an `E_left` keeps it, any
other block starts with a full buffer less the restore. -/
def seedForward (before : Option Block) (after : Block) (isVirtual : Bool)
    (loopScope : Option Loop) : SchematicSolution :=
  let start : WithTop ℚ :=
    match isVirtual, (solution.blockMeta after).E_left with
    | true, some e => some (e + solution.getBlockExecEnergy after ctx.cfg ctx.state ctx.params)
    | _, _ => some (ctx.params.capacity - ctx.params.chkptRestore -
        solution.computeAllocationRestoreCost after ctx.state ctx.params)
  solution.propagateEnergyLeft graph ctx (before, some after) start loopScope

/-- The energies before a checkpoint: a block that has an `E_to_leave` keeps it, any other block has
to save its variables. -/
def seedBackward (before : Block) (after : Option Block) (loopScope : Option Loop) :
    SchematicSolution :=
  let e := (solution.blockMeta before).E_to_leave
  let toLeave :=
    if e ≠ 0 then e - solution.getBlockExecEnergy before ctx.cfg ctx.state ctx.params
    else ctx.params.chkptSave + solution.computeAllocationSaveCost before ctx.state ctx.params
  solution.propagateEnergyToLeave graph ctx (some before, after) toLeave loopScope

/-- **`applyMemoryAllocation`**. -/
def applyMemoryAllocation (result : RCGSolver.RCGResult) (trace : List Block)
    (loopScope : Option Loop) : SchematicSolution :=
  let s := solution.updateCheckpointType graph trace result.selectedCheckpoints
  let p := s.extendBoundaries trace result.selectedCheckpoints result.allocations
  let s := p.1.recordAllocations trace result.selectedCheckpoints
    (p.2.zip result.intervalBlocks) none
  let s := s.seedForward graph ctx none (trace.headD .startFunc) true loopScope
  let s := result.selectedCheckpoints.foldl (fun s c =>
    (s.seedForward graph ctx (some c.src) c.dst false loopScope).seedBackward graph ctx c.src
      (some c.dst) loopScope) s
  s.seedBackward graph ctx (trace.getLastD .endFunc) none loopScope

/-! ### Traces -/

/-- The state of `extractNotFixedBBPaths`. -/
structure PathScan where
  paths : List (List Block) := []
  currentPath : List Block := []
  registeringPath : Bool := false
  lastFixedBB : Option Block := none

/-- A fixed block ends the stretch it belongs to and may start the next one. -/
def PathScan.scan (isFixed : Block → Bool) (p : PathScan) (block : Block) : PathScan :=
  let p : PathScan :=
    if p.registeringPath then
      if isFixed block then
        { p with paths := p.paths ++ [p.currentPath ++ [block]], currentPath := []
                 registeringPath := false }
      else { p with currentPath := p.currentPath ++ [block] }
    else p
  if p.registeringPath then p
  else if isFixed block then { p with lastFixedBB := some block }
  else
    { p with
      registeringPath := true
      currentPath := p.currentPath ++ p.lastFixedBB.toList ++ [block]
      lastFixedBB := none }

/-- The unanalyzed stretches of a trace, each with the analyzed blocks around it. -/
def extractNotFixedBBPaths (trace : List Block) : List (List Block) :=
  let p := trace.foldl (PathScan.scan fun b => (solution.blockMeta b).analyzed) {}
  if p.registeringPath then p.paths ++ [p.currentPath] else p.paths

/-- The walk through unanalyzed blocks, always to the first unanalyzed successor. -/
def walkNotFixed : ℕ → Block → List Block → List Block
  | 0, _, trace => trace
  | fuel + 1, bb, trace =>
    if bb ∈ trace then trace
    else
      let trace := trace ++ [bb]
      match (graph.successors bb).find? fun n => !(solution.blockMeta n).analyzed with
      | some n => walkNotFixed fuel n trace
      | none => trace

/-- A trace through an uncovered block: an analyzed predecessor, unanalyzed blocks, and an analyzed
successor, where there are such. -/
def extractNotFixedBBTrace (startBB : Block) : List Block :=
  let analyzed := fun b => (solution.blockMeta b).analyzed
  let body := solution.walkNotFixed graph (graph.edges.length + 2) startBB []
  ((graph.predecessors startBB).find? analyzed).toList ++ body ++
    (body.getLast?.bind fun last => (graph.successors last).find? analyzed).toList

end SchematicSolution

open SchematicSolution

namespace Analysis

/-- Solves one stretch and applies the result. -/
def analyzeSubPath (ctx : Context) (loopScope : Option Loop) (subPath : List Block) (A : Analysis) :
    Except Failure Analysis :=
  if subPath.length < 3 then .error .fatal
  else match RCGSolver.solve ⟨subPath, A.solution, ctx⟩ A.tracker with
    | (none, _) => .error .infeasible
    | (some result, tracker) => .ok { A with
        solution := A.solution.applyMemoryAllocation A.graph ctx result subPath loopScope
        tracker := tracker }

/-- **`analyzeTrace`**. The stretches are cut before the first of them is solved. -/
def analyzeTrace (ctx : Context) (loopScope : Option Loop) (trace : List Block) (A : Analysis) :
    Except Failure Analysis :=
  if trace.all fun b => (A.solution.blockMeta b).analyzed then .ok A
  else (A.solution.extractNotFixedBBPaths trace).foldlM
    (fun A subPath => A.analyzeSubPath ctx loopScope subPath) A

/-- **`findAndAnalyzeNotFixedPaths`**. -/
def findAndAnalyzeNotFixedPaths (ctx : Context) (loopScope : Option Loop) (A : Analysis) :
    Except Failure Analysis :=
  ctx.cfg.blocks.foldlM (fun A bb =>
    if outsideScope loopScope (.real bb) || (A.solution.blockMeta (.real bb)).analyzed then .ok A
    else A.analyzeTrace ctx loopScope (A.solution.extractNotFixedBBTrace A.graph (.real bb))) A

end Analysis

/-! ### Edges between fixed blocks -/

namespace SchematicSolution

variable (solution : SchematicSolution) (graph : SchematicGraph) (ctx : Context)

/-- An edge in the required state whose ends are both fixed, with the allocations of its ends. -/
def getFixedCheckpointEdgeWithState (loopScope : Option Loop) (requiredState : CheckpointState)
    (cfgEdge : BasicBlock × BasicBlock) : Option (CFGEdge × RegionAllocation × RegionAllocation) :=
  let edge : CFGEdge := ⟨.real cfgEdge.1, .real cfgEdge.2⟩
  if outsideScope loopScope edge.src || outsideScope loopScope edge.dst then none
  else if solution.getCheckpointState graph edge ≠ requiredState then none
  else if isLoopBackEdge ctx.LI cfgEdge.1 cfgEdge.2 then none
  else if !((solution.blockMeta edge.src).analyzed && (solution.blockMeta edge.dst).analyzed) then
    none
  else match solution.allocationOf edge.src, solution.allocationOf edge.dst with
    | some srcAlloc, some dstAlloc => some (edge, srcAlloc, dstAlloc)
    | _, _ => none

/-- The energy left after the edge's source covers what its target still needs. -/
def canMergeWithoutCheckpoint (edge : CFGEdge) : Bool :=
  decide (((solution.blockMeta edge.dst).E_to_leave : WithTop ℚ) <
    (solution.blockMeta edge.src).E_left)

/-- Propagates both energies over an edge. -/
def propagateOverEdge (edge : CFGEdge) (loopScope : Option Loop) : SchematicSolution :=
  let s := solution.propagateEnergyLeft graph ctx (some edge.src, some edge.dst)
    (solution.blockMeta edge.src).E_left loopScope
  s.propagateEnergyToLeave graph ctx (some edge.src, some edge.dst)
    (s.blockMeta edge.dst).E_to_leave loopScope

/-- Decides one edge: a checkpoint where the allocations conflict or the energy does not suffice. -/
def resolvePotentialEdge (loopScope : Option Loop) (cfgEdge : BasicBlock × BasicBlock) :
    SchematicSolution :=
  match solution.getFixedCheckpointEdgeWithState graph ctx loopScope .potential cfgEdge with
  | none => solution
  | some (edge, srcAlloc, dstAlloc) =>
    if !isCompatibleWith srcAlloc dstAlloc ctx.state then solution.enableCheckpoint graph edge
    else if solution.canMergeWithoutCheckpoint edge then
      (solution.disableCheckpoint graph edge).propagateOverEdge graph ctx edge loopScope
    else solution.enableCheckpoint graph edge

/-- **`removePotentialCheckpointsBetweenFixedBBs`**. -/
def removePotentialCheckpointsBetweenFixedBBs (loopScope : Option Loop) : SchematicSolution :=
  ctx.cfg.edges.foldl (fun s e => s.resolvePotentialEdge graph ctx loopScope e) solution

/-- One round of `refreshDisabledCheckpointEnergy`. -/
def refreshRound (loopScope : Option Loop) : SchematicSolution :=
  ctx.cfg.edges.foldl (fun s e =>
    match s.getFixedCheckpointEdgeWithState graph ctx loopScope .disabled e with
    | none => s
    | some (edge, srcAlloc, dstAlloc) =>
      if isCompatibleWith srcAlloc dstAlloc ctx.state then
        s.propagateOverEdge graph ctx edge loopScope
      else s) solution

/-- The energies of some block moved by more than the tolerance. -/
def energySnapshotsDiffer (before after : SchematicSolution) (loopScope : Option Loop) : Bool :=
  (ctx.cfg.blocks.map Block.real ++ graph.edges.flatMap fun e => [e.src, e.dst]).any fun b =>
    (before.blockMeta b).analyzed && !outsideScope loopScope b &&
      (decide (1 / 10 ^ 9 < |(before.blockMeta b).E_to_leave - (after.blockMeta b).E_to_leave|) ||
        match (before.blockMeta b).E_left, (after.blockMeta b).E_left with
        | some x, some y => decide (1 / 10 ^ 9 < |x - y|)
        | none, none => false
        | _, _ => true)

/-- The rounds of `refreshDisabledCheckpointEnergy`. -/
def refreshRounds (loopScope : Option Loop) : ℕ → SchematicSolution → SchematicSolution
  | 0, s => s
  | n + 1, s =>
    let after := s.refreshRound graph ctx loopScope
    if energySnapshotsDiffer graph ctx s after loopScope then refreshRounds loopScope n after
    else after

/-- **`refreshDisabledCheckpointEnergy`**. -/
def refreshDisabledCheckpointEnergy (loopScope : Option Loop) : SchematicSolution :=
  refreshRounds graph ctx loopScope (max 1 ctx.cfg.edges.length) solution

end SchematicSolution

end Bao.Schematic
