import Bao.Schematic.EnergyPropagation

/-!
# The reachable checkpoint graph

`RCGSolver.cpp` decides where a trace gets its checkpoints. The nodes are the two ends of the trace
and its candidate edges; an arc stands for an interval whose cost is below its budget; the chosen
checkpoints are those of a shortest path.

The allocator records addresses for every interval that is tried, accepted or not, so the tracker is
threaded through the construction in the order of the source.
-/

namespace Bao.Schematic

/-- Execution energy of an interval less the gain of its allocation (`computeCost`). -/
def computeCost (solution : SchematicSolution) (ctx : Context) (blocks : List Block)
    (startAlloc endAlloc : Option RegionAllocation) (tracker : VMAddressTracker) :
    (RegionAllocation × ℚ) × VMAddressTracker :=
  if blocks.isEmpty then (({}, 0), tracker)
  else
    let bbs := blocks.filterMap Block.getLLVMBlock
    let ((alloc, gain), tracker) := chooseMemoryAllocation bbs ctx.state ctx.params startAlloc
      endAlloc (blocks.filterMap solution.allocationOf) tracker
    ((alloc, (bbs.map ctx.cfg.energyCost).sum - gain), tracker)

namespace RCGSolver

/-- A node: an end of the trace, or the candidate edge before the block with the given index. -/
inductive Node
  | start
  | candidateEdge (blockIndex : ℕ)
  | finish
deriving DecidableEq

/-- An arc: an interval with its cost, allocation and blocks. Arcs are named by node positions. -/
structure RCGEdge where
  src : ℕ
  dst : ℕ
  weight : ℚ
  allocation : RegionAllocation
  blocks : List Block

/-- What `solve` returns for a feasible trace. -/
structure RCGResult where
  totalCost : ℚ
  selectedCheckpoints : List CFGEdge
  allocations : List RegionAllocation
  intervalBlocks : List (List Block)

/-- The trace to solve, with the solution it reads. -/
structure Problem where
  pathBlocks : List Block
  solution : SchematicSolution
  ctx : Context

namespace Problem

variable (P : Problem)

/-- The block of a trace position. -/
def blockAt (i : ℕ) : Block := P.pathBlocks.getD i .startFunc

/-- An isolated call block. -/
def isCallBlock (b : Block) : Bool := b ∈ P.solution.functionCallBlocks

/-- The candidate edges: all adjacent pairs but the interior edge of an isolated call. -/
def getCheckpointsFromTrace : List Node :=
  .start :: ((List.range (P.pathBlocks.length - 1)).filter fun i =>
    !(P.isCallBlock (P.blockAt i) && P.isCallBlock (P.blockAt (i + 1)))).map
      (fun i => .candidateEdge (i + 1)) ++ [.finish]

/-- The node at a position. -/
def nodeAt (n : ℕ) : Node := P.getCheckpointsFromTrace.getD n .finish

/-- The blocks of an interval. The two ends of the trace belong to no interval. -/
def getIntervalBlocks (src dst : Node) : List Block :=
  let startIdx := match src with
    | .candidateEdge i => i
    | _ => 1
  let endIdx := match dst with
    | .candidateEdge j => j - 1
    | _ => P.pathBlocks.length - 2
  (P.pathBlocks.take (endIdx + 1)).drop startIdx

/-- The allocation the trace starts with. -/
def startAlloc : Option RegionAllocation := P.solution.allocationOf (P.pathBlocks.headD .startFunc)

/-- The allocation the trace ends with. -/
def endAlloc : Option RegionAllocation := P.solution.allocationOf (P.pathBlocks.getLastD .endFunc)

/-- The energy left where the trace starts. The entry of a function or of a loop also pays the
call. -/
def energyLeft : ℚ :=
  let front := P.pathBlocks.headD .startFunc
  let left := match (P.solution.blockMeta front).E_left with
    | some e => e
    | none => P.ctx.params.capacity - P.ctx.params.chkptRestore
  match front with
  | .startFunc | .startLoop _ => left - P.ctx.params.callCost
  | _ => left

/-- The energy that is still needed where the trace ends. -/
def energyToLeave : ℚ :=
  let e := (P.solution.blockMeta (P.pathBlocks.getLastD .endFunc)).E_to_leave
  if e = 0 then P.ctx.params.chkptSave else e

/-- The arcs found so far, and the tracker. -/
abbrev Building := List RCGEdge × VMAddressTracker

/-- One interval: its cost with the overhead of its kind, and its arc if the cost passes the
test. -/
def tryInterval (src dst : ℕ) (startAlloc endAlloc : Option RegionAllocation) (overhead : ℚ)
    (fits : ℚ → Bool) (b : Building) : ℚ × Building :=
  let blocks := P.getIntervalBlocks (P.nodeAt src) (P.nodeAt dst)
  let ((alloc, cost), tracker) := computeCost P.solution P.ctx blocks startAlloc endAlloc b.2
  let cost := cost + overhead
  (cost, if fits cost then
    (b.1 ++ [⟨src, dst, cost, { alloc with intervalEnergy := cost }, blocks⟩], tracker)
  else (b.1, tracker))

/-- A row of intervals, left as soon as the previous cost passes the limit. -/
def tryRow (stop : ℚ → Bool) (try_ : ℕ → Building → ℚ × Building) :
    ℚ → List ℕ → Building → Building
  | _, [], b => b
  | prevCost, n :: rest, b =>
    if stop prevCost then b
    else
      let (cost, b) := try_ n b
      tryRow stop try_ cost rest b

/-- **`createReachableCheckpointGraph`**: interior intervals, intervals from the start, intervals to
the end (scanned backwards), and the whole trace. -/
def createReachableCheckpointGraph (tracker : VMAddressTracker) : Building :=
  let params := P.ctx.params
  let endNode := P.getCheckpointsFromTrace.length - 1
  let internal := (List.range endNode).tail
  let b : Building := internal.foldl (fun b i =>
    tryRow (fun prevCost => decide (params.capacity ≤ prevCost))
      (fun j => P.tryInterval i j none none (params.chkptRestore + params.chkptSave)
        fun cost => decide (cost < params.capacity))
      0 (internal.filter fun j => i < j) b) ([], tracker)
  let b := tryRow (fun prevCost => decide (P.energyLeft ≤ prevCost))
    (fun j => P.tryInterval 0 j P.startAlloc none params.chkptSave
      fun cost => decide (cost < P.energyLeft)) 0 internal b
  let b := tryRow (fun prevCost => decide (params.capacity ≤ prevCost + P.energyToLeave))
    (fun i => P.tryInterval i endNode none P.endAlloc params.chkptRestore
      fun cost => decide (cost + P.energyToLeave < params.capacity)) 0 internal.reverse b
  (P.tryInterval 0 endNode P.startAlloc P.endAlloc 0
    (fun cost => decide (cost + P.energyToLeave < P.energyLeft)) b).2

end Problem

/-- The shortest distances found so far, with the arc each was reached by. -/
abbrev Distances := ℕ → Option (ℚ × Option RCGEdge)

/-- Relaxes one arc. -/
def relax (dist : Distances) (edge : RCGEdge) : Distances :=
  match dist edge.src with
  | none => dist
  | some (d, _) =>
    let newDist := d + edge.weight
    match dist edge.dst with
    | some (old, _) =>
      if newDist < old then Function.update dist edge.dst (some (newDist, some edge)) else dist
    | none => Function.update dist edge.dst (some (newDist, some edge))

/-- The distances from the start; the arcs go from lower to higher positions. -/
def distances (numNodes : ℕ) (adj : List RCGEdge) : Distances :=
  (List.range numNodes).foldl
    (fun dist i => (adj.filter fun e => e.src = i).foldl relax dist)
    (Function.update (fun _ => none) 0 (some (0, none)))

/-- The arcs of the shortest path, first arc first. -/
def backtrack (dist : Distances) : ℕ → ℕ → List RCGEdge → List RCGEdge
  | 0, _, path => path
  | fuel + 1, n, path =>
    match dist n with
    | some (_, some edge) => backtrack dist fuel edge.src (edge :: path)
    | _ => path

/-- **`solve`**. A trace of fewer than three blocks is a fatal error; `none` is an infeasible
trace. -/
def solve (P : Problem) (tracker : VMAddressTracker) : Option RCGResult × VMAddressTracker :=
  let (adj, tracker) := P.createReachableCheckpointGraph tracker
  let numNodes := P.getCheckpointsFromTrace.length
  let dist := distances numNodes adj
  match dist (numNodes - 1) with
  | none => (none, tracker)
  | some (total, _) =>
    let path := backtrack dist numNodes (numNodes - 1) []
    (some {
      totalCost := total
      selectedCheckpoints := path.filterMap fun e =>
        match P.nodeAt e.dst with
        | .candidateEdge i => some ⟨P.blockAt (i - 1), P.blockAt i⟩
        | _ => none
      allocations := path.map RCGEdge.allocation
      intervalBlocks := path.map RCGEdge.blocks }, tracker)

end RCGSolver

end Bao.Schematic
