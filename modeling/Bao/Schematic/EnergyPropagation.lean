import Bao.Graph.Propagation
import Bao.Schematic.Solution

/-!
# Energy propagation

`propagateEnergyLeft` walks forward from a seed edge over disabled edges and lowers the `E_left` of
the blocks it reaches; `propagateEnergyToLeave` walks backward and raises `E_to_leave`
(`EnergyPropagation.cpp`). Neither crosses a loop back edge nor leaves the loop scope, and an
analyzed loop that a walk crosses is charged for its remaining iterations once per propagation.
-/

namespace Bao.Schematic

open Bao.Graph.Propagation

/-- What the analyses read and do not change. -/
structure Context where
  cfg : CFGAnalysis
  state : SchematicStateAnalysis
  params : SchematicParams
  LI : LoopInfo

/-- A seed edge or an edge of the graph; a seed may lack one end. -/
abbrev SeedEdge := Option Block × Option Block

/-- A real block outside the loop scope. -/
def outsideScope (loopScope : Option Loop) (b : Block) : Bool :=
  match loopScope, b.getLLVMBlock with
  | some L, some bb => !L.contains bb
  | _, _ => false

namespace SchematicSolution

variable (solution : SchematicSolution) (graph : SchematicGraph) (ctx : Context)

/-- The edge is disabled and no back edge. -/
def isDisabledForward (edge : CFGEdge) : Bool :=
  decide (solution.getCheckpointState graph edge = .disabled) &&
    !(match edge.src.getLLVMBlock, edge.dst.getLLVMBlock with
      | some srcBB, some dstBB => isLoopBackEdge ctx.LI srcBB dstBB
      | _, _ => false)

/-- The edges a backward walk follows from the source of an edge. -/
def backwardEdges (loopScope : Option Loop) (edge : SeedEdge) : List SeedEdge :=
  match edge.1 with
  | none => []
  | some bb =>
    if outsideScope loopScope bb then []
    else ((graph.predecessors bb).filter fun pred =>
      solution.isDisabledForward graph ctx ⟨pred, bb⟩ && !outsideScope loopScope pred).map
        fun pred => (some pred, some bb)

/-- The edges a forward walk follows from the target of an edge. -/
def forwardEdges (loopScope : Option Loop) (edge : SeedEdge) : List SeedEdge :=
  match edge.2 with
  | none => []
  | some bb =>
    if outsideScope loopScope bb then []
    else ((graph.successors bb).filter fun succ =>
      solution.isDisabledForward graph ctx ⟨bb, succ⟩ && !outsideScope loopScope succ).map
        fun succ => (some bb, some succ)

/-- The loop of a seed is already in the seed's energy. -/
def markSeedLoopSeen (bb : Option Block) : List BasicBlock :=
  match bb with
  | none => []
  | some b =>
    match (solution.blockMeta b).loop with
    | some mark => [mark.header]
    | none => []

/-- The remaining iterations of the loop a block belongs to, charged once per loop header. -/
def loopIterationCharge (bb : Block) (seenLoops : List BasicBlock) : ℚ × List BasicBlock :=
  match (solution.blockMeta bb).loop with
  | none => (0, seenLoops)
  | some mark =>
    if mark.header ∈ seenLoops then (0, seenLoops)
    else (((mark.nbIter + (2 ^ 32 - 1)) % 2 ^ 32 : ℕ) * mark.costOneIt, mark.header :: seenLoops)

/-- What a walk pays for a block. -/
def walkCharge (seenLoops : List BasicBlock) (bb : Option Block) : ℚ × List BasicBlock :=
  match bb with
  | none => (0, seenLoops)
  | some b =>
    let (iterations, seenLoops) := solution.loopIterationCharge b seenLoops
    (iterations + solution.getBlockExecEnergy b ctx.cfg ctx.state ctx.params, seenLoops)

/-- No walk expands more edges than this. -/
def walkFuel : ℕ := (graph.edges.length + 2) * (graph.edges.length + 2)

/-- Raises the `E_to_leave` of a block. -/
def raiseEToLeave (b : Block) (e : ℚ) : SchematicSolution :=
  if (solution.blockMeta b).E_to_leave < e then
    solution.setMeta b { solution.blockMeta b with E_to_leave := e }
  else solution

/-- Lowers the `E_left` of a block. -/
def lowerELeft (b : Block) (e : WithTop ℚ) : SchematicSolution :=
  if e < (solution.blockMeta b).E_left then
    solution.setMeta b { solution.blockMeta b with E_left := e }
  else solution

/-- **`propagateEnergyToLeave`**: the seed energy plus the blocks of the walk, worst case at a
join. -/
def propagateEnergyToLeave (seedEdge : SeedEdge) (seedEToLeave : ℚ) (loopScope : Option Loop) :
    SchematicSolution :=
  (propagate (solution.backwardEdges graph ctx loopScope)
    (fun seen e => solution.walkCharge ctx seen e.1) (walkFuel graph) seedEdge seedEToLeave
    (solution.markSeedLoopSeen seedEdge.1)).foldl (fun s p =>
      match p.1.1 with
      | some b => s.raiseEToLeave b p.2
      | none => s) solution

/-- **`propagateEnergyLeft`**: the seed energy less the blocks of the walk, worst case at a join. -/
def propagateEnergyLeft (seedEdge : SeedEdge) (seedELeft : WithTop ℚ) (loopScope : Option Loop) :
    SchematicSolution :=
  (propagate (solution.forwardEdges graph ctx loopScope)
    (fun seen e => solution.walkCharge ctx seen e.2) (walkFuel graph) seedEdge 0
    (solution.markSeedLoopSeen seedEdge.2)).foldl (fun s p =>
      match p.1.2 with
      | some b => s.lowerELeft b (seedELeft.map (· - p.2))
      | none => s) solution

end SchematicSolution

end Bao.Schematic
