import Bao.Linear.Model
import Bao.Graph.Walk
import Bao.Milp.Views

/-!
# The checkpoint placement model

`CheckpointOptimizer::buildModel` assembles the MILP: region starts `r_b`, placements
`m_{b,v}` (one `m_v` for each global under coarse allocation), need-restore `rHat_{b,v}`,
dirty bits `d_{b,v}`, saves `s_{b,v}` and accumulated energy `eAccum_b`. Every function of
the builder is embedded under its own name and returns the declarations or constraints it
adds, in source order; the maps `m_`, `d_`, `rHat_`, `s_` of solver handles appear as their
key lists. Constraint names are diagnostics of the solver and are left out.

`extractSolution` rounds a solver assignment at `0.5`; its result is what the instrumenter
reads.
-/

namespace Bao.Milp

/-- The decision variables of the model. -/
inductive MilpVar
  | r (b : NodeId)
  | mGlobal (g : GlobalVariable)
  | m (b : NodeId) (v : Value)
  | rHat (b : NodeId) (v : Value)
  | d (b : NodeId) (v : Value)
  | s (b : NodeId) (v : Value)
  | eAccum (b : NodeId)
  deriving DecidableEq, Repr

/-- The optimizer's input and its allocation mode. -/
structure CheckpointOptimizer where
  cfg : ICFGView
  state : IStateView
  energy : IEnergyView
  coarseAllocation : Bool

namespace CheckpointOptimizer

open LinExpr (var ofRat)

variable (P : CheckpointOptimizer)

/-- `buildPredecessorMap`. -/
def predecessors (b : NodeId) : List NodeId :=
  (P.cfg.edges.filter fun e => e.2 = b).map Prod.fst

/-- `buildSuccessorMap`. -/
def successors (b : NodeId) : List NodeId :=
  (P.cfg.edges.filter fun e => e.1 = b).map Prod.snd

/-- All tracked variables: the candidate globals and the ineligible objects. -/
def orderedTrackedValues : List Value :=
  P.state.vmObjs.map .global ++ P.state.ineligibleObjs

/-- `collectSortedLiveInValues`: everything live into a node. -/
def liveInValues (b : NodeId) : List Value :=
  (P.state.eligLiveIn b).map .global ++ P.state.ineligLiveIn b

/-- `computeReachableDefs`: the forward closure `Reach(v)` of the nodes that define `v`. -/
def reachableDefs (v : Value) : List NodeId :=
  Graph.closure P.successors P.cfg.blocks (P.cfg.blocks.filter fun b => P.state.isDef b v)

/-! ### Variables -/

/-- The pairs with a dirty variable `d_{b,v}`: `b ∈ Reach(v)`. -/
def dKeys : List (NodeId × Value) :=
  P.cfg.blocks.flatMap fun b =>
    (P.orderedTrackedValues.filter fun v => b ∈ P.reachableDefs v).map fun v => (b, v)

/-- The pairs with a placement variable `m_{b,v}`: the eligible ones, in fine mode. -/
def mKeys : List (NodeId × Value) :=
  if P.coarseAllocation then []
  else P.cfg.blocks.flatMap fun b =>
    (P.orderedTrackedValues.filter fun v => !P.state.isIneligible v).map fun v => (b, v)

/-- The pairs with a need-restore variable: eligible and live-in. -/
def rHatKeys : List (NodeId × Value) :=
  P.cfg.blocks.flatMap fun b => (P.state.eligLiveIn b).map fun g => (b, .global g)

/-- The pairs with a save variable: not at the entry, live-in, and with a dirty variable at
some predecessor. -/
def sKeys : List (NodeId × Value) :=
  (P.cfg.blocks.filter fun b => b ≠ P.cfg.entryBlock).flatMap fun b =>
    ((P.liveInValues b).filter fun v =>
      (P.predecessors b).any fun p => (p, v) ∈ P.dKeys).map fun v => (b, v)

/-- `addVariables`. -/
def addVariables : List (VarDecl MilpVar) :=
  (P.cfg.blocks.map fun b => ⟨.r b, 0, 1, .binary⟩) ++
  (if P.coarseAllocation then
    P.state.vmObjs.map fun g => ⟨.mGlobal g, 0, 1, .binary⟩ else []) ++
  (P.mKeys.map fun k => ⟨.m k.1 k.2, 0, 1, .binary⟩) ++
  (P.dKeys.map fun k => ⟨.d k.1 k.2, 0, 1, .continuous⟩) ++
  (P.rHatKeys.map fun k => ⟨.rHat k.1 k.2, 0, 1, .continuous⟩) ++
  (P.sKeys.map fun k => ⟨.s k.1 k.2, 0, 1, .continuous⟩) ++
  (P.cfg.blocks.map fun b => ⟨.eAccum b, 0, P.energy.params.capacity, .continuous⟩)

/-- The placement of a candidate global at a node: `m_{b,v}`, or `m_v` in coarse mode. -/
def mExpr (b : NodeId) (g : GlobalVariable) : LinExpr MilpVar :=
  if P.coarseAllocation then var (.mGlobal g) else var (.m b (.global g))

/-- The dirty variables of the predecessors of a node, summed; predecessors outside
`Reach(v)` contribute nothing. -/
def predDirtySum (b : NodeId) (v : Value) : LinExpr MilpVar :=
  (((P.predecessors b).filter fun p => (p, v) ∈ P.dKeys).map fun p => var (.d p v)).sum

/-! ### Energy expressions -/

/-- `buildEBlk`: base energy, plus the NVM penalty of every global not placed in VM. -/
def buildEBlk (b : NodeId) : LinExpr MilpVar :=
  ofRat (P.energy.eBase b) +
    ((P.state.vmObjs.filter fun g => P.energy.eNvm b g ≠ 0).map fun g =>
      ofRat (P.energy.eNvm b g) - P.energy.eNvm b g • P.mExpr b g).sum

/-- `buildEStart`: prologue, restores of eligible live-ins that need one, and restores of
all ineligible live-ins. -/
def buildEStart (b : NodeId) : LinExpr MilpVar :=
  P.energy.params.ePro • var (.r b) +
    ((P.rHatKeys.filter fun k => k.1 = b ∧ 0 < P.energy.eRestore k.2).map fun k =>
      P.energy.eRestore k.2 • var (.rHat k.1 k.2)).sum +
    (((P.state.ineligLiveIn b).filter fun v => 0 < P.energy.eRestore v).map fun v =>
      P.energy.eRestore v • var (.r b)).sum

/-- The save terms of `buildEEnd`. -/
def saveTerms (b : NodeId) : LinExpr MilpVar :=
  ((P.sKeys.filter fun k => k.1 = b ∧ 0 < P.energy.eSave k.2).map fun k =>
    P.energy.eSave k.2 • var (.s k.1 k.2)).sum

/-- `buildEEnd`: epilogue and saves. -/
def buildEEnd (b : NodeId) : LinExpr MilpVar :=
  P.energy.params.eEpi • var (.r b) + P.saveTerms b

/-- `addObjective`: placement penalty, region-start overhead, region-end overhead. -/
def addObjective : LinExpr MilpVar :=
  (P.cfg.blocks.map fun b =>
    ((P.state.vmObjs.filter fun g => P.energy.eNvm b g ≠ 0).map fun g =>
      ofRat (P.energy.fEntry b * P.energy.eNvm b g) -
        (P.energy.fEntry b * P.energy.eNvm b g) • P.mExpr b g).sum).sum +
  (P.cfg.blocks.map fun b => P.energy.fBoundary b • P.buildEStart b).sum +
  ((P.cfg.blocks.filter fun b => b ≠ P.cfg.entryBlock).map fun b =>
    P.energy.fBoundary b • P.buildEEnd b).sum

/-! ### Constraints -/

/-- C1: the entry starts a region. -/
def constrainEntryAsRegionStart : List (Constraint MilpVar) :=
  [⟨var (.r P.cfg.entryBlock), .eq, ofRat 1⟩]

/-- C3: ineligible variables have `m = 1`, which is substituted rather than constrained. -/
def constrainIneligiblePlacement (_P : CheckpointOptimizer) : List (Constraint MilpVar) := []

/-- The VM bytes the ineligible globals and allocas occupy at every node. -/
def ineligibleUsage : ℚ :=
  ((P.orderedTrackedValues.filter fun v =>
    P.state.isIneligible v && (match v with
      | .inst _ => false
      | _ => true) && decide (0 < P.state.varSizeBytes v)).map fun v =>
      (P.state.varSizeBytes v : ℚ)).sum

/-- The VM usage of the candidate globals at a node. -/
def vmUsage (b : NodeId) : LinExpr MilpVar :=
  ((P.state.vmObjs.filter fun g => 0 < P.state.varSizeBytes (.global g)).map fun g =>
    (P.state.varSizeBytes (.global g) : ℚ) • P.mExpr b g).sum

/-- C2: the placed globals fit in VM at every node; one constraint suffices in coarse
mode, whose usage does not depend on the node. -/
def constrainVMCapacity : List (Constraint MilpVar) :=
  let reducedCapacity := ofRat (P.energy.params.vmCapacityBytes - P.ineligibleUsage)
  if P.coarseAllocation then [⟨P.vmUsage P.cfg.entryBlock, .le, reducedCapacity⟩]
  else P.cfg.blocks.map fun b => ⟨P.vmUsage b, .le, reducedCapacity⟩

/-- C4: `rHat = r ∧ m` by its McCormick inequalities. -/
def constrainNeedRestoreLinearization : List (Constraint MilpVar) :=
  P.cfg.blocks.flatMap fun b => (P.state.eligLiveIn b).flatMap fun g =>
    [⟨var (.rHat b (.global g)), .le, var (.r b)⟩,
     ⟨var (.rHat b (.global g)), .le, P.mExpr b g⟩,
     ⟨var (.rHat b (.global g)), .ge, var (.r b) + P.mExpr b g - ofRat 1⟩]

/-- C14: along an edge into a node that starts no region, placements agree. -/
def constrainPlacementEdges : List (Constraint MilpVar) :=
  P.cfg.edges.flatMap fun e => P.state.vmObjs.flatMap fun g =>
    [⟨var (.m e.2 (.global g)), .le, var (.m e.1 (.global g)) + var (.r e.2)⟩,
     ⟨var (.m e.2 (.global g)), .ge, var (.m e.1 (.global g)) - var (.r e.2)⟩]

/-- C15: all predecessors of a merge node have the placement of the first one. -/
def constrainPlacementMerges : List (Constraint MilpVar) :=
  (P.cfg.blocks.filter fun b => b ≠ P.cfg.entryBlock).flatMap fun b =>
    match P.predecessors b with
    | [] => []
    | first :: others => P.state.vmObjs.flatMap fun g => others.map fun p =>
        ⟨var (.m first (.global g)), .eq, var (.m p (.global g))⟩

/-- C14 and C15, in fine mode only. -/
def constrainPlacementPropagation : List (Constraint MilpVar) :=
  if P.coarseAllocation then [] else P.constrainPlacementEdges ++ P.constrainPlacementMerges

/-- `D_{b,v}` as a coefficient. -/
def defCoeff (b : NodeId) (v : Value) : ℚ := if P.state.isDef b v then 1 else 0

/-- C5, C7' and C7 at every pair with a dirty variable, then C6 along every edge. -/
def constrainDirtyPropagation : List (Constraint MilpVar) :=
  (P.dKeys.flatMap fun k =>
    [⟨var (.d k.1 k.2), .ge, ofRat (P.defCoeff k.1 k.2)⟩,
     ⟨var (.d k.1 k.2), .le, ofRat (P.defCoeff k.1 k.2) + P.predDirtySum k.1 k.2⟩,
     ⟨var (.d k.1 k.2), .le, ofRat (P.defCoeff k.1 k.2) + (ofRat 1 - var (.r k.1))⟩]) ++
  P.cfg.edges.flatMap fun e =>
    (P.orderedTrackedValues.filter fun v =>
      (e.1, v) ∈ P.dKeys && (e.2, v) ∈ P.dKeys).map fun v =>
        ⟨var (.d e.2 v), .ge, var (.d e.1 v) - var (.r e.2)⟩

/-- The placement bound of C9': `m_v` in coarse mode, otherwise the sum over the
predecessors; nothing for ineligible variables (the eligible ones are the globals). -/
def constrainSaveLePlace (k : NodeId × Value) : List (Constraint MilpVar) :=
  match k.2 with
  | .global g =>
    if P.coarseAllocation then [⟨var (.s k.1 k.2), .le, var (.mGlobal g)⟩]
    else [⟨var (.s k.1 k.2), .le,
      ((P.predecessors k.1).map fun p => var (.m p (.global g))).sum⟩]
  | _ => []

/-- C9 on one edge and one save variable: `s ≥ d + m + r - 2`, with `m = 1` substituted for
ineligible variables. -/
def constrainSaveEdge (e : NodeId × NodeId) (v : Value) : Constraint MilpVar :=
  match v with
  | .global g =>
    ⟨var (.s e.2 v), .ge, var (.d e.1 v) + P.mExpr e.1 g + var (.r e.2) - ofRat 2⟩
  | _ => ⟨var (.s e.2 v), .ge, var (.d e.1 v) + var (.r e.2) - ofRat 1⟩

/-- C9' at every save variable, then C9 along every edge into one. -/
def constrainSaveAtRegionBoundary : List (Constraint MilpVar) :=
  (P.sKeys.flatMap fun k =>
    [⟨var (.s k.1 k.2), .le, var (.r k.1)⟩,
     ⟨var (.s k.1 k.2), .le, P.predDirtySum k.1 k.2⟩] ++ P.constrainSaveLePlace k) ++
  P.cfg.edges.flatMap fun e =>
    (P.sKeys.filter fun k => k.1 = e.2 ∧ (e.1, k.2) ∈ P.dKeys).map fun k =>
      P.constrainSaveEdge e k.2

/-- C10: at a region start the accumulated energy is the start-up cost. -/
def constrainEnergyInitAtRegionStart : List (Constraint MilpVar) :=
  P.cfg.blocks.flatMap fun b =>
    [⟨var (.eAccum b), .ge,
      P.buildEStart b - P.energy.params.capacity • (ofRat 1 - var (.r b))⟩,
     ⟨var (.eAccum b), .le,
      P.buildEStart b + P.energy.params.capacity • (ofRat 1 - var (.r b))⟩]

/-- C11: energy accumulates along edges that stay in the region. -/
def constrainEnergyPropagation : List (Constraint MilpVar) :=
  P.cfg.edges.map fun e =>
    ⟨var (.eAccum e.2), .ge,
      var (.eAccum e.1) + P.buildEBlk e.1 - P.energy.params.capacity • var (.r e.2)⟩

/-- C12 and C13: every edge and every exit stays within the capacity. -/
def constrainEnergyWithinCapacity : List (Constraint MilpVar) :=
  (P.cfg.edges.map fun e =>
    ⟨var (.eAccum e.1) + P.buildEBlk e.1 + P.buildEEnd e.2, .le,
      ofRat P.energy.params.capacity⟩) ++
  P.cfg.exitBlocks.map fun b =>
    ⟨var (.eAccum b) + P.buildEBlk b, .le, ofRat P.energy.params.capacity⟩

/-- `addConstraints`. -/
def addConstraints : List (Constraint MilpVar) :=
  P.constrainEntryAsRegionStart ++ P.constrainIneligiblePlacement ++
  P.constrainNeedRestoreLinearization ++ P.constrainVMCapacity ++
  P.constrainPlacementPropagation ++ P.constrainDirtyPropagation ++
  P.constrainSaveAtRegionBoundary ++ P.constrainEnergyInitAtRegionStart ++
  P.constrainEnergyPropagation ++ P.constrainEnergyWithinCapacity

/-- `buildModel`. -/
def buildModel : Model MilpVar := ⟨P.addVariables, P.addConstraints, P.addObjective⟩

/-! ### The extracted solution -/

/-- What `extractSolution` hands to the instrumenter. -/
structure MILPSolution where
  r : NodeId → Bool
  m : NodeId → Value → Bool
  rHat : NodeId → Value → Bool
  s : NodeId → Value → Bool

/-- `extractSolution`: every variable is rounded at `0.5`; ineligible variables are placed
in VM and restored at every region start they are live into. -/
def extractSolution (x : MilpVar → ℚ) : MILPSolution where
  r b := decide (b ∈ P.cfg.blocks) && decide (1 / 2 < x (.r b))
  m b v := decide (b ∈ P.cfg.blocks) &&
    (match v with
      | .global g => decide (g ∈ P.state.vmObjs) && decide (1 / 2 < (P.mExpr b g).eval x)
      | _ => P.state.isIneligible v)
  rHat b v :=
    if (b, v) ∈ P.rHatKeys then decide (1 / 2 < x (.rHat b v))
    else decide (b ∈ P.cfg.blocks) && decide (v ∈ P.state.ineligLiveIn b) &&
      decide (1 / 2 < x (.r b))
  s b v := decide ((b, v) ∈ P.sKeys) && decide (1 / 2 < x (.s b v))

end CheckpointOptimizer

end Bao.Milp
