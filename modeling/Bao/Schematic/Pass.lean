import Bao.Schematic.LoopAnalyzer

/-!
# Solving a function

The driver of the SCHEMATIC pass (`SchematicPass.cpp`, `CallFold.cpp`). Callees are solved first.
The summary of a solved callee is folded onto the call blocks of its callers: a callee without a
checkpoint becomes one number on the call's entry block, a callee with a checkpoint a wall with
fixed energies on either side.
-/

namespace Bao.Schematic

/-! ### Call folding -/

/-- How a call is folded. -/
inductive FoldRegime
  | disabled
  | virtual
deriving DecidableEq

/-- The energies a callee puts on the call blocks of its caller; the `E` fields are used in the
virtual regime only. -/
structure FoldedCallCosts where
  regime : FoldRegime
  entryCost : ℚ
  exitCost : ℚ
  entryEToLeave : ℚ := 0
  entryELeft : WithTop ℚ := some 0
  exitEToLeave : ℚ := 0
  exitELeft : WithTop ℚ := some 0

/-- What a caller reads of a solved callee. -/
structure CallSummary where
  checkpointInFunction : Bool
  sfEToLeave : ℚ
  sfELeft : WithTop ℚ
  efEToLeave : ℚ
  efELeft : WithTop ℚ
  sfAllocation : RegionAllocation
  efAllocation : RegionAllocation
  sfPlacements : ValueMap Placement
  efPlacements : ValueMap Placement

/-- **`computeFoldedCallCosts`**. -/
def computeFoldedCallCosts (c₀ cx₀ sfEToLeave : ℚ) (sfELeft : WithTop ℚ) (efEToLeave : ℚ)
    (efELeft : WithTop ℚ) (capacity : ℚ) (checkpointInFunction : Bool) : FoldedCallCosts :=
  if checkpointInFunction then
    { regime := .virtual
      entryCost := sfEToLeave + c₀
      entryEToLeave := sfEToLeave + c₀
      entryELeft := sfELeft
      exitCost := capacity - efELeft.untopD 0 + cx₀
      exitEToLeave := efEToLeave
      exitELeft := efELeft }
  else
    { regime := .disabled
      entryCost := c₀ + sfEToLeave - efEToLeave
      exitCost := cx₀ }

/-- An isolated call: its entry block, its exit block and its callee. -/
structure IsolatedCall where
  entry : BasicBlock
  exit : BasicBlock
  callee : ℕ
  entry_ne_exit : entry ≠ exit

/-- Folds the summary of a callee onto one call. -/
def foldCall (ctx : Context) (graph : SchematicGraph) (S : CallSummary) (ic : IsolatedCall)
    (solution : SchematicSolution) : Context × SchematicSolution :=
  let ceB : Block := .real ic.entry
  let cxB : Block := .real ic.exit
  let fold := computeFoldedCallCosts (ctx.cfg.energyCost ic.entry) (ctx.cfg.energyCost ic.exit)
    S.sfEToLeave S.sfELeft S.efEToLeave S.efELeft ctx.params.capacity S.checkpointInFunction
  let s := { solution with functionCallBlocks := solution.functionCallBlocks ++ [ceB, cxB] }
  let s := (s.makeShared S.sfAllocation).setBlockAllocation ceB (some s.nextRef)
  let s := (s.makeShared S.efAllocation).setBlockAllocation cxB (some s.nextRef)
  let s := (s.setPlacements ceB S.sfPlacements).setPlacements cxB S.efPlacements
  let energyCost := Function.update
    (Function.update ctx.cfg.energyCost ic.entry fold.entryCost) ic.exit fold.exitCost
  let ctx := { ctx with cfg := { ctx.cfg with energyCost := energyCost } }
  match fold.regime with
  | .virtual =>
    let s := s.setMeta ceB { s.blockMeta ceB with
      analyzed := true, E_left := fold.entryELeft, E_to_leave := fold.entryEToLeave }
    let s := s.setMeta cxB { s.blockMeta cxB with
      analyzed := true, E_left := fold.exitELeft, E_to_leave := fold.exitEToLeave }
    (ctx, s.setCheckpointState graph ⟨ceB, cxB⟩ .virtual)
  | .disabled => (ctx, s.disableCheckpoint graph ⟨ceB, cxB⟩)

/-- **`foldCalleeSummaries`**: a callee without a usable summary makes the caller unsolvable. -/
def foldCalleeSummaries (graph : SchematicGraph) (summaries : ℕ → Option CallSummary)
    (calls : List IsolatedCall) (ctx : Context) (solution : SchematicSolution) :
    Option (Context × SchematicSolution) :=
  calls.foldlM (fun p ic => (summaries ic.callee).map fun S => foldCall p.1 graph S ic p.2)
    (ctx, solution)

/-- The part of an allocation that concerns globals. -/
def RegionAllocation.globals (a : RegionAllocation) : RegionAllocation :=
  { a with
    vars := a.vars.walk.foldl (fun m e => if e.1.isGlobal then m.insert e.1 e.2 else m) ∅
    vmOffsets := a.vmOffsets.walk.foldl
      (fun m e => if e.1.isGlobal then m.insert e.1 e.2 else m) ∅ }

/-- **`captureCallSummary`**: the energies and allocations at the boundaries of the function. Only
globals mean anything to a caller. -/
def captureCallSummary (solution : SchematicSolution) : CallSummary :=
  let placements (b : Block) : ValueMap Placement :=
    (solution.decidedPlacements b).walk.foldl
      (fun m e => if e.1.isGlobal then m.insert e.1 e.2 else m) ∅
  { checkpointInFunction := solution.hasNonDisabledCheckpoint
    sfEToLeave := (solution.blockMeta .startFunc).E_to_leave
    sfELeft := (solution.blockMeta .startFunc).E_left
    efEToLeave := (solution.blockMeta .endFunc).E_to_leave
    efELeft := (solution.blockMeta .endFunc).E_left
    sfAllocation := ((solution.allocationOf .startFunc).getD {}).globals
    efAllocation := ((solution.allocationOf .endFunc).getD {}).globals
    sfPlacements := placements .startFunc
    efPlacements := placements .endFunc }

/-! ### The function -/

/-- A function to solve: the estimator's energies count every candidate in VM. -/
structure FunctionInput where
  cfg : CFGAnalysis
  state : SchematicStateAnalysis
  LI : LoopInfo := {}
  calls : List IsolatedCall := []
  loopTraces : List LoadedLoopTrace := []
  functionPaths : List (List Block)

/-- The all-NVM energies: every access to a candidate global pays the penalty. -/
def FunctionInput.allNvmCost (F : FunctionInput) (params : SchematicParams) : CFGAnalysis :=
  { F.cfg with energyCost := fun bb => F.cfg.energyCost bb + ((F.state.candidates.filter fun v =>
      v.isGlobal).map fun v => params.nvmAccessPenalty *
        ((F.state.getLoadCount bb v + F.state.getStoreCount bb v : ℕ) : ℚ)).sum }

/-- The synthetic boundaries of the function. -/
def initializeFunctionBoundaries (params : SchematicParams) (s : SchematicSolution) :
    SchematicSolution :=
  let s := s.setMeta .startFunc { s.blockMeta .startFunc with
    E_left := some (params.capacity - params.chkptRestore), analyzed := true }
  let s := s.setPlacements .startFunc ∅
  let s := s.setMeta .endFunc { s.blockMeta .endFunc with
    E_to_leave := params.chkptSave, analyzed := true }
  s.setPlacements .endFunc ∅

/-- **The analysis of `solveFunction`**: calls are folded, loops analyzed, then every trace, the
uncovered blocks and the edges that are left. -/
def solveFunction (F : FunctionInput) (params : SchematicParams)
    (summaries : ℕ → Option CallSummary) (tracker : VMAddressTracker) :
    Except Failure (Context × Analysis) := do
  let graph := ({} : SchematicGraph).addCFGEdges F.cfg
  match foldCalleeSummaries graph summaries F.calls ⟨F.allNvmCost params, F.state, params, F.LI⟩ {}
    with
  | none => throw .infeasible
  | some (ctx, s) =>
    if F.functionPaths.isEmpty then throw .fatal
    let A ← Analysis.analyzeLoops ctx F.loopTraces ⟨s, graph, tracker⟩
    let A := { A with solution := initializeFunctionBoundaries params A.solution }
    let A ← F.functionPaths.foldlM (fun A path =>
      let path := .startFunc :: path ++ [.endFunc]
      Analysis.analyzeTrace ctx none path { A with graph := A.graph.addTraceEdges path }) A
    let A ← A.findAndAnalyzeNotFixedPaths ctx none
    return (ctx, { A with
      solution := A.solution.removePotentialCheckpointsBetweenFixedBBs A.graph ctx none })

/-- The solution of a function that was solved. -/
def solutionOf : Except Failure (Context × Analysis) → SchematicSolution
  | .ok (_, A) => A.solution
  | .error _ => {}

theorem exists_solutionOf {x : Except Failure (Context × Analysis)} (h : x.isOk = true) :
    ∃ ctx A, x = .ok (ctx, A) ∧ A.solution = solutionOf x := by
  cases x with
  | error e => cases h
  | ok p => exact ⟨p.1, p.2, rfl, rfl⟩

end Bao.Schematic
