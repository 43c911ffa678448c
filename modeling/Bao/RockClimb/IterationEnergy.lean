import Bao.Milp.WorstPath
import Bao.Milp.Reclamp

/-!
# The energy of a loop iteration in the unroll pass

`RockClimbLoopUnrollPass.cpp` has a copy of the worst-case path computation of the MILP passes,
`computeWorstCaseIterationEnergy`. The copy takes its sub-loop counts from
`getExactConstantTripCount`, passes the error of a sub-loop on, and does not leave the back edge
out of the successors of the latch. The last difference has no effect, because the search stops
at the latch before it looks at successors (`Graph.dfs_congr`). So both succeed on the same
loops, with the same energy and blocks.
-/

namespace Bao.RockClimb

open Milp

/-- `getExactConstantTripCount`, given the constant backedge-taken counts of scalar evolution. -/
def getExactConstantTripCount (C : CFGAnalysis) (backedgeTakenCount : Loop → Option ℕ)
    (L : Loop) : Option ℕ :=
  match L.getExitingBlocks C with
  | [exiting] =>
    match backedgeTakenCount L with
    | none => none
    | some value =>
      if 2 ^ 64 ≤ value then none
      else if some exiting = L.getLoopLatch C then
        if value = 2 ^ 64 - 1 then none else some (value + 1)
      else some value
  | _ => none

/-- The errors of the computation. -/
inductive IterationError
  | missingHeaderOrLatch
  | subLoopUnknownTripCount
  | unsupportedIntraLoopCycle
  | unableToComputeIterationPath
  | pathReconstructionFailed
  deriving DecidableEq, Repr

/-- The error texts. -/
def IterationError.message : IterationError → String
  | .missingHeaderOrLatch => "missing-header-or-latch"
  | .subLoopUnknownTripCount => "sub-loop-unknown-trip-count"
  | .unsupportedIntraLoopCycle => "unsupported-intra-loop-cycle"
  | .unableToComputeIterationPath => "unable-to-compute-iteration-path"
  | .pathReconstructionFailed => "path-reconstruction-failed"

/-- The search of one loop body, once the totals of the sub-loops are known. -/
def iterationBody (C : CFGAnalysis) (L : Loop) (totals : List (Loop × ℚ)) (latch : BlockId) :
    Except IterationError WorstCasePath :=
  if L.header = latch then
    .ok ⟨Loop.getEnergy C totals L.header, [L.header]⟩
  else
    match Graph.dfs (fun b => (L.getSuccs C b).filter fun s => s ∈ L.blocks)
      (Loop.getEnergy C totals) latch (L.blocks.length + 1) .init L.header with
    | none => .error .unsupportedIntraLoopCycle
    | some (st, energy) =>
      if st.cycleDetected then .error .unsupportedIntraLoopCycle
      else if energy ≤ 0 then .error .unableToComputeIterationPath
      else match Graph.follow latch st.bestSucc (L.blocks.length + 1) L.header with
        | none => .error .pathReconstructionFailed
        | some path => .ok ⟨energy, path.foldl L.addPathBlock []⟩

mutual

/-- The computation, with the sub-loop counts as a parameter. -/
def iterationEnergy (C : CFGAnalysis) (tripCount : Loop → Option ℕ) :
    Loop → Except IterationError WorstCasePath
  | L@(.mk _ _ _ _ subs) =>
    match L.getLoopLatch C with
    | none => .error .missingHeaderOrLatch
    | some latch =>
      match iterationTotals C tripCount subs with
      | .error e => .error e
      | .ok totals => iterationBody C L totals latch

/-- The totals of the sub-loops. -/
def iterationTotals (C : CFGAnalysis) (tripCount : Loop → Option ℕ) :
    List Loop → Except IterationError (List (Loop × ℚ))
  | [] => .ok []
  | S :: Ss =>
    match tripCount S with
    | none => .error .subLoopUnknownTripCount
    | some tc =>
      match iterationEnergy C tripCount S with
      | .error e => .error e
      | .ok path =>
        match iterationTotals C tripCount Ss with
        | .error e => .error e
        | .ok totals => .ok ((S, path.energy * tc) :: totals)

end

/-- `computeWorstCaseIterationEnergy`. -/
def computeWorstCaseIterationEnergy (C : CFGAnalysis) (backedgeTakenCount : Loop → Option ℕ)
    (L : Loop) : Except IterationError WorstCasePath :=
  iterationEnergy C (getExactConstantTripCount C backedgeTakenCount) L

/-! ### The copy agrees -/

variable {C : CFGAnalysis} {tripCount tripCount' : Loop → Option ℕ} {L : Loop}

/-- The two searches of a body succeed together, with the same result. -/
theorem iterationBody_toOption (totals : List (Loop × ℚ)) (latch : BlockId) :
    (iterationBody C L totals latch).toOption = (L.searchBody C totals latch).toOption := by
  have hdfs : Graph.dfs (fun b => (L.getSuccs C b).filter fun s => s ∈ L.blocks)
      (Loop.getEnergy C totals) latch (L.blocks.length + 1) =
        Graph.dfs (L.searchSuccs C latch) (Loop.getEnergy C totals) latch
          (L.blocks.length + 1) :=
    Graph.dfs_congr (fun b hb => List.filter_congr fun s _ => by simp [hb]) _
  rw [iterationBody, Loop.searchBody, hdfs]
  split_ifs with hhl
  · rfl
  · cases hsearch : Graph.dfs (L.searchSuccs C latch) (Loop.getEnergy C totals) latch
        (L.blocks.length + 1) .init L.header with
    | none => rfl
    | some r =>
      obtain ⟨st, energy⟩ := r
      simp only
      split_ifs
      · rfl
      · rfl
      · cases Graph.follow latch st.bestSucc (L.blocks.length + 1) L.header <;> rfl

/-- The totals of a list of loops on which the computations succeed together. -/
private theorem iterationTotals_toOption {Ss : List Loop}
    (hcount : ∀ S ∈ Ss, tripCount' S = tripCount S)
    (hsub : ∀ S ∈ Ss, (iterationEnergy C tripCount' S).toOption =
      (Loop.computeWorstCasePath C tripCount S).toOption) :
    (iterationTotals C tripCount' Ss).toOption =
      (Loop.subLoopTotals C tripCount Ss).toOption := by
  induction Ss with
  | nil => rfl
  | cons S Ss ih =>
    have hrest := ih (fun T hT => hcount T (List.mem_cons_of_mem S hT))
      fun T hT => hsub T (List.mem_cons_of_mem S hT)
    have hS := hsub S List.mem_cons_self
    rw [iterationTotals, Loop.subLoopTotals, hcount S List.mem_cons_self]
    cases tripCount S with
    | none => rfl
    | some tc =>
      cases hcopy : iterationEnergy C tripCount' S <;>
        cases horig : Loop.computeWorstCasePath C tripCount S <;>
          simp only [hcopy, horig, Except.toOption, reduceCtorEq, Option.some.injEq] at hS ⊢
      obtain rfl := hS
      cases hcopy' : iterationTotals C tripCount' Ss <;>
        cases horig' : Loop.subLoopTotals C tripCount Ss <;>
          simp_all [Except.toOption]

/-- **The copy agrees.** For the same sub-loop counts, the two computations succeed on the same
loops, with the same energy and the same blocks. -/
theorem iterationEnergy_toOption (L : Loop)
    (hcount : ∀ S ∈ Loop.collectAll L.subLoops, tripCount' S = tripCount S) :
    (iterationEnergy C tripCount' L).toOption =
      (Loop.computeWorstCasePath C tripCount L).toOption := by
  induction L using Loop.nest_induction with
  | step L ih =>
    have hcount' : ∀ S ∈ L.subLoops, ∀ T ∈ S.collectOutermostFirst, tripCount' T = tripCount T :=
      fun S hS T hT => hcount T (Loop.mem_collectAll.mpr ⟨S, hS, hT⟩)
    have hsub : (iterationTotals C tripCount' L.subLoops).toOption =
        (Loop.subLoopTotals C tripCount L.subLoops).toOption := by
      refine iterationTotals_toOption (fun S hS => hcount' S hS S S.self_mem_nest) fun S hS =>
        ih S hS fun T hT => hcount' S hS T ?_
      rw [Loop.collectOutermostFirst_eq]
      exact List.mem_cons_of_mem S hT
    cases L with
    | mk h bs n m subs =>
      rw [iterationEnergy, Loop.computeWorstCasePath]
      cases (Loop.mk h bs n m subs).getLoopLatch C with
      | none => rfl
      | some latch =>
        change (iterationTotals C tripCount' subs).toOption =
          (Loop.subLoopTotals C tripCount subs).toOption at hsub
        cases hcopy : iterationTotals C tripCount' subs <;>
          cases horig : Loop.subLoopTotals C tripCount subs <;>
            simp only [hcopy, horig, Except.toOption, reduceCtorEq, Option.some.injEq] at hsub ⊢
        obtain rfl := hsub
        exact iterationBody_toOption _ latch

/-- Success does not depend on the errors. -/
private theorem toOption_eq_some {ε α : Type} {x : Except ε α} {a : α} :
    x.toOption = some a ↔ x = .ok a := by
  cases x <;> simp [Except.toOption]

/-- **The worst-case path is exact, and the copy agrees with it.** A computed path of a natural
loop is the worst path of its collapsed body, recursively through the sub-loops. It is the
maximum over the paths that arrive at the latch for the first time; without cycles these are all
paths. A cycle that is reached without passing the latch makes the computation fail. The copy in
the unroll pass gives the same result for the same sub-loop counts. -/
theorem computeWorstCasePath_exact {C : CFGAnalysis} (LI : LoopInfo C)
    (tripCount : Loop → Option ℕ) {L : Loop} (hL : L ∈ LI.loops) :
    (∀ W, Loop.computeWorstCasePath C tripCount L = .ok W → Loop.IsWorstPath C tripCount L W) ∧
      (∀ latch, L.getLoopLatch C = some latch →
        (L.CollapsedAcyclic C latch →
          ∀ p, L.CollapsedPath C latch p → L.FirstArrival C latch p) ∧
        (L.CycleBeforeLatch C latch → ∀ W, Loop.computeWorstCasePath C tripCount L ≠ .ok W)) ∧
      ∀ backedgeTakenCount,
        (∀ S ∈ Loop.collectAll L.subLoops,
          getExactConstantTripCount C backedgeTakenCount S = tripCount S) →
        ∀ W, computeWorstCaseIterationEnergy C backedgeTakenCount L = .ok W ↔
          Loop.computeWorstCasePath C tripCount L = .ok W := by
  have hnat : ∀ T ∈ L.collectOutermostFirst, T.Natural C := by
    intro T hT
    obtain ⟨R, hR, hLR⟩ := Loop.mem_collectAll.mp hL
    exact LI.natural T (Loop.mem_collectAll.mpr ⟨R, hR, Loop.mem_nest_trans hT hLR⟩)
  refine ⟨fun W hW => Loop.computeWorstCasePath_isWorstPath L hnat hW,
    fun latch hl => ⟨fun hacyclic p hp => hp.firstArrival hacyclic, fun hcycle =>
      Loop.not_ok_of_cycle (hnat L L.self_mem_nest)
        (fun S hS => hnat S (Loop.subLoop_mem_nest hS)) hl hcycle⟩,
    fun backedgeTakenCount hcount W => ?_⟩
  rw [← toOption_eq_some, ← toOption_eq_some, computeWorstCaseIterationEnergy,
    iterationEnergy_toOption L hcount]

/-- In a nest whose inner loop runs twice, the worst iteration of the outer loop costs `6`. -/
theorem computeWorstCasePath_exact_nest : ∃ W, W.energy = 6 ∧
    Loop.IsWorstPath FunctionAnalysis.stripMinedCfg Loop.summarySubLoopTripCount
      FunctionAnalysis.stripMinedOuter W := by
  have heval : (Loop.computeWorstCasePath FunctionAnalysis.stripMinedCfg
      Loop.summarySubLoopTripCount FunctionAnalysis.stripMinedOuter).toOption.map
        WorstCasePath.energy = some 6 := by decide +kernel
  obtain ⟨W, hW, henergy⟩ := Option.map_eq_some_iff.mp heval
  exact ⟨W, henergy, (computeWorstCasePath_exact FunctionAnalysis.stripMined.loopInfo
    Loop.summarySubLoopTripCount (List.mem_cons_self)).1 W (toOption_eq_some.mp hW)⟩

end Bao.RockClimb
