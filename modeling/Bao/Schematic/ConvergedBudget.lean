import Bao.Schematic.LoopFits
import Bao.Schematic.LoopRun
import Bao.Schematic.WorstCaseEnergy

/-!
# Converged budgets

The first budget of a loop reserves the save of an empty allocation, since the synthetic end of the
body has no placements. Once all edges of the body are disabled the body is allocated again, and the
budget reserves the save of everything the new allocation has in VM.

* A budget that was read after the body was allocated again reserves that save
  (`isConverged_refineLoopBudgetWithConvergence`, `isConverged_splitLoopBody`).
* It pays for a restore, the save and one iteration less than it counts
  (`Convergence.IsConverged.pays_charge`).
* The decision for a back edge with a counter stands on such a budget
  (`exists_isConverged_of_decideByBudget`).
-/

namespace Bao.Schematic

open SchematicSolution

/-! ### Energies only go up -/

/-- No `E_to_leave` goes down. -/
def RaisesToLeave (s t : SchematicSolution) : Prop :=
  ∀ b, (s.blockMeta b).E_to_leave ≤ (t.blockMeta b).E_to_leave

namespace RaisesToLeave

variable {s t u : SchematicSolution} {graph : SchematicGraph} {ctx : Context}
  {loopScope : Option Loop}

theorem refl (s : SchematicSolution) : RaisesToLeave s s := fun _ => le_rfl

theorem trans (h : RaisesToLeave s t) (h' : RaisesToLeave t u) : RaisesToLeave s u :=
  fun b => (h b).trans (h' b)

theorem foldl {α : Type*} {f : SchematicSolution → α → SchematicSolution}
    (h : ∀ s a, RaisesToLeave s (f s a)) (l : List α) (s : SchematicSolution) :
    RaisesToLeave s (l.foldl f s) := by
  induction l generalizing s with
  | nil => exact refl s
  | cons a l ih => exact (h s a).trans (ih _)

/-- The propagation of what is left keeps what is needed. -/
theorem propagateEnergyLeft (seedEdge : SeedEdge) (seedELeft : WithTop ℚ) :
    RaisesToLeave s (s.propagateEnergyLeft graph ctx seedEdge seedELeft loopScope) := by
  refine foldl (fun s p b => ?_) _ s
  cases p.1.2 with
  | none => exact le_rfl
  | some b' =>
    simp only [lowerELeft]
    split_ifs
    · by_cases hb : b = b'
      · subst hb
        simp [setMeta]
      · simp [setMeta, hb]
    · exact le_rfl

theorem propagateOverEdge (edge : CFGEdge) :
    RaisesToLeave s (s.propagateOverEdge graph ctx edge loopScope) :=
  (propagateEnergyLeft _ _).trans fun b => (le_propagateEnergyToLeave _ _ b).1

theorem refreshRound : RaisesToLeave s (s.refreshRound graph ctx loopScope) := by
  refine foldl (fun s e => ?_) _ s
  split
  · exact refl s
  · split_ifs
    · exact propagateOverEdge _
    · exact refl s

theorem refreshRounds (n : ℕ) (s : SchematicSolution) :
    RaisesToLeave s (SchematicSolution.refreshRounds graph ctx loopScope n s) := by
  induction n generalizing s with
  | zero => exact refl s
  | succ n ih =>
    simp only [SchematicSolution.refreshRounds]
    split_ifs
    · exact refreshRound.trans (ih _)
    · exact refreshRound

theorem refreshDisabledCheckpointEnergy :
    RaisesToLeave s (s.refreshDisabledCheckpointEnergy graph ctx loopScope) :=
  refreshRounds _ s

end RaisesToLeave

/-! ### Convergence -/

section Converged

variable {ctx : Context} {graph : SchematicGraph}

/-- A converged budget: it was read for its allocation and reserves the save of all of it. -/
structure Convergence.IsConverged (ctx : Context) (C : Convergence) : Prop where
  read : C.IsRead ctx
  reserved : computeLoopExitEnergyToLeave C.bodyAlloc ctx.state ctx.params true ≤
    C.budget.endEToLeave

/-- The decision is about the loop, with the iteration cost of the budget and the allocation it was
read for. -/
structure Convergence.Agrees (L : Loop) (C : Convergence) : Prop where
  loop_eq : C.decision.loop = L
  E_loop_eq : C.decision.E_loop = C.budget.ELoop
  bodyAllocation_eq : C.decision.bodyAllocation = C.bodyAlloc

/-- A body whose energies were computed again needs the save at its end. -/
private theorem reserved_recompute {s : SchematicSolution} {L : Loop}
    {bodyAlloc : RegionAllocation} :
    computeLoopExitEnergyToLeave bodyAlloc ctx.state ctx.params true ≤
      (((s.recomputeLoopBodyEnergyOnCFG graph ctx L bodyAlloc (createLoopBoundaryBlocks
        L)).refreshDisabledCheckpointEnergy graph ctx (some L)).readLoopIterationBudget ctx
          (createLoopBoundaryBlocks L) bodyAlloc).endEToLeave := by
  refine le_trans (le_of_eq ?_) (RaisesToLeave.refreshDisabledCheckpointEnergy _)
  simp [recomputeLoopBodyEnergyOnCFG, setMeta, setPlacements]

private theorem isConverged_round {trace : LoadedLoopTrace} {maxTripCount : ℕ}
    {allocations : List AllocRef} {C : Convergence} (hC : C.decision.loop = trace.loop) :
    (C.round ctx graph trace maxTripCount allocations).1.IsConverged ctx ∧
      (C.round ctx graph trace maxTripCount allocations).1.Agrees trace.loop := by
  refine ⟨⟨isRead_round C, ?_⟩, ?_⟩
  all_goals simp only [Convergence.round]
  · split_ifs
    all_goals exact reserved_recompute
  · split_ifs
    all_goals exact ⟨hC, rfl, rfl⟩

private theorem isConverged_rounds {trace : LoadedLoopTrace} {maxTripCount : ℕ}
    {allocations : List AllocRef} (fuel previous : ℕ) {C : Convergence}
    (hC : C.IsConverged ctx ∧ C.Agrees trace.loop) :
    (C.rounds ctx graph trace maxTripCount allocations fuel previous).IsConverged ctx ∧
      (C.rounds ctx graph trace maxTripCount allocations fuel previous).Agrees trace.loop := by
  induction fuel generalizing previous C with
  | zero => exact hC
  | succ fuel ih =>
    rw [Convergence.rounds]
    split_ifs
    · exact hC
    · have hround : (C.round ctx graph trace maxTripCount allocations).1.IsConverged ctx ∧
          (C.round ctx graph trace maxTripCount allocations).1.Agrees trace.loop :=
        isConverged_round hC.2.loop_eq
      split
      next C' hC' =>
        rw [hC'] at hround
        exact ih _ hround
      next C' hC' =>
        rw [hC'] at hround
        exact hround

/-- Nothing ends the rounds before the first. -/
private theorem isConverged_rounds_zero {trace : LoadedLoopTrace} {maxTripCount : ℕ}
    {allocations : List AllocRef} (fuel : ℕ) {C : Convergence}
    (hC : C.decision.loop = trace.loop) :
    (C.rounds ctx graph trace maxTripCount allocations (fuel + 1) 0).IsConverged ctx ∧
      (C.rounds ctx graph trace maxTripCount allocations (fuel + 1) 0).Agrees trace.loop := by
  have hround : (C.round ctx graph trace maxTripCount allocations).1.IsConverged ctx ∧
      (C.round ctx graph trace maxTripCount allocations).1.Agrees trace.loop := isConverged_round hC
  rw [Convergence.rounds, if_neg (by simp)]
  split
  next C' hC' =>
    rw [hC'] at hround
    exact isConverged_rounds _ _ hround
  next C' hC' =>
    rw [hC'] at hround
    exact hround

/-- **Convergence** of a body with disabled edges only leaves a converged budget, unless the budget
was too small from the start. -/
theorem isConverged_refineLoopBudgetWithConvergence {trace : LoadedLoopTrace} (maxTripCount : ℕ)
    {C : Convergence} (hC : C.Agrees trace.loop)
    (hbody : C.solution.hasOnlyDisabledCheckpointsInLoop graph ctx trace.loop
      (createLoopBoundaryBlocks trace.loop) = true) :
    (refineLoopBudgetWithConvergence ctx graph trace maxTripCount C).Agrees trace.loop ∧
      ((refineLoopBudgetWithConvergence ctx graph trace maxTripCount C).IsConverged ctx ∨
        (refineLoopBudgetWithConvergence ctx graph trace maxTripCount C).budget.numIterations ≤
          1) := by
  simp only [refineLoopBudgetWithConvergence, hbody, Bool.not_true, Bool.false_or,
    decide_eq_true_eq]
  split_ifs with hfew
  · exact ⟨⟨hC.loop_eq, hC.E_loop_eq, hC.bodyAllocation_eq⟩, .inr hfew⟩
  · obtain ⟨hconverged, hagrees⟩ : _ ∧ _ := isConverged_rounds_zero 14 (C := { C with decision :=
      { C.decision with
        hadEnabledCheckpoints := C.solution.hasEnabledCheckpointsInLoop trace.loop
        convergenceApplied := true } }) hC.loop_eq
    exact ⟨hagrees, .inl hconverged⟩

/-- **Splitting a body** reads the budget of the body it splits again. -/
theorem isConverged_splitLoopBody {L : Loop} {bodyPaths : List (List Block)} {C C' : Convergence}
    (hC : C.Agrees L) (h : splitLoopBody ctx graph L bodyPaths C = .ok C') :
    C'.Agrees L ∧ (C'.IsConverged ctx ∨ C' = C) := by
  rw [splitLoopBody] at h
  simp only at h
  split_ifs at h
  · cases h
    exact ⟨hC, .inr rfl⟩
  · split at h
    · cases h
    · split_ifs at h
      cases h
      exact ⟨⟨hC.loop_eq, rfl, hC.bodyAllocation_eq⟩,
        .inl ⟨isRead_readLoopIterationBudget _ _ _, reserved_recompute⟩⟩

/-- **A converged budget pays for a charge**: the restore, one iteration less than it counts, and
the save. -/
theorem Convergence.IsConverged.pays_charge {C : Convergence} (hC : C.IsConverged ctx)
    (hinc : 0 ≤ ctx.params.loopIncrementCostNvm) (hmany : 0 < C.budget.numIterations) :
    ((C.budget.numIterations - 1 : ℕ) : ℚ) * C.budget.ELoop +
        computeLoopExitEnergyToLeave C.bodyAlloc ctx.state ctx.params false ≤
      computeLoopEntryEnergyLeft C.bodyAlloc ctx.state ctx.params := by
  obtain ⟨hELoop, hpays⟩ := hC.read.pays (Nat.sub_lt hmany one_pos)
  have hreserved := hC.reserved
  have hread := hC.read.ELoop_eq
  have hexit : computeLoopExitEnergyToLeave C.bodyAlloc ctx.state ctx.params true =
      computeLoopExitEnergyToLeave C.bodyAlloc ctx.state ctx.params false +
        ctx.params.loopIncrementCostNvm := by
    simp only [computeLoopExitEnergyToLeave, if_true, Bool.false_eq_true, if_false]
    ring
  rcases hpays with hpays | hpays
  · linarith
  · -- the budget of a convergence reserves one traversal more
    linarith

/-! ### Decisions -/

/-- A decision that is neither a checkpoint in every iteration nor none at all counts at least three
iterations. -/
private theorem counter_of_policy {s : SchematicSolution} {maxTripCount : ℕ}
    {blocks : LoopBoundaryBlocks} {budget : LoopIterationBudget} {d : LoopCheckpointDecision}
    (hmandatory : (s.applyLoopCheckpointPolicy graph maxTripCount blocks budget
      d).1.mandatoryBackEdge = false)
    (hlogic : (s.applyLoopCheckpointPolicy graph maxTripCount blocks budget
      d).1.handledByLoopLogic = true) :
    (s.applyLoopCheckpointPolicy graph maxTripCount blocks budget d).1 =
        { d with numIterationsPerCharge := budget.numIterations } ∧ 3 ≤ budget.numIterations := by
  rw [LoopCheckpointDecision.handledByLoopLogic, hmandatory] at hlogic
  simp only [applyLoopCheckpointPolicy] at hmandatory hlogic ⊢
  split_ifs at hmandatory hlogic ⊢ with hfits hfew
  · simp at hlogic
  · exact ⟨rfl, by omega⟩

/-- **A back edge with a counter** counts the iterations of a converged budget, if all edges of the
body are disabled. -/
theorem exists_isConverged_of_decideByBudget {trace : LoadedLoopTrace}
    {headerAlloc : ValueMap Placement} {A A' : Analysis} {d : LoopCheckpointDecision}
    (hbody : A.solution.hasOnlyDisabledCheckpointsInLoop A.graph ctx trace.loop
      (createLoopBoundaryBlocks trace.loop) = true)
    (h : A.decideByBudget ctx trace headerAlloc = .ok A')
    (hd : A'.solution.loopDecisions.lookup (.real trace.loop.header) = some d)
    (hmandatory : d.mandatoryBackEdge = false) (hlogic : d.handledByLoopLogic = true) :
    ∃ C : Convergence, C.IsConverged ctx ∧ d.E_loop = C.budget.ELoop ∧
      d.bodyAllocation = C.bodyAlloc ∧ d.numIterationsPerCharge = C.budget.numIterations ∧
      3 ≤ d.numIterationsPerCharge ∧ d.loop = trace.loop := by
  have hcopy : (A.solution.copyLoopBoundaryEnergyToSyntheticBlocks
      (createLoopBoundaryBlocks trace.loop)).hasOnlyDisabledCheckpointsInLoop A.graph ctx trace.loop
        (createLoopBoundaryBlocks trace.loop) = true := by
    rw [← hbody, copyLoopBoundaryEnergyToSyntheticBlocks]
    cases (createLoopBoundaryBlocks trace.loop).latchBlock <;> rfl
  rw [Analysis.decideByBudget] at h
  dsimp only at h
  generalize A.solution.copyLoopBoundaryEnergyToSyntheticBlocks
    (createLoopBoundaryBlocks trace.loop) = s at h hcopy
  generalize s.readLoopIterationBudget ctx (createLoopBoundaryBlocks trace.loop)
    (buildBoundaryAllocation headerAlloc ctx.state) = budget at h
  have hlookup : ∀ (s : SchematicSolution) (d₀ : LoopCheckpointDecision),
      (s.setDecision (.real trace.loop.header) d₀).loopDecisions.lookup
        (.real trace.loop.header) = some d₀ := fun s d₀ => AList.lookup_insert _
  split_ifs at h
  · cases h
    obtain rfl := Option.some.inj ((hlookup s _).symm.trans hd)
    simp [LoopCheckpointDecision.handledByLoopLogic] at hlogic
  · cases h
    dsimp only at hd
    split at hd
    all_goals
      obtain rfl := Option.some.inj ((hlookup s _).symm.trans hd)
      cases hmandatory
  · obtain ⟨C, hC, hend⟩ := except_bind_eq_ok h
    cases hend
    rw [(quiet_applyLoopIterationAdjustment _ _ _ _).loopDecisions] at hd
    obtain rfl := Option.some.inj ((hlookup _ _).symm.trans hd)
    obtain ⟨hdecision, hmany⟩ := counter_of_policy hmandatory hlogic
    rw [hdecision]
    obtain ⟨hagrees, hconverged⟩ := isConverged_refineLoopBudgetWithConvergence
      (trace.maxTripCount.getD (2 ^ 32 - 1)) (C := ⟨s, A.tracker, budget,
        buildBoundaryAllocation headerAlloc ctx.state,
        { loop := trace.loop, E_loop := budget.ELoop
          bodyAllocation := buildBoundaryAllocation headerAlloc ctx.state }⟩) ⟨rfl, rfl, rfl⟩ hcopy
    obtain ⟨hagrees, hsplit⟩ := isConverged_splitLoopBody hagrees hC
    refine ⟨C, ?_, hagrees.E_loop_eq, hagrees.bodyAllocation_eq, rfl, hmany, hagrees.loop_eq⟩
    rcases hsplit with hsplit | rfl
    · exact hsplit
    · exact hconverged.resolve_right (by omega)

end Converged

end Bao.Schematic
