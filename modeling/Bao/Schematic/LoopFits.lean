import Bao.Schematic.LoopAnalyzer
import Mathlib

/-!
# Loops that fit in one charge

A loop whose iteration budget exceeds its trip count gets no checkpoint on the back edge, and every
block of the loop is charged for the remaining iterations. The trip count is a 64-bit number, and
both `applyLoopCheckpointPolicy` and `applyLoopIterationAdjustment` are handed its low 32 bits.

* What reaches the policy is a budget that was read off the loop boundaries
  (`isRead_refineLoopBudgetWithConvergence`, `isRead_splitLoopBody`).
* A loop that is declared to fit fits, and is charged for its iterations, just if its trip count has
  32 bits (`fitsProperly_iff`). A longer one is declared to fit by its low bits
  (`not_fitsProperly_longLoop`).
-/

namespace Bao.Schematic

open SchematicSolution

/-! ### Budgets that reach the policy -/

/-- A budget that was read off the loop boundaries: it counts the iterations between a restore and
the save of the back edge, or of the whole body. -/
structure LoopIterationBudget.IsRead (entryEnergyLeft loopIncrementCost : ℚ)
    (budget : LoopIterationBudget) : Prop where
  ELoop_eq : budget.ELoop = budget.startEToLeave - budget.endEToLeave + loopIncrementCost
  numIterations_eq : budget.numIterations = budget.rawNumIterations.toNat
  raw_eq : ∃ available, (available = entryEnergyLeft - budget.endEToLeave ∨
      available = entryEnergyLeft - budget.startEToLeave) ∧
    budget.rawNumIterations = if 0 < budget.ELoop then ⌊available / budget.ELoop⌋ - 1 else 0

section Read

variable {ctx : Context} {graph : SchematicGraph}

theorem isRead_readLoopIterationBudget (solution : SchematicSolution) (blocks : LoopBoundaryBlocks)
    (bodyAlloc : RegionAllocation) :
    (solution.readLoopIterationBudget ctx blocks bodyAlloc).IsRead
      (computeLoopEntryEnergyLeft bodyAlloc ctx.state ctx.params)
      ctx.params.loopIncrementCostNvm :=
  ⟨rfl, rfl, _, .inl rfl, rfl⟩

/-- The budget of a convergence was read for its allocation. -/
def Convergence.IsRead (ctx : Context) (C : Convergence) : Prop :=
  C.budget.IsRead (computeLoopEntryEnergyLeft C.bodyAlloc ctx.state ctx.params)
    ctx.params.loopIncrementCostNvm

/-- The available energy is not read again. -/
private theorem LoopIterationBudget.IsRead.withAvailable {entryEnergyLeft inc : ℚ}
    {budget : LoopIterationBudget} (h : budget.IsRead entryEnergyLeft inc) (available : ℚ) :
    { budget with availableEnergy := available }.IsRead entryEnergyLeft inc :=
  ⟨h.ELoop_eq, h.numIterations_eq, h.raw_eq⟩

/-- The iterations are counted up to the save of the whole body. -/
private theorem LoopIterationBudget.IsRead.withBody {entryEnergyLeft inc : ℚ}
    {budget : LoopIterationBudget} (h : budget.IsRead entryEnergyLeft inc)
    (hELoop : ¬budget.ELoop ≤ 0) :
    { budget with
      availableEnergy := entryEnergyLeft - budget.startEToLeave
      rawNumIterations := ⌊(entryEnergyLeft - budget.startEToLeave) / budget.ELoop⌋ - 1
      numIterations := (⌊(entryEnergyLeft - budget.startEToLeave) / budget.ELoop⌋ - 1).toNat
      : LoopIterationBudget }.IsRead entryEnergyLeft inc :=
  ⟨h.ELoop_eq, rfl, _, .inr rfl, (if_pos (not_le.mp hELoop)).symm⟩

theorem isRead_round {trace : LoadedLoopTrace} {maxTripCount : ℕ}
    {allocations : List AllocRef} (C : Convergence) :
    (C.round ctx graph trace maxTripCount allocations).1.IsRead ctx := by
  simp only [Convergence.round]
  split_ifs with hELoop havailable
  · exact isRead_readLoopIterationBudget _ _ _
  · exact (isRead_readLoopIterationBudget _ _ _).withAvailable _
  · exact (isRead_readLoopIterationBudget _ _ _).withBody hELoop

/-- **Convergence** leaves a budget that was read. -/
theorem isRead_refineLoopBudgetWithConvergence {trace : LoadedLoopTrace} {maxTripCount : ℕ}
    {C : Convergence} (hC : C.IsRead ctx) :
    (refineLoopBudgetWithConvergence ctx graph trace maxTripCount C).IsRead ctx := by
  have hrounds : ∀ {allocations : List AllocRef} (fuel previous : ℕ) {C : Convergence},
      C.IsRead ctx →
        (C.rounds ctx graph trace maxTripCount allocations fuel previous).IsRead ctx := by
    intro allocations fuel
    induction fuel with
    | zero => exact fun _ _ hC => hC
    | succ fuel ih =>
      intro previous C hC
      rw [Convergence.rounds]
      split_ifs
      · exact hC
      · have hround : (C.round ctx graph trace maxTripCount allocations).1.IsRead ctx :=
          isRead_round C
        split
        next C' hC' => exact ih _ (by rw [hC'] at hround; exact hround)
        next C' hC' =>
          rw [hC'] at hround
          exact hround
  rw [refineLoopBudgetWithConvergence]
  simp only
  split_ifs
  · exact hC
  · exact hrounds 15 0 hC

/-- **Splitting a body** leaves a budget that was read. -/
theorem isRead_splitLoopBody {L : Loop} {bodyPaths : List (List Block)} {C C' : Convergence}
    (hC : C.IsRead ctx) (h : splitLoopBody ctx graph L bodyPaths C = .ok C') : C'.IsRead ctx := by
  rw [splitLoopBody] at h
  simp only at h
  split_ifs at h
  · cases h
    exact hC
  · split at h
    · cases h
    · split_ifs at h
      cases h
      exact isRead_readLoopIterationBudget _ _ _

end Read

/-! ### Fitting -/

/-- **A loop that is declared to fit fits**: its iterations and the save at its end need at most
what a restore leaves, and every block of the loop is charged for the iterations that remain after
the first. `realTripCount` is the 64-bit number the marker carries. -/
def FitsProperly (solution : SchematicSolution) (graph : SchematicGraph) (L : Loop)
    (realTripCount : ℕ) (blocks : LoopBoundaryBlocks) (entryEnergyLeft : ℚ)
    (budget : LoopIterationBudget) (decision : LoopCheckpointDecision) : Prop :=
  let (decision, s) :=
    solution.applyLoopCheckpointPolicy graph (realTripCount % 2 ^ 32) blocks budget decision
  let after := s.applyLoopIterationAdjustment L (realTripCount % 2 ^ 32) decision budget.ELoop
  decision.loopFitsEntirely = true →
    realTripCount * budget.ELoop + budget.endEToLeave ≤ entryEnergyLeft ∧
    ∀ bb ∈ L.blocks,
      (after.blockMeta (.real bb)).E_to_leave = (solution.blockMeta (.real bb)).E_to_leave +
        ((realTripCount - 1 : ℕ) : ℚ) * budget.ELoop ∧
      (after.blockMeta (.real bb)).E_left = (solution.blockMeta (.real bb)).E_left.map
        (· - ((realTripCount - 1 : ℕ) : ℚ) * budget.ELoop)

section Fits

variable {solution : SchematicSolution} {graph : SchematicGraph} {L : Loop} {tripCount : ℕ}
  {blocks : LoopBoundaryBlocks} {budget : LoopIterationBudget} {decision : LoopCheckpointDecision}

/-- Changing the energies of the blocks of a list, each once. -/
private theorem blockMeta_foldl_setMeta {f : BlockMetadata → BlockMetadata} {l : List BasicBlock}
    (hl : l.Nodup) (s : SchematicSolution) :
    (∀ bb ∈ l, (l.foldl (fun s bb => s.setMeta (.real bb) (f (s.blockMeta (.real bb)))) s).blockMeta
      (.real bb) = f (s.blockMeta (.real bb))) ∧
    ∀ bb ∉ l, (l.foldl (fun s bb => s.setMeta (.real bb) (f (s.blockMeta (.real bb)))) s).blockMeta
      (.real bb) = s.blockMeta (.real bb) := by
  induction l generalizing s with
  | nil => exact ⟨by simp, fun _ _ => rfl⟩
  | cons b l ih =>
    obtain ⟨hb, hl⟩ := List.nodup_cons.mp hl
    obtain ⟨hmem, hother⟩ := ih hl (s.setMeta (.real b) (f (s.blockMeta (.real b))))
    have hself : (s.setMeta (.real b) (f (s.blockMeta (.real b)))).blockMeta (.real b) =
        f (s.blockMeta (.real b)) := Function.update_self _ _ _
    have hne : ∀ bb, bb ≠ b → (s.setMeta (.real b) (f (s.blockMeta (.real b)))).blockMeta
        (.real bb) = s.blockMeta (.real bb) := fun bb hbb =>
      Function.update_of_ne (fun h => hbb (Block.real.inj h)) _ _
    rw [List.foldl_cons]
    refine ⟨fun bb hbb => ?_, fun bb hbb => ?_⟩
    · rcases List.mem_cons.mp hbb with rfl | hbb
      · rw [hother bb hb, hself]
      · rw [hmem bb hbb, hne bb (fun h => hb (h ▸ hbb))]
    · obtain ⟨hbb, hbbl⟩ := not_or.mp (mt List.mem_cons.mpr hbb)
      rw [hother bb hbbl, hne bb hbb]

/-- The policy leaves the energies alone, and declares a loop to fit if the budget exceeds the trip
count it is given. -/
private theorem applyLoopCheckpointPolicy_spec (solution : SchematicSolution)
    (graph : SchematicGraph) (tripCount : ℕ) (blocks : LoopBoundaryBlocks)
    (budget : LoopIterationBudget) (hdecision : decision.loopFitsEntirely = false) :
    (solution.applyLoopCheckpointPolicy graph tripCount blocks budget decision).2.blockMeta =
      solution.blockMeta ∧
    ((solution.applyLoopCheckpointPolicy graph tripCount blocks budget
      decision).1.loopFitsEntirely = true ↔ tripCount < budget.numIterations) ∧
    (tripCount < budget.numIterations →
      (solution.applyLoopCheckpointPolicy graph tripCount blocks budget
        decision).1.numIterationsPerCharge = tripCount) := by
  simp only [applyLoopCheckpointPolicy]
  split_ifs with hfits hfew
  · refine ⟨?_, iff_of_true rfl hfits, fun _ => rfl⟩
    cases blocks.latchBlock <;> rfl
  · refine ⟨?_, iff_of_false (by simp [hdecision]) hfits, fun h => absurd h hfits⟩
    cases blocks.latchBlock <;> rfl
  · refine ⟨?_, iff_of_false (by simp [hdecision]) hfits, fun h => absurd h hfits⟩
    cases blocks.latchBlock <;> rfl

/-- What the blocks of a loop that fits are charged for. -/
private theorem applyLoopIterationAdjustment_spec (solution : SchematicSolution)
    (hL : L.blocks.Nodup) (hfits : decision.loopFitsEntirely = true)
    (hcharge : decision.numIterationsPerCharge = tripCount) (ELoop : ℚ) {bb : BasicBlock}
    (hbb : bb ∈ L.blocks) :
    let iterations : ℕ := if tripCount ≤ 1 then 0 else (tripCount + (2 ^ 32 - 1)) % 2 ^ 32
    ((solution.applyLoopIterationAdjustment L tripCount decision ELoop).blockMeta
      (.real bb)).E_to_leave = (solution.blockMeta (.real bb)).E_to_leave + iterations * ELoop ∧
    ((solution.applyLoopIterationAdjustment L tripCount decision ELoop).blockMeta
      (.real bb)).E_left = (solution.blockMeta (.real bb)).E_left.map (· - iterations * ELoop) := by
  simp only [applyLoopIterationAdjustment, hcharge, hfits, if_true]
  split_ifs with hfew
  · have hid : (fun x : ℚ => x - ((0 : ℕ) : ℚ) * ELoop) = id := by
      funext x
      simp
    rw [hid, WithTop.map_id]
    simp
  · rw [(blockMeta_foldl_setMeta (f := fun m => { m with
      loop := some ⟨L.header, tripCount, ELoop⟩
      E_to_leave := m.E_to_leave + ((tripCount + (2 ^ 32 - 1)) % 2 ^ 32 : ℕ) * ELoop
      E_left := m.E_left.map (· - ((tripCount + (2 ^ 32 - 1)) % 2 ^ 32 : ℕ) * ELoop) }) hL
      solution).1 bb hbb]
    exact ⟨rfl, rfl⟩

/-- The iterations charged for a trip count of 32 bits. -/
private theorem charged_iterations {tripCount : ℕ} (h : tripCount < 2 ^ 32) :
    (if tripCount ≤ 1 then 0 else (tripCount + (2 ^ 32 - 1)) % 2 ^ 32) = tripCount - 1 := by
  split_ifs <;> omega

/-- A budget that exceeds a number of iterations pays for that number, and for two more. -/
theorem LoopIterationBudget.IsRead.pays {entryEnergyLeft inc : ℚ}
    (hread : budget.IsRead entryEnergyLeft inc) (h : tripCount < budget.numIterations) :
    0 < budget.ELoop ∧ ((tripCount + 2) * budget.ELoop + budget.endEToLeave ≤ entryEnergyLeft ∨
      (tripCount + 2) * budget.ELoop + budget.startEToLeave ≤ entryEnergyLeft) := by
  obtain ⟨available, havailable, hraw⟩ := hread.raw_eq
  have hraw' : (tripCount : ℤ) < budget.rawNumIterations := by
    have := hread.numIterations_eq
    omega
  have hELoop : 0 < budget.ELoop := by
    by_contra hELoop
    rw [hraw, if_neg hELoop] at hraw'
    omega
  rw [hraw, if_pos hELoop] at hraw'
  have hfloor : ((tripCount + 2 : ℤ) : ℚ) ≤ available / budget.ELoop := Int.le_floor.mp (by omega)
  have hle : (tripCount + 2) * budget.ELoop ≤ available := by
    rw [le_div_iff₀ hELoop] at hfloor
    push_cast at hfloor
    exact hfloor
  refine ⟨hELoop, havailable.imp (fun h => ?_) fun h => ?_⟩
  · linarith
  · linarith

/-- **A loop that is declared to fit fits just if its trip count has 32 bits**, or the low 32 bits
are not below the budget either. The cost of a traversal is not negative. -/
theorem fitsProperly_iff {entryEnergyLeft inc : ℚ} (realTripCount : ℕ)
    (hread : budget.IsRead entryEnergyLeft inc)
    (hbody : budget.endEToLeave ≤ budget.startEToLeave) (hL : L.blocks.Nodup)
    (hdecision : decision.loopFitsEntirely = false) :
    FitsProperly solution graph L realTripCount blocks entryEnergyLeft budget decision ↔
      realTripCount < 2 ^ 32 ∨ budget.numIterations ≤ realTripCount % 2 ^ 32 := by
  obtain ⟨hmeta, hfits, hcharge⟩ := applyLoopCheckpointPolicy_spec solution graph
    (realTripCount % 2 ^ 32) blocks budget hdecision
  simp only [FitsProperly, hfits]
  constructor
  · -- a longer loop that is declared to fit is charged for the low bits of its trip count
    intro h
    by_contra hcon
    obtain ⟨hlong, hlow⟩ := not_or.mp hcon
    have hlow := not_le.mp hlow
    have hheader : L.header ∈ L.blocks := List.mem_of_mem_head? L.header_first
    obtain ⟨hELoop, -⟩ := hread.pays hlow
    have hcharged := ((h hlow).2 _ hheader).1
    rw [(applyLoopIterationAdjustment_spec _ hL (hfits.mpr hlow) (hcharge hlow) _ hheader).1, hmeta,
      charged_iterations (Nat.mod_lt _ (by omega))] at hcharged
    have hcoeff := mul_right_cancel₀ hELoop.ne' (add_left_cancel hcharged)
    have hcoeff : realTripCount % 2 ^ 32 - 1 = realTripCount - 1 := by exact_mod_cast hcoeff
    omega
  · intro h hlow
    have hshort : realTripCount < 2 ^ 32 := h.resolve_right (not_le.mpr hlow)
    have hmod : realTripCount % 2 ^ 32 = realTripCount := Nat.mod_eq_of_lt hshort
    rw [hmod] at hmeta hlow hfits hcharge ⊢
    obtain ⟨hELoop, hpays⟩ := hread.pays hlow
    refine ⟨?_, fun bb hbb => ?_⟩
    · rcases hpays with hpays | hpays
      · linarith
      · linarith
    · have hspec := applyLoopIterationAdjustment_spec
        (solution.applyLoopCheckpointPolicy graph realTripCount blocks budget decision).2 hL
        (hfits.mpr hlow) (hcharge hlow) budget.ELoop hbb
      rw [charged_iterations hshort, hmeta] at hspec
      exact hspec

end Fits

/-! ### A loop of ten units -/

/-- A loop of a single block. -/
private def tenUnits : Loop := ⟨0, [0], some 0, none, rfl⟩

/-- Nine iterations of ten units each: a restore leaves a hundred. -/
private def nineIterations : LoopIterationBudget := ⟨10, 0, 10, 100, 9, 9⟩

private theorem isRead_nineIterations : nineIterations.IsRead 100 0 :=
  ⟨by norm_num [nineIterations], rfl, 100, .inl (by norm_num [nineIterations]), by
    have hfloor : ⌊(100 / 10 : ℚ)⌋ = 10 := by norm_num
    simp [nineIterations, hfloor]⟩

theorem fitsProperly_fiveIterations : FitsProperly {} {} tenUnits 5
    (createLoopBoundaryBlocks tenUnits) 100 nineIterations { loop := tenUnits } ↔
      5 < 2 ^ 32 ∨ nineIterations.numIterations ≤ 5 % 2 ^ 32 :=
  fitsProperly_iff 5 isRead_nineIterations (by norm_num [nineIterations]) (by decide) rfl

/-- A loop of `2 ^ 32 + 5` iterations is declared to fit like a loop of five. -/
theorem not_fitsProperly_longLoop : nineIterations.IsRead 100 0 ∧
    ¬FitsProperly {} {} tenUnits (2 ^ 32 + 5) (createLoopBoundaryBlocks tenUnits) 100 nineIterations
      { loop := tenUnits } := by
  refine ⟨isRead_nineIterations, fun h => ?_⟩
  have hfits := (h rfl).1
  norm_num [nineIterations] at hfits

end Bao.Schematic
