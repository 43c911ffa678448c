import Bao.Milp.EnergyPath

/-!
# State, energy and the budget of a loop summary

`StateAnalysis` is the record of what the state analysis knows of every block: live-in sets
and definition indicators of the eligible globals and of the ineligible objects, access
counts and sizes. `EnergyModel` derives the costs the MILP uses from it. `computeSummaryBudget`
assembles the pieces of the check that decides whether a loop is summarized; the same pieces
give the energies recorded for the summary node.
-/

namespace Bao.Milp

/-- What the state analysis knows of a function. -/
structure StateAnalysis where
  vmObjs : List GlobalVariable
  eligLiveIn : BlockId → List GlobalVariable
  eligDefIndicator : BlockId → GlobalVariable → Bool
  ineligibleObjs : List Value
  ineligLiveIn : BlockId → List Value
  ineligDefIndicator : BlockId → Value → Bool
  loadCount : BlockId → GlobalVariable → ℕ
  storeCount : BlockId → GlobalVariable → ℕ
  varSizeBytes : Value → ℕ
  /-- The global has array or structure type. -/
  isAggregate : GlobalVariable → Bool
  vmObjs_nodup : vmObjs.Nodup
  eligLiveIn_nodup : ∀ b, (eligLiveIn b).Nodup
  eligLiveIn_subset : ∀ b, ∀ g ∈ eligLiveIn b, g ∈ vmObjs
  ineligibleObjs_nodup : ineligibleObjs.Nodup
  ineligible_ne_global : ∀ v ∈ ineligibleObjs, ∀ g, v ≠ .global g
  ineligLiveIn_nodup : ∀ b, (ineligLiveIn b).Nodup
  ineligLiveIn_subset : ∀ b, ∀ v ∈ ineligLiveIn b, v ∈ ineligibleObjs

/-- Energy parameters with non-negative costs. -/
structure EnergyParams extends MILPEnergyParams where
  ePro_nonneg : 0 ≤ ePro
  eEpi_nonneg : 0 ≤ eEpi
  regStoreEnergy_nonneg : 0 ≤ regStoreEnergy
  regRestoreEnergy_nonneg : 0 ≤ regRestoreEnergy
  nvmAccessPenalty_nonneg : 0 ≤ nvmAccessPenalty
  memStoreEnergyPerByte_nonneg : 0 ≤ memStoreEnergyPerByte
  memRestoreEnergyPerByte_nonneg : 0 ≤ memRestoreEnergyPerByte

/-- The inputs of the abstraction: graph, loops, state, energy parameters, block frequencies
and the blocks that contain an invoke. -/
structure FunctionAnalysis where
  cfg : CFGAnalysis
  loopInfo : LoopInfo cfg
  state : StateAnalysis
  params : EnergyParams
  fEntry : BlockId → ℚ
  hasInvoke : BlockId → Bool

namespace FunctionAnalysis

variable (A : FunctionAnalysis)

/-! ### `EnergyModel` -/

/-- `computeNvmPenalties`: the penalty of the accesses of a block to a global. -/
def eNvm (b : BlockId) (g : GlobalVariable) : ℚ :=
  ((A.state.loadCount b g + A.state.storeCount b g : ℕ) : ℚ) * A.params.nvmAccessPenalty

/-- `computeSaveRestoreCosts` with the register cost `reg` and the cost `perByte` of memory:
the same shape serves saves and restores. Untracked values and values of size zero are
free. -/
def stateCost (reg perByte : ℚ) (v : Value) : ℚ :=
  match v with
  | .inst _ => if v ∈ A.state.ineligibleObjs then reg else 0
  | .alloca _ => if v ∈ A.state.ineligibleObjs then A.state.varSizeBytes v * perByte else 0
  | .global g => if g ∈ A.state.vmObjs then A.state.varSizeBytes v * perByte else 0

/-- `getESave`. -/
def eSave : Value → ℚ := A.stateCost A.params.regStoreEnergy A.params.memStoreEnergyPerByte

/-- `getERestore`. -/
def eRestore : Value → ℚ :=
  A.stateCost A.params.regRestoreEnergy A.params.memRestoreEnergyPerByte

/-! ### `computeSummaryBudget` -/

/-- The cost of one value in the boundary margin; array and structure globals are ignored. -/
def marginCost (reg perByte : ℚ) (v : Value) : ℚ :=
  match v with
  | .inst _ => reg
  | .alloca _ => A.state.varSizeBytes v * perByte
  | .global g => if A.state.isAggregate g then 0 else A.state.varSizeBytes v * perByte

/-- `getSaveCostForValue`. -/
def getSaveCostForValue : Value → ℚ :=
  A.marginCost A.params.regStoreEnergy A.params.memStoreEnergyPerByte

/-- `getRestoreCostForValue`. -/
def getRestoreCostForValue : Value → ℚ :=
  A.marginCost A.params.regRestoreEnergy A.params.memRestoreEnergyPerByte

/-- The values live into some block of a set. -/
def liveInVars (bs : List BlockId) : List Value :=
  (bs.flatMap fun b => (A.state.eligLiveIn b).map .global ++ A.state.ineligLiveIn b).dedup

/-- The values some block of a set defines. -/
def defVars (bs : List BlockId) : List Value :=
  (bs.flatMap fun b =>
    (A.state.vmObjs.filter fun g => A.state.eligDefIndicator b g).map .global ++
      A.state.ineligibleObjs.filter fun v => A.state.ineligDefIndicator b v).dedup

/-- The pieces of the summary budget. -/
structure SummaryBudget where
  worstCasePath : WorstCasePath
  perIterNvmPenalty : ℚ
  preheaderEnergy : ℚ
  preheaderNvmPenalty : ℚ
  restoreLiveInMargin : ℚ
  commitDefMargin : ℚ
  budgetAfterBoundary : ℚ

/-- The NVM penalty of a block when no global is placed in VM. -/
def nvmPenaltyIn (b : BlockId) : ℚ := (A.state.vmObjs.map (A.eNvm b)).sum

/-- The capacity left for a region once prologue and epilogue are paid. -/
def budget : ℚ := A.params.capacity - A.params.ePro - A.params.eEpi

/-- `computeSummaryBudget`. -/
def computeSummaryBudget (L : Loop) : Except PathError SummaryBudget :=
  if A.budget ≤ 0 then .error .nonpositiveEnergyBudget
  else match L.computeWorstCaseSummaryPath A.cfg with
    | .error e => .error e
    | .ok path =>
      if path.energy ≤ 0 then .error .nonpositiveLoopEnergy
      else
        let preheader := (L.getLoopPreheader A.cfg).toList
        let marginBlocks := path.blocksOnPath ∪ preheader
        let restoreMargin := ((A.liveInVars marginBlocks).map A.getRestoreCostForValue).sum
        let commitMargin := ((A.defVars marginBlocks).map A.getSaveCostForValue).sum
        .ok
          { worstCasePath := path
            perIterNvmPenalty := (path.blocksOnPath.map A.nvmPenaltyIn).sum
            preheaderEnergy := (preheader.map A.cfg.energyCost).sum
            preheaderNvmPenalty := (preheader.map A.nvmPenaltyIn).sum
            restoreLiveInMargin := restoreMargin
            commitDefMargin := commitMargin
            budgetAfterBoundary := A.budget - (restoreMargin + commitMargin) }

variable {A}

theorem eNvm_nonneg (b : BlockId) (g : GlobalVariable) : 0 ≤ A.eNvm b g :=
  mul_nonneg (Nat.cast_nonneg _) A.params.nvmAccessPenalty_nonneg

theorem stateCost_nonneg {reg perByte : ℚ} (hreg : 0 ≤ reg) (hbyte : 0 ≤ perByte) (v : Value) :
    0 ≤ A.stateCost reg perByte v := by
  cases v <;> simp only [stateCost] <;> split_ifs <;> first | exact hreg | positivity

/-- The path of a budget is the worst-case path, and it costs something. -/
theorem computeSummaryBudget_ok {L : Loop} {s : SummaryBudget}
    (h : A.computeSummaryBudget L = .ok s) :
    L.computeWorstCaseSummaryPath A.cfg = .ok s.worstCasePath ∧
      s.preheaderEnergy = ((L.getLoopPreheader A.cfg).toList.map A.cfg.energyCost).sum ∧
      0 < s.worstCasePath.energy := by
  rw [computeSummaryBudget] at h
  split_ifs at h
  split at h
  · simp at h
  · rename_i path hpath
    split_ifs at h with hpos
    obtain rfl : _ = s := by simpa using h
    exact ⟨hpath, rfl, not_le.mp hpos⟩

end FunctionAnalysis

end Bao.Milp
