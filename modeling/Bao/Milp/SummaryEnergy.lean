import Bao.Milp.AbstractCFG
import Bao.Milp.LoopEnergy

/-!
# The energy of a loop summary

A summary node is charged the worst-case path of its loop times the trip count, plus the
preheader. This file compares that charge with the base energy of concrete executions that
enter the preheader and run the loop within the trip counts.

The charge is an upper bound for every execution that returns from a latch to the header of
its loop or leaves the loop there (`summary_energy_bound`). The search of
`computeWorstCasePath` stops at the latch, so a cycle that closes through the latch without
passing the header is never reported as `unsupported-intra-loop-cycle`; an execution that
takes such a cycle costs more than the summary (`irreducible_exceeds_summary`).
-/

namespace Bao.Milp

namespace FunctionAnalysis

variable {A : FunctionAnalysis}

/-- The nests of a forest consist of loops of the forest. -/
theorem nest_mem_loops {L T : Loop} (hL : L ∈ A.loopInfo.loops)
    (hT : T ∈ L.collectOutermostFirst) : T ∈ A.loopInfo.loops := by
  obtain ⟨R, hR, hLR⟩ := Loop.mem_collectAll.mp hL
  exact Loop.mem_collectAll.mpr ⟨R, hR, Loop.mem_nest_trans hT hLR⟩

/-- The iterations of an execution that returns from latches to headers cost at most the worst
iteration, as often as the trip count says. -/
theorem energyOf_le_trips (hsimp : A.loopInfo.Simplified) {L : Loop} (hL : L ∈ A.loopInfo.loops)
    {s : SummaryBudget} (hs : A.computeSummaryBudget L = .ok s) {tc : ℕ}
    (htc : L.summarySubLoopTripCount = some tc) {w : List BlockId} (hwalk : L.Walk A.cfg w)
    (htrip : ∀ T ∈ L.collectOutermostFirst, Loop.TripBound Loop.summarySubLoopTripCount T w)
    (hlatch : List.IsChain (L.LatchStep A.cfg) w) :
    Loop.energyOf A.cfg w ≤ s.worstCasePath.energy * tc := by
  have hpath := (computeSummaryBudget_ok hs).1
  have hnat : ∀ T ∈ L.collectOutermostFirst, T.Natural A.cfg := fun T hT =>
    A.loopInfo.natural T (nest_mem_loops hL hT)
  -- the whole execution is one stay in the loop
  have hcount : w.count L.header ≤ tc :=
    htrip L L.self_mem_nest tc htc [] w [] (by simp) hwalk.mem (by simp)
  have h0 : 0 ≤ s.worstCasePath.energy := Loop.worst_nonneg L hnat hpath
  calc Loop.energyOf A.cfg w
      ≤ w.count L.header * s.worstCasePath.energy :=
        Loop.energy_le_count_mul_worst hnat (fun T hT => hsimp T (nest_mem_loops hL hT)) hpath
          hwalk hlatch fun S hS T hT =>
            htrip T (Loop.mem_nest_trans hT (Loop.subLoop_mem_nest hS))
    _ ≤ tc * s.worstCasePath.energy := by gcongr
    _ = s.worstCasePath.energy * tc := mul_comm _ _

/-- The energy of a summary: that of its iterations, and that of the preheader. -/
theorem pathEnergy_eq {L : Loop} {s : SummaryBudget} (hs : A.computeSummaryBudget L = .ok s)
    {ph : BlockId} (hph : L.getLoopPreheader A.cfg = some ph) (nodeName : String) (tc : ℕ) :
    (A.aggregate L nodeName s tc).pathEnergy =
      s.worstCasePath.energy * tc + A.cfg.energyCost ph := by
  rw [aggregate, (computeSummaryBudget_ok hs).2.1, hph]
  simp

/-- **Summary energy.** In a function in loop-simplify form, let a loop be summarized. An
execution that enters the preheader and runs the loop, within the trip counts of the loop and
of its nested sub-loops, costs at most the energy recorded for the summary, provided it steps
from the latch of a loop of the nest into that loop only by returning to the header. -/
theorem summary_energy_bound (hsimp : A.loopInfo.Simplified) {L : Loop}
    (hL : L ∈ A.loopInfo.loops) {used : List String} {selected : List BlockId}
    {agg : LoopAggregate} (hagg : A.summarizeLoop used selected L = .ok agg) {ph : BlockId}
    (hph : L.getLoopPreheader A.cfg = some ph) {w : List BlockId} (hwalk : L.Walk A.cfg w)
    (htrip : ∀ T ∈ L.collectOutermostFirst,
      Loop.TripBound Loop.summarySubLoopTripCount T w)
    (hlatch : List.IsChain (L.LatchStep A.cfg) w) :
    Loop.energyOf A.cfg (ph :: w) ≤ agg.pathEnergy := by
  obtain ⟨s, tc, hs, htc, -, rfl⟩ := summarizeLoop_ok hagg
  rw [pathEnergy_eq hs hph, Loop.energyOf_cons, add_comm]
  exact add_le_add_left (energyOf_le_trips hsimp hL hs htc hwalk htrip hlatch) _

/-! ### The missed cycle -/

/-- No globals, no ineligible objects. -/
def emptyState : StateAnalysis where
  vmObjs := []
  eligLiveIn _ := []
  eligDefIndicator _ _ := false
  ineligibleObjs := []
  ineligLiveIn _ := []
  ineligDefIndicator _ _ := false
  loadCount _ _ := 0
  storeCount _ _ := 0
  varSizeBytes _ := 0
  isAggregate _ := false
  vmObjs_nodup := List.nodup_nil
  eligLiveIn_nodup := by simp
  eligLiveIn_subset := by simp
  ineligibleObjs_nodup := List.nodup_nil
  ineligible_ne_global := noIneligible_ne_global
  ineligLiveIn_nodup := noIneligible_nodup
  ineligLiveIn_subset := noIneligible_subset

/-- Unit costs and a capacity of `100`. -/
def unitParams : EnergyParams where
  capacity := 100
  ePro := 1
  eEpi := 1
  regStoreEnergy := 1
  regRestoreEnergy := 1
  nvmAccessPenalty := 1
  memStoreEnergyPerByte := 1
  memRestoreEnergyPerByte := 1
  vmCapacityBytes := 64
  ePro_nonneg := by decide
  eEpi_nonneg := by decide
  regStoreEnergy_nonneg := by decide
  regRestoreEnergy_nonneg := by decide
  nvmAccessPenalty_nonneg := by decide
  memStoreEnergyPerByte_nonneg := by decide
  memRestoreEnergyPerByte_nonneg := by decide

/-- A loop with header `2` and latch `4`. The latch branches back to the header, to block `3`
in the body and to the exit; block `3` and the latch form a cycle with two entries. -/
def irreducibleCfg : CFGAnalysis :=
  .ofTable [(.branch [1], 1), (.branch [2], 1), (.branch [3, 4], 1), (.branch [4], 1),
    (.branch [2, 3, 5], 1), (.ret, 1)] (by decide) (by decide) (by decide +kernel)

/-- The only loop of `irreducibleCfg`, with two iterations by its marker. -/
def irreducibleLoop : Loop := .mk 2 [2, 3, 4] 0 (some 2) []

/-- The analysis of `irreducibleCfg`. -/
def irreducible : FunctionAnalysis where
  cfg := irreducibleCfg
  loopInfo :=
    { topLevelLoops := [irreducibleLoop]
      natural := by decide +kernel
      disjoint := by decide +kernel }
  state := emptyState
  params := unitParams
  fEntry _ := 1
  hasInvoke _ := false

/-- The loop of `irreducible` is summarized with energy `7`: two rounds of the path `2, 3, 4`,
and the preheader. -/
theorem irreducible_summary : ∃ agg,
    irreducible.summarizeLoop (irreducibleCfg.blocks.map irreducibleCfg.name) []
      irreducibleLoop = .ok agg ∧ agg.pathEnergy = 7 := by
  have heval : (irreducible.summarizeLoop (irreducibleCfg.blocks.map irreducibleCfg.name) []
      irreducibleLoop).toOption.map LoopAggregate.pathEnergy = some 7 := by decide +kernel
  cases hsum : irreducible.summarizeLoop (irreducibleCfg.blocks.map irreducibleCfg.name) []
      irreducibleLoop with
  | error e => simp [hsum, Except.toOption] at heval
  | ok agg => exact ⟨agg, rfl, by simpa [hsum, Except.toOption] using heval⟩

private theorem irreducible_walk (w : List BlockId) (hhead : w.head? = some 2)
    (hchain : List.IsChain irreducibleCfg.Succ w) (hmem : ∀ b ∈ w, b ∈ irreducibleLoop.blocks)
    (hcount : w.count 2 ≤ 2) : irreducibleLoop.Walk irreducibleCfg w ∧
      ∀ T ∈ irreducibleLoop.collectOutermostFirst,
        Loop.TripBound Loop.summarySubLoopTripCount T w := by
  refine ⟨⟨hhead, hchain, hmem⟩, fun T hT => ?_⟩
  obtain rfl : T = irreducibleLoop := by
    rcases Loop.mem_collectOutermostFirst.mp hT with rfl | ⟨S, hS, -⟩
    · rfl
    · exact absurd hS List.not_mem_nil
  exact Loop.tripBound_of_count_le (n := 2) rfl hcount

/-- **The missed cycle.** The loop is in simplified form and is summarized with energy `7`,
but an execution that enters it once, executes the header once and goes round the cycle of
block `3` and the latch costs `9`. -/
theorem irreducible_exceeds_summary :
    irreducible.loopInfo.Simplified ∧ irreducibleLoop ∈ irreducible.loopInfo.loops ∧
    irreducibleLoop.getLoopPreheader irreducibleCfg = some 1 ∧
    (irreducibleLoop.Walk irreducibleCfg [2, 4, 3, 4, 3, 4, 3, 4] ∧
      ∀ T ∈ irreducibleLoop.collectOutermostFirst,
        Loop.TripBound Loop.summarySubLoopTripCount T [2, 4, 3, 4, 3, 4, 3, 4]) ∧
    ∃ agg, irreducible.summarizeLoop (irreducibleCfg.blocks.map irreducibleCfg.name) []
        irreducibleLoop = .ok agg ∧
      agg.pathEnergy < Loop.energyOf irreducibleCfg [1, 2, 4, 3, 4, 3, 4, 3, 4] := by
  refine ⟨by decide +kernel, List.mem_singleton_self _, by decide +kernel,
    irreducible_walk _ rfl (by decide) (by decide) (by decide), ?_⟩
  obtain ⟨agg, hagg, henergy⟩ := irreducible_summary
  refine ⟨agg, hagg, ?_⟩
  rw [henergy]
  decide +kernel

/-- Two ordinary rounds of the same loop stay below the summary energy. -/
theorem summary_energy_bound_two_rounds : ∃ agg,
    irreducible.summarizeLoop (irreducibleCfg.blocks.map irreducibleCfg.name) []
      irreducibleLoop = .ok agg ∧
    Loop.energyOf irreducibleCfg [1, 2, 3, 4, 2, 4] ≤ agg.pathEnergy := by
  obtain ⟨agg, hagg, -⟩ := irreducible_summary
  obtain ⟨hwalk, htrip⟩ := irreducible_walk [2, 3, 4, 2, 4] rfl (by decide) (by decide)
    (by decide)
  exact ⟨agg, hagg, summary_energy_bound (by decide +kernel) (List.mem_singleton_self _) hagg
    (by decide +kernel) hwalk htrip (by decide +kernel)⟩

end FunctionAnalysis

end Bao.Milp
