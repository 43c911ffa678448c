import Bao.Milp.SummaryEnergy

/-!
# The NVM penalty of a loop summary

The NVM penalty recorded for a summary is collected from the blocks of the one path that
maximizes base energy, each counted once for every iteration. It bounds the accesses of an
execution that makes all its accesses to the NVM-resident globals on that path, and in every
iteration at most once in each block (`summary_nvm_bound`). An execution that makes accesses
off the path can exceed it: `accessHeavy_exceeds_summary` takes the branch that is cheaper in
base energy and heavier in accesses.
-/

namespace Bao.Milp.FunctionAnalysis

variable {A : FunctionAnalysis}

/-- The penalty of one execution of a block when the globals `inNvm` are left in NVM. -/
def nvmCost (A : FunctionAnalysis) (inNvm : GlobalVariable → Bool) (b : BlockId) : ℚ :=
  ((A.state.vmObjs.filter inNvm).map (A.eNvm b)).sum

/-- The energy of an execution with its NVM accesses. -/
def energyWithNvm (A : FunctionAnalysis) (inNvm : GlobalVariable → Bool) (w : List BlockId) :
    ℚ :=
  Loop.energyOf A.cfg w + (w.map (A.nvmCost inNvm)).sum

/-- The block energy the MILP charges for a summary when the globals `inNvm` are left in
NVM. -/
def summaryCharge (A : FunctionAnalysis) (inNvm : GlobalVariable → Bool) (agg : LoopAggregate) :
    ℚ :=
  agg.pathEnergy + ((A.state.vmObjs.filter inNvm).map agg.eNvmByGV).sum

/-- **Accesses on the path.** In every iteration of the loop, that is between two executions
of the header, a block with accesses to the NVM-resident globals is on the paths of greatest
base energy and is executed at most once. -/
def AccessesOnPath (A : FunctionAnalysis) (L : Loop) (inNvm : GlobalVariable → Bool)
    (w : List BlockId) : Prop :=
  ∀ pre seg post, w = pre ++ seg ++ post → L.header ∉ seg.tail → ∀ b ∈ seg,
    0 < A.nvmCost inNvm b →
      L.OnHeaviestPaths A.cfg Loop.summarySubLoopTripCount b ∧ seg.count b ≤ 1

theorem nvmCost_nonneg (inNvm : GlobalVariable → Bool) (b : BlockId) :
    0 ≤ A.nvmCost inNvm b := by
  refine List.sum_nonneg fun q hq => ?_
  obtain ⟨g, -, rfl⟩ := List.mem_map.mp hq
  exact eNvm_nonneg b g

/-- The penalty of one iteration is at most the penalty of the path. -/
private theorem iteration_nvm_le {inNvm : GlobalVariable → Bool} {pathBlocks seg : List BlockId}
    (h : ∀ b ∈ seg, 0 < A.nvmCost inNvm b → b ∈ pathBlocks ∧ seg.count b ≤ 1) :
    (seg.map (A.nvmCost inNvm)).sum ≤ (pathBlocks.map (A.nvmCost inNvm)).sum := by
  -- blocks without a penalty do not count
  have hfilter : ∀ l : List BlockId, (l.map (A.nvmCost inNvm)).sum =
      ((l.filter fun b => 0 < A.nvmCost inNvm b).map (A.nvmCost inNvm)).sum := by
    intro l
    induction l with
    | nil => rfl
    | cons b l ih =>
      by_cases hb : 0 < A.nvmCost inNvm b
      · rw [List.filter_cons_of_pos (by simpa using hb), List.map_cons, List.sum_cons,
          List.map_cons, List.sum_cons, ih]
      · have hz : A.nvmCost inNvm b = 0 := le_antisymm (not_lt.mp hb) (nvmCost_nonneg inNvm b)
        rw [List.filter_cons_of_neg (by simpa using hb), List.map_cons, List.sum_cons, hz, ih,
          zero_add]
  have hnodup : (seg.filter fun b => 0 < A.nvmCost inNvm b).Nodup := by
    refine List.nodup_iff_count_le_one.mpr fun b => ?_
    by_cases hb : b ∈ seg.filter fun b => 0 < A.nvmCost inNvm b
    · obtain ⟨hmem, hpos⟩ := List.mem_filter.mp hb
      exact (List.filter_sublist.count_le b).trans (h b hmem (by simpa using hpos)).2
    · rw [List.count_eq_zero.mpr hb]
      omega
  have hsub : (seg.filter fun b => 0 < A.nvmCost inNvm b) ⊆ pathBlocks := by
    intro b hb
    obtain ⟨hmem, hpos⟩ := List.mem_filter.mp hb
    exact (h b hmem (by simpa using hpos)).1
  -- each penalized block comes once, so they are a part of the path
  obtain ⟨l, hperm, hsublist⟩ := List.subperm_of_subset hnodup hsub
  rw [hfilter seg, ← (hperm.map (A.nvmCost inNvm)).sum_eq]
  refine (hsublist.map (A.nvmCost inNvm)).sum_le_sum fun q hq => ?_
  obtain ⟨b, -, rfl⟩ := List.mem_map.mp hq
  exact nvmCost_nonneg inNvm b

/-- Split an execution after its first iteration. -/
private theorem exists_iteration (header : BlockId) (w : List BlockId) :
    ∃ seg post, w = seg ++ post ∧ header ∉ seg ∧ ∀ d ∈ post.head?, d = header := by
  induction w with
  | nil => exact ⟨[], [], rfl, by simp, by simp⟩
  | cons a w ih =>
    by_cases ha : a = header
    · exact ⟨[], a :: w, rfl, by simp, by simpa using ha⟩
    · obtain ⟨seg, post, rfl, hseg, hpost⟩ := ih
      refine ⟨a :: seg, post, rfl, fun hmem => ?_, hpost⟩
      rcases List.mem_cons.mp hmem with rfl | hmem
      · exact ha rfl
      · exact hseg hmem

/-- The penalty of an execution is at most the penalty of the path for every execution of the
header. -/
private theorem run_nvm_le {L : Loop} {inNvm : GlobalVariable → Bool}
    {pathBlocks : List BlockId}
    (hpath : ∀ b, L.OnHeaviestPaths A.cfg Loop.summarySubLoopTripCount b → b ∈ pathBlocks)
    {w : List BlockId} (h : A.AccessesOnPath L inNvm w) (hhead : ∀ d ∈ w.head?, d = L.header) :
    (w.map (A.nvmCost inNvm)).sum ≤
      w.count L.header * (pathBlocks.map (A.nvmCost inNvm)).sum := by
  induction hn : w.length using Nat.strong_induction_on generalizing w with
  | _ n ih =>
    cases w with
    | nil => simp
    | cons a rest =>
      obtain rfl : a = L.header := hhead a rfl
      obtain ⟨seg, post, rfl, hseg, hpost⟩ := exists_iteration L.header rest
      have hiter : ((L.header :: seg).map (A.nvmCost inNvm)).sum ≤
          (pathBlocks.map (A.nvmCost inNvm)).sum := iteration_nvm_le fun b hb hpos =>
        (h [] (L.header :: seg) post rfl hseg b hb hpos).imp_left (hpath b)
      have hrest : A.AccessesOnPath L inNvm post := by
        intro pre seg' post' hpost' htail
        refine h (L.header :: seg ++ pre) seg' post' ?_ htail
        rw [hpost']
        simp
      have hrec := ih post.length (by rw [← hn]; simp) hrest hpost rfl
      have hcount : (L.header :: (seg ++ post)).count L.header = post.count L.header + 1 := by
        rw [List.count_cons_self, List.count_append, List.count_eq_zero.mpr hseg, Nat.zero_add]
      rw [← List.cons_append, List.map_append, List.sum_append, List.cons_append, hcount]
      calc ((L.header :: seg).map (A.nvmCost inNvm)).sum + (post.map (A.nvmCost inNvm)).sum
          ≤ (pathBlocks.map (A.nvmCost inNvm)).sum +
              post.count L.header * (pathBlocks.map (A.nvmCost inNvm)).sum :=
            add_le_add hiter hrec
        _ = ((post.count L.header + 1 : ℕ) : ℚ) * (pathBlocks.map (A.nvmCost inNvm)).sum := by
            push_cast
            ring

/-- Summing over blocks first or over globals first gives the same penalty. -/
private theorem sum_nvmCost (inNvm : GlobalVariable → Bool) (bs : List BlockId) :
    (bs.map (A.nvmCost inNvm)).sum =
      ((A.state.vmObjs.filter inNvm).map fun g => (bs.map fun b => A.eNvm b g).sum).sum := by
  induction bs with
  | nil => simp
  | cons b bs ih =>
    simp only [List.map_cons, List.sum_cons]
    rw [List.sum_map_add, ih]
    rfl

/-- **Summary energy with NVM accesses.** In a function in loop-simplify form, let a loop be
summarized and let the globals `inNvm` be left in NVM. An execution that enters the preheader
and runs the loop within the trip counts costs at most the block energy charged for the
summary, provided it returns from latches to headers and makes its accesses on the heaviest paths,
once in an iteration. -/
theorem summary_nvm_bound (hsimp : A.loopInfo.Simplified) {L : Loop}
    (hL : L ∈ A.loopInfo.loops) {used : List String} {selected : List BlockId}
    {agg : LoopAggregate} (hagg : A.summarizeLoop used selected L = .ok agg) {ph : BlockId}
    (hph : L.getLoopPreheader A.cfg = some ph) (inNvm : GlobalVariable → Bool)
    {w : List BlockId} (hwalk : L.Walk A.cfg w)
    (htrip : ∀ T ∈ L.collectOutermostFirst,
      Loop.TripBound Loop.summarySubLoopTripCount T w)
    (hlatch : List.IsChain (L.LatchStep A.cfg) w)
    (hacc : A.AccessesOnPath L inNvm w) :
    A.energyWithNvm inNvm (ph :: w) ≤ A.summaryCharge inNvm agg := by
  obtain ⟨s, tc, hs, htc, -, rfl⟩ := summarizeLoop_ok hagg
  have hcount : w.count L.header ≤ tc :=
    htrip L L.self_mem_nest tc htc [] w [] (by simp) hwalk.mem (by simp)
  have hnat : ∀ T ∈ L.collectOutermostFirst, T.Natural A.cfg := fun T hT =>
    A.loopInfo.natural T (nest_mem_loops hL hT)
  have hrun := run_nvm_le
    (fun b hb => Loop.OnHeaviestPaths.mem_blocksOnPath hb hnat (computeSummaryBudget_ok hs).1)
    hacc fun d hd => by
    rw [hwalk.head, Option.mem_def, Option.some.injEq] at hd
    exact hd.symm
  have hpath0 : 0 ≤ (s.worstCasePath.blocksOnPath.map (A.nvmCost inNvm)).sum := by
    refine List.sum_nonneg fun q hq => ?_
    obtain ⟨b, -, rfl⟩ := List.mem_map.mp hq
    exact nvmCost_nonneg inNvm b
  have hnvm : (w.map (A.nvmCost inNvm)).sum ≤
      tc * (s.worstCasePath.blocksOnPath.map (A.nvmCost inNvm)).sum :=
    hrun.trans (by gcongr)
  -- the summary charges the path of an iteration for every trip
  have hcharge : ((A.state.vmObjs.filter inNvm).map
      (A.aggregate L (makeUniqueSummaryNodeName (A.cfg.name L.header) used) s tc).eNvmByGV).sum =
        tc * (s.worstCasePath.blocksOnPath.map (A.nvmCost inNvm)).sum + A.nvmCost inNvm ph := by
    simp only [aggregate, hph, Option.toList_some, List.map_cons, List.map_nil, List.sum_cons,
      List.sum_nil, add_zero]
    rw [List.sum_map_add, List.sum_map_mul_right, ← sum_nvmCost, mul_comm]
    rfl
  calc A.energyWithNvm inNvm (ph :: w)
      = A.cfg.energyCost ph + Loop.energyOf A.cfg w +
          (A.nvmCost inNvm ph + (w.map (A.nvmCost inNvm)).sum) := by
        rw [energyWithNvm, Loop.energyOf_cons, List.map_cons, List.sum_cons]
    _ ≤ A.cfg.energyCost ph + s.worstCasePath.energy * tc + (A.nvmCost inNvm ph +
          tc * (s.worstCasePath.blocksOnPath.map (A.nvmCost inNvm)).sum) := by
        gcongr
        exact energyOf_le_trips hsimp hL hs htc hwalk htrip hlatch
    _ = A.summaryCharge inNvm
          (A.aggregate L (makeUniqueSummaryNodeName (A.cfg.name L.header) used) s tc) := by
        rw [summaryCharge, hcharge, pathEnergy_eq hs hph]
        ring

/-! ### The cheaper branch with more accesses -/

/-- A loop with header `2`, latch `5` and two branches: block `3` costs more energy, block `4`
makes the accesses. -/
def accessHeavyCfg : CFGAnalysis :=
  .ofTable [(.branch [1], 1), (.branch [2], 1), (.branch [3, 4], 1), (.branch [5], 10),
    (.branch [5], 5), (.branch [2, 6], 1), (.ret, 1)] (by decide) (by decide) (by decide +kernel)

/-- The only loop of `accessHeavyCfg`, with two iterations by its marker. -/
def accessHeavyLoop : Loop := .mk 2 [2, 3, 4, 5] 0 (some 2) []

/-- One global of four bytes, loaded once in the header and six times in block `4`, and live
up to the exit of the loop. -/
def accessHeavyState : StateAnalysis :=
  { emptyState with
    vmObjs := [0]
    eligLiveIn b := if b ≤ 5 then [0] else []
    loadCount b _ := if b = 2 then 1 else if b = 4 then 6 else 0
    varSizeBytes _ := 4
    vmObjs_nodup := oneGlobal_nodup
    eligLiveIn_nodup b := by split_ifs <;> simp
    eligLiveIn_subset b := by split_ifs <;> simp }

/-- The analysis of `accessHeavyCfg`. -/
def accessHeavy : FunctionAnalysis where
  cfg := accessHeavyCfg
  loopInfo :=
    { topLevelLoops := [accessHeavyLoop]
      natural := by decide +kernel
      disjoint := by decide +kernel }
  state := accessHeavyState
  params := unitParams
  fEntry _ := 1
  hasInvoke _ := false

/-- The loop of `accessHeavy` is summarized with energy `25` and a penalty of `2` for the
global: the recorded path goes through block `3`. -/
theorem accessHeavy_summary : ∃ agg,
    accessHeavy.summarizeLoop (accessHeavyCfg.blocks.map accessHeavyCfg.name) []
      accessHeavyLoop = .ok agg ∧ accessHeavy.summaryCharge (fun _ => true) agg = 27 := by
  have heval : (accessHeavy.summarizeLoop (accessHeavyCfg.blocks.map accessHeavyCfg.name) []
      accessHeavyLoop).toOption.map (accessHeavy.summaryCharge fun _ => true) = some 27 := by
    decide +kernel
  cases hsum : accessHeavy.summarizeLoop (accessHeavyCfg.blocks.map accessHeavyCfg.name) []
      accessHeavyLoop with
  | error e => simp [hsum, Except.toOption] at heval
  | ok agg => exact ⟨agg, rfl, by simpa [hsum, Except.toOption] using heval⟩

private theorem accessHeavy_walk (w : List BlockId) (hhead : w.head? = some 2)
    (hchain : List.IsChain accessHeavyCfg.Succ w) (hmem : ∀ b ∈ w, b ∈ accessHeavyLoop.blocks)
    (hcount : w.count 2 ≤ 2) : accessHeavyLoop.Walk accessHeavyCfg w ∧
      ∀ T ∈ accessHeavyLoop.collectOutermostFirst,
        Loop.TripBound Loop.summarySubLoopTripCount T w := by
  refine ⟨⟨hhead, hchain, hmem⟩, fun T hT => ?_⟩
  obtain rfl : T = accessHeavyLoop := by
    rcases Loop.mem_collectOutermostFirst.mp hT with rfl | ⟨S, hS, -⟩
    · rfl
    · exact absurd hS List.not_mem_nil
  exact Loop.tripBound_of_count_le (n := 2) rfl hcount

/-- **The cheaper branch with more accesses.** The summary charges `27` with the global in
NVM. Two iterations through block `4` return from the latch to the header and cost `29`. -/
theorem accessHeavy_exceeds_summary :
    accessHeavy.loopInfo.Simplified ∧ accessHeavyLoop ∈ accessHeavy.loopInfo.loops ∧
    accessHeavyLoop.getLoopPreheader accessHeavyCfg = some 1 ∧
    (accessHeavyLoop.Walk accessHeavyCfg [2, 4, 5, 2, 4, 5] ∧
      ∀ T ∈ accessHeavyLoop.collectOutermostFirst,
        Loop.TripBound Loop.summarySubLoopTripCount T [2, 4, 5, 2, 4, 5]) ∧
    List.IsChain (accessHeavyLoop.LatchStep accessHeavyCfg) [2, 4, 5, 2, 4, 5] ∧
    ∃ agg, accessHeavy.summarizeLoop (accessHeavyCfg.blocks.map accessHeavyCfg.name) []
        accessHeavyLoop = .ok agg ∧
      accessHeavy.summaryCharge (fun _ => true) agg <
        accessHeavy.energyWithNvm (fun _ => true) [1, 2, 4, 5, 2, 4, 5] := by
  refine ⟨by decide +kernel, List.mem_singleton_self _, by decide +kernel,
    accessHeavy_walk _ rfl (by decide) (by decide) (by decide), by decide +kernel, ?_⟩
  obtain ⟨agg, hagg, hcharge⟩ := accessHeavy_summary
  refine ⟨agg, hagg, ?_⟩
  rw [hcharge]
  decide +kernel

/-- Two iterations through block `3` access the global in the header only and stay within the
charge. -/
theorem summary_nvm_bound_heavy_branch : ∃ agg,
    accessHeavy.summarizeLoop (accessHeavyCfg.blocks.map accessHeavyCfg.name) []
      accessHeavyLoop = .ok agg ∧
    accessHeavy.energyWithNvm (fun _ => true) [1, 2, 3, 5, 2, 3, 5] ≤
      accessHeavy.summaryCharge (fun _ => true) agg := by
  obtain ⟨agg, hagg, -⟩ := accessHeavy_summary
  obtain ⟨hwalk, htrip⟩ := accessHeavy_walk [2, 3, 5, 2, 3, 5] rfl (by decide) (by decide)
    (by decide)
  refine ⟨agg, hagg, summary_nvm_bound (by decide +kernel) (List.mem_singleton_self _) hagg
    (by decide +kernel) _ hwalk htrip (by decide +kernel) ?_⟩
  intro pre seg post hw htail b hb hpos
  have hheader : ∀ c ∈ [2, 3, 5, 2, 3, 5], 0 < accessHeavy.nvmCost (fun _ => true) c →
      c = accessHeavyLoop.header := by
    decide +kernel
  obtain rfl := hheader b (by rw [hw]; simp [hb]) hpos
  constructor
  · intro latch totals _ _ p hp _
    exact ⟨_, List.mem_of_mem_head? hp.head, .inl rfl⟩
  · cases seg with
    | nil => simp
    | cons a seg =>
      have hzero : seg.count accessHeavyLoop.header = 0 := List.count_eq_zero.mpr htail
      rw [List.count_cons, hzero]
      split_ifs <;> omega

end Bao.Milp.FunctionAnalysis
