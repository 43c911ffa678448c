import Bao.Milp.SummaryEnergy
import Bao.Milp.StripMining

/-!
# The chunk size of a re-clamped loop

After strip mining, the chunk size of an inner loop is chosen anew from the budget of its
summary. `maxKMatchingSummarizer` inverts the test of `buildAbstractCFG`: it takes the largest
`K` below the quotient of the remaining budget by the energy of an iteration. A second, smaller
candidate leaves room for an iteration of the loop around the nest and is preferred when it is
at least `2`.

`largestKWithin` steps below its budget with `nextafter` before it divides. Over exact
rationals, rounding down the quotient of a number just below the budget gives the largest
integer that is strictly smaller than the quotient of the budget.
-/

namespace Bao.Milp

/-- Why the chunk size of a loop is not chosen anew. -/
inductive ReclampError
  | summary (e : PathError)
  | nonpositiveEffectiveBudget
  | postChunkKZero
  deriving DecidableEq, Repr

/-- The error texts. -/
def ReclampError.message : ReclampError → String
  | .summary e => e.message
  | .nonpositiveEffectiveBudget => "nonpositive-effective-budget"
  | .postChunkKZero => "post-chunk-k-zero"

/-- `largestKWithin`; at most `UINT_MAX`. -/
def largestKWithin (budget perIterEnergy : ℚ) : ℕ :=
  let rawK := ⌈budget / perIterEnergy⌉ - 1
  if rawK ≤ 0 then 0 else min rawK.toNat (2 ^ 32 - 1)

/-- **The largest chunk within a budget.** Up to the clamp, a positive number of iterations is
within `largestKWithin` if and only if it costs less than the budget. -/
theorem le_largestKWithin_iff {budget perIterEnergy : ℚ} (hpos : 0 < perIterEnergy) {k : ℕ}
    (hk : 0 < k) :
    k ≤ largestKWithin budget perIterEnergy ↔ k * perIterEnergy < budget ∧ k < 2 ^ 32 := by
  have hlt : k * perIterEnergy < budget ↔ (k : ℤ) ≤ ⌈budget / perIterEnergy⌉ - 1 := by
    rw [← lt_div_iff₀ hpos, Int.le_sub_one_iff, Int.lt_ceil, Int.cast_natCast]
  rw [hlt, largestKWithin]
  split_ifs with hraw
  · omega
  · rw [le_min_iff]
    omega

/-- The clamp. -/
theorem largestKWithin_lt (budget perIterEnergy : ℚ) :
    largestKWithin budget perIterEnergy < 2 ^ 32 := by
  rw [largestKWithin]
  split_ifs <;> omega

/-- `exactSubLoopTripCount`, given the constant backedge-taken counts of scalar evolution. -/
def Loop.exactSubLoopTripCount (C : CFGAnalysis) (backedgeTakenCount : Loop → Option ℕ)
    (L : Loop) : Option ℕ :=
  let scevTC := match L.getExitingBlocks C with
    | [exiting] => getConstantTripCount (backedgeTakenCount L) (some exiting = L.getLoopLatch C)
    | _ => none
  match scevTC, L.markerTripCount with
  | some scev, some marker => some (min scev marker)
  | some scev, none => some scev
  | none, marker => marker

namespace FunctionAnalysis

/-- `perIterEnergy`. -/
def SummaryBudget.perIterEnergy (s : SummaryBudget) : ℚ :=
  s.worstCasePath.energy + s.perIterNvmPenalty

/-- `fixedEnergy`. -/
def SummaryBudget.fixedEnergy (s : SummaryBudget) : ℚ := s.preheaderEnergy + s.preheaderNvmPenalty

/-- The test of `buildAbstractCFG` that lets a loop with a trip count of `loopTC` into the
abstract graph (`summarizeLoop_eq`). -/
def SummaryBudget.Accepts (s : SummaryBudget) (loopTC : ℕ) : Prop :=
  ¬(s.budgetAfterBoundary ≤ 0 ∨
    ¬s.worstCasePath.energy * loopTC + s.preheaderEnergy +
        (s.perIterNvmPenalty * loopTC + s.preheaderNvmPenalty) < s.budgetAfterBoundary)

instance (s : SummaryBudget) (loopTC : ℕ) : Decidable (s.Accepts loopTC) :=
  inferInstanceAs (Decidable (¬_))

variable (A : FunctionAnalysis) (backedgeTakenCount : Loop → Option ℕ)

/-- `L->getParentLoop`; loops are told apart by their headers. -/
def getParentLoop (L : Loop) : Option Loop :=
  A.loopInfo.loops.find? fun P => P.subLoops.any fun S => S.header = L.header

/-- The globals among the ineligible objects. -/
def ineligGlobals : List GlobalVariable :=
  A.state.ineligibleObjs.filterMap fun v =>
    match v with
    | .global g => some g
    | _ => none

/-- `computeNvmAccessMarginOnPath`. -/
def computeNvmAccessMarginOnPath (pathBlocks : List BlockId) : ℚ :=
  (pathBlocks.map fun b =>
    (A.state.vmObjs.map (A.eNvm b)).sum + (A.ineligGlobals.map (A.eNvm b)).sum).sum

/-- `computeBoundaryStateMarginOnPath`. -/
def computeBoundaryStateMarginOnPath (pathBlocks : List BlockId) : ℚ :=
  ((A.liveInVars pathBlocks).map A.getRestoreCostForValue).sum +
    ((A.defVars pathBlocks).map A.getSaveCostForValue).sum

/-- `enclosingResidual`: what one iteration of the parent loop costs without the loop itself. -/
def enclosingResidual (L : Loop) : Option ℚ :=
  match A.getParentLoop L with
  | none => none
  | some P =>
    match P.computeWorstCasePath A.cfg (fun S =>
      if S.header = L.header then some 0
      else S.exactSubLoopTripCount A.cfg backedgeTakenCount) with
    | .error _ => none
    | .ok parentPath =>
      let residualBlocks := parentPath.blocksOnPath.filter fun b => b ∉ L.blocks
      some (parentPath.energy + A.computeNvmAccessMarginOnPath residualBlocks +
        A.computeBoundaryStateMarginOnPath residualBlocks)

/-- `surroundingIterationEnergy`: the residual of the outer loop of the nest. -/
def surroundingIterationEnergy (L : Loop) : ℚ :=
  match A.getParentLoop L with
  | none => 0
  | some chunkOuter => (A.enclosingResidual backedgeTakenCount chunkOuter).getD 0

/-- `maxKMatchingSummarizer`: the chunk size and the energy of an iteration. -/
def maxKMatchingSummarizer (L : Loop) : Except ReclampError (ℕ × ℚ) :=
  match A.computeSummaryBudget L with
  | .error e => .error (.summary e)
  | .ok s =>
    let chunkBudget := s.budgetAfterBoundary - s.fixedEnergy
    if chunkBudget ≤ 0 then .error .nonpositiveEffectiveBudget
    else
      let maxKAlone := largestKWithin chunkBudget s.perIterEnergy
      if maxKAlone = 0 then .error .postChunkKZero
      else
        let surrounding := A.surroundingIterationEnergy backedgeTakenCount L
        let maxKSharingRegion := largestKWithin (chunkBudget - surrounding) s.perIterEnergy
        .ok (if 2 ≤ maxKSharingRegion then maxKSharingRegion else maxKAlone,
          s.worstCasePath.energy)

variable {A backedgeTakenCount}

/-! ### The test of the summarizer -/

/-- A loop without invoke and without a block of an earlier summary is summarized exactly when
its budget accepts its trip count. -/
theorem summarizeLoop_eq {used : List String} {selected : List BlockId} {L : Loop}
    {s : SummaryBudget} {loopTC : ℕ} (hs : A.computeSummaryBudget L = .ok s)
    (htc : L.summarySubLoopTripCount = some loopTC) (hinvoke : L.blocks.any A.hasInvoke = false)
    (hnew : ∀ b ∈ L.blocks, b ∉ selected) :
    A.summarizeLoop used selected L =
      if s.Accepts loopTC then
        .ok (A.aggregate L (makeUniqueSummaryNodeName (A.cfg.name L.header) used) s loopTC)
      else .error .loopTotalExceedsBudget := by
  have hbudget : ¬A.budget ≤ 0 := fun h => by simp [computeSummaryBudget, h] at hs
  obtain ⟨latch, -, hlatch, -, -⟩ := Loop.computeWorstCasePath_ok (computeSummaryBudget_ok hs).1
  have hnew' : ¬(L.blocks.any fun b => b ∈ selected) = true := by simpa using hnew
  rw [summarizeLoop, if_neg hbudget, if_neg (by simp [hlatch]), if_neg (by simp [hinvoke]),
    if_neg hnew']
  simp only [hs, htc]
  by_cases haccepts : s.Accepts loopTC
  · rw [if_pos haccepts, if_neg haccepts]
  · rw [if_neg haccepts, if_pos (not_not.mp haccepts)]

/-! ### Inverting the test -/

theorem eNvm_sum_nonneg (b : BlockId) (gs : List GlobalVariable) :
    0 ≤ (gs.map (A.eNvm b)).sum :=
  List.sum_nonneg fun _ hx => by
    obtain ⟨g, -, rfl⟩ := List.mem_map.mp hx
    exact eNvm_nonneg b g

theorem nvmPenalty_sum_nonneg (bs : List BlockId) : 0 ≤ (bs.map A.nvmPenaltyIn).sum :=
  List.sum_nonneg fun _ hx => by
    obtain ⟨b, -, rfl⟩ := List.mem_map.mp hx
    exact eNvm_sum_nonneg b A.state.vmObjs

theorem marginCost_nonneg {reg perByte : ℚ} (hreg : 0 ≤ reg) (hbyte : 0 ≤ perByte) (v : Value) :
    0 ≤ A.marginCost reg perByte v := by
  cases v with
  | inst i => exact hreg
  | alloca a => exact mul_nonneg (Nat.cast_nonneg _) hbyte
  | global g =>
    rw [marginCost]
    split_ifs
    · exact le_rfl
    · exact mul_nonneg (Nat.cast_nonneg _) hbyte

/-- An iteration of a loop with a budget costs something, the preheader nothing negative. -/
theorem computeSummaryBudget_energies {L : Loop} {s : SummaryBudget}
    (hs : A.computeSummaryBudget L = .ok s) : 0 < s.perIterEnergy ∧ 0 ≤ s.fixedEnergy := by
  rw [computeSummaryBudget] at hs
  split_ifs at hs
  split at hs
  · simp at hs
  · rename_i path _
    split_ifs at hs with hpos
    obtain rfl : _ = s := by simpa using hs
    have hcost : 0 ≤ ((L.getLoopPreheader A.cfg).toList.map A.cfg.energyCost).sum :=
      List.sum_nonneg fun _ hx => by
        obtain ⟨b, -, rfl⟩ := List.mem_map.mp hx
        exact A.cfg.energyCost_nonneg b
    exact ⟨add_pos_of_pos_of_nonneg (not_le.mp hpos) (nvmPenalty_sum_nonneg _),
      add_nonneg hcost (nvmPenalty_sum_nonneg _)⟩

/-- The test in the form in which it is inverted. -/
theorem SummaryBudget.accepts_iff {s : SummaryBudget} {k : ℕ} (hper : 0 < s.perIterEnergy)
    (hfixed : 0 ≤ s.fixedEnergy) :
    s.Accepts k ↔ k * s.perIterEnergy < s.budgetAfterBoundary - s.fixedEnergy := by
  have htotal : s.worstCasePath.energy * k + s.preheaderEnergy +
      (s.perIterNvmPenalty * k + s.preheaderNvmPenalty) =
        k * s.perIterEnergy + s.fixedEnergy := by
    rw [SummaryBudget.perIterEnergy, SummaryBudget.fixedEnergy]
    ring
  have hmul : 0 ≤ k * s.perIterEnergy := mul_nonneg (Nat.cast_nonneg k) hper.le
  rw [SummaryBudget.Accepts, htotal, not_or, not_not, not_le, lt_sub_iff_add_lt]
  -- the first test follows from the second
  exact ⟨And.right, fun h => ⟨lt_of_le_of_lt (add_nonneg hmul hfixed) h, h⟩⟩

/-- The iteration around the nest costs nothing negative. -/
theorem surroundingIterationEnergy_nonneg (L : Loop) :
    0 ≤ A.surroundingIterationEnergy backedgeTakenCount L := by
  rw [surroundingIterationEnergy]
  split
  · exact le_rfl
  · rename_i chunkOuter _
    cases hres : A.enclosingResidual backedgeTakenCount chunkOuter with
    | none => exact le_rfl
    | some residual =>
      rw [enclosingResidual] at hres
      split at hres
      · simp at hres
      · rename_i P hP
        split at hres
        · simp at hres
        · rename_i path hpath
          obtain rfl := Option.some.inj hres
          -- what is left of the enclosing iteration is a path cost and two margins
          have hP' : P ∈ A.loopInfo.loops := List.mem_of_find?_eq_some hP
          have hworst : 0 ≤ path.energy := P.worst_nonneg
            (fun T hT => A.loopInfo.natural T (nest_mem_loops hP' hT)) hpath
          have hnvm (bs : List BlockId) : 0 ≤ A.computeNvmAccessMarginOnPath bs :=
            List.sum_nonneg fun _ hx => by
              obtain ⟨b, -, rfl⟩ := List.mem_map.mp hx
              exact add_nonneg (eNvm_sum_nonneg b _) (eNvm_sum_nonneg b _)
          have hstate (bs : List BlockId) : 0 ≤ A.computeBoundaryStateMarginOnPath bs := by
            refine add_nonneg (List.sum_nonneg fun _ hx => ?_) (List.sum_nonneg fun _ hx => ?_)
            · obtain ⟨v, -, rfl⟩ := List.mem_map.mp hx
              exact marginCost_nonneg A.params.regRestoreEnergy_nonneg
                A.params.memRestoreEnergyPerByte_nonneg v
            · obtain ⟨v, -, rfl⟩ := List.mem_map.mp hx
              exact marginCost_nonneg A.params.regStoreEnergy_nonneg
                A.params.memStoreEnergyPerByte_nonneg v
          exact add_nonneg (add_nonneg hworst (hnvm _)) (hstate _)

/-- What a chosen chunk size consists of. -/
theorem maxKMatchingSummarizer_ok {L : Loop} {K : ℕ} {iterEnergy : ℚ}
    (h : A.maxKMatchingSummarizer backedgeTakenCount L = .ok (K, iterEnergy)) :
    ∃ s, A.computeSummaryBudget L = .ok s ∧ iterEnergy = s.worstCasePath.energy ∧
      0 < largestKWithin (s.budgetAfterBoundary - s.fixedEnergy) s.perIterEnergy ∧
      K = if 2 ≤ largestKWithin (s.budgetAfterBoundary - s.fixedEnergy -
            A.surroundingIterationEnergy backedgeTakenCount L) s.perIterEnergy
          then largestKWithin (s.budgetAfterBoundary - s.fixedEnergy -
            A.surroundingIterationEnergy backedgeTakenCount L) s.perIterEnergy
          else largestKWithin (s.budgetAfterBoundary - s.fixedEnergy) s.perIterEnergy := by
  rw [maxKMatchingSummarizer] at h
  split at h
  · simp at h
  · rename_i s hs
    simp only at h
    split_ifs at h with hbudget hzero hshare
    · obtain ⟨rfl, rfl⟩ := Prod.mk.inj (Except.ok.inj h)
      exact ⟨s, hs, rfl, Nat.pos_of_ne_zero hzero, (if_pos hshare).symm⟩
    · obtain ⟨rfl, rfl⟩ := Prod.mk.inj (Except.ok.inj h)
      exact ⟨s, hs, rfl, Nat.pos_of_ne_zero hzero, (if_neg hshare).symm⟩

/-- The summary budget accepts the chosen chunk size. -/
theorem accepts_of_maxKMatchingSummarizer {L : Loop} {K : ℕ} {iterEnergy : ℚ} {s : SummaryBudget}
    (h : A.maxKMatchingSummarizer backedgeTakenCount L = .ok (K, iterEnergy))
    (hs : A.computeSummaryBudget L = .ok s) : s.Accepts K := by
  obtain ⟨s', hs', -, halone, hK⟩ := maxKMatchingSummarizer_ok h
  obtain rfl : s' = s := Except.ok.inj (hs'.symm.trans hs)
  obtain ⟨hper, hfixed⟩ := computeSummaryBudget_energies hs
  have hsurrounding : 0 ≤ A.surroundingIterationEnergy backedgeTakenCount L :=
    surroundingIterationEnergy_nonneg L
  rw [SummaryBudget.accepts_iff hper hfixed]
  split_ifs at hK with hshare
  · -- the candidate that shares the region is within the whole budget as well
    have hlt := ((le_largestKWithin_iff hper (show 0 < K by omega)).mp hK.le).1
    linarith
  · exact ((le_largestKWithin_iff hper (show 0 < K by omega)).mp hK.le).1

/-- **The chosen chunk size agrees with the summarizer.** The summary budget from which it was
chosen accepts it as the trip count of the loop. If the iteration around the nest costs nothing
and the chunk size is not clamped, it is the largest trip count that is accepted. -/
theorem maxKMatchingSummarizer_accepts {L : Loop} {K : ℕ} {iterEnergy : ℚ}
    (h : A.maxKMatchingSummarizer backedgeTakenCount L = .ok (K, iterEnergy)) :
    ∃ s, A.computeSummaryBudget L = .ok s ∧ s.Accepts K ∧
      (A.surroundingIterationEnergy backedgeTakenCount L = 0 → K < 2 ^ 32 - 1 →
        ∀ k, s.Accepts k ↔ k ≤ K) := by
  obtain ⟨s, hs, -, halone, hK⟩ := maxKMatchingSummarizer_ok h
  obtain ⟨hper, hfixed⟩ := computeSummaryBudget_energies hs
  refine ⟨s, hs, accepts_of_maxKMatchingSummarizer h hs, fun hzero hclamp k => ?_⟩
  rw [hzero, sub_zero, ite_self] at hK
  rw [SummaryBudget.accepts_iff hper hfixed]
  rcases Nat.eq_zero_or_pos k with rfl | hk
  · have hpos := ((le_largestKWithin_iff hper (show 0 < 1 by omega)).mp halone).1
    refine iff_of_true ?_ (Nat.zero_le K)
    push_cast at hpos ⊢
    linarith
  · rw [hK, le_largestKWithin_iff hper hk]
    refine ⟨fun hlt => ⟨hlt, ?_⟩, And.left⟩
    -- an accepted `k` beyond the clamp would make the clamp itself accepted
    by_contra hbig
    have hmax : (2 ^ 32 - 1 : ℕ) ≤ K := by
      rw [hK, le_largestKWithin_iff hper (by omega)]
      refine ⟨lt_of_le_of_lt ?_ hlt, by omega⟩
      gcongr
      omega
    omega

/-- A loop whose metadata has the chosen chunk size is summarized. -/
theorem summarizeLoop_reclamped {h : BlockId} {bs : List BlockId} {n : ℕ} {m : Option ℕ}
    {subs : List Loop} {K : ℕ} {iterEnergy : ℚ}
    (hK : A.maxKMatchingSummarizer backedgeTakenCount (.mk h bs n m subs) = .ok (K, iterEnergy))
    (used : List String) {selected : List BlockId} (hinvoke : bs.any A.hasInvoke = false)
    (hnew : ∀ b ∈ bs, b ∉ selected) :
    ∃ agg, A.summarizeLoop used selected (.mk h bs 0 (some K) subs) = .ok agg := by
  obtain ⟨s, hs, -⟩ := maxKMatchingSummarizer_ok hK
  have hs' : A.computeSummaryBudget (.mk h bs 0 (some K) subs) = .ok s := hs
  exact ⟨_, (summarizeLoop_eq hs' rfl hinvoke hnew).trans
    (if_pos (accepts_of_maxKMatchingSummarizer hK hs))⟩

/-! ### A nest -/

/-- A strip-mined loop: `outer.header` is block `1`, the inner loop has the header `2` and the
latch `counter.check`, block `3`, and `outer.latch` is block `4`. -/
def stripMinedCfg : CFGAnalysis :=
  .ofTable [(.branch [1], 1), (.branch [2], 1), (.branch [3, 5], 1), (.branch [2, 4], 1),
    (.branch [1], 1), (.ret, 1)] (by decide) (by decide) (by decide)

/-- The inner loop of `stripMinedCfg`, with a chunk size of `2`. -/
def stripMinedInner : Loop := .mk 2 [2, 3] 0 (some 2) []

/-- The outer loop of `stripMinedCfg`. -/
def stripMinedOuter : Loop := .mk 1 [1, 2, 3, 4] 0 none [stripMinedInner]

/-- The analysis of `stripMinedCfg`. -/
def stripMined : FunctionAnalysis where
  cfg := stripMinedCfg
  loopInfo :=
    { topLevelLoops := [stripMinedOuter]
      natural := by decide +kernel
      disjoint := by decide +kernel }
  state := emptyState
  params := unitParams
  fEntry _ := 1
  hasInvoke _ := false

/-- The inner loop of `stripMined` may run `48` iterations and no more. -/
theorem maxKMatchingSummarizer_accepts_stripMined :
    ∃ s, stripMined.computeSummaryBudget stripMinedInner = .ok s ∧ ∀ k, s.Accepts k ↔ k ≤ 48 := by
  have hK : stripMined.maxKMatchingSummarizer (fun _ => none) stripMinedInner = .ok (48, 2) := by
    decide +kernel
  obtain ⟨s, hs, -, hmax⟩ := maxKMatchingSummarizer_accepts hK
  exact ⟨s, hs, hmax (by decide +kernel) (by decide)⟩

end FunctionAnalysis

end Bao.Milp
