import Bao.Graph.LongestPath
import Bao.Milp.LoopInfo

/-!
# The worst-case path through a loop body

`computeWorstCasePath` finds the most expensive path from the header of a loop to its latch.
Direct sub-loops are collapsed: a sub-loop header costs the sub-loop's own worst iteration
times its trip count and continues at the sub-loop's exit blocks. The search itself is
`Graph.dfs`; it stops at the latch and reports a cycle it runs into as an error.

Error values carry the texts of the source (`PathError.message`).
-/

namespace Bao.Milp

/-- The errors of the path computation and of the summary budget. -/
inductive PathError
  | missingHeaderOrLatch
  | subLoopUnknownTripCount
  | subLoopEnergyUnavailable
  | unsupportedIntraLoopCycle
  | unableToComputePathEnergy
  | pathReconstructionFailed
  | nonpositiveEnergyBudget
  | nonpositiveLoopEnergy
  deriving DecidableEq, Repr

/-- The error texts. -/
def PathError.message : PathError → String
  | .missingHeaderOrLatch => "missing-header-or-latch"
  | .subLoopUnknownTripCount => "sub-loop-unknown-trip-count"
  | .subLoopEnergyUnavailable => "sub-loop-energy-unavailable"
  | .unsupportedIntraLoopCycle => "unsupported-intra-loop-cycle"
  | .unableToComputePathEnergy => "unable-to-compute-path-energy"
  | .pathReconstructionFailed => "path-reconstruction-failed"
  | .nonpositiveEnergyBudget => "nonpositive-energy-budget"
  | .nonpositiveLoopEnergy => "nonpositive-loop-energy"

/-- `WorstCasePath`: the energy of the path and the set of its blocks. -/
structure WorstCasePath where
  energy : ℚ
  blocksOnPath : List BlockId

namespace Loop

/-- `summarySubLoopTripCount`: the smaller of the two known trip counts. -/
def summarySubLoopTripCount (L : Loop) : Option ℕ :=
  match L.markerTripCount with
  | some marker =>
    if 0 < L.scevTripCount then some (min L.scevTripCount marker) else some marker
  | none => if 0 < L.scevTripCount then some L.scevTripCount else none

section Search

variable (C : CFGAnalysis) (L : Loop)

/-- `getEnergy`: a sub-loop header costs the whole sub-loop, any other block its own energy.
`totals` pairs the sub-loops with their totals. -/
def getEnergy (totals : List (Loop × ℚ)) (b : BlockId) : ℚ :=
  match totals.find? fun t => b ∈ t.1.blocks with
  | some (S, total) => if S.header = b then total else C.energyCost b
  | none => C.energyCost b

/-- `getSuccs`: a sub-loop header continues at the exits of the sub-loop. -/
def getSuccs (b : BlockId) : List BlockId :=
  match L.getDirectChildLoop b with
  | some S => if S.header = b then S.getExitBlocks C else C.successors b
  | none => C.successors b

/-- The successors the search visits: those in the loop, without the back edge. -/
def searchSuccs (latch b : BlockId) : List BlockId :=
  (L.getSuccs C b).filter fun s => s ∈ L.blocks && !(b = latch && s = L.header)

/-- Add a block to the path, with all blocks of the sub-loop it heads. -/
def addPathBlock (acc : List BlockId) (b : BlockId) : List BlockId :=
  match L.getDirectChildLoop b with
  | some S => if S.header = b then S.blocks ∪ acc.insert b else acc.insert b
  | none => acc.insert b

/-- The search of one loop body, once the totals of the sub-loops are known. -/
def searchBody (totals : List (Loop × ℚ)) (latch : BlockId) : Except PathError WorstCasePath :=
  if L.header = latch then
    .ok ⟨getEnergy C totals L.header, [L.header]⟩
  else
    match Graph.dfs (L.searchSuccs C latch) (getEnergy C totals) latch (L.blocks.length + 1)
      .init L.header with
    | none => .error .unsupportedIntraLoopCycle
    | some (st, energy) =>
      if st.cycleDetected then .error .unsupportedIntraLoopCycle
      else if energy ≤ 0 then .error .unableToComputePathEnergy
      else match Graph.follow latch st.bestSucc (L.blocks.length + 1) L.header with
        | none => .error .pathReconstructionFailed
        | some path => .ok ⟨energy, path.foldl L.addPathBlock []⟩

end Search

mutual

/-- `computeWorstCasePath`. -/
def computeWorstCasePath (C : CFGAnalysis) (tripCount : Loop → Option ℕ) :
    Loop → Except PathError WorstCasePath
  | L@(.mk _ _ _ _ subs) =>
    match L.getLoopLatch C with
    | none => .error .missingHeaderOrLatch
    | some latch =>
      match subLoopTotals C tripCount subs with
      | .error e => .error e
      | .ok totals => L.searchBody C totals latch

/-- The totals of the sub-loops: worst iteration times trip count. -/
def subLoopTotals (C : CFGAnalysis) (tripCount : Loop → Option ℕ) :
    List Loop → Except PathError (List (Loop × ℚ))
  | [] => .ok []
  | S :: Ss =>
    match tripCount S with
    | none => .error .subLoopUnknownTripCount
    | some tc =>
      match computeWorstCasePath C tripCount S with
      | .error _ => .error .subLoopEnergyUnavailable
      | .ok path =>
        match subLoopTotals C tripCount Ss with
        | .error e => .error e
        | .ok totals => .ok ((S, path.energy * tc) :: totals)

end

/-- `computeWorstCaseSummaryPath`: with the trip count policy of loop summaries. -/
def computeWorstCaseSummaryPath (C : CFGAnalysis) (L : Loop) : Except PathError WorstCasePath :=
  computeWorstCasePath C summarySubLoopTripCount L

variable {C : CFGAnalysis} {tripCount : Loop → Option ℕ}

/-- What a successful computation is made of. -/
theorem computeWorstCasePath_ok {L : Loop} {w : WorstCasePath}
    (h : computeWorstCasePath C tripCount L = .ok w) :
    ∃ latch totals, L.getLoopLatch C = some latch ∧
      subLoopTotals C tripCount L.subLoops = .ok totals ∧
      L.searchBody C totals latch = .ok w := by
  cases L with
  | mk hd bs n m subs =>
    rw [computeWorstCasePath] at h
    split at h
    · simp at h
    · rename_i latch hlatch
      split at h
      · simp at h
      · rename_i totals htotals
        exact ⟨latch, totals, hlatch, htotals, h⟩

/-- Every sub-loop has a known trip count and a worst path, and its total is their product. -/
theorem subLoopTotals_ok {Ss : List Loop} {totals : List (Loop × ℚ)}
    (h : subLoopTotals C tripCount Ss = .ok totals) :
    totals.map Prod.fst = Ss ∧ ∀ t ∈ totals, ∃ tc w, tripCount t.1 = some tc ∧
      computeWorstCasePath C tripCount t.1 = .ok w ∧ t.2 = w.energy * tc := by
  induction Ss generalizing totals with
  | nil =>
    obtain rfl : [] = totals := by simpa [subLoopTotals] using h
    simp
  | cons S Ss ih =>
    rw [subLoopTotals] at h
    split at h
    · simp at h
    · rename_i tc htc
      split at h
      · simp at h
      · rename_i path hpath
        split at h
        · simp at h
        · rename_i rest hrest
          obtain ⟨hmap, hall⟩ := ih hrest
          obtain rfl : (S, path.energy * ↑tc) :: rest = totals := by simpa using h
          refine ⟨by rw [List.map_cons, hmap], fun t ht => ?_⟩
          rcases List.mem_cons.mp ht with rfl | ht
          · exact ⟨tc, path, htc, hpath, rfl⟩
          · exact hall t ht

/-- What a successful search of a body with separate header and latch is made of. -/
theorem searchBody_ok {L : Loop} {totals : List (Loop × ℚ)} {latch : BlockId}
    {w : WorstCasePath} (hne : L.header ≠ latch) (h : L.searchBody C totals latch = .ok w) :
    ∃ st path, Graph.dfs (L.searchSuccs C latch) (getEnergy C totals) latch
        (L.blocks.length + 1) .init L.header = some (st, w.energy) ∧
      st.cycleDetected = false ∧ 0 < w.energy ∧
      Graph.follow latch st.bestSucc (L.blocks.length + 1) L.header = some path ∧
      w.blocksOnPath = path.foldl L.addPathBlock [] := by
  rw [searchBody, if_neg hne] at h
  split at h
  · simp at h
  · rename_i st energy hdfs
    split_ifs at h with hcyc hle
    split at h
    · simp at h
    · rename_i path hpath
      obtain rfl : _ = w := by simpa using h
      exact ⟨st, path, hdfs, by simpa using hcyc, not_le.mp hle, hpath, rfl⟩

/-- **The search is complete.** Its fuel suffices, and a search without a cycle that finds a
positive energy also finds the path: only the two conditions of the source make it fail. -/
theorem searchBody_complete {L : Loop} (hheader : L.header ∈ L.blocks)
    {totals : List (Loop × ℚ)} {latch : BlockId} (hne : L.header ≠ latch) :
    ∃ st energy, Graph.dfs (L.searchSuccs C latch) (getEnergy C totals) latch
        (L.blocks.length + 1) .init L.header = some (st, energy) ∧
      (st.cycleDetected = false → 0 < energy →
        ∃ path, L.searchBody C totals latch = .ok ⟨energy, path⟩) := by
  have hnext : ∀ a ∈ L.blocks, ∀ c ∈ L.searchSuccs C latch a, c ∈ L.blocks := by
    intro a _ c hc
    rw [searchSuccs, List.mem_filter, Bool.and_eq_true, decide_eq_true_eq] at hc
    exact hc.2.1
  have hsome : (Graph.dfs (L.searchSuccs C latch) (getEnergy C totals) latch
      (L.blocks.length + 1) .init L.header).isSome :=
    Graph.dfs_isSome hnext (Nat.lt_succ_self L.blocks.length) .init hheader
  obtain ⟨⟨st, energy⟩, hdfs⟩ := Option.isSome_iff_exists.mp hsome
  refine ⟨st, energy, hdfs, fun hcyc hpos => ?_⟩
  obtain ⟨hlinked, hspec⟩ := Graph.dfs_init_spec hdfs
  obtain ⟨-, hdone, hval⟩ := hspec hcyc
  have hmemo : L.header ≠ latch → 0 ≤ st.memo L.header := by
    intro _
    rw [Graph.value, if_neg hne] at hval
    rw [← hval]
    exact hpos.le
  obtain ⟨path, hpath⟩ := Option.isSome_iff_exists.mp
    (Graph.follow_isSome hnext hlinked hheader hdone hmemo (Nat.lt_succ_self L.blocks.length))
  refine ⟨path.foldl L.addPathBlock [], ?_⟩
  simp [searchBody, if_neg hne, hdfs, hcyc, not_le.mpr hpos, hpath]

end Loop

end Bao.Milp
