import Bao.Milp.CommitEnergy
import Bao.Trace.BlockFrequency

/-!
# What the objective measures

The frequencies of the blocks come from a profile: the instrumented program counts the executions
of every block and writes them to a file, `BBFreqLoader` reads the file, and
`computeFrequenciesFromFile` divides by the executions of the entry block. Every term of the
objective is weighted by such a frequency, that of a summary by the frequency of the block in which
control enters it.

`objective_eq_profiled_overhead` says what the solver minimizes with this: for every feasible
assignment the objective, times the number of calls of the function, is the overhead that the
profiled run pays under the extracted solution, boundary by boundary and visit by visit. On that run
no feasible solution costs less than an optimal one.
-/

namespace Bao.Milp

open Trace

/-! ### `computeFrequenciesFromFile` -/

section Frequencies

variable (C : CFGAnalysis)

/-- The blocks the entry reaches, by a worklist. -/
def CFGAnalysis.reachableBlocks : List BlockId :=
  Graph.closure C.successors C.blocks [C.entryBlock]

variable (funcName : String) (getBlockCount : BlockId → Option (BitVec 64))

/-- The table `fEntry_`, block by block. -/
abbrev Frequencies := BlockId → Option ℚ

/-- `getFEntry`. -/
def Frequencies.getFEntry (fEntry : Frequencies) (b : BlockId) : ℚ := (fEntry b).getD 1

/-- One turn of the loop over the blocks. A block without a count must be unreachable. -/
def CFGAnalysis.computeFrequency (entryCount : ℕ) (fEntry : Frequencies) (b : BlockId) :
    Except String Frequencies :=
  match getBlockCount b with
  | some count => .ok (Function.update fEntry b (some ((count.toNat : ℚ) / entryCount)))
  | none =>
    if b ∈ C.reachableBlocks then
      .error ("MILP: missing BB frequency for reachable block %" ++ C.name b ++ " in function '" ++
        funcName ++ "'")
    else .ok (Function.update fEntry b (some 0))

/-- **`computeFrequenciesFromFile`**. -/
def CFGAnalysis.computeFrequenciesFromFile : Except String Frequencies :=
  match getBlockCount C.entryBlock with
  | none =>
    .error ("MILP: entry block frequency missing for function '" ++ funcName ++
      "' in BB frequency file")
  | some count =>
    C.blocks.foldlM (C.computeFrequency funcName getBlockCount (max count.toNat 1)) fun _ => none

variable {C funcName getBlockCount}

theorem CFGAnalysis.mem_reachableBlocks {b : BlockId} :
    b ∈ C.reachableBlocks ↔ C.Reachable b := by
  rw [reachableBlocks, Graph.mem_closure_iff (fun _ _ h => Succ.dst_mem h)
    (List.forall_mem_singleton.mpr C.entry_mem) (List.nodup_singleton _)]
  simp only [List.mem_singleton, exists_eq_left]
  rfl

/-- The frequency of a block: its count, if there is one, by the count of the entry block. -/
def frequency (getBlockCount : BlockId → Option (BitVec 64)) (entryCount : ℕ) (b : BlockId) : ℚ :=
  (((getBlockCount b).elim 0 BitVec.toNat : ℕ) : ℚ) / entryCount

/-- A block that may have no count is skipped. -/
private theorem computeFrequency_eq_ok {entryCount : ℕ} {fEntry : Frequencies} {b : BlockId}
    (h : C.Reachable b → (getBlockCount b).isSome) :
    C.computeFrequency funcName getBlockCount entryCount fEntry b =
      .ok (Function.update fEntry b (some (frequency getBlockCount entryCount b))) := by
  rw [CFGAnalysis.computeFrequency, frequency]
  cases hcount : getBlockCount b with
  | some count => rfl
  | none =>
    have hout : b ∉ C.reachableBlocks := fun hmem => by
      simpa [hcount] using h (CFGAnalysis.mem_reachableBlocks.mp hmem)
    simp [hout]

/-- The loop fills the table as long as no count is missing. -/
private theorem foldlM_computeFrequency {entryCount : ℕ} (l : List BlockId) (fEntry : Frequencies)
    (h : ∀ b ∈ l, C.Reachable b → (getBlockCount b).isSome) :
    l.foldlM (C.computeFrequency funcName getBlockCount entryCount) fEntry =
      .ok fun b => if b ∈ l then some (frequency getBlockCount entryCount b) else fEntry b := by
  induction l generalizing fEntry with
  | nil => simp; rfl
  | cons a l ih =>
    obtain ⟨ha, hl⟩ := List.forall_mem_cons.mp h
    rw [List.foldlM_cons, computeFrequency_eq_ok ha]
    refine (ih _ hl).trans (congrArg Except.ok (funext fun b => ?_))
    by_cases hb : b ∈ l
    · simp [hb]
    · by_cases hba : b = a
      · simp [hba]
      · simp [hb, hba]

/-- A reachable block without a count. -/
def CFGAnalysis.Missing (C : CFGAnalysis) (getBlockCount : BlockId → Option (BitVec 64))
    (b : BlockId) : Prop :=
  C.Reachable b ∧ getBlockCount b = none

/-- The loop stops at the first missing count. -/
private theorem foldlM_computeFrequency_missing {entryCount : ℕ} {before after : List BlockId}
    {b : BlockId} (fEntry : Frequencies) (hbefore : ∀ a ∈ before, ¬C.Missing getBlockCount a)
    (hb : C.Missing getBlockCount b) :
    (before ++ b :: after).foldlM (C.computeFrequency funcName getBlockCount entryCount) fEntry =
      .error ("MILP: missing BB frequency for reachable block %" ++ C.name b ++ " in function '" ++
        funcName ++ "'") := by
  have hsome : ∀ a ∈ before, C.Reachable a → (getBlockCount a).isSome := fun a ha hreach =>
    Option.isSome_iff_ne_none.mpr fun hnone => hbefore a ha ⟨hreach, hnone⟩
  have hstop : ∀ f, C.computeFrequency funcName getBlockCount entryCount f b =
      .error ("MILP: missing BB frequency for reachable block %" ++ C.name b ++ " in function '" ++
        funcName ++ "'") := fun f => by
    rw [CFGAnalysis.computeFrequency, hb.2]
    exact if_pos (CFGAnalysis.mem_reachableBlocks.mpr hb.1)
  rw [List.foldlM_append, foldlM_computeFrequency before _ hsome]
  simp only [List.foldlM_cons, hstop]
  rfl

/-- **The frequencies of a profile.** The computation succeeds just if every block that the entry
reaches has a count. A block then has its count divided by that of the entry block, which is taken
for one if it is zero, and a block without a count has frequency zero. An error says that the entry
block has no count, or names the first reachable block without one. -/
theorem computeFrequenciesFromFile_exact :
    ((∃ fEntry, C.computeFrequenciesFromFile funcName getBlockCount = .ok fEntry) ↔
      ∀ b, C.Reachable b → (getBlockCount b).isSome) ∧
    (∀ fEntry, C.computeFrequenciesFromFile funcName getBlockCount = .ok fEntry →
      ∀ b ∈ C.blocks, fEntry.getFEntry b = frequency getBlockCount
        (max ((getBlockCount C.entryBlock).elim 0 BitVec.toNat) 1) b) ∧
    ∀ e, C.computeFrequenciesFromFile funcName getBlockCount = .error e →
      getBlockCount C.entryBlock = none ∧
        e = "MILP: entry block frequency missing for function '" ++ funcName ++
          "' in BB frequency file" ∨
      (getBlockCount C.entryBlock).isSome ∧ ∃ before b after, C.blocks = before ++ b :: after ∧
        (∀ a ∈ before, ¬C.Missing getBlockCount a) ∧ C.Missing getBlockCount b ∧
        e = "MILP: missing BB frequency for reachable block %" ++ C.name b ++ " in function '" ++
          funcName ++ "'" := by
  rw [CFGAnalysis.computeFrequenciesFromFile]
  cases hentry : getBlockCount C.entryBlock with
  | none =>
    refine ⟨⟨fun ⟨_, h⟩ => by simp at h, fun h => ?_⟩, fun _ h => by simp at h, fun e h => ?_⟩
    · simpa [hentry] using h C.entryBlock .refl
    · exact .inl ⟨rfl, (Except.error.inj h).symm⟩
  | some count =>
    dsimp only
    by_cases hall : ∀ b ∈ C.blocks, ¬C.Missing getBlockCount b
    · have hsome : ∀ b, C.Reachable b → (getBlockCount b).isSome := fun b hb =>
        Option.isSome_iff_ne_none.mpr fun hnone => hall b hb.mem ⟨hb, hnone⟩
      rw [foldlM_computeFrequency C.blocks _ fun b _ => hsome b]
      refine ⟨⟨fun _ => hsome, fun _ => ⟨_, rfl⟩⟩, fun fEntry h b hb => ?_, fun e h => ?_⟩
      · cases h
        simp [Frequencies.getFEntry, hb]
      · cases h
    · -- the first block that is missing
      push Not at hall
      classical
      have hfind : (C.blocks.find? fun b => C.Missing getBlockCount b).isSome := by
        obtain ⟨b, hb, hmissing⟩ := hall
        exact List.find?_isSome.mpr ⟨b, hb, decide_eq_true hmissing⟩
      obtain ⟨b, hb⟩ := Option.isSome_iff_exists.mp hfind
      obtain ⟨hmissing, before, after, hsplit, hbefore⟩ := List.find?_eq_some_iff_append.mp hb
      have hmissing : C.Missing getBlockCount b := of_decide_eq_true hmissing
      have hbefore : ∀ a ∈ before, ¬C.Missing getBlockCount a := fun a ha => by
        simpa using hbefore a ha
      rw [hsplit, foldlM_computeFrequency_missing _ hbefore hmissing]
      refine ⟨⟨fun ⟨_, h⟩ => ?_, fun h => ?_⟩, fun _ h => ?_, fun e h => ?_⟩
      · cases h
      · simpa [hmissing.2] using h b hmissing.1
      · cases h
      · exact .inr ⟨rfl, before, b, after, rfl, hbefore, hmissing, (Except.error.inj h).symm⟩

end Frequencies

/-! ### The overhead of a solution -/

namespace CheckpointOptimizer

variable (P : CheckpointOptimizer) (solution : MILPSolution)

/-- The pairs `extractSolution` fills in `rHat`. -/
def restoreKeys : List (NodeId × Value) :=
  P.rHatKeys ++ P.cfg.blocks.flatMap fun b => (P.state.ineligLiveIn b).map fun v => (b, v)

/-- `MILPSolution::getRestoreVarsAt`. -/
def getRestoreVarsAt (n : NodeId) : List Value :=
  orderedUnique ((P.restoreKeys.filter fun k => solution.rHat k.1 k.2 && k.1 = n).map Prod.snd)

/-- The penalty of the globals a visit of a node finds in NVM. -/
def placementPenalty (n : NodeId) : ℚ :=
  ((P.state.vmObjs.filter fun g => !solution.m n (.global g)).map (P.energy.eNvm n)).sum

/-- What a region start costs: the saves and the epilogue of the region that ends, unless the
function is entered, the prologue and the restores. -/
def boundaryOverhead (n : NodeId) : ℚ :=
  (if n = P.cfg.entryBlock then 0
    else P.energy.params.eEpi +
      ((P.getSaveVarsAt solution n).map P.energy.eSave).sum) +
    P.energy.params.ePro + ((P.getRestoreVarsAt solution n).map P.energy.eRestore).sum

/-- What one visit of a node costs besides its base energy. -/
def visitOverhead (n : NodeId) : ℚ :=
  P.placementPenalty solution n + if solution.r n then P.boundaryOverhead solution n else 0

/-- **The overhead of a path** of the node graph. -/
def overhead (path : List NodeId) : ℚ := (path.map (P.visitOverhead solution)).sum

/-- The boundaries a path passes. -/
def MILPSolution.boundaryHits (path : List NodeId) : ℕ := path.countP solution.r

/-- `expectedHits` in `extractSolution`. -/
def expectedHits : ℚ := ((P.cfg.blocks.filter solution.r).map P.energy.fBoundary).sum

variable {P solution} {x : MilpVar → ℚ}

/-! ### The objective, node by node -/

private theorem half_lt_iff {q : ℚ} (h : q = 0 ∨ q = 1) : 1 / 2 < q ↔ q = 1 := by
  rcases h with rfl | rfl <;> norm_num

/-- A weighted indicator, summed, is the sum of the weights over the marked elements. -/
private theorem sum_map_mul_indicator {α : Type*} (l : List α) (c f : α → ℚ) (q : α → Bool)
    (h : ∀ a ∈ l, f a = if q a then 1 else 0) :
    (l.map fun a => c a * f a).sum = ((l.filter q).map c).sum := by
  induction l with
  | nil => rfl
  | cons a l ih =>
    obtain ⟨ha, hl⟩ := List.forall_mem_cons.mp h
    rw [List.map_cons, List.sum_cons, ih hl, ha]
    cases hq : q a <;> simp [hq]

theorem Satisfies.r_eq_extract (h : P.Satisfies x) {b : NodeId} (hb : b ∈ P.cfg.blocks) :
    x (.r b) = if (P.extractSolution x).r b then 1 else 0 := by
  have hiff := half_lt_iff (h.r_binary b hb)
  by_cases hr : x (.r b) = 1
  · simp [extractSolution, hb, hr]
    norm_num
  · have h0 := (h.r_binary b hb).resolve_right hr
    simp [extractSolution, hb, h0]

theorem Satisfies.place_eq_extract (h : P.Satisfies x) {b : NodeId} (hb : b ∈ P.cfg.blocks)
    {g : GlobalVariable} (hg : g ∈ P.state.vmObjs) :
    1 - P.place x b (.global g) = if !(P.extractSolution x).m b (.global g) then 1 else 0 := by
  by_cases hm : (P.extractSolution x).m b (.global g) = true
  · rw [(h.extract_m hb hg).mp hm, hm]
    norm_num
  · have hzero : P.place x b (.global g) = 0 :=
      (h.place_binary b hb g hg).resolve_right fun hone => hm ((h.extract_m hb hg).mpr hone)
    rw [hzero, Bool.eq_false_iff.mpr hm]
    norm_num

/-- **The placement term** of a node is the penalty of one visit. -/
theorem Satisfies.placementPenalty_eq (h : P.Satisfies x) {b : NodeId} (hb : b ∈ P.cfg.blocks) :
    (P.state.vmObjs.map fun g => P.energy.eNvm b g * (1 - P.place x b (.global g))).sum =
      P.placementPenalty (P.extractSolution x) b :=
  sum_map_mul_indicator _ _ _ _ fun _ hg => h.place_eq_extract hb hg

theorem mem_restoreKeys {b : NodeId} {v : Value} :
    (b, v) ∈ P.restoreKeys ↔ b ∈ P.cfg.blocks ∧ v ∈ P.liveInValues b := by
  have hinelig : ((b, v) ∈ P.cfg.blocks.flatMap fun a =>
      (P.state.ineligLiveIn a).map fun w => (a, w)) ↔
      b ∈ P.cfg.blocks ∧ v ∈ P.state.ineligLiveIn b := by
    simp [List.mem_flatMap]
  rw [restoreKeys, List.mem_append, mem_rHatKeys, hinelig, liveInValues, List.mem_append,
    List.mem_map, ← and_or_left]
  exact and_congr_right fun _ => or_congr_left <|
    exists_congr fun _ => and_congr_right fun _ => eq_comm

theorem mem_getRestoreVarsAt {b : NodeId} {v : Value} :
    v ∈ P.getRestoreVarsAt solution b ↔
      (b ∈ P.cfg.blocks ∧ v ∈ P.liveInValues b) ∧ solution.rHat b v = true := by
  rw [getRestoreVarsAt, mem_orderedUnique, List.mem_map]
  constructor
  · rintro ⟨k, hk, rfl⟩
    obtain ⟨hkey, hrestore⟩ := List.mem_filter.mp hk
    rw [Bool.and_eq_true, decide_eq_true_eq] at hrestore
    obtain ⟨hrestore, rfl⟩ := hrestore
    exact ⟨mem_restoreKeys.mp hkey, hrestore⟩
  · rintro ⟨hk, hrestore⟩
    exact ⟨(b, v), List.mem_filter.mpr ⟨mem_restoreKeys.mpr hk, by simp [hrestore]⟩, rfl⟩

/-- The restores of a node are the live-in values that are marked. -/
private theorem sum_getRestoreVarsAt {b : NodeId} (hb : b ∈ P.cfg.blocks) :
    ((P.getRestoreVarsAt solution b).map P.energy.eRestore).sum =
      (((P.liveInValues b).filter (solution.rHat b)).map P.energy.eRestore).sum := by
  have hperm : (P.getRestoreVarsAt solution b).Perm ((P.liveInValues b).filter (solution.rHat b)) :=
    (List.perm_ext_iff_of_nodup (nodup_orderedUnique _) ((liveInValues_nodup b).filter _)).mpr
      fun v => mem_getRestoreVarsAt.trans (by rw [List.mem_filter, and_iff_right hb])
  exact (hperm.map _).sum_eq

theorem Satisfies.rHat_eq_extract_global (h : P.Satisfies x) {b : NodeId} (hb : b ∈ P.cfg.blocks)
    {g : GlobalVariable} (hg : g ∈ P.state.eligLiveIn b) :
    x (.rHat b (.global g)) = if (P.extractSolution x).rHat b (.global g) then 1 else 0 := by
  have hk : (b, .global g) ∈ P.rHatKeys := mem_rHatKeys.mpr ⟨hb, g, hg, rfl⟩
  obtain ⟨hone, hzero⟩ := h.rHat_eq hk
  by_cases hstart : x (.r b) = 1 ∧ P.place x b (.global g) = 1
  · simp only [extractSolution, if_pos hk, hone hstart]
    norm_num
  · simp only [extractSolution, if_pos hk, hzero hstart]
    norm_num

theorem Satisfies.r_eq_extract_ineligible (h : P.Satisfies x) {b : NodeId} (hb : b ∈ P.cfg.blocks)
    {v : Value} (hv : v ∈ P.state.ineligLiveIn b) :
    x (.r b) = if (P.extractSolution x).rHat b v then 1 else 0 := by
  have hk : (b, v) ∉ P.rHatKeys := fun hk => by
    obtain ⟨-, g, -, hg⟩ := mem_rHatKeys.mp hk
    exact P.state.ineligible_ne_global v (P.state.ineligLiveIn_subset b v hv) g hg
  have hrHat : (P.extractSolution x).rHat b v = decide (1 / 2 < x (.r b)) := by
    simp only [extractSolution, if_neg hk, hb, hv, decide_true, Bool.true_and]
  rcases h.r_binary b hb with hr | hr
  · simp [hrHat, hr]
  · simp only [hrHat, hr]
    norm_num

/-- Nothing is restored but at a region start. -/
theorem Satisfies.restore_start (h : P.Satisfies x) {b : NodeId} {v : Value}
    (hv : v ∈ P.getRestoreVarsAt (P.extractSolution x) b) :
    (P.extractSolution x).r b = true := by
  obtain ⟨⟨hb, hlive⟩, hrestore⟩ := mem_getRestoreVarsAt.mp hv
  by_contra hr
  have hr0 : x (.r b) = 0 := by rw [h.r_eq_extract hb, if_neg hr]
  rcases List.mem_append.mp hlive with hmem | hmem
  · obtain ⟨g, hg, rfl⟩ := List.mem_map.mp hmem
    have hzero := (h.rHat_eq (mem_rHatKeys.mpr ⟨hb, g, hg, rfl⟩)).2 (by simp [hr0])
    have hrhat := h.rHat_eq_extract_global hb hg
    rw [if_pos hrestore, hzero] at hrhat
    exact absurd hrhat (by norm_num)
  · have hrhat := h.r_eq_extract_ineligible hb hmem
    rw [if_pos hrestore, hr0] at hrhat
    exact absurd hrhat (by norm_num)

/-- **The start term** of a node is prologue and restores of a region start. -/
theorem Satisfies.eval_buildEStart_eq (h : P.Satisfies x) {b : NodeId} (hb : b ∈ P.cfg.blocks) :
    (P.buildEStart b).eval x = if (P.extractSolution x).r b then P.energy.params.ePro +
      ((P.getRestoreVarsAt (P.extractSolution x) b).map P.energy.eRestore).sum else 0 := by
  have helig := sum_map_mul_indicator (P.state.eligLiveIn b)
    (fun g => P.energy.eRestore (.global g)) (fun g => x (.rHat b (.global g))) _
    fun g hg => h.rHat_eq_extract_global hb hg
  have hinelig := sum_map_mul_indicator (P.state.ineligLiveIn b) P.energy.eRestore
    (fun _ => x (.r b)) _ fun v hv => h.r_eq_extract_ineligible hb hv
  have hsum : ((P.getRestoreVarsAt (P.extractSolution x) b).map P.energy.eRestore).sum =
      ((P.state.eligLiveIn b).map fun g =>
        P.energy.eRestore (.global g) * x (.rHat b (.global g))).sum +
      ((P.state.ineligLiveIn b).map fun v => P.energy.eRestore v * x (.r b)).sum := by
    rw [sum_getRestoreVarsAt hb, liveInValues, List.filter_append, List.map_append,
      List.sum_append, helig, hinelig, List.filter_map, List.map_map]
    rfl
  rw [eval_buildEStart hb, add_assoc, ← hsum, h.r_eq_extract hb]
  by_cases hr : (P.extractSolution x).r b = true
  · rw [if_pos hr, if_pos hr, mul_one]
  · have hnone : P.getRestoreVarsAt (P.extractSolution x) b = [] :=
      List.eq_nil_iff_forall_not_mem.mpr fun v hv => hr (h.restore_start hv)
    rw [if_neg hr, if_neg hr, hnone]
    simp

/-- **The end term** of a node is epilogue and saves at a region start. -/
theorem Satisfies.eval_buildEEnd_eq (h : P.Satisfies x) (hfree : P.NoFreeCycle x) {b : NodeId}
    (hb : b ∈ P.cfg.blocks) :
    (P.buildEEnd b).eval x = if (P.extractSolution x).r b then P.energy.params.eEpi +
      ((P.getSaveVarsAt (P.extractSolution x) b).map P.energy.eSave).sum else 0 := by
  have hsaves : ((P.getSaveVarsAt (P.extractSolution x) b).map P.energy.eSave).sum =
      (P.saveTerms b).eval x := by
    rw [h.eval_saveTerms_eq hfree hb]
    exact (List.sum_toFinset _ (nodup_orderedUnique _)).symm
  rw [buildEEnd, LinExpr.eval_add, LinExpr.eval_smul, LinExpr.eval_var, ← hsaves, h.r_eq_extract hb]
  by_cases hr : (P.extractSolution x).r b = true
  · rw [if_pos hr, if_pos hr, mul_one]
  · have hnone : P.getSaveVarsAt (P.extractSolution x) b = [] := by
      refine List.eq_nil_iff_forall_not_mem.mpr fun v hv => hr ?_
      obtain ⟨-, hneed⟩ := (h.extract_s hfree).mp (mem_getSaveVarsAt.mp hv)
      by_contra hno
      have hr1 := hneed.1
      rw [h.r_eq_extract hb, if_neg hno] at hr1
      exact absurd hr1 (by norm_num)
    rw [if_neg hr, if_neg hr, hnone]
    simp

/-- **The objective**, node by node: frequency times the overhead of a visit. -/
theorem Satisfies.eval_addObjective (h : P.Satisfies x) (hfree : P.NoFreeCycle x)
    (hboundary : ∀ b, P.energy.fBoundary b = P.energy.fEntry b) :
    P.addObjective.eval x = (P.cfg.blocks.map fun b =>
      P.energy.fEntry b * P.visitOverhead (P.extractSolution x) b).sum := by
  -- the objective leaves out the globals that cost nothing in NVM
  have hplacement : ∀ b ∈ P.cfg.blocks,
      (((P.state.vmObjs.filter fun g => P.energy.eNvm b g ≠ 0).map fun g =>
        LinExpr.ofRat (P.energy.fEntry b * P.energy.eNvm b g) -
          (P.energy.fEntry b * P.energy.eNvm b g) • P.mExpr b g).sum).eval x =
      P.energy.fEntry b * P.placementPenalty (P.extractSolution x) b := fun b hb => by
    have hblk := eval_buildEBlk (P := P) (x := x) b
    rw [buildEBlk, LinExpr.eval_add, LinExpr.eval_ofRat, add_right_inj, h.placementPenalty_eq hb]
      at hblk
    rw [← hblk, LinExpr.eval_sum, LinExpr.eval_sum, List.map_map, List.map_map,
      ← List.sum_map_mul_left]
    refine congrArg List.sum (List.map_congr_left fun g _ => ?_)
    simp only [Function.comp_apply, LinExpr.eval_sub, LinExpr.eval_ofRat, LinExpr.eval_smul]
    ring
  -- no region ends where the function is entered
  have hend : ((P.cfg.blocks.filter fun b => b ≠ P.cfg.entryBlock).map fun b =>
      P.energy.fBoundary b * (P.buildEEnd b).eval x).sum = (P.cfg.blocks.map fun b =>
        P.energy.fBoundary b * (P.buildEEnd b).eval x *
          if b = P.cfg.entryBlock then 0 else 1).sum :=
    (sum_map_mul_indicator _ _ _ (fun b => b ≠ P.cfg.entryBlock) fun b _ => by
      by_cases hb : b = P.cfg.entryBlock <;> simp [hb]).symm
  rw [addObjective, LinExpr.eval_add, LinExpr.eval_add, LinExpr.eval_sum, LinExpr.eval_sum,
    LinExpr.eval_sum, List.map_map, List.map_map, List.map_map]
  simp only [Function.comp_def, LinExpr.eval_smul]
  rw [hend, ← List.sum_map_add, ← List.sum_map_add]
  refine congrArg List.sum (List.map_congr_left fun b hb => ?_)
  rw [hplacement b hb, h.eval_buildEStart_eq hb, h.eval_buildEEnd_eq hfree hb, hboundary,
    visitOverhead, boundaryOverhead]
  split_ifs <;> ring

end CheckpointOptimizer

/-! ### Visits of the nodes -/

namespace FunctionAnalysis

variable {A : FunctionAnalysis}

/-- A node that is not a summary is visited as often as its block. -/
private theorem count_contract_plain (hnames : (A.cfg.blocks.map A.cfg.name).Nodup) {b : BlockId}
    (hb : b ∈ A.cfg.blocks) (hplain : A.summaryOf b = none) {w : List BlockId}
    (hw : ∀ a ∈ w, a ∈ A.cfg.blocks) : (A.contract w).count (A.nodeOf b) = w.count b := by
  have hnot : ∀ agg ∈ A.summaries, b ∉ agg.loopBlocks := fun agg hagg hmem =>
    Option.some_ne_none agg ((summaryOf_eq_some.mpr ⟨hagg, hmem⟩).symm.trans hplain)
  have hsame : ∀ a, A.sameSummary a b = false := fun a => by
    by_contra hsame
    obtain ⟨agg, hagg, -, hmem⟩ := sameSummary_iff.mp (by simpa using hsame)
    exact hnot agg hagg hmem
  have hnode : ∀ a ∈ A.cfg.blocks, (A.nodeOf a == A.nodeOf b) = (a == b) := fun a ha => by
    rw [Bool.eq_iff_iff, beq_iff_eq, beq_iff_eq, nodeOf_eq_iff ha,
      concreteToAbstract_eq_iff hnames ha hb, hsame a]
    simp
  fun_induction A.contract w with
  | case1 => rfl
  | case2 a => simp only [List.count_cons, List.count_nil, hnode a (hw a List.mem_cons_self)]
  | case3 a c w hstay ih =>
    -- a stay in a summary does not touch the block
    have hne : a ≠ b := by
      rintro rfl
      obtain ⟨agg, hagg, hmem, -⟩ := sameSummary_iff.mp hstay
      exact hnot agg hagg hmem
    rw [ih fun d hd => hw d (List.mem_cons_of_mem _ hd), List.count_cons_of_ne hne]
  | case4 a c w hstay ih =>
    rw [List.count_cons, List.count_cons, ih fun d hd => hw d (List.mem_cons_of_mem _ hd),
      hnode a (hw a List.mem_cons_self)]

/-- The frequency of a node is that of its boundary block. -/
theorem fEntry_of_getConcreteBlock {n : NodeId} {b : BlockId} (h : A.getConcreteBlock n = some b) :
    A.energyView.fEntry n = A.fEntry b := by
  change A.nodeData LoopAggregate.fEntry A.fEntry 1 n = A.fEntry b
  rw [getConcreteBlock, nodeData] at h
  rw [nodeData]
  split at h
  · rename_i agg hagg
    obtain ⟨L, hc⟩ := selection_valid.collapses agg (List.mem_of_find?_eq_some hagg)
    obtain ⟨name, s, tc, -, rfl⟩ := hc.aggregate_eq
    obtain rfl := Option.some.inj h
    rfl
  · split at h
    · exact congrArg A.fEntry (Option.some.inj h)
    · cases h

private theorem mem_of_getConcreteBlock (hsimp : A.loopInfo.Simplified) {n : NodeId} {b : BlockId}
    (h : A.getConcreteBlock n = some b) : b ∈ A.cfg.blocks := by
  rw [getConcreteBlock, nodeData] at h
  split at h
  · rename_i agg hagg
    obtain rfl := Option.some.inj h
    obtain ⟨hentry, hblocks, -⟩ := summary_spec hsimp (List.mem_of_find?_eq_some hagg)
    exact hblocks _ hentry
  · split at h
    · rename_i c hblock
      obtain rfl := Option.some.inj h
      exact List.mem_of_find?_eq_some hblock
    · cases h

/-- The nodes of a contraction are those of the blocks. -/
private theorem mem_contract {n : NodeId} {w : List BlockId} (hn : n ∈ A.contract w) :
    ∃ b ∈ w, n = A.nodeOf b := by
  fun_induction A.contract w with
  | case1 => exact absurd hn List.not_mem_nil
  | case2 b => exact ⟨b, List.mem_cons_self, List.mem_singleton.mp hn⟩
  | case3 b c w hstay ih =>
    obtain ⟨a, ha, hna⟩ := ih hn
    exact ⟨a, List.mem_cons_of_mem b ha, hna⟩
  | case4 b c w hstay ih =>
    rcases List.mem_cons.mp hn with rfl | hn
    · exact ⟨b, List.mem_cons_self, rfl⟩
    · obtain ⟨a, ha, hna⟩ := ih hn
      exact ⟨a, List.mem_cons_of_mem b ha, hna⟩

/-- A block of a path, the first apart, is the successor of a block. -/
private theorem exists_succ_of_path {b : BlockId} {w : List BlockId}
    (hchain : List.IsChain A.cfg.Succ (b :: w)) : ∀ c ∈ w, ∃ a, A.cfg.Succ a c := by
  induction w generalizing b with
  | nil => exact fun c hc => absurd hc List.not_mem_nil
  | cons c w ih =>
    obtain ⟨hsucc, hrest⟩ := List.isChain_cons_cons.mp hchain
    exact List.forall_mem_cons.mpr ⟨⟨b, hsucc⟩, ih hrest⟩

/-- The blocks of a path from the entry block. -/
private theorem mem_of_path {w : List BlockId} (hhead : w.head? = some A.cfg.entryBlock)
    (hchain : List.IsChain A.cfg.Succ w) : ∀ a ∈ w, a ∈ A.cfg.blocks := by
  obtain ⟨w, rfl⟩ := List.head?_eq_some_iff.mp hhead
  refine List.forall_mem_cons.mpr ⟨A.cfg.entry_mem, fun c hc => ?_⟩
  obtain ⟨a, hsucc⟩ := exists_succ_of_path hchain c hc
  exact hsucc.dst_mem

/-- No path comes back to the entry block. -/
private theorem count_entry {w : List BlockId} (hhead : w.head? = some A.cfg.entryBlock)
    (hchain : List.IsChain A.cfg.Succ w) : w.count A.cfg.entryBlock = 1 := by
  obtain ⟨w, rfl⟩ := List.head?_eq_some_iff.mp hhead
  have hnot : A.cfg.entryBlock ∉ w := fun hmem => by
    obtain ⟨a, hsucc⟩ := exists_succ_of_path hchain _ hmem
    exact hsucc.ne_entry rfl
  rw [List.count_cons_self, List.count_eq_zero_of_not_mem hnot]

/-- **A node is visited as often as its boundary block.** -/
theorem count_contract_boundary (hsimp : A.loopInfo.Simplified)
    (hnames : (A.cfg.blocks.map A.cfg.name).Nodup) {n : NodeId} {b : BlockId}
    (h : A.getConcreteBlock n = some b) {w : List BlockId} (hhead : w.head? = some A.cfg.entryBlock)
    (hchain : List.IsChain A.cfg.Succ w) : (A.contract w).count n = w.count b := by
  rw [eq_nodeOf_of_getConcreteBlock h]
  have hblocks := mem_of_path hhead hchain
  obtain ⟨w, rfl⟩ := List.head?_eq_some_iff.mp hhead
  rw [getConcreteBlock, nodeData] at h
  split at h
  · rename_i agg hagg
    have hagg := List.mem_of_find?_eq_some hagg
    obtain rfl := Option.some.inj h
    obtain ⟨-, -, hstart, -⟩ := summary_spec hsimp hagg
    rw [count_contract hsimp hnames hagg .refl hchain, if_neg fun hin => hin.2 (hstart hin.1),
      Nat.add_zero]
  · split at h
    · rename_i c hblock
      obtain rfl := Option.some.inj h
      have hplain := List.find?_some hblock
      rw [decide_eq_true_eq] at hplain
      exact count_contract_plain hnames (List.mem_of_find?_eq_some hblock) hplain.1 hblocks
    · cases h

/-- A profile counts the visits of every node. -/
private theorem sum_count_mul {t nodes : List NodeId} (hnodes : nodes.Nodup)
    (ht : ∀ n ∈ t, n ∈ nodes) (v : NodeId → ℚ) :
    (nodes.map fun n => (t.count n : ℚ) * v n).sum = (t.map v).sum := by
  rw [← List.sum_toFinset _ hnodes, Finset.sum_list_map_count]
  simp only [nsmul_eq_mul]
  refine (Finset.sum_subset (fun n hn => ?_) fun n _ hn => ?_).symm
  · exact List.mem_toFinset.mpr (ht n (List.mem_toFinset.mp hn))
  · rw [List.count_eq_zero_of_not_mem fun hmem => hn (List.mem_toFinset.mpr hmem)]
    simp

/-- The calls of a function in a run: paths from its entry block, which make up the executions of
its blocks. -/
structure Calls (C : CFGAnalysis) (events : List FreqEvent) (name : String)
    (calls : List (List BlockId)) : Prop where
  path : ∀ w ∈ calls, w.head? = some C.entryBlock ∧ List.IsChain C.Succ w
  executed : ∀ b, executions events name b = (calls.map (List.count b)).sum

/-- The profile of a run. -/
structure Profiled (A : FunctionAnalysis) (calls : List (List BlockId)) : Prop where
  path : ∀ w ∈ calls, w.head? = some A.cfg.entryBlock ∧ List.IsChain A.cfg.Succ w
  fEntry : ∀ b ∈ A.cfg.blocks,
    calls.length * A.fEntry b = ((calls.map (List.count b)).sum : ℕ)

/-- **What is weighted by the frequencies of a profile** is summed over the visits of the profiled
run. -/
theorem Profiled.sum_fEntry_mul (hsimp : A.loopInfo.Simplified)
    (hnames : (A.cfg.blocks.map A.cfg.name).Nodup) {calls : List (List BlockId)}
    (h : A.Profiled calls) (v : NodeId → ℚ) :
    calls.length * (A.cfgView.blocks.map fun n => A.energyView.fEntry n * v n).sum =
      (calls.map fun w => ((A.contract w).map v).sum).sum := by
  -- every node has a boundary block, whose frequency is its own and whose visits are its own
  have hvisits : ∀ n ∈ A.cfgView.blocks, calls.length * A.energyView.fEntry n =
      ((calls.flatMap A.contract).count n : ℚ) := fun n hn => by
    obtain ⟨b, hb⟩ := getConcreteBlock_isSome (List.mem_range.mp hn)
    have hmem := mem_of_getConcreteBlock hsimp hb
    rw [fEntry_of_getConcreteBlock hb, h.fEntry b hmem, List.count_flatMap]
    refine congrArg Nat.cast (congrArg List.sum (List.map_congr_left fun w hw => ?_))
    obtain ⟨hhead, hchain⟩ := h.path w hw
    exact (count_contract_boundary hsimp hnames hb hhead hchain).symm
  have hnodes : ∀ n ∈ calls.flatMap A.contract, n ∈ A.cfgView.blocks := fun n hn => by
    obtain ⟨w, hw, hn⟩ := List.mem_flatMap.mp hn
    obtain ⟨hhead, hchain⟩ := h.path w hw
    obtain ⟨b, hb, rfl⟩ := mem_contract hn
    exact List.mem_range.mpr (nodeOf_lt (mem_of_path hhead hchain b hb))
  rw [← List.sum_map_mul_left]
  calc (A.cfgView.blocks.map fun n => calls.length * (A.energyView.fEntry n * v n)).sum
      = (A.cfgView.blocks.map fun n => ((calls.flatMap A.contract).count n : ℚ) * v n).sum :=
        congrArg List.sum (List.map_congr_left fun n hn => by rw [← mul_assoc, hvisits n hn])
    _ = ((calls.flatMap A.contract).map v).sum :=
        sum_count_mul A.cfgView.blocks_nodup hnodes v
    _ = (calls.map fun w => ((A.contract w).map v).sum).sum := by
        rw [List.map_flatMap, List.flatMap_def, List.sum_flatten, List.map_map]
        rfl

/-- The frequencies that are read back are those of the calls. -/
private theorem Calls.profiled {events : List FreqEvent} {name : String}
    {calls : List (List BlockId)} (h : Calls A.cfg events name calls)
    (hcounts : ∀ b ∈ A.cfg.blocks, executions events name b < 2 ^ 64)
    {getBlockCount : BlockId → Option (BitVec 64)}
    (hloaded : ∀ b ∈ A.cfg.blocks,
      getBlockCount b = some (BitVec.ofNat 64 (executions events name b)))
    (hfreq : ∀ b ∈ A.cfg.blocks, A.fEntry b = frequency getBlockCount
      (max ((getBlockCount A.cfg.entryBlock).elim 0 BitVec.toNat) 1) b) :
    A.Profiled calls := by
  refine ⟨h.path, fun b hb => ?_⟩
  have hcount : ∀ b ∈ A.cfg.blocks,
      (getBlockCount b).elim 0 BitVec.toNat = executions events name b := fun b hb => by
    rw [hloaded b hb]
    exact Nat.mod_eq_of_lt (hcounts b hb)
  have hentry : executions events name A.cfg.entryBlock = calls.length := by
    rw [h.executed, List.map_congr_left fun w hw => count_entry (h.path w hw).1 (h.path w hw).2]
    simp
  rw [hfreq b hb, frequency, hcount b hb, hcount _ A.cfg.entry_mem, hentry, ← h.executed]
  rcases Nat.eq_zero_or_pos calls.length with hzero | hpos
  · -- a function that is not called does not execute its blocks
    have hexec : executions events name b = 0 := by
      rw [h.executed, List.length_eq_zero_iff.mp hzero]
      rfl
    simp [hexec]
  · have hne : (calls.length : ℚ) ≠ 0 := by exact_mod_cast hpos.ne'
    rw [max_eq_left hpos]
    field_simp

private theorem sum_map_indicator (l : List NodeId) (r : NodeId → Bool) :
    (l.map fun n => if r n then (1 : ℚ) else 0).sum = l.countP r := by
  have hweights := CheckpointOptimizer.sum_map_mul_indicator l (fun _ => (1 : ℚ)) _ r
    fun _ _ => rfl
  simp only [one_mul] at hweights
  rw [hweights, List.map_const', List.sum_replicate, nsmul_one, List.countP_eq_length_filter]

/-- **What the solver minimizes.** A run of the instrumented program is profiled. Its block counts
are read back, and the frequencies computed from them, without an error. If the counts have not
overflown, the objective of every feasible assignment, times the number of calls of the function, is
the overhead of the profiled run under the extracted solution, and the expected boundary hits, times
the number of calls, are the boundaries that the run passes. -/
theorem objective_eq_profiled_overhead {M : BBModule} (hM : M.Writable)
    {before after : List FreqEvent} (hbefore : M.Runs before) (hafter : .mainReturn ∉ after)
    {parse : List Char → Option Text.Json.Value} (hparse : Text.Json.Reads parse)
    (castDouble : String → BitVec 64) {F : BBFunction} (hF : F ∈ M.functions)
    (hentered : F.name ∈ (entered before).take maxFreqFunctions) (hnamed : F.Named)
    (hblocks : ∀ b ∈ A.cfg.blocks, b < F.blocks.length) :
    ∃ loader fEntry,
      BBFreqLoader.load parse castDouble
        (BBFreqState.init.run (before ++ .mainReturn :: after)).file F = some loader ∧
      A.cfg.computeFrequenciesFromFile F.name loader.getBlockCount = .ok fEntry ∧
      (A.loopInfo.Simplified → (A.cfg.blocks.map A.cfg.name).Nodup →
        (∀ b ∈ A.cfg.blocks, executions before F.name b < 2 ^ 64) →
        (∀ b ∈ A.cfg.blocks, A.fEntry b = fEntry.getFEntry b) →
        ∀ calls, Calls A.cfg before F.name calls → ∀ coarse x,
        (A.toOptimizer coarse).buildModel.Feasible x → (A.toOptimizer coarse).NoFreeCycle x →
        let P := A.toOptimizer coarse
        let solution := P.extractSolution x
        calls.length * P.buildModel.objective.eval x =
            (calls.map fun w => P.overhead solution (A.contract w)).sum ∧
          calls.length * P.expectedHits solution =
            (calls.map fun w => (solution.boundaryHits (A.contract w) : ℚ)).sum) := by
  obtain ⟨loader, hload, hloader⟩ :=
    hbefore.load_eq_some hM hafter hparse castDouble hF hentered hnamed
  have hloaded : ∀ b ∈ A.cfg.blocks, loader.getBlockCount b =
      some (BitVec.ofNat 64 (executions before F.name b)) := fun b hb => by
    rw [hloader, if_pos (hblocks b hb)]
  have hsome : ∀ b, A.cfg.Reachable b → (loader.getBlockCount b).isSome := fun b hb => by
    rw [hloaded b hb.mem]
    rfl
  obtain ⟨hok, hfreq, -⟩ := @computeFrequenciesFromFile_exact A.cfg F.name
    loader.getBlockCount
  obtain ⟨fEntry, hcompute⟩ := hok.mpr hsome
  refine ⟨loader, fEntry, hload, hcompute,
    fun hsimp hnames hcounts hA calls hcalls coarse x hx hfree => ?_⟩
  have hprofiled : A.Profiled calls := hcalls.profiled hcounts hloaded fun b hb =>
    (hA b hb).trans (hfreq fEntry hcompute b hb)
  have hs := CheckpointOptimizer.feasible_iff.mp hx
  constructor
  · exact (congrArg _ (hs.eval_addObjective hfree fun _ => rfl)).trans
      (hprofiled.sum_fEntry_mul hsimp hnames _)
  · -- a boundary hit is a visit of weight one
    have hhits : (A.toOptimizer coarse).expectedHits ((A.toOptimizer coarse).extractSolution x) =
        (A.cfgView.blocks.map fun n => A.energyView.fEntry n *
          if ((A.toOptimizer coarse).extractSolution x).r n then 1 else 0).sum :=
      (CheckpointOptimizer.sum_map_mul_indicator _ _ _ _ fun _ _ => rfl).symm
    rw [hhits, hprofiled.sum_fEntry_mul hsimp hnames]
    exact congrArg List.sum (List.map_congr_left fun w _ => sum_map_indicator _ _)

/-- The blocks of `irreducible`. -/
def irreducibleBlocks : BBFunction :=
  ⟨"main", [some "bb0", some "bb1", some "bb2", some "bb3", some "bb4", some "bb5"], by decide⟩

/-- One call, with two rounds of the loop. -/
def irreducibleCall : List BlockId := [0, 1, 2, 3, 4, 2, 4, 5]

/-- `irreducible` with the frequencies of the call. -/
def profiledIrreducible : FunctionAnalysis :=
  { irreducible with fEntry := fun b => irreducibleCall.count b }

/-- The loop is one node, entered once: the regions of the call start at three nodes. -/
theorem objective_eq_profiled_overhead_irreducible :
    (profiledIrreducible.toOptimizer false).buildModel.objective.eval (fun _ => 1) =
      (profiledIrreducible.toOptimizer false).overhead
        ((profiledIrreducible.toOptimizer false).extractSolution fun _ => 1) [0, 1, 2] := by
  have hM : BBModule.Writable ⟨[irreducibleBlocks], by decide⟩ := by
    intro F hF
    obtain rfl := List.mem_singleton.mp hF
    have hall : (irreducibleBlocks.bbNames.all fun n => n.toList.all isWritable) = true := by decide
    exact ⟨.of_all (by decide), fun n hn => .of_all (List.all_eq_true.mp hall n hn)⟩
  have hruns : BBModule.Runs ⟨[irreducibleBlocks], by decide⟩
      (irreducibleCall.map (.block irreducibleBlocks)) := by
    intro F bb h
    obtain ⟨i, hi, heq⟩ := List.mem_map.mp h
    obtain ⟨rfl, rfl⟩ := FreqEvent.block.inj heq
    refine ⟨List.mem_singleton.mpr rfl, ?_⟩
    revert i
    decide
  have hafter : FreqEvent.mainReturn ∉ ([] : List FreqEvent) := List.not_mem_nil
  have hentered : irreducibleBlocks.name ∈
      (entered (irreducibleCall.map (.block irreducibleBlocks))).take maxFreqFunctions := by decide
  have hnamed : irreducibleBlocks.Named := by
    intro b hb
    revert b
    decide
  have hcounts : ∀ b ∈ profiledIrreducible.cfg.blocks,
      executions (irreducibleCall.map (.block irreducibleBlocks)) irreducibleBlocks.name b <
        2 ^ 64 := by decide
  have hcalls : Calls profiledIrreducible.cfg (irreducibleCall.map (.block irreducibleBlocks))
      irreducibleBlocks.name [irreducibleCall] := by
    refine ⟨fun w hw => ?_, fun b => ?_⟩
    · obtain rfl := List.mem_singleton.mp hw
      exact ⟨rfl, by decide⟩
    · rw [executions, List.countP_map, List.map_singleton, List.sum_singleton]
      rfl
  obtain ⟨loader, fEntry, hload, hcompute, h⟩ := objective_eq_profiled_overhead
    (A := profiledIrreducible) hM hruns hafter Text.Json.reads_parse (fun _ => 0)
    (List.mem_singleton.mpr rfl) hentered hnamed (by decide)
  obtain ⟨loader', hload', hloader⟩ := hruns.load_eq_some hM hafter Text.Json.reads_parse
    (fun _ => 0) (List.mem_singleton.mpr rfl) hentered hnamed
  obtain rfl : loader' = loader := Option.some.inj (hload'.symm.trans hload)
  have hA : ∀ b ∈ profiledIrreducible.cfg.blocks,
      profiledIrreducible.fEntry b = fEntry.getFEntry b := fun b hb => by
    rw [computeFrequenciesFromFile_exact.2.1 fEntry hcompute b hb, frequency, hloader, hloader]
    revert b
    decide +kernel
  have hbase : ∀ b ∈ (profiledIrreducible.toOptimizer false).cfg.blocks,
      0 < (profiledIrreducible.toOptimizer false).energy.eBase b := by decide +kernel
  have hresult := (h (by decide +kernel) (by decide +kernel) hcounts hA _ hcalls false (fun _ => 1)
    (by decide +kernel)
    (CheckpointOptimizer.noFreeCycle_of_eBase_pos hbase)).1
  have hcontract : profiledIrreducible.contract irreducibleCall = [0, 1, 2] := by decide +kernel
  simpa [hcontract] using hresult

end FunctionAnalysis

end Bao.Milp
