import Bao.Milp.AbstractViews
import Bao.Milp.Exactness
import Bao.Milp.SummaryLiveIn

/-!
# The energy of the commits at a boundary

At a region start `insertRegionBoundaries` commits the solver's save set and, regardless of the
solver's decisions, every ineligible value live into the boundary block (`commitVars`). The
energy constraint charges the solver's save set only (`eval_saveTerms_eq`), and the solver saves
only what some predecessor leaves dirty. A value that stays live and unmodified over two
boundaries is committed twice and charged once, and a PHI of the boundary block is committed
without being dirty anywhere.

`commits_paid_iff` is the exact balance. What is committed without a charge are the clean
ineligible live-ins of the boundary block (`unpaidLiveIns`); the only charges without a commit
are those of dirty SSA values of size zero, which the instrumenter skips (`skippedSaves`).
-/

namespace Bao.Milp

namespace CheckpointOptimizer

variable {P : CheckpointOptimizer} {x : MilpVar → ℚ}

/-- `MILPSolution::getSaveVarsAt`. -/
def getSaveVarsAt (P : CheckpointOptimizer) (solution : MILPSolution) (n : NodeId) : List Value :=
  orderedUnique ((P.sKeys.filter fun k => solution.s k.1 k.2 && k.1 = n).map Prod.snd)

/-- Some predecessor of the node leaves the value dirty: it is defined on a path to the
predecessor since the last region start. -/
def DirtyInto (P : CheckpointOptimizer) (x : MilpVar → ℚ) (b : NodeId) (v : Value) : Prop :=
  ∃ p, P.Edge p b ∧ P.DirtyInRegion x p v

theorem mem_getSaveVarsAt {b : NodeId} {v : Value} :
    v ∈ P.getSaveVarsAt (P.extractSolution x) b ↔ (P.extractSolution x).s b v = true := by
  rw [getSaveVarsAt, mem_orderedUnique, List.mem_map]
  constructor
  · rintro ⟨⟨c, w⟩, hk, rfl⟩
    obtain ⟨-, hsave⟩ := List.mem_filter.mp hk
    rw [Bool.and_eq_true, decide_eq_true_eq] at hsave
    exact hsave.2 ▸ hsave.1
  · intro hsave
    have hk : (b, v) ∈ P.sKeys := by
      have := hsave
      rw [extractSolution, Bool.and_eq_true, decide_eq_true_eq] at this
      exact this.1
    exact ⟨(b, v), List.mem_filter.mpr ⟨hk, by simp [hsave]⟩, rfl⟩

theorem liveInValues_nodup (b : NodeId) : (P.liveInValues b).Nodup := by
  refine List.nodup_append.mpr ⟨(P.state.eligLiveIn_nodup b).map fun _ _ h => by simpa using h,
    P.state.ineligLiveIn_nodup b, fun v hv w hw heq => ?_⟩
  obtain ⟨g, -, rfl⟩ := List.mem_map.mp hv
  exact P.state.ineligible_ne_global w (P.state.ineligLiveIn_subset b w hw) g heq.symm

/-- **The save part of the charge is the cost of the solver's save set.** -/
theorem Satisfies.eval_saveTerms_eq (h : P.Satisfies x) (hfree : P.NoFreeCycle x) {b : NodeId}
    (hb : b ∈ P.cfg.blocks) :
    (P.saveTerms b).eval x =
      ∑ v ∈ (P.getSaveVarsAt (P.extractSolution x) b).toFinset, P.energy.eSave v := by
  have hnodup : (P.saveKeysAt b).Nodup := by
    rw [saveKeysAt]
    split_ifs
    · exact List.nodup_nil
    · exact (P.liveInValues_nodup b).filter _
  have hsub : (P.getSaveVarsAt (P.extractSolution x) b).toFinset ⊆ (P.saveKeysAt b).toFinset := by
    intro v hv
    rw [List.mem_toFinset] at hv ⊢
    exact (mem_saveKeysAt hb).mpr ((h.extract_s hfree).mp (mem_getSaveVarsAt.mp hv)).1
  rw [eval_saveTerms hb, ← List.sum_toFinset _ hnodup]
  -- the other save variables are zero
  rw [← Finset.sum_subset hsub fun v hv hnot => ?_]
  · refine Finset.sum_congr rfl fun v hv => ?_
    have hsave := (h.extract_s hfree).mp (mem_getSaveVarsAt.mp (List.mem_toFinset.mp hv))
    rw [h.s_eq_one hsave.1 hsave.2, mul_one]
  · have hk := (mem_saveKeysAt hb).mp (List.mem_toFinset.mp hv)
    have hneed : ¬P.SaveNeeded x b v := fun hneed =>
      hnot (List.mem_toFinset.mpr (mem_getSaveVarsAt.mpr ((h.extract_s hfree).mpr ⟨hk, hneed⟩)))
    rw [h.s_eq_zero hfree hk hneed, mul_zero]

/-- An ineligible object is saved at a region start exactly when it is live into the node and
some predecessor leaves it dirty. -/
theorem Satisfies.mem_getSaveVarsAt_ineligible (h : P.Satisfies x) (hfree : P.NoFreeCycle x)
    {b : NodeId} (hb : b ∈ P.cfg.blocks) (hne : b ≠ P.cfg.entryBlock) (hr : x (.r b) = 1)
    {v : Value} (hv : v ∈ P.state.ineligibleObjs) :
    v ∈ P.getSaveVarsAt (P.extractSolution x) b ↔
      v ∈ P.state.ineligLiveIn b ∧ P.DirtyInto x b v := by
  have hglobal := P.state.ineligible_ne_global v hv
  have hplace : ∀ p, P.place x p v = 1 := by
    intro p
    cases v with
    | global g => exact absurd rfl (hglobal g)
    | alloca _ => rfl
    | inst _ => rfl
  have hlive : v ∈ P.liveInValues b ↔ v ∈ P.state.ineligLiveIn b := by
    rw [liveInValues, List.mem_append]
    refine or_iff_right fun hmem => ?_
    obtain ⟨g, -, heq⟩ := List.mem_map.mp hmem
    exact hglobal g heq.symm
  rw [mem_getSaveVarsAt, h.extract_s hfree, mem_sKeys]
  constructor
  · rintro ⟨⟨-, hmem, -⟩, -, p, hedge, hpk, hd, -⟩
    refine ⟨hlive.mp hmem, p, hedge, ?_⟩
    by_contra hclean
    rw [h.d_eq_zero hfree hpk hclean] at hd
    exact absurd hd (by norm_num)
  · rintro ⟨hmem, p, hedge, hdirty⟩
    have hpk : (p, v) ∈ P.dKeys := by
      obtain ⟨a, hdef, hpath⟩ := hdirty
      exact dKeys_of_regionPath (mem_dKeys_of_isDef (regionPath_src_mem hedge.src_mem hpath)
        (ineligible_mem_tracked hv) hdef) hpath
    exact ⟨⟨⟨hb, hne⟩, hlive.mpr hmem, p, hedge, hpk⟩, hr, p, hedge, hpk,
      h.d_eq_one hpk hdirty, hplace p⟩

end CheckpointOptimizer

namespace FunctionAnalysis

open CheckpointOptimizer (MILPSolution)

/-! ### The commit phase -/

variable (A : FunctionAnalysis) (coarse : Bool)

/-- `nodesByBlock`: the region starts whose boundary is emitted in a block. -/
def nodesByBlock (solution : MILPSolution) (B : BlockId) : List NodeId :=
  (A.toOptimizer coarse).cfg.blocks.filter fun n =>
    solution.r n && A.getConcreteBlock n = some B

/-- The commit phase of `insertRegionBoundaries` in one block: the values whose commits are
emitted. There are none at the entry node, and none for a value of size zero. -/
def commitVars (solution : MILPSolution) (B : BlockId) : List Value :=
  let nodes := A.nodesByBlock coarse solution B
  if nodes = [] ∨ (A.toOptimizer coarse).cfg.entryBlock ∈ nodes then []
  else
    (orderedUnique (nodes.flatMap ((A.toOptimizer coarse).getSaveVarsAt solution) ++
      A.state.ineligLiveIn B)).filter fun v => A.state.varSizeBytes v ≠ 0

open Classical in
/-- The ineligible values live into the boundary block that are committed although no
predecessor leaves them dirty, or although they are not live into the node. -/
noncomputable def unpaidLiveIns (x : MilpVar → ℚ) (b : NodeId) (B : BlockId) : List Value :=
  (A.state.ineligLiveIn B).filter fun v => A.state.varSizeBytes v ≠ 0 ∧
    ¬(v ∈ (A.toOptimizer coarse).state.ineligLiveIn b ∧ (A.toOptimizer coarse).DirtyInto x b v)

open Classical in
/-- The dirty live-in values of a node that are charged, but skipped because their size is
zero. -/
noncomputable def skippedSaves (x : MilpVar → ℚ) (b : NodeId) : List Value :=
  ((A.toOptimizer coarse).state.ineligLiveIn b).filter fun v => A.state.varSizeBytes v = 0 ∧
    (A.toOptimizer coarse).DirtyInto x b v

variable {A coarse} {x : MilpVar → ℚ}

/-- The only region start of a boundary block is its node. -/
theorem nodesByBlock_eq {b : NodeId} {B : BlockId} (hb : b ∈ (A.toOptimizer coarse).cfg.blocks)
    (hr : x (.r b) = 1) (hB : A.getConcreteBlock b = some B) :
    A.nodesByBlock coarse ((A.toOptimizer coarse).extractSolution x) B = [b] := by
  have hmem : ∀ n, n ∈ A.nodesByBlock coarse ((A.toOptimizer coarse).extractSolution x) B ↔
      n = b := by
    intro n
    rw [nodesByBlock, List.mem_filter, Bool.and_eq_true, decide_eq_true_eq]
    constructor
    · rintro ⟨-, -, hn⟩
      rw [eq_nodeOf_of_getConcreteBlock hn, eq_nodeOf_of_getConcreteBlock hB]
    · rintro rfl
      refine ⟨hb, ?_, hB⟩
      simp only [CheckpointOptimizer.extractSolution, hb, hr, decide_true, Bool.true_and,
        decide_eq_true_eq]
      norm_num
  have hnodup : (A.nodesByBlock coarse ((A.toOptimizer coarse).extractSolution x) B).Nodup :=
    (A.toOptimizer coarse).cfg.blocks_nodup.filter _
  exact List.perm_singleton.mp
    ((List.perm_ext_iff_of_nodup hnodup (List.nodup_singleton b)).mpr (by simpa using hmem))

/-- Values of size zero other than SSA values are free. -/
theorem eSave_global_of_size_zero {g : GlobalVariable}
    (hsize : A.state.varSizeBytes (.global g) = 0) : A.eSave (.global g) = 0 := by
  simp [eSave, stateCost, hsize]

/-- Take what is charged (`S`) off both sides of the balance: on one side remains what is
committed (`S ∪ I`, without the zero-sized `z`) and not charged, on the other what is charged
and skipped. -/
private theorem sum_commits_le_iff (S I : Finset Value) (z : Value → Prop) [DecidablePred z]
    (e : Value → ℚ) :
    ∑ v ∈ (S ∪ I).filter (¬z ·), e v ≤ ∑ v ∈ S, e v ↔
      ∑ v ∈ (I \ S).filter (¬z ·), e v ≤ ∑ v ∈ S.filter z, e v := by
  have hcommits : ∑ v ∈ (S ∪ I).filter (¬z ·), e v =
      ∑ v ∈ S.filter (¬z ·), e v + ∑ v ∈ (I \ S).filter (¬z ·), e v := by
    rw [← Finset.union_sdiff_self_eq_union, Finset.filter_union,
      Finset.sum_union (Finset.disjoint_filter_filter Finset.disjoint_sdiff)]
  have hcharge : ∑ v ∈ S, e v = ∑ v ∈ S.filter z, e v + ∑ v ∈ S.filter (¬z ·), e v :=
    (Finset.sum_filter_add_sum_filter_not S z e).symm
  rw [hcommits, hcharge, add_comm, add_le_add_iff_right]

/-- **When the commits are paid for.** At a region start other than the entry, the commits that
are emitted cost at most the save part of the charge if and only if the clean ineligible live-ins
of the boundary block cost at most the charged saves that are skipped. -/
theorem commits_paid_iff (h : (A.toOptimizer coarse).buildModel.Feasible x)
    (hfree : (A.toOptimizer coarse).NoFreeCycle x) {b : NodeId}
    (hb : b ∈ (A.toOptimizer coarse).cfg.blocks)
    (hne : b ≠ (A.toOptimizer coarse).cfg.entryBlock) (hr : x (.r b) = 1) :
    ∃ B, A.getConcreteBlock b = some B ∧
      (((A.commitVars coarse ((A.toOptimizer coarse).extractSolution x) B).map A.eSave).sum ≤
          ((A.toOptimizer coarse).saveTerms b).eval x ↔
        ((A.unpaidLiveIns coarse x b B).map A.eSave).sum ≤
          ((A.skippedSaves coarse x b).map A.eSave).sum) := by
  classical
  have hs := CheckpointOptimizer.feasible_iff.mp h
  obtain ⟨B, hB⟩ := getConcreteBlock_isSome (List.mem_range.mp hb)
  refine ⟨B, hB, ?_⟩
  set P := A.toOptimizer coarse
  set S := (P.getSaveVarsAt (P.extractSolution x) b).toFinset
  set I := (A.state.ineligLiveIn B).toFinset
  have hsaved : ∀ v ∈ A.state.ineligibleObjs,
      (v ∈ S ↔ v ∈ P.state.ineligLiveIn b ∧ P.DirtyInto x b v) := by
    intro v hv
    rw [List.mem_toFinset]
    exact hs.mem_getSaveVarsAt_ineligible hfree hb hne hr hv
  have hcommits : ((A.commitVars coarse (P.extractSolution x) B).map A.eSave).sum =
      ∑ v ∈ (S ∪ I).filter (¬A.state.varSizeBytes · = 0), A.eSave v := by
    have hnodes := nodesByBlock_eq hb hr hB
    rw [commitVars, hnodes, if_neg (by simpa using Ne.symm hne),
      ← List.sum_toFinset _ ((nodup_orderedUnique _).filter _)]
    refine Finset.sum_congr (Finset.ext fun v => ?_) fun _ _ => rfl
    simp [S, I, P]
  have hunpaid : ((A.unpaidLiveIns coarse x b B).map A.eSave).sum =
      ∑ v ∈ (I \ S).filter (¬A.state.varSizeBytes · = 0), A.eSave v := by
    rw [unpaidLiveIns, ← List.sum_toFinset _ ((A.state.ineligLiveIn_nodup B).filter _)]
    refine Finset.sum_congr (Finset.ext fun v => ?_) fun _ _ => rfl
    simp only [List.mem_toFinset, List.mem_filter, decide_eq_true_eq, Finset.mem_filter,
      Finset.mem_sdiff, I]
    constructor
    · rintro ⟨hv, hsize, hclean⟩
      exact ⟨⟨hv, fun hmem => hclean
        ((hsaved v (A.state.ineligLiveIn_subset B v hv)).mp hmem)⟩, hsize⟩
    · rintro ⟨⟨hv, hnot⟩, hsize⟩
      exact ⟨hv, hsize, fun hdirty => hnot
        ((hsaved v (A.state.ineligLiveIn_subset B v hv)).mpr hdirty)⟩
  have hskipped : ((A.skippedSaves coarse x b).map A.eSave).sum =
      ∑ v ∈ S.filter (A.state.varSizeBytes · = 0), A.eSave v := by
    rw [skippedSaves, ← List.sum_toFinset _ ((P.state.ineligLiveIn_nodup b).filter _)]
    refine Finset.sum_subset (fun v hv => ?_) fun v hv hnot => ?_
    · obtain ⟨hlive, hz, hdirty⟩ : v ∈ P.state.ineligLiveIn b ∧ A.state.varSizeBytes v = 0 ∧
          P.DirtyInto x b v := by simpa [P] using hv
      exact Finset.mem_filter.mpr
        ⟨(hsaved v (P.state.ineligLiveIn_subset b v hlive)).mpr ⟨hlive, hdirty⟩, hz⟩
    · -- a saved value that is not an ineligible object is a global
      obtain ⟨hmem, hz⟩ := Finset.mem_filter.mp hv
      by_cases hobj : v ∈ A.state.ineligibleObjs
      · obtain ⟨hlive, hdirty⟩ := (hsaved v hobj).mp hmem
        exact absurd (by simpa [P] using ⟨hlive, hz, hdirty⟩) hnot
      · cases v with
        | global g => exact eSave_global_of_size_zero hz
        | alloca _ => simp [eSave, stateCost, hobj]
        | inst _ => simp [eSave, stateCost, hobj]
  rw [hs.eval_saveTerms_eq hfree hb, hcommits, hunpaid, hskipped]
  exact sum_commits_le_iff S I (A.state.varSizeBytes · = 0) A.eSave

end FunctionAnalysis

namespace SSAFunction

/-! ### A value that outlives two boundaries -/

/-- Three blocks in a row: block `0` computes the value `0`, block `2` returns it. -/
def relayCode : SSACode Unit ℕ where
  cfg := .ofTable [(.branch [1], 1), (.branch [2], 1), (.ret, 1)] (by decide) (by decide)
    (by decide +kernel)
  phis _ := []
  body b := if b = 0 then [.call (some 0) [] [] fun w _ stack => (w, 10, stack)] else []
  termArgs b := if b = 2 then [.inst 0] else []
  allocas := []
  allocaType _ := .bytes 1
  defBlock _ := 0
  isPhi _ := false
  sizeBytes _ := 2
  null := 0
  isRef _ _ := true
  isMod _ _ := true

/-- `relayCode` is in SSA form. -/
def relay : SSAFunction Unit ℕ where
  toSSACode := relayCode
  allocas_nodup := List.nodup_nil
  values_nodup := by decide +kernel
  phi_def := by decide +kernel
  instr_def := by decide +kernel
  entry_phis := rfl
  phi_incoming := by decide +kernel
  phi_avail := by decide +kernel
  body_avail := by decide +kernel
  ref_sound _ _ _ := rfl
  read_mem := by
    intro b _ i hi a ha
    simp only [relayCode] at hi
    split_ifs at hi
    · obtain rfl := List.mem_singleton.mp hi
      exact absurd ha List.not_mem_nil
    · exact absurd hi List.not_mem_nil

/-- The analyses of `relay`; there are no loops and no globals. -/
def relayAnalysis : FunctionAnalysis :=
  relay.analysis (.empty _) noGlobals FunctionAnalysis.unitParams (fun _ => 1) fun _ => false

/-- A region starts at every block. The value is dirty after block `0` only, so it is saved at
block `1` and not again at block `2`. -/
def relayAssignment : MilpVar → ℚ
  | .d b _ => if b = 0 then 1 else 0
  | .s b _ => if b = 1 then 1 else 0
  | .eAccum b => if b = 0 then 1 else 2
  | _ => 1

theorem relayAssignment_feasible :
    (relayAnalysis.toOptimizer false).buildModel.Feasible relayAssignment := by
  decide +kernel

/-- **The second commit is not charged.** At block `2` the value is committed again, because it
is live into the block, but no save is charged. -/
theorem relay_second_commit_unpaid :
    (relayAnalysis.toOptimizer false).buildModel.Feasible relayAssignment ∧
    2 ∈ (relayAnalysis.toOptimizer false).cfg.blocks ∧
    2 ≠ (relayAnalysis.toOptimizer false).cfg.entryBlock ∧ relayAssignment (.r 2) = 1 ∧
    relayAnalysis.getConcreteBlock 2 = some 2 ∧
    ¬((relayAnalysis.commitVars false
        ((relayAnalysis.toOptimizer false).extractSolution relayAssignment) 2).map
          relayAnalysis.eSave).sum ≤
      ((relayAnalysis.toOptimizer false).saveTerms 2).eval relayAssignment := by
  refine ⟨relayAssignment_feasible, ?_⟩
  decide +kernel

/-- The first commit, at block `1`, is charged: the value is dirty there. -/
theorem commits_paid_iff_relay :
    relayAnalysis.commitVars false
      ((relayAnalysis.toOptimizer false).extractSolution relayAssignment) 1 = [.inst 0] ∧
    ((relayAnalysis.commitVars false
        ((relayAnalysis.toOptimizer false).extractSolution relayAssignment) 1).map
          relayAnalysis.eSave).sum ≤
      ((relayAnalysis.toOptimizer false).saveTerms 1).eval relayAssignment := by
  have hbase : ∀ b ∈ (relayAnalysis.toOptimizer false).cfg.blocks,
      0 < (relayAnalysis.toOptimizer false).energy.eBase b := by decide +kernel
  obtain ⟨B, hB, hiff⟩ := FunctionAnalysis.commits_paid_iff (b := 1) relayAssignment_feasible
    (CheckpointOptimizer.noFreeCycle_of_eBase_pos hbase) (by decide +kernel) (by decide +kernel)
    rfl
  have hblock : relayAnalysis.getConcreteBlock 1 = some 1 := by decide +kernel
  obtain rfl : 1 = B := Option.some.inj (hblock.symm.trans hB)
  have hdirty : (relayAnalysis.toOptimizer false).DirtyInto relayAssignment 1 (.inst 0) :=
    ⟨0, by decide +kernel, 0, by decide +kernel, .refl⟩
  have hlive : relayAnalysis.state.ineligLiveIn 1 = [.inst 0] := by decide +kernel
  have hnode : Value.inst 0 ∈ (relayAnalysis.toOptimizer false).state.ineligLiveIn 1 := by
    decide +kernel
  have hempty : relayAnalysis.unpaidLiveIns false relayAssignment 1 1 = [] := by
    simp [FunctionAnalysis.unpaidLiveIns, hlive, hnode, hdirty]
  refine ⟨by decide +kernel, hiff.mpr ?_⟩
  rw [hempty]
  refine List.sum_nonneg fun q hq => ?_
  obtain ⟨v, -, rfl⟩ := List.mem_map.mp hq
  exact relayAnalysis.energyView.eSave_nonneg v

end SSAFunction

end Bao.Milp
