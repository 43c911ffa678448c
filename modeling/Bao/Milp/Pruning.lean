import Bao.Milp.Exactness

/-!
# Pruning by reachable definitions

The builder makes a dirty variable only where a definition reaches, and a save variable only where
some predecessor has a dirty variable. Without this there would be a dirty variable at every node
and a save variable at every node but the entry, for everything live. The builder is stated here for
any such choice of keys (`buildModelWith`), of which the pruned model (`buildModelWith_prunedKeys`)
and the unpruned one (`unprunedModel`) are instances.

In the unpruned model a dirty bit at a node that no definition reaches must come from a predecessor
in the same region. Energy accumulates along the region and every node costs some, so there is no
first such node, and the bit is zero (`dirty_eq_zero`). The two models therefore have the same
feasible placements at the same objective values (`pruning_lossless`).
-/

namespace Bao.Milp.CheckpointOptimizer

open LinExpr (var ofRat)

/-- The pairs that have a dirty variable, and those that have a save variable. -/
structure VarKeys where
  d : List (NodeId × Value)
  s : List (NodeId × Value)

variable (P : CheckpointOptimizer)

/-- The keys of the source. -/
def prunedKeys : VarKeys := ⟨P.dKeys, P.sKeys⟩

/-- All pairs for dirty variables; everything live into a node other than the entry for saves. -/
def unprunedKeys : VarKeys where
  d := P.cfg.blocks.flatMap fun b => P.orderedTrackedValues.map fun v => (b, v)
  s := (P.cfg.blocks.filter fun b => b ≠ P.cfg.entryBlock).flatMap fun b =>
    (P.liveInValues b).map fun v => (b, v)

/-! ### The builder for given keys -/

section Builder

variable (keys : VarKeys)

/-- `addVariables`. -/
def addVariablesWith : List (VarDecl MilpVar) :=
  (P.cfg.blocks.map fun b => ⟨.r b, 0, 1, .binary⟩) ++
  (if P.coarseAllocation then
    P.state.vmObjs.map fun g => ⟨.mGlobal g, 0, 1, .binary⟩ else []) ++
  (P.mKeys.map fun k => ⟨.m k.1 k.2, 0, 1, .binary⟩) ++
  (keys.d.map fun k => ⟨.d k.1 k.2, 0, 1, .continuous⟩) ++
  (P.rHatKeys.map fun k => ⟨.rHat k.1 k.2, 0, 1, .continuous⟩) ++
  (keys.s.map fun k => ⟨.s k.1 k.2, 0, 1, .continuous⟩) ++
  (P.cfg.blocks.map fun b => ⟨.eAccum b, 0, P.energy.params.capacity, .continuous⟩)

/-- The dirty variables of the predecessors of a node, summed. -/
def predDirtySumWith (b : NodeId) (v : Value) : LinExpr MilpVar :=
  (((P.predecessors b).filter fun p => (p, v) ∈ keys.d).map fun p => var (.d p v)).sum

/-- The save terms of `buildEEnd`. -/
def saveTermsWith (b : NodeId) : LinExpr MilpVar :=
  ((keys.s.filter fun k => k.1 = b ∧ 0 < P.energy.eSave k.2).map fun k =>
    P.energy.eSave k.2 • var (.s k.1 k.2)).sum

/-- `buildEEnd`. -/
def buildEEndWith (b : NodeId) : LinExpr MilpVar :=
  P.energy.params.eEpi • var (.r b) + P.saveTermsWith keys b

/-- `addObjective`. -/
def addObjectiveWith : LinExpr MilpVar :=
  (P.cfg.blocks.map fun b =>
    ((P.state.vmObjs.filter fun g => P.energy.eNvm b g ≠ 0).map fun g =>
      ofRat (P.energy.fEntry b * P.energy.eNvm b g) -
        (P.energy.fEntry b * P.energy.eNvm b g) • P.mExpr b g).sum).sum +
  (P.cfg.blocks.map fun b => P.energy.fBoundary b • P.buildEStart b).sum +
  ((P.cfg.blocks.filter fun b => b ≠ P.cfg.entryBlock).map fun b =>
    P.energy.fBoundary b • P.buildEEndWith keys b).sum

/-- C5, C7', C7 and C6. -/
def constrainDirtyPropagationWith : List (Constraint MilpVar) :=
  (keys.d.flatMap fun k =>
    [⟨var (.d k.1 k.2), .ge, ofRat (P.defCoeff k.1 k.2)⟩,
     ⟨var (.d k.1 k.2), .le, ofRat (P.defCoeff k.1 k.2) + P.predDirtySumWith keys k.1 k.2⟩,
     ⟨var (.d k.1 k.2), .le, ofRat (P.defCoeff k.1 k.2) + (ofRat 1 - var (.r k.1))⟩]) ++
  P.cfg.edges.flatMap fun e =>
    (P.orderedTrackedValues.filter fun v =>
      (e.1, v) ∈ keys.d && (e.2, v) ∈ keys.d).map fun v =>
        ⟨var (.d e.2 v), .ge, var (.d e.1 v) - var (.r e.2)⟩

/-- C9' and C9. -/
def constrainSaveAtRegionBoundaryWith : List (Constraint MilpVar) :=
  (keys.s.flatMap fun k =>
    [⟨var (.s k.1 k.2), .le, var (.r k.1)⟩,
     ⟨var (.s k.1 k.2), .le, P.predDirtySumWith keys k.1 k.2⟩] ++ P.constrainSaveLePlace k) ++
  P.cfg.edges.flatMap fun e =>
    (keys.s.filter fun k => k.1 = e.2 ∧ (e.1, k.2) ∈ keys.d).map fun k =>
      P.constrainSaveEdge e k.2

/-- C12 and C13. -/
def constrainEnergyWithinCapacityWith : List (Constraint MilpVar) :=
  (P.cfg.edges.map fun e =>
    ⟨var (.eAccum e.1) + P.buildEBlk e.1 + P.buildEEndWith keys e.2, .le,
      ofRat P.energy.params.capacity⟩) ++
  P.cfg.exitBlocks.map fun b =>
    ⟨var (.eAccum b) + P.buildEBlk b, .le, ofRat P.energy.params.capacity⟩

/-- `addConstraints`. -/
def addConstraintsWith : List (Constraint MilpVar) :=
  P.constrainEntryAsRegionStart ++ P.constrainIneligiblePlacement ++
  P.constrainNeedRestoreLinearization ++ P.constrainVMCapacity ++
  P.constrainPlacementPropagation ++ P.constrainDirtyPropagationWith keys ++
  P.constrainSaveAtRegionBoundaryWith keys ++ P.constrainEnergyInitAtRegionStart ++
  P.constrainEnergyPropagation ++ P.constrainEnergyWithinCapacityWith keys

/-- `buildModel`. -/
def buildModelWith : Model MilpVar :=
  ⟨P.addVariablesWith keys, P.addConstraintsWith keys, P.addObjectiveWith keys⟩

end Builder

/-- The builder of the source has the pruned keys. -/
theorem buildModelWith_prunedKeys : P.buildModelWith P.prunedKeys = P.buildModel := rfl

/-- **The unpruned model**: a dirty variable for every pair, a save variable for every live-in
pair. -/
def unprunedModel : Model MilpVar := P.buildModelWith P.unprunedKeys

variable {P} {x y : MilpVar → ℚ}

@[simp] theorem mem_unprunedKeys_d {b : NodeId} {v : Value} :
    (b, v) ∈ P.unprunedKeys.d ↔ b ∈ P.cfg.blocks ∧ v ∈ P.orderedTrackedValues := by
  simp [unprunedKeys]

@[simp] theorem mem_unprunedKeys_s {b : NodeId} {v : Value} :
    (b, v) ∈ P.unprunedKeys.s ↔
      (b ∈ P.cfg.blocks ∧ b ≠ P.cfg.entryBlock) ∧ v ∈ P.liveInValues b := by
  simp [unprunedKeys]

/-! ### Where the models differ -/

/-- The variables that only the unpruned model has are zero. -/
structure ZeroOutside (P : CheckpointOptimizer) (y : MilpVar → ℚ) : Prop where
  d : ∀ b v, (b, v) ∈ P.unprunedKeys.d → (b, v) ∉ P.dKeys → y (.d b v) = 0
  s : ∀ b v, (b, v) ∈ P.unprunedKeys.s → (b, v) ∉ P.sKeys → y (.s b v) = 0

theorem dKeys_subset {b : NodeId} {v : Value} (h : (b, v) ∈ P.dKeys) :
    (b, v) ∈ P.unprunedKeys.d :=
  mem_unprunedKeys_d.mpr ⟨(mem_dKeys.mp h).1, (mem_dKeys.mp h).2.1⟩

theorem sKeys_subset {b : NodeId} {v : Value} (h : (b, v) ∈ P.sKeys) :
    (b, v) ∈ P.unprunedKeys.s :=
  mem_unprunedKeys_s.mpr ⟨(mem_sKeys.mp h).1, (mem_sKeys.mp h).2.1⟩

/-- No definition at a node without a dirty variable. -/
theorem defCoeff_of_notMem {b : NodeId} {v : Value} (hb : b ∈ P.cfg.blocks)
    (hv : v ∈ P.orderedTrackedValues) (hk : (b, v) ∉ P.dKeys) : P.defCoeff b v = 0 :=
  if_neg fun hdef => hk (mem_dKeys_of_isDef hb hv hdef)

/-- Summands that a filter drops may be left in if they are zero. -/
private theorem sum_map_filter {β : Type*} (l : List β) (p : β → Bool) (f : β → ℚ)
    (hzero : ∀ a ∈ l, p a = false → f a = 0) : ((l.filter p).map f).sum = (l.map f).sum := by
  induction l with
  | nil => rfl
  | cons a l ih =>
    obtain ⟨ha, hl⟩ := List.forall_mem_cons.mp hzero
    cases hp : p a with
    | true => rw [List.filter_cons_of_pos hp, List.map_cons, List.map_cons, List.sum_cons,
        List.sum_cons, ih hl]
    | false => rw [List.filter_cons_of_neg (by simp [hp]), List.map_cons, List.sum_cons, ih hl,
        ha hp, zero_add]

/-- The dirty sum has all predecessors, with zero where there is no variable. -/
theorem eval_predDirtySumWith (b : NodeId) {v : Value} (hv : v ∈ P.orderedTrackedValues) :
    (P.predDirtySumWith P.unprunedKeys b v).eval y =
      ((P.predecessors b).map fun p => y (.d p v)).sum := by
  have hall : (P.predecessors b).filter (fun p => (p, v) ∈ P.unprunedKeys.d) =
      P.predecessors b := by
    refine List.filter_eq_self.mpr fun p hp => ?_
    rw [decide_eq_true_eq, mem_unprunedKeys_d]
    exact ⟨(mem_predecessors.mp hp).src_mem, hv⟩
  simp only [predDirtySumWith, hall, LinExpr.eval_sum, List.map_map, Function.comp_def,
    LinExpr.eval_var]

theorem ZeroOutside.sum_dirty (h : P.ZeroOutside y) (b : NodeId) {v : Value}
    (hv : v ∈ P.orderedTrackedValues) :
    ((P.predecessors b).map fun p => y (.d p v)).sum =
      ((P.predecessors b).map fun p => P.dirty y p v).sum := by
  refine congrArg List.sum (List.map_congr_left fun p hp => ?_)
  by_cases hk : (p, v) ∈ P.dKeys
  · rw [dirty_of_mem hk]
  · rw [dirty_of_not_mem hk]
    exact h.d p v (mem_unprunedKeys_d.mpr ⟨(mem_predecessors.mp hp).src_mem, hv⟩) hk

/-- The save variables of the source are those of the unpruned model where some predecessor has a
dirty variable. -/
private theorem sKeys_eq : P.sKeys = P.unprunedKeys.s.filter fun k =>
    (P.predecessors k.1).any fun p => (p, k.2) ∈ P.dKeys := by
  rw [sKeys, unprunedKeys, List.filter_flatMap]
  refine List.flatMap_congr fun b _ => ?_
  rw [List.filter_map]
  rfl

/-- **The end energy** is the same. -/
theorem ZeroOutside.eval_buildEEnd (h : P.ZeroOutside y) (b : NodeId) :
    (P.buildEEndWith P.unprunedKeys b).eval y = (P.buildEEnd b).eval y := by
  have hcomm : P.sKeys.filter (fun k => k.1 = b ∧ 0 < P.energy.eSave k.2) =
      (P.unprunedKeys.s.filter fun k => k.1 = b ∧ 0 < P.energy.eSave k.2).filter fun k =>
        (P.predecessors k.1).any fun p => (p, k.2) ∈ P.dKeys := by
    rw [sKeys_eq, List.filter_filter, List.filter_filter]
    simp only [Bool.and_comm]
  have hterms : (P.saveTermsWith P.unprunedKeys b).eval y = (P.saveTerms b).eval y := by
    simp only [saveTermsWith, saveTerms, LinExpr.eval_sum, List.map_map, Function.comp_def,
      LinExpr.eval_smul, LinExpr.eval_var, hcomm]
    refine (sum_map_filter _ _ _ fun k hk hdrop => ?_).symm
    rw [h.s k.1 k.2 (List.mem_filter.mp hk).1, mul_zero]
    rw [sKeys_eq]
    exact fun hin => Bool.false_ne_true (hdrop.symm.trans (List.mem_filter.mp hin).2)
  rw [buildEEndWith, buildEEnd, LinExpr.eval_add, LinExpr.eval_add, hterms]

/-- **The objective** is the same. -/
theorem ZeroOutside.eval_addObjective (h : P.ZeroOutside y) :
    (P.addObjectiveWith P.unprunedKeys).eval y = P.addObjective.eval y := by
  simp only [addObjectiveWith, addObjective, LinExpr.eval_add, LinExpr.eval_sum, List.map_map,
    Function.comp_def, LinExpr.eval_smul, h.eval_buildEEnd]

/-! ### Feasibility -/

/-- What the declarations of the variables say. -/
private structure Bounded (P : CheckpointOptimizer) (y : MilpVar → ℚ) : Prop where
  r_binary : ∀ b ∈ P.cfg.blocks, y (.r b) = 0 ∨ y (.r b) = 1
  place_binary : ∀ b ∈ P.cfg.blocks, ∀ g ∈ P.state.vmObjs,
    P.place y b (.global g) = 0 ∨ P.place y b (.global g) = 1
  d_nonneg : ∀ b v, (b, v) ∈ P.dKeys → 0 ≤ y (.d b v)
  s_nonneg : ∀ b v, (b, v) ∈ P.sKeys → 0 ≤ y (.s b v)

private theorem binary_bounds {q : ℚ} (h : q = 0 ∨ q = 1) : 0 ≤ q ∧ q ≤ 1 := by
  rcases h with rfl | rfl
  · exact ⟨le_rfl, zero_le_one⟩
  · exact ⟨zero_le_one, le_rfl⟩

private theorem Bounded.place (hy : Bounded P y) {b : NodeId} (hb : b ∈ P.cfg.blocks) {v : Value}
    (hv : v ∈ P.orderedTrackedValues) : 0 ≤ P.place y b v ∧ P.place y b v ≤ 1 := by
  cases v with
  | global g => exact binary_bounds (hy.place_binary b hb g (mem_vmObjs_of_tracked hv))
  | alloca _ => exact ⟨zero_le_one, le_rfl⟩
  | inst _ => exact ⟨zero_le_one, le_rfl⟩

private theorem Bounded.sum_dirty_nonneg (hy : Bounded P y) (b : NodeId) (v : Value) :
    0 ≤ ((P.predecessors b).map fun p => P.dirty y p v).sum := by
  refine List.sum_nonneg fun q hq => ?_
  obtain ⟨p, -, rfl⟩ := List.mem_map.mp hq
  by_cases hk : (p, v) ∈ P.dKeys
  · rw [dirty_of_mem hk]
    exact hy.d_nonneg p v hk
  · exact (dirty_of_not_mem hk).ge

/-- C5 to C7, where the additional variables are zero. -/
private theorem ZeroOutside.forall_constrainDirty (h : P.ZeroOutside y)
    (hy : Bounded P y) :
    (∀ c ∈ P.constrainDirtyPropagationWith P.unprunedKeys, c.Holds y) ↔
      ∀ c ∈ P.constrainDirtyPropagation, c.Holds y := by
  rw [CheckpointOptimizer.forall_constrainDirty, constrainDirtyPropagationWith,
    List.forall_mem_append]
  simp only [List.forall_mem_flatMap, List.forall_mem_map, List.mem_filter, Bool.and_eq_true,
    decide_eq_true_eq, List.forall_mem_cons, List.not_mem_nil, false_imp_iff, implies_true,
      and_true,
    Constraint.holds_le, Constraint.holds_ge, LinExpr.eval_var, LinExpr.eval_sub, LinExpr.eval_add,
    LinExpr.eval_ofRat, Prod.forall, mem_unprunedKeys_d]
  refine and_congr ⟨fun hall b v hk => ?_, fun hall b v hbv => ?_⟩
    ⟨fun hall b c v hedge hk => ?_, fun hall b c hedge v hv => ?_⟩
  · have hmem := mem_unprunedKeys_d.mp (dKeys_subset hk)
    have := hall b v hmem
    rwa [eval_predDirtySumWith b hmem.2, h.sum_dirty b hmem.2] at this
  · rw [eval_predDirtySumWith b hbv.2, h.sum_dirty b hbv.2]
    by_cases hk : (b, v) ∈ P.dKeys
    · exact hall b v hk
    · -- at other nodes the bit is zero and there is no definition
      rw [defCoeff_of_notMem hbv.1 hbv.2 hk, h.d b v (mem_unprunedKeys_d.mpr hbv) hk, zero_add,
        zero_add]
      exact ⟨le_rfl, hy.sum_dirty_nonneg b v,
        sub_nonneg.mpr (binary_bounds (hy.r_binary b hbv.1)).2⟩
  · have hc := mem_unprunedKeys_d.mp (dKeys_subset (dKeys_step hk hedge))
    exact hall b c hedge v ⟨hc.2, ⟨hedge.src_mem, hc.2⟩, hc⟩
  · by_cases hk : (b, v) ∈ P.dKeys
    · exact hall b c v hedge hk
    · have hc : 0 ≤ y (.d c v) := by
        by_cases hkc : (c, v) ∈ P.dKeys
        · exact hy.d_nonneg c v hkc
        · exact (h.d c v (mem_unprunedKeys_d.mpr hv.2.2) hkc).ge
      have hrc := (binary_bounds (hy.r_binary c hv.2.2.1)).1
      rw [h.d b v (mem_unprunedKeys_d.mpr hv.2.1) hk]
      linarith

/-- C9, where the additional variables are zero. -/
private theorem ZeroOutside.forall_constrainSave (h : P.ZeroOutside y)
    (hy : Bounded P y) :
    (∀ c ∈ P.constrainSaveAtRegionBoundaryWith P.unprunedKeys, c.Holds y) ↔
      ∀ c ∈ P.constrainSaveAtRegionBoundary, c.Holds y := by
  rw [CheckpointOptimizer.forall_constrainSave, constrainSaveAtRegionBoundaryWith,
    List.forall_mem_append]
  simp only [List.forall_mem_flatMap, List.cons_append, List.nil_append, List.forall_mem_cons,
    List.forall_mem_map, List.mem_filter, decide_eq_true_eq, and_imp, Prod.forall,
    constrainSaveEdge_holds, Constraint.holds_le, LinExpr.eval_var]
  refine and_congr ⟨fun hall b v hk => ?_, fun hall b v hk => ?_⟩
    ⟨fun hall b c v hedge hkc hk => ?_, fun hall b c hedge a v ha hac hbv => ?_⟩
  · obtain ⟨hle, hsum, hplace⟩ := hall b v (sKeys_subset hk)
    have hv := tracked_of_liveIn (mem_sKeys.mp hk).2.1
    rw [eval_predDirtySumWith b hv, h.sum_dirty b hv] at hsum
    exact ⟨hle, hsum, hplace⟩
  · by_cases hpruned : (b, v) ∈ P.sKeys
    · have hv := tracked_of_liveIn (mem_sKeys.mp hpruned).2.1
      rw [eval_predDirtySumWith b hv, h.sum_dirty b hv]
      exact hall b v hpruned
    · -- a save variable that is zero is bounded by everything that is not negative
      obtain ⟨⟨hb, -⟩, hlive⟩ := mem_unprunedKeys_s.mp hk
      have hv := tracked_of_liveIn hlive
      have hzero := h.s b v hk hpruned
      rw [eval_predDirtySumWith b hv, h.sum_dirty b hv, forall_constrainSaveLePlace, hzero]
      refine ⟨(binary_bounds (hy.r_binary b hb)).1, hy.sum_dirty_nonneg b v, fun _ g hg => ?_,
        fun _ g hg => ?_⟩
      · subst hg
        rw [hzero]
        refine List.sum_nonneg fun q hq => ?_
        obtain ⟨p, hp, rfl⟩ := List.mem_map.mp hq
        exact (hy.place (mem_predecessors.mp hp).src_mem hv).1
      · subst hg
        rw [hzero]
        exact (hy.place hb hv).1
  · exact hall b c hedge c v (sKeys_subset hkc) rfl (dKeys_subset hk)
  · subst hac
    obtain ⟨⟨hb, hentry⟩, hlive⟩ := mem_unprunedKeys_s.mp ha
    by_cases hk : (b, v) ∈ P.dKeys
    · exact hall b a v hedge (mem_sKeys.mpr ⟨⟨hb, hentry⟩, hlive, b, hedge, hk⟩) hk
    · have hsave : 0 ≤ y (.s a v) := by
        by_cases hpruned : (a, v) ∈ P.sKeys
        · exact hy.s_nonneg a v hpruned
        · exact (h.s a v ha hpruned).ge
      have hp := (hy.place (mem_unprunedKeys_d.mp hbv).1 (mem_unprunedKeys_d.mp hbv).2).2
      have hra := (binary_bounds (hy.r_binary a hb)).2
      rw [h.d b v hbv hk]
      linarith

/-- A continuous declaration only gives bounds. -/
private theorem holds_unit {i : MilpVar} :
    (VarDecl.mk i 0 1 .continuous).Holds y ↔ 0 ≤ y i ∧ y i ≤ 1 := by
  simp [VarDecl.Holds]

/-- The unpruned model has the declarations of the pruned one. -/
private theorem addVariables_of_unpruned
    (h : ∀ v ∈ P.addVariablesWith P.unprunedKeys, v.Holds y) : ∀ v ∈ P.addVariables, v.Holds y := by
  simp only [addVariablesWith, addVariables, List.forall_mem_append, List.forall_mem_map,
    Prod.forall] at h ⊢
  obtain ⟨⟨⟨⟨⟨⟨hr, hg⟩, hm⟩, hd⟩, hrHat⟩, hs⟩, he⟩ := h
  exact ⟨⟨⟨⟨⟨⟨hr, hg⟩, hm⟩, fun b v hk => hd b v (dKeys_subset hk)⟩, hrHat⟩,
    fun b v hk => hs b v (sKeys_subset hk)⟩, he⟩

/-- The other declarations hold of zero. -/
private theorem ZeroOutside.addVariablesWith (h : P.ZeroOutside y)
    (hvars : ∀ v ∈ P.addVariables, v.Holds y) :
    ∀ v ∈ P.addVariablesWith P.unprunedKeys, v.Holds y := by
  have hzero : ∀ {i : MilpVar}, y i = 0 → (VarDecl.mk i 0 1 .continuous).Holds y := fun hi =>
    holds_unit.mpr (by rw [hi]; exact ⟨le_rfl, zero_le_one⟩)
  simp only [CheckpointOptimizer.addVariablesWith, addVariables, List.forall_mem_append,
    List.forall_mem_map, Prod.forall] at hvars ⊢
  obtain ⟨⟨⟨⟨⟨⟨hr, hg⟩, hm⟩, hd⟩, hrHat⟩, hs⟩, he⟩ := hvars
  refine ⟨⟨⟨⟨⟨⟨hr, hg⟩, hm⟩, fun b v hk => ?_⟩, hrHat⟩, fun b v hk => ?_⟩, he⟩
  · by_cases hpruned : (b, v) ∈ P.dKeys
    · exact hd b v hpruned
    · exact hzero (h.d b v hk hpruned)
  · by_cases hpruned : (b, v) ∈ P.sKeys
    · exact hs b v hpruned
    · exact hzero (h.s b v hk hpruned)

private theorem bounded_of_addVariables (h : ∀ v ∈ P.addVariables, v.Holds y) : Bounded P y := by
  obtain ⟨hr, hm, hd, -, hs, -⟩ := CheckpointOptimizer.forall_addVariables.mp h
  exact ⟨hr, hm, fun b v hk => (hd b v hk).1, fun b v hk => (hs b v hk).1⟩

/-- The capacity. -/
private theorem ZeroOutside.forall_constrainEnergyWithinCapacity (h : P.ZeroOutside y) :
    (∀ c ∈ P.constrainEnergyWithinCapacityWith P.unprunedKeys, c.Holds y) ↔
      ∀ c ∈ P.constrainEnergyWithinCapacity, c.Holds y := by
  simp only [constrainEnergyWithinCapacityWith, constrainEnergyWithinCapacity,
    List.forall_mem_append, List.forall_mem_map, Constraint.holds_le, LinExpr.eval_add,
    h.eval_buildEEnd]

/-- **Feasible in both models**, where the additional variables are zero. -/
theorem ZeroOutside.feasible_iff (h : P.ZeroOutside y) :
    P.unprunedModel.Feasible y ↔ P.buildModel.Feasible y := by
  have hvars : (∀ v ∈ P.addVariablesWith P.unprunedKeys, v.Holds y) ↔
      ∀ v ∈ P.addVariables, v.Holds y := ⟨addVariables_of_unpruned, h.addVariablesWith⟩
  rw [Model.Feasible, Model.Feasible, unprunedModel, buildModelWith, buildModel, hvars]
  refine and_congr_right fun hdecl => ?_
  have hy := bounded_of_addVariables hdecl
  simp only [addConstraintsWith, addConstraints, List.forall_mem_append, h.forall_constrainDirty hy,
    h.forall_constrainSave hy, h.forall_constrainEnergyWithinCapacity]

/-! ### The additional variables are zero -/

/-- **No dirt without a definition.** Where no definition reaches, the unpruned dirty bits are
zero. -/
private theorem dirty_eq_zero (h : P.unprunedModel.Feasible y)
    (hbase : ∀ b ∈ P.cfg.blocks, 0 < P.energy.eBase b) {v : Value}
    (hv : v ∈ P.orderedTrackedValues) :
    ∀ b ∈ P.cfg.blocks, (b, v) ∉ P.dKeys → y (.d b v) ≤ 0 := by
  obtain ⟨hvars, hconstrs⟩ := h
  have hy := bounded_of_addVariables (addVariables_of_unpruned hvars)
  simp only [unprunedModel, buildModelWith, addConstraintsWith, List.forall_mem_append] at hconstrs
  obtain ⟨⟨⟨⟨-, hdirty⟩, -⟩, -⟩, hprop⟩ := hconstrs.1
  simp only [constrainEnergyPropagation, List.forall_mem_map, Constraint.holds_ge, LinExpr.eval_var,
    LinExpr.eval_sub, LinExpr.eval_add, LinExpr.eval_smul, Prod.forall] at hprop
  simp only [constrainDirtyPropagationWith, List.forall_mem_append, List.forall_mem_flatMap,
    List.forall_mem_cons, Constraint.holds_ge, Constraint.holds_le, LinExpr.eval_var,
    LinExpr.eval_add, LinExpr.eval_sub, LinExpr.eval_ofRat, Prod.forall] at hdirty
  -- a step inside a region raises the accumulated energy
  have hrise : ∀ {p b}, P.Edge p b → y (.r b) = 0 → y (.eAccum p) < y (.eAccum b) := by
    intro p b hedge hr
    have hacc := hprop p b hedge
    rw [hr, mul_zero, sub_zero] at hacc
    calc y (.eAccum p)
        < y (.eAccum p) + P.energy.eBase p := lt_add_of_pos_right _ (hbase p hedge.src_mem)
      _ ≤ y (.eAccum p) + P.blockEnergy y p := by
          gcongr
          exact eBase_le_blockEnergy (hy.place_binary p hedge.src_mem)
      _ ≤ y (.eAccum b) := hacc
  refine Graph.potential_induction (f := fun b => y (.eAccum b)) fun b hb ih hk => ?_
  obtain ⟨-, hsum, hreset, -⟩ := hdirty.1 b v (mem_unprunedKeys_d.mpr ⟨hb, hv⟩)
  rw [defCoeff_of_notMem hb hv hk, zero_add] at hsum hreset
  rw [eval_predDirtySumWith b hv] at hsum
  rcases hy.r_binary b hb with hr | hr
  · -- inside a region the predecessors come first
    refine hsum.trans (list_sum_nonpos fun q hq => ?_)
    obtain ⟨p, hp, rfl⟩ := List.mem_map.mp hq
    have hedge := mem_predecessors.mp hp
    exact ih p hedge.src_mem (hrise hedge hr) fun hpk => hk (dKeys_step hpk hedge)
  · rwa [hr, sub_self] at hreset

/-- **The additional variables are zero** in a feasible assignment of the unpruned model. -/
theorem zeroOutside_of_feasible (h : P.unprunedModel.Feasible y)
    (hbase : ∀ b ∈ P.cfg.blocks, 0 < P.energy.eBase b) : P.ZeroOutside y := by
  have hdzero : ∀ b v, (b, v) ∈ P.unprunedKeys.d → (b, v) ∉ P.dKeys → y (.d b v) = 0 := by
    intro b v hk hpruned
    obtain ⟨hb, hv⟩ := mem_unprunedKeys_d.mp hk
    refine le_antisymm (dirty_eq_zero h hbase hv b hb hpruned) ?_
    have hvars := h.1
    simp only [unprunedModel, buildModelWith, addVariablesWith, List.forall_mem_append,
      List.forall_mem_map, holds_unit, Prod.forall] at hvars
    obtain ⟨⟨⟨⟨-, hd⟩, -⟩, -⟩, -⟩ := hvars
    exact (hd b v hk).1
  refine ⟨hdzero, fun b v hk hpruned => ?_⟩
  obtain ⟨⟨hb, hentry⟩, hlive⟩ := mem_unprunedKeys_s.mp hk
  have hv := tracked_of_liveIn hlive
  have hvars := h.1
  have hconstrs := h.2
  simp only [unprunedModel, buildModelWith, addVariablesWith, List.forall_mem_append,
    List.forall_mem_map, holds_unit, Prod.forall] at hvars
  simp only [unprunedModel, buildModelWith, addConstraintsWith, constrainSaveAtRegionBoundaryWith,
    List.forall_mem_append, List.forall_mem_flatMap, List.forall_mem_cons, List.cons_append,
    Constraint.holds_le, LinExpr.eval_var, Prod.forall] at hconstrs
  obtain ⟨⟨⟨⟨-, -⟩, hs⟩, -⟩, -⟩ := hconstrs.1
  refine le_antisymm ((hs.1 b v hk).2.1.trans ?_) (hvars.1.2 b v hk).1
  -- no predecessor has a dirty variable in the pruned model, so none is dirty
  rw [eval_predDirtySumWith b hv]
  refine list_sum_nonpos fun q hq => ?_
  obtain ⟨p, hp, rfl⟩ := List.mem_map.mp hq
  have hedge := mem_predecessors.mp hp
  exact (hdzero p v (mem_unprunedKeys_d.mpr ⟨hedge.src_mem, hv⟩) fun hpk =>
    hpruned (mem_sKeys.mpr ⟨⟨hb, hentry⟩, hlive, p, hedge, hpk⟩)).le

/-! ### The theorem -/

variable (P) in
/-- An assignment with zero for the variables that only the unpruned model has. -/
def zeroOutside (x : MilpVar → ℚ) : MilpVar → ℚ
  | .d b v => if (b, v) ∈ P.dKeys then x (.d b v) else 0
  | .s b v => if (b, v) ∈ P.sKeys then x (.s b v) else 0
  | i => x i

theorem zeroOutside_spec : P.ZeroOutside (P.zeroOutside x) :=
  ⟨fun _ _ _ hk => if_neg hk, fun _ _ _ hk => if_neg hk⟩

private theorem zeroOutside_d {b : NodeId} {v : Value} (hk : (b, v) ∈ P.dKeys) :
    P.zeroOutside x (.d b v) = x (.d b v) := if_pos hk

private theorem zeroOutside_s {b : NodeId} {v : Value} (hk : (b, v) ∈ P.sKeys) :
    P.zeroOutside x (.s b v) = x (.s b v) := if_pos hk

private theorem eval_mExpr_zeroOutside (b : NodeId) (g : GlobalVariable) :
    (P.mExpr b g).eval (P.zeroOutside x) = (P.mExpr b g).eval x := by
  rw [mExpr]
  split_ifs <;> simp [zeroOutside]

private theorem place_zeroOutside (b : NodeId) (v : Value) :
    P.place (P.zeroOutside x) b v = P.place x b v := by
  cases v with
  | global g => exact eval_mExpr_zeroOutside b g
  | alloca _ => rfl
  | inst _ => rfl

private theorem dirty_zeroOutside (b : NodeId) (v : Value) :
    P.dirty (P.zeroOutside x) b v = P.dirty x b v := by
  by_cases hk : (b, v) ∈ P.dKeys
  · rw [dirty_of_mem hk, dirty_of_mem hk, zeroOutside_d hk]
  · rw [dirty_of_not_mem hk, dirty_of_not_mem hk]

private theorem eval_vmUsage_zeroOutside (b : NodeId) :
    (P.vmUsage b).eval (P.zeroOutside x) = (P.vmUsage b).eval x := by
  simp only [vmUsage, LinExpr.eval_sum, List.map_map, Function.comp_def, LinExpr.eval_smul,
    eval_mExpr_zeroOutside]

private theorem eval_buildEBlk_zeroOutside (b : NodeId) :
    (P.buildEBlk b).eval (P.zeroOutside x) = (P.buildEBlk b).eval x := by
  simp only [eval_buildEBlk, place_zeroOutside]

private theorem eval_buildEStart_zeroOutside (b : NodeId) :
    (P.buildEStart b).eval (P.zeroOutside x) = (P.buildEStart b).eval x := by
  simp only [buildEStart, LinExpr.eval_add, LinExpr.eval_sum, List.map_map, Function.comp_def,
    LinExpr.eval_smul, LinExpr.eval_var]
  rfl

private theorem eval_buildEEnd_zeroOutside (b : NodeId) :
    (P.buildEEnd b).eval (P.zeroOutside x) = (P.buildEEnd b).eval x := by
  simp only [buildEEnd, saveTerms, LinExpr.eval_add, LinExpr.eval_sum, List.map_map,
    Function.comp_def, LinExpr.eval_smul, LinExpr.eval_var]
  congr 2
  refine List.map_congr_left fun k hk => ?_
  rw [zeroOutside_s (List.mem_filter.mp hk).1]

/-- The objective of the pruned model does not look at these variables. -/
private theorem eval_addObjective_zeroOutside :
    P.addObjective.eval (P.zeroOutside x) = P.addObjective.eval x := by
  simp only [addObjective, LinExpr.eval_add, LinExpr.eval_sum, List.map_map, Function.comp_def,
    LinExpr.eval_smul, LinExpr.eval_sub, LinExpr.eval_ofRat, eval_mExpr_zeroOutside,
    eval_buildEStart_zeroOutside, eval_buildEEnd_zeroOutside]

/-- **The pruned model does not look at these variables.** -/
theorem Satisfies.zeroOutside (h : P.Satisfies x) : P.Satisfies (P.zeroOutside x) where
  r_binary := h.r_binary
  place_binary b hb g hg := by
    rw [place_zeroOutside]
    exact h.place_binary b hb g hg
  d_bounds b v hk := by
    rw [zeroOutside_d hk]
    exact h.d_bounds b v hk
  rHat_bounds := h.rHat_bounds
  s_bounds b v hk := by
    rw [zeroOutside_s hk]
    exact h.s_bounds b v hk
  eAccum_bounds := h.eAccum_bounds
  entry := h.entry
  vmCapacity b hb := by
    rw [eval_vmUsage_zeroOutside]
    exact h.vmCapacity b hb
  rHat_le_r := h.rHat_le_r
  rHat_le_place b v hk := by
    rw [place_zeroOutside]
    exact h.rHat_le_place b v hk
  le_rHat b v hk := by
    rw [place_zeroOutside]
    exact h.le_rHat b v hk
  def_le_d b v hk := by
    rw [zeroOutside_d hk]
    exact h.def_le_d b v hk
  d_edge b c v hedge hk := by
    rw [zeroOutside_d hk, zeroOutside_d (dKeys_step hk hedge)]
    exact h.d_edge b c v hedge hk
  d_le_sum b v hk := by
    simp only [zeroOutside_d hk, dirty_zeroOutside]
    exact h.d_le_sum b v hk
  d_reset b v hk := by
    rw [zeroOutside_d hk]
    exact h.d_reset b v hk
  s_le_r b v hk := by
    rw [zeroOutside_s hk]
    exact h.s_le_r b v hk
  s_le_dirty b v hk := by
    simp only [zeroOutside_s hk, dirty_zeroOutside]
    exact h.s_le_dirty b v hk
  s_le_place_fine hc b g hk := by
    simp only [zeroOutside_s hk, place_zeroOutside]
    exact h.s_le_place_fine hc b g hk
  s_le_place_coarse hc b g hk := by
    rw [zeroOutside_s hk, place_zeroOutside]
    exact h.s_le_place_coarse hc b g hk
  le_s b c v hedge hs hd := by
    rw [zeroOutside_d hd, zeroOutside_s hs, place_zeroOutside]
    exact h.le_s b c v hedge hs hd
  init_lb b hb := by
    rw [eval_buildEStart_zeroOutside]
    exact h.init_lb b hb
  init_ub b hb := by
    rw [eval_buildEStart_zeroOutside]
    exact h.init_ub b hb
  propagation b c hedge := by
    rw [eval_buildEBlk_zeroOutside]
    exact h.propagation b c hedge
  edge_capacity b c hedge := by
    rw [eval_buildEBlk_zeroOutside, eval_buildEEnd_zeroOutside]
    exact h.edge_capacity b c hedge
  exit_capacity b hb := by
    rw [eval_buildEBlk_zeroOutside]
    exact h.exit_capacity b hb
  place_edge b c hedge g hg := by
    rw [place_zeroOutside, place_zeroOutside]
    exact h.place_edge b c hedge g hg
  place_merge b c d hb hc hd g hg := by
    rw [place_zeroOutside, place_zeroOutside]
    exact h.place_merge b c d hb hc hd g hg

/-- The region starts and the placements. -/
def placementVars : Set MilpVar :=
  {i | (∃ b, i = .r b) ∨ (∃ g, i = .mGlobal g) ∨ ∃ b v, i = .m b v}

variable (P) in
/-- **Pruning is lossless.** If every node costs some energy, a choice of region starts and
placements extends to a feasible assignment of the pruned model if and only if it extends to one of
the unpruned model, at the same objective values; in particular the least ones agree. -/
theorem pruning_lossless (hbase : ∀ b ∈ P.cfg.blocks, 0 < P.energy.eBase b) (x : MilpVar → ℚ) :
    ((∃ y, P.buildModel.Feasible y ∧ Set.EqOn y x placementVars) ↔
      ∃ y, P.unprunedModel.Feasible y ∧ Set.EqOn y x placementVars) ∧
    P.buildModel.values placementVars x = P.unprunedModel.values placementVars x ∧
    ∀ q, IsLeast (P.buildModel.values placementVars x) q ↔
      IsLeast (P.unprunedModel.values placementVars x) q := by
  have hvalues : P.buildModel.values placementVars x = P.unprunedModel.values placementVars x := by
    refine subset_antisymm ?_ ?_
    · refine Model.values_subset P.zeroOutside (fun y hy => ?_) (fun y _ => ?_) fun y _ => ?_
      · refine zeroOutside_spec.feasible_iff.mpr ?_
        exact feasible_iff.mpr (feasible_iff.mp hy).zeroOutside
      · rintro i (⟨b, rfl⟩ | ⟨g, rfl⟩ | ⟨b, v, rfl⟩) <;> rfl
      · exact zeroOutside_spec.eval_addObjective.trans eval_addObjective_zeroOutside
    · refine Model.values_subset id (fun y hy => ?_) (fun y _ => Set.eqOn_refl _ _) fun y hy => ?_
      · exact (zeroOutside_of_feasible hy hbase).feasible_iff.mp hy
      · exact (zeroOutside_of_feasible hy hbase).eval_addObjective.symm
  have hextends : ∀ M : Model MilpVar, (∃ y, M.Feasible y ∧ Set.EqOn y x placementVars) ↔
      (M.values placementVars x).Nonempty := fun M =>
    ⟨fun ⟨y, hy, hyx⟩ => ⟨_, y, hy, hyx, rfl⟩, fun ⟨_, y, hy, hyx, _⟩ => ⟨y, hy, hyx⟩⟩
  refine ⟨?_, hvalues, fun q => by rw [hvalues]⟩
  rw [hextends, hextends, hvalues]

/-- In the loop example the unpruned model has an extension of the placement as well. -/
theorem pruning_lossless_loop :
    ∃ y, loopOptimizer.unprunedModel.Feasible y ∧ Set.EqOn y loopAssignment placementVars := by
  refine (pruning_lossless loopOptimizer (by decide +kernel) loopAssignment).1.mp ?_
  exact ⟨loopAssignment, loopAssignment_feasible, Set.eqOn_refl _ _⟩

end Bao.Milp.CheckpointOptimizer
