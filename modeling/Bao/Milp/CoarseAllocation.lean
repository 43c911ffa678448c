import Bao.Milp.EnergySafety

/-!
# Coarse and fine allocation

With coarse allocation every global has one placement; otherwise it has one at every node. The
builder makes different constraints in the two modes. Copying the placement of a global to every
node (`copyPlacements`) takes the feasible assignments of the coarse model to feasible assignments
of the fine one with the same objective, so the optimum of the fine model is no worse
(`coarse_embeds_in_fine`).
-/

namespace Bao.Milp.CheckpointOptimizer

variable (P : CheckpointOptimizer) {x : MilpVar → ℚ}

/-- The same input with coarse allocation. -/
def coarse : CheckpointOptimizer := { P with coarseAllocation := true }

/-- The same input with fine allocation. -/
def fine : CheckpointOptimizer := { P with coarseAllocation := false }

/-- Every node gets the placement that a global has in the coarse model. -/
def copyPlacements (x : MilpVar → ℚ) : MilpVar → ℚ
  | .m _ (.global g) => x (.mGlobal g)
  | i => x i

variable {P}

theorem place_copyPlacements (b : NodeId) (v : Value) :
    P.fine.place (copyPlacements x) b v = P.coarse.place x b v := by
  cases v with
  | global g => simp [place, mExpr, fine, coarse, copyPlacements]
  | alloca _ => rfl
  | inst _ => rfl

theorem eval_mExpr_copyPlacements (b : NodeId) (g : GlobalVariable) :
    (P.fine.mExpr b g).eval (copyPlacements x) = (P.coarse.mExpr b g).eval x :=
  place_copyPlacements b (.global g)

theorem eval_vmUsage_copyPlacements (b : NodeId) :
    (P.fine.vmUsage b).eval (copyPlacements x) = (P.coarse.vmUsage b).eval x := by
  simp only [vmUsage, LinExpr.eval_sum, List.map_map, Function.comp_def, LinExpr.eval_smul,
    eval_mExpr_copyPlacements]
  rfl

theorem eval_buildEBlk_copyPlacements (b : NodeId) :
    (P.fine.buildEBlk b).eval (copyPlacements x) = (P.coarse.buildEBlk b).eval x := by
  simp only [eval_buildEBlk, place_copyPlacements]
  rfl

/-- The boundary costs do not mention placements. -/
theorem eval_buildEStart_copyPlacements (b : NodeId) :
    (P.fine.buildEStart b).eval (copyPlacements x) = (P.coarse.buildEStart b).eval x := by
  simp only [buildEStart, LinExpr.eval_add, LinExpr.eval_sum, List.map_map, Function.comp_def,
    LinExpr.eval_smul, LinExpr.eval_var]
  rfl

theorem eval_buildEEnd_copyPlacements (b : NodeId) :
    (P.fine.buildEEnd b).eval (copyPlacements x) = (P.coarse.buildEEnd b).eval x := by
  simp only [buildEEnd, saveTerms, LinExpr.eval_add, LinExpr.eval_sum, List.map_map,
    Function.comp_def, LinExpr.eval_smul, LinExpr.eval_var]
  rfl

/-- **The objective** is the same. -/
theorem eval_addObjective_copyPlacements :
    P.fine.addObjective.eval (copyPlacements x) = P.coarse.addObjective.eval x := by
  simp only [addObjective, LinExpr.eval_add, LinExpr.eval_sum, List.map_map, Function.comp_def,
    LinExpr.eval_smul, LinExpr.eval_sub, LinExpr.eval_ofRat, eval_mExpr_copyPlacements,
    eval_buildEStart_copyPlacements, eval_buildEEnd_copyPlacements]
  rfl

/-- One of several equal placements is at most their sum. -/
private theorem le_sum_replicate {l : List NodeId} (hl : l ≠ []) {q : ℚ} (hq : 0 ≤ q) :
    q ≤ (l.map fun _ => q).sum := by
  cases l with
  | nil => exact absurd rfl hl
  | cons b l =>
    rw [List.map_cons, List.sum_cons]
    exact le_add_of_nonneg_right (List.sum_nonneg fun r hr => by
      obtain ⟨-, -, rfl⟩ := List.mem_map.mp hr
      exact hq)

/-- **What the coarse model asks, the fine model asks of the copy.** -/
theorem Satisfies.copyPlacements (h : P.coarse.Satisfies x) :
    P.fine.Satisfies (copyPlacements x) where
  r_binary := h.r_binary
  place_binary b hb g hg := by
    rw [place_copyPlacements]
    exact h.place_binary b hb g hg
  d_bounds := h.d_bounds
  rHat_bounds := h.rHat_bounds
  s_bounds := h.s_bounds
  eAccum_bounds := h.eAccum_bounds
  entry := h.entry
  vmCapacity b hb := by
    rw [eval_vmUsage_copyPlacements]
    exact h.vmCapacity b hb
  rHat_le_r := h.rHat_le_r
  rHat_le_place b v hk := by
    rw [place_copyPlacements]
    exact h.rHat_le_place b v hk
  le_rHat b v hk := by
    rw [place_copyPlacements]
    exact h.le_rHat b v hk
  def_le_d := h.def_le_d
  d_edge := h.d_edge
  d_le_sum := h.d_le_sum
  d_reset := h.d_reset
  s_le_r := h.s_le_r
  s_le_dirty := h.s_le_dirty
  s_le_place_fine _ b g hk := by
    -- a node with a save has a predecessor, and all predecessors have the one placement
    obtain ⟨⟨hb, -⟩, hlive, p, hedge, -⟩ := mem_sKeys.mp hk
    have hne : P.fine.predecessors b ≠ [] := List.ne_nil_of_mem (mem_predecessors.mpr hedge)
    have hg := mem_vmObjs_of_tracked (tracked_of_liveIn hlive)
    have hnonneg : 0 ≤ P.coarse.place x b (.global g) := by
      rcases h.place_binary b hb g hg with h0 | h1
      · exact h0.ge
      · exact h1 ▸ zero_le_one
    have hsame : ∀ p, P.fine.place (CheckpointOptimizer.copyPlacements x) p (.global g) =
        P.coarse.place x b (.global g) := fun p => by
      rw [place_copyPlacements]
      exact place_coarse rfl p b _
    simp only [hsame]
    exact (h.s_le_place_coarse rfl b g hk).trans (le_sum_replicate hne hnonneg)
  s_le_place_coarse hc := absurd hc (by simp [fine])
  le_s b c v hedge hs hd := by
    rw [place_copyPlacements]
    exact h.le_s b c v hedge hs hd
  init_lb b hb := by
    rw [eval_buildEStart_copyPlacements]
    exact h.init_lb b hb
  init_ub b hb := by
    rw [eval_buildEStart_copyPlacements]
    exact h.init_ub b hb
  propagation b c hedge := by
    rw [eval_buildEBlk_copyPlacements]
    exact h.propagation b c hedge
  edge_capacity b c hedge := by
    rw [eval_buildEBlk_copyPlacements, eval_buildEEnd_copyPlacements]
    exact h.edge_capacity b c hedge
  exit_capacity b hb := by
    rw [eval_buildEBlk_copyPlacements]
    exact h.exit_capacity b hb
  place_edge b c hedge g hg := by
    rw [place_copyPlacements, place_copyPlacements]
    exact h.place_edge b c hedge g hg
  place_merge b c d hb hc hd g hg := by
    rw [place_copyPlacements, place_copyPlacements]
    exact h.place_merge b c d hb hc hd g hg

variable (P) in
/-- **Coarse allocation embeds in fine allocation.** Copying the placements keeps feasibility and
the objective. So the fine optimum is at most the coarse one, and what is infeasible with fine
allocation is infeasible with coarse allocation. -/
theorem coarse_embeds_in_fine :
    (∀ x, P.coarse.buildModel.Feasible x → P.fine.buildModel.Feasible (copyPlacements x) ∧
      P.fine.buildModel.objective.eval (copyPlacements x) =
        P.coarse.buildModel.objective.eval x) ∧
    (∀ x q q', IsLeast (P.fine.buildModel.values ∅ x) q →
      IsLeast (P.coarse.buildModel.values ∅ x) q' → q ≤ q') ∧
    ((¬∃ x, P.fine.buildModel.Feasible x) → ¬∃ x, P.coarse.buildModel.Feasible x) := by
  have hcopy : ∀ x, P.coarse.buildModel.Feasible x →
      P.fine.buildModel.Feasible (copyPlacements x) := fun x hx =>
    feasible_iff.mpr (feasible_iff.mp hx).copyPlacements
  have hobjective : ∀ x, P.fine.buildModel.objective.eval (copyPlacements x) =
      P.coarse.buildModel.objective.eval x := fun x => eval_addObjective_copyPlacements
  refine ⟨fun x hx => ⟨hcopy x hx, hobjective x⟩, fun x q q' hq hq' => ?_, fun hno => ?_⟩
  · refine hq.2 (Model.values_subset copyPlacements hcopy (fun y _ => ?_) (fun y _ => hobjective y)
      hq'.1)
    exact Set.eqOn_empty _ _
  · rintro ⟨x, hx⟩
    exact hno ⟨_, hcopy x hx⟩

/-- The placement of the loop example is one for each global, so its copy is feasible with fine
allocation. -/
theorem coarse_embeds_in_fine_loop :
    loopOptimizer.coarse.buildModel.Feasible loopAssignment ∧
      loopOptimizer.fine.buildModel.Feasible (copyPlacements loopAssignment) := by
  have hcoarse : loopOptimizer.coarse.buildModel.Feasible loopAssignment := by decide +kernel
  exact ⟨hcoarse, ((coarse_embeds_in_fine loopOptimizer).1 loopAssignment hcoarse).1⟩

end Bao.Milp.CheckpointOptimizer
