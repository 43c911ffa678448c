import Bao.Graph.HeaviestWalk
import Bao.Milp.Exactness

/-!
# The model loses no safe placement

`energy_safety` says that a feasible assignment is safe. This file is the converse. Given binary
region starts and placements that satisfy C1, C2, C14 and C15 (`Placement`), set the relaxed
variables to their exact values (`exactRelaxed`): `rHat` to the conjunction of `r` and `m`, `d` to
the indicator of a definition inside the current region, `s` to the indicator of a needed save.
If every region path then fits in the capacity (`RegionsFit`), the assignment extends to a
feasible one.

The accumulated energy of a node is the weight of a **heaviest region walk** to it. There may be
infinitely many region walks; that their weights are bounded makes a heaviest one exist
(`Graph.WalkTo.exists_heaviest`), and with it the big-M terms of C10 and C11 are slack exactly
where they should be.
-/

namespace Bao.Milp.CheckpointOptimizer

open Bao.Graph (WalkTo walkWeight walkWeight_snoc)

variable {P : CheckpointOptimizer} {x : MilpVar → ℚ}

/-- Binary region starts and placements that satisfy C1, C2, C14 and C15. -/
structure Placement (P : CheckpointOptimizer) (x : MilpVar → ℚ) : Prop where
  r_binary : ∀ b ∈ P.cfg.blocks, x (.r b) = 0 ∨ x (.r b) = 1
  place_binary : ∀ b ∈ P.cfg.blocks, ∀ g ∈ P.state.vmObjs,
    P.place x b (.global g) = 0 ∨ P.place x b (.global g) = 1
  entry : ∀ c ∈ P.constrainEntryAsRegionStart, c.Holds x
  vmCapacity : ∀ c ∈ P.constrainVMCapacity, c.Holds x
  propagation : ∀ c ∈ P.constrainPlacementPropagation, c.Holds x

open Classical in
/-- **The relaxed variables at their exact values**, read off `r` and `m`. -/
noncomputable def exactRelaxed (P : CheckpointOptimizer) (x : MilpVar → ℚ) : MilpVar → ℚ
  | .rHat b v => if x (.r b) = 1 ∧ P.place x b v = 1 then 1 else 0
  | .d b v => if P.DirtyInRegion x b v then 1 else 0
  | .s b v =>
    if x (.r b) = 1 ∧ ∃ p, P.Edge p b ∧ P.DirtyInRegion x p v ∧ P.place x p v = 1 then 1 else 0
  | i => x i

/-- An assignment with its accumulated energies replaced. -/
def withAccum (x : MilpVar → ℚ) (acc : NodeId → ℚ) : MilpVar → ℚ
  | .eAccum b => acc b
  | i => x i

/-- **Every region path fits**: its start-up cost alone, with the block energies and the end
energy of the next node along every continuing edge, and with the block energies at an exit. -/
structure RegionsFit (P : CheckpointOptimizer) (y : MilpVar → ℚ) : Prop where
  start : ∀ a ∈ P.cfg.blocks, y (.r a) = 1 →
    (P.buildEStart a).eval y ≤ P.energy.params.capacity
  edge : ∀ a mid c, List.IsChain P.Edge (a :: (mid ++ [c])) → y (.r a) = 1 →
    (∀ b ∈ mid, y (.r b) = 0) →
    (P.buildEStart a).eval y + ((a :: mid).map fun b => (P.buildEBlk b).eval y).sum +
      (P.buildEEnd c).eval y ≤ P.energy.params.capacity
  exit : ∀ a rest, List.IsChain P.Edge (a :: rest) → y (.r a) = 1 →
    (∀ b ∈ rest, y (.r b) = 0) →
    (a :: rest).getLast (List.cons_ne_nil a rest) ∈ P.cfg.exitBlocks →
    (P.buildEStart a).eval y + ((a :: rest).map fun b => (P.buildEBlk b).eval y).sum ≤
      P.energy.params.capacity

/-! ### Energies do not read the accumulated energy -/

section WithAccum

variable {acc : NodeId → ℚ}

theorem place_exactRelaxed (b : NodeId) (v : Value) :
    P.place (P.exactRelaxed x) b v = P.place x b v := by
  cases v with
  | global g => by_cases hc : P.coarseAllocation = true <;> simp [place, mExpr, hc, exactRelaxed]
  | alloca _ => rfl
  | inst _ => rfl

theorem place_withAccum (b : NodeId) (v : Value) :
    P.place (withAccum x acc) b v = P.place x b v := by
  cases v with
  | global g => by_cases hc : P.coarseAllocation = true <;> simp [place, mExpr, hc, withAccum]
  | alloca _ => rfl
  | inst _ => rfl

theorem eval_buildEBlk_withAccum (b : NodeId) :
    (P.buildEBlk b).eval (withAccum x acc) = (P.buildEBlk b).eval x := by
  rw [eval_buildEBlk, eval_buildEBlk]
  simp only [place_withAccum]

theorem eval_buildEStart_withAccum {b : NodeId} (hb : b ∈ P.cfg.blocks) :
    (P.buildEStart b).eval (withAccum x acc) = (P.buildEStart b).eval x := by
  rw [eval_buildEStart hb, eval_buildEStart hb]
  rfl

theorem eval_buildEEnd_withAccum {b : NodeId} (hb : b ∈ P.cfg.blocks) :
    (P.buildEEnd b).eval (withAccum x acc) = (P.buildEEnd b).eval x := by
  rw [eval_buildEEnd hb, eval_buildEEnd hb]
  rfl

end WithAccum

/-! ### The exact values satisfy C4–C9 -/

section Exact

variable {b : NodeId} {v : Value}

theorem exactRelaxed_d_bounds : 0 ≤ P.exactRelaxed x (.d b v) ∧ P.exactRelaxed x (.d b v) ≤ 1 := by
  simp only [exactRelaxed]
  split_ifs <;> norm_num

theorem exactRelaxed_s_bounds : 0 ≤ P.exactRelaxed x (.s b v) ∧ P.exactRelaxed x (.s b v) ≤ 1 := by
  simp only [exactRelaxed]
  split_ifs <;> norm_num

theorem exactRelaxed_rHat_bounds :
    0 ≤ P.exactRelaxed x (.rHat b v) ∧ P.exactRelaxed x (.rHat b v) ≤ 1 := by
  simp only [exactRelaxed]
  split_ifs <;> norm_num

theorem exactRelaxed_d_eq_one (h : P.DirtyInRegion x b v) : P.exactRelaxed x (.d b v) = 1 :=
  if_pos h

theorem dirty_exactRelaxed_nonneg : 0 ≤ P.dirty (P.exactRelaxed x) b v := by
  rw [dirty]
  split_ifs
  · exact exactRelaxed_d_bounds.1
  · exact le_rfl

theorem defCoeff_nonneg : 0 ≤ P.defCoeff b v := by
  rw [defCoeff]
  split_ifs <;> norm_num

theorem dirtySum_nonneg :
    ∀ q ∈ (P.predecessors b).map fun p => P.dirty (P.exactRelaxed x) p v, 0 ≤ q := by
  intro q hq
  obtain ⟨p, -, rfl⟩ := List.mem_map.mp hq
  exact dirty_exactRelaxed_nonneg

/-- The dirty sum of a node is at least `1` if some predecessor is dirty. -/
theorem one_le_dirtySum {p : NodeId} (hedge : P.Edge p b) (hk : (p, v) ∈ P.dKeys)
    (hd : P.DirtyInRegion x p v) :
    1 ≤ ((P.predecessors b).map fun p => P.dirty (P.exactRelaxed x) p v).sum := by
  have hle := List.single_le_sum dirtySum_nonneg (P.dirty (P.exactRelaxed x) p v)
    (List.mem_map_of_mem (mem_predecessors.mpr hedge))
  rwa [dirty_of_mem hk, exactRelaxed_d_eq_one hd] at hle

/-- A value that is dirty at a node has a dirty variable there. -/
theorem DirtyInRegion.mem_dKeys (hb : b ∈ P.cfg.blocks) (hv : v ∈ P.orderedTrackedValues)
    (h : P.DirtyInRegion x b v) : (b, v) ∈ P.dKeys := by
  obtain ⟨a, hdef, hab⟩ := h
  exact dKeys_of_regionPath (mem_dKeys_of_isDef (regionPath_src_mem hb hab) hv hdef) hab

/-- A dirty value is defined at the node itself or reaches it inside the region. -/
theorem DirtyInRegion.cases (h : P.DirtyInRegion x b v) :
    P.state.isDef b v = true ∨
      x (.r b) = 0 ∧ ∃ p, P.Edge p b ∧ P.DirtyInRegion x p v := by
  obtain ⟨a, hdef, hab⟩ := h
  rcases Relation.ReflTransGen.cases_tail hab with rfl | ⟨p, hap, hstep⟩
  · exact .inl hdef
  · exact .inr ⟨hstep.2, p, hstep.1, a, hdef, hap⟩

theorem exactRelaxed_le_sum (hk : (b, v) ∈ P.dKeys) : P.exactRelaxed x (.d b v) ≤
    P.defCoeff b v + ((P.predecessors b).map fun p => P.dirty (P.exactRelaxed x) p v).sum := by
  have hsum : 0 ≤ ((P.predecessors b).map fun p => P.dirty (P.exactRelaxed x) p v).sum :=
    List.sum_nonneg dirtySum_nonneg
  have hcoeff := defCoeff_nonneg (P := P) (b := b) (v := v)
  by_cases hd : P.DirtyInRegion x b v
  · rw [exactRelaxed_d_eq_one hd]
    rcases hd.cases with hdef | ⟨-, p, hedge, hp⟩
    · rw [defCoeff, if_pos hdef]
      linarith
    · have hone := one_le_dirtySum hedge (hp.mem_dKeys hedge.src_mem (mem_dKeys.mp hk).2.1) hp
      linarith
  · rw [show P.exactRelaxed x (.d b v) = 0 from if_neg hd]
    linarith

theorem exactRelaxed_reset (hr : x (.r b) = 0 ∨ x (.r b) = 1) :
    P.exactRelaxed x (.d b v) ≤ P.defCoeff b v + (1 - x (.r b)) := by
  have hcoeff := defCoeff_nonneg (P := P) (b := b) (v := v)
  by_cases hd : P.DirtyInRegion x b v
  · rw [exactRelaxed_d_eq_one hd]
    rcases hd.cases with hdef | ⟨hzero, -⟩
    · rw [defCoeff, if_pos hdef]
      rcases hr with h | h <;> rw [h] <;> norm_num
    · rw [hzero]
      linarith
  · rw [show P.exactRelaxed x (.d b v) = 0 from if_neg hd]
    rcases hr with h | h <;> rw [h] <;> linarith

/-- C5: a definition makes the dirty bit `1`. -/
theorem defCoeff_le_exactRelaxed : P.defCoeff b v ≤ P.exactRelaxed x (.d b v) := by
  rw [defCoeff]
  split_ifs with hdef
  · rw [exactRelaxed_d_eq_one ⟨b, hdef, .refl⟩]
  · exact exactRelaxed_d_bounds.1

/-- C6: dirtiness survives an edge that stays in the region. -/
theorem exactRelaxed_edge {c : NodeId} (hedge : P.Edge b c)
    (hr : x (.r c) = 0 ∨ x (.r c) = 1) :
    P.exactRelaxed x (.d b v) - x (.r c) ≤ P.exactRelaxed x (.d c v) := by
  have hb := exactRelaxed_d_bounds (P := P) (x := x) (b := b) (v := v)
  have hc := exactRelaxed_d_bounds (P := P) (x := x) (b := c) (v := v)
  rcases hr with hr | hr
  · by_cases hd : P.DirtyInRegion x b v
    · obtain ⟨a, hdef, hab⟩ := hd
      rw [exactRelaxed_d_eq_one (b := c) ⟨a, hdef, hab.tail ⟨hedge, hr⟩⟩, hr]
      linarith
    · rw [show P.exactRelaxed x (.d b v) = 0 from if_neg hd, hr]
      linarith
  · rw [hr]
    linarith

/-- C9: a save variable is at least `d + m + r - 2`. -/
theorem le_exactRelaxed_s {c : NodeId} (hedge : P.Edge b c)
    (hplace : P.place x b v = 0 ∨ P.place x b v = 1) (hr : x (.r c) = 0 ∨ x (.r c) = 1) :
    P.exactRelaxed x (.d b v) + P.place x b v + x (.r c) - 2 ≤ P.exactRelaxed x (.s c v) := by
  have hd := exactRelaxed_d_bounds (P := P) (x := x) (b := b) (v := v)
  have hs := exactRelaxed_s_bounds (P := P) (x := x) (b := c) (v := v)
  rcases hplace with hp | hp <;> rcases hr with hr | hr
  · rw [hp, hr]
    linarith
  · rw [hp, hr]
    linarith
  · rw [hp, hr]
    linarith
  · by_cases hdirty : P.DirtyInRegion x b v
    · have hone : P.exactRelaxed x (.s c v) = 1 := if_pos ⟨hr, b, hedge, hdirty, hp⟩
      rw [hone, hp, hr]
      linarith
    · rw [show P.exactRelaxed x (.d b v) = 0 from if_neg hdirty, hp, hr]
      linarith

/-- C9': a save is made at a region start, of a value some predecessor leaves dirty in VM. -/
theorem exactRelaxed_s_cases : P.exactRelaxed x (.s b v) = 0 ∨
    P.exactRelaxed x (.s b v) = 1 ∧ x (.r b) = 1 ∧
      ∃ p, P.Edge p b ∧ P.DirtyInRegion x p v ∧ P.place x p v = 1 := by
  by_cases h : x (.r b) = 1 ∧ ∃ p, P.Edge p b ∧ P.DirtyInRegion x p v ∧ P.place x p v = 1
  · exact .inr ⟨if_pos h, h⟩
  · exact .inl (if_neg h)

theorem exactRelaxed_s_le_r (hr : x (.r b) = 0 ∨ x (.r b) = 1) :
    P.exactRelaxed x (.s b v) ≤ x (.r b) := by
  rcases exactRelaxed_s_cases (P := P) (x := x) (b := b) (v := v) with h | ⟨h, hone, -⟩
  · rw [h]
    rcases hr with hr | hr <;> norm_num [hr]
  · rw [h, hone]

end Exact

/-! ### Region walks -/

/-- The region walks to a node: from a region start, along edges that start no region. -/
def RegionWalk (P : CheckpointOptimizer) (x : MilpVar → ℚ) : List NodeId → NodeId → Prop :=
  WalkTo (P.RegionStep x) fun a => x (.r a) = 1

/-- The energy spent when a region walk arrives at a node. -/
def arrivalEnergy (P : CheckpointOptimizer) (y : MilpVar → ℚ) : List NodeId → NodeId → ℚ :=
  walkWeight (fun a => (P.buildEStart a).eval y) fun a => (P.buildEBlk a).eval y

theorem isChain_regionStep {a : NodeId} {l : List NodeId} :
    List.IsChain (P.RegionStep x) (a :: l) ↔
      List.IsChain P.Edge (a :: l) ∧ ∀ b ∈ l, x (.r b) = 0 := by
  induction l generalizing a with
  | nil => simp
  | cons b l ih =>
    rw [List.isChain_cons_cons, List.isChain_cons_cons, ih, List.forall_mem_cons, RegionStep]
    tauto

/-- Every node reachable from the entry is reached by a region walk. -/
theorem exists_regionWalk (hentry : x (.r P.cfg.entryBlock) = 1)
    (hbin : ∀ b ∈ P.cfg.blocks, x (.r b) = 0 ∨ x (.r b) = 1) {b : NodeId}
    (hb : Relation.ReflTransGen P.Edge P.cfg.entryBlock b) : ∃ l, P.RegionWalk x l b := by
  induction hb with
  | refl => exact ⟨[], WalkTo.nil hentry⟩
  | @tail c d _ hedge ih =>
    rcases hbin d hedge.dst_mem with hr | hr
    · obtain ⟨l, hl⟩ := ih
      exact ⟨l ++ [c], hl.snoc ⟨hedge, hr⟩⟩
    · exact ⟨[], WalkTo.nil hr⟩

/-- The only region walk to a region start is the empty one. -/
theorem RegionWalk.eq_nil {l : List NodeId} {b : NodeId} (h : P.RegionWalk x l b)
    (hr : x (.r b) = 1) : l = [] := by
  cases l with
  | nil => rfl
  | cons a l =>
    have hzero := (isChain_regionStep.mp h.chain).2 b (by simp)
    rw [hr] at hzero
    exact absurd hzero one_ne_zero

section Bounds

variable {y : MilpVar → ℚ} {l : List NodeId} {b c : NodeId}

/-- A region walk that leaves its last node along an edge fits, with the end energy of the next
node. -/
theorem RegionsFit.edge_le (h : P.RegionsFit y) (hw : P.RegionWalk y l b) (he : P.Edge b c) :
    P.arrivalEnergy y l b + (P.buildEBlk b).eval y + (P.buildEEnd c).eval y ≤
      P.energy.params.capacity := by
  cases l with
  | nil =>
    have hle := h.edge b [] c (List.isChain_pair.mpr he) hw.head (by simp)
    simpa [arrivalEnergy, walkWeight] using hle
  | cons a l =>
    obtain ⟨hchain, hr⟩ := isChain_regionStep.mp hw.chain
    have hchain' : List.IsChain P.Edge (a :: (l ++ [b] ++ [c])) := by
      rw [← List.cons_append, List.isChain_append]
      refine ⟨hchain, List.isChain_singleton c, ?_⟩
      intro u hu w hw
      rw [← List.cons_append, List.getLast?_concat] at hu
      obtain rfl : b = u := by simpa using hu
      obtain rfl : c = w := by simpa using hw
      exact he
    have hle := h.edge a (l ++ [b]) c hchain' hw.head hr
    simp only [List.map_cons, List.map_append, List.sum_cons, List.sum_append, List.map_nil,
      List.sum_nil, add_zero] at hle
    simp only [arrivalEnergy, walkWeight, List.cons_append, List.head_cons, List.map_cons,
      List.sum_cons]
    linarith

/-- A region walk that ends at an exit fits. -/
theorem RegionsFit.exit_le (h : P.RegionsFit y) (hw : P.RegionWalk y l b)
    (hb : b ∈ P.cfg.exitBlocks) :
    P.arrivalEnergy y l b + (P.buildEBlk b).eval y ≤ P.energy.params.capacity := by
  cases l with
  | nil =>
    have hle := h.exit b [] (List.isChain_singleton b) hw.head (by simp) hb
    simpa [arrivalEnergy, walkWeight] using hle
  | cons a l =>
    obtain ⟨hchain, hr⟩ := isChain_regionStep.mp hw.chain
    have hle := h.exit a (l ++ [b]) hchain hw.head hr (by simpa using hb)
    simp only [List.map_cons, List.map_append, List.sum_cons, List.sum_append, List.map_nil,
      List.sum_nil, add_zero] at hle
    simp only [arrivalEnergy, walkWeight, List.cons_append, List.head_cons, List.map_cons,
      List.sum_cons]
    linarith

end Bounds

/-! ### Energies of a placement -/

section Energies

variable {b : NodeId}

theorem Placement.r_entry (h : P.Placement x) : x (.r P.cfg.entryBlock) = 1 :=
  forall_constrainEntry.mp h.entry

theorem Placement.r_nonneg (h : P.Placement x) (hb : b ∈ P.cfg.blocks) : 0 ≤ x (.r b) := by
  rcases h.r_binary b hb with hr | hr <;> norm_num [hr]

/-- A placement is `0` or `1` at every pair with a dirty variable. -/
theorem Placement.place_zero_or_one (h : P.Placement x) {v : Value} (hk : (b, v) ∈ P.dKeys) :
    P.place x b v = 0 ∨ P.place x b v = 1 := by
  obtain ⟨hb, hv, -⟩ := mem_dKeys.mp hk
  cases v with
  | global g => exact h.place_binary b hb g (mem_vmObjs_of_tracked hv)
  | alloca _ => exact .inr rfl
  | inst _ => exact .inr rfl

theorem Placement.eStart_nonneg (h : P.Placement x) (hb : b ∈ P.cfg.blocks) :
    0 ≤ (P.buildEStart b).eval (P.exactRelaxed x) := by
  rw [eval_buildEStart hb]
  have hr : 0 ≤ P.exactRelaxed x (.r b) := h.r_nonneg hb
  refine add_nonneg (add_nonneg (mul_nonneg P.energy.ePro_nonneg hr) ?_) ?_
  · refine List.sum_nonneg fun q hq => ?_
    obtain ⟨g, -, rfl⟩ := List.mem_map.mp hq
    exact mul_nonneg (P.energy.eRestore_nonneg _) exactRelaxed_rHat_bounds.1
  · refine List.sum_nonneg fun q hq => ?_
    obtain ⟨v, -, rfl⟩ := List.mem_map.mp hq
    exact mul_nonneg (P.energy.eRestore_nonneg _) hr

/-- A node that starts no region has no start-up cost. -/
theorem eStart_eq_zero (hb : b ∈ P.cfg.blocks) (hr : x (.r b) = 0) :
    (P.buildEStart b).eval (P.exactRelaxed x) = 0 := by
  have hr' : P.exactRelaxed x (.r b) = 0 := hr
  have hrHat : ∀ v, P.exactRelaxed x (.rHat b v) = 0 := by
    intro v
    refine if_neg fun hone => ?_
    rw [hr] at hone
    exact zero_ne_one hone.1
  rw [eval_buildEStart hb, hr']
  simp [hrHat]

theorem Placement.eEnd_nonneg (h : P.Placement x) (hb : b ∈ P.cfg.blocks) :
    0 ≤ (P.buildEEnd b).eval (P.exactRelaxed x) := by
  rw [eval_buildEEnd hb]
  refine add_nonneg (mul_nonneg P.energy.eEpi_nonneg (h.r_nonneg hb)) ?_
  refine List.sum_nonneg fun q hq => ?_
  obtain ⟨v, -, rfl⟩ := List.mem_map.mp hq
  exact mul_nonneg (P.energy.eSave_nonneg _) exactRelaxed_s_bounds.1

theorem Placement.eBlk_nonneg (h : P.Placement x) (hb : b ∈ P.cfg.blocks) :
    0 ≤ (P.buildEBlk b).eval (P.exactRelaxed x) := by
  rw [eval_buildEBlk]
  refine add_nonneg (P.energy.eBase_nonneg b) (List.sum_nonneg fun q hq => ?_)
  obtain ⟨g, hg, rfl⟩ := List.mem_map.mp hq
  rw [place_exactRelaxed]
  refine mul_nonneg (P.energy.eNvm_nonneg b g) ?_
  rcases h.place_binary b hb g hg with hp | hp <;> norm_num [hp]

variable {l : List NodeId}

/-- The nodes of a region walk are nodes of the graph. -/
theorem RegionWalk.mem_blocks (hb : b ∈ P.cfg.blocks) (hw : P.RegionWalk x l b) :
    ∀ a ∈ l ++ [b], a ∈ P.cfg.blocks := by
  intro a ha
  rcases List.mem_append.mp ha with ha | ha
  · obtain ⟨c, hac⟩ := hw.exists_step ha
    exact hac.1.src_mem
  · rwa [List.mem_singleton.mp ha]

theorem Placement.arrivalEnergy_nonneg (h : P.Placement x) (hb : b ∈ P.cfg.blocks)
    (hw : P.RegionWalk x l b) : 0 ≤ P.arrivalEnergy (P.exactRelaxed x) l b := by
  have hmem := hw.mem_blocks hb
  refine add_nonneg (h.eStart_nonneg (hmem _ (List.head_mem _))) (List.sum_nonneg fun q hq => ?_)
  obtain ⟨a, ha, rfl⟩ := List.mem_map.mp hq
  exact h.eBlk_nonneg (hmem a (List.mem_append_left _ ha))

/-- The energies of region walks are bounded by the capacity. -/
theorem Placement.arrivalEnergy_le (h : P.Placement x) (hfit : P.RegionsFit (P.exactRelaxed x))
    (hb : b ∈ P.cfg.blocks) (hw : P.RegionWalk x l b) :
    P.arrivalEnergy (P.exactRelaxed x) l b ≤ P.energy.params.capacity := by
  cases l with
  | nil =>
    have hle := hfit.start b hb hw.head
    simpa [arrivalEnergy, walkWeight] using hle
  | cons a l =>
    obtain ⟨hchain, hr⟩ := isChain_regionStep.mp hw.chain
    have hle := hfit.edge a l b hchain hw.head fun c hc => hr c (by simp [hc])
    have hend := h.eEnd_nonneg hb
    calc P.arrivalEnergy (P.exactRelaxed x) (a :: l) b
        ≤ P.arrivalEnergy (P.exactRelaxed x) (a :: l) b + (P.buildEEnd b).eval (P.exactRelaxed x) :=
          le_add_of_nonneg_right hend
      _ ≤ P.energy.params.capacity := hle

/-- **A heaviest region walk** to every reachable node. -/
theorem Placement.exists_heaviest (h : P.Placement x)
    (hfit : P.RegionsFit (P.exactRelaxed x))
    (hreach : ∀ b ∈ P.cfg.blocks, Relation.ReflTransGen P.Edge P.cfg.entryBlock b) :
    ∀ b ∈ P.cfg.blocks, ∃ l, P.RegionWalk x l b ∧ ∀ l', P.RegionWalk x l' b →
      P.arrivalEnergy (P.exactRelaxed x) l' b ≤ P.arrivalEnergy (P.exactRelaxed x) l b := by
  intro b hb
  exact WalkTo.exists_heaviest (S := P.cfg.blocks) (fun a c hac => hac.1.src_mem) hb
    (fun l hl => h.arrivalEnergy_le hfit hb hl)
    (exists_regionWalk h.r_entry h.r_binary (hreach b hb))

end Energies

/-! ### The feasible extension -/

section Extension

variable {heavy : NodeId → List NodeId}

/-- `heavy b` is a heaviest region walk to `b`. -/
def Heaviest (P : CheckpointOptimizer) (x : MilpVar → ℚ) (heavy : NodeId → List NodeId) : Prop :=
  ∀ b ∈ P.cfg.blocks, P.RegionWalk x (heavy b) b ∧ ∀ l, P.RegionWalk x l b →
    P.arrivalEnergy (P.exactRelaxed x) l b ≤ P.arrivalEnergy (P.exactRelaxed x) (heavy b) b

/-- The exact assignment whose accumulated energies are those of the walks `heavy`. -/
noncomputable def extension (P : CheckpointOptimizer) (x : MilpVar → ℚ)
    (heavy : NodeId → List NodeId) : MilpVar → ℚ :=
  withAccum (P.exactRelaxed x) fun b => P.arrivalEnergy (P.exactRelaxed x) (heavy b) b

theorem place_extension (b : NodeId) (v : Value) :
    P.place (P.extension x heavy) b v = P.place x b v :=
  (place_withAccum b v).trans (place_exactRelaxed b v)

/-- The save variables are made of a predecessor that leaves the value dirty in VM. -/
theorem exactRelaxed_s_pred {b : NodeId} {v : Value} (hk : (b, v) ∈ P.sKeys) :
    P.exactRelaxed x (.s b v) = 0 ∨
      P.exactRelaxed x (.s b v) = 1 ∧ x (.r b) = 1 ∧ ∃ p, P.Edge p b ∧ (p, v) ∈ P.dKeys ∧
        P.DirtyInRegion x p v ∧ P.place x p v = 1 := by
  refine exactRelaxed_s_cases.imp_right ?_
  rintro ⟨hone, hr, p, hedge, hd, hp⟩
  have hv := tracked_of_liveIn (mem_sKeys.mp hk).2.1
  exact ⟨hone, hr, p, hedge, hd.mem_dKeys hedge.src_mem hv, hd, hp⟩

/-- The dirty sums of the extension are those of the exact assignment. -/
theorem dirty_extension (b : NodeId) (v : Value) :
    P.dirty (P.extension x heavy) b v = P.dirty (P.exactRelaxed x) b v := rfl

/-- C9', the bound by the predecessors' dirty bits. -/
theorem extension_s_le_dirty {b : NodeId} {v : Value} (hk : (b, v) ∈ P.sKeys) :
    P.extension x heavy (.s b v) ≤
      ((P.predecessors b).map fun p => P.dirty (P.extension x heavy) p v).sum := by
  change P.exactRelaxed x (.s b v) ≤ _
  simp only [dirty_extension]
  rcases exactRelaxed_s_pred hk with hzero | ⟨hone, -, p, hedge, hpk, hd, -⟩
  · rw [hzero]
    exact List.sum_nonneg dirtySum_nonneg
  · rw [hone]
    exact one_le_dirtySum hedge hpk hd

/-- C9', the bound by the predecessors' placements. -/
theorem Placement.extension_s_le_place (h : P.Placement x) {b : NodeId} {g : GlobalVariable}
    (hk : (b, .global g) ∈ P.sKeys) :
    P.extension x heavy (.s b (.global g)) ≤
      ((P.predecessors b).map fun p => P.place (P.extension x heavy) p (.global g)).sum := by
  change P.exactRelaxed x (.s b (.global g)) ≤ _
  simp only [place_extension]
  have hg := mem_vmObjs_of_tracked (tracked_of_liveIn (mem_sKeys.mp hk).2.1)
  have hnonneg : ∀ q ∈ (P.predecessors b).map fun p => P.place x p (.global g), 0 ≤ q := by
    intro q hq
    obtain ⟨p, hp, rfl⟩ := List.mem_map.mp hq
    rcases h.place_binary p (mem_predecessors.mp hp).src_mem g hg with hm | hm <;> norm_num [hm]
  rcases exactRelaxed_s_pred hk with hzero | ⟨hone, -, p, hedge, -, -, hp⟩
  · rw [hzero]
    exact List.sum_nonneg hnonneg
  · have hle := List.single_le_sum hnonneg (P.place x p (.global g))
      (List.mem_map_of_mem (mem_predecessors.mpr hedge))
    rw [hp] at hle
    rwa [hone]

/-- C9' in coarse mode, where the placement does not depend on the node. -/
theorem Placement.extension_s_le_coarse (h : P.Placement x) (hc : P.coarseAllocation = true)
    {b : NodeId} {g : GlobalVariable} (hk : (b, .global g) ∈ P.sKeys) :
    P.extension x heavy (.s b (.global g)) ≤ P.place (P.extension x heavy) b (.global g) := by
  rw [place_extension]
  change P.exactRelaxed x (.s b (.global g)) ≤ _
  have hg := mem_vmObjs_of_tracked (tracked_of_liveIn (mem_sKeys.mp hk).2.1)
  rcases exactRelaxed_s_pred hk with hzero | ⟨hone, -, p, hedge, -, -, hp⟩
  · rw [hzero]
    rcases h.place_binary b (mem_sKeys.mp hk).1.1 g hg with hm | hm <;> norm_num [hm]
  · rw [hone, place_coarse hc b p, hp]

/-- C4: `rHat` is the conjunction of `r` and `m`. -/
theorem Placement.extension_rHat (h : P.Placement x) {b : NodeId} {v : Value}
    (hk : (b, v) ∈ P.rHatKeys) :
    P.extension x heavy (.rHat b v) ≤ x (.r b) ∧
      P.extension x heavy (.rHat b v) ≤ P.place x b v ∧
      x (.r b) + P.place x b v - 1 ≤ P.extension x heavy (.rHat b v) := by
  change P.exactRelaxed x (.rHat b v) ≤ _ ∧ P.exactRelaxed x (.rHat b v) ≤ _ ∧
    _ ≤ P.exactRelaxed x (.rHat b v)
  obtain ⟨hb, g, hg, rfl⟩ := mem_rHatKeys.mp hk
  have hplace := h.place_binary b hb g (P.state.eligLiveIn_subset b g hg)
  simp only [exactRelaxed]
  rcases h.r_binary b hb with hr | hr <;> rcases hplace with hp | hp <;> norm_num [hr, hp]

/-- C10: at a region start the accumulated energy is the start-up cost; elsewhere there is no
start-up cost and the capacity bounds the accumulated energy. -/
theorem Placement.extension_init (h : P.Placement x) (hfit : P.RegionsFit (P.exactRelaxed x))
    (hheavy : P.Heaviest x heavy) {b : NodeId} (hb : b ∈ P.cfg.blocks) :
    (P.buildEStart b).eval (P.extension x heavy) -
        P.energy.params.capacity * (1 - x (.r b)) ≤ P.extension x heavy (.eAccum b) ∧
      P.extension x heavy (.eAccum b) ≤ (P.buildEStart b).eval (P.extension x heavy) +
        P.energy.params.capacity * (1 - x (.r b)) := by
  have hwalk := (hheavy b hb).1
  change (P.buildEStart b).eval (withAccum _ _) - _ ≤ P.arrivalEnergy _ (heavy b) b ∧
    P.arrivalEnergy _ (heavy b) b ≤ (P.buildEStart b).eval (withAccum _ _) + _
  rw [eval_buildEStart_withAccum hb]
  rcases h.r_binary b hb with hr | hr
  · rw [eStart_eq_zero hb hr, hr]
    have hnonneg := h.arrivalEnergy_nonneg hb hwalk
    have hle := h.arrivalEnergy_le hfit hb hwalk
    constructor <;> linarith
  · rw [hwalk.eq_nil hr, hr]
    simp [arrivalEnergy, walkWeight]

/-- C11: a heaviest walk to a node is at least as heavy as one through a predecessor in the
region, and the big-M term covers the edges that start a region. -/
theorem Placement.extension_propagation (h : P.Placement x)
    (hfit : P.RegionsFit (P.exactRelaxed x)) (hheavy : P.Heaviest x heavy) {b c : NodeId}
    (he : P.Edge b c) :
    P.extension x heavy (.eAccum b) + (P.buildEBlk b).eval (P.extension x heavy) -
        P.energy.params.capacity * x (.r c) ≤ P.extension x heavy (.eAccum c) := by
  have hwalk := (hheavy b he.src_mem).1
  have hend := h.eEnd_nonneg he.dst_mem
  have hcap := hfit.edge_le hwalk he
  change P.arrivalEnergy _ (heavy b) b + (P.buildEBlk b).eval (withAccum _ _) - _ ≤
    P.arrivalEnergy _ (heavy c) c
  rw [eval_buildEBlk_withAccum]
  rcases h.r_binary c he.dst_mem with hr | hr
  · have hmax := (hheavy c he.dst_mem).2 _ (hwalk.snoc ⟨he, hr⟩)
    rw [arrivalEnergy, walkWeight_snoc] at hmax
    rw [hr, mul_zero, sub_zero]
    exact hmax
  · have hnonneg := h.arrivalEnergy_nonneg he.dst_mem (hheavy c he.dst_mem).1
    rw [hr]
    linarith

/-- **The extension satisfies the model.** -/
theorem Placement.satisfies (h : P.Placement x) (hfit : P.RegionsFit (P.exactRelaxed x))
    (hheavy : P.Heaviest x heavy) : P.Satisfies (P.extension x heavy) := by
  obtain ⟨h14, h15⟩ := (forall_constrainPlacement fun b hb => h.r_nonneg hb).mp h.propagation
  have hvm := forall_constrainVMCapacity.mp h.vmCapacity
  -- C2 looks at placements only, which the extension leaves alone
  have husage : ∀ b, (P.vmUsage b).eval (P.extension x heavy) = (P.vmUsage b).eval x := by
    intro b
    have hplace : ∀ g, P.place (P.extension x heavy) b (.global g) = P.place x b (.global g) :=
      fun g => place_extension b (.global g)
    simp only [place] at hplace
    simp only [vmUsage, LinExpr.eval_sum, List.map_map, Function.comp_def, LinExpr.eval_smul,
      hplace]
  exact
    { r_binary := h.r_binary
      place_binary := fun b hb g hg => by
        rw [place_extension]
        exact h.place_binary b hb g hg
      d_bounds := fun b v _ => exactRelaxed_d_bounds
      rHat_bounds := fun b v _ => exactRelaxed_rHat_bounds
      s_bounds := fun b v _ => exactRelaxed_s_bounds
      eAccum_bounds := fun b hb => ⟨h.arrivalEnergy_nonneg hb (hheavy b hb).1,
        h.arrivalEnergy_le hfit hb (hheavy b hb).1⟩
      entry := h.r_entry
      vmCapacity := fun b hb => by
        rw [husage]
        exact hvm b hb
      rHat_le_r := fun b v hk => (h.extension_rHat hk).1
      rHat_le_place := fun b v hk => by
        rw [place_extension]
        exact (h.extension_rHat hk).2.1
      le_rHat := fun b v hk => by
        rw [place_extension]
        exact (h.extension_rHat hk).2.2
      def_le_d := fun b v hk => defCoeff_le_exactRelaxed
      d_edge := fun b c v he _ => exactRelaxed_edge he (h.r_binary c he.dst_mem)
      d_le_sum := fun b v hk => exactRelaxed_le_sum hk
      d_reset := fun b v hk => exactRelaxed_reset (h.r_binary b (mem_dKeys.mp hk).1)
      s_le_r := fun b v hk => exactRelaxed_s_le_r (h.r_binary b (mem_sKeys.mp hk).1.1)
      s_le_dirty := fun b v hk => extension_s_le_dirty hk
      s_le_place_fine := fun _ b g hk => h.extension_s_le_place hk
      s_le_place_coarse := fun hc b g hk => h.extension_s_le_coarse hc hk
      le_s := fun b c v he hs hd => by
        rw [place_extension]
        exact le_exactRelaxed_s he (h.place_zero_or_one hd) (h.r_binary c he.dst_mem)
      init_lb := fun b hb => (h.extension_init hfit hheavy hb).1
      init_ub := fun b hb => (h.extension_init hfit hheavy hb).2
      propagation := fun b c he => h.extension_propagation hfit hheavy he
      edge_capacity := fun b c he => by
        have hle := hfit.edge_le (hheavy b he.src_mem).1 he
        rwa [extension, eval_buildEBlk_withAccum, eval_buildEEnd_withAccum he.dst_mem]
      exit_capacity := fun b hb => by
        have hle := hfit.exit_le (hheavy b (P.cfg.exit_mem b hb)).1 hb
        rwa [extension, eval_buildEBlk_withAccum]
      place_edge := fun b c he g hg => by
        rw [place_extension, place_extension]
        exact h14 b c he g hg
      place_merge := fun b c d hb hc hd g hg => by
        rw [place_extension, place_extension]
        exact h15 b c d hb hc hd g hg }

end Extension

/-! ### The converse -/

/-- Under a feasible assignment the exact values are the assigned ones, so the energies agree. -/
theorem Satisfies.energies_exact (h : P.Satisfies x) (hfree : P.NoFreeCycle x) {b : NodeId}
    (hb : b ∈ P.cfg.blocks) :
    (P.buildEStart b).eval (P.exactRelaxed x) = (P.buildEStart b).eval x ∧
      (P.buildEBlk b).eval (P.exactRelaxed x) = (P.buildEBlk b).eval x ∧
      (P.buildEEnd b).eval (P.exactRelaxed x) = (P.buildEEnd b).eval x := by
  -- the energies read restore and save variables only
  have hrHat : ∀ g ∈ P.state.eligLiveIn b,
      P.exactRelaxed x (.rHat b (.global g)) = x (.rHat b (.global g)) := by
    intro g hg
    obtain ⟨hone, hzero⟩ := h.rHat_eq (mem_rHatKeys.mpr ⟨hb, g, hg, rfl⟩)
    by_cases hrm : x (.r b) = 1 ∧ P.place x b (.global g) = 1
    · rw [hone hrm]
      exact if_pos hrm
    · rw [hzero hrm]
      exact if_neg hrm
  have hs : ∀ v ∈ P.saveKeysAt b, P.exactRelaxed x (.s b v) = x (.s b v) := by
    intro v hv
    have hk := (mem_saveKeysAt hb).mp hv
    by_cases hneed : P.SaveNeeded x b v
    · obtain ⟨hr, p, hedge, hpk, hd, hp⟩ := hneed
      have hdirty := h.dirtyInRegion_of_pos hfree p hedge.src_mem hpk (by rw [hd]; norm_num)
      rw [h.s_eq_one hk ⟨hr, p, hedge, hpk, hd, hp⟩]
      exact if_pos ⟨hr, p, hedge, hdirty, hp⟩
    · rw [h.s_eq_zero hfree hk hneed]
      refine if_neg ?_
      rintro ⟨hr, p, hedge, hdirty, hp⟩
      have hpk := hdirty.mem_dKeys hedge.src_mem (tracked_of_liveIn (mem_sKeys.mp hk).2.1)
      exact hneed ⟨hr, p, hedge, hpk, h.d_eq_one hpk hdirty, hp⟩
  refine ⟨?_, ?_, ?_⟩
  · rw [eval_buildEStart hb, eval_buildEStart hb]
    congr 2
    refine congrArg List.sum (List.map_congr_left fun g hg => ?_)
    rw [hrHat g hg]
  · rw [eval_buildEBlk, eval_buildEBlk]
    simp only [place_exactRelaxed]
  · rw [eval_buildEEnd hb, eval_buildEEnd hb]
    congr 1
    refine congrArg List.sum (List.map_congr_left fun v hv => ?_)
    rw [hs v hv]

/-- The nodes of a walk with a step, or ending at a node, are nodes. -/
theorem walk_mem_blocks {a c : NodeId} {mid : List NodeId}
    (hwalk : List.IsChain P.Edge (a :: (mid ++ [c]))) :
    c ∈ P.cfg.blocks ∧ ∀ b ∈ a :: mid, b ∈ P.cfg.blocks := by
  induction mid generalizing a with
  | nil =>
    have hedge : P.Edge a c := List.isChain_pair.mp hwalk
    exact ⟨hedge.dst_mem, by simpa using hedge.src_mem⟩
  | cons b mid ih =>
    obtain ⟨hedge, hrest⟩ := List.isChain_cons_cons.mp hwalk
    obtain ⟨hc, hmem⟩ := ih hrest
    exact ⟨hc, List.forall_mem_cons.mpr ⟨hedge.src_mem, hmem⟩⟩

/-- **A feasible assignment is a safe placement**: its regions fit with the relaxed variables at
their exact values. -/
theorem Satisfies.regionsFit_exact (h : P.Satisfies x) (hfree : P.NoFreeCycle x) :
    P.RegionsFit (P.exactRelaxed x) := by
  -- the constraints of the model, with the exact energies in place of the assigned ones
  have hblk : ∀ l : List NodeId, (∀ b ∈ l, b ∈ P.cfg.blocks) →
      (l.map fun b => (P.buildEBlk b).eval (P.exactRelaxed x)) =
        l.map fun b => (P.buildEBlk b).eval x :=
    fun l hl => List.map_congr_left fun b hb => (h.energies_exact hfree (hl b hb)).2.1
  refine ⟨fun a ha hr => ?_, fun a mid c hwalk hr hmid => ?_,
    fun a rest hwalk hr hrest hexit => ?_⟩
  · rw [(h.energies_exact hfree ha).1]
    have hlb := h.init_lb a ha
    rw [show x (.r a) = 1 from hr, sub_self, mul_zero, sub_zero] at hlb
    exact hlb.trans (h.eAccum_bounds a ha).2
  · obtain ⟨hc, hmem⟩ := walk_mem_blocks hwalk
    rw [(h.energies_exact hfree (hmem a List.mem_cons_self)).1, hblk _ hmem,
      (h.energies_exact hfree hc).2.2]
    exact h.region_edge_le hwalk hr hmid
  · have hmem : ∀ b ∈ a :: rest, b ∈ P.cfg.blocks := by
      rcases List.eq_nil_or_concat rest with rfl | ⟨mid, c, rfl⟩
      · simpa using P.cfg.exit_mem _ hexit
      · rw [List.concat_eq_append] at hwalk ⊢
        obtain ⟨hc, hmid⟩ := walk_mem_blocks hwalk
        intro b hb
        rw [← List.cons_append] at hb
        rcases List.mem_append.mp hb with hb | hb
        · exact hmid b hb
        · rwa [List.mem_singleton.mp hb]
    rw [(h.energies_exact hfree (hmem a List.mem_cons_self)).1, hblk _ hmem]
    exact h.region_exit_le hwalk hr hrest hexit

theorem Satisfies.toPlacement (h : P.Satisfies x) : P.Placement x := by
  have hr0 : ∀ b ∈ P.cfg.blocks, 0 ≤ x (.r b) := by
    intro b hb
    rcases h.r_binary b hb with hr | hr <;> norm_num [hr]
  exact ⟨h.r_binary, h.place_binary, forall_constrainEntry.mpr h.entry,
    forall_constrainVMCapacity.mpr h.vmCapacity,
    (forall_constrainPlacement hr0).mpr ⟨h.place_edge, h.place_merge⟩⟩

/-- **No safe placement is lost.** Let every node be reachable from the entry. Binary region
starts and placements that satisfy C1, C2, C14 and C15, and under which every region path fits in
the capacity, extend to a feasible assignment of the whole model. -/
theorem exists_feasible_extension (h : P.Placement x) (hfit : P.RegionsFit (P.exactRelaxed x))
    (hreach : ∀ b ∈ P.cfg.blocks, Relation.ReflTransGen P.Edge P.cfg.entryBlock b) :
    ∃ y, P.buildModel.Feasible y ∧ (∀ b, y (.r b) = x (.r b)) ∧
      (∀ b v, y (.m b v) = x (.m b v)) ∧ ∀ g, y (.mGlobal g) = x (.mGlobal g) := by
  choose! heavy hheavy using h.exists_heaviest hfit hreach
  exact ⟨P.extension x heavy, feasible_iff.mpr (h.satisfies hfit hheavy), fun _ => rfl,
    fun _ _ => rfl, fun _ => rfl⟩

/-- The hypotheses hold of the loop example, whose loop region consists of the walks around
node `1`. -/
theorem exists_feasible_extension_loop :
    loopOptimizer.Placement loopAssignment ∧
      loopOptimizer.RegionsFit (loopOptimizer.exactRelaxed loopAssignment) ∧
      ∃ y, loopOptimizer.buildModel.Feasible y ∧ (∀ b, y (.r b) = loopAssignment (.r b)) := by
  have hs := feasible_iff.mp loopAssignment_feasible
  have hfree : loopOptimizer.NoFreeCycle loopAssignment :=
    noFreeCycle_of_eBase_pos (by decide +kernel)
  have hreach : ∀ b ∈ loopOptimizer.cfg.blocks,
      Relation.ReflTransGen loopOptimizer.Edge loopOptimizer.cfg.entryBlock b := by
    have h01 : loopOptimizer.Edge 0 1 := by decide
    have h12 : loopOptimizer.Edge 1 2 := by decide
    intro b hb
    obtain rfl | rfl | rfl : b = 0 ∨ b = 1 ∨ b = 2 := by simpa [loopOptimizer] using hb
    · exact .refl
    · exact .single h01
    · exact .tail (.single h01) h12
  have hfit := hs.regionsFit_exact hfree
  obtain ⟨y, hy, hr, -⟩ := exists_feasible_extension hs.toPlacement hfit hreach
  exact ⟨hs.toPlacement, hfit, y, hy, hr⟩

end Bao.Milp.CheckpointOptimizer
