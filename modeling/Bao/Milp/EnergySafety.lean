import Bao.Milp.Feasible

/-!
# Energy safety of feasible placements

The energy constraints are local: C10 sets the accumulated energy at a region start, C11
moves it along one edge, C12 and C13 compare it with the capacity. This file derives the
guarantee about whole regions. `eAccum` is a potential for the block energies along every
edge into a node that starts no region (`accum_step`), so the energy collected on a walk
through a region is bounded by the potential at its end (`region_walk_le`), and the capacity
constraint there bounds the region as a whole (`energy_safety`).

The big-M terms of C10 and C11 vanish exactly because `r` is binary.
-/

namespace Bao.Milp.CheckpointOptimizer

variable {P : CheckpointOptimizer} {x : MilpVar → ℚ}

/-- The energy of a node under an assignment. -/
def blockEnergy (P : CheckpointOptimizer) (x : MilpVar → ℚ) (b : NodeId) : ℚ :=
  (P.buildEBlk b).eval x

/-- A node costs at least its base energy: the NVM penalties are non-negative. -/
theorem eBase_le_blockEnergy {b : NodeId} (hplace : ∀ g ∈ P.state.vmObjs,
    P.place x b (.global g) = 0 ∨ P.place x b (.global g) = 1) :
    P.energy.eBase b ≤ P.blockEnergy x b := by
  rw [blockEnergy, eval_buildEBlk]
  have hsum : 0 ≤ (P.state.vmObjs.map fun g =>
      P.energy.eNvm b g * (1 - P.place x b (.global g))).sum := by
    refine List.sum_nonneg fun q hq => ?_
    obtain ⟨g, hg, rfl⟩ := List.mem_map.mp hq
    refine mul_nonneg (P.energy.eNvm_nonneg b g) ?_
    rcases hplace g hg with hp | hp <;> norm_num [hp]
  linarith

theorem Satisfies.eBase_le_blockEnergy (h : P.Satisfies x) {b : NodeId}
    (hb : b ∈ P.cfg.blocks) : P.energy.eBase b ≤ P.blockEnergy x b :=
  CheckpointOptimizer.eBase_le_blockEnergy (h.place_binary b hb)

/-- **One step inside a region** raises the accumulated energy by the block energy. -/
theorem Satisfies.accum_step (h : P.Satisfies x) {b c : NodeId} (he : P.Edge b c)
    (hr : x (.r c) = 0) : x (.eAccum b) + P.blockEnergy x b ≤ x (.eAccum c) := by
  have hprop := h.propagation b c he
  rw [hr, mul_zero, sub_zero] at hprop
  exact hprop

/-- A walk that starts no region after its first node is a chain of rising potential. -/
theorem Satisfies.isChain_accum (h : P.Satisfies x) {a : NodeId} {l : List NodeId}
    (hwalk : List.IsChain P.Edge (a :: l)) (hr : ∀ b ∈ l, x (.r b) = 0) :
    List.IsChain (fun b c => x (.eAccum b) + P.blockEnergy x b ≤ x (.eAccum c)) (a :: l) := by
  induction l generalizing a with
  | nil => exact List.isChain_singleton a
  | cons b l ih =>
    obtain ⟨hab, hrest⟩ := List.isChain_cons_cons.mp hwalk
    refine List.isChain_cons_cons.mpr ⟨h.accum_step hab (hr b List.mem_cons_self), ?_⟩
    exact ih hrest fun c hc => hr c (List.mem_cons_of_mem b hc)

/-- **Energy of a region walk**: start-up cost and block energies are bounded by the
accumulated energy after the last node. -/
theorem Satisfies.region_walk_le (h : P.Satisfies x) {a : NodeId} {l : List NodeId}
    (ha : a ∈ P.cfg.blocks) (hwalk : List.IsChain P.Edge (a :: l)) (hstart : x (.r a) = 1)
    (hr : ∀ b ∈ l, x (.r b) = 0) :
    (P.buildEStart a).eval x + ((a :: l).map (P.blockEnergy x)).sum ≤
      x (.eAccum ((a :: l).getLast (List.cons_ne_nil a l))) +
        P.blockEnergy x ((a :: l).getLast (List.cons_ne_nil a l)) := by
  have hinit : (P.buildEStart a).eval x ≤ x (.eAccum a) := by
    have hlb := h.init_lb a ha
    rw [hstart, sub_self, mul_zero, sub_zero] at hlb
    exact hlb
  calc (P.buildEStart a).eval x + ((a :: l).map (P.blockEnergy x)).sum
      ≤ x (.eAccum a) + ((a :: l).map (P.blockEnergy x)).sum := by gcongr
    _ ≤ _ := Graph.IsChain.potential_le (h.isChain_accum hwalk hr)

/-- **A region that ends at a boundary fits**, with the saves and the epilogue there. -/
theorem Satisfies.region_edge_le (h : P.Satisfies x) {b₀ bₙ : NodeId} {mid : List NodeId}
    (hwalk : List.IsChain P.Edge (b₀ :: (mid ++ [bₙ]))) (hstart : x (.r b₀) = 1)
    (hr : ∀ b ∈ mid, x (.r b) = 0) :
    (P.buildEStart b₀).eval x + ((b₀ :: mid).map fun b => (P.buildEBlk b).eval x).sum +
      (P.buildEEnd bₙ).eval x ≤ P.energy.params.capacity := by
  rw [← List.cons_append] at hwalk
  obtain ⟨hwalk', -, hlink⟩ := List.isChain_append.mp hwalk
  have hedge : P.Edge ((b₀ :: mid).getLast (List.cons_ne_nil b₀ mid)) bₙ :=
    hlink _ (List.getLast_mem_getLast? _) bₙ (by simp)
  have hb₀ : b₀ ∈ P.cfg.blocks := by
    cases mid with
    | nil => exact hedge.src_mem
    | cons b mid => exact (List.isChain_cons_cons.mp hwalk').1.src_mem
  -- the potential at the last node of the region, where the capacity constraint stands
  have hle := h.region_walk_le hb₀ hwalk' hstart hr
  calc (P.buildEStart b₀).eval x + ((b₀ :: mid).map (P.blockEnergy x)).sum +
        (P.buildEEnd bₙ).eval x
      ≤ x (.eAccum ((b₀ :: mid).getLast (List.cons_ne_nil b₀ mid))) +
          P.blockEnergy x ((b₀ :: mid).getLast (List.cons_ne_nil b₀ mid)) +
          (P.buildEEnd bₙ).eval x := by gcongr
    _ ≤ P.energy.params.capacity := h.edge_capacity _ _ hedge

/-- **A region that ends at an exit fits.** -/
theorem Satisfies.region_exit_le (h : P.Satisfies x) {b₀ : NodeId} {rest : List NodeId}
    (hwalk : List.IsChain P.Edge (b₀ :: rest)) (hstart : x (.r b₀) = 1)
    (hr : ∀ b ∈ rest, x (.r b) = 0)
    (hexit : (b₀ :: rest).getLast (List.cons_ne_nil b₀ rest) ∈ P.cfg.exitBlocks) :
    (P.buildEStart b₀).eval x + ((b₀ :: rest).map fun b => (P.buildEBlk b).eval x).sum ≤
      P.energy.params.capacity := by
  have hb₀ : b₀ ∈ P.cfg.blocks := by
    cases rest with
    | nil => exact P.cfg.exit_mem _ hexit
    | cons b rest => exact (List.isChain_cons_cons.mp hwalk).1.src_mem
  calc (P.buildEStart b₀).eval x + ((b₀ :: rest).map (P.blockEnergy x)).sum
      ≤ x (.eAccum ((b₀ :: rest).getLast (List.cons_ne_nil b₀ rest))) +
          P.blockEnergy x ((b₀ :: rest).getLast (List.cons_ne_nil b₀ rest)) :=
        h.region_walk_le hb₀ hwalk hstart hr
    _ ≤ P.energy.params.capacity := h.exit_capacity _ hexit

/-- A closed walk on nodes of positive base energy meets a region start. -/
theorem Satisfies.exists_start_of_closed (h : P.Satisfies x) {a : NodeId} {l : List NodeId}
    (hwalk : List.IsChain P.Edge (a :: l))
    (hclose : P.Edge ((a :: l).getLast (List.cons_ne_nil a l)) a)
    (hpos : ∀ b ∈ a :: l, 0 < P.energy.eBase b) : ∃ b ∈ a :: l, x (.r b) = 1 := by
  have hmem : ∀ b ∈ a :: l, b ∈ P.cfg.blocks := by
    intro b hb
    rcases List.mem_cons.mp hb with rfl | hb
    · exact hclose.dst_mem
    · obtain ⟨s, t, hst⟩ := List.append_of_mem hb
      -- an inner node of a walk is the target of an edge
      rw [hst, ← List.cons_append] at hwalk
      have hlast := (List.isChain_append.mp hwalk).2.2
        ((a :: s).getLast (List.cons_ne_nil a s)) (List.getLast_mem_getLast? _) b (by simp)
      exact hlast.dst_mem
  by_contra hno
  have hzero : ∀ b ∈ a :: l, x (.r b) = 0 := by
    intro b hb
    rcases h.r_binary b (hmem b hb) with hr | hr
    · exact hr
    · exact absurd ⟨b, hb, hr⟩ hno
  have hchain := h.isChain_accum hwalk fun b hb => hzero b (List.mem_cons_of_mem a hb)
  have hsum := Graph.IsChain.closed_sum_nonpos hchain
    (h.accum_step hclose (hzero a List.mem_cons_self))
  have hpos' : 0 < ((a :: l).map (P.blockEnergy x)).sum := by
    refine List.sum_pos _ (fun q hq => ?_) (by simp)
    obtain ⟨b, hb, rfl⟩ := List.mem_map.mp hq
    exact (hpos b hb).trans_le (h.eBase_le_blockEnergy (hmem b hb))
  exact absurd hsum (not_le.mpr hpos')

/-- **Energy safety.** Under a feasible assignment every region traversal fits in the
capacity, whether it ends at the next boundary (its saves and epilogue included) or at an
exit of the function; and every cycle of nodes with positive base energy contains a region
start. -/
theorem energy_safety (h : P.buildModel.Feasible x) :
    (∀ b₀ mid bₙ, List.IsChain P.Edge (b₀ :: (mid ++ [bₙ])) → x (.r b₀) = 1 →
      (∀ b ∈ mid, x (.r b) = 0) →
      (P.buildEStart b₀).eval x +
          ((b₀ :: mid).map fun b => (P.buildEBlk b).eval x).sum +
          (P.buildEEnd bₙ).eval x ≤ P.energy.params.capacity) ∧
    (∀ b₀ rest, List.IsChain P.Edge (b₀ :: rest) → x (.r b₀) = 1 →
      (∀ b ∈ rest, x (.r b) = 0) →
      (b₀ :: rest).getLast (List.cons_ne_nil b₀ rest) ∈ P.cfg.exitBlocks →
      (P.buildEStart b₀).eval x +
          ((b₀ :: rest).map fun b => (P.buildEBlk b).eval x).sum ≤
        P.energy.params.capacity) ∧
    ∀ b₀ rest, List.IsChain P.Edge (b₀ :: rest) →
      P.Edge ((b₀ :: rest).getLast (List.cons_ne_nil b₀ rest)) b₀ →
      (∀ b ∈ b₀ :: rest, 0 < P.energy.eBase b) → ∃ b ∈ b₀ :: rest, x (.r b) = 1 := by
  have hs := feasible_iff.mp h
  exact ⟨fun b₀ mid bₙ hwalk hstart hr => hs.region_edge_le hwalk hstart hr,
    fun b₀ rest hwalk hstart hr hexit => hs.region_exit_le hwalk hstart hr hexit,
    fun b₀ rest hwalk hclose hpos => hs.exists_start_of_closed hwalk hclose hpos⟩

/-- A three-node graph with a loop on node `1` and one global, written by nodes `0` and `1`
and read by nodes `1` and `2`. -/
def loopOptimizer : CheckpointOptimizer where
  cfg :=
    { blocks := [0, 1, 2], edges := [(0, 1), (1, 1), (1, 2)], entryBlock := 0
      exitBlocks := [2], blocks_nodup := by decide, entry_mem := by decide
      exit_mem := by decide, edge_mem := by decide }
  state :=
    { vmObjs := [0]
      eligLiveIn := fun b => if b = 1 ∨ b = 2 then [0] else []
      eligDefIndicator := fun b g => decide (b ≤ 1 ∧ g = 0)
      ineligibleObjs := [], ineligLiveIn := fun _ => [], ineligDefIndicator := fun _ _ => false
      varSizeBytes := fun _ => 4
      vmObjs_nodup := oneGlobal_nodup
      eligLiveIn_nodup := by intro b; split <;> decide
      eligLiveIn_subset := by intro b; split <;> simp
      ineligibleObjs_nodup := List.nodup_nil
      ineligible_ne_global := noIneligible_ne_global
      ineligLiveIn_nodup := noIneligible_nodup
      ineligLiveIn_subset := noIneligible_subset }
  energy :=
    { params :=
        { capacity := 100, ePro := 1, eEpi := 1, regStoreEnergy := 1, regRestoreEnergy := 1
          nvmAccessPenalty := 2, memStoreEnergyPerByte := 1, memRestoreEnergyPerByte := 1
          vmCapacityBytes := 16 }
      eBase := fun _ => 10, eNvm := fun _ _ => 2, eSave := fun _ => 4, eRestore := fun _ => 4
      fEntry := fun _ => 1, fBoundary := fun _ => 1
      ePro_nonneg := by decide, eEpi_nonneg := by decide
      eBase_nonneg := by intro _; decide
      eNvm_nonneg := by intro _ _; decide
      eSave_nonneg := by intro _; decide
      eRestore_nonneg := by intro _; decide }
  coarseAllocation := false

/-- A placement for `loopOptimizer`: regions start at nodes `0` and `1`, the global lives in
VM throughout and is saved and restored at node `1`. -/
def loopAssignment : MilpVar → ℚ
  | .r b => if b = 2 then 0 else 1
  | .mGlobal _ => 1
  | .m _ _ => 1
  | .rHat b _ => if b = 1 then 1 else 0
  | .d _ _ => 1
  | .s b _ => if b = 1 then 1 else 0
  | .eAccum b => if b = 0 then 1 else if b = 1 then 5 else 15

theorem loopAssignment_feasible : loopOptimizer.buildModel.Feasible loopAssignment := by
  decide +kernel

/-- The loop's region, from node `1` back to itself, fits in the capacity. -/
theorem energy_safety_loop : loopOptimizer.buildModel.Feasible loopAssignment ∧
    (loopOptimizer.buildEStart 1).eval loopAssignment +
        ([1].map fun b => (loopOptimizer.buildEBlk b).eval loopAssignment).sum +
        (loopOptimizer.buildEEnd 1).eval loopAssignment ≤ 100 :=
  ⟨loopAssignment_feasible, (energy_safety loopAssignment_feasible).1 1 [] 1
    (by simp [Edge, loopOptimizer]) rfl (by simp)⟩

end Bao.Milp.CheckpointOptimizer
