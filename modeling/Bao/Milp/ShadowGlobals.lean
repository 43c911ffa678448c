import Bao.Milp.EnergySafety

/-!
# VM shadows

`createShadowGlobals` gives every global that is placed in VM at some node one static shadow. The
capacity constraint C2 bounds the placed globals of each node separately, so under fine allocation
the shadows of globals placed at different nodes may exceed the capacity together
(`shadows_overflow`).

`shadows_fit_iff` says exactly when they fit. C14 keeps the placements inside a region, so a global
that the entry keeps in NVM gets a shadow only if an edge into a region start brings it into VM; the
globals brought in so must go into the space that C2 leaves free at the entry. Under coarse
allocation nothing is brought in.
-/

namespace Bao.Milp.CheckpointOptimizer

variable {P : CheckpointOptimizer} {x : MilpVar → ℚ}

/-- The globals `createShadowGlobals` collects: those with `m = 1` at one or more nodes. -/
def vmPlacedGVs (P : CheckpointOptimizer) (solution : MILPSolution) : List GlobalVariable :=
  (P.cfg.blocks.flatMap fun b => P.state.vmObjs.filter fun g => solution.m b (.global g)).dedup

/-- The bytes of some globals. A shadow has the value type of its global. -/
def globalBytes (P : CheckpointOptimizer) (gs : List GlobalVariable) : ℚ :=
  (gs.map fun g => ((P.state.varSizeBytes (.global g)).toNat : ℚ)).sum

/-- The bytes of all shadows `createShadowGlobals` allocates. -/
def shadowBytes (P : CheckpointOptimizer) (solution : MILPSolution) : ℚ :=
  P.globalBytes (P.vmPlacedGVs solution)

/-- The shadows and the ineligible objects fit in VM. -/
def ShadowsFit (P : CheckpointOptimizer) (solution : MILPSolution) : Prop :=
  P.shadowBytes solution + P.ineligibleUsage ≤ P.energy.params.vmCapacityBytes

instance (solution : MILPSolution) : Decidable (P.ShadowsFit solution) :=
  inferInstanceAs (Decidable (_ ≤ _))

/-- What C2 leaves free at a node. -/
def vmFree (P : CheckpointOptimizer) (x : MilpVar → ℚ) (b : NodeId) : ℚ :=
  P.energy.params.vmCapacityBytes - P.ineligibleUsage - (P.vmUsage b).eval x

/-- The nodes that the entry reaches. -/
def reachableNodes (P : CheckpointOptimizer) : List NodeId :=
  Graph.closure P.successors P.cfg.blocks [P.cfg.entryBlock]

/-- An edge into a region start brings a global into VM: it is in NVM before the edge and in VM
behind it. Nodes that the entry does not reach bring in what they place. -/
def BroughtIn (P : CheckpointOptimizer) (x : MilpVar → ℚ) (c : NodeId) (g : GlobalVariable) :
    Prop :=
  P.place x c (.global g) = 1 ∧ (c ∉ P.reachableNodes ∨
    x (.r c) = 1 ∧ ∃ b ∈ P.predecessors c, P.place x b (.global g) = 0)

instance (c : NodeId) (g : GlobalVariable) : Decidable (P.BroughtIn x c g) :=
  inferInstanceAs (Decidable (_ ∧ _))

/-- The globals that are brought into VM and are not in VM at the entry. -/
def broughtInGVs (P : CheckpointOptimizer) (x : MilpVar → ℚ) : List GlobalVariable :=
  P.state.vmObjs.filter fun g =>
    P.place x P.cfg.entryBlock (.global g) = 0 ∧ ∃ c ∈ P.cfg.blocks, P.BroughtIn x c g

theorem mem_vmPlacedGVs {solution : MILPSolution} {g : GlobalVariable} :
    g ∈ P.vmPlacedGVs solution ↔
      g ∈ P.state.vmObjs ∧ ∃ b ∈ P.cfg.blocks, solution.m b (.global g) = true := by
  simp only [vmPlacedGVs, List.mem_dedup, List.mem_flatMap, List.mem_filter]
  constructor
  · rintro ⟨b, hb, hg, hm⟩
    exact ⟨hg, b, hb, hm⟩
  · rintro ⟨hg, b, hb, hm⟩
    exact ⟨b, hb, hg, hm⟩

theorem vmPlacedGVs_nodup (solution : MILPSolution) : (P.vmPlacedGVs solution).Nodup :=
  List.nodup_dedup _

/-- The weighted placements of a list of globals are the bytes of the placed ones. -/
private theorem sum_placed_bytes {size : GlobalVariable → ℤ} {m : GlobalVariable → ℚ}
    {placed : GlobalVariable → Bool} {gs : List GlobalVariable}
    (hone : ∀ g ∈ gs, placed g = true → m g = 1) (hzero : ∀ g ∈ gs, placed g = false → m g = 0) :
    ((gs.filter fun g => 0 < size g).map fun g => (size g : ℚ) * m g).sum =
      ((gs.filter placed).map fun g => ((size g).toNat : ℚ)).sum := by
  induction gs with
  | nil => rfl
  | cons g gs ih =>
    have ih' := ih (fun a ha => hone a (List.mem_cons_of_mem g ha))
      fun a ha => hzero a (List.mem_cons_of_mem g ha)
    have hnat : ¬0 < size g → ((size g).toNat : ℚ) = 0 := by
      intro hpos
      rw [Int.toNat_of_nonpos (not_lt.mp hpos), Nat.cast_zero]
    have hint : 0 < size g → ((size g).toNat : ℚ) = (size g : ℚ) := by
      intro hpos
      exact_mod_cast Int.toNat_of_nonneg hpos.le
    -- a global of no bytes has no variable in C2 and adds nothing to the shadows
    cases hp : placed g with
    | false =>
      rw [List.filter_cons_of_neg (by simp [hp] : ¬placed g = true), ← ih']
      by_cases hpos : 0 < size g
      · rw [List.filter_cons_of_pos (by simpa using hpos), List.map_cons, List.sum_cons,
          hzero g List.mem_cons_self hp, mul_zero, zero_add]
      · rw [List.filter_cons_of_neg (by simpa using hpos)]
    | true =>
      rw [List.filter_cons_of_pos hp, List.map_cons, List.sum_cons, ← ih']
      by_cases hpos : 0 < size g
      · rw [List.filter_cons_of_pos (by simpa using hpos), List.map_cons, List.sum_cons,
          hone g List.mem_cons_self hp, mul_one, hint hpos]
      · rw [List.filter_cons_of_neg (by simpa using hpos), hnat hpos, zero_add]

/-- **The usage C2 bounds** at a node is the bytes of the globals placed there. -/
theorem Satisfies.eval_vmUsage (h : P.Satisfies x) {b : NodeId} (hb : b ∈ P.cfg.blocks) :
    (P.vmUsage b).eval x = P.globalBytes
      (P.state.vmObjs.filter fun g => (P.extractSolution x).m b (.global g)) := by
  rw [vmUsage, LinExpr.eval_sum, List.map_map, globalBytes, ← sum_placed_bytes (m := fun g =>
    P.place x b (.global g))]
  · congr 1
    refine List.map_congr_left fun g _ => ?_
    simp [place]
  · intro g hg hm
    exact (h.extract_m hb hg).mp hm
  · intro g hg hm
    rcases h.place_binary b hb g hg with hp | hp
    · exact hp
    · rw [(h.extract_m hb hg).mpr hp] at hm
      exact absurd hm (by simp)

theorem mem_reachableNodes {b : NodeId} :
    b ∈ P.reachableNodes ↔ Relation.ReflTransGen P.Edge P.cfg.entryBlock b := by
  rw [reachableNodes, Graph.mem_closure_iff (fun _ _ h => (mem_successors.mp h).dst_mem)
    (List.forall_mem_singleton.mpr P.cfg.entry_mem) (List.nodup_singleton _)]
  simp only [List.mem_singleton, exists_eq_left, mem_successors]

/-- **C14 along a path.** A global that is in VM at a node and not at the entry is brought in. -/
theorem Satisfies.exists_broughtIn (h : P.Satisfies x) {g : GlobalVariable}
    (hg : g ∈ P.state.vmObjs) (hentry : P.place x P.cfg.entryBlock (.global g) = 0) {b : NodeId}
    (hb : b ∈ P.cfg.blocks) (hplace : P.place x b (.global g) = 1) :
    ∃ c ∈ P.cfg.blocks, P.BroughtIn x c g := by
  by_cases hreach : b ∈ P.reachableNodes
  · rw [mem_reachableNodes] at hreach
    clear hb
    induction hreach with
    | refl => exact absurd (hentry.symm.trans hplace) zero_ne_one
    | @tail c d _ hedge ih =>
      rcases h.place_binary c hedge.src_mem g hg with hc | hc
      · -- the placement changes on the edge, so the target starts a region
        have hle := (h.place_edge c d hedge g hg).1
        have hr : x (.r d) = 1 := by
          rcases h.r_binary d hedge.dst_mem with hr | hr
          · rw [hplace, hr, add_zero] at hle
            have hzero : P.place x c (.global g) = 0 := hc
            linarith
          · exact hr
        exact ⟨d, hedge.dst_mem, hplace, .inr ⟨hr, c, mem_predecessors.mpr hedge, hc⟩⟩
      · exact ih hc
  · exact ⟨b, hb, hplace, .inl hreach⟩

/-- The globals with a shadow that the entry does not place are those brought in. -/
theorem Satisfies.mem_broughtInGVs (h : P.Satisfies x) {g : GlobalVariable} :
    g ∈ P.broughtInGVs x ↔ g ∈ P.vmPlacedGVs (P.extractSolution x) ∧
      (P.extractSolution x).m P.cfg.entryBlock (.global g) = false := by
  simp only [broughtInGVs, mem_vmPlacedGVs, List.mem_filter, decide_eq_true_eq]
  constructor
  · rintro ⟨hg, hentry, c, hc, hplace, -⟩
    refine ⟨⟨hg, c, hc, (h.extract_m hc hg).mpr hplace⟩, ?_⟩
    rw [Bool.eq_false_iff, Ne, h.extract_m P.cfg.entry_mem hg, hentry]
    exact zero_ne_one
  · rintro ⟨⟨hg, b, hb, hm⟩, hentry⟩
    have hzero : P.place x P.cfg.entryBlock (.global g) = 0 :=
      (h.place_binary _ P.cfg.entry_mem g hg).resolve_right fun hone => by
        rw [(h.extract_m P.cfg.entry_mem hg).mpr hone] at hentry
        cases hentry
    exact ⟨hg, hzero, h.exists_broughtIn hg hzero hb ((h.extract_m hb hg).mp hm)⟩

/-- **The shadows of a solution**: those of the globals placed at the entry, and those of the
globals brought in later. -/
theorem Satisfies.shadowBytes_eq (h : P.Satisfies x) :
    P.shadowBytes (P.extractSolution x) =
      (P.vmUsage P.cfg.entryBlock).eval x + P.globalBytes (P.broughtInGVs x) := by
  have hentry : ((P.vmPlacedGVs (P.extractSolution x)).filter fun g =>
      (P.extractSolution x).m P.cfg.entryBlock (.global g)).Perm
      (P.state.vmObjs.filter fun g => (P.extractSolution x).m P.cfg.entryBlock (.global g)) := by
    refine (List.perm_ext_iff_of_nodup ((vmPlacedGVs_nodup _).filter _)
      (P.state.vmObjs_nodup.filter _)).mpr fun g => ?_
    simp only [List.mem_filter, mem_vmPlacedGVs]
    constructor
    · rintro ⟨⟨hg, -⟩, hm⟩
      exact ⟨hg, hm⟩
    · rintro ⟨hg, hm⟩
      exact ⟨⟨hg, P.cfg.entryBlock, P.cfg.entry_mem, hm⟩, hm⟩
  have hlater : ((P.vmPlacedGVs (P.extractSolution x)).filter fun g =>
      !(P.extractSolution x).m P.cfg.entryBlock (.global g)).Perm (P.broughtInGVs x) := by
    refine (List.perm_ext_iff_of_nodup ((vmPlacedGVs_nodup _).filter _)
      (P.state.vmObjs_nodup.filter _)).mpr fun g => ?_
    rw [List.mem_filter, Bool.not_eq_true', ← h.mem_broughtInGVs]
    rfl
  rw [h.eval_vmUsage P.cfg.entry_mem, globalBytes, globalBytes, ← (hentry.map _).sum_eq,
    ← (hlater.map _).sum_eq, shadowBytes, globalBytes, ← List.sum_append, ← List.map_append]
  exact ((List.filter_append_perm _ _).symm.map _).sum_eq

/-- Under coarse allocation nothing is brought in. -/
theorem broughtInGVs_coarse (hcoarse : P.coarseAllocation = true) : P.broughtInGVs x = [] := by
  refine List.filter_eq_nil_iff.mpr fun g _ hbrought => ?_
  obtain ⟨hentry, c, -, hplace, -⟩ := of_decide_eq_true hbrought
  rw [place_coarse hcoarse c P.cfg.entryBlock, hentry] at hplace
  exact zero_ne_one hplace

/-- **When the shadows fit.** Under a feasible assignment, the shadows of all globals placed in VM
somewhere fit next to the ineligible objects if and only if the globals that edges into region
starts bring into VM go into the space that C2 leaves free at the entry. -/
theorem shadows_fit_iff (h : P.buildModel.Feasible x) :
    P.ShadowsFit (P.extractSolution x) ↔
      P.globalBytes (P.broughtInGVs x) ≤ P.vmFree x P.cfg.entryBlock := by
  rw [ShadowsFit, vmFree, (feasible_iff.mp h).shadowBytes_eq]
  constructor <;> intro hle <;> linarith

/-- In the loop example one global is placed throughout. -/
theorem shadows_fit_iff_loop : loopOptimizer.buildModel.Feasible loopAssignment ∧
    loopOptimizer.ShadowsFit (loopOptimizer.extractSolution loopAssignment) := by
  refine ⟨loopAssignment_feasible, ?_⟩
  refine (shadows_fit_iff loopAssignment_feasible).mpr ?_
  decide +kernel

/-! ### Two globals that take turns -/

theorem twoGlobals_nodup : ([0, 1] : List GlobalVariable).Nodup := by decide

/-- Two nodes in a row, two globals of four bytes and a VM of four bytes. -/
def turnsOptimizer : CheckpointOptimizer :=
  { loopOptimizer with
    cfg :=
      { loopOptimizer.cfg with
        edges := [(0, 1), (1, 2)]
        edge_mem := by simp [loopOptimizer] }
    state :=
      { loopOptimizer.state with
        vmObjs := [0, 1]
        vmObjs_nodup := twoGlobals_nodup
        eligLiveIn := fun _ => []
        eligLiveIn_nodup := fun _ => List.nodup_nil
        eligLiveIn_subset := fun _ _ hg => absurd hg List.not_mem_nil }
    energy :=
      { loopOptimizer.energy with
        params := { loopOptimizer.energy.params with vmCapacityBytes := 4 } } }

/-- Every node starts a region; global `0` is placed at node `0`, global `1` at the others. -/
def turnsAssignment : MilpVar → ℚ
  | .r _ => 1
  | .m b v => if v = .global 0 then (if b = 0 then 1 else 0) else if b = 0 then 0 else 1
  | .d b _ => if b = 2 then 0 else 1
  | .eAccum _ => 1
  | _ => 0

/-- **The shadows may overflow.** Each node fits by itself, but both globals get a shadow. -/
theorem shadows_overflow : turnsOptimizer.buildModel.Feasible turnsAssignment ∧
    ¬turnsOptimizer.ShadowsFit (turnsOptimizer.extractSolution turnsAssignment) := by
  decide +kernel

end Bao.Milp.CheckpointOptimizer
