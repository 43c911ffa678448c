import Bao.Milp.Optimizer

/-!
# What a feasible assignment satisfies

The constraints of `Optimizer.lean` are syntax. This file says once what they mean: the
inequalities between the values `place`, `x (.r b)`, `x (.d b v)`, … that hold of a feasible
assignment (`Satisfies`, with `feasible_iff`), and the values of the three energy expressions
(`eval_buildEBlk`, `eval_buildEStart`, `eval_buildEEnd`). Later files argue from these fields
and never unfold the builder.

`place` reads the placement of a value uniformly in the two allocation modes, with the
constant `1` of C3 for ineligible values; `dirty` and `save` read `0` where the builder
creates no variable.
-/

namespace Bao.Milp.CheckpointOptimizer

open LinExpr (var ofRat)

variable {P : CheckpointOptimizer} {x : MilpVar → ℚ}

/-! ### The graph and the keys -/

/-- `b → c` is an edge of the node graph. -/
def Edge (P : CheckpointOptimizer) (b c : NodeId) : Prop := (b, c) ∈ P.cfg.edges

instance (b c : NodeId) : Decidable (P.Edge b c) :=
  inferInstanceAs (Decidable ((b, c) ∈ P.cfg.edges))

theorem Edge.src_mem {b c : NodeId} (h : P.Edge b c) : b ∈ P.cfg.blocks :=
  (P.cfg.edge_mem _ h).1

theorem Edge.dst_mem {b c : NodeId} (h : P.Edge b c) : c ∈ P.cfg.blocks :=
  (P.cfg.edge_mem _ h).2

@[simp] theorem mem_predecessors {p b : NodeId} : p ∈ P.predecessors b ↔ P.Edge p b := by
  simp only [predecessors, List.mem_map, List.mem_filter, decide_eq_true_eq, Prod.exists,
    exists_and_right, exists_eq_right, Edge]

@[simp] theorem mem_successors {b c : NodeId} : c ∈ P.successors b ↔ P.Edge b c := by
  simp only [successors, List.mem_map, List.mem_filter, decide_eq_true_eq, Prod.exists,
    exists_eq_right, Edge]

theorem global_mem_tracked {g : GlobalVariable} (hg : g ∈ P.state.vmObjs) :
    .global g ∈ P.orderedTrackedValues :=
  List.mem_append_left _ (List.mem_map_of_mem hg)

theorem ineligible_mem_tracked {v : Value} (hv : v ∈ P.state.ineligibleObjs) :
    v ∈ P.orderedTrackedValues :=
  List.mem_append_right _ hv

/-- A tracked global is a candidate. -/
theorem mem_vmObjs_of_tracked {g : GlobalVariable}
    (h : .global g ∈ P.orderedTrackedValues) : g ∈ P.state.vmObjs := by
  rcases List.mem_append.mp h with h | h
  · obtain ⟨g', hg', heq⟩ := List.mem_map.mp h
    cases heq
    exact hg'
  · exact absurd rfl (P.state.ineligible_ne_global _ h g)

/-- A live-in value is tracked. -/
theorem tracked_of_liveIn {b : NodeId} {v : Value} (h : v ∈ P.liveInValues b) :
    v ∈ P.orderedTrackedValues := by
  rcases List.mem_append.mp h with h | h
  · obtain ⟨g, hg, rfl⟩ := List.mem_map.mp h
    exact global_mem_tracked (P.state.eligLiveIn_subset b g hg)
  · exact ineligible_mem_tracked (P.state.ineligLiveIn_subset b v h)

/-- **Reach(v)** is the forward closure of the nodes that define `v`. -/
theorem mem_reachableDefs {b : NodeId} {v : Value} :
    b ∈ P.reachableDefs v ↔
      ∃ a ∈ P.cfg.blocks, P.state.isDef a v = true ∧ Relation.ReflTransGen P.Edge a b := by
  have hsucc : ∀ a, ∀ c ∈ P.successors a, c ∈ P.cfg.blocks :=
    fun a c hc => (mem_successors.mp hc).dst_mem
  have hinit : ∀ a ∈ P.cfg.blocks.filter fun b => P.state.isDef b v, a ∈ P.cfg.blocks :=
    fun a ha => List.mem_of_mem_filter ha
  have hrel : (fun c d => d ∈ P.successors c) = P.Edge := by
    funext c d
    exact propext mem_successors
  rw [reachableDefs, Graph.mem_closure_iff hsucc hinit (P.cfg.blocks_nodup.filter _), hrel]
  simp only [List.mem_filter, and_assoc]

/-- Reach(v) is closed under successors. -/
theorem reachableDefs_step {b c : NodeId} {v : Value} (h : b ∈ P.reachableDefs v)
    (he : P.Edge b c) : c ∈ P.reachableDefs v := by
  obtain ⟨a, ha, hdef, hab⟩ := mem_reachableDefs.mp h
  exact mem_reachableDefs.mpr ⟨a, ha, hdef, hab.tail he⟩

@[simp] theorem mem_dKeys {b : NodeId} {v : Value} :
    (b, v) ∈ P.dKeys ↔
      b ∈ P.cfg.blocks ∧ v ∈ P.orderedTrackedValues ∧ b ∈ P.reachableDefs v := by
  simp only [dKeys, List.mem_flatMap, List.mem_map, List.mem_filter, decide_eq_true_eq,
    Prod.mk.injEq]
  constructor
  · rintro ⟨a, ha, w, ⟨hw, hr⟩, rfl, rfl⟩
    exact ⟨ha, hw, hr⟩
  · rintro ⟨ha, hw, hr⟩
    exact ⟨b, ha, v, ⟨hw, hr⟩, rfl, rfl⟩

theorem dKeys_step {b c : NodeId} {v : Value} (h : (b, v) ∈ P.dKeys) (he : P.Edge b c) :
    (c, v) ∈ P.dKeys := by
  obtain ⟨-, hv, hr⟩ := mem_dKeys.mp h
  exact mem_dKeys.mpr ⟨he.dst_mem, hv, reachableDefs_step hr he⟩

/-- A defining node has a dirty variable. -/
theorem mem_dKeys_of_isDef {b : NodeId} {v : Value} (hb : b ∈ P.cfg.blocks)
    (hv : v ∈ P.orderedTrackedValues) (hdef : P.state.isDef b v = true) :
    (b, v) ∈ P.dKeys :=
  mem_dKeys.mpr ⟨hb, hv, mem_reachableDefs.mpr ⟨b, hb, hdef, .refl⟩⟩

@[simp] theorem mem_rHatKeys {b : NodeId} {v : Value} :
    (b, v) ∈ P.rHatKeys ↔ b ∈ P.cfg.blocks ∧ ∃ g ∈ P.state.eligLiveIn b, v = .global g := by
  simp only [rHatKeys, List.mem_flatMap, List.mem_map, Prod.mk.injEq]
  constructor
  · rintro ⟨a, ha, g, hg, rfl, rfl⟩
    exact ⟨ha, g, hg, rfl⟩
  · rintro ⟨ha, g, hg, rfl⟩
    exact ⟨b, ha, g, hg, rfl, rfl⟩

@[simp] theorem mem_sKeys {b : NodeId} {v : Value} :
    (b, v) ∈ P.sKeys ↔ (b ∈ P.cfg.blocks ∧ b ≠ P.cfg.entryBlock) ∧
      v ∈ P.liveInValues b ∧ ∃ p, P.Edge p b ∧ (p, v) ∈ P.dKeys := by
  simp only [sKeys, List.mem_flatMap, List.mem_map, List.mem_filter, decide_eq_true_eq,
    Prod.mk.injEq, List.any_eq_true, mem_predecessors]
  constructor
  · rintro ⟨a, ha, w, ⟨hw, hp⟩, rfl, rfl⟩
    exact ⟨ha, hw, hp⟩
  · rintro ⟨ha, hw, hp⟩
    exact ⟨b, ha, v, ⟨hw, hp⟩, rfl, rfl⟩

/-! ### Values -/

/-- The placement of a value at a node: `1` for ineligible values. -/
def place (P : CheckpointOptimizer) (x : MilpVar → ℚ) (b : NodeId) : Value → ℚ
  | .global g => (P.mExpr b g).eval x
  | _ => 1

/-- The dirty value of a pair, `0` where no variable was created. -/
def dirty (P : CheckpointOptimizer) (x : MilpVar → ℚ) (b : NodeId) (v : Value) : ℚ :=
  if (b, v) ∈ P.dKeys then x (.d b v) else 0

theorem dirty_of_mem {b : NodeId} {v : Value} (h : (b, v) ∈ P.dKeys) :
    P.dirty x b v = x (.d b v) := if_pos h

theorem dirty_of_not_mem {b : NodeId} {v : Value} (h : (b, v) ∉ P.dKeys) :
    P.dirty x b v = 0 := if_neg h

/-- In coarse mode a placement does not depend on the node. -/
theorem place_coarse (hc : P.coarseAllocation = true) (b c : NodeId) (v : Value) :
    P.place x b v = P.place x c v := by
  cases v with
  | global g => simp [place, mExpr, hc]
  | alloca _ => rfl
  | inst _ => rfl

/-- Dropping the zero summands of a weighted sum changes nothing. -/
private theorem sum_filter_pos {β : Type*} (l : List β) (c f : β → ℚ) (hc : ∀ a, 0 ≤ c a) :
    ((l.filter fun a => 0 < c a).map fun a => c a * f a).sum =
      (l.map fun a => c a * f a).sum := by
  induction l with
  | nil => rfl
  | cons a l ih =>
    by_cases ha : 0 < c a
    · rw [List.filter_cons_of_pos (by simpa using ha), List.map_cons, List.map_cons,
        List.sum_cons, List.sum_cons, ih]
    · have hz : c a = 0 := le_antisymm (not_lt.mp ha) (hc a)
      rw [List.filter_cons_of_neg (by simpa using ha), ih, List.map_cons, List.sum_cons, hz]
      ring

/-- **Block energy**: the base energy plus the NVM penalty of what is not placed in VM. -/
theorem eval_buildEBlk (b : NodeId) :
    (P.buildEBlk b).eval x = P.energy.eBase b +
      (P.state.vmObjs.map fun g => P.energy.eNvm b g * (1 - P.place x b (.global g))).sum := by
  have hfilter : (P.state.vmObjs.filter fun g => P.energy.eNvm b g ≠ 0) =
      P.state.vmObjs.filter fun g => 0 < P.energy.eNvm b g := by
    refine List.filter_congr fun g _ => ?_
    rw [decide_eq_decide]
    exact (P.energy.eNvm_nonneg b g).lt_iff_ne'.symm
  rw [buildEBlk, LinExpr.eval_add, LinExpr.eval_ofRat, LinExpr.eval_sum, List.map_map, hfilter,
    ← sum_filter_pos P.state.vmObjs _ _ (P.energy.eNvm_nonneg b)]
  congr 2
  refine List.map_congr_left fun g _ => ?_
  simp only [Function.comp_apply, LinExpr.eval_sub, LinExpr.eval_ofRat, LinExpr.eval_smul, place]
  ring

/-- The keys of a block, read back from a key list built block by block. -/
private theorem flatMap_filter_key {β : Type*} (blocks : List NodeId) (f : NodeId → List β)
    (q : β → Bool) {b : NodeId} (hb : b ∈ blocks) (hnd : blocks.Nodup) :
    ((blocks.flatMap fun a => (f a).map fun v => (a, v)).filter fun k =>
      k.1 = b ∧ q k.2 = true) = ((f b).filter q).map fun v => (b, v) := by
  -- the part of the block itself, and the parts of the others
  have hself : ∀ l : List β, ((l.map fun v => (b, v)).filter fun k =>
      k.1 = b ∧ q k.2 = true) = (l.filter q).map fun v => (b, v) := by
    intro l
    rw [List.filter_map]
    congr 1
    refine List.filter_congr fun v _ => ?_
    simp
  have hother : ∀ a ≠ b, ∀ l : List β, ((l.map fun v => (a, v)).filter fun k =>
      k.1 = b ∧ q k.2 = true) = [] := by
    intro a hab l
    rw [List.filter_eq_nil_iff]
    intro k hk
    obtain ⟨v, -, rfl⟩ := List.mem_map.mp hk
    simp [hab]
  induction blocks with
  | nil => simp at hb
  | cons a blocks ih =>
    obtain ⟨hnot, hnd'⟩ := List.nodup_cons.mp hnd
    rw [List.flatMap_cons, List.filter_append]
    by_cases hab : a = b
    · subst hab
      have hrest : ((blocks.flatMap fun c => (f c).map fun v => (c, v)).filter fun k =>
          k.1 = a ∧ q k.2 = true) = [] := by
        rw [List.filter_eq_nil_iff]
        intro k hk
        obtain ⟨c, hc, hk⟩ := List.mem_flatMap.mp hk
        obtain ⟨v, -, rfl⟩ := List.mem_map.mp hk
        have hca : c ≠ a := fun h => hnot (h ▸ hc)
        simp [hca]
      rw [hself, hrest, List.append_nil]
    · have hb' : b ∈ blocks := by
        rcases List.mem_cons.mp hb with h | h
        · exact absurd h.symm hab
        · exact h
      rw [hother a hab, List.nil_append, ih hb' hnd']

/-- **Start energy**: prologue, restores of eligible live-ins, restores of ineligible ones. -/
theorem eval_buildEStart {b : NodeId} (hb : b ∈ P.cfg.blocks) :
    (P.buildEStart b).eval x = P.energy.params.ePro * x (.r b) +
      ((P.state.eligLiveIn b).map fun g =>
        P.energy.eRestore (.global g) * x (.rHat b (.global g))).sum +
      ((P.state.ineligLiveIn b).map fun v => P.energy.eRestore v * x (.r b)).sum := by
  have hkeys : (P.rHatKeys.filter fun k => k.1 = b ∧ 0 < P.energy.eRestore k.2) =
      ((P.state.eligLiveIn b).filter fun g => 0 < P.energy.eRestore (.global g)).map
        fun g => (b, .global g) := by
    have h := flatMap_filter_key P.cfg.blocks (fun a => (P.state.eligLiveIn a).map Value.global)
      (fun v => decide (0 < P.energy.eRestore v)) hb P.cfg.blocks_nodup
    simp only [List.map_map, decide_eq_true_eq] at h
    rw [rHatKeys]
    refine h.trans ?_
    rw [List.filter_map, List.map_map]
    rfl
  -- terms of cost zero are not built, and change no sum
  have helig := sum_filter_pos (P.state.eligLiveIn b)
    (fun g => P.energy.eRestore (.global g)) (fun g => x (.rHat b (.global g)))
    fun g => P.energy.eRestore_nonneg _
  have hinelig := sum_filter_pos (P.state.ineligLiveIn b) (fun v => P.energy.eRestore v)
    (fun _ => x (.r b)) fun v => P.energy.eRestore_nonneg _
  rw [buildEStart, hkeys, LinExpr.eval_add, LinExpr.eval_add, LinExpr.eval_smul,
    LinExpr.eval_var, LinExpr.eval_sum, LinExpr.eval_sum, ← helig, ← hinelig]
  simp only [List.map_map]
  congr 2
  · congr 2
    funext g
    simp
  · congr 1
    funext v
    simp

/-- The values a node has save variables for. -/
def saveKeysAt (P : CheckpointOptimizer) (b : NodeId) : List Value :=
  if b = P.cfg.entryBlock then []
  else (P.liveInValues b).filter fun v => (P.predecessors b).any fun p => (p, v) ∈ P.dKeys

theorem mem_saveKeysAt {b : NodeId} {v : Value} (hb : b ∈ P.cfg.blocks) :
    v ∈ P.saveKeysAt b ↔ (b, v) ∈ P.sKeys := by
  rw [mem_sKeys, saveKeysAt]
  split_ifs with h
  · simp [h]
  · simp [h, hb]

/-- **Save energy**: the charged saves of a node. -/
theorem eval_saveTerms {b : NodeId} (hb : b ∈ P.cfg.blocks) :
    (P.saveTerms b).eval x =
      ((P.saveKeysAt b).map fun v => P.energy.eSave v * x (.s b v)).sum := by
  have hkeys : (P.sKeys.filter fun k => k.1 = b ∧ 0 < P.energy.eSave k.2) =
      ((P.saveKeysAt b).filter fun v => 0 < P.energy.eSave v).map fun v => (b, v) := by
    rw [saveKeysAt, sKeys]
    split_ifs with h
    · rw [List.filter_nil, List.map_nil, List.filter_eq_nil_iff]
      intro k hk
      obtain ⟨a, ha, hk⟩ := List.mem_flatMap.mp hk
      obtain ⟨v, -, rfl⟩ := List.mem_map.mp hk
      have hne : a ≠ P.cfg.entryBlock := by simpa using (List.mem_filter.mp ha).2
      simp [h, hne]
    · have hmem : b ∈ P.cfg.blocks.filter fun a => a ≠ P.cfg.entryBlock :=
        List.mem_filter.mpr ⟨hb, by simpa using h⟩
      have hk := flatMap_filter_key _ (fun a => (P.liveInValues a).filter fun v =>
        (P.predecessors a).any fun p => (p, v) ∈ P.dKeys)
        (fun v => decide (0 < P.energy.eSave v)) hmem (P.cfg.blocks_nodup.filter _)
      simpa only [decide_eq_true_eq] using hk
  rw [saveTerms, hkeys, LinExpr.eval_sum, ← sum_filter_pos (P.saveKeysAt b) _ _
    P.energy.eSave_nonneg, List.map_map, List.map_map]
  congr 1
  refine List.map_congr_left fun v _ => ?_
  simp

/-- **End energy**: epilogue and charged saves. -/
theorem eval_buildEEnd {b : NodeId} (hb : b ∈ P.cfg.blocks) :
    (P.buildEEnd b).eval x = P.energy.params.eEpi * x (.r b) +
      ((P.saveKeysAt b).map fun v => P.energy.eSave v * x (.s b v)).sum := by
  rw [buildEEnd, LinExpr.eval_add, LinExpr.eval_smul, LinExpr.eval_var, eval_saveTerms hb]

/-- The dirty sum of C7' and C9' adds the dirty values of the predecessors. -/
theorem eval_predDirtySum (b : NodeId) (v : Value) :
    (P.predDirtySum b v).eval x = ((P.predecessors b).map fun p => P.dirty x p v).sum := by
  have hsum : ∀ l : List NodeId,
      ((l.filter fun p => (p, v) ∈ P.dKeys).map fun p => x (.d p v)).sum =
        (l.map fun p => P.dirty x p v).sum := by
    intro l
    induction l with
    | nil => rfl
    | cons p l ih =>
      by_cases hp : (p, v) ∈ P.dKeys
      · rw [List.filter_cons_of_pos (by simpa using hp), List.map_cons, List.map_cons,
          List.sum_cons, List.sum_cons, ih, dirty_of_mem hp]
      · rw [List.filter_cons_of_neg (by simpa using hp), ih, List.map_cons, List.sum_cons,
          dirty_of_not_mem hp, zero_add]
  rw [predDirtySum, LinExpr.eval_sum, List.map_map, ← hsum]
  congr 1
  refine List.map_congr_left fun p _ => ?_
  simp

/-! ### The meaning of the constraints -/

/-- Everything the model asks of an assignment, as inequalities between values. -/
structure Satisfies (P : CheckpointOptimizer) (x : MilpVar → ℚ) : Prop where
  r_binary : ∀ b ∈ P.cfg.blocks, x (.r b) = 0 ∨ x (.r b) = 1
  place_binary : ∀ b ∈ P.cfg.blocks, ∀ g ∈ P.state.vmObjs,
    P.place x b (.global g) = 0 ∨ P.place x b (.global g) = 1
  d_bounds : ∀ b v, (b, v) ∈ P.dKeys → 0 ≤ x (.d b v) ∧ x (.d b v) ≤ 1
  rHat_bounds : ∀ b v, (b, v) ∈ P.rHatKeys → 0 ≤ x (.rHat b v) ∧ x (.rHat b v) ≤ 1
  s_bounds : ∀ b v, (b, v) ∈ P.sKeys → 0 ≤ x (.s b v) ∧ x (.s b v) ≤ 1
  eAccum_bounds : ∀ b ∈ P.cfg.blocks,
    0 ≤ x (.eAccum b) ∧ x (.eAccum b) ≤ P.energy.params.capacity
  /-- C1 -/
  entry : x (.r P.cfg.entryBlock) = 1
  /-- C2 -/
  vmCapacity : ∀ b ∈ P.cfg.blocks,
    (P.vmUsage b).eval x ≤ P.energy.params.vmCapacityBytes - P.ineligibleUsage
  /-- C4 -/
  rHat_le_r : ∀ b v, (b, v) ∈ P.rHatKeys → x (.rHat b v) ≤ x (.r b)
  rHat_le_place : ∀ b v, (b, v) ∈ P.rHatKeys → x (.rHat b v) ≤ P.place x b v
  le_rHat : ∀ b v, (b, v) ∈ P.rHatKeys → x (.r b) + P.place x b v - 1 ≤ x (.rHat b v)
  /-- C5 -/
  def_le_d : ∀ b v, (b, v) ∈ P.dKeys → P.defCoeff b v ≤ x (.d b v)
  /-- C6 -/
  d_edge : ∀ b c v, P.Edge b c → (b, v) ∈ P.dKeys → x (.d b v) - x (.r c) ≤ x (.d c v)
  /-- C7' -/
  d_le_sum : ∀ b v, (b, v) ∈ P.dKeys →
    x (.d b v) ≤ P.defCoeff b v + ((P.predecessors b).map fun p => P.dirty x p v).sum
  /-- C7 -/
  d_reset : ∀ b v, (b, v) ∈ P.dKeys → x (.d b v) ≤ P.defCoeff b v + (1 - x (.r b))
  /-- C9' -/
  s_le_r : ∀ b v, (b, v) ∈ P.sKeys → x (.s b v) ≤ x (.r b)
  s_le_dirty : ∀ b v, (b, v) ∈ P.sKeys →
    x (.s b v) ≤ ((P.predecessors b).map fun p => P.dirty x p v).sum
  s_le_place_fine : P.coarseAllocation = false → ∀ b g, (b, .global g) ∈ P.sKeys →
    x (.s b (.global g)) ≤ ((P.predecessors b).map fun p => P.place x p (.global g)).sum
  s_le_place_coarse : P.coarseAllocation = true → ∀ b g, (b, .global g) ∈ P.sKeys →
    x (.s b (.global g)) ≤ P.place x b (.global g)
  /-- C9 -/
  le_s : ∀ b c v, P.Edge b c → (c, v) ∈ P.sKeys → (b, v) ∈ P.dKeys →
    x (.d b v) + P.place x b v + x (.r c) - 2 ≤ x (.s c v)
  /-- C10 -/
  init_lb : ∀ b ∈ P.cfg.blocks,
    (P.buildEStart b).eval x - P.energy.params.capacity * (1 - x (.r b)) ≤ x (.eAccum b)
  init_ub : ∀ b ∈ P.cfg.blocks,
    x (.eAccum b) ≤ (P.buildEStart b).eval x + P.energy.params.capacity * (1 - x (.r b))
  /-- C11 -/
  propagation : ∀ b c, P.Edge b c →
    x (.eAccum b) + (P.buildEBlk b).eval x - P.energy.params.capacity * x (.r c) ≤
      x (.eAccum c)
  /-- C12 -/
  edge_capacity : ∀ b c, P.Edge b c →
    x (.eAccum b) + (P.buildEBlk b).eval x + (P.buildEEnd c).eval x ≤ P.energy.params.capacity
  /-- C13 -/
  exit_capacity : ∀ b ∈ P.cfg.exitBlocks,
    x (.eAccum b) + (P.buildEBlk b).eval x ≤ P.energy.params.capacity
  /-- C14 -/
  place_edge : ∀ b c, P.Edge b c → ∀ g ∈ P.state.vmObjs,
    P.place x c (.global g) ≤ P.place x b (.global g) + x (.r c) ∧
      P.place x b (.global g) - x (.r c) ≤ P.place x c (.global g)
  /-- C15 -/
  place_merge : ∀ b c d, P.Edge b d → P.Edge c d → d ≠ P.cfg.entryBlock →
    ∀ g ∈ P.state.vmObjs, P.place x b (.global g) = P.place x c (.global g)

theorem forall_constrainEntry :
    (∀ c ∈ P.constrainEntryAsRegionStart, c.Holds x) ↔ x (.r P.cfg.entryBlock) = 1 := by
  simp [constrainEntryAsRegionStart]

theorem forall_constrainNeedRestore :
    (∀ c ∈ P.constrainNeedRestoreLinearization, c.Holds x) ↔
      ∀ b v, (b, v) ∈ P.rHatKeys → x (.rHat b v) ≤ x (.r b) ∧
        x (.rHat b v) ≤ P.place x b v ∧ x (.r b) + P.place x b v - 1 ≤ x (.rHat b v) := by
  simp only [constrainNeedRestoreLinearization, List.forall_mem_flatMap, List.forall_mem_cons,
    List.not_mem_nil, false_imp_iff, implies_true, and_true, Constraint.holds_le,
    Constraint.holds_ge, LinExpr.eval_var, LinExpr.eval_sub, LinExpr.eval_add,
    LinExpr.eval_ofRat, mem_rHatKeys]
  constructor
  · rintro h b v ⟨hb, g, hg, rfl⟩
    exact h b hb g hg
  · intro h b hb g hg
    exact h b (.global g) ⟨hb, g, hg, rfl⟩

theorem forall_constrainVMCapacity :
    (∀ c ∈ P.constrainVMCapacity, c.Holds x) ↔ ∀ b ∈ P.cfg.blocks,
      (P.vmUsage b).eval x ≤ P.energy.params.vmCapacityBytes - P.ineligibleUsage := by
  rw [constrainVMCapacity]
  by_cases hc : P.coarseAllocation = true
  · have husage : ∀ b, P.vmUsage b = P.vmUsage P.cfg.entryBlock := by
      intro b
      simp only [vmUsage, mExpr, hc, if_true]
    simp only [hc, if_true, List.forall_mem_singleton, Constraint.holds_le, LinExpr.eval_ofRat]
    constructor
    · intro h b _
      rw [husage b]
      exact h
    · intro h
      exact h _ P.cfg.entry_mem
  · simp [hc]

theorem forall_constrainPlacement (hr : ∀ b ∈ P.cfg.blocks, 0 ≤ x (.r b)) :
    (∀ c ∈ P.constrainPlacementPropagation, c.Holds x) ↔
      (∀ b c, P.Edge b c → ∀ g ∈ P.state.vmObjs,
        P.place x c (.global g) ≤ P.place x b (.global g) + x (.r c) ∧
          P.place x b (.global g) - x (.r c) ≤ P.place x c (.global g)) ∧
      ∀ b c d, P.Edge b d → P.Edge c d → d ≠ P.cfg.entryBlock →
        ∀ g ∈ P.state.vmObjs, P.place x b (.global g) = P.place x c (.global g) := by
  rw [constrainPlacementPropagation]
  by_cases hc : P.coarseAllocation = true
  · simp only [hc, if_true, List.not_mem_nil, false_imp_iff, implies_true, true_iff]
    refine ⟨fun b c he g _ => ?_, fun b c d _ _ _ g _ => place_coarse hc b c _⟩
    rw [place_coarse hc c b]
    have := hr c he.dst_mem
    constructor <;> linarith
  · have hplace : ∀ b g, P.place x b (.global g) = x (.m b (.global g)) := by
      intro b g
      simp [place, mExpr, hc]
    simp only [hc, Bool.false_eq_true, if_false, List.forall_mem_append, hplace]
    refine and_congr ?_ ?_
    · simp only [constrainPlacementEdges, List.forall_mem_flatMap, List.forall_mem_cons,
        List.not_mem_nil, false_imp_iff, implies_true, and_true, Constraint.holds_le,
        Constraint.holds_ge, LinExpr.eval_var, LinExpr.eval_sub, LinExpr.eval_add, Prod.forall]
      rfl
    · simp only [constrainPlacementMerges, List.forall_mem_flatMap, List.mem_filter,
        decide_eq_true_eq, and_imp]
      constructor
      · intro h b c d hbd hcd hd g hg
        have hd' := h d hbd.dst_mem hd
        have hb := mem_predecessors.mpr hbd
        have hc' := mem_predecessors.mpr hcd
        cases hp : P.predecessors d with
        | nil => simp [hp] at hb
        | cons first others =>
          -- every predecessor agrees with the first one
          have hfirst : ∀ p ∈ P.predecessors d,
              x (.m first (.global g)) = x (.m p (.global g)) := by
            rw [hp] at hd' ⊢
            intro p hmem
            rcases List.mem_cons.mp hmem with rfl | hmem
            · rfl
            · have heq := hd' ⟨_, .eq, _⟩
                (List.mem_flatMap.mpr ⟨g, hg, List.mem_map.mpr ⟨p, hmem, rfl⟩⟩)
              simpa using heq
          rw [← hfirst b hb, ← hfirst c hc']
      · intro h d hd hne
        cases hp : P.predecessors d with
        | nil => simp
        | cons first others =>
          simp only [List.forall_mem_flatMap, List.forall_mem_map, Constraint.holds_eq,
            LinExpr.eval_var]
          intro g hg p hmem
          have hf : first ∈ P.predecessors d := by simp [hp]
          have hpm : p ∈ P.predecessors d := by simp [hp, hmem]
          exact h first p d (mem_predecessors.mp hf) (mem_predecessors.mp hpm) hne g hg

theorem forall_constrainDirty :
    (∀ c ∈ P.constrainDirtyPropagation, c.Holds x) ↔
      (∀ b v, (b, v) ∈ P.dKeys → P.defCoeff b v ≤ x (.d b v) ∧
        x (.d b v) ≤ P.defCoeff b v + ((P.predecessors b).map fun p => P.dirty x p v).sum ∧
        x (.d b v) ≤ P.defCoeff b v + (1 - x (.r b))) ∧
      ∀ b c v, P.Edge b c → (b, v) ∈ P.dKeys → x (.d b v) - x (.r c) ≤ x (.d c v) := by
  rw [constrainDirtyPropagation, List.forall_mem_append]
  refine and_congr ?_ ?_
  · simp only [List.forall_mem_flatMap, List.forall_mem_cons, List.not_mem_nil, false_imp_iff,
      implies_true, and_true, Constraint.holds_le, Constraint.holds_ge, LinExpr.eval_var,
      LinExpr.eval_sub, LinExpr.eval_add, LinExpr.eval_ofRat, eval_predDirtySum, Prod.forall]
  · simp only [List.forall_mem_flatMap, List.forall_mem_map, List.mem_filter, Bool.and_eq_true,
      decide_eq_true_eq, Constraint.holds_ge, LinExpr.eval_var, LinExpr.eval_sub, Prod.forall]
    constructor
    · intro h b c v he hk
      exact h b c he v ⟨(mem_dKeys.mp hk).2.1, hk, dKeys_step hk he⟩
    · intro h b c he v hv
      exact h b c v he hv.2.1

/-- The placement part of C9'. -/
theorem forall_constrainSaveLePlace {b : NodeId} {v : Value} :
    (∀ c ∈ P.constrainSaveLePlace (b, v), c.Holds x) ↔
      (P.coarseAllocation = false → ∀ g, v = .global g → x (.s b (.global g)) ≤
        ((P.predecessors b).map fun p => P.place x p (.global g)).sum) ∧
      (P.coarseAllocation = true → ∀ g, v = .global g →
        x (.s b (.global g)) ≤ P.place x b (.global g)) := by
  cases v with
  | global g =>
    by_cases hc : P.coarseAllocation = true
    · simp [constrainSaveLePlace, hc, place, mExpr]
    · have hf : P.coarseAllocation = false := by simpa using hc
      simp [constrainSaveLePlace, hf, place, mExpr, Function.comp_def]
  | alloca _ => simp [constrainSaveLePlace]
  | inst _ => simp [constrainSaveLePlace]

theorem constrainSaveEdge_holds {b c : NodeId} {v : Value} :
    (P.constrainSaveEdge (b, c) v).Holds x ↔
      x (.d b v) + P.place x b v + x (.r c) - 2 ≤ x (.s c v) := by
  have hone : x (.d b v) + 1 + x (.r c) - 2 = x (.d b v) + x (.r c) - 1 := by ring
  cases v with
  | global g => simp [constrainSaveEdge, place]
  | alloca _ => simp only [constrainSaveEdge, place, hone]; simp
  | inst _ => simp only [constrainSaveEdge, place, hone]; simp

theorem forall_constrainSave :
    (∀ c ∈ P.constrainSaveAtRegionBoundary, c.Holds x) ↔
      (∀ b v, (b, v) ∈ P.sKeys → x (.s b v) ≤ x (.r b) ∧
        x (.s b v) ≤ ((P.predecessors b).map fun p => P.dirty x p v).sum ∧
        ∀ c ∈ P.constrainSaveLePlace (b, v), c.Holds x) ∧
      ∀ b c v, P.Edge b c → (c, v) ∈ P.sKeys → (b, v) ∈ P.dKeys →
        x (.d b v) + P.place x b v + x (.r c) - 2 ≤ x (.s c v) := by
  rw [constrainSaveAtRegionBoundary, List.forall_mem_append]
  refine and_congr ?_ ?_
  · simp only [List.forall_mem_flatMap, List.cons_append, List.nil_append, List.forall_mem_cons,
      Constraint.holds_le, LinExpr.eval_var, eval_predDirtySum, Prod.forall]
  · simp only [List.forall_mem_flatMap, List.forall_mem_map, List.mem_filter, decide_eq_true_eq,
      and_imp, Prod.forall, constrainSaveEdge_holds]
    constructor
    · intro h b c v he hs hd
      exact h b c he c v hs rfl hd
    · rintro h b c he a v hs rfl hd
      exact h b a v he hs hd

theorem forall_constrainEnergy :
    (∀ c ∈ P.constrainEnergyInitAtRegionStart ++ P.constrainEnergyPropagation ++
        P.constrainEnergyWithinCapacity, c.Holds x) ↔
      (∀ b ∈ P.cfg.blocks,
        (P.buildEStart b).eval x - P.energy.params.capacity * (1 - x (.r b)) ≤ x (.eAccum b) ∧
        x (.eAccum b) ≤ (P.buildEStart b).eval x + P.energy.params.capacity * (1 - x (.r b))) ∧
      (∀ b c, P.Edge b c → x (.eAccum b) + (P.buildEBlk b).eval x -
        P.energy.params.capacity * x (.r c) ≤ x (.eAccum c)) ∧
      (∀ b c, P.Edge b c → x (.eAccum b) + (P.buildEBlk b).eval x + (P.buildEEnd c).eval x ≤
        P.energy.params.capacity) ∧
      ∀ b ∈ P.cfg.exitBlocks,
        x (.eAccum b) + (P.buildEBlk b).eval x ≤ P.energy.params.capacity := by
  simp only [constrainEnergyInitAtRegionStart, constrainEnergyPropagation,
    constrainEnergyWithinCapacity, List.forall_mem_append, List.forall_mem_flatMap,
    List.forall_mem_map, List.forall_mem_cons, List.not_mem_nil, false_imp_iff, implies_true,
    and_true, Constraint.holds_le, Constraint.holds_ge, LinExpr.eval_var, LinExpr.eval_sub,
    LinExpr.eval_add, LinExpr.eval_smul, LinExpr.eval_ofRat, Prod.forall, and_assoc]
  rfl

/-- A binary declaration only says that the variable is `0` or `1`. -/
private theorem holds_binary {i : MilpVar} :
    (VarDecl.mk i 0 1 .binary).Holds x ↔ x i = 0 ∨ x i = 1 := by
  constructor
  · intro h
    exact h.2.2 rfl
  · intro h
    rcases h with h | h <;> simp [VarDecl.Holds, h]

private theorem holds_continuous {i : MilpVar} {lb ub : ℚ} :
    (VarDecl.mk i lb ub .continuous).Holds x ↔ lb ≤ x i ∧ x i ≤ ub := by
  simp [VarDecl.Holds]

/-- The placement variables, in either mode. -/
private theorem forall_placementVars :
    ((∀ d ∈ (if P.coarseAllocation then
        P.state.vmObjs.map fun g => (⟨.mGlobal g, 0, 1, .binary⟩ : VarDecl MilpVar) else []),
        d.Holds x) ∧
      ∀ k ∈ P.mKeys, (VarDecl.mk (.m k.1 k.2) 0 1 .binary).Holds x) ↔
      ∀ b ∈ P.cfg.blocks, ∀ g ∈ P.state.vmObjs,
        P.place x b (.global g) = 0 ∨ P.place x b (.global g) = 1 := by
  -- one variable for each global, or one for each global and node
  by_cases hc : P.coarseAllocation = true
  · simp only [hc, if_true, List.forall_mem_map, holds_binary, mKeys, List.not_mem_nil,
      false_imp_iff, implies_true, and_true, place, mExpr, LinExpr.eval_var]
    constructor
    · intro h b _
      exact h
    · intro h
      exact h _ P.cfg.entry_mem
  · simp only [hc, Bool.false_eq_true, if_false, List.not_mem_nil, false_imp_iff, implies_true,
      true_and, mKeys, List.forall_mem_flatMap, List.forall_mem_map, holds_binary,
      List.mem_filter, place, mExpr, LinExpr.eval_var]
    refine forall₂_congr fun b _ => ?_
    constructor
    · intro h g hg
      refine h (.global g) ⟨global_mem_tracked hg, ?_⟩
      have hnot : Value.global g ∉ P.state.ineligibleObjs :=
        fun hmem => P.state.ineligible_ne_global _ hmem g rfl
      simp [IStateView.isIneligible, hnot]
    · rintro h v ⟨hv, hinelig⟩
      rcases List.mem_append.mp hv with hv | hv
      · obtain ⟨g, hg, rfl⟩ := List.mem_map.mp hv
        exact h g hg
      · simp [IStateView.isIneligible, hv] at hinelig

/-- **The meaning of the declarations.** -/
theorem forall_addVariables : (∀ v ∈ P.addVariables, v.Holds x) ↔
    (∀ b ∈ P.cfg.blocks, x (.r b) = 0 ∨ x (.r b) = 1) ∧
    (∀ b ∈ P.cfg.blocks, ∀ g ∈ P.state.vmObjs,
      P.place x b (.global g) = 0 ∨ P.place x b (.global g) = 1) ∧
    (∀ b v, (b, v) ∈ P.dKeys → 0 ≤ x (.d b v) ∧ x (.d b v) ≤ 1) ∧
    (∀ b v, (b, v) ∈ P.rHatKeys → 0 ≤ x (.rHat b v) ∧ x (.rHat b v) ≤ 1) ∧
    (∀ b v, (b, v) ∈ P.sKeys → 0 ≤ x (.s b v) ∧ x (.s b v) ≤ 1) ∧
    ∀ b ∈ P.cfg.blocks,
      0 ≤ x (.eAccum b) ∧ x (.eAccum b) ≤ P.energy.params.capacity := by
  rw [← forall_placementVars]
  simp only [addVariables, List.forall_mem_append, List.forall_mem_map, holds_binary,
    holds_continuous, Prod.forall, and_assoc]

/-- **The meaning of the model**: an assignment is feasible exactly when it satisfies the
inequalities of `Satisfies`. -/
theorem feasible_iff : P.buildModel.Feasible x ↔ P.Satisfies x := by
  have hconstrs : (∀ c ∈ P.addConstraints, c.Holds x) ↔
      (∀ c ∈ P.constrainEntryAsRegionStart, c.Holds x) ∧
      (∀ c ∈ P.constrainNeedRestoreLinearization, c.Holds x) ∧
      (∀ c ∈ P.constrainVMCapacity, c.Holds x) ∧
      (∀ c ∈ P.constrainPlacementPropagation, c.Holds x) ∧
      (∀ c ∈ P.constrainDirtyPropagation, c.Holds x) ∧
      (∀ c ∈ P.constrainSaveAtRegionBoundary, c.Holds x) ∧
      ∀ c ∈ P.constrainEnergyInitAtRegionStart ++ P.constrainEnergyPropagation ++
        P.constrainEnergyWithinCapacity, c.Holds x := by
    simp only [addConstraints, constrainIneligiblePlacement, List.forall_mem_append,
      List.not_mem_nil, false_imp_iff, implies_true, and_true, and_assoc]
  rw [Model.Feasible, buildModel, forall_addVariables, hconstrs, forall_constrainEntry,
    forall_constrainNeedRestore, forall_constrainVMCapacity, forall_constrainDirty,
    forall_constrainSave, forall_constrainEnergy]
  constructor
  · rintro ⟨⟨hr, hm, hd, hrh, hs, he⟩, hentry, h4, h2, hplace, ⟨h5, h6⟩, ⟨h9', h9⟩, h10, h11,
      h12, h13⟩
    have hr0 : ∀ b ∈ P.cfg.blocks, 0 ≤ x (.r b) := by
      intro b hb
      rcases hr b hb with h | h <;> simp [h]
    -- C14 is not built under coarse allocation, where it holds because starts are non-negative
    obtain ⟨h14, h15⟩ := (forall_constrainPlacement hr0).mp hplace
    exact ⟨hr, hm, hd, hrh, hs, he, hentry, h2, fun b v hk => (h4 b v hk).1,
      fun b v hk => (h4 b v hk).2.1, fun b v hk => (h4 b v hk).2.2,
      fun b v hk => (h5 b v hk).1, h6, fun b v hk => (h5 b v hk).2.1,
      fun b v hk => (h5 b v hk).2.2, fun b v hk => (h9' b v hk).1,
      fun b v hk => (h9' b v hk).2.1,
      fun hc b g hk => (forall_constrainSaveLePlace.mp (h9' b _ hk).2.2).1 hc g rfl,
      fun hc b g hk => (forall_constrainSaveLePlace.mp (h9' b _ hk).2.2).2 hc g rfl,
      h9, fun b hb => (h10 b hb).1, fun b hb => (h10 b hb).2, h11, h12, h13, h14, h15⟩
  · intro h
    have hr0 : ∀ b ∈ P.cfg.blocks, 0 ≤ x (.r b) := by
      intro b hb
      rcases h.r_binary b hb with h | h <;> simp [h]
    refine ⟨⟨h.r_binary, h.place_binary, h.d_bounds, h.rHat_bounds, h.s_bounds,
      h.eAccum_bounds⟩, h.entry, ?_, h.vmCapacity,
      (forall_constrainPlacement hr0).mpr ⟨h.place_edge, h.place_merge⟩, ⟨?_, h.d_edge⟩,
      ⟨?_, h.le_s⟩, ?_, h.propagation, h.edge_capacity, h.exit_capacity⟩
    · exact fun b v hk => ⟨h.rHat_le_r b v hk, h.rHat_le_place b v hk, h.le_rHat b v hk⟩
    · exact fun b v hk => ⟨h.def_le_d b v hk, h.d_le_sum b v hk, h.d_reset b v hk⟩
    · refine fun b v hk => ⟨h.s_le_r b v hk, h.s_le_dirty b v hk,
        forall_constrainSaveLePlace.mpr ⟨?_, ?_⟩⟩
      · rintro hc g rfl
        exact h.s_le_place_fine hc b g hk
      · rintro hc g rfl
        exact h.s_le_place_coarse hc b g hk
    · exact fun b hb => ⟨h.init_lb b hb, h.init_ub b hb⟩

/-! ### The extracted placement -/

/-- The rounding of `extractSolution` reads a binary placement back. -/
theorem Satisfies.extract_m (h : P.Satisfies x) {b : NodeId} {g : GlobalVariable}
    (hb : b ∈ P.cfg.blocks) (hg : g ∈ P.state.vmObjs) :
    (P.extractSolution x).m b (.global g) = true ↔ P.place x b (.global g) = 1 := by
  simp only [extractSolution, hb, hg, decide_true, Bool.true_and, decide_eq_true_eq]
  change 1 / 2 < P.place x b (.global g) ↔ _
  rcases h.place_binary b hb g hg with hp | hp <;> norm_num [hp]

end Bao.Milp.CheckpointOptimizer
