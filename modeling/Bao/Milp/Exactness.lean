import Bao.Milp.EnergySafety

/-!
# Exactness of the relaxed variables

Only `r` and `m` are declared binary; `d`, `s` and `rHat` range over `[0, 1]` and are pinned
down by their constraints. The accumulated energy rises along every edge inside a region, and
strictly so at a node with positive base energy. Unless some cycle is free of energy
(`NoFreeCycle`), regions are therefore acyclic and the upper bound C7' on `d` can be followed
backwards to a defining node (`Satisfies.dirtyInRegion_of_pos`).
This makes `d` the indicator of `DirtyInRegion`, and, with the merge equality C15, makes `s`
the indicator of a save that is really needed. The rounding of `extractSolution` is then
harmless.
-/

namespace Bao.Milp.CheckpointOptimizer

variable {P : CheckpointOptimizer} {x : MilpVar → ℚ}

/-- A step of the graph that stays inside the current region. -/
def RegionStep (P : CheckpointOptimizer) (x : MilpVar → ℚ) (b c : NodeId) : Prop :=
  P.Edge b c ∧ x (.r c) = 0

/-- A region step from a node without base energy. -/
def FreeStep (P : CheckpointOptimizer) (x : MilpVar → ℚ) (b c : NodeId) : Prop :=
  P.RegionStep x b c ∧ P.energy.eBase b = 0

/-- No cycle inside a region is free of energy. -/
def NoFreeCycle (P : CheckpointOptimizer) (x : MilpVar → ℚ) : Prop :=
  ∀ b, ¬Relation.TransGen (P.FreeStep x) b b

/-- Some node on a path inside the current region, up to and including `b`, defines `v`. -/
def DirtyInRegion (P : CheckpointOptimizer) (x : MilpVar → ℚ) (b : NodeId) (v : Value) : Prop :=
  ∃ a, P.state.isDef a v = true ∧ Relation.ReflTransGen (P.RegionStep x) a b

/-- A save is needed at a region start whose predecessor leaves a dirty value in VM. -/
def SaveNeeded (P : CheckpointOptimizer) (x : MilpVar → ℚ) (b : NodeId) (v : Value) : Prop :=
  x (.r b) = 1 ∧ ∃ p, P.Edge p b ∧ (p, v) ∈ P.dKeys ∧ x (.d p v) = 1 ∧ P.place x p v = 1

theorem list_sum_nonpos {l : List ℚ} (h : ∀ q ∈ l, q ≤ 0) : l.sum ≤ 0 := by
  have hle := List.sum_le_card_nsmul l 0 h
  rwa [nsmul_zero] at hle

/-! ### Restores -/

/-- `rHat` is the conjunction of `r` and `m`. -/
theorem Satisfies.rHat_eq (h : P.Satisfies x) {b : NodeId} {v : Value}
    (hk : (b, v) ∈ P.rHatKeys) :
    (x (.r b) = 1 ∧ P.place x b v = 1 → x (.rHat b v) = 1) ∧
      (¬(x (.r b) = 1 ∧ P.place x b v = 1) → x (.rHat b v) = 0) := by
  obtain ⟨hlo, hhi⟩ := h.rHat_bounds b v hk
  have hr := h.rHat_le_r b v hk
  have hm := h.rHat_le_place b v hk
  have hge := h.le_rHat b v hk
  obtain ⟨hb, g, hg, rfl⟩ := mem_rHatKeys.mp hk
  have hplace := h.place_binary b hb g (P.state.eligLiveIn_subset b g hg)
  constructor
  · rintro ⟨h1, h2⟩
    linarith
  · intro hnot
    rcases h.r_binary b hb with h0 | h1
    · linarith
    · rcases hplace with h0 | h1'
      · linarith
      · exact absurd ⟨h1, h1'⟩ hnot

/-! ### Dirty bits -/

/-- A region path stays on pairs with a dirty variable. -/
theorem dKeys_of_regionPath {a b : NodeId} {v : Value} (ha : (a, v) ∈ P.dKeys)
    (hab : Relation.ReflTransGen (P.RegionStep x) a b) : (b, v) ∈ P.dKeys := by
  induction hab with
  | refl => exact ha
  | tail _ hstep ih => exact dKeys_step ih hstep.1

/-- The first node of a region path that ends at a node is a node. -/
theorem regionPath_src_mem {a b : NodeId} (hb : b ∈ P.cfg.blocks)
    (hab : Relation.ReflTransGen (P.RegionStep x) a b) : a ∈ P.cfg.blocks := by
  rcases Relation.ReflTransGen.cases_head hab with rfl | ⟨c, hac, -⟩
  · exact hb
  · exact hac.1.src_mem

/-- **Lower bound.** A definition inside the region makes the dirty bit `1`. -/
theorem Satisfies.d_eq_one (h : P.Satisfies x) {b : NodeId} {v : Value}
    (hk : (b, v) ∈ P.dKeys) (hd : P.DirtyInRegion x b v) : x (.d b v) = 1 := by
  obtain ⟨a, hdef, hab⟩ := hd
  have ha : (a, v) ∈ P.dKeys :=
    mem_dKeys_of_isDef (regionPath_src_mem (mem_dKeys.mp hk).1 hab) (mem_dKeys.mp hk).2.1 hdef
  have hge : 1 ≤ x (.d b v) := by
    clear hk
    induction hab with
    | refl =>
      have := h.def_le_d a v ha
      rwa [defCoeff, if_pos hdef] at this
    | @tail c d hac hstep ih =>
      have hedge := h.d_edge c d v hstep.1 (dKeys_of_regionPath ha hac)
      rw [hstep.2, sub_zero] at hedge
      exact ih.trans hedge
  exact le_antisymm (h.d_bounds b v hk).2 hge

/-- A non-zero dirty sum has a dirty predecessor. -/
theorem exists_pred_of_sum_pos {b : NodeId} {v : Value}
    (hpos : 0 < ((P.predecessors b).map fun p => P.dirty x p v).sum) :
    ∃ p, P.Edge p b ∧ (p, v) ∈ P.dKeys ∧ 0 < x (.d p v) := by
  by_contra hno
  have hle : ((P.predecessors b).map fun p => P.dirty x p v).sum ≤ 0 := by
    refine list_sum_nonpos fun q hq => ?_
    obtain ⟨p, hp, rfl⟩ := List.mem_map.mp hq
    by_cases hk : (p, v) ∈ P.dKeys
    · rw [dirty_of_mem hk]
      exact not_lt.mp fun hlt => hno ⟨p, mem_predecessors.mp hp, hk, hlt⟩
    · exact (dirty_of_not_mem hk).le
  exact absurd hpos (not_lt.mpr hle)

theorem noFreeCycle_of_eBase_pos (hbase : ∀ b ∈ P.cfg.blocks, 0 < P.energy.eBase b) :
    P.NoFreeCycle x := by
  intro b hcycle
  obtain ⟨c, hstep, -⟩ := Relation.TransGen.head'_iff.mp hcycle
  exact absurd hstep.2 (hbase b hstep.1.1.src_mem).ne'

/-- Along a region path the accumulated energy rises, unless the path is free. -/
theorem Satisfies.accum_lt_or_free (h : P.Satisfies x) {a b : NodeId}
    (hab : Relation.TransGen (P.RegionStep x) a b) :
    x (.eAccum a) < x (.eAccum b) ∨
      x (.eAccum a) ≤ x (.eAccum b) ∧ Relation.TransGen (P.FreeStep x) a b := by
  have hrise : ∀ {c d}, P.RegionStep x c d →
      x (.eAccum c) + P.energy.eBase c ≤ x (.eAccum d) := by
    intro c d hstep
    calc x (.eAccum c) + P.energy.eBase c
        ≤ x (.eAccum c) + P.blockEnergy x c := by
          gcongr
          exact h.eBase_le_blockEnergy hstep.1.src_mem
      _ ≤ x (.eAccum d) := h.accum_step hstep.1 hstep.2
  -- a step is free only at a node without base energy
  induction hab with
  | @single c hstep =>
    have hle := hrise hstep
    rcases (P.energy.eBase_nonneg a).eq_or_lt' with hzero | hpos
    · exact .inr ⟨by simpa [hzero] using hle, .single ⟨hstep, hzero⟩⟩
    · exact .inl ((lt_add_of_pos_right _ hpos).trans_le hle)
  | @tail c d _ hstep ih =>
    have hle := hrise hstep
    rcases (P.energy.eBase_nonneg c).eq_or_lt' with hzero | hpos
    · rw [hzero, add_zero] at hle
      exact ih.imp (fun hlt => hlt.trans_le hle)
        fun ⟨hac, hfree⟩ => ⟨hac.trans hle, hfree.tail ⟨hstep, hzero⟩⟩
    · have hac : x (.eAccum a) ≤ x (.eAccum c) := ih.elim le_of_lt And.left
      refine .inl ?_
      calc x (.eAccum a) ≤ x (.eAccum c) := hac
        _ < x (.eAccum c) + P.energy.eBase c := lt_add_of_pos_right _ hpos
        _ ≤ x (.eAccum d) := hle

/-- **Regions are acyclic** unless energy is free. -/
theorem Satisfies.region_acyclic (h : P.Satisfies x) (hfree : P.NoFreeCycle x) (b : NodeId) :
    ¬Relation.TransGen (P.RegionStep x) b b := by
  intro hcycle
  rcases h.accum_lt_or_free hcycle with hlt | ⟨-, hcyc⟩
  · exact lt_irrefl _ hlt
  · exact hfree b hcyc

/-- **Upper bound.** A non-zero dirty bit has a definition inside the region. -/
theorem Satisfies.dirtyInRegion_of_pos (h : P.Satisfies x) (hfree : P.NoFreeCycle x)
    {v : Value} :
    ∀ b ∈ P.cfg.blocks, (b, v) ∈ P.dKeys → 0 < x (.d b v) → P.DirtyInRegion x b v := by
  -- the bound C7' leads to a dirty predecessor in the region, and regions are acyclic
  refine Graph.acyclic_induction (h.region_acyclic hfree) fun b hb ih hk hpos => ?_
  by_cases hdef : P.state.isDef b v = true
  · exact ⟨b, hdef, .refl⟩
  have hcoeff : P.defCoeff b v = 0 := if_neg hdef
  have hreset := h.d_reset b v hk
  have hsum := h.d_le_sum b v hk
  rw [hcoeff, zero_add] at hreset hsum
  have hr : x (.r b) = 0 := by
    rcases h.r_binary b hb with hr | hr
    · exact hr
    · linarith
  obtain ⟨p, hedge, hpk, hppos⟩ := exists_pred_of_sum_pos (hpos.trans_le hsum)
  obtain ⟨a, hadef, hap⟩ := ih p hedge.src_mem ⟨hedge, hr⟩ hpk hppos
  exact ⟨a, hadef, hap.tail ⟨hedge, hr⟩⟩

/-- Without a definition inside the region the dirty bit is `0`. -/
theorem Satisfies.d_eq_zero (h : P.Satisfies x) (hfree : P.NoFreeCycle x) {b : NodeId}
    {v : Value} (hk : (b, v) ∈ P.dKeys) (hd : ¬P.DirtyInRegion x b v) : x (.d b v) = 0 := by
  refine le_antisymm (not_lt.mp fun hpos => hd ?_) (h.d_bounds b v hk).1
  exact h.dirtyInRegion_of_pos hfree b (mem_dKeys.mp hk).1 hk hpos

theorem Satisfies.d_zero_or_one (h : P.Satisfies x) (hfree : P.NoFreeCycle x) {b : NodeId}
    {v : Value} (hk : (b, v) ∈ P.dKeys) : x (.d b v) = 0 ∨ x (.d b v) = 1 := by
  by_cases hd : P.DirtyInRegion x b v
  · exact .inr (h.d_eq_one hk hd)
  · exact .inl (h.d_eq_zero hfree hk hd)

/-! ### Saves -/

/-- **Lower bound** (C9): a needed save is made. -/
theorem Satisfies.s_eq_one (h : P.Satisfies x) {b : NodeId} {v : Value}
    (hk : (b, v) ∈ P.sKeys) (hneed : P.SaveNeeded x b v) : x (.s b v) = 1 := by
  obtain ⟨hr, p, hedge, hpk, hd, hplace⟩ := hneed
  have hge := h.le_s p b v hedge hk hpk
  rw [hd, hplace, hr] at hge
  have := (h.s_bounds b v hk).2
  linarith

/-- A predecessor that does not place a live-in value in VM keeps its save at `0`: the value is
a global, and by the merge equality no predecessor places it in VM. -/
theorem Satisfies.s_le_zero_of_not_placed (h : P.Satisfies x) {b p : NodeId} {v : Value}
    (hk : (b, v) ∈ P.sKeys) (hedge : P.Edge p b) (hplace : P.place x p v ≠ 1) :
    x (.s b v) ≤ 0 := by
  cases v with
  | alloca i => exact absurd rfl hplace
  | inst i => exact absurd rfl hplace
  | global g =>
    obtain ⟨⟨-, hentry⟩, hlive, -⟩ := mem_sKeys.mp hk
    have hg := mem_vmObjs_of_tracked (tracked_of_liveIn hlive)
    have hzero : P.place x p (.global g) = 0 := by
      rcases h.place_binary p hedge.src_mem g hg with h0 | h1
      · exact h0
      · exact absurd h1 hplace
    by_cases hc : P.coarseAllocation = true
    · have hle := h.s_le_place_coarse hc b g hk
      rwa [place_coarse hc b p, hzero] at hle
    · refine (h.s_le_place_fine (by simpa using hc) b g hk).trans ?_
      refine list_sum_nonpos fun q hq => ?_
      obtain ⟨p', hp', rfl⟩ := List.mem_map.mp hq
      rw [h.place_merge p' p b (mem_predecessors.mp hp') hedge hentry g hg, hzero]

/-- **Upper bound** (C9'): a save that is not needed is not made. -/
theorem Satisfies.s_eq_zero (h : P.Satisfies x) (hfree : P.NoFreeCycle x) {b : NodeId}
    {v : Value} (hk : (b, v) ∈ P.sKeys) (hneed : ¬P.SaveNeeded x b v) : x (.s b v) = 0 := by
  refine le_antisymm (not_lt.mp fun hpos => ?_) (h.s_bounds b v hk).1
  obtain ⟨p, hedge, hpk, hppos⟩ :=
    exists_pred_of_sum_pos (hpos.trans_le (h.s_le_dirty b v hk))
  have hd : x (.d p v) = 1 := by
    rcases h.d_zero_or_one hfree hpk with h0 | h1
    · exact absurd h0 hppos.ne'
    · exact h1
  have hr : x (.r b) = 1 := by
    rcases h.r_binary b hedge.dst_mem with h0 | h1
    · have := h.s_le_r b v hk
      linarith
    · exact h1
  by_cases hplace : P.place x p v = 1
  · exact hneed ⟨hr, p, hedge, hpk, hd, hplace⟩
  · exact absurd hpos (not_lt.mpr (h.s_le_zero_of_not_placed hk hedge hplace))

/-- The rounding of `extractSolution` keeps exactly the needed saves. -/
theorem Satisfies.extract_s (h : P.Satisfies x) (hfree : P.NoFreeCycle x) {b : NodeId}
    {v : Value} :
    (P.extractSolution x).s b v = true ↔ (b, v) ∈ P.sKeys ∧ P.SaveNeeded x b v := by
  simp only [extractSolution, Bool.and_eq_true, decide_eq_true_eq]
  refine and_congr_right fun hk => ?_
  by_cases hneed : P.SaveNeeded x b v
  · simp only [h.s_eq_one hk hneed, hneed, iff_true]
    norm_num
  · simp only [h.s_eq_zero hfree hk hneed, hneed, iff_false]
    norm_num

/-- **Exactness.** If every node has positive base energy, a feasible assignment determines
`rHat`, `d` and `s` as indicators: of a region start at which the value is placed in VM, of
a definition inside the current region, and of a save that is needed. Hence
`extractSolution` emits a save exactly where one is needed and charged in full. -/
theorem relaxed_exact (h : P.buildModel.Feasible x)
    (hbase : ∀ b ∈ P.cfg.blocks, 0 < P.energy.eBase b) :
    (∀ b v, (b, v) ∈ P.rHatKeys →
      (x (.r b) = 1 ∧ P.place x b v = 1 → x (.rHat b v) = 1) ∧
      (¬(x (.r b) = 1 ∧ P.place x b v = 1) → x (.rHat b v) = 0)) ∧
    (∀ b v, (b, v) ∈ P.dKeys →
      (P.DirtyInRegion x b v → x (.d b v) = 1) ∧
      (¬P.DirtyInRegion x b v → x (.d b v) = 0)) ∧
    (∀ b v, (b, v) ∈ P.sKeys →
      (P.SaveNeeded x b v → x (.s b v) = 1) ∧ (¬P.SaveNeeded x b v → x (.s b v) = 0)) ∧
    (∀ b v, b ∈ P.cfg.blocks → b ≠ P.cfg.entryBlock → v ∈ P.liveInValues b →
      P.SaveNeeded x b v → (P.extractSolution x).s b v = true) ∧
    ∀ b v, (P.extractSolution x).s b v = true → (b, v) ∈ P.sKeys ∧ x (.s b v) = 1 := by
  have hs := feasible_iff.mp h
  have hfree : P.NoFreeCycle x := noFreeCycle_of_eBase_pos hbase
  refine ⟨fun b v hk => hs.rHat_eq hk, fun b v hk => ⟨hs.d_eq_one hk, hs.d_eq_zero hfree hk⟩,
    fun b v hk => ⟨hs.s_eq_one hk, hs.s_eq_zero hfree hk⟩, ?_, ?_⟩
  · intro b v hb hentry hlive hneed
    have hk : (b, v) ∈ P.sKeys := by
      obtain ⟨-, p, hedge, hpk, -, -⟩ := hneed
      exact mem_sKeys.mpr ⟨⟨hb, hentry⟩, hlive, p, hedge, hpk⟩
    exact (hs.extract_s hfree).mpr ⟨hk, hneed⟩
  · intro b v hsave
    obtain ⟨hk, hneed⟩ := (hs.extract_s hfree).mp hsave
    exact ⟨hk, hs.s_eq_one hk hneed⟩

/-- In the loop example the write of node `1` reaches the region start through the back edge,
so the save there is emitted. -/
theorem relaxed_exact_loop :
    (∀ b ∈ loopOptimizer.cfg.blocks, 0 < loopOptimizer.energy.eBase b) ∧
      (loopOptimizer.extractSolution loopAssignment).s 1 (.global 0) = true := by
  have hbase : ∀ b ∈ loopOptimizer.cfg.blocks, 0 < loopOptimizer.energy.eBase b := by
    decide +kernel
  refine ⟨hbase, ?_⟩
  refine (relaxed_exact loopAssignment_feasible hbase).2.2.2.1 1 (.global 0) (by decide)
    (by decide) (by decide) ⟨rfl, 1, by decide, by decide, rfl, ?_⟩
  decide +kernel

end Bao.Milp.CheckpointOptimizer
