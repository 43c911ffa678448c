import Bao.Milp.Simulation

/-!
# The optimizer instance of a function

The last stage of `buildAbstractCFG`: the data of the nodes under their numbers, which is what
the optimizer reads through its three views. The invariants of the views are established here
(`cfgView`, `stateView`, `energyView`), so that every result about optimizer instances applies
to the instance of a function (`toOptimizer`).

`getConcreteBlock` is the block at whose top the boundary of a node is emitted: the entry block
of a summary, otherwise the block itself. Different nodes have different blocks
(`eq_nodeOf_of_getConcreteBlock`).
-/

namespace Bao.Milp

namespace FunctionAnalysis

variable {A : FunctionAnalysis}

/-! ### Data of the nodes -/

/-- What holds of the data of all summaries, of all blocks and of the default holds of the data
of every node. -/
theorem nodeData_induction {β : Type*} {P : β → Prop} {fromSummary : LoopAggregate → β}
    {fromBlock : BlockId → β} {default : β} (hs : ∀ agg ∈ A.summaries, P (fromSummary agg))
    (hb : ∀ b, P (fromBlock b)) (hd : P default) (n : NodeId) :
    P (A.nodeData fromSummary fromBlock default n) := by
  rw [nodeData]
  split
  · rename_i agg hagg
    exact hs agg (List.mem_of_find?_eq_some hagg)
  · split
    · exact hb _
    · exact hd

/-- The base energy of a summary is not negative: the check rejects paths without energy. -/
theorem Collapses.pathEnergy_nonneg {agg : LoopAggregate} {L : Loop} (hc : A.Collapses agg L) :
    0 ≤ agg.pathEnergy := by
  obtain ⟨name, s, tc, hs, rfl⟩ := hc.aggregate_eq
  obtain ⟨-, hpre, hpos⟩ := computeSummaryBudget_ok hs
  have hph : 0 ≤ s.preheaderEnergy := by
    rw [hpre]
    refine List.sum_nonneg fun q hq => ?_
    obtain ⟨b, -, rfl⟩ := List.mem_map.mp hq
    exact A.cfg.energyCost_nonneg b
  exact add_nonneg (mul_nonneg hpos.le (Nat.cast_nonneg tc)) hph

theorem Collapses.eNvmByGV_nonneg {agg : LoopAggregate} {L : Loop} (hc : A.Collapses agg L)
    (g : GlobalVariable) : 0 ≤ agg.eNvmByGV g := by
  obtain ⟨name, s, tc, -, rfl⟩ := hc.aggregate_eq
  have hsum : ∀ bs : List BlockId, 0 ≤ (bs.map fun b => A.eNvm b g).sum := by
    refine fun bs => List.sum_nonneg fun q hq => ?_
    obtain ⟨b, -, rfl⟩ := List.mem_map.mp hq
    exact eNvm_nonneg b g
  exact add_nonneg (mul_nonneg (hsum _) (Nat.cast_nonneg tc)) (hsum _)

/-! ### The views -/

theorem nodeOf_lt {b : BlockId} (hb : b ∈ A.cfg.blocks) :
    A.nodeOf b < A.abstractBlocks.length :=
  (List.getElem?_eq_some_iff.mp (getElem?_nodeOf hb)).1

variable (A)

/-- The graph of the nodes. -/
def cfgView : ICFGView where
  blocks := List.range A.abstractBlocks.length
  edges := A.abstractEdges
  entryBlock := A.nodeOf A.cfg.entryBlock
  exitBlocks := A.abstractExits
  blocks_nodup := List.nodup_range
  entry_mem := List.mem_range.mpr (nodeOf_lt A.cfg.entry_mem)
  exit_mem := by
    intro n hn
    obtain ⟨b, hb, rfl⟩ := List.mem_map.mp (mem_orderedUnique.mp hn)
    exact List.mem_range.mpr (nodeOf_lt (CFGAnalysis.mem_exitBlocks.mp hb).1)
  edge_mem := by
    intro e he
    obtain ⟨⟨b, c⟩, hbc, rfl⟩ := List.mem_map.mp (mem_orderedUnique.mp he)
    have hsucc := CFGAnalysis.mem_edges.mp (List.mem_of_mem_filter hbc)
    exact ⟨List.mem_range.mpr (nodeOf_lt hsucc.src_mem),
      List.mem_range.mpr (nodeOf_lt hsucc.dst_mem)⟩

/-- The state of the nodes. Sizes are `unsigned` in the state analysis and `int` here. -/
def stateView : IStateView where
  vmObjs := A.state.vmObjs
  eligLiveIn := A.nodeData LoopAggregate.eligLiveIn A.state.eligLiveIn []
  eligDefIndicator n g := decide (g ∈ A.state.vmObjs) &&
    A.nodeData (fun agg => decide (g ∈ agg.eligDefGlobals))
      (fun b => A.state.eligDefIndicator b g) false n
  ineligibleObjs := A.state.ineligibleObjs
  ineligLiveIn := A.nodeData LoopAggregate.ineligLiveIn A.state.ineligLiveIn []
  ineligDefIndicator n v := decide (v ∈ A.state.ineligibleObjs) &&
    A.nodeData (fun agg => decide (v ∈ agg.ineligDefVars))
      (fun b => A.state.ineligDefIndicator b v) false n
  varSizeBytes v := (A.state.varSizeBytes v : ℤ).bmod (2 ^ 32)
  vmObjs_nodup := A.state.vmObjs_nodup
  eligLiveIn_nodup := by
    refine nodeData_induction (fun agg hagg => ?_) A.state.eligLiveIn_nodup List.nodup_nil
    obtain ⟨L, hc⟩ := selection_valid.collapses agg hagg
    rw [hc.eligLiveIn_eq]
    exact A.state.vmObjs_nodup.filter _
  eligLiveIn_subset := by
    refine nodeData_induction (P := fun l => ∀ g ∈ l, g ∈ A.state.vmObjs) (fun agg hagg => ?_)
      A.state.eligLiveIn_subset (by simp)
    obtain ⟨L, hc⟩ := selection_valid.collapses agg hagg
    rw [hc.eligLiveIn_eq]
    exact fun g hg => List.mem_of_mem_filter hg
  ineligibleObjs_nodup := A.state.ineligibleObjs_nodup
  ineligible_ne_global := A.state.ineligible_ne_global
  ineligLiveIn_nodup := by
    refine nodeData_induction (fun agg hagg => ?_) A.state.ineligLiveIn_nodup List.nodup_nil
    obtain ⟨L, hc⟩ := selection_valid.collapses agg hagg
    rw [hc.ineligLiveIn_eq]
    exact A.state.ineligibleObjs_nodup.filter _
  ineligLiveIn_subset := by
    refine nodeData_induction (P := fun l => ∀ v ∈ l, v ∈ A.state.ineligibleObjs)
      (fun agg hagg => ?_) A.state.ineligLiveIn_subset (by simp)
    obtain ⟨L, hc⟩ := selection_valid.collapses agg hagg
    rw [hc.ineligLiveIn_eq]
    exact fun v hv => List.mem_of_mem_filter hv

/-- The energy of the nodes. A boundary of a summary runs as often as the summary is entered. -/
def energyView : IEnergyView where
  params := A.params.toMILPEnergyParams
  eBase := A.nodeData LoopAggregate.pathEnergy A.cfg.energyCost 0
  eNvm n g := A.nodeData (fun agg => agg.eNvmByGV g) (fun b => A.eNvm b g) 0 n
  eSave := A.eSave
  eRestore := A.eRestore
  fEntry := A.nodeData LoopAggregate.fEntry A.fEntry 1
  fBoundary := A.nodeData LoopAggregate.fEntry A.fEntry 1
  ePro_nonneg := A.params.ePro_nonneg
  eEpi_nonneg := A.params.eEpi_nonneg
  eBase_nonneg := by
    refine nodeData_induction (fun agg hagg => ?_) A.cfg.energyCost_nonneg le_rfl
    obtain ⟨L, hc⟩ := selection_valid.collapses agg hagg
    exact hc.pathEnergy_nonneg
  eNvm_nonneg n g := by
    refine nodeData_induction (P := fun q : ℚ => 0 ≤ q) (fun agg hagg => ?_)
      (fun b => eNvm_nonneg b g) le_rfl n
    obtain ⟨L, hc⟩ := selection_valid.collapses agg hagg
    exact hc.eNvmByGV_nonneg g
  eSave_nonneg :=
    stateCost_nonneg A.params.regStoreEnergy_nonneg A.params.memStoreEnergyPerByte_nonneg
  eRestore_nonneg :=
    stateCost_nonneg A.params.regRestoreEnergy_nonneg A.params.memRestoreEnergyPerByte_nonneg

/-- The optimizer instance of a function, in one of the two allocation modes. -/
def toOptimizer (coarseAllocation : Bool) : CheckpointOptimizer :=
  ⟨A.cfgView, A.stateView, A.energyView, coarseAllocation⟩

/-! ### Boundary blocks -/

/-- `NodeMap::getConcreteBlock`. -/
def getConcreteBlock (n : NodeId) : Option BlockId :=
  A.nodeData (fun agg => some agg.entryBB) some none n

variable {A}

/-- **The boundary block belongs to the node**, so it determines the node. -/
theorem eq_nodeOf_of_getConcreteBlock {n : NodeId} {b : BlockId}
    (h : A.getConcreteBlock n = some b) : n = A.nodeOf b := by
  refine eq_nodeOf ?_
  rw [getConcreteBlock, nodeData] at h
  split at h
  · rename_i agg hagg
    have hmem := List.mem_of_find?_eq_some hagg
    have hname : some agg.nodeName = A.abstractBlocks[n]? := by
      simpa using List.find?_some hagg
    obtain ⟨L, hc⟩ := selection_valid.collapses agg hmem
    obtain rfl : agg.entryBB = b := Option.some.inj h
    rw [← hname, concreteToAbstract_of_mem hmem hc.entry_mem]
  · split at h
    · rename_i c hblock
      obtain rfl : c = b := Option.some.inj h
      have hname : A.summaryOf c = none ∧ some (A.cfg.name c) = A.abstractBlocks[n]? := by
        simpa using List.find?_some hblock
      rw [← hname.2, concreteToAbstract, hname.1]
    · simp at h

/-- Every node has a boundary block. -/
theorem getConcreteBlock_isSome {n : NodeId} (hn : n < A.abstractBlocks.length) :
    ∃ b, A.getConcreteBlock n = some b := by
  have hget : A.abstractBlocks[n]? = some A.abstractBlocks[n] := List.getElem?_eq_getElem hn
  obtain ⟨b, hb, hname⟩ := List.mem_map.mp (mem_orderedUnique.mp (List.getElem_mem hn))
  rw [getConcreteBlock, nodeData]
  split
  · rename_i agg _
    exact ⟨agg.entryBB, rfl⟩
  · rename_i hno
    rcases concreteToAbstract_cases b with ⟨agg, hagg, -, hbn⟩ | ⟨hout, hbn⟩
    · have hne := List.find?_eq_none.mp hno agg hagg
      exact absurd (by simp [hget, ← hname, hbn]) hne
    · have hsome : (A.blockAt n).isSome :=
        List.find?_isSome.mpr ⟨b, hb, by simp [hget, ← hname, hbn, hout]⟩
      obtain ⟨c, hc⟩ := Option.isSome_iff_exists.mp hsome
      rw [hc]
      exact ⟨c, rfl⟩

end FunctionAnalysis

end Bao.Milp
