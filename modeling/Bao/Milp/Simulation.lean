import Bao.Milp.SummaryEnergy

/-!
# The abstract graph simulates the concrete graph

For a function in loop-simplify form with unique block names, the graph that
`buildAbstractCFG` hands to the optimizer is a contraction of the control flow graph
(`abstract_cfg_simulates`): the summaries are disjoint, every block belongs to one node, and
a path from the entry block becomes a path of the abstract graph when the stays inside
summaries are contracted. A summary node is visited exactly as often as the entry block of
the summary, so no two stays are merged into one.

The facts about summaries come from an invariant of the selection loop (`Selection.Valid`).
The disjointness of a new summary from the earlier ones is the overlap check for the blocks of
the loop; for its preheader, which the check does not look at, it follows from the shape of
natural loops (`preheader_not_mem`).
-/

namespace Bao.Milp

/-! ### Preheaders and other loops -/

/-- The preheader of a loop is neither in another loop that does not contain the header nor
the preheader of such a loop. -/
theorem Loop.preheader_not_mem {C : CFGAnalysis} {L M : Loop} {ph : BlockId}
    (hph : L.getLoopPreheader C = some ph) (hM : M.Natural C) (hne : L.header ∉ M.blocks) :
    ph ∉ M.blocks ∧ M.getLoopPreheader C ≠ some ph := by
  constructor
  · intro hmem
    obtain ⟨p, -, hback, hreach⟩ := hM.reaches_back_edge ph hmem
    rcases Relation.ReflTransGen.cases_head hreach with rfl | ⟨c, hstep, -⟩
    · exact hne (Loop.preheader_succ hph hback ▸ hM.header_mem)
    · exact hne (Loop.preheader_succ hph hstep.1 ▸ hstep.2)
  · intro hphM
    obtain ⟨-, hsucc, -, -⟩ := Loop.preheader_spec hphM
    exact hne (Loop.preheader_succ hph hsucc ▸ hM.header_mem)

/-- Two summaries without a common block. -/
def LoopAggregate.Disjoint (s t : LoopAggregate) : Prop := ∀ b ∈ s.loopBlocks, b ∉ t.loopBlocks

instance : Std.Symm LoopAggregate.Disjoint := ⟨fun _ _ h b hbt hbs => h b hbs hbt⟩

/-- Two summaries under different names. -/
def LoopAggregate.NameNe (s t : LoopAggregate) : Prop := s.nodeName ≠ t.nodeName

instance : Std.Symm LoopAggregate.NameNe := ⟨fun _ _ h => Ne.symm h⟩

namespace FunctionAnalysis

variable {A : FunctionAnalysis}

/-! ### The selection loop -/

/-- A summary collapses a loop with its preheader, if there is one. -/
structure Collapses (A : FunctionAnalysis) (agg : LoopAggregate) (L : Loop) : Prop where
  loop : L ∈ A.loopInfo.loops
  aggregate_eq : ∃ name s tc, A.computeSummaryBudget L = .ok s ∧
    agg = A.aggregate L name s tc

/-- The blocks of a summary are those of the loop and the preheader. -/
theorem Collapses.mem_blocks {agg : LoopAggregate} {L : Loop} (hc : A.Collapses agg L)
    (b : BlockId) :
    b ∈ agg.loopBlocks ↔ b ∈ L.blocks ∨ L.getLoopPreheader A.cfg = some b := by
  obtain ⟨name, s, tc, -, rfl⟩ := hc.aggregate_eq
  simp [aggregate]

/-- Control enters a summary at the preheader, or at the header if there is none. -/
theorem Collapses.entry {agg : LoopAggregate} {L : Loop} (hc : A.Collapses agg L) :
    agg.entryBB = (L.getLoopPreheader A.cfg).getD L.header := by
  obtain ⟨name, s, tc, -, rfl⟩ := hc.aggregate_eq
  rfl

theorem Collapses.ineligLiveIn_eq {agg : LoopAggregate} {L : Loop} (hc : A.Collapses agg L) :
    agg.ineligLiveIn = A.summaryIneligLiveIn agg.loopBlocks := by
  obtain ⟨name, s, tc, -, rfl⟩ := hc.aggregate_eq
  rfl

theorem Collapses.eligLiveIn_eq {agg : LoopAggregate} {L : Loop} (hc : A.Collapses agg L) :
    agg.eligLiveIn = A.state.vmObjs.filter fun g =>
      agg.loopBlocks.any fun b => g ∈ A.state.eligLiveIn b := by
  obtain ⟨name, s, tc, -, rfl⟩ := hc.aggregate_eq
  rfl

/-- The entry block belongs to the summary. -/
theorem Collapses.entry_mem {agg : LoopAggregate} {L : Loop} (hc : A.Collapses agg L) :
    agg.entryBB ∈ agg.loopBlocks := by
  rw [hc.entry, hc.mem_blocks]
  cases hph : L.getLoopPreheader A.cfg with
  | none => exact .inl (A.loopInfo.natural L hc.loop).header_mem
  | some ph => exact .inr rfl

/-- **Invariant of the selection loop.** -/
structure Selection.Valid (A : FunctionAnalysis) (st : Selection) : Prop where
  collapses : ∀ agg ∈ st.summaries, ∃ L, A.Collapses agg L
  covered : ∀ agg ∈ st.summaries, ∀ b ∈ agg.loopBlocks, b ∈ st.summarizedBlocks
  block_names : ∀ b ∈ A.cfg.blocks, A.cfg.name b ∈ st.usedNodeNames
  names_used : ∀ agg ∈ st.summaries, agg.nodeName ∈ st.usedNodeNames
  names_new : ∀ agg ∈ st.summaries, ∀ b ∈ A.cfg.blocks, agg.nodeName ≠ A.cfg.name b
  names_ne : st.summaries.Pairwise LoopAggregate.NameNe
  disjoint : st.summaries.Pairwise LoopAggregate.Disjoint

theorem Selection.valid_init : Selection.Valid A (Selection.init A) where
  collapses := by simp [Selection.init]
  covered := by simp [Selection.init]
  block_names := fun b hb => List.mem_map_of_mem hb
  names_used := by simp [Selection.init]
  names_new := by simp [Selection.init]
  names_ne := .nil
  disjoint := .nil

/-- A new summary is disjoint from the earlier ones. -/
private theorem disjoint_of_not_selected {st : Selection} (hv : Selection.Valid A st)
    {agg : LoopAggregate} {L : Loop} (hc : A.Collapses agg L)
    (hnew : ∀ b ∈ L.blocks, b ∉ st.summarizedBlocks) :
    ∀ s ∈ st.summaries, s.Disjoint agg := by
  intro s hs b hbs hb
  obtain ⟨M, hM⟩ := hv.collapses s hs
  have hnat := A.loopInfo.natural M hM.loop
  have hheader : L.header ∉ M.blocks := fun hmem =>
    hnew _ (A.loopInfo.natural L hc.loop).header_mem
      (hv.covered s hs _ ((hM.mem_blocks _).mpr (.inl hmem)))
  rcases (hc.mem_blocks b).mp hb with hbL | hph
  · exact hnew b hbL (hv.covered s hs b hbs)
  · obtain ⟨hout, hne⟩ := Loop.preheader_not_mem hph hnat hheader
    exact ((hM.mem_blocks b).mp hbs).elim hout hne

/-- One round of the loop keeps the invariant. -/
theorem Selection.Valid.step {st : Selection} (hv : Selection.Valid A st) {L : Loop}
    (hL : L ∈ A.loopInfo.loops) : Selection.Valid A (st.step A L) := by
  rw [Selection.step]
  split
  · exact ⟨hv.collapses, hv.covered, hv.block_names, hv.names_used, hv.names_new, hv.names_ne,
      hv.disjoint⟩
  · rename_i agg hagg
    obtain ⟨s, tc, hs, -, hnew, rfl⟩ := summarizeLoop_ok hagg
    set name := makeUniqueSummaryNodeName (A.cfg.name L.header) st.usedNodeNames with hname
    have hfresh : name ∉ st.usedNodeNames := makeUniqueSummaryNodeName_not_mem _ _
    have hc : A.Collapses (A.aggregate L name s tc) L := ⟨hL, name, s, tc, hs, rfl⟩
    constructor
    · intro agg' hagg'
      rcases List.mem_append.mp hagg' with hold | hmem
      · exact hv.collapses agg' hold
      · exact ⟨L, List.mem_singleton.mp hmem ▸ hc⟩
    · intro agg' hagg' b hb
      rcases List.mem_append.mp hagg' with hold | hmem
      · exact List.mem_append_left _ (hv.covered agg' hold b hb)
      · exact List.mem_append_right _ (List.mem_singleton.mp hmem ▸ hb)
    · exact fun b hb => List.mem_cons_of_mem _ (hv.block_names b hb)
    · intro agg' hagg'
      rcases List.mem_append.mp hagg' with hold | hmem
      · exact List.mem_cons_of_mem _ (hv.names_used agg' hold)
      · rw [List.mem_singleton.mp hmem]
        exact List.mem_cons_self
    · intro agg' hagg' b hb heq
      rcases List.mem_append.mp hagg' with hold | hmem
      · exact hv.names_new agg' hold b hb heq
      · obtain rfl := List.mem_singleton.mp hmem
        exact hfresh ((show name = A.cfg.name b from heq) ▸ hv.block_names b hb)
    · refine List.pairwise_append.mpr ⟨hv.names_ne, List.pairwise_singleton _ _, ?_⟩
      intro s' hs' t ht heq
      obtain rfl := List.mem_singleton.mp ht
      exact hfresh ((show s'.nodeName = name from heq) ▸ hv.names_used s' hs')
    · refine List.pairwise_append.mpr ⟨hv.disjoint, List.pairwise_singleton _ _, ?_⟩
      intro s' hs' t ht
      exact List.mem_singleton.mp ht ▸ disjoint_of_not_selected hv hc hnew s' hs'

/-- The invariant holds when the loop is done. -/
theorem selection_valid : Selection.Valid A A.selection := by
  have hfold : ∀ (Ls : List Loop) (st : Selection), (∀ L ∈ Ls, L ∈ A.loopInfo.loops) →
      Selection.Valid A st → Selection.Valid A (Ls.foldl (Selection.step A) st) := by
    intro Ls
    induction Ls with
    | nil => exact fun st _ hv => hv
    | cons L Ls ih =>
      intro st hLs hv
      exact ih _ (fun M hM => hLs M (List.mem_cons_of_mem L hM))
        (hv.step (hLs L List.mem_cons_self))
  exact hfold _ _ (fun _ h => h) Selection.valid_init

/-- The summaries of a function in simplified form: the blocks and the order of entry. -/
theorem summary_spec (hsimp : A.loopInfo.Simplified) {agg : LoopAggregate}
    (hagg : agg ∈ A.summaries) :
    agg.entryBB ∈ agg.loopBlocks ∧ (∀ b ∈ agg.loopBlocks, b ∈ A.cfg.blocks) ∧
      (A.cfg.entryBlock ∈ agg.loopBlocks → A.cfg.entryBlock = agg.entryBB) ∧
      (∀ u ∈ agg.loopBlocks, ¬A.cfg.Succ u agg.entryBB) ∧
      ∀ u v, A.cfg.Reachable u → A.cfg.Succ u v → u ∉ agg.loopBlocks → v ∈ agg.loopBlocks →
        v = agg.entryBB := by
  obtain ⟨L, hc⟩ := selection_valid.collapses agg hagg
  have hnat := A.loopInfo.natural L hc.loop
  obtain ⟨ph, hph⟩ := Option.isSome_iff_exists.mp (hsimp L hc.loop).preheader
  obtain ⟨hout, hsucc, -, huniq⟩ := Loop.preheader_spec hph
  have hmem_blocks : ∀ b, b ∈ agg.loopBlocks ↔ b ∈ L.blocks ∨ b = ph := by
    intro b
    rw [hc.mem_blocks, hph, Option.some.injEq, eq_comm (a := ph)]
  rw [hc.entry, hph, Option.getD_some]
  refine ⟨(hmem_blocks ph).mpr (.inr rfl), fun b hb => ?_, fun hmem => ?_, fun u hu => ?_,
    fun u v hreach huv hu hv => ?_⟩
  · rcases (hmem_blocks b).mp hb with hbL | rfl
    · exact (hnat.reachable b hbL).mem
    · exact hsucc.src_mem
  · exact ((hmem_blocks _).mp hmem).resolve_left hnat.entry_not_mem
  · rcases (hmem_blocks u).mp hu with huL | rfl
    · exact hnat.not_succ_preheader (hsimp L hc.loop) hph huL
    · intro hself
      exact hout (Loop.preheader_succ hph hself ▸ hnat.header_mem)
  · rcases (hmem_blocks v).mp hv with hvL | rfl
    · have hu' : u ∉ L.blocks ∧ u ≠ ph :=
        ⟨fun h => hu ((hmem_blocks u).mpr (.inl h)),
          fun h => hu ((hmem_blocks u).mpr (.inr h))⟩
      obtain rfl := hnat.single_entry u v hreach huv hu'.1 hvL
      exact absurd (huniq u hu'.1 huv) hu'.2
    · rfl

/-- A block is in at most one summary. -/
theorem summary_unique {s t : LoopAggregate}
    (hs : s ∈ A.summaries) (ht : t ∈ A.summaries) {b : BlockId} (hbs : b ∈ s.loopBlocks)
    (hbt : b ∈ t.loopBlocks) : s = t := by
  by_contra hne
  exact selection_valid.disjoint.forall hs ht hne b hbs hbt

/-- A name stands for at most one summary. -/
theorem summary_name_unique {s t : LoopAggregate}
    (hs : s ∈ A.summaries) (ht : t ∈ A.summaries) (h : s.nodeName = t.nodeName) : s = t := by
  by_contra hne
  exact selection_valid.names_ne.forall hs ht hne h

/-! ### Nodes -/

/-- The summary of a block is the one that contains it. -/
theorem summaryOf_eq_some {b : BlockId} {agg : LoopAggregate} :
    A.summaryOf b = some agg ↔ agg ∈ A.summaries ∧ b ∈ agg.loopBlocks := by
  constructor
  · intro h
    exact ⟨List.mem_of_find?_eq_some h, by simpa using List.find?_some h⟩
  · rintro ⟨hagg, hb⟩
    have hsome : (A.summaryOf b).isSome := List.find?_isSome.mpr ⟨agg, hagg, by simpa using hb⟩
    obtain ⟨s, hs⟩ := Option.isSome_iff_exists.mp hsome
    have hbs : b ∈ s.loopBlocks := by simpa using List.find?_some hs
    rw [hs, summary_unique (List.mem_of_find?_eq_some hs) hagg hbs hb]

/-- `b` and `c` are blocks of one summary. -/
def sameSummary (A : FunctionAnalysis) (b c : BlockId) : Bool :=
  A.summaries.any fun agg => b ∈ agg.loopBlocks && c ∈ agg.loopBlocks

theorem sameSummary_iff {b c : BlockId} :
    A.sameSummary b c = true ↔ ∃ agg ∈ A.summaries, b ∈ agg.loopBlocks ∧ c ∈ agg.loopBlocks := by
  simp [sameSummary]

/-- The name of the node of a block is the name of its summary or its own. -/
theorem concreteToAbstract_cases (b : BlockId) :
    (∃ agg ∈ A.summaries, b ∈ agg.loopBlocks ∧ A.concreteToAbstract b = agg.nodeName) ∨
      A.summaryOf b = none ∧ A.concreteToAbstract b = A.cfg.name b := by
  rw [concreteToAbstract]
  cases h : A.summaryOf b with
  | some agg =>
    exact .inl ⟨agg, List.mem_of_find?_eq_some h, by simpa using List.find?_some h, rfl⟩
  | none => exact .inr ⟨rfl, rfl⟩

theorem concreteToAbstract_of_mem {b : BlockId}
    {agg : LoopAggregate} (hagg : agg ∈ A.summaries) (hb : b ∈ agg.loopBlocks) :
    A.concreteToAbstract b = agg.nodeName := by
  rw [concreteToAbstract, (summaryOf_eq_some).mpr ⟨hagg, hb⟩]

/-- Two blocks are in one node if they are equal or in one summary. -/
theorem concreteToAbstract_eq_iff
    (hnames : (A.cfg.blocks.map A.cfg.name).Nodup) {b c : BlockId} (hb : b ∈ A.cfg.blocks)
    (hc : c ∈ A.cfg.blocks) :
    A.concreteToAbstract b = A.concreteToAbstract c ↔ b = c ∨ A.sameSummary b c = true := by
  have hv := selection_valid (A := A)
  rw [sameSummary_iff]
  constructor
  · intro h
    rcases concreteToAbstract_cases b with ⟨s, hs, hbs, hbn⟩ | ⟨-, hbn⟩ <;>
      rcases concreteToAbstract_cases c with ⟨t, ht, hct, hcn⟩ | ⟨-, hcn⟩ <;>
      rw [hbn, hcn] at h
    · obtain rfl := summary_name_unique hs ht h
      exact .inr ⟨s, hs, hbs, hct⟩
    · exact absurd h (hv.names_new s hs c hc)
    · exact absurd h.symm (hv.names_new t ht b hb)
    · exact .inl (List.inj_on_of_nodup_map hnames hb hc h)
  · rintro (rfl | ⟨agg, hagg, hb, hc⟩)
    · rfl
    · rw [concreteToAbstract_of_mem hagg hb, concreteToAbstract_of_mem hagg hc]

/-- The number of a node leads back to its name. -/
theorem getElem?_nodeOf {b : BlockId} (hb : b ∈ A.cfg.blocks) :
    A.abstractBlocks[A.nodeOf b]? = some (A.concreteToAbstract b) := by
  have hmem : A.concreteToAbstract b ∈ A.abstractBlocks :=
    mem_orderedUnique.mpr (List.mem_map_of_mem hb)
  rw [nodeOf, List.getElem?_eq_getElem (List.idxOf_lt_length_of_mem hmem), List.getElem_idxOf]

/-- A name has only one number. -/
theorem eq_nodeOf {b : BlockId} {n : NodeId}
    (h : A.abstractBlocks[n]? = some (A.concreteToAbstract b)) : n = A.nodeOf b := by
  obtain ⟨hn, heq⟩ := List.getElem?_eq_some_iff.mp h
  have hmem : A.concreteToAbstract b ∈ A.abstractBlocks := List.mem_of_getElem? h
  have hnodup : A.abstractBlocks.Nodup := nodup_orderedUnique _
  have hlt : A.nodeOf b < A.abstractBlocks.length := List.idxOf_lt_length_of_mem hmem
  have hget : A.abstractBlocks[n] = A.abstractBlocks[A.nodeOf b] := by
    rw [heq]
    exact (List.getElem_idxOf hlt).symm
  exact hnodup.getElem_inj_iff.mp hget

theorem nodeOf_eq_iff {b c : BlockId} (hb : b ∈ A.cfg.blocks) :
    A.nodeOf b = A.nodeOf c ↔ A.concreteToAbstract b = A.concreteToAbstract c := by
  constructor
  · intro h
    have hmem : A.concreteToAbstract b ∈ A.abstractBlocks :=
      mem_orderedUnique.mpr (List.mem_map_of_mem hb)
    exact (List.idxOf_inj hmem).mp h
  · intro h
    rw [nodeOf, nodeOf, h]

/-- The blocks a node stands for. -/
def nodeBlocks (A : FunctionAnalysis) (n : NodeId) : List BlockId :=
  A.nodeData LoopAggregate.loopBlocks (fun b => [b]) [] n

/-- **Every block is in its node and in no other.** -/
theorem mem_nodeBlocks
    (hnames : (A.cfg.blocks.map A.cfg.name).Nodup) {b : BlockId} (hb : b ∈ A.cfg.blocks)
    {n : NodeId} : b ∈ A.nodeBlocks n ↔ n = A.nodeOf b := by
  have hv := selection_valid (A := A)
  constructor
  · intro hmem
    refine eq_nodeOf ?_
    rw [nodeBlocks, nodeData] at hmem
    split at hmem
    · rename_i agg hagg
      have hfound : some agg.nodeName = A.abstractBlocks[n]? := by
        simpa using List.find?_some hagg
      rw [← hfound, concreteToAbstract_of_mem (List.mem_of_find?_eq_some hagg) hmem]
    · split at hmem
      · rename_i c hc
        obtain rfl := List.mem_singleton.mp hmem
        have hfound : A.summaryOf b = none ∧ some (A.cfg.name b) = A.abstractBlocks[n]? := by
          simpa using List.find?_some hc
        rw [← hfound.2, concreteToAbstract, hfound.1]
      · exact absurd hmem List.not_mem_nil
  · rintro rfl
    rw [nodeBlocks, nodeData, summaryAt, blockAt, getElem?_nodeOf hb]
    rcases concreteToAbstract_cases b with ⟨s, hs, hbs, hbn⟩ | ⟨hnone, hbn⟩
    · have hsome : (A.summaries.find? fun agg =>
          some agg.nodeName = some (A.concreteToAbstract b)).isSome :=
        List.find?_isSome.mpr ⟨s, hs, by simp [hbn]⟩
      obtain ⟨t, ht⟩ := Option.isSome_iff_exists.mp hsome
      have htn : t.nodeName = s.nodeName := by simpa [hbn] using List.find?_some ht
      rw [ht, summary_name_unique (List.mem_of_find?_eq_some ht) hs htn]
      exact hbs
    · have hno : (A.summaries.find? fun agg =>
          some agg.nodeName = some (A.concreteToAbstract b)) = none := by
        rw [List.find?_eq_none]
        intro s hs
        simpa [hbn] using hv.names_new s hs b hb
      have hsome : (A.cfg.blocks.find? fun c => A.summaryOf c = none ∧
          some (A.cfg.name c) = some (A.concreteToAbstract b)).isSome :=
        List.find?_isSome.mpr ⟨b, hb, by simp [hnone, hbn]⟩
      obtain ⟨c, hc⟩ := Option.isSome_iff_exists.mp hsome
      have hcn : A.cfg.name c = A.cfg.name b := by
        have := List.find?_some hc
        simp only [hbn, decide_eq_true_eq, Option.some.injEq] at this
        exact this.2
      rw [hno, hc]
      simp [List.inj_on_of_nodup_map hnames (List.mem_of_find?_eq_some hc) hb hcn]

/-! ### Edges and paths -/

/-- **Contraction** of a path: of a stay inside one summary only one visit of the node
remains. -/
def contract (A : FunctionAnalysis) : List BlockId → List NodeId
  | [] => []
  | [b] => [A.nodeOf b]
  | b :: c :: w =>
    if A.sameSummary b c then A.contract (c :: w) else A.nodeOf b :: A.contract (c :: w)

section Names

variable (hnames : (A.cfg.blocks.map A.cfg.name).Nodup)
include hnames

/-- A step that does not stay in a summary is an abstract edge. -/
theorem abstractEdge_of_succ {b c : BlockId} (hsucc : A.cfg.Succ b c)
    (hout : A.sameSummary b c = false) : (A.nodeOf b, A.nodeOf c) ∈ A.abstractEdges := by
  have hkeeps : A.keepsEdge b c = true := by
    rw [keepsEdge, Bool.or_eq_true, Bool.and_eq_true, decide_eq_true_eq, decide_eq_true_eq,
      decide_eq_true_eq]
    by_cases heq : A.concreteToAbstract b = A.concreteToAbstract c
    · have hcases :=
        (concreteToAbstract_eq_iff hnames hsucc.src_mem hsucc.dst_mem).mp heq
      obtain rfl : b = c := hcases.resolve_right (by simp [hout])
      rcases concreteToAbstract_cases b with ⟨s, hs, hbs, -⟩ | ⟨-, hbn⟩
      · have hsame : A.sameSummary b b = true := sameSummary_iff.mpr ⟨s, hs, hbs, hbs⟩
        exact absurd (hout.symm.trans hsame) (by simp)
      · exact .inr ⟨rfl, hbn⟩
    · exact .inl heq
  refine mem_orderedUnique.mpr (List.mem_map.mpr ⟨(b, c), ?_, rfl⟩)
  exact List.mem_filter.mpr ⟨CFGAnalysis.mem_edges.mpr hsucc, hkeeps⟩

/-- The contraction starts at the node of the first block. -/
theorem head_contract {b : BlockId} {w : List BlockId}
    (hchain : List.IsChain A.cfg.Succ (b :: w)) :
    (A.contract (b :: w)).head? = some (A.nodeOf b) := by
  induction w generalizing b with
  | nil => rfl
  | cons c w ih =>
    obtain ⟨hsucc, hrest⟩ := List.isChain_cons_cons.mp hchain
    rw [contract]
    split_ifs with hsame
    · rw [ih hrest, Option.some.injEq, nodeOf_eq_iff hsucc.dst_mem]
      exact ((concreteToAbstract_eq_iff hnames hsucc.src_mem hsucc.dst_mem).mpr
        (.inr hsame)).symm
    · rfl

/-- The contraction of a path is a path of the abstract graph. -/
theorem isChain_contract {w : List BlockId} (hchain : List.IsChain A.cfg.Succ w) :
    List.IsChain (fun m n => (m, n) ∈ A.abstractEdges) (A.contract w) := by
  fun_induction A.contract w with
  | case1 => exact .nil
  | case2 b => exact .singleton _
  | case3 b c w hsame ih => exact ih (List.isChain_cons_cons.mp hchain).2
  | case4 b c w hsame ih =>
    obtain ⟨hsucc, hrest⟩ := List.isChain_cons_cons.mp hchain
    refine List.isChain_cons.mpr ⟨fun n hn => ?_, ih hrest⟩
    rw [head_contract hnames hrest, Option.mem_def, Option.some.injEq] at hn
    exact hn ▸ abstractEdge_of_succ hnames hsucc (by simpa using hsame)

end Names

/-- **Entering a summary.** A step to the entry block of a summary does not stay in a
summary. -/
theorem sameSummary_entry (hsimp : A.loopInfo.Simplified) {b : BlockId} {agg : LoopAggregate}
    (hagg : agg ∈ A.summaries) (hsucc : A.cfg.Succ b agg.entryBB) :
    A.sameSummary b agg.entryBB = false := by
  obtain ⟨hentry, -, -, hno, -⟩ := summary_spec hsimp hagg
  by_contra hsame
  obtain ⟨s, hs, hbs, hes⟩ := sameSummary_iff.mp (by simpa using hsame)
  obtain rfl := summary_unique hs hagg hes hentry
  exact hno b hbs hsucc

section Simplified

variable (hsimp : A.loopInfo.Simplified) (hnames : (A.cfg.blocks.map A.cfg.name).Nodup)
include hsimp hnames

/-- The node of a summary contains exactly the blocks of the summary. -/
theorem nodeOf_eq_entry_iff {agg : LoopAggregate} (hagg : agg ∈ A.summaries) {b : BlockId}
    (hb : b ∈ A.cfg.blocks) : A.nodeOf b = A.nodeOf agg.entryBB ↔ b ∈ agg.loopBlocks := by
  obtain ⟨hentry, hsub, -⟩ := summary_spec hsimp hagg
  rw [nodeOf_eq_iff hb, concreteToAbstract_eq_iff hnames hb (hsub _ hentry)]
  constructor
  · rintro (rfl | hsame)
    · exact hentry
    · obtain ⟨s, hs, hbs, hes⟩ := sameSummary_iff.mp hsame
      exact summary_unique hs hagg hes hentry ▸ hbs
  · exact fun hmem => .inr (sameSummary_iff.mpr ⟨agg, hagg, hmem, hentry⟩)

/-- A visit of the node of a summary is a visit of the entry block or of another block of the
summary. -/
private theorem visit_eq {agg : LoopAggregate} (hagg : agg ∈ A.summaries) {b : BlockId}
    (hb : b ∈ A.cfg.blocks) :
    (if A.nodeOf b = A.nodeOf agg.entryBB then 1 else 0) =
      (if b = agg.entryBB then 1 else 0) +
        if b ∈ agg.loopBlocks ∧ b ≠ agg.entryBB then 1 else 0 := by
  have hnode := nodeOf_eq_entry_iff hsimp hnames hagg hb
  by_cases hbe : b = agg.entryBB
  · simp [hbe]
  · simp [hbe, hnode]

/-- **No merged stays.** The contraction visits the node of a summary once for every visit of
the entry block, and once more if the path starts in the middle of a stay. -/
theorem count_contract {agg : LoopAggregate} (hagg : agg ∈ A.summaries) {b : BlockId}
    {w : List BlockId} (hreach : A.cfg.Reachable b)
    (hchain : List.IsChain A.cfg.Succ (b :: w)) :
    (A.contract (b :: w)).count (A.nodeOf agg.entryBB) =
      (b :: w).count agg.entryBB +
        if b ∈ agg.loopBlocks ∧ b ≠ agg.entryBB then 1 else 0 := by
  obtain ⟨hentry, -, -, -, henter⟩ := summary_spec hsimp hagg
  induction w generalizing b with
  | nil =>
    have hvisit := visit_eq hsimp hnames hagg hreach.mem
    simp only [contract, List.count_cons, List.count_nil, beq_iff_eq]
    omega
  | cons c w ih =>
    obtain ⟨hsucc, hrest⟩ := List.isChain_cons_cons.mp hchain
    have hvisit := visit_eq hsimp hnames hagg hreach.mem
    have hrec := ih (hreach.tail hsucc) hrest
    rw [contract, List.count_cons]
    by_cases hsame : A.sameSummary b c = true
    · -- both blocks are in one summary, and control does not return to its entry block
      obtain ⟨s, hs, hbs, hcs⟩ := sameSummary_iff.mp hsame
      have hce : c ≠ agg.entryBB := by
        rintro rfl
        exact absurd hsame (by simp [sameSummary_entry hsimp hagg hsucc])
      have hiff : c ∈ agg.loopBlocks ↔ A.nodeOf b = A.nodeOf agg.entryBB := by
        rw [nodeOf_eq_entry_iff hsimp hnames hagg hreach.mem]
        constructor
        · exact fun hc => summary_unique hs hagg hcs hc ▸ hbs
        · exact fun hb => summary_unique hs hagg hbs hb ▸ hcs
      simp only [hiff, hce, ne_eq, not_false_eq_true, and_true] at hrec
      rw [if_pos hsame]
      simp only [beq_iff_eq]
      omega
    · have hcout : ¬(c ∈ agg.loopBlocks ∧ c ≠ agg.entryBB) := by
        rintro ⟨hc, hce⟩
        by_cases hb : b ∈ agg.loopBlocks
        · exact hsame (sameSummary_iff.mpr ⟨agg, hagg, hb, hc⟩)
        · exact hce (henter b c hreach hsucc hb hc)
      rw [if_neg hcout] at hrec
      rw [if_neg hsame, List.count_cons]
      simp only [beq_iff_eq]
      omega

end Simplified

/-- The abstract exits are the nodes with a block that has no successors. -/
theorem mem_abstractExits
    (hnames : (A.cfg.blocks.map A.cfg.name).Nodup) (n : NodeId) :
    n ∈ A.abstractExits ↔ ∃ b ∈ A.cfg.blocks, b ∈ A.nodeBlocks n ∧ A.cfg.successors b = [] := by
  rw [abstractExits, mem_orderedUnique, List.mem_map]
  constructor
  · rintro ⟨b, hb, rfl⟩
    obtain ⟨hmem, hend⟩ := CFGAnalysis.mem_exitBlocks.mp hb
    exact ⟨b, hmem, (mem_nodeBlocks hnames hmem).mpr rfl, hend⟩
  · rintro ⟨b, hmem, hn, hend⟩
    exact ⟨b, CFGAnalysis.mem_exitBlocks.mpr ⟨hmem, hend⟩,
      ((mem_nodeBlocks hnames hmem).mp hn).symm⟩

/-- **Simulation.** In a function in loop-simplify form with unique block names the summaries
are disjoint and every block belongs to exactly one node. Contracting the stays inside
summaries turns every path from the entry block into a path of the abstract graph; every step
to the entry block of a summary is an abstract edge, and the node of a summary is visited
exactly as often as its entry block. The abstract exits are the nodes with a block that has no
successors. -/
theorem abstract_cfg_simulates (hsimp : A.loopInfo.Simplified)
    (hnames : (A.cfg.blocks.map A.cfg.name).Nodup) :
    (A.summaries.Pairwise fun s t => ∀ b ∈ s.loopBlocks, b ∉ t.loopBlocks) ∧
    (∀ b ∈ A.cfg.blocks, ∃! n, n < A.abstractBlocks.length ∧ b ∈ A.nodeBlocks n) ∧
    (∀ w, w.head? = some A.cfg.entryBlock → List.IsChain A.cfg.Succ w →
      (A.contract w).head? = some (A.nodeOf A.cfg.entryBlock) ∧
      List.IsChain (fun m n => (m, n) ∈ A.abstractEdges) (A.contract w) ∧
      ∀ agg ∈ A.summaries,
        (A.contract w).count (A.nodeOf agg.entryBB) = w.count agg.entryBB ∧
        ∀ b, [b, agg.entryBB] <:+: w →
          (A.nodeOf b, A.nodeOf agg.entryBB) ∈ A.abstractEdges) ∧
    ∀ n, n ∈ A.abstractExits ↔
      ∃ b ∈ A.cfg.blocks, b ∈ A.nodeBlocks n ∧ A.cfg.successors b = [] := by
  refine ⟨selection_valid.disjoint, fun b hb => ?_, fun w hhead hchain => ?_,
    mem_abstractExits hnames⟩
  · have hlt : A.nodeOf b < A.abstractBlocks.length :=
      (List.getElem?_eq_some_iff.mp (getElem?_nodeOf hb)).1
    exact ⟨A.nodeOf b, ⟨hlt, (mem_nodeBlocks hnames hb).mpr rfl⟩,
      fun n hn => (mem_nodeBlocks hnames hb).mp hn.2⟩
  · obtain ⟨w, rfl⟩ : ∃ v, w = A.cfg.entryBlock :: v := List.head?_eq_some_iff.mp hhead
    refine ⟨head_contract hnames hchain, isChain_contract hnames hchain,
      fun agg hagg => ⟨?_, fun b hstep => ?_⟩⟩
    · obtain ⟨-, -, hstart, -⟩ := summary_spec hsimp hagg
      have hmiddle : ¬(A.cfg.entryBlock ∈ agg.loopBlocks ∧ A.cfg.entryBlock ≠ agg.entryBB) :=
        fun h => h.2 (hstart h.1)
      rw [count_contract hsimp hnames hagg .refl hchain, if_neg hmiddle, Nat.add_zero]
    · have hpair : List.IsChain A.cfg.Succ [b, agg.entryBB] := List.IsChain.infix hchain hstep
      have hsucc : A.cfg.Succ b agg.entryBB := (List.isChain_cons_cons.mp hpair).1
      exact abstractEdge_of_succ hnames hsucc (sameSummary_entry hsimp hagg hsucc)

/-- A run of `irreducible`: the loop and its preheader contract to one visit of node `1`. -/
theorem abstract_cfg_simulates_irreducible :
    irreducible.contract [0, 1, 2, 3, 4, 2, 4, 5] = [0, 1, 2] ∧
    List.IsChain (fun m n => (m, n) ∈ irreducible.abstractEdges)
      (irreducible.contract [0, 1, 2, 3, 4, 2, 4, 5]) :=
  ⟨by decide +kernel, ((abstract_cfg_simulates (by decide +kernel) (by decide +kernel)).2.2.1
    [0, 1, 2, 3, 4, 2, 4, 5] rfl (by decide)).2.1⟩

/-! ### Exits that do not return -/

/-- A function that returns or traps. -/
def trapping : FunctionAnalysis where
  cfg := .ofTable [(.branch [1, 2], 1), (.ret, 1), (.unreachable, 1)] (by decide) (by decide)
    (by decide +kernel)
  loopInfo := .empty _
  state := emptyState
  params := unitParams
  fEntry _ := 1
  hasInvoke _ := false

/-- The node of the trapping block is an abstract exit, but no block in it returns. -/
theorem trapping_exit_does_not_return :
    trapping.loopInfo.Simplified ∧ (trapping.cfg.blocks.map trapping.cfg.name).Nodup ∧
    ¬∀ n, n ∈ trapping.abstractExits ↔
      ∃ b ∈ trapping.cfg.blocks, b ∈ trapping.nodeBlocks n ∧
        trapping.cfg.terminator b = .ret := by
  refine ⟨by decide +kernel, by decide +kernel, fun h => ?_⟩
  have hexit : 2 ∈ trapping.abstractExits := by decide +kernel
  have hno : ¬∃ b ∈ trapping.cfg.blocks, b ∈ trapping.nodeBlocks 2 ∧
      trapping.cfg.terminator b = .ret := by decide +kernel
  exact hno ((h 2).mp hexit)

end FunctionAnalysis

end Bao.Milp
