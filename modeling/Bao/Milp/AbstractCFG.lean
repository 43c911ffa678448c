import Bao.Milp.SummaryBudget
import Bao.Milp.Optimizer

/-!
# The abstract control flow graph

`buildAbstractCFG` goes through the loops, outermost first, and collapses every loop that fits
the energy budget, together with its preheader, into a summary node. All other blocks become
nodes of their own. The nodes carry unique names and are numbered in function order; edges
inside a summary are dropped. The views of the result that the optimizer reads are assembled in
`AbstractViews.lean`.
-/

namespace Bao.Milp

/-- Why a loop is not summarized. -/
inductive SkipReason
  | nonpositiveEnergyBudget
  | missingHeaderOrLatch
  | containsInvoke
  | overlapsSummarizedLoop
  | path (e : PathError)
  | unknownLoopTripCount
  | loopTotalExceedsBudget
  deriving DecidableEq, Repr

/-- The texts under which skipped loops are counted. -/
def SkipReason.message : SkipReason → String
  | .nonpositiveEnergyBudget => "nonpositive-energy-budget"
  | .missingHeaderOrLatch => "missing-header-or-latch"
  | .containsInvoke => "contains-invoke"
  | .overlapsSummarizedLoop => "overlaps-summarized-loop"
  | .path e => e.message
  | .unknownLoopTripCount => "unknown-loop-trip-count"
  | .loopTotalExceedsBudget => "loop-total-exceeds-budget"

/-- `LoopAggregate`: what is recorded for a summary node. -/
structure LoopAggregate where
  nodeName : String
  headerBB : BlockId
  entryBB : BlockId
  loopBlocks : List BlockId
  pathBlocks : List BlockId
  pathEnergy : ℚ
  eNvmByGV : GlobalVariable → ℚ
  eligLiveIn : List GlobalVariable
  eligDefGlobals : List GlobalVariable
  ineligLiveIn : List Value
  ineligDefVars : List Value
  fEntry : ℚ

/-- The first unused of the names `base_1`, `base_2`, …. The counter of the source is bounded
by `UINT_MAX`; one candidate more than there are used names is always enough
(`makeUniqueSummaryNodeName_not_mem`). -/
def firstUnused (base : String) (used : List String) : ℕ → ℕ → String
  | 0, _ => base ++ "_overflow"
  | n + 1, i =>
    if base ++ "_" ++ toString i ∈ used then firstUnused base used n (i + 1)
    else base ++ "_" ++ toString i

/-- `makeUniqueSummaryNodeName`. -/
def makeUniqueSummaryNodeName (headerName : String) (used : List String) : String :=
  let base := "__loop_summary__" ++ headerName
  if base ∉ used then base else firstUnused base used (used.length + 1) 1

theorem summaryName_injective (base : String) :
    Function.Injective fun i : ℕ => base ++ "_" ++ toString i := by
  intro i j hij
  exact Nat.repr_inj.mp ((String.append_right_inj _).mp hij)

/-- The search either finds an unused name or has seen all its candidates in use. -/
theorem firstUnused_spec (base : String) (used : List String) (n i : ℕ) :
    firstUnused base used n i ∉ used ∨
      ∀ j, i ≤ j → j < i + n → base ++ "_" ++ toString j ∈ used := by
  induction n generalizing i with
  | zero => exact .inr fun j _ _ => by omega
  | succ n ih =>
    rw [firstUnused]
    split_ifs with hi
    · refine (ih (i + 1)).imp_right fun h j hij hj => ?_
      rcases Nat.lt_or_eq_of_le hij with hlt | rfl
      · exact h j hlt (by omega)
      · exact hi
    · exact .inl hi

/-- **Summary names are new.** -/
theorem makeUniqueSummaryNodeName_not_mem (headerName : String) (used : List String) :
    makeUniqueSummaryNodeName headerName used ∉ used := by
  rw [makeUniqueSummaryNodeName]
  split_ifs with hbase
  · refine (firstUnused_spec _ used (used.length + 1) 1).resolve_right fun hall => ?_
    -- the candidates are distinct and more than the used names
    have hnodup := (List.nodup_range' (s := 1) (n := used.length + 1)).map
      (summaryName_injective ("__loop_summary__" ++ headerName))
    have hsub : ∀ s ∈ (List.range' 1 (used.length + 1)).map
        (fun i : ℕ => "__loop_summary__" ++ headerName ++ "_" ++ toString i), s ∈ used := by
      intro s hs
      obtain ⟨j, hj, rfl⟩ := List.mem_map.mp hs
      obtain ⟨h1, h2⟩ := List.mem_range'_1.mp hj
      exact hall j h1 h2
    have hle := (List.subperm_of_subset hnodup hsub).length_le
    rw [List.length_map, List.length_range'] at hle
    omega
  · exact hbase

/-- Append an element unless it was seen before. -/
def insertNew {α : Type*} [DecidableEq α] (seen : List α) (a : α) : List α :=
  if a ∈ seen then seen else seen ++ [a]

/-- The distinct elements of a list in the order of their first occurrence. -/
def orderedUnique {α : Type*} [DecidableEq α] (l : List α) : List α := l.foldl insertNew []

section OrderedUnique

variable {α : Type*} [DecidableEq α]

@[simp] theorem mem_insertNew {seen : List α} {a x : α} :
    x ∈ insertNew seen a ↔ x ∈ seen ∨ x = a := by
  rw [insertNew]
  split_ifs with h
  · exact ⟨.inl, fun hx => hx.elim id fun hx => hx ▸ h⟩
  · simp

private theorem foldl_insertNew (l seen : List α) (hseen : seen.Nodup) :
    (∀ x, x ∈ l.foldl insertNew seen ↔ x ∈ seen ∨ x ∈ l) ∧ (l.foldl insertNew seen).Nodup := by
  induction l generalizing seen with
  | nil => simpa using hseen
  | cons a l ih =>
    have hnodup : (insertNew seen a).Nodup := by
      rw [insertNew]
      split_ifs with h
      · exact hseen
      · exact List.nodup_append.mpr ⟨hseen, by simp, fun x hx y hy => by
          rw [List.mem_singleton.mp hy]
          exact fun heq => h (heq ▸ hx)⟩
    obtain ⟨hmem, hnd⟩ := ih (insertNew seen a) hnodup
    refine ⟨fun x => ?_, hnd⟩
    rw [List.foldl_cons, hmem, mem_insertNew, List.mem_cons, or_assoc]

@[simp] theorem mem_orderedUnique {l : List α} {x : α} : x ∈ orderedUnique l ↔ x ∈ l := by
  simpa [orderedUnique] using (foldl_insertNew l [] List.nodup_nil).1 x

theorem nodup_orderedUnique (l : List α) : (orderedUnique l).Nodup :=
  (foldl_insertNew l [] List.nodup_nil).2

end OrderedUnique

namespace FunctionAnalysis

variable (A : FunctionAnalysis)

/-! ### Selection of summaries -/

/-- The aggregated ineligible live-in: live into some block of the summary, and, for an SSA
value, not defined inside. -/
def summaryIneligLiveIn (loopBlocks : List BlockId) : List Value :=
  A.state.ineligibleObjs.filter fun v =>
    (loopBlocks.any fun b => v ∈ A.state.ineligLiveIn b) &&
      (match v with
        | .inst _ => !(loopBlocks.any fun b => A.state.ineligDefIndicator b v)
        | _ => true)

/-- The aggregate of a loop that passed the checks. -/
def aggregate (L : Loop) (nodeName : String) (s : SummaryBudget) (loopTC : ℕ) :
    LoopAggregate where
  nodeName := nodeName
  headerBB := L.header
  entryBB := (L.getLoopPreheader A.cfg).getD L.header
  loopBlocks := L.blocks ∪ (L.getLoopPreheader A.cfg).toList
  pathBlocks := s.worstCasePath.blocksOnPath
  pathEnergy := s.worstCasePath.energy * loopTC + s.preheaderEnergy
  eNvmByGV g := (s.worstCasePath.blocksOnPath.map fun b => A.eNvm b g).sum * loopTC +
    ((L.getLoopPreheader A.cfg).toList.map fun b => A.eNvm b g).sum
  eligLiveIn := A.state.vmObjs.filter fun g =>
    (L.blocks ∪ (L.getLoopPreheader A.cfg).toList).any fun b => g ∈ A.state.eligLiveIn b
  eligDefGlobals := A.state.vmObjs.filter fun g =>
    (L.blocks ∪ (L.getLoopPreheader A.cfg).toList).any fun b => A.state.eligDefIndicator b g
  ineligLiveIn := A.summaryIneligLiveIn (L.blocks ∪ (L.getLoopPreheader A.cfg).toList)
  ineligDefVars := A.state.ineligibleObjs.filter fun v =>
    (L.blocks ∪ (L.getLoopPreheader A.cfg).toList).any fun b => A.state.ineligDefIndicator b v
  fEntry := A.fEntry ((L.getLoopPreheader A.cfg).getD L.header)

/-- The decision for one loop, given the names and blocks already taken. -/
def summarizeLoop (used : List String) (selected : List BlockId) (L : Loop) :
    Except SkipReason LoopAggregate :=
  if A.budget ≤ 0 then .error .nonpositiveEnergyBudget
  else if L.getLoopLatch A.cfg = none then .error .missingHeaderOrLatch
  else if L.blocks.any A.hasInvoke then .error .containsInvoke
  else if L.blocks.any fun b => b ∈ selected then .error .overlapsSummarizedLoop
  else match A.computeSummaryBudget L with
    | .error e => .error (.path e)
    | .ok s =>
      match L.summarySubLoopTripCount with
      | none => .error .unknownLoopTripCount
      | some loopTC =>
        let totalBaseEnergy := s.worstCasePath.energy * loopTC + s.preheaderEnergy
        let totalNvmPenalty := s.perIterNvmPenalty * loopTC + s.preheaderNvmPenalty
        if s.budgetAfterBoundary ≤ 0 ∨
            ¬totalBaseEnergy + totalNvmPenalty < s.budgetAfterBoundary then
          .error .loopTotalExceedsBudget
        else .ok (A.aggregate L (makeUniqueSummaryNodeName (A.cfg.name L.header) used) s loopTC)

variable {A} in
/-- What a positive decision consists of. -/
theorem summarizeLoop_ok {used : List String} {selected : List BlockId} {L : Loop}
    {agg : LoopAggregate} (h : A.summarizeLoop used selected L = .ok agg) :
    ∃ s tc, A.computeSummaryBudget L = .ok s ∧ L.summarySubLoopTripCount = some tc ∧
      (∀ b ∈ L.blocks, b ∉ selected) ∧
      agg = A.aggregate L (makeUniqueSummaryNodeName (A.cfg.name L.header) used) s tc := by
  rw [summarizeLoop] at h
  split_ifs at h with h1 h2 h3 h4
  split at h
  · simp at h
  · rename_i s hs
    split at h
    · simp at h
    · rename_i tc htc
      simp only at h
      split_ifs at h
      obtain rfl : _ = agg := by simpa using h
      exact ⟨s, tc, hs, htc, by simpa using h4, rfl⟩

/-- The state of the selection loop. -/
structure Selection where
  usedNodeNames : List String
  summarizedBlocks : List BlockId
  summaries : List LoopAggregate
  skipped : List (BlockId × SkipReason)

/-- One round of the selection loop. -/
def Selection.step (st : Selection) (L : Loop) : Selection :=
  match A.summarizeLoop st.usedNodeNames st.summarizedBlocks L with
  | .error reason => { st with skipped := st.skipped ++ [(L.header, reason)] }
  | .ok agg =>
    { st with
      usedNodeNames := agg.nodeName :: st.usedNodeNames
      summarizedBlocks := st.summarizedBlocks ++ agg.loopBlocks
      summaries := st.summaries ++ [agg] }

/-- The selection starts with the names of the blocks and no summaries. -/
def Selection.init : Selection := ⟨A.cfg.blocks.map A.cfg.name, [], [], []⟩

/-- All loops, outermost first. -/
def selection : Selection := A.loopInfo.loops.foldl (Selection.step A) (Selection.init A)

/-- The summaries. -/
def summaries : List LoopAggregate := A.selection.summaries

/-! ### Nodes and edges -/

/-- The summary a block belongs to. -/
def summaryOf (b : BlockId) : Option LoopAggregate :=
  A.summaries.find? fun agg => b ∈ agg.loopBlocks

/-- `concreteToAbstract`: the name of the node of a block. -/
def concreteToAbstract (b : BlockId) : String :=
  match A.summaryOf b with
  | some agg => agg.nodeName
  | none => A.cfg.name b

/-- The node names in function order. -/
def abstractBlocks : List String := orderedUnique (A.cfg.blocks.map A.concreteToAbstract)

/-- The number of the node of a block (`NodeMap::getNodeId`). -/
def nodeOf (b : BlockId) : NodeId := A.abstractBlocks.idxOf (A.concreteToAbstract b)

/-- An edge is kept unless both ends have the same name; a self edge of a block that is not
collapsed is kept. -/
def keepsEdge (src dst : BlockId) : Bool :=
  A.concreteToAbstract src ≠ A.concreteToAbstract dst ||
    (src = dst && A.concreteToAbstract src = A.cfg.name src)

/-- The abstract edges. -/
def abstractEdges : List (NodeId × NodeId) :=
  orderedUnique ((A.cfg.edges.filter fun e => A.keepsEdge e.1 e.2).map fun e =>
    (A.nodeOf e.1, A.nodeOf e.2))

/-- The abstract exits: the nodes of the exit blocks. -/
def abstractExits : List NodeId := orderedUnique (A.cfg.exitBlocks.map A.nodeOf)

/-! ### Data of the nodes -/

/-- The summary a node stands for, by its name. -/
def summaryAt (n : NodeId) : Option LoopAggregate :=
  A.summaries.find? fun agg => some agg.nodeName = A.abstractBlocks[n]?

/-- The block a node stands for, by its name, if it is not summarized. -/
def blockAt (n : NodeId) : Option BlockId :=
  A.cfg.blocks.find? fun b => A.summaryOf b = none ∧ some (A.cfg.name b) = A.abstractBlocks[n]?

/-- Read data of a node from its summary or its block. -/
def nodeData {β : Type*} (fromSummary : LoopAggregate → β) (fromBlock : BlockId → β)
    (default : β) (n : NodeId) : β :=
  match A.summaryAt n with
  | some agg => fromSummary agg
  | none =>
    match A.blockAt n with
    | some b => fromBlock b
    | none => default

end FunctionAnalysis

end Bao.Milp
