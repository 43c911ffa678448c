import Bao.Graph.PostOrder
import Bao.Graph.Walk
import Mathlib.Algebra.Order.Ring.Rat
import Mathlib.Tactic.Linarith

/-!
# Region partitioning

`RockClimbMachineOptimizer.cpp` cuts a machine function into regions. A block is a **boundary** if
it is the entry of a callee, a loop header, the target of a retreating edge or a return block, or if
the energy that has come in, plus its own, reaches `E_safe`. One pass in reverse post-order hands
the accumulated energy of a block to its successors.

`partition_safe` is the guarantee for whole paths. Income is final when a block is visited, because
a block that is no boundary has its predecessors before it: edges from later blocks are retreating,
and their targets are boundaries. So the accumulated energy of a block bounds every path through its
region that ends with it (`exists_accum`).
-/

namespace Bao.RockClimb

open Bao.Graph

/-! ### Functions -/

/-- A machine basic block, by its number. -/
abbrev MachineBasicBlock := Nat

/-- The control flow of a machine function: its blocks in layout order, the entry first.
`loopHeaders` are the headers of the loops that `MachineLoopInfo` knows. -/
structure MachineCFG where
  name : String
  blocks : List MachineBasicBlock
  successors : MachineBasicBlock → List MachineBasicBlock
  isReturnBlock : MachineBasicBlock → Bool
  loopHeaders : List MachineBasicBlock
  nodup : blocks.Nodup
  successors_mem : ∀ b ∈ blocks, ∀ c ∈ successors b, c ∈ blocks

/-- A region: the blocks from one boundary to the next in topological order. -/
structure MachineRegionInfo where
  startBlock : MachineBasicBlock
  blocks : List MachineBasicBlock
  totalEnergy : ℚ

/-- What the partitioning returns. An infeasible result names the block of its error message. -/
structure MachineRockClimbResult where
  regionBoundaries : List MachineBasicBlock := []
  regions : List MachineRegionInfo := []
  feasible : Bool := true
  exceeding : Option MachineBasicBlock := none

namespace MachineCFG

variable (MF : MachineCFG)

/-- The blocks reachable from the entry, in reverse post-order. -/
def rpo : List MachineBasicBlock :=
  match MF.blocks with
  | [] => []
  | entry :: _ => reversePostOrder MF.successors MF.blocks entry

/-- **`computeTopologicalOrder`**: the reachable blocks, then all others. -/
def topoOrder : List MachineBasicBlock :=
  MF.rpo ++ MF.blocks.filter fun b => b ∉ MF.rpo

/-- The targets of the edges that do not go forward in reverse post-order. -/
def retreatingTargets : List MachineBasicBlock :=
  MF.rpo.flatMap fun b => (MF.successors b).filter fun c =>
    c ∈ MF.rpo ∧ MF.rpo.idxOf c ≤ MF.rpo.idxOf b

/-- A block other than the entry that is a boundary in any case. -/
def mandatory (b : MachineBasicBlock) : Bool :=
  b ∈ MF.loopHeaders || b ∈ MF.retreatingTargets || MF.isReturnBlock b

end MachineCFG

/-! ### The partitioning -/

/-- The state of the pass over the blocks. -/
structure Partition where
  incomeCycle : MachineBasicBlock → ℚ := fun _ => 0
  boundarySet : List MachineBasicBlock := []

/-- The optimizer: a function with the energies of its blocks and the energy of a charge. -/
structure RockClimbMachineOptimizer where
  MF : MachineCFG
  energyCosts : MachineBasicBlock → ℚ
  E_safe : ℚ

namespace RockClimbMachineOptimizer

variable (O : RockClimbMachineOptimizer)

/-- The boundaries after a block is visited: the block is added if it is mandatory, or if the income
and its own energy do not fit one charge. -/
def boundariesWith (entryMBB : MachineBasicBlock) (P : Partition) (b : MachineBasicBlock) :
    List MachineBasicBlock :=
  if b ≠ entryMBB ∧ O.MF.mandatory b ∨ O.E_safe ≤ O.energyCosts b + P.incomeCycle b then
    P.boundarySet.insert b
  else P.boundarySet

/-- The energy a block accumulates; a boundary starts afresh. -/
def accumCycle (entryMBB : MachineBasicBlock) (P : Partition) (b : MachineBasicBlock) : ℚ :=
  if b ∈ O.boundariesWith entryMBB P b then O.energyCosts b
  else O.energyCosts b + P.incomeCycle b

/-- Visits a block: decides whether it is a boundary and hands its energy on. The error is the
block, if it does not fit one charge. -/
def visitBlock (entryMBB : MachineBasicBlock) (P : Partition) (b : MachineBasicBlock) :
    Except MachineBasicBlock Partition :=
  if O.E_safe ≤ O.accumCycle entryMBB P b then .error b
  else .ok {
    boundarySet := O.boundariesWith entryMBB P b
    incomeCycle := fun c =>
      if c ∈ O.MF.successors b then max (P.incomeCycle c) (O.accumCycle entryMBB P b)
      else P.incomeCycle c }

/-- The boundaries before the pass: the entry, except of the program-entry function. -/
def initial (entryMBB : MachineBasicBlock) : Partition :=
  { boundarySet := if O.MF.name ≠ "main" then [entryMBB] else [] }

/-- The state of the region formation: finished regions, and the open one. -/
structure Forming where
  regions : List MachineRegionInfo := []
  current : MachineRegionInfo

/-- Ends the open region, if it has a block. -/
def Forming.flush (f : Forming) : List MachineRegionInfo :=
  if f.current.blocks.isEmpty then f.regions else f.regions ++ [f.current]

/-- Adds a block to the open region, or to a new one if the block is a boundary. -/
def formRegion (boundarySet : List MachineBasicBlock) (f : Forming) (b : MachineBasicBlock) :
    Forming :=
  let f : Forming := if b ∈ boundarySet then ⟨f.flush, ⟨b, [], 0⟩⟩ else f
  { f with current := { f.current with
      blocks := f.current.blocks ++ [b]
      totalEnergy := f.current.totalEnergy + O.energyCosts b } }

/-- **`partitionRegions`**. -/
def partitionRegions : MachineRockClimbResult :=
  match O.MF.topoOrder with
  | [] => {}
  | entryMBB :: rest =>
    match (entryMBB :: rest).foldlM (O.visitBlock entryMBB) (O.initial entryMBB) with
    | .error b => { feasible := false, exceeding := some b }
    | .ok P =>
      { regionBoundaries := (entryMBB :: rest).filter fun b => b ∈ P.boundarySet
        regions := ((entryMBB :: rest).foldl (O.formRegion P.boundarySet)
          { current := ⟨entryMBB, [], 0⟩ }).flush }

end RockClimbMachineOptimizer

/-! ### The order of the blocks -/

namespace MachineCFG

variable {MF : MachineCFG}

/-- An edge of the control flow graph. -/
def Edge (MF : MachineCFG) (b c : MachineBasicBlock) : Prop := c ∈ MF.successors b

/-- The block is reachable from the entry. -/
def Reachable (MF : MachineCFG) (b : MachineBasicBlock) : Prop :=
  ∃ entry, MF.blocks.head? = some entry ∧ Relation.ReflTransGen MF.Edge entry b

theorem mem_rpo_iff {b : MachineBasicBlock} : b ∈ MF.rpo ↔ MF.Reachable b := by
  unfold rpo Reachable
  cases hblocks : MF.blocks with
  | nil => simp
  | cons entry rest =>
    have hentry : entry ∈ MF.blocks := hblocks ▸ List.mem_cons_self
    simp only [List.head?_cons, Option.some.injEq, exists_eq_left']
    rw [← hblocks]
    exact mem_reversePostOrder MF.successors_mem hentry

theorem nodup_rpo : MF.rpo.Nodup := by
  unfold rpo
  cases hblocks : MF.blocks with
  | nil => exact List.nodup_nil
  | cons entry rest =>
    have hentry : entry ∈ MF.blocks := hblocks ▸ List.mem_cons_self
    simp only
    rw [← hblocks]
    exact nodup_reversePostOrder MF.successors_mem hentry

theorem nodup_topoOrder : MF.topoOrder.Nodup := by
  refine List.nodup_append.mpr ⟨nodup_rpo, MF.nodup.filter _, fun b hb c hc hbc => ?_⟩
  exact of_decide_eq_true (List.mem_filter.mp hc).2 (hbc ▸ hb)

theorem mem_blocks_of_mem_rpo {b : MachineBasicBlock} (hb : b ∈ MF.rpo) : b ∈ MF.blocks := by
  obtain ⟨entry, hentry, hreach⟩ := mem_rpo_iff.mp hb
  induction hreach with
  | refl => exact List.mem_of_head? hentry
  | tail hreach hstep ih =>
    exact MF.successors_mem _ (ih (mem_rpo_iff.mpr ⟨entry, hentry, hreach⟩)) _ hstep

theorem head?_topoOrder : MF.topoOrder.head? = MF.blocks.head? := by
  unfold topoOrder rpo
  cases hblocks : MF.blocks with
  | nil => rfl
  | cons entry rest =>
    simp only
    rw [List.head?_append, head?_reversePostOrder]
    rfl

theorem Reachable.edge {b c : MachineBasicBlock} (hb : MF.Reachable b) (hbc : MF.Edge b c) :
    MF.Reachable c := by
  obtain ⟨entry, hentry, hreach⟩ := hb
  exact ⟨entry, hentry, hreach.tail hbc⟩

/-- **Edges go forward or to a boundary.** -/
theorem idxOf_lt_of_not_retreating {b c : MachineBasicBlock} (hb : MF.Reachable b)
    (hbc : MF.Edge b c) (hc : c ∉ MF.retreatingTargets) : MF.rpo.idxOf b < MF.rpo.idxOf c := by
  by_contra hlt
  refine hc (List.mem_flatMap.mpr ⟨b, mem_rpo_iff.mpr hb, ?_⟩)
  simp only [List.mem_filter, decide_eq_true_eq]
  exact ⟨hbc, mem_rpo_iff.mpr (hb.edge hbc), not_lt.mp hlt⟩

/-- A path through one region: it starts at the entry or at a reachable boundary and goes on through
blocks that are no boundaries. -/
structure RegionPath (MF : MachineCFG) (boundaries : List MachineBasicBlock)
    (b : MachineBasicBlock) (w : List MachineBasicBlock) : Prop where
  start : MF.blocks.head? = some b ∨ MF.Reachable b ∧ b ∈ boundaries
  chain : List.IsChain MF.Edge (b :: w)
  inside : ∀ c ∈ w, c ∉ boundaries

theorem RegionPath.reachable {boundaries : List MachineBasicBlock} {b : MachineBasicBlock}
    {w : List MachineBasicBlock} (h : MF.RegionPath boundaries b w) : MF.Reachable b := by
  rcases h.start with hb | hb
  · exact ⟨b, hb, .refl⟩
  · exact hb.1

/-- A cycle: a closed path from a reachable block. -/
structure Cycle (MF : MachineCFG) (b : MachineBasicBlock) (w : List MachineBasicBlock) : Prop where
  reachable : MF.Reachable b
  chain : List.IsChain MF.Edge (b :: w)
  closed : w.getLast? = some b

/-- The entry is no successor. -/
def EntryHasNoPredecessors (MF : MachineCFG) : Prop :=
  ∀ entry ∈ MF.blocks.head?, ∀ b ∈ MF.blocks, ¬MF.Edge b entry

end MachineCFG

/-! ### Accumulated energies -/

namespace RockClimbMachineOptimizer

variable {O : RockClimbMachineOptimizer} {entryMBB : MachineBasicBlock}

theorem mem_boundariesWith {P : Partition} {b c : MachineBasicBlock} :
    c ∈ O.boundariesWith entryMBB P b ↔ c ∈ P.boundarySet ∨ c = b ∧
      (b ≠ entryMBB ∧ O.MF.mandatory b ∨ O.E_safe ≤ O.energyCosts b + P.incomeCycle b) := by
  rw [boundariesWith]
  split_ifs with h
  · rw [List.mem_insert_iff]
    tauto
  · tauto

/-- An error names a block that does not fit one charge. -/
theorem visitBlock_error {P : Partition} {b d : MachineBasicBlock}
    (h : O.visitBlock entryMBB P b = .error d) : d = b ∧ O.E_safe ≤ O.energyCosts b := by
  rw [visitBlock] at h
  split_ifs at h with hle
  obtain rfl : b = d := by injection h
  refine ⟨rfl, ?_⟩
  rw [accumCycle] at hle
  split_ifs at hle with hb
  · exact hle
  · exact absurd (mem_boundariesWith.mpr (.inr ⟨rfl, .inr hle⟩)) hb

theorem visitBlock_ok {P P' : Partition} {b : MachineBasicBlock}
    (h : O.visitBlock entryMBB P b = .ok P') :
    O.accumCycle entryMBB P b < O.E_safe ∧ P'.boundarySet = O.boundariesWith entryMBB P b ∧
      P'.incomeCycle = fun c => if c ∈ O.MF.successors b then
        max (P.incomeCycle c) (O.accumCycle entryMBB P b) else P.incomeCycle c := by
  rw [visitBlock] at h
  split_ifs at h with hle
  cases h
  exact ⟨not_le.mp hle, rfl, rfl⟩

/-- **What holds after the blocks `done` were visited**: their accumulated energies are below
`E_safe` and were handed to their successors, and a block that is no boundary accumulates at least
what any earlier predecessor does, plus its own energy. -/
structure Accumulated (O : RockClimbMachineOptimizer) (entryMBB : MachineBasicBlock)
    (done : List MachineBasicBlock) (P : Partition) (accum : MachineBasicBlock → ℚ) : Prop where
  lt_safe : ∀ b ∈ done, accum b < O.E_safe
  cost_le : ∀ b ∈ done, O.energyCosts b ≤ accum b
  handed : ∀ b ∈ done, ∀ c ∈ O.MF.successors b, accum b ≤ P.incomeCycle c
  income_nonneg : ∀ c, 0 ≤ P.incomeCycle c
  step : ∀ b ∈ done, ∀ c ∈ done, done.idxOf b < done.idxOf c → O.MF.Edge b c →
    c ∉ P.boundarySet → accum b + O.energyCosts c ≤ accum c
  mandatory : ∀ b ∈ done, b ≠ entryMBB → O.MF.mandatory b = true → b ∈ P.boundarySet
  boundary : ∀ b ∈ P.boundarySet, b = entryMBB ∨ b ∈ done

/-- One visit. -/
theorem Accumulated.visit {done : List MachineBasicBlock} {P P' : Partition}
    {accum : MachineBasicBlock → ℚ} {b : MachineBasicBlock}
    (h : O.Accumulated entryMBB done P accum) (hb : b ∉ done)
    (hvisit : O.visitBlock entryMBB P b = .ok P') :
    O.Accumulated entryMBB (done ++ [b]) P'
      (Function.update accum b (O.accumCycle entryMBB P b)) := by
  obtain ⟨hlt, hset, hincome⟩ := visitBlock_ok hvisit
  have hne : ∀ c ∈ done, c ≠ b := fun c hc heq => hb (heq ▸ hc)
  have hgrow : ∀ c, P.incomeCycle c ≤ P'.incomeCycle c := by
    intro c
    rw [hincome]
    dsimp only
    split_ifs
    · exact le_max_left _ _
    · exact le_rfl
  have hmem : ∀ {c}, c ∈ done ++ [b] → c ∈ done ∨ c = b := by
    intro c hc
    simpa using hc
  refine ⟨fun c hc => ?_, fun c hc => ?_, fun c hc d hd => ?_, fun c => ?_,
    fun c hc d hd hcd hedge hnot => ?_, fun c hc hentry hmand => ?_, fun c hc => ?_⟩
  · rcases hmem hc with hc | rfl
    · rw [Function.update_of_ne (hne c hc)]
      exact h.lt_safe c hc
    · rwa [Function.update_self]
  · rcases hmem hc with hc | rfl
    · rw [Function.update_of_ne (hne c hc)]
      exact h.cost_le c hc
    · rw [Function.update_self, accumCycle]
      split_ifs
      · exact le_rfl
      · linarith [h.income_nonneg c]
  · rcases hmem hc with hc | rfl
    · rw [Function.update_of_ne (hne c hc)]
      exact (h.handed c hc d hd).trans (hgrow d)
    · rw [Function.update_self, hincome]
      dsimp only
      rw [if_pos hd]
      exact le_max_right _ _
  · exact (h.income_nonneg c).trans (hgrow c)
  · have hnot' : d ∉ P.boundarySet := by
      rw [hset, mem_boundariesWith] at hnot
      tauto
    rcases hmem hd with hd' | rfl
    · -- both were visited before: `c` cannot come after `d`
      rcases hmem hc with hc' | rfl
      · rw [List.idxOf_append_of_mem hc', List.idxOf_append_of_mem hd'] at hcd
        rw [Function.update_of_ne (hne c hc'), Function.update_of_ne (hne d hd')]
        exact h.step c hc' d hd' hcd hedge hnot'
      · rw [List.idxOf_append_of_mem hd', List.idxOf_append_of_notMem hb] at hcd
        have := List.idxOf_lt_length_of_mem hd'
        omega
    · rcases hmem hc with hc' | rfl
      · rw [Function.update_of_ne (hne c hc'), Function.update_self, accumCycle,
          if_neg (hset ▸ hnot)]
        linarith [h.handed c hc' d hedge]
      · exact absurd hcd (lt_irrefl _)
  · rw [hset, mem_boundariesWith]
    rcases hmem hc with hc | rfl
    · exact .inl (h.mandatory c hc hentry hmand)
    · exact .inr ⟨rfl, .inl ⟨hentry, hmand⟩⟩
  · rw [hset, mem_boundariesWith] at hc
    rcases hc with hc | ⟨rfl, -⟩
    · exact (h.boundary c hc).imp id fun hc => List.mem_append_left _ hc
    · exact .inr (by simp)

/-- The whole pass. -/
theorem Accumulated.foldlM {todo : List MachineBasicBlock} :
    ∀ {done : List MachineBasicBlock} {P P' : Partition} {accum : MachineBasicBlock → ℚ},
      O.Accumulated entryMBB done P accum → (done ++ todo).Nodup →
      todo.foldlM (O.visitBlock entryMBB) P = .ok P' →
      ∃ accum', O.Accumulated entryMBB (done ++ todo) P' accum' := by
  induction todo with
  | nil =>
    intro done P P' accum h _ hfold
    cases hfold
    exact ⟨accum, by simpa using h⟩
  | cons b todo ih =>
    intro done P P' accum h hnodup hfold
    rw [List.foldlM_cons] at hfold
    cases hvisit : O.visitBlock entryMBB P b with
    | error d => simp [hvisit, bind, Except.bind] at hfold
    | ok P₁ =>
      rw [hvisit] at hfold
      have hb : b ∉ done := fun hmem =>
        (List.nodup_append.mp hnodup).2.2 b hmem b List.mem_cons_self rfl
      rw [List.append_cons] at hnodup ⊢
      exact ih (h.visit hb hvisit) hnodup hfold

/-- A pass that fails names a block that does not fit one charge. -/
theorem foldlM_error {todo : List MachineBasicBlock} {P : Partition} {d : MachineBasicBlock}
    (h : todo.foldlM (O.visitBlock entryMBB) P = .error d) :
    d ∈ todo ∧ O.E_safe ≤ O.energyCosts d := by
  induction todo generalizing P with
  | nil => cases h
  | cons b todo ih =>
    rw [List.foldlM_cons] at h
    cases hvisit : O.visitBlock entryMBB P b with
    | error e =>
      rw [hvisit] at h
      obtain rfl : e = d := by injection h
      obtain ⟨rfl, hle⟩ := visitBlock_error hvisit
      exact ⟨List.mem_cons_self, hle⟩
    | ok P₁ =>
      rw [hvisit] at h
      obtain ⟨hmem, hle⟩ := ih h
      exact ⟨List.mem_cons_of_mem b hmem, hle⟩

/-! ### The guarantee -/

/-- What a feasible partition comes from. -/
theorem feasible_cases (h : O.partitionRegions.feasible = true) :
    O.MF.blocks = [] ∨ ∃ entryMBB P accum, O.MF.blocks.head? = some entryMBB ∧
      O.Accumulated entryMBB O.MF.topoOrder P accum ∧
      O.partitionRegions.regionBoundaries = O.MF.topoOrder.filter fun b => b ∈ P.boundarySet := by
  have hhead : O.MF.topoOrder.head? = O.MF.blocks.head? := MachineCFG.head?_topoOrder
  rw [partitionRegions] at h ⊢
  cases htopo : O.MF.topoOrder with
  | nil =>
    rw [htopo] at hhead
    exact .inl (List.head?_eq_none_iff.mp hhead.symm)
  | cons entryMBB rest =>
    right
    rw [htopo] at hhead h
    simp only at h ⊢
    cases hfold : (entryMBB :: rest).foldlM (O.visitBlock entryMBB) (O.initial entryMBB) with
    | error d => simp [hfold] at h
    | ok P =>
      have hinit : O.Accumulated entryMBB [] (O.initial entryMBB) fun _ => 0 := by
        refine ⟨by simp, by simp, by simp, fun c => le_rfl, by simp, by simp, fun b hb => .inl ?_⟩
        rw [initial] at hb
        simp only at hb
        split_ifs at hb
        · exact List.mem_singleton.mp hb
        · simp at hb
      obtain ⟨accum, haccum⟩ := hinit.foldlM (by simpa [htopo] using O.MF.nodup_topoOrder) hfold
      exact ⟨entryMBB, P, accum, hhead.symm, by simpa using haccum, rfl⟩

/-- **Accumulated energies bound the regions.** For every reachable block of a feasible partition:
its accumulated energy is below `E_safe`, and rises along every edge into a block that is no
boundary by the energy of that block. Such edges go forward. -/
theorem exists_accum (h : O.partitionRegions.feasible = true)
    (hentry : O.MF.EntryHasNoPredecessors) :
    ∃ accum : MachineBasicBlock → ℚ, ∀ b, O.MF.Reachable b →
      accum b < O.E_safe ∧ O.energyCosts b ≤ accum b ∧
      ∀ c, O.MF.Edge b c → c ∉ O.partitionRegions.regionBoundaries →
        O.MF.rpo.idxOf b < O.MF.rpo.idxOf c ∧ accum b + O.energyCosts c ≤ accum c := by
  rcases feasible_cases h with hempty | ⟨entryMBB, P, accum, hhead, haccum, hboundaries⟩
  · refine ⟨fun _ => 0, fun b hb => ?_⟩
    obtain ⟨entry, hentry, -⟩ := hb
    simp [hempty] at hentry
  · refine ⟨accum, fun b hb => ?_⟩
    have hmem : ∀ {c}, O.MF.Reachable c → c ∈ O.MF.topoOrder := fun hc =>
      List.mem_append_left _ (MachineCFG.mem_rpo_iff.mpr hc)
    refine ⟨haccum.lt_safe b (hmem hb), haccum.cost_le b (hmem hb), fun c hbc hc => ?_⟩
    have hreach := hb.edge hbc
    have hnot : c ∉ P.boundarySet := fun hset => hc (by
      rw [hboundaries]
      exact List.mem_filter.mpr ⟨hmem hreach, by simpa using hset⟩)
    have hne : c ≠ entryMBB := fun heq => hentry entryMBB hhead b
      (MachineCFG.mem_blocks_of_mem_rpo (MachineCFG.mem_rpo_iff.mpr hb)) (heq ▸ hbc)
    -- a retreating edge would make its target a boundary
    have hret : c ∉ O.MF.retreatingTargets := fun hret =>
      hnot (haccum.mandatory c (hmem hreach) hne (by simp [MachineCFG.mandatory, hret]))
    have hidx := MachineCFG.idxOf_lt_of_not_retreating hb hbc hret
    refine ⟨hidx, haccum.step b (hmem hb) c (hmem hreach) ?_ hbc hnot⟩
    rw [MachineCFG.topoOrder, List.idxOf_append_of_mem (MachineCFG.mem_rpo_iff.mpr hb),
      List.idxOf_append_of_mem (MachineCFG.mem_rpo_iff.mpr hreach)]
    exact hidx

/-- From a reachable block on through blocks that are no boundaries: the energies stay within the
charge, and the path goes forward. -/
private theorem walk_inside {accum : MachineBasicBlock → ℚ}
    (haccum : ∀ b, O.MF.Reachable b → accum b < O.E_safe ∧ O.energyCosts b ≤ accum b ∧
      ∀ c, O.MF.Edge b c → c ∉ O.partitionRegions.regionBoundaries →
        O.MF.rpo.idxOf b < O.MF.rpo.idxOf c ∧ accum b + O.energyCosts c ≤ accum c)
    {b : MachineBasicBlock} {w : List MachineBasicBlock} (hb : O.MF.Reachable b)
    (hchain : List.IsChain O.MF.Edge (b :: w))
    (hinside : ∀ c ∈ w, c ∉ O.partitionRegions.regionBoundaries) :
    accum b + (w.map O.energyCosts).sum < O.E_safe ∧
      ∀ c ∈ w, O.MF.rpo.idxOf b < O.MF.rpo.idxOf c := by
  induction w generalizing b with
  | nil => exact ⟨by simpa using (haccum b hb).1, by simp⟩
  | cons c w ih =>
    obtain ⟨hbc, hrest⟩ := List.isChain_cons_cons.mp hchain
    obtain ⟨hidx, hstep⟩ := (haccum b hb).2.2 c hbc (hinside c List.mem_cons_self)
    obtain ⟨hsum, hforward⟩ := ih (hb.edge hbc) hrest
      fun d hd => hinside d (List.mem_cons_of_mem c hd)
    refine ⟨?_, fun d hd => ?_⟩
    · calc accum b + ((c :: w).map O.energyCosts).sum
          = accum b + O.energyCosts c + (w.map O.energyCosts).sum := by
            rw [List.map_cons, List.sum_cons, add_assoc]
        _ ≤ accum c + (w.map O.energyCosts).sum := by gcongr
        _ < O.E_safe := hsum
    · rcases List.mem_cons.mp hd with rfl | hd
      · exact hidx
      · exact hidx.trans (hforward d hd)

/-- An infeasible partition has a block that does not fit one charge. -/
theorem exists_le_cost_of_infeasible (h : O.partitionRegions.feasible = false) :
    ∃ b ∈ O.MF.blocks, O.E_safe ≤ O.energyCosts b := by
  rw [partitionRegions] at h
  cases htopo : O.MF.topoOrder with
  | nil => simp [htopo] at h
  | cons entryMBB rest =>
    simp only [htopo] at h
    cases hfold : (entryMBB :: rest).foldlM (O.visitBlock entryMBB) (O.initial entryMBB) with
    | ok P => simp [hfold] at h
    | error d =>
      obtain ⟨hmem, hle⟩ := foldlM_error hfold
      rw [← htopo, MachineCFG.topoOrder, List.mem_append] at hmem
      refine ⟨d, ?_, hle⟩
      rcases hmem with hmem | hmem
      · exact MachineCFG.mem_blocks_of_mem_rpo hmem
      · exact List.mem_of_mem_filter hmem

/-- **Region energy and cycle safety.** If the partition is feasible, every path through one region
costs less than `E_safe` and every reachable cycle contains a boundary; if it is not, some block
alone costs at least `E_safe`. -/
theorem partition_safe (O : RockClimbMachineOptimizer) (hentry : O.MF.EntryHasNoPredecessors) :
    (O.partitionRegions.feasible = true →
      (∀ b w, O.MF.RegionPath O.partitionRegions.regionBoundaries b w →
        ((b :: w).map O.energyCosts).sum < O.E_safe) ∧
      ∀ b w, O.MF.Cycle b w → ∃ c ∈ w, c ∈ O.partitionRegions.regionBoundaries) ∧
    (O.partitionRegions.feasible = false → ∃ b ∈ O.MF.blocks, O.E_safe ≤ O.energyCosts b) := by
  refine ⟨fun h => ?_, exists_le_cost_of_infeasible⟩
  obtain ⟨accum, haccum⟩ := exists_accum h hentry
  refine ⟨fun b w hpath => ?_, fun b w hcycle => ?_⟩
  · have hsum := (walk_inside haccum hpath.reachable hpath.chain hpath.inside).1
    have hcost := (haccum b hpath.reachable).2.1
    calc ((b :: w).map O.energyCosts).sum
        = O.energyCosts b + (w.map O.energyCosts).sum := by rw [List.map_cons, List.sum_cons]
      _ ≤ accum b + (w.map O.energyCosts).sum := by gcongr
      _ < O.E_safe := hsum
  · -- a cycle without a boundary would go forward all the way back to its start
    by_contra hnone
    push Not at hnone
    have hforward := (walk_inside haccum hcycle.reachable hcycle.chain hnone).2
    exact lt_irrefl _ (hforward b (List.mem_of_getLast? hcycle.closed))

/-- The program-entry function of three blocks with an irreducible cycle between the last two: the
block of the cycle that comes first in reverse post-order is the target of a retreating edge. -/
def irreducibleCycle : RockClimbMachineOptimizer where
  MF := {
    name := "main"
    blocks := [0, 1, 2]
    successors := fun b => if b = 0 then [1, 2] else if b = 1 then [2]
      else if b = 2 then [1] else []
    isReturnBlock := fun _ => false
    loopHeaders := []
    nodup := by decide
    successors_mem := by decide }
  energyCosts := fun _ => 3
  E_safe := 10

theorem partition_safe_irreducible :
    irreducibleCycle.partitionRegions.regionBoundaries = [1] ∧
      (∀ b w, irreducibleCycle.MF.RegionPath [1] b w → ((b :: w).map fun _ => (3 : ℚ)).sum < 10) ∧
      ∀ b w, irreducibleCycle.MF.Cycle b w → ∃ c ∈ w, c ∈ [1] := by
  have hboundaries : irreducibleCycle.partitionRegions.regionBoundaries = [1] := by decide +kernel
  have hentry : irreducibleCycle.MF.EntryHasNoPredecessors := by
    intro entry hentry b hb
    obtain rfl : 0 = entry := Option.some.inj hentry
    revert b
    unfold MachineCFG.Edge
    decide
  have hsafe := (partition_safe irreducibleCycle hentry).1 (by decide +kernel)
  rw [hboundaries] at hsafe
  exact ⟨hboundaries, hsafe⟩

end RockClimbMachineOptimizer

end Bao.RockClimb
