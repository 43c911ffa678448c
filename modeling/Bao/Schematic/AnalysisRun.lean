import Bao.Schematic.AllocationRun
import Bao.Schematic.SolverPath

/-!
# Every analysis is a run

The functions of the analysis, one by one, as quiet changes or as runs of allocation actions; at the
end `solveFunction_reaches`, for every function on which the analysis succeeds.
-/

namespace Bao.Schematic

open RegionAllocation SchematicSolution

/-! ### Quiet functions -/

section Quiet

variable {s : SchematicSolution} {graph : SchematicGraph} {ctx : Context}

theorem quiet_setMeta (b : Block) (m : BlockMetadata) : Quiet s (s.setMeta b m) :=
  ⟨⟨rfl, rfl, rfl, rfl, rfl⟩, rfl⟩

theorem quiet_setCheckpointState (edge : CFGEdge) (state : CheckpointState) :
    Quiet s (s.setCheckpointState graph edge state) := ⟨⟨rfl, rfl, rfl, rfl, rfl⟩, rfl⟩

theorem quiet_propagateEnergyToLeave (seed : SeedEdge) (e : ℚ) (loopScope : Option Loop) :
    Quiet s (s.propagateEnergyToLeave graph ctx seed e loopScope) := by
  refine Quiet.foldl (fun s p _ => ?_) s
  cases p.1.1 with
  | none => exact .refl s
  | some b =>
    simp only [raiseEToLeave]
    split_ifs
    · exact quiet_setMeta b _
    · exact .refl s

theorem quiet_propagateEnergyLeft (seed : SeedEdge) (e : WithTop ℚ) (loopScope : Option Loop) :
    Quiet s (s.propagateEnergyLeft graph ctx seed e loopScope) := by
  refine Quiet.foldl (fun s p _ => ?_) s
  cases p.1.2 with
  | none => exact .refl s
  | some b =>
    simp only [lowerELeft]
    split_ifs
    · exact quiet_setMeta b _
    · exact .refl s

variable (s graph) in
theorem quiet_updateCheckpointType (trace : List Block) (selected : List CFGEdge) :
    Quiet s (s.updateCheckpointType graph trace selected) := by
  refine Quiet.foldl (fun s p _ => ?_) s
  simp only
  split_ifs
  · exact quiet_setCheckpointState _ _
  · exact quiet_setCheckpointState _ _

variable (graph ctx) in
theorem quiet_seedForward (before : Option Block) (after : Block) (isVirtual : Bool)
    (loopScope : Option Loop) :
    Quiet s (s.seedForward graph ctx before after isVirtual loopScope) :=
  quiet_propagateEnergyLeft _ _ _

theorem quiet_seedBackward (before : Block) (after : Option Block) (loopScope : Option Loop) :
    Quiet s (s.seedBackward graph ctx before after loopScope) :=
  quiet_propagateEnergyToLeave _ _ _

variable (graph ctx) in
theorem quiet_seedCheckpoints (checkpoints : List CFGEdge) (loopScope : Option Loop) :
    Quiet s (checkpoints.foldl (fun s c =>
      (s.seedForward graph ctx (some c.src) c.dst false loopScope).seedBackward graph ctx c.src
        (some c.dst) loopScope) s) :=
  Quiet.foldl (fun _ _ _ =>
    (quiet_seedForward _ _ _ _ _ _).trans (quiet_seedBackward _ _ _)) s

theorem quiet_propagateOverEdge (edge : CFGEdge) (loopScope : Option Loop) :
    Quiet s (s.propagateOverEdge graph ctx edge loopScope) :=
  (quiet_propagateEnergyLeft _ _ _).trans (quiet_propagateEnergyToLeave _ _ _)

theorem quiet_resolvePotentialEdge (loopScope : Option Loop) (e : BasicBlock × BasicBlock) :
    Quiet s (s.resolvePotentialEdge graph ctx loopScope e) := by
  rw [resolvePotentialEdge]
  split
  · exact .refl s
  · split_ifs
    · exact quiet_setCheckpointState _ _
    · exact (quiet_setCheckpointState _ _).trans (quiet_propagateOverEdge _ _)
    · exact quiet_setCheckpointState _ _

theorem quiet_removePotentialCheckpointsBetweenFixedBBs (loopScope : Option Loop) :
    Quiet s (s.removePotentialCheckpointsBetweenFixedBBs graph ctx loopScope) :=
  Quiet.foldl (fun _ e _ => quiet_resolvePotentialEdge loopScope e) s

theorem quiet_refreshRound (loopScope : Option Loop) :
    Quiet s (s.refreshRound graph ctx loopScope) := by
  refine Quiet.foldl (fun s e _ => ?_) s
  split
  · exact .refl s
  · split_ifs
    · exact quiet_propagateOverEdge _ _
    · exact .refl s

theorem quiet_refreshRounds (loopScope : Option Loop) (n : ℕ) (s : SchematicSolution) :
    Quiet s (refreshRounds graph ctx loopScope n s) := by
  induction n generalizing s with
  | zero => exact .refl s
  | succ n ih =>
    simp only [refreshRounds]
    split_ifs
    · exact (quiet_refreshRound loopScope).trans (ih _)
    · exact quiet_refreshRound loopScope

theorem quiet_refreshDisabledCheckpointEnergy (loopScope : Option Loop) :
    Quiet s (s.refreshDisabledCheckpointEnergy graph ctx loopScope) :=
  quiet_refreshRounds loopScope _ s

end Quiet

/-! ### The regions of an RCG result -/

section Regions

variable (s : SchematicSolution)

private theorem length_extendEnd (b : Block) (noSeparation : Bool) (n : ℕ)
    (allocations : List RegionAllocation) :
    (s.extendEnd b noSeparation n allocations).2.length = allocations.length := by
  rw [extendEnd]
  split
  · split_ifs
    · exact List.length_set
    · rfl
  · rfl

theorem length_extendBoundaries (trace : List Block) (checkpoints : List CFGEdge)
    (allocations : List RegionAllocation) :
    (s.extendBoundaries trace checkpoints allocations).2.length = allocations.length := by
  rw [extendBoundaries]
  dsimp only
  split_ifs
  · rfl
  · rw [length_extendEnd, length_extendEnd]
  · rw [length_extendEnd, length_extendEnd]

@[simp]
theorem extendEnd_regions (b : Block) (noSeparation : Bool) (n : ℕ)
    (allocations : List RegionAllocation) :
    (s.extendEnd b noSeparation n allocations).1.regions = s.regions := by
  rw [extendEnd]
  split
  · split_ifs
    · exact extendBlock_regions s b _
    · rfl
  · rfl

@[simp]
theorem unifyEnds_regions (front back : Block) (alloc : RegionAllocation) :
    (s.unifyEnds front back alloc).regions = s.regions := by
  have hextend : ((s.extendBlock front alloc).extendBlock back alloc).regions = s.regions := by simp
  simp only [unifyEnds]
  split
  · split_ifs
    · exact hextend
    · exact hextend
  · exact hextend

@[simp]
theorem extendBoundaries_regions (trace : List Block) (checkpoints : List CFGEdge)
    (allocations : List RegionAllocation) :
    (s.extendBoundaries trace checkpoints allocations).1.regions = s.regions := by
  rw [extendBoundaries]
  dsimp only
  split_ifs <;> simp

@[simp]
theorem fixBlock_regions (b : Block) (r : AllocRef) (vars : ValueMap VariableAllocation) :
    (s.fixBlock b r vars).regions = s.regions := by
  simp only [fixBlock]
  split
  · exact extendBlock_regions _ _ _
  · rfl

/-- Each interval is recorded as a region. -/
theorem regions_recordAllocations (rest : List Block) (checkpoints : List CFGEdge)
    (allocations : List (RegionAllocation × List Block)) (memoryAlloc : Option AllocRef) :
    (s.recordAllocations rest checkpoints allocations memoryAlloc).regions =
      s.regions ++ allocations.map fun p => ⟨p.2, p.1⟩ := by
  induction allocations generalizing s rest checkpoints memoryAlloc with
  | nil =>
    rw [List.map_nil, List.append_nil]
    simp only [recordAllocations]
    split
    · exact fixBlock_regions s _ _ _
    · rfl
  | cons p allocations ih =>
    have hfix : ∀ (blocks : List Block) (t : SchematicSolution) (r : AllocRef)
        (vars : ValueMap VariableAllocation),
        (blocks.foldl (fun s b => s.fixBlock b r vars) t).regions = t.regions := by
      intro blocks
      induction blocks with
      | nil => exact fun _ _ _ => rfl
      | cons b blocks ih =>
        exact fun t r vars => (ih (t.fixBlock b r vars) r vars).trans (fixBlock_regions t b r vars)
    obtain ⟨alloc, blocks⟩ := p
    rw [recordAllocations, ih, List.map_cons]
    dsimp only
    rw [hfix, List.append_assoc]
    rfl

/-- **The regions of a result** are its intervals. -/
theorem regions_applyMemoryAllocation (graph : SchematicGraph) (ctx : Context)
    {result : RCGSolver.RCGResult}
    (hblocks : result.intervalBlocks.length = result.allocations.length) (trace : List Block)
    (loopScope : Option Loop) :
    (s.applyMemoryAllocation graph ctx result trace loopScope).regions.map RegionSolution.blocks =
      s.regions.map RegionSolution.blocks ++ result.intervalBlocks := by
  have hupdate := quiet_updateCheckpointType s graph trace result.selectedCheckpoints
  rw [applyMemoryAllocation]
  generalize s.updateCheckpointType graph trace result.selectedCheckpoints = t at *
  have hlength : result.intervalBlocks.length ≤ (t.extendBoundaries trace
      result.selectedCheckpoints result.allocations).2.length := by
    rw [length_extendBoundaries, hblocks]
  rw [(quiet_seedBackward _ _ _).regions, (quiet_seedCheckpoints _ _ _ _).regions,
    (quiet_seedForward _ _ _ _ _ _).regions, regions_recordAllocations, extendBoundaries_regions,
    hupdate.regions, List.map_append, List.map_map]
  exact congrArg _ (List.map_snd_zip hlength)

end Regions

/-! ### Applying an RCG result -/

section Apply

variable {ctx : Context} {s : SchematicSolution}

theorem reaches_setPlacements (b : Block) (p : ValueMap Placement) :
    Reaches ctx s (s.setPlacements b p) :=
  Reaches.of_action (a := .place b p) trivial

theorem reaches_extendBlock (b : Block) {source : RegionAllocation} (h : source.SavesAll) :
    Reaches ctx s (s.extendBlock b source) :=
  Reaches.of_action (a := .extend b source) h

/-- The interval allocations with one of them replaced by an object. -/
private theorem savesAll_set {l : List RegionAllocation} {a : RegionAllocation} {n : ℕ}
    (hl : ∀ x ∈ l, x.SavesAll) (ha : a.SavesAll) : ∀ x ∈ l.set n a, x.SavesAll := by
  intro x hx
  rcases List.mem_or_eq_of_mem_set hx with hx | rfl
  · exact hl x hx
  · exact ha

private theorem savesAll_getD {l : List RegionAllocation} (hl : ∀ x ∈ l, x.SavesAll) (n : ℕ) :
    (l.getD n {}).SavesAll := by
  rw [List.getD_eq_getElem?_getD]
  cases h : l[n]? with
  | none => exact savesAll_empty
  | some a => exact hl a (List.mem_of_getElem? h)

private theorem savesAll_headD {l : List RegionAllocation} (hl : ∀ x ∈ l, x.SavesAll) :
    (l.headD {}).SavesAll := by
  cases l with
  | nil => exact savesAll_empty
  | cons a l => exact hl a List.mem_cons_self

variable (ctx) in
/-- The extension at one end of a trace. -/
theorem reaches_extendEnd {allocations : List RegionAllocation} (hs : WellAllocated s)
    (hl : ∀ a ∈ allocations, a.SavesAll) (b : Block) (noSeparation : Bool) (n : ℕ) :
    Reaches ctx s (s.extendEnd b noSeparation n allocations).1 ∧
      ∀ a ∈ (s.extendEnd b noSeparation n allocations).2, a.SavesAll := by
  rw [extendEnd]
  split
  · split_ifs
    · have hr : Reaches ctx s (s.extendBlock b (allocations.getD n {})) :=
        reaches_extendBlock b (savesAll_getD hl n)
      exact ⟨hr, savesAll_set hl ((hr.wellAllocated hs).savesAll _)⟩
    · exact ⟨.refl s, hl⟩
  · exact ⟨.refl s, hl⟩

theorem reaches_unifyEnds (hs : WellAllocated s) (front back : Block) {alloc : RegionAllocation}
    (ha : alloc.SavesAll) : Reaches ctx s (s.unifyEnds front back alloc) := by
  have hr : Reaches ctx s ((s.extendBlock front alloc).extendBlock back alloc) :=
    (reaches_extendBlock front ha).trans (reaches_extendBlock back ha)
  simp only [unifyEnds]
  split
  next old new _ hnew =>
    split_ifs
    · exact hr
    · exact hr.trans (Reaches.of_action (a := .redirect old new)
        ((hr.wellAllocated hs).lt_nextRef back new hnew))
  next => exact hr

variable (ctx) in
theorem reaches_extendBoundaries {allocations : List RegionAllocation} (hs : WellAllocated s)
    (hl : ∀ a ∈ allocations, a.SavesAll) (trace : List Block) (selected : List CFGEdge) :
    Reaches ctx s (s.extendBoundaries trace selected allocations).1 ∧
      ∀ a ∈ (s.extendBoundaries trace selected allocations).2, a.SavesAll := by
  simp only [extendBoundaries]
  split_ifs
  · exact ⟨.refl s, hl⟩
  all_goals
    have hp := reaches_extendEnd ctx hs hl (trace.headD .startFunc)
      (selected.head?.all fun (c : CFGEdge) => decide (c.src ≠ trace.headD .startFunc)) 0
    have hq := fun n => reaches_extendEnd ctx (hp.1.wellAllocated hs) hp.2
      (trace.getLastD .endFunc)
      (selected.getLast?.all fun (c : CFGEdge) => decide (c.dst ≠ trace.getLastD .endFunc)) n
  · exact ⟨hp.1.trans ((hq _).1.trans (reaches_unifyEnds
      ((hq _).1.wellAllocated (hp.1.wellAllocated hs)) _ _ (savesAll_headD (hq _).2))), (hq _).2⟩
  · exact ⟨hp.1.trans (hq _).1, (hq _).2⟩

/-- A block with new energies and placements whose object is extended by another object. -/
theorem reaches_placed_extend (hs : WellAllocated s) (b : Block) (m : BlockMetadata)
    (p : ValueMap Placement) (r : AllocRef) :
    Reaches ctx s (((s.setMeta b m).setPlacements b p).extendBlock b (s.heap r)) :=
  ((Reaches.of_quiet (quiet_setMeta b m)).trans (reaches_setPlacements b p)).trans
    (reaches_extendBlock b (hs.savesAll r))

/-- A block with new energies and placements that gets an object. -/
theorem reaches_placed_point (b : Block) (m : BlockMetadata) (p : ValueMap Placement)
    {r : AllocRef} (hr : r < s.nextRef) :
    Reaches ctx s (((s.setMeta b m).setPlacements b p).setBlockAllocation b (some r)) :=
  ((Reaches.of_quiet (quiet_setMeta b m)).trans (reaches_setPlacements b p)).trans
    (Reaches.of_action (a := .point b (some r)) (fun _ hr' => Option.mem_some_iff.mp hr' ▸ hr))

/-- Fixing a block extends its object, or points it to the object of the interval. -/
theorem reaches_fixBlock (hs : WellAllocated s) (b : Block) {r : AllocRef} (hr : r < s.nextRef)
    (vars : ValueMap VariableAllocation) : Reaches ctx s (s.fixBlock b r vars) := by
  simp only [fixBlock]
  split
  · exact reaches_placed_extend hs b _ _ r
  · exact reaches_placed_point b _ _ hr

@[simp]
theorem fixBlock_nextRef (s : SchematicSolution) (b : Block) (r : AllocRef)
    (vars : ValueMap VariableAllocation) : (s.fixBlock b r vars).nextRef = s.nextRef := by
  simp only [fixBlock]
  split
  · exact extendBlock_nextRef _ _ _
  · rfl

variable (ctx) in
/-- Fixing the blocks of an interval. -/
theorem reaches_foldl_fixBlock {r : AllocRef} (vars : ValueMap VariableAllocation)
    (blocks : List Block) {s : SchematicSolution} (hs : WellAllocated s) (hr : r < s.nextRef) :
    Reaches ctx s (blocks.foldl (fun s b => s.fixBlock b r vars) s) ∧
      (blocks.foldl (fun s b => s.fixBlock b r vars) s).nextRef = s.nextRef := by
  induction blocks generalizing s with
  | nil => exact ⟨.refl s, rfl⟩
  | cons b blocks ih =>
    have hb : Reaches ctx s (s.fixBlock b r vars) := reaches_fixBlock hs b hr vars
    have hrest := ih (hb.wellAllocated hs) (by rwa [fixBlock_nextRef])
    exact ⟨hb.trans hrest.1, hrest.2.trans (fixBlock_nextRef s b r vars)⟩

theorem reaches_recordAllocations {allocations : List (RegionAllocation × List Block)}
    (hl : ∀ p ∈ allocations, p.1.SavesAll) {s : SchematicSolution} (hs : WellAllocated s)
    (rest : List Block) (checkpoints : List CFGEdge) {memoryAlloc : Option AllocRef}
    (hm : ∀ r ∈ memoryAlloc, r < s.nextRef) :
    Reaches ctx s (recordAllocations s rest checkpoints allocations memoryAlloc) := by
  induction allocations generalizing s rest checkpoints memoryAlloc with
  | nil =>
    cases memoryAlloc with
    | none => exact .refl s
    | some r =>
      cases rest with
      | nil => exact .refl s
      | cons b rest => exact reaches_fixBlock hs b (hm r rfl) _
  | cons p allocations ih =>
    obtain ⟨alloc, blocks⟩ := p
    rw [recordAllocations]
    have hshare : Reaches ctx s (s.makeShared alloc) :=
      Reaches.of_action (a := .share alloc) (hl _ List.mem_cons_self)
    obtain ⟨hfix, hnext⟩ := reaches_foldl_fixBlock ctx (r := s.nextRef) alloc.vars
      (splitAtCheckpoint checkpoints.head? rest).1 (hshare.wellAllocated hs) (Nat.lt_succ_self _)
    -- the list of regions is quiet
    have hquiet : ∀ (t : SchematicSolution) (R : List RegionSolution),
        SameAllocations t { t with regions := R } := fun _ _ => ⟨rfl, rfl, rfl, rfl, rfl⟩
    have hreach := fun R => hshare.trans (hfix.then_same (hquiet _ R))
    refine (hreach _).trans (ih (fun q hq => hl q (List.mem_cons_of_mem _ hq))
      ((hreach _).wellAllocated hs) _ _ fun r hr => ?_)
    rw [← Option.mem_some_iff.mp hr]
    exact lt_of_lt_of_eq (Nat.lt_succ_self _) hnext.symm

theorem reaches_applyMemoryAllocation {graph : SchematicGraph} {result : RCGSolver.RCGResult}
    (hs : WellAllocated s) (hl : ∀ a ∈ result.allocations, a.SavesAll) (trace : List Block)
    (loopScope : Option Loop) :
    Reaches ctx s (s.applyMemoryAllocation graph ctx result trace loopScope) := by
  have hu := quiet_updateCheckpointType s graph trace result.selectedCheckpoints
  obtain ⟨hext, hsaves⟩ := reaches_extendBoundaries ctx (hs.of_same hu.toSameAllocations) hl trace
    result.selectedCheckpoints
  have hbound := (Reaches.of_quiet hu).trans hext
  have hrec := hbound.trans (reaches_recordAllocations
    (fun p (hp : p ∈ List.zip _ result.intervalBlocks) => hsaves p.1 (List.of_mem_zip hp).1)
    (hbound.wellAllocated hs) trace result.selectedCheckpoints (fun r (hr : r ∈ none) => by
      simp at hr))
  have hfwd := hrec.then_quiet (quiet_seedForward graph ctx none
    (trace.headD .startFunc) true loopScope)
  have hcheckpoints := hfwd.then_quiet (quiet_seedCheckpoints graph ctx
    result.selectedCheckpoints loopScope)
  exact hcheckpoints.then_quiet (quiet_seedBackward (trace.getLastD .endFunc) none loopScope)

end Apply

/-! ### Solving a trace -/

section Solve

variable {ctx : Context}

/-- The interval allocations all mark their variables for saving. -/
private theorem savesAll_computeCost {s : SchematicSolution} (hs : WellAllocated s)
    (blocks : List Block) {startAlloc endAlloc : Option RegionAllocation}
    (hstart : ∀ a ∈ startAlloc, a.SavesAll) (hend : ∀ a ∈ endAlloc, a.SavesAll)
    (tracker : VMAddressTracker) :
    (computeCost s ctx blocks startAlloc endAlloc tracker).1.1.SavesAll := by
  rw [computeCost]
  split_ifs
  · exact savesAll_empty
  · refine savesAll_chooseMemoryAllocationOf (savesAccesses_variableAccesses _) hstart hend
      fun a ha => ?_
    obtain ⟨b, -, hb⟩ := List.mem_filterMap.mp ha
    exact hs.allocationOf hb

open RCGSolver RCGSolver.Problem

private theorem arcsSave_createReachableCheckpointGraph {P : Problem}
    (hP : WellAllocated P.solution) (tracker : VMAddressTracker) :
    ∀ e ∈ (P.createReachableCheckpointGraph tracker).1, e.allocation.SavesAll := by
  refine createReachableCheckpointGraph_invariant
    (J := fun b : Building => ∀ e ∈ b.1, e.allocation.SavesAll) (by simp) ?_
  intro I b _ hb e he
  rcases Interval.mem_record he with he | rfl
  · exact hb e he
  · exact savesAll_computeCost hP _ (fun a ha => hP.allocationOf (Interval.startAlloc_eq a ha))
      (fun a ha => hP.allocationOf (Interval.endAlloc_eq a ha)) b.2

/-- The allocations of a solved trace mark all their variables for saving. -/
theorem savesAll_solve {P : Problem} {tracker tracker' : VMAddressTracker} {result : RCGResult}
    (hP : WellAllocated P.solution) (h : solve P tracker = (some result, tracker')) :
    ∀ a ∈ result.allocations, a.SavesAll := by
  intro a ha
  obtain ⟨e, he, rfl⟩ := (solve_spec h).2 result rfl a ha
  exact arcsSave_createReachableCheckpointGraph hP tracker e he

end Solve

end Bao.Schematic
