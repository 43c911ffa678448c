import Bao.Schematic.AnalysisInvariant
import Mathlib.Data.List.Dedup

/-!
# Loops and functions as runs

The second half of the connection between the analysis and its runs. The decision of a loop is where
the two origins of a body allocation show: without convergence it holds the header's placements,
with convergence it is chosen from the objects of the body, and each of these objects is extended by
it.

`solveFunction_reaches` is the result: whatever `solveFunction` returns was reached by a run.
-/

namespace Bao.Schematic

open RegionAllocation SchematicSolution

/-! ### Resetting the body of a loop -/

/-- **What a reset does**: the objects of the blocks done so far are extended by the body
allocation, blocks without an object point to a new one, and the placements of the body allocation
win. -/
structure Reset (s : SchematicSolution) (body : RegionAllocation) (blocks : List BasicBlock)
    (t : SchematicSolution) : Prop where
  ne_nextRef : ∀ {b : Block} {r : AllocRef}, s.blockAllocation b = some r → r ≠ s.nextRef
  nextRef : t.nextRef = s.nextRef + 1
  shared : ∀ v, (t.heap s.nextRef).vars.lookup v = body.vars.lookup v
  kept : ∀ b r, s.blockAllocation b = some r → t.blockAllocation b = some r
  fresh : ∀ b r, t.blockAllocation b = some r → s.blockAllocation b = some r ∨ r = s.nextRef
  extended : ∀ bb ∈ blocks, ∀ r, s.blockAllocation (.real bb) = some r → ∀ v,
    (t.heap r).vars.lookup v = ((s.heap r).vars.lookup v).or (body.vars.lookup v)
  within : ∀ r, r ≠ s.nextRef → ∀ v, (t.heap r).vars.lookup v = (s.heap r).vars.lookup v ∨
    (t.heap r).vars.lookup v = ((s.heap r).vars.lookup v).or (body.vars.lookup v)
  placements : ∀ bb ∈ blocks, ∀ v, (t.decidedPlacements (.real bb)).lookup v =
    ((body.vars.lookup v).map VariableAllocation.placement).or
      ((s.decidedPlacements (.real bb)).lookup v)
  untouched : ∀ bb, bb ∉ blocks → t.decidedPlacements (.real bb) = s.decidedPlacements (.real bb)

namespace Reset

variable {s t t' : SchematicSolution} {body : RegionAllocation} {blocks : List BasicBlock}

theorem init (hs : WellAllocated s) (body : RegionAllocation) :
    Reset s body [] (s.makeShared body) where
  ne_nextRef hr := ne_of_lt (hs.lt_nextRef _ _ hr)
  nextRef := rfl
  shared v := by simp [makeShared, setObject]
  kept _ _ h := h
  fresh _ _ h := Or.inl h
  extended _ h := by simp at h
  within r hr v := Or.inl (by simp [makeShared, setObject, hr])
  placements _ h := by simp at h
  untouched _ _ := rfl

/-- Quiet changes keep what a reset did. -/
theorem of_same (h : Reset s body blocks t) (hq : SameAllocations t t') :
    Reset s body blocks t' := by
  obtain ⟨h₀, h₁, h₂, h₃, h₄, h₅, h₆, h₇, h₈⟩ := h
  rw [← hq.nextRef] at h₁
  rw [← hq.heap] at h₂ h₅ h₆
  rw [← hq.blockAllocation] at h₃ h₄
  rw [← hq.decidedPlacements] at h₇ h₈
  exact ⟨h₀, h₁, h₂, h₃, h₄, h₅, h₆, h₇, h₈⟩

private theorem or_or_self {α : Type} (a b : Option α) : (a.or b).or b = a.or b := by
  cases a <;> simp

/-- The placements of a block that is reset. -/
private theorem placements_step (h : Reset s body blocks t) (bb : BasicBlock) (v : Value) :
    (body.vars.walk.foldl (fun p e => p.insert e.1 e.2.placement)
      (t.decidedPlacements (.real bb))).lookup v =
      ((body.vars.lookup v).map VariableAllocation.placement).or
        ((s.decidedPlacements (.real bb)).lookup v) := by
  rw [ValueMap.lookup_foldl_insert VariableAllocation.placement body.vars]
  by_cases hbb : bb ∈ blocks
  · rw [h.placements bb hbb v]
    cases body.vars.lookup v <;> simp
  · rw [h.untouched bb hbb]

/-- The placements after one more block. -/
private theorem place (h : Reset s body blocks t) (bb : BasicBlock) (m : BlockMetadata)
    {p : ValueMap Placement} (hp : p = body.vars.walk.foldl
      (fun p e => p.insert e.1 e.2.placement) (t.decidedPlacements (.real bb))) :
    (∀ bb' ∈ blocks ++ [bb], ∀ v,
      (((t.setMeta (.real bb) m).setPlacements (.real bb) p).decidedPlacements
        (.real bb')).lookup v =
        ((body.vars.lookup v).map VariableAllocation.placement).or
          ((s.decidedPlacements (.real bb')).lookup v)) ∧
      ∀ bb', bb' ∉ blocks ++ [bb] →
        ((t.setMeta (.real bb) m).setPlacements (.real bb) p).decidedPlacements (.real bb') =
          s.decidedPlacements (.real bb') := by
  refine ⟨fun bb' hbb' v => ?_, fun bb' hbb' => ?_⟩
  · by_cases heq : bb' = bb
    · subst heq
      simp only [setPlacements, Function.update_self, hp]
      exact placements_step h bb' v
    · have hmem : bb' ∈ blocks := by simpa [heq] using hbb'
      have hne : Block.real bb' ≠ Block.real bb := fun h => heq (Block.real.inj h)
      simp only [setPlacements, Function.update_of_ne hne]
      exact h.placements bb' hmem v
  · obtain ⟨hmem, heq⟩ : bb' ∉ blocks ∧ bb' ≠ bb := by simpa using hbb'
    have hne : Block.real bb' ≠ Block.real bb := fun h => heq (Block.real.inj h)
    simp only [setPlacements, Function.update_of_ne hne]
    exact h.untouched bb' hmem

/-- The object of one more block is extended by the body allocation. -/
private theorem lookup_extendBlock (h : Reset s body blocks t) {bb : BasicBlock} {r : AllocRef}
    (ht : t'.blockAllocation (.real bb) = some r) (hheap : t'.heap = t.heap) (r' : AllocRef)
    (v : Value) :
    ((t'.extendBlock (.real bb) (t'.heap s.nextRef)).heap r').vars.lookup v =
      if r' = r then ((t.heap r').vars.lookup v).or (body.vars.lookup v)
      else (t.heap r').vars.lookup v := by
  rw [heap_extendBlock, ht, hheap]
  by_cases hr : r' = r
  · subst hr
    rw [if_pos rfl, if_pos rfl, lookup_extendsAllocation, h.shared]
  · rw [if_neg (fun heq => hr (Option.some.inj heq).symm), if_neg hr]

/-- A block that has an object. -/
private theorem step_some (h : Reset s body blocks t) {bb : BasicBlock} {r : AllocRef}
    (hr : t.blockAllocation (.real bb) = some r) (m : BlockMetadata) {p : ValueMap Placement}
    (hp : p = body.vars.walk.foldl (fun p e => p.insert e.1 e.2.placement)
      (t.decidedPlacements (.real bb))) :
    Reset s body (blocks ++ [bb])
      (((t.setMeta (.real bb) m).setPlacements (.real bb) p).extendBlock (.real bb)
        (((t.setMeta (.real bb) m).setPlacements (.real bb) p).heap s.nextRef)) := by
  have hlookup := fun r' v => h.lookup_extendBlock
    (show ((t.setMeta (.real bb) m).setPlacements (.real bb) p).blockAllocation (.real bb) = some r
      from hr) rfl r' v
  obtain ⟨hplaced, huntouched⟩ := h.place bb m hp
  refine ⟨h.ne_nextRef, (extendBlock_nextRef _ _ _).trans h.nextRef, fun v => ?_,
    fun b r' hr' => ?_,
    fun b r' hr' => ?_, fun bb' hbb' r' hr' v => ?_, fun r' hr' v => ?_, ?_, ?_⟩
  · rw [hlookup, h.shared]
    split_ifs
    · cases body.vars.lookup v <;> simp
    · rfl
  · rw [extendBlock_blockAllocation]
    exact h.kept b r' hr'
  · rw [extendBlock_blockAllocation] at hr'
    exact h.fresh b r' hr'
  · rw [hlookup]
    split_ifs with heq
    · rcases h.within r' (h.ne_nextRef hr') v with hv | hv
      · rw [hv]
      · rw [hv, or_or_self]
    · -- another object: the block was done before
      refine h.extended bb' ?_ r' hr' v
      rcases List.mem_append.mp hbb' with hbb' | hbb'
      · exact hbb'
      · rw [List.mem_singleton.mp hbb'] at hr'
        exact absurd (Option.some.inj ((h.kept _ _ hr').symm.trans hr)) heq
  · rw [hlookup]
    split_ifs
    · rcases h.within r' hr' v with hv | hv
      · exact Or.inr (by rw [hv])
      · exact Or.inr (by rw [hv, or_or_self])
    · exact h.within r' hr' v
  · rw [extendBlock_decidedPlacements]
    exact hplaced
  · rw [extendBlock_decidedPlacements]
    exact huntouched

/-- A block without an object gets the shared one. -/
private theorem step_none (h : Reset s body blocks t) {bb : BasicBlock}
    (hnone : t.blockAllocation (.real bb) = none) (m : BlockMetadata) {p : ValueMap Placement}
    (hp : p = body.vars.walk.foldl (fun p e => p.insert e.1 e.2.placement)
      (t.decidedPlacements (.real bb))) :
    Reset s body (blocks ++ [bb])
      (((t.setMeta (.real bb) m).setPlacements (.real bb) p).setBlockAllocation (.real bb)
        (some s.nextRef)) := by
  -- the block had no object at the start of the reset either
  have hs : s.blockAllocation (.real bb) = none := by
    cases hr : s.blockAllocation (.real bb) with
    | none => rfl
    | some r => simp [h.kept _ _ hr] at hnone
  obtain ⟨hplaced, huntouched⟩ := h.place bb m hp
  refine ⟨h.ne_nextRef, h.nextRef, h.shared, fun b r' hr' => ?_,
    fun b r' hr' => ?_, fun bb' hbb' r' hr' v => ?_,
    h.within, hplaced, huntouched⟩
  · have hne : b ≠ Block.real bb := by
      rintro rfl
      simp [hs] at hr'
    simpa [setBlockAllocation, setPlacements, setMeta, hne] using h.kept b r' hr'
  · by_cases hb : b = Block.real bb
    · subst hb
      exact Or.inr (by simpa [setBlockAllocation] using hr'.symm)
    · exact h.fresh b r' (by
        simpa [setBlockAllocation, setPlacements, setMeta, hb] using hr')
  · refine h.extended bb' ?_ r' hr' v
    rcases List.mem_append.mp hbb' with hbb' | hbb'
    · exact hbb'
    · rw [List.mem_singleton.mp hbb', hs] at hr'
      cases hr'

theorem step (h : Reset s body blocks t) (bb : BasicBlock) :
    Reset s body (blocks ++ [bb]) (t.resetBlock (.real bb) s.nextRef body) := by
  simp only [resetBlock]
  split
  next r hr => exact h.step_some hr _ rfl
  next hr => exact h.step_none hr _ rfl

theorem foldl (h : Reset s body blocks t) (rest : List BasicBlock) :
    Reset s body (blocks ++ rest)
      (rest.foldl (fun t bb => t.resetBlock (.real bb) s.nextRef body) t) := by
  induction rest generalizing blocks t with
  | nil => simpa using h
  | cons bb rest ih => simpa using ih (h.step bb)

theorem resetLoopBody (hs : WellAllocated s) (L : Loop) (body : RegionAllocation) :
    Reset s body L.blocks (s.resetLoopBody L body) := by
  obtain ⟨h₀, h₁, h₂, h₃, h₄, h₅, h₆, h₇, h₈⟩ := (Reset.init hs body).foldl L.blocks.dedup
  simp only [List.nil_append, List.mem_dedup] at h₅ h₇ h₈
  exact ⟨h₀, h₁, h₂, h₃, h₄, h₅, h₆, h₇, h₈⟩

/-- Placements of synthetic blocks do not matter. -/
theorem setPlacements_synthetic (h : Reset s body blocks t) {b : Block}
    (hb : b.getLLVMBlock = none) (p : ValueMap Placement) :
    Reset s body blocks (t.setPlacements b p) := by
  have hplaced : ∀ bb, (t.setPlacements b p).decidedPlacements (.real bb) =
      t.decidedPlacements (.real bb) := by
    intro bb
    refine Function.update_of_ne ?_ _ _
    rintro rfl
    simp [Block.getLLVMBlock] at hb
  refine ⟨h.ne_nextRef, h.nextRef, h.shared, h.kept, h.fresh, h.extended, h.within,
    fun bb hbb v => ?_, fun bb hbb => ?_⟩
  · rw [hplaced]
    exact h.placements bb hbb v
  · rw [hplaced]
    exact h.untouched bb hbb

end Reset

/-! ### The energies of a body -/

section Body

variable {ctx : Context} {s : SchematicSolution} {graph : SchematicGraph}

theorem reaches_resetBlock (hs : WellAllocated s) (b : Block) {r : AllocRef} (hr : r < s.nextRef)
    (body : RegionAllocation) : Reaches ctx s (s.resetBlock b r body) := by
  simp only [resetBlock]
  split
  · exact reaches_placed_extend hs b _ _ r
  · exact reaches_placed_point b _ _ hr

theorem resetBlock_nextRef (s : SchematicSolution) (b : Block) (r : AllocRef)
    (body : RegionAllocation) : (s.resetBlock b r body).nextRef = s.nextRef := by
  simp only [resetBlock]
  split
  · exact extendBlock_nextRef _ _ _
  · rfl

theorem reaches_foldl_resetBlock {r : AllocRef} (body : RegionAllocation) (blocks : List BasicBlock)
    {s : SchematicSolution} (hs : WellAllocated s) (hr : r < s.nextRef) :
    Reaches ctx s (blocks.foldl (fun s bb => s.resetBlock (.real bb) r body) s) := by
  induction blocks generalizing s with
  | nil => exact .refl s
  | cons bb blocks ih =>
    have hbb : Reaches ctx s (s.resetBlock (.real bb) r body) :=
      reaches_resetBlock hs (.real bb) hr body
    exact hbb.trans (ih (hbb.wellAllocated hs) (by rwa [resetBlock_nextRef]))

theorem reaches_resetLoopBody (hs : WellAllocated s) (L : Loop) {body : RegionAllocation}
    (hb : body.SavesAll) : Reaches ctx s (s.resetLoopBody L body) := by
  have hshare : Reaches ctx s (s.makeShared body) := Reaches.of_action (a := .share body) hb
  exact hshare.trans (reaches_foldl_resetBlock body _ (hshare.wellAllocated hs)
    (Nat.lt_succ_self _))

variable (s ctx graph) in
/-- **What a recomputation does to the allocations**: the blocks of the body are reset, and the
synthetic boundaries take the placements of the header. Everything else is quiet. -/
theorem recompute_spec (L : Loop) (body : RegionAllocation) :
    ∃ s₁, Quiet (s.resetLoopBody L body) s₁ ∧
      Quiet ((s₁.setPlacements (.startLoop L.header) (s₁.decidedPlacements
        (.real L.header))).setPlacements
          (.endLoop L.header) (s₁.decidedPlacements (.real L.header)))
        ((s.recomputeLoopBodyEnergyOnCFG graph ctx L body
          (createLoopBoundaryBlocks L)).refreshDisabledCheckpointEnergy graph ctx (some L)) :=
  ⟨_, (quiet_propagateEnergyLeft _ _ _).trans ((quiet_propagateEnergyToLeave _ _ _).trans
    ((quiet_setMeta _ _).trans (quiet_setMeta _ _))), quiet_refreshDisabledCheckpointEnergy
      (some L)⟩

variable (ctx graph) in
/-- The energies of a body that is reset. -/
theorem reset_recompute (hs : WellAllocated s) (L : Loop) {body : RegionAllocation}
    (hb : body.SavesAll) :
    Reaches ctx s ((s.recomputeLoopBodyEnergyOnCFG graph ctx L body
        (createLoopBoundaryBlocks L)).refreshDisabledCheckpointEnergy graph ctx (some L)) ∧
      Reset s body L.blocks ((s.recomputeLoopBodyEnergyOnCFG graph ctx L body
        (createLoopBoundaryBlocks L)).refreshDisabledCheckpointEnergy graph ctx (some L)) := by
  obtain ⟨s₁, hquiet, hrefresh⟩ := recompute_spec ctx s graph L body
  refine ⟨?_, ?_⟩
  · exact ((((reaches_resetLoopBody hs L hb).then_quiet hquiet).trans
      (reaches_setPlacements _ _)).trans (reaches_setPlacements _ _)).then_quiet hrefresh
  · have hset := (Reset.resetLoopBody hs L body).of_same hquiet.toSameAllocations
    exact ((hset.setPlacements_synthetic rfl _).setPlacements_synthetic rfl _).of_same
      hrefresh.toSameAllocations

end Body

/-! ### The convergence -/

section Convergence

variable {ctx : Context} {s t : SchematicSolution} {graph : SchematicGraph}

/-- The objects the convergence merges are those of the loop, the object of the header first. -/
structure LoopObjects (L : Loop) (refs : List AllocRef) (s : SchematicSolution) : Prop where
  pointed : ∀ r ∈ refs, ∃ bb ∈ L.blocks, s.blockAllocation (.real bb) = some r
  header_first : ∀ r ∈ refs, s.blockAllocation (.real L.header) = some r → refs.head? = some r

/-- Collecting objects: those found so far stay in front. -/
private theorem foldl_collectMemoryAllocation (s : SchematicSolution) (blocks : List BasicBlock)
    (refs : List AllocRef) :
    ∃ more, blocks.foldl s.collectMemoryAllocation refs = refs ++ more ∧
      ∀ r ∈ more, ∃ bb ∈ blocks, s.blockAllocation (.real bb) = some r := by
  induction blocks generalizing refs with
  | nil => exact ⟨[], by simp⟩
  | cons bb blocks ih =>
    obtain ⟨first, hfirst, hpointed⟩ : ∃ first, s.collectMemoryAllocation refs bb = refs ++ first ∧
        ∀ r ∈ first, s.blockAllocation (.real bb) = some r := by
      rw [collectMemoryAllocation]
      split
      next r hr =>
        split_ifs
        · exact ⟨[], by simp⟩
        · exact ⟨[r], rfl, fun r' hr' => List.mem_singleton.mp hr' ▸ hr⟩
      next => exact ⟨[], by simp⟩
    obtain ⟨more, hmore, hrest⟩ := ih (refs ++ first)
    refine ⟨first ++ more, ?_, fun r hr => ?_⟩
    · rw [List.foldl_cons, hfirst, hmore, List.append_assoc]
    · rcases List.mem_append.mp hr with hr | hr
      · exact ⟨bb, List.mem_cons_self, hpointed r hr⟩
      · obtain ⟨bb', hbb', hr'⟩ := hrest r hr
        exact ⟨bb', List.mem_cons_of_mem _ hbb', hr'⟩

theorem loopObjects_collect (s : SchematicSolution) (L : Loop) :
    LoopObjects L (s.collectLoopMemoryAllocations L) s := by
  refine ⟨fun r hr => ?_, fun r _ hr => ?_⟩
  · obtain ⟨more, hmore, hpointed⟩ := foldl_collectMemoryAllocation s L.blocks []
    rw [collectLoopMemoryAllocations, hmore, List.nil_append] at hr
    exact hpointed r hr
  · -- the header is the first block
    obtain ⟨rest, hrest⟩ : ∃ rest, L.blocks = L.header :: rest := by
      have hfirst := L.header_first
      cases hblocks : L.blocks with
      | nil => simp [hblocks] at hfirst
      | cons bb rest => exact ⟨rest, by simpa [hblocks] using hfirst⟩
    obtain ⟨more, hmore, -⟩ := foldl_collectMemoryAllocation s rest [r]
    have hstart : s.collectMemoryAllocation [] L.header = [r] := by
      simp [collectMemoryAllocation, hr]
    rw [collectLoopMemoryAllocations, hrest, List.foldl_cons, hstart, hmore]
    rfl

/-- A reset keeps the objects of the loop. -/
theorem LoopObjects.of_reset {L : Loop} {refs : List AllocRef} {body : RegionAllocation}
    (h : LoopObjects L refs s) (hreset : Reset s body L.blocks t) : LoopObjects L refs t := by
  refine ⟨fun r hr => ?_, fun r hr hheader => ?_⟩
  · obtain ⟨bb, hbb, hpoint⟩ := h.pointed r hr
    exact ⟨bb, hbb, hreset.kept _ _ hpoint⟩
  · obtain ⟨bb, -, hpoint⟩ := h.pointed r hr
    rcases hreset.fresh _ _ hheader with hheader | hfresh
    · exact h.header_first r hr hheader
    · exact absurd hfresh (hreset.ne_nextRef hpoint)

/-- **The body allocation of a loop whose decision is being made** has an origin. -/
structure Settled (ctx : Context) (header : Block) (C : Convergence) : Prop where
  body_eq : C.decision.bodyAllocation = C.bodyAlloc
  savesAll : C.bodyAlloc.SavesAll
  origin : FromPlacements C.solution header C.bodyAlloc ∨
    ∃ heap refs, FromConvergence ctx C.solution header C.bodyAlloc heap refs

/-- What a round does to the allocations, whichever way it ends. -/
theorem round_eq (ctx : Context) (graph : SchematicGraph) (trace : LoadedLoopTrace)
    (maxTripCount : ℕ) (refs : List AllocRef) (C : Convergence) :
    ∃ accesses, SavesAccesses accesses ∧
      (C.round ctx graph trace maxTripCount refs).1.bodyAlloc =
        (chooseMemoryAllocationOf accesses ctx.state ctx.params none none
          (refs.map C.solution.heap) C.tracker).1.1 ∧
      (C.round ctx graph trace maxTripCount refs).1.tracker =
        (chooseMemoryAllocationOf accesses ctx.state ctx.params none none
          (refs.map C.solution.heap) C.tracker).2 ∧
      (C.round ctx graph trace maxTripCount refs).1.decision.bodyAllocation =
        (C.round ctx graph trace maxTripCount refs).1.bodyAlloc ∧
      (C.round ctx graph trace maxTripCount refs).1.solution =
        (C.solution.recomputeLoopBodyEnergyOnCFG graph ctx trace.loop
          (C.round ctx graph trace maxTripCount refs).1.bodyAlloc
          (createLoopBoundaryBlocks trace.loop)).refreshDisabledCheckpointEnergy graph ctx
            (some trace.loop) := by
  refine ⟨estimateLoopVariableAccess trace ctx.state
    (min C.budget.numIterations maxTripCount % 2 ^ 32),
    savesAccesses_estimateLoopVariableAccess trace _, ?_⟩
  simp only [Convergence.round]
  split_ifs <;> exact ⟨rfl, rfl, rfl, rfl⟩

variable (ctx graph) in
/-- One round of the convergence. -/
theorem settled_round {trace : LoadedLoopTrace} (maxTripCount : ℕ) {refs : List AllocRef}
    {C : Convergence} (hC : WellAllocated C.solution)
    (hrefs : LoopObjects trace.loop refs C.solution) :
    Reaches ctx C.solution (C.round ctx graph trace maxTripCount refs).1.solution ∧
      Settled ctx (.real trace.loop.header) (C.round ctx graph trace maxTripCount refs).1 ∧
      LoopObjects trace.loop refs (C.round ctx graph trace maxTripCount refs).1.solution := by
  obtain ⟨accesses, haccess, hbody, -, hdecision, hsolution⟩ :=
    round_eq ctx graph trace maxTripCount refs C
  have hsaves : (C.round ctx graph trace maxTripCount refs).1.bodyAlloc.SavesAll := by
    rw [hbody]
    refine savesAll_chooseMemoryAllocationOf haccess (by simp) (by simp) fun a ha => ?_
    obtain ⟨r, -, rfl⟩ := List.mem_map.mp ha
    exact hC.savesAll r
  obtain ⟨hreach, hreset⟩ := reset_recompute ctx graph hC trace.loop hsaves
  rw [← hsolution] at hreach hreset
  have hrefs' := hrefs.of_reset hreset
  refine ⟨hreach, ⟨hdecision, hsaves, Or.inr ⟨C.solution.heap, refs, ?_⟩⟩, hrefs'⟩
  refine ⟨⟨accesses, C.tracker, haccess, hbody⟩, fun r _ => hC.savesAll r, fun r hr => ?_,
    fun r hr v => ?_, hrefs'.header_first⟩
  · obtain ⟨bb, -, hpoint⟩ := hrefs'.pointed r hr
    exact (hreach.wellAllocated hC).lt_nextRef _ r hpoint
  · obtain ⟨bb, hbb, hpoint⟩ := hrefs.pointed r hr
    exact hreset.extended bb hbb r hpoint v

/-- The rounds of the convergence. -/
theorem settled_rounds {trace : LoadedLoopTrace} {maxTripCount : ℕ} {refs : List AllocRef}
    (fuel previous : ℕ) {C : Convergence} (hC : WellAllocated C.solution)
    (hrefs : LoopObjects trace.loop refs C.solution)
    (hsettled : Settled ctx (.real trace.loop.header) C) :
    Reaches ctx C.solution
        (C.rounds ctx graph trace maxTripCount refs fuel previous).solution ∧
      Settled ctx (.real trace.loop.header)
        (C.rounds ctx graph trace maxTripCount refs fuel previous) := by
  induction fuel generalizing previous C with
  | zero => exact ⟨.refl _, hsettled⟩
  | succ fuel ih =>
    rw [Convergence.rounds]
    split_ifs
    · exact ⟨.refl _, hsettled⟩
    · obtain ⟨hreach, hsettled', hrefs'⟩ := settled_round ctx graph maxTripCount hC
        hrefs
      split
      next C' hround =>
        rw [hround] at hreach hsettled' hrefs'
        obtain ⟨hrest, hsettled''⟩ := ih C.budget.numIterations (hreach.wellAllocated hC) hrefs'
          hsettled'
        exact ⟨hreach.trans hrest, hsettled''⟩
      next C' hround =>
        rw [hround] at hreach hsettled'
        exact ⟨hreach, hsettled'⟩

theorem settled_refine {trace : LoadedLoopTrace} {maxTripCount : ℕ} {C : Convergence}
    (hC : WellAllocated C.solution) (hsettled : Settled ctx (.real trace.loop.header) C) :
    Reaches ctx C.solution
        (refineLoopBudgetWithConvergence ctx graph trace maxTripCount C).solution ∧
      Settled ctx (.real trace.loop.header)
        (refineLoopBudgetWithConvergence ctx graph trace maxTripCount C) := by
  simp only [refineLoopBudgetWithConvergence]
  split_ifs
  · exact ⟨.refl _, hsettled.1, hsettled.2, hsettled.3⟩
  · exact settled_rounds (C := { C with decision := { C.decision with
        hadEnabledCheckpoints := C.solution.hasEnabledCheckpointsInLoop trace.loop
        convergenceApplied := true } }) 15 0 hC
      (loopObjects_collect C.solution trace.loop) ⟨hsettled.1, hsettled.2, hsettled.3⟩

/-- The origin of a body allocation survives quiet changes. -/
theorem Settled.of_same {header : Block} {C C' : Convergence} (h : Settled ctx header C)
    (hq : SameAllocations C.solution C'.solution) (hbody : C'.bodyAlloc = C.bodyAlloc)
    (hdecision : C'.decision.bodyAllocation = C.decision.bodyAllocation) :
    Settled ctx header C' := by
  refine ⟨by rw [hdecision, hbody, h.body_eq], hbody ▸ h.savesAll, ?_⟩
  rw [hbody]
  rcases h.origin with horigin | ⟨heap, refs, horigin⟩
  · left
    intro v
    rw [hq.decidedPlacements]
    exact horigin v
  · refine Or.inr ⟨heap, refs, horigin.chosen, horigin.savesAll, ?_, fun r hr v => ?_, ?_⟩
    · rw [hq.nextRef]
      exact horigin.lt_nextRef
    · rw [hq.heap]
      exact horigin.extended r hr v
    · rw [hq.blockAllocation]
      exact horigin.header_first

/-- The origin of a body allocation survives a further reset with the same allocation. -/
theorem Settled.of_reset {L : Loop} {C C' : Convergence} (h : Settled ctx (.real L.header) C)
    (hreset : Reset C.solution C.bodyAlloc L.blocks C'.solution)
    (hbody : C'.bodyAlloc = C.bodyAlloc)
    (hdecision : C'.decision.bodyAllocation = C.decision.bodyAllocation) :
    Settled ctx (.real L.header) C' := by
  refine ⟨by rw [hdecision, hbody, h.body_eq], hbody ▸ h.savesAll, ?_⟩
  rw [hbody]
  rcases h.origin with horigin | ⟨heap, refs, horigin⟩
  · left
    intro v
    have hheader : L.header ∈ L.blocks := List.mem_of_head? L.header_first
    rw [hreset.placements L.header hheader v, horigin v]
    cases (C.solution.decidedPlacements (.real L.header)).lookup v <;> simp
  · have hne : ∀ r ∈ refs, r ≠ C.solution.nextRef := fun r hr => ne_of_lt (horigin.lt_nextRef r hr)
    refine Or.inr ⟨heap, refs, horigin.chosen, horigin.savesAll, fun r hr => ?_, fun r hr v => ?_,
      fun r hr hheader => ?_⟩
    · rw [hreset.nextRef]
      exact Nat.lt_succ_of_lt (horigin.lt_nextRef r hr)
    · rcases hreset.within r (hne r hr) v with hv | hv
      · rw [hv, horigin.extended r hr v]
      · rw [hv, horigin.extended r hr v, Reset.or_or_self]
    · rcases hreset.fresh _ r hheader with hheader | hfresh
      · exact horigin.header_first r hr hheader
      · exact absurd hfresh (hne r hr)

end Convergence

/-! ### Deciding a loop -/

section Decide

variable {ctx : Context} {s : SchematicSolution} {graph : SchematicGraph}

theorem quiet_splitLoopBodyAtFixedBoundary {s' : SchematicSolution} {bodyPaths : List (List Block)}
    (h : s.splitLoopBodyAtFixedBoundary graph bodyPaths = some s') : Quiet s s' := by
  rw [splitLoopBodyAtFixedBoundary] at h
  induction bodyPaths generalizing s with
  | nil =>
    cases h
    exact .refl _
  | cons path paths ih =>
    rw [List.foldlM_cons, Option.bind_eq_bind, Option.bind_eq_some_iff] at h
    obtain ⟨s₁, hs₁, hrest⟩ := h
    obtain ⟨p, -, rfl⟩ := Option.map_eq_some_iff.mp hs₁
    exact (quiet_setCheckpointState _ _).trans (ih hrest)

/-- Splitting the body keeps the origin of the body allocation. -/
theorem settled_splitLoopBody {L : Loop} {bodyPaths : List (List Block)} {C C' : Convergence}
    (hC : WellAllocated C.solution) (hsettled : Settled ctx (.real L.header) C)
    (h : splitLoopBody ctx graph L bodyPaths C = .ok C') :
    Reaches ctx C.solution C'.solution ∧ Settled ctx (.real L.header) C' := by
  simp only [splitLoopBody] at h
  split_ifs at h
  · cases h
    exact ⟨.refl _, hsettled⟩
  · split at h
    · cases h
    next s₁ hs₁ =>
      split_ifs at h
      cases h
      have hquiet := quiet_splitLoopBodyAtFixedBoundary hs₁
      have hsettled₁ : Settled ctx (.real L.header) { C with solution := s₁ } :=
        hsettled.of_same hquiet.toSameAllocations rfl rfl
      obtain ⟨hreach, hreset⟩ := reset_recompute ctx graph
        (hC.of_same hquiet.toSameAllocations) L hsettled.savesAll
      exact ⟨(Reaches.of_quiet hquiet).trans hreach, hsettled₁.of_reset hreset rfl rfl⟩

theorem quiet_copyLoopBoundaryEnergyToSyntheticBlocks (blocks : LoopBoundaryBlocks) :
    Quiet s (s.copyLoopBoundaryEnergyToSyntheticBlocks blocks) := by
  simp only [copyLoopBoundaryEnergyToSyntheticBlocks]
  split
  · exact (quiet_setMeta _ _).trans (quiet_setMeta _ _)
  · exact quiet_setMeta _ _

theorem quiet_propagateMandatoryLoopBoundary (L : Loop) (blocks : LoopBoundaryBlocks)
    (body : RegionAllocation) :
    Quiet s (s.propagateMandatoryLoopBoundary graph ctx L blocks body) := by
  simp only [propagateMandatoryLoopBoundary]
  refine Quiet.trans ?_ ((quiet_setMeta _ _).trans (quiet_setMeta _ _))
  split
  · split
    · exact (quiet_propagateEnergyLeft _ _ _).trans (quiet_propagateEnergyToLeave _ _ _)
    · exact quiet_propagateEnergyToLeave _ _ _
  · split
    · exact quiet_propagateEnergyLeft _ _ _
    · exact .refl s

variable (graph) in
/-- The policy for the back edge changes a checkpoint only and keeps the body allocation. -/
theorem quiet_applyLoopCheckpointPolicy (maxTripCount : ℕ) (blocks : LoopBoundaryBlocks)
    (budget : LoopIterationBudget) (d : LoopCheckpointDecision) :
    Quiet s (s.applyLoopCheckpointPolicy graph maxTripCount blocks budget d).2 ∧
      (s.applyLoopCheckpointPolicy graph maxTripCount blocks budget d).1.bodyAllocation =
        d.bodyAllocation := by
  simp only [applyLoopCheckpointPolicy]
  split_ifs
  all_goals
    refine ⟨?_, rfl⟩
    dsimp only
    split
    · exact quiet_setCheckpointState _ _
    · exact .refl s

theorem quiet_applyLoopIterationAdjustment (L : Loop) (maxTripCount : ℕ)
    (d : LoopCheckpointDecision) (ELoop : ℚ) :
    Quiet s (s.applyLoopIterationAdjustment L maxTripCount d ELoop) := by
  rw [applyLoopIterationAdjustment]
  by_cases h : d.numIterationsPerCharge ≤ 1
  · rw [if_pos h]
    exact .refl s
  · rw [if_neg h]
    exact Quiet.foldl (fun s bb _ => quiet_setMeta _ _) s

theorem reaches_resolveLoopBoundaryPlacements (blocks : LoopBoundaryBlocks) :
    Reaches ctx s (s.resolveLoopBoundaryPlacements blocks).2 := by
  rw [resolveLoopBoundaryPlacements]
  cases blocks.latchBlock with
  | none =>
    dsimp only
    split_ifs
    · exact .refl s
    · exact reaches_setPlacements _ _
  | some latch =>
    dsimp only
    split_ifs
    · exact .refl s
    · exact (reaches_setPlacements _ _).trans (reaches_setPlacements _ _)

/-- A decision with the placements of the header. -/
theorem fromPlacements_buildBoundaryAllocation {header : Block} {headerAlloc : ValueMap Placement}
    (h : ∀ v, (s.decidedPlacements header).lookup v = headerAlloc.lookup v)
    (state : SchematicStateAnalysis) :
    FromPlacements s header (buildBoundaryAllocation headerAlloc state) := fun v => by
  rw [lookup_buildBoundaryAllocation, h]

/-- A boundary allocation marks every variable for saving. -/
theorem savesAll_buildBoundaryAllocation (placement : ValueMap Placement)
    (state : SchematicStateAnalysis) : (buildBoundaryAllocation placement state).SavesAll := by
  intro v va h
  rw [lookup_buildBoundaryAllocation, Option.map_eq_some_iff] at h
  obtain ⟨p, -, rfl⟩ := h
  rfl

/-- A decision whose body allocation has an origin. -/
theorem Settled.reaches_setDecision {header : Block} {C : Convergence} {s' : SchematicSolution}
    {d : LoopCheckpointDecision} (h : Settled ctx header C) (hq : SameAllocations C.solution s')
    (hd : d.bodyAllocation = C.decision.bodyAllocation) :
    Reaches ctx s' (s'.setDecision header d) := by
  have h' : Settled ctx header { C with solution := s' } := h.of_same hq rfl rfl
  rcases h'.origin with horigin | ⟨heap, refs, horigin⟩
  · refine Reaches.of_action (a := .decide header d .placements) ?_
    simp only [Action.Valid, hd, h.body_eq]
    exact horigin
  · refine Reaches.of_action (a := .decide header d (.converged heap refs)) ?_
    simp only [Action.Valid, hd, h.body_eq]
    exact horigin

/-- A decision with the placements of the header. -/
theorem reaches_setDecision_placements {header : Block} {headerAlloc : ValueMap Placement}
    (h : ∀ v, (s.decidedPlacements header).lookup v = headerAlloc.lookup v)
    {d : LoopCheckpointDecision}
    (hd : d.bodyAllocation = buildBoundaryAllocation headerAlloc ctx.state) :
    Reaches ctx s (s.setDecision header d) := by
  refine Reaches.of_action (a := .decide header d .placements) ?_
  simp only [Action.Valid, hd]
  exact fromPlacements_buildBoundaryAllocation h ctx.state

theorem reaches_decideMismatch {A : Analysis} {L : Loop} {headerAlloc : ValueMap Placement}
    (h : ∀ v, (A.solution.decidedPlacements (.real L.header)).lookup v = headerAlloc.lookup v) :
    Reaches ctx A.solution (A.decideMismatch ctx L headerAlloc).solution := by
  simp only [Analysis.decideMismatch]
  split
  · exact ((reaches_setDecision_placements h rfl).then_quiet
      (quiet_propagateMandatoryLoopBoundary _ _ _)).then_quiet (quiet_setCheckpointState _ _)
  · exact (reaches_setDecision_placements h rfl).then_quiet
      (quiet_propagateMandatoryLoopBoundary _ _ _)

theorem reaches_decideByBudget {A A' : Analysis} {trace : LoadedLoopTrace}
    {headerAlloc : ValueMap Placement} (hA : WellAllocated A.solution)
    (hplaced : ∀ v, (A.solution.decidedPlacements (.real trace.loop.header)).lookup v =
      headerAlloc.lookup v)
    (h : A.decideByBudget ctx trace headerAlloc = .ok A') :
    Reaches ctx A.solution A'.solution := by
  have hcopy := quiet_copyLoopBoundaryEnergyToSyntheticBlocks (s := A.solution)
    (createLoopBoundaryBlocks trace.loop)
  rw [Analysis.decideByBudget] at h
  dsimp only at h
  generalize A.solution.copyLoopBoundaryEnergyToSyntheticBlocks
    (createLoopBoundaryBlocks trace.loop) = s at h hcopy
  generalize s.readLoopIterationBudget ctx (createLoopBoundaryBlocks trace.loop)
    (buildBoundaryAllocation headerAlloc ctx.state) = budget at h
  have hs : ∀ v, (s.decidedPlacements (.real trace.loop.header)).lookup v =
      headerAlloc.lookup v := fun v => by
    rw [hcopy.decidedPlacements]
    exact hplaced v
  refine (Reaches.of_quiet hcopy).trans ?_
  split_ifs at h
  · cases h
    exact reaches_setDecision_placements hs rfl
  · cases h
    dsimp only
    split
    · exact (reaches_setDecision_placements hs rfl).then_quiet (quiet_setCheckpointState _ _)
    · exact reaches_setDecision_placements hs rfl
  · obtain ⟨C, hC, hend⟩ := except_bind_eq_ok h
    cases hend
    -- without convergence the body allocation holds the placements of the header
    have hsettled : Settled ctx (.real trace.loop.header) ⟨s, A.tracker, budget,
        buildBoundaryAllocation headerAlloc ctx.state,
        { loop := trace.loop, E_loop := budget.ELoop
          bodyAllocation := buildBoundaryAllocation headerAlloc ctx.state }⟩ :=
      ⟨rfl, savesAll_buildBoundaryAllocation _ _,
        Or.inl (fromPlacements_buildBoundaryAllocation hs ctx.state)⟩
    obtain ⟨hrefine, hsettled⟩ := settled_refine (hA.of_same hcopy.toSameAllocations) hsettled
    obtain ⟨hsplit, hsettled⟩ := settled_splitLoopBody
      (hrefine.wellAllocated (hA.of_same hcopy.toSameAllocations)) hsettled hC
    obtain ⟨hpolicy, hbody⟩ := quiet_applyLoopCheckpointPolicy (s := C.solution) A.graph
      (trace.maxTripCount.getD (2 ^ 32 - 1) % 2 ^ 32) (createLoopBoundaryBlocks trace.loop) C.budget
      C.decision
    exact ((hrefine.trans hsplit).then_quiet hpolicy).trans
      ((hsettled.reaches_setDecision hpolicy.toSameAllocations hbody).then_quiet
        (quiet_applyLoopIterationAdjustment _ _ _ _))

/-- **The analyses keep the objects in order** and do what a run does. -/
theorem analysisInvariant_reaches (ctx : Context) (s₀ : SchematicSolution) :
    AnalysisInvariant ctx fun A => WellAllocated A.solution ∧ Reaches ctx s₀ A.solution := by
  have hthen : ∀ {s t : SchematicSolution}, WellAllocated s ∧ Reaches ctx s₀ s →
      Reaches ctx s t → WellAllocated t ∧ Reaches ctx s₀ t := fun hs hst =>
    ⟨hst.wellAllocated hs.1, hs.2.trans hst⟩
  exact {
    quiet := fun hA hquiet => hthen hA (.of_quiet hquiet)
    graph := fun _ hA => hA
    apply := fun loopScope hA _ hsolve => hthen hA
      (reaches_applyMemoryAllocation hA.1 (savesAll_solve hA.1 hsolve) _ loopScope)
    boundary := fun hA _ => hthen hA (reaches_setPlacements _ _)
    forget := fun hA _ => hthen hA ((reaches_setPlacements _ _).trans
      (Reaches.of_action (a := .point _ none) (by simp [Action.Valid])))
    resolve := fun blocks hA => hthen hA (reaches_resolveLoopBoundaryPlacements blocks)
    mismatch := fun hA hplaced => hthen hA (reaches_decideMismatch hplaced)
    budget := fun hA hplaced h => hthen hA (reaches_decideByBudget hA.1 hplaced h) }

end Decide

/-! ### Functions -/

/-- A summary whose allocations mark all variables for saving. -/
def CallSummary.SavesAll (S : CallSummary) : Prop :=
  S.sfAllocation.SavesAll ∧ S.efAllocation.SavesAll

theorem reaches_foldCall {ctx ctx' : Context} {graph : SchematicGraph} {S : CallSummary}
    (hS : S.SavesAll) (ic : IsolatedCall) {s : SchematicSolution} :
    Reaches ctx' s (foldCall ctx graph S ic s).2 := by
  have hshare : ∀ (t : SchematicSolution) {a : RegionAllocation} (b : Block), a.SavesAll →
      Reaches ctx' t ((t.makeShared a).setBlockAllocation b (some t.nextRef)) := by
    intro t a b ha
    refine (Reaches.of_action (a := .share a) ha).trans
      (Reaches.of_action (a := .point b (some t.nextRef)) ?_)
    intro r hr
    rw [← Option.mem_some_iff.mp hr]
    exact Nat.lt_succ_self _
  have hblocks : SameAllocations s { s with
      functionCallBlocks := s.functionCallBlocks ++ [.real ic.entry, .real ic.exit] } :=
    ⟨rfl, rfl, rfl, rfl, rfl⟩
  have hreach := ((((Reaches.of_same hblocks).trans (hshare _ (.real ic.entry) hS.1)).trans
    (hshare _ (.real ic.exit) hS.2)).trans (reaches_setPlacements (.real ic.entry)
      S.sfPlacements)).trans (reaches_setPlacements (.real ic.exit) S.efPlacements)
  simp only [foldCall]
  split
  · exact hreach.then_quiet ((quiet_setMeta _ _).trans ((quiet_setMeta _ _).trans
      (quiet_setCheckpointState _ _)))
  · exact hreach.then_quiet (quiet_setCheckpointState _ _)

theorem reaches_foldCalleeSummaries {graph : SchematicGraph} {summaries : ℕ → Option CallSummary}
    (hsum : ∀ f S, summaries f = some S → S.SavesAll) {calls : List IsolatedCall}
    {ctx ctx' ctx'' : Context} {s s' : SchematicSolution}
    (h : foldCalleeSummaries graph summaries calls ctx s = some (ctx', s')) :
    Reaches ctx'' s s' := by
  rw [foldCalleeSummaries] at h
  induction calls generalizing ctx s with
  | nil =>
    cases h
    exact .refl _
  | cons ic calls ih =>
    rw [List.foldlM_cons, Option.bind_eq_bind, Option.bind_eq_some_iff] at h
    obtain ⟨p, hp, hrest⟩ := h
    obtain ⟨S, hS, rfl⟩ := Option.map_eq_some_iff.mp hp
    exact (reaches_foldCall (hsum _ S hS) ic).trans (ih hrest)

theorem wellAllocated_empty : WellAllocated {} :=
  ⟨fun _ => savesAll_empty, fun b r hr => by simp at hr⟩

/-- **What `solveFunction` returns is reached by a run.** -/
theorem solveFunction_reaches {F : FunctionInput} {params : SchematicParams}
    {summaries : ℕ → Option CallSummary} {tracker : VMAddressTracker} {ctx : Context} {A : Analysis}
    (hsum : ∀ f S, summaries f = some S → S.SavesAll)
    (h : solveFunction F params summaries tracker = .ok (ctx, A)) :
    Reaches ctx {} A.solution := by
  obtain ⟨graph, s, hfold, hrest⟩ := solveFunction_invariant h
  have hcalls : Reaches ctx {} s := reaches_foldCalleeSummaries hsum hfold
  exact (hrest _ (analysisInvariant_reaches ctx {})
    ⟨hcalls.wellAllocated wellAllocated_empty, hcalls⟩).2

/-- **The summaries of a whole program**: each one is read off a function that was solved with
summaries of its own callees. -/
inductive SolvedSummary (params : SchematicParams) : CallSummary → Prop
  | capture {F : FunctionInput} {summaries : ℕ → Option CallSummary} {tracker : VMAddressTracker}
      {ctx : Context} {A : Analysis}
      (callees : ∀ f S, summaries f = some S → SolvedSummary params S)
      (solved : solveFunction F params summaries tracker = .ok (ctx, A)) :
      SolvedSummary params (captureCallSummary A.solution)

private theorem savesAll_globals {a : RegionAllocation} (h : a.SavesAll) : a.globals.SavesAll := by
  refine List.foldlRecOn (motive := fun m : ValueMap VariableAllocation =>
    ∀ v va, m.lookup v = some va → va.rawNeedSave = true) a.vars.walk _ (by simp) ?_
  intro m hm e he w wa hw
  split_ifs at hw
  · by_cases hwe : w = e.1
    · subst hwe
      rw [AList.lookup_insert] at hw
      exact Option.some.inj hw ▸ h e.1 e.2 (ValueMap.mem_walk.mp he)
    · rw [AList.lookup_insert_ne hwe] at hw
      exact hm w wa hw
  · exact hm w wa hw

theorem SolvedSummary.savesAll {params : SchematicParams} {S : CallSummary}
    (h : SolvedSummary params S) : S.SavesAll := by
  induction h with
  | capture _ solved ih =>
    have hwell := (solveFunction_reaches ih solved).wellAllocated wellAllocated_empty
    have hside : ∀ b, ((Option.getD (SchematicSolution.allocationOf _ b) {})).SavesAll :=
      fun b => by
      cases hb : SchematicSolution.allocationOf _ b with
      | none => exact savesAll_empty
      | some a => exact hwell.allocationOf hb
    exact ⟨savesAll_globals (hside _), savesAll_globals (hside _)⟩

end Bao.Schematic
