import Bao.Schematic.PassRun

/-!
# Agreement of placements

Two maps say where a block keeps its variables: the decided placements, which energies and the costs
of saves and restores are computed from, and the allocation object, which the instrumenter reads.
They should place the same variables and place them alike (`PlacementsAgree`).

Objects are shared between blocks and placements are not. So an event that extends the object of one
block extends the allocations of all blocks that share it, and the two maps stay in agreement only
if these blocks get the placements as well, or nothing was added (`KeepsPlacements`). Runs whose
events all do are in agreement throughout (`placements_agree_of_keeps`).
-/

namespace Bao.Schematic

open RegionAllocation SchematicSolution

/-- The placement of a variable in an allocation. -/
def RegionAllocation.placementOf (a : RegionAllocation) (v : Value) : Option Placement :=
  (a.vars.lookup v).map VariableAllocation.placement

/-- The placement that a block has decided for a variable. -/
def SchematicSolution.decided (s : SchematicSolution) (b : Block) (v : Value) : Option Placement :=
  (s.decidedPlacements b).lookup v

/-- The placement of a variable in the allocation of a block. -/
def SchematicSolution.allocated (s : SchematicSolution) (b : Block) (v : Value) :
    Option Placement :=
  (s.allocationOf b).bind fun a => a.placementOf v

/-- **The placements agree**, in every real block. -/
def PlacementsAgree (s : SchematicSolution) : Prop :=
  ∀ bb v, s.decided (.real bb) v = s.allocated (.real bb) v

/-! ### What keeps the agreement -/

/-- The blocks that get each allocation: those of its interval, and at the end the last block. -/
def coverage : List Block → List CFGEdge → List RegionAllocation →
    List (List Block × RegionAllocation)
  | _, _, [] => []
  | rest, checkpoints, [alloc] =>
    let p := splitAtCheckpoint checkpoints.head? rest
    [(p.1 ++ p.2.head?.toList, alloc)]
  | rest, checkpoints, alloc :: next :: allocations =>
    let p := splitAtCheckpoint checkpoints.head? rest
    (p.1, alloc) :: coverage p.2 checkpoints.tail (next :: allocations)

/-- Two blocks have the same object. -/
def SchematicSolution.Shares (s : SchematicSolution) (b c : Block) : Prop :=
  ∃ r, s.blockAllocation b = some r ∧ s.blockAllocation c = some r

/-- What is placed in `blocks` adds nothing to a real block outside that shares its object with one
of them. -/
def AddsNothingOutside (s : SchematicSolution) (blocks : List Block) (placed : Value → Prop) :
    Prop :=
  ∀ b ∈ blocks, ∀ bb, s.Shares b (.real bb) → Block.real bb ∉ blocks → ∀ v, placed v →
    (s.allocated (.real bb) v).isSome = true

/-- What an interval of a trace places: the variables of its allocation and those that the ends of
the trace have, if they are in the interval. The front takes over the first interval before the
back is looked at, so a back with the same object has the variables of the first interval as well,
unless a checkpoint follows the front. -/
def PlacedIn (s : SchematicSolution) (result : RCGSolver.RCGResult) (trace : List Block)
    (p : List Block × RegionAllocation) (v : Value) : Prop :=
  let front := trace.headD .startFunc
  let back := trace.getLastD .endFunc
  (p.2.placementOf v).isSome = true ∨ front ∈ p.1 ∧ (s.allocated front v).isSome = true ∨
    back ∈ p.1 ∧ ((s.allocated back v).isSome = true ∨ s.Shares front back ∧
      (result.selectedCheckpoints.head?.all fun (c : CFGEdge) => decide (c.src ≠ front)) = true ∧
      ((result.allocations.headD {}).placementOf v).isSome = true)

/-- **A result that is applied to its own blocks**: what an interval places is nothing new to the
blocks outside that share an object with it, no block is in two intervals, and if the two ends of
the trace become one, the back places no variable differently than the blocks of the front. -/
structure AppliesAlone (s : SchematicSolution) (result : RCGSolver.RCGResult) (trace : List Block) :
    Prop where
  shared : ∀ p ∈ coverage trace result.selectedCheckpoints result.allocations,
    AddsNothingOutside s p.1 (PlacedIn s result trace p)
  once : ((coverage trace result.selectedCheckpoints result.allocations).map
    Prod.fst).Pairwise List.Disjoint
  ends : result.selectedCheckpoints = [] → ∀ bb, s.Shares (trace.headD .startFunc) (.real bb) →
    ∀ v p q, s.allocated (.real bb) v = some p →
      s.allocated (trace.getLastD .endFunc) v = some q → p = q

/-- **A body allocation that replaces placements only in the loop**: it places no variable
differently than a block of the loop, and adds nothing to a block outside that shares an object. -/
structure ReplacesAlone (s : SchematicSolution) (L : Loop) (body : RegionAllocation) : Prop where
  alike : ∀ bb ∈ L.blocks, ∀ v p q, body.placementOf v = some p →
    s.allocated (.real bb) v = some q → p = q
  shared : AddsNothingOutside s (L.blocks.map .real) fun v => (body.placementOf v).isSome = true

/-- **An event that keeps the agreement.** -/
def KeepsPlacements (σ : PassState) : PassEvent → Prop
  | .fold S _ => ∀ v, S.sfPlacements.lookup v = S.sfAllocation.placementOf v ∧
      S.efPlacements.lookup v = S.efAllocation.placementOf v
  | .apply result trace => AppliesAlone σ.solution result trace
  | .fill blocks => ∀ latch ∈ blocks.latchBlock,
      boundaryPlacementsDiffer (σ.solution.decidedPlacements blocks.headerBlock)
        (σ.solution.decidedPlacements latch) = true ∨
      ∀ v, (σ.solution.decided blocks.headerBlock v).isSome =
        (σ.solution.decided latch v).isSome
  | .converge L accesses refs => ReplacesAlone σ.solution L
      (chooseMemoryAllocationOf accesses σ.ctx.state σ.ctx.params none none
        (refs.map σ.solution.heap) σ.tracker).1.1
  | .split L => ReplacesAlone σ.solution L σ.bodyAlloc
  | _ => True

/-! ### Joining an allocation to blocks -/

section Placements

variable {s t u : SchematicSolution}

theorem placementOf_extendsAllocation (target source : RegionAllocation) (v : Value) :
    (extendsAllocation target source).placementOf v =
      (target.placementOf v).or (source.placementOf v) := by
  rw [placementOf, lookup_extendsAllocation, placementOf, placementOf]
  cases target.vars.lookup v <;> rfl

theorem placementOf_heap_extendBlock (b : Block) (source : RegionAllocation) (r : AllocRef)
    (v : Value) :
    ((s.extendBlock b source).heap r).placementOf v =
      if s.blockAllocation b = some r then ((s.heap r).placementOf v).or (source.placementOf v)
      else (s.heap r).placementOf v := by
  rw [heap_extendBlock]
  split_ifs
  · exact placementOf_extendsAllocation _ _ v
  · rfl

theorem allocated_of_blockAllocation {b : Block} {r : AllocRef} (h : s.blockAllocation b = some r)
    (v : Value) : s.allocated b v = (s.heap r).placementOf v := by
  rw [allocated, SchematicSolution.allocationOf, h]
  rfl

theorem allocated_of_none {b : Block} (h : s.blockAllocation b = none) (v : Value) :
    s.allocated b v = none := by
  rw [allocated, SchematicSolution.allocationOf, h]
  rfl

/-- **The allocation object `r` is joined to some blocks**: their placements are merged with it,
their objects are extended by it, and the blocks without an object get it. -/
structure Joins (merge : Option Placement → Option Placement → Option Placement) (r : AllocRef)
    (s : SchematicSolution) (l : List Block) (t : SchematicSolution) : Prop where
  decided : ∀ c v, t.decided c v =
    if c ∈ l then merge (s.decided c v) ((s.heap r).placementOf v) else s.decided c v
  blockAllocation : ∀ c, t.blockAllocation c =
    if c ∈ l then (s.blockAllocation c).or (some r) else s.blockAllocation c
  heap : ∀ r' v, (t.heap r').placementOf v =
    if ∃ b ∈ l, s.blockAllocation b = some r' then
      ((s.heap r').placementOf v).or ((s.heap r).placementOf v)
    else (s.heap r').placementOf v
  nextRef : t.nextRef = s.nextRef

variable {merge : Option Placement → Option Placement → Option Placement} {r : AllocRef}
  {l l' : List Block}

theorem Joins.nil : Joins merge r s [] s := by
  refine ⟨?_, ?_, ?_, rfl⟩ <;> simp

/-- The object itself stays as it is. -/
theorem Joins.heap_self (h : Joins merge r s l t) (v : Value) :
    (t.heap r).placementOf v = (s.heap r).placementOf v := by
  rw [h.heap]
  split_ifs
  · exact Option.or_self
  · rfl

theorem Joins.append (hmerge : ∀ d a, merge (merge d a) a = merge d a) (h : Joins merge r s l t)
    (h' : Joins merge r t l' u) : Joins merge r s (l ++ l') u := by
  refine ⟨fun c v => ?_, fun c => ?_, fun r' v => ?_, h'.nextRef.trans h.nextRef⟩
  · rw [h'.decided, h.heap_self, h.decided]
    by_cases hl : c ∈ l <;> by_cases hl' : c ∈ l' <;> simp [hl, hl', hmerge]
  · rw [h'.blockAllocation, h.blockAllocation]
    by_cases hl : c ∈ l <;> by_cases hl' : c ∈ l' <;> simp [hl, hl']
  · by_cases hr : r' = r
    · subst hr
      rw [h'.heap_self, h.heap_self]
      split_ifs
      · exact Option.or_self.symm
      · rfl
    · -- the blocks that point to another object are the same before and after the first join
      have hpoint : ∀ b, t.blockAllocation b = some r' ↔ s.blockAllocation b = some r' := by
        intro b
        rw [h.blockAllocation]
        split_ifs
        · cases s.blockAllocation b with
          | none => simpa using Ne.symm hr
          | some r'' => rfl
        · rfl
      have hexists : (∃ b ∈ l ++ l', s.blockAllocation b = some r') ↔
          (∃ b ∈ l, s.blockAllocation b = some r') ∨ ∃ b ∈ l', s.blockAllocation b = some r' := by
        simp only [List.mem_append, or_and_right, exists_or]
      simp only [h'.heap, hpoint, h.heap_self, h.heap r' v, hexists]
      by_cases hl : ∃ b ∈ l, s.blockAllocation b = some r' <;>
        by_cases hl' : ∃ b ∈ l', s.blockAllocation b = some r' <;>
        simp [hl, hl', Option.or_assoc]

/-- The list of regions does not matter. -/
theorem Joins.regions (h : Joins merge r s l t) (regions : List RegionSolution) :
    Joins merge r s l { t with regions := regions } :=
  ⟨h.decided, h.blockAllocation, h.heap, h.nextRef⟩

/-- Joining to one block at a time. -/
theorem joins_foldl (hmerge : ∀ d a, merge (merge d a) a = merge d a)
    {f : SchematicSolution → Block → SchematicSolution}
    (hf : ∀ s b, (∀ v, (s.heap r).placementOf v = (t.heap r).placementOf v) →
      Joins merge r s [b] (f s b))
    (hs : ∀ v, (s.heap r).placementOf v = (t.heap r).placementOf v) (l : List Block) :
    Joins merge r s l (l.foldl f s) := by
  induction l generalizing s with
  | nil => exact .nil
  | cons b l ih =>
    have hb := hf s b hs
    exact hb.append hmerge (ih fun v => (hb.heap_self v).trans (hs v))

/-- One block that takes placements and joins an object. -/
private theorem joins_block {b : Block} (m : BlockMetadata) {p : ValueMap Placement}
    (hp : ∀ v, p.lookup v = merge (s.decided b v) ((s.heap r).placementOf v)) :
    Joins merge r s [b] (match ((s.setMeta b m).setPlacements b p).blockAllocation b with
      | some _ => ((s.setMeta b m).setPlacements b p).extendBlock b
        (((s.setMeta b m).setPlacements b p).heap r)
      | none => ((s.setMeta b m).setPlacements b p).setBlockAllocation b (some r)) := by
  have hdecided : ∀ c v, ((s.setMeta b m).setPlacements b p).decided c v =
      if c ∈ [b] then merge (s.decided c v) ((s.heap r).placementOf v) else s.decided c v := by
    intro c v
    by_cases hc : c = b
    · subst hc
      rw [if_pos (List.mem_singleton.mpr rfl), ← hp v]
      simp [SchematicSolution.decided, SchematicSolution.setPlacements]
    · rw [if_neg (fun h => hc (List.mem_singleton.mp h))]
      simp [SchematicSolution.decided, SchematicSolution.setPlacements, hc,
        SchematicSolution.setMeta]
  split
  next r' hr' =>
    have hr : s.blockAllocation b = some r' := hr'
    refine ⟨fun c v => ?_, fun c => ?_, fun r'' v => ?_, extendBlock_nextRef _ _ _⟩
    · rw [SchematicSolution.decided, extendBlock_decidedPlacements]
      exact hdecided c v
    · rw [extendBlock_blockAllocation]
      split_ifs with hc
      · rw [List.mem_singleton.mp hc, hr]
        exact hr
      · rfl
    · rw [placementOf_heap_extendBlock]
      simp only [List.mem_singleton, exists_eq_left]
      rfl
  next hnone =>
    have hr : s.blockAllocation b = none := hnone
    refine ⟨hdecided, fun c => ?_, fun r'' v => ?_, rfl⟩
    · by_cases hc : c = b
      · subst hc
        simp [SchematicSolution.setBlockAllocation, hr]
      · simp [SchematicSolution.setBlockAllocation, hc, SchematicSolution.setPlacements,
          SchematicSolution.setMeta]
    · simp only [List.mem_singleton, exists_eq_left, hr, reduceCtorEq, if_false]
      rfl

/-- Fixing a block. -/
theorem joins_fixBlock {b : Block} {vars : ValueMap VariableAllocation}
    (hvars : ∀ v, (vars.lookup v).map VariableAllocation.placement = (s.heap r).placementOf v) :
    Joins Option.or r s [b] (s.fixBlock b r vars) := by
  refine joins_block _ fun v => ?_
  rw [ValueMap.lookup_foldl_fill (fun va : VariableAllocation => va.placement), ← hvars v,
    ← ValueMap.find?_walk vars, Option.map_map]
  rfl

/-- Resetting a block. -/
theorem joins_resetBlock {b : Block} {body : RegionAllocation}
    (hbody : ∀ v, (s.heap r).placementOf v = body.placementOf v) :
    Joins (fun d a => a.or d) r s [b] (s.resetBlock b r body) := by
  refine joins_block _ fun v => ?_
  rw [ValueMap.lookup_foldl_insert (fun va : VariableAllocation => va.placement), hbody v]
  rfl

end Placements

/-! ### Joining a new object -/

/-- Pointers lead to objects that exist. -/
def PointersExist (s : SchematicSolution) : Prop :=
  ∀ b r, s.blockAllocation b = some r → r < s.nextRef

/-- **The invariant**: the placements agree, and pointers lead to objects that exist. -/
structure InAgreement (s : SchematicSolution) : Prop where
  pointers : PointersExist s
  agree : PlacementsAgree s

section Share

variable {s t : SchematicSolution} {a : RegionAllocation} {l : List Block}
  {merge : Option Placement → Option Placement → Option Placement}

theorem PointersExist.joins (hs : PointersExist s)
    (h : Joins merge s.nextRef (s.makeShared a) l t) :
    PointersExist t := by
  intro b r hr
  rw [h.nextRef]
  rw [h.blockAllocation] at hr
  split_ifs at hr
  · rcases Option.or_eq_some_iff.mp hr with hr | ⟨-, hr⟩
    · exact Nat.lt_succ_of_lt (hs b r hr)
    · exact Option.some.inj hr ▸ Nat.lt_succ_self _
  · exact Nat.lt_succ_of_lt (hs b r hr)

theorem placementOf_makeShared (v : Value) :
    ((s.makeShared a).heap s.nextRef).placementOf v = a.placementOf v := by
  simp [SchematicSolution.makeShared, setObject]

private theorem heap_makeShared {r : AllocRef} (hr : r < s.nextRef) :
    (s.makeShared a).heap r = s.heap r :=
  Function.update_of_ne (ne_of_lt hr) _ _

/-- What a join does to the placements of a block. -/
theorem decided_joins (h : Joins merge s.nextRef (s.makeShared a) l t) (c : Block) (v : Value) :
    t.decided c v = if c ∈ l then merge (s.decided c v) (a.placementOf v) else s.decided c v := by
  rw [h.decided, placementOf_makeShared]
  rfl

/-- The allocation of a block that is joined. -/
theorem allocated_joins_of_mem (hs : PointersExist s)
    (h : Joins merge s.nextRef (s.makeShared a) l t)
    {c : Block} (hc : c ∈ l) (v : Value) :
    t.allocated c v = (s.allocated c v).or (a.placementOf v) := by
  have hpoint := h.blockAllocation c
  rw [if_pos hc] at hpoint
  cases hr : s.blockAllocation c with
  | none =>
    rw [show (s.makeShared a).blockAllocation c = none from hr] at hpoint
    rw [allocated_of_blockAllocation hpoint, h.heap_self, placementOf_makeShared,
      allocated_of_none hr]
    rfl
  | some r =>
    have hr' : (s.makeShared a).blockAllocation c = some r := hr
    rw [hr'] at hpoint
    rw [allocated_of_blockAllocation hpoint, h.heap, if_pos ⟨c, hc, hr'⟩, placementOf_makeShared,
      heap_makeShared (hs c r hr), allocated_of_blockAllocation hr]

/-- The allocation of a block that is not joined, and to which nothing is added. -/
theorem allocated_joins_of_notMem (hs : PointersExist s)
    (h : Joins merge s.nextRef (s.makeShared a) l t) {c : Block} (hc : c ∉ l) {v : Value}
    (hnothing : ∀ b ∈ l, ∀ r, s.blockAllocation b = some r → s.blockAllocation c = some r →
      (a.placementOf v).isSome = true → (s.allocated c v).isSome = true) :
    t.allocated c v = s.allocated c v := by
  have hpoint := h.blockAllocation c
  rw [if_neg hc] at hpoint
  cases hr : s.blockAllocation c with
  | none =>
    rw [allocated_of_none hr, allocated_of_none (hpoint.trans hr)]
  | some r =>
    rw [allocated_of_blockAllocation (hpoint.trans hr), h.heap, placementOf_makeShared,
      heap_makeShared (hs c r hr), allocated_of_blockAllocation hr]
    split_ifs with hshared
    · obtain ⟨b, hb, hbr⟩ := hshared
      have hgrow := hnothing b hb r hbr hr
      rw [allocated_of_blockAllocation hr] at hgrow
      cases hv : (s.heap r).placementOf v with
      | some p => rfl
      | none =>
        rw [hv] at hgrow
        cases ha : a.placementOf v with
        | none => rfl
        | some p =>
          rw [ha] at hgrow
          exact absurd (hgrow rfl) (by simp)
    · rfl

end Share

/-! ### Recording the intervals -/

/-- **What holds before intervals are recorded**: a real block is in agreement, or it is in one of
the intervals and will be when it has got its allocation. -/
structure Awaiting (s : SchematicSolution) (cover : List (List Block × RegionAllocation)) :
    Prop where
  pointers : PointersExist s
  once : (cover.map Prod.fst).Pairwise List.Disjoint
  shared : ∀ p ∈ cover, AddsNothingOutside s p.1 fun v => (p.2.placementOf v).isSome = true
  agree : ∀ bb, (∀ v, s.decided (.real bb) v = s.allocated (.real bb) v) ∨
    ∃ p ∈ cover, .real bb ∈ p.1 ∧ ∀ v, (s.decided (.real bb) v).or (p.2.placementOf v) =
      (s.allocated (.real bb) v).or (p.2.placementOf v)

section Record

variable {s t : SchematicSolution}

/-- **One interval.** -/
private theorem Awaiting.step {p : List Block × RegionAllocation}
    {cover : List (List Block × RegionAllocation)} (h : Awaiting s (p :: cover))
    (hjoin : Joins Option.or s.nextRef (s.makeShared p.2) p.1 t) : Awaiting t cover := by
  obtain ⟨hs, honce, hshared, hagree⟩ := h
  obtain ⟨hdisjoint, honce⟩ := List.pairwise_cons.mp honce
  obtain ⟨hfirst, hshared⟩ := List.forall_mem_cons.mp hshared
  have hdisjoint' : ∀ q ∈ cover, ∀ b ∈ q.1, b ∉ p.1 := fun q hq b hb hbp =>
    hdisjoint q.1 (List.mem_map.mpr ⟨q, hq, rfl⟩) hbp hb
  -- a real block outside the interval keeps its allocation
  have houtside : ∀ bb, .real bb ∉ p.1 → ∀ v, t.allocated (.real bb) v = s.allocated (.real bb) v :=
    fun bb hbb v => allocated_joins_of_notMem hs hjoin hbb fun b hb r hbr hr =>
      hfirst b hb bb ⟨r, hbr, hr⟩ hbb v
  refine ⟨hs.joins hjoin, honce, fun q hq => ?_, fun bb => ?_⟩
  · rintro b hb bb ⟨r, hbr, hr⟩ hbb v hv
    have hbp := hdisjoint' q hq b hb
    rw [hjoin.blockAllocation, if_neg hbp] at hbr
    have hbr : s.blockAllocation b = some r := hbr
    have hpoint : s.blockAllocation (.real bb) = some r := by
      rw [hjoin.blockAllocation] at hr
      split_ifs at hr
      · rcases Option.or_eq_some_iff.mp hr with hr | ⟨-, hr⟩
        · exact hr
        · exact absurd (hs b r hbr) (by rw [Option.some.inj hr]; exact lt_irrefl _)
      · exact hr
    have hold := hshared q hq b hb bb ⟨r, hbr, hpoint⟩ hbb v hv
    by_cases hmem : .real bb ∈ p.1
    · rw [allocated_joins_of_mem hs hjoin hmem, Option.isSome_or, hold]
      rfl
    · rwa [houtside bb hmem]
  · by_cases hmem : .real bb ∈ p.1
    · refine .inl fun v => ?_
      rw [decided_joins hjoin, if_pos hmem, allocated_joins_of_mem hs hjoin hmem]
      rcases hagree bb with hnow | ⟨q, hq, hbb, hlater⟩
      · rw [hnow v]
      · rcases List.mem_cons.mp hq with rfl | hq
        · exact hlater v
        · exact absurd hmem (hdisjoint' q hq _ hbb)
    · have hdecided : ∀ v, t.decided (.real bb) v = s.decided (.real bb) v := fun v => by
        rw [decided_joins hjoin, if_neg hmem]
      rcases hagree bb with hnow | ⟨q, hq, hbb, hlater⟩
      · exact .inl fun v => by rw [hdecided, houtside bb hmem, hnow v]
      · rcases List.mem_cons.mp hq with rfl | hq
        · exact absurd hbb hmem
        · exact .inr ⟨q, hq, hbb, fun v => by rw [hdecided, houtside bb hmem, hlater v]⟩

/-- Nothing is awaited any more. -/
private theorem Awaiting.done (h : Awaiting s []) : PlacementsAgree s := by
  intro bb v
  rcases h.agree bb with hnow | ⟨p, hp, -⟩
  · exact hnow v
  · cases hp

private theorem or_or_self (d a : Option Placement) : (d.or a).or a = d.or a := by
  rw [Option.or_assoc, Option.or_self]

/-- The blocks of an interval are fixed. -/
private theorem joins_foldl_fixBlock (s : SchematicSolution) (alloc : RegionAllocation)
    (l : List Block) :
    Joins Option.or s.nextRef (s.makeShared alloc) l
      (l.foldl (fun s' b => s'.fixBlock b s.nextRef alloc.vars) (s.makeShared alloc)) :=
  joins_foldl or_or_self (fun _ _ hs => joins_fixBlock fun v => by
    rw [hs v, placementOf_makeShared]
    rfl) (fun _ => rfl) l

private theorem recordAllocations_cons (s : SchematicSolution) (rest : List Block)
    (checkpoints : List CFGEdge) (alloc : RegionAllocation) (blocks : List Block)
    (allocations : List (RegionAllocation × List Block)) (r : Option AllocRef) :
    s.recordAllocations rest checkpoints ((alloc, blocks) :: allocations) r =
      recordAllocations { (splitAtCheckpoint checkpoints.head? rest).1.foldl
          (fun s' b => s'.fixBlock b s.nextRef alloc.vars) (s.makeShared alloc) with
        regions := ((splitAtCheckpoint checkpoints.head? rest).1.foldl
          (fun s' b => s'.fixBlock b s.nextRef alloc.vars) (s.makeShared alloc)).regions ++
            [⟨blocks, alloc⟩] }
        (splitAtCheckpoint checkpoints.head? rest).2 checkpoints.tail allocations
          (some s.nextRef) :=
  rfl

/-- **Recording the intervals** brings all real blocks into agreement. -/
theorem agree_recordAllocations {allocations : List (RegionAllocation × List Block)}
    {rest : List Block} {checkpoints : List CFGEdge} {r : Option AllocRef}
    (hr : allocations = [] → r = none)
    (h : Awaiting s (coverage rest checkpoints (allocations.map Prod.fst))) :
    InAgreement (s.recordAllocations rest checkpoints allocations r) := by
  induction allocations generalizing s rest checkpoints r with
  | nil =>
    obtain rfl := hr rfl
    exact ⟨h.pointers, h.done⟩
  | cons p allocations ih =>
    obtain ⟨alloc, blocks⟩ := p
    have hjoin := joins_foldl_fixBlock s alloc (splitAtCheckpoint checkpoints.head? rest).1
    cases allocations with
    | nil =>
      -- the last block of the trace gets the last allocation
      have hlast : Joins Option.or s.nextRef (s.makeShared alloc)
          ((splitAtCheckpoint checkpoints.head? rest).1 ++
            (splitAtCheckpoint checkpoints.head? rest).2.head?.toList)
          (recordAllocations s rest checkpoints [(alloc, blocks)] r) := by
        rw [recordAllocations_cons]
        generalize hregions : _ ++ [(⟨blocks, alloc⟩ : RegionSolution)] = regions
        cases (splitAtCheckpoint checkpoints.head? rest).2 with
        | nil =>
          rw [List.head?_nil, Option.toList_none, List.append_nil]
          exact ⟨hjoin.decided, hjoin.blockAllocation, hjoin.heap, hjoin.nextRef⟩
        | cons b tail =>
          refine Joins.append or_or_self (hjoin.regions regions) ?_
          exact joins_fixBlock fun v => rfl
      have hdone := h.step hlast
      exact ⟨hdone.pointers, hdone.done⟩
    | cons next allocations =>
      have hstep := h.step hjoin
      rw [recordAllocations_cons]
      exact ih (by simp) ⟨hstep.pointers, hstep.once, hstep.shared, hstep.agree⟩

end Record

end Bao.Schematic
