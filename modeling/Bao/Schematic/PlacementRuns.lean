import Bao.Schematic.OptimalPartition
import Bao.Schematic.PlacementAgreement

/-!
# Runs that keep placements in agreement

The steps of the agreement of placements, event by event. When the result of a trace is applied, the
ends of the trace take over the intervals next to them (`TakesOver`) before the intervals are
recorded; without a checkpoint the two ends become one (`Unified`). A body allocation is joined to
the blocks of its loop, and a folded call gets two new objects.
-/

namespace Bao.Schematic

open RegionAllocation SchematicSolution

/-! ### The intervals of a trace -/

section Intervals

private theorem splitAtCheckpoint_append (c : Option CFGEdge) (l : List Block) :
    (splitAtCheckpoint c l).1 ++ (splitAtCheckpoint c l).2 = l := by
  induction l with
  | nil => rfl
  | cons b l ih =>
    cases l with
    | nil => rfl
    | cons b' l =>
      rw [splitAtCheckpoint]
      split_ifs
      · rfl
      · exact congrArg (b :: ·) ih

/-- The rest of a trace ends with its last block. -/
private theorem getLast?_splitAtCheckpoint (c : Option CFGEdge) (l : List Block) :
    (splitAtCheckpoint c l).2.getLast? = l.getLast? := by
  induction l with
  | nil => rfl
  | cons b l ih =>
    cases l with
    | nil => rfl
    | cons b' l =>
      rw [splitAtCheckpoint, List.getLast?_cons_cons]
      split_ifs
      · rfl
      · exact ih

private theorem splitAtCheckpoint_none (l : List Block) :
    (splitAtCheckpoint none l).2.head?.toList = (splitAtCheckpoint none l).2 := by
  induction l with
  | nil => rfl
  | cons b l ih =>
    cases l with
    | nil => rfl
    | cons b' l => simpa [splitAtCheckpoint] using ih

/-- A single interval has all blocks. -/
private theorem coverage_singleton (l : List Block) (alloc : RegionAllocation) :
    coverage l [] [alloc] = [(l, alloc)] := by
  rw [coverage, List.head?_nil, splitAtCheckpoint_none, splitAtCheckpoint_append]

/-- The first interval starts with the first block. -/
private theorem headD_mem_splitAtCheckpoint (c : Option CFGEdge) {l : List Block}
    (hl : 2 ≤ l.length) (d : Block) : l.headD d ∈ (splitAtCheckpoint c l).1 := by
  match l, hl with
  | b :: b' :: l, _ =>
    rw [splitAtCheckpoint]
    split_ifs <;> exact List.mem_cons_self

/-- **The last interval** has the last block, and no other interval has its allocation. -/
private theorem exists_coverage_append {l : List Block} {checkpoints : List CFGEdge} {back : Block}
    (hback : l.getLast? = some back) {allocations : List RegionAllocation}
    (hlength : checkpoints.length = allocations.length) :
    ∃ cover L, back ∈ L ∧ ∀ last, coverage l checkpoints (allocations ++ [last]) =
      cover ++ [(L, last)] := by
  induction allocations generalizing l checkpoints with
  | nil =>
    obtain rfl := List.length_eq_zero_iff.mp hlength
    exact ⟨[], l, List.mem_of_getLast? hback, fun last => coverage_singleton l last⟩
  | cons alloc allocations ih =>
    have htail : checkpoints.tail.length = allocations.length := by
      rw [List.length_tail, hlength, List.length_cons, Nat.add_sub_cancel]
    obtain ⟨cover, L, hmem, hcover⟩ := ih
      ((getLast?_splitAtCheckpoint checkpoints.head? l).trans hback) htail
    refine ⟨((splitAtCheckpoint checkpoints.head? l).1, alloc) :: cover, L, hmem, fun last => ?_⟩
    rw [List.cons_append, List.cons_append, ← hcover last]
    cases allocations <;> rfl

end Intervals

/-! ### The ends of a trace -/

section Ends

variable {s t u : SchematicSolution} {b front back : Block} {a : RegionAllocation}

theorem allocated_extendBlock_of_shares {c : Block} (h : s.Shares b c) (v : Value) :
    (s.extendBlock b a).allocated c v = (s.allocated c v).or (a.placementOf v) := by
  obtain ⟨r, hb, hc⟩ := h
  rw [allocated_of_blockAllocation ((congrFun (extendBlock_blockAllocation s b a) c).trans hc),
    placementOf_heap_extendBlock, if_pos hb, allocated_of_blockAllocation hc]

theorem allocated_extendBlock_of_not_shares {c : Block} (h : ¬s.Shares b c) (v : Value) :
    (s.extendBlock b a).allocated c v = s.allocated c v := by
  have hpoint := congrFun (extendBlock_blockAllocation s b a) c
  cases hc : s.blockAllocation c with
  | none => rw [allocated_of_none (hpoint.trans hc), allocated_of_none hc]
  | some r =>
    rw [allocated_of_blockAllocation (hpoint.trans hc), placementOf_heap_extendBlock,
      if_neg fun hb => h ⟨r, hb, hc⟩, allocated_of_blockAllocation hc]

theorem SchematicSolution.Shares.of_blockAllocation {c : Block} (h : s.Shares b c)
    (ht : t.blockAllocation = s.blockAllocation) : t.Shares b c := by
  obtain ⟨r, hb, hc⟩ := h
  exact ⟨r, ht ▸ hb, ht ▸ hc⟩

/-- **An end of the trace and its interval take over each other's variables**, if the end is joined
to the interval: all blocks that share the object of the end have the new allocation of the interval
then. -/
structure TakesOver (s t : SchematicSolution) (b : Block) (joined : Bool)
    (old new : RegionAllocation) : Prop where
  blockAllocation : t.blockAllocation = s.blockAllocation
  decidedPlacements : t.decidedPlacements = s.decidedPlacements
  nextRef : t.nextRef = s.nextRef
  shares : joined = true → ∀ c, s.Shares b c → ∀ v,
    t.allocated c v = new.placementOf v ∧
      new.placementOf v = (s.allocated c v).or (old.placementOf v)
  others : ∀ c, ¬(joined = true ∧ s.Shares b c) → ∀ v, t.allocated c v = s.allocated c v
  unchanged : joined = false ∨ s.blockAllocation b = none → new = old

theorem takesOver_extendEnd (s : SchematicSolution) (b : Block) (joined : Bool) {n : ℕ}
    {allocations : List RegionAllocation} (hn : n < allocations.length) :
    ∃ new, (s.extendEnd b joined n allocations).2 = allocations.set n new ∧
      TakesOver s (s.extendEnd b joined n allocations).1 b joined (allocations.getD n {}) new := by
  -- nothing is taken over unless the end has an object and joins
  have hself : allocations.set n (allocations.getD n {}) = allocations := by
    rw [List.getD_eq_getElem _ _ hn, List.set_getElem_self]
  rw [SchematicSolution.extendEnd]
  cases hb : s.blockAllocation b with
  | none =>
    refine ⟨_, hself.symm, rfl, rfl, rfl, fun _ c hc => ?_, fun _ _ _ => rfl, fun _ => rfl⟩
    obtain ⟨r, hr, -⟩ := hc
    cases hb.symm.trans hr
  | some r =>
    cases joined with
    | false =>
      exact ⟨_, hself.symm, rfl, rfl, rfl, fun h => absurd h Bool.false_ne_true,
        fun _ _ _ => rfl, fun _ => rfl⟩
    | true =>
      refine ⟨_, rfl, extendBlock_blockAllocation _ _ _, extendBlock_decidedPlacements _ _ _,
        extendBlock_nextRef _ _ _, fun _ c hc v => ?_, fun c hc v => ?_, ?_⟩
      · have hnew : (((s.extendBlock b (allocations.getD n {})).heap r).placementOf v) =
            (s.allocated c v).or ((allocations.getD n {}).placementOf v) := by
          obtain ⟨r', hr', hc'⟩ := hc
          obtain rfl : r = r' := Option.some.inj (hb.symm.trans hr')
          rw [placementOf_heap_extendBlock, if_pos hb, allocated_of_blockAllocation hc']
        exact ⟨(allocated_extendBlock_of_shares hc v).trans hnew.symm, hnew⟩
      · exact allocated_extendBlock_of_not_shares (fun h => hc ⟨rfl, h⟩) v
      · rintro (h | h)
        · cases h
        · cases hb.symm.trans h

namespace TakesOver

variable {joined : Bool} {old new : RegionAllocation}

/-- The new allocation of the interval. -/
theorem placementOf_new (h : TakesOver s t b joined old new) (v : Value) :
    new.placementOf v = old.placementOf v ∨
      joined = true ∧ new.placementOf v = (s.allocated b v).or (old.placementOf v) := by
  cases hb : s.blockAllocation b with
  | none => exact .inl (by rw [h.unchanged (.inr hb)])
  | some r =>
    cases joined with
    | false => exact .inl (by rw [h.unchanged (.inl rfl)])
    | true => exact .inr ⟨rfl, (h.shares rfl b ⟨r, hb, hb⟩ v).2⟩

/-- Nothing is taken away. -/
theorem eq_some (h : TakesOver s t b joined old new) {c : Block} {v : Value} {p : Placement}
    (hv : s.allocated c v = some p) : t.allocated c v = some p := by
  by_cases hc : joined = true ∧ s.Shares b c
  · obtain ⟨ht, hnew⟩ := h.shares hc.1 c hc.2 v
    rw [ht, hnew, hv, Option.some_or]
  · rw [h.others c hc, hv]

theorem isSome (h : TakesOver s t b joined old new) {c : Block} {v : Value}
    (hv : (s.allocated c v).isSome = true) : (t.allocated c v).isSome = true := by
  obtain ⟨p, hp⟩ := Option.isSome_iff_exists.mp hv
  rw [h.eq_some hp]
  rfl

/-- A block that has all variables of the interval keeps its allocation. -/
theorem eq_of_isSome (h : TakesOver s t b joined old new) {c : Block} {v : Value}
    (hc : joined = true → s.Shares b c → (old.placementOf v).isSome = true →
      (s.allocated c v).isSome = true) : t.allocated c v = s.allocated c v := by
  by_cases hshares : joined = true ∧ s.Shares b c
  · obtain ⟨ht, hnew⟩ := h.shares hshares.1 c hshares.2 v
    have hold := hc hshares.1 hshares.2
    rw [ht, hnew]
    cases hs : s.allocated c v with
    | some p => rfl
    | none =>
      rw [hs] at hold
      cases ho : old.placementOf v with
      | none => rfl
      | some p =>
        rw [ho] at hold
        cases hold rfl
  · exact h.others c hshares v

/-- With the new allocation of the interval a block is the same before and after. -/
theorem or_new (h : TakesOver s t b joined old new) (c : Block) (v : Value) :
    (s.allocated c v).or (new.placementOf v) = (t.allocated c v).or (new.placementOf v) := by
  by_cases hc : joined = true ∧ s.Shares b c
  · obtain ⟨ht, hnew⟩ := h.shares hc.1 c hc.2 v
    rw [ht, hnew, ← Option.or_assoc, Option.or_self, Option.or_self]
  · rw [h.others c hc]

end TakesOver

/-- The front adds what it has to its interval. -/
private theorem placedIn_front {result : RCGSolver.RCGResult} {trace F : List Block} {joined : Bool}
    {old new : RegionAllocation} (hstart : TakesOver s t (trace.headD .startFunc) joined old new)
    (hfront : trace.headD .startFunc ∈ F) {v : Value} (hv : (new.placementOf v).isSome = true) :
    PlacedIn s result trace (F, old) v := by
  rcases hstart.placementOf_new v with hnew | ⟨-, hnew⟩
  · exact .inl (hnew ▸ hv)
  · rw [hnew, Option.isSome_or, Bool.or_eq_true] at hv
    exact hv.elim (fun hv => .inr (.inl ⟨hfront, hv⟩)) .inl

/-- The back adds what it has when the front has taken over the first interval. -/
private theorem placedIn_back {result : RCGSolver.RCGResult} {trace : List Block} {joined : Bool}
    {first first' : RegionAllocation} {p : List Block × RegionAllocation}
    (hjoined : (result.selectedCheckpoints.head?.all fun (c : CFGEdge) =>
      decide (c.src ≠ trace.headD .startFunc)) = joined)
    (hfirst : result.allocations.headD {} = first)
    (hstart : TakesOver s t (trace.headD .startFunc) joined first first')
    (hback : trace.getLastD .endFunc ∈ p.1) {v : Value}
    (hv : (t.allocated (trace.getLastD .endFunc) v).isSome = true) :
    PlacedIn s result trace p v := by
  refine .inr (.inr ⟨hback, ?_⟩)
  by_cases hsame : joined = true ∧ s.Shares (trace.headD .startFunc) (trace.getLastD .endFunc)
  · obtain ⟨ht, hnew⟩ := hstart.shares hsame.1 _ hsame.2 v
    rw [ht, hnew, Option.isSome_or, Bool.or_eq_true] at hv
    exact hv.imp_right fun hv => ⟨hsame.2, hjoined.trans hsame.1, hfirst ▸ hv⟩
  · exact .inl (by rwa [hstart.others _ hsame] at hv)

/-- **Two ends in two intervals.** Outside its interval an end changes no real block. -/
private theorem awaiting_of_separate_ends {result : RCGSolver.RCGResult} {trace F L : List Block}
    {cover : List (List Block × RegionAllocation)} {first last first' last' : RegionAllocation}
    {joined' : Bool} (hagree : PlacementsAgree s) (hs : PointersExist s)
    (hfirst : result.allocations.headD {} = first)
    (hstart : TakesOver s t (trace.headD .startFunc) (result.selectedCheckpoints.head?.all
      fun (c : CFGEdge) => decide (c.src ≠ trace.headD .startFunc)) first first')
    (hend : TakesOver t u (trace.getLastD .endFunc) joined' last last')
    (hfront : trace.headD .startFunc ∈ F) (hback : trace.getLastD .endFunc ∈ L)
    (honce : (((F, first) :: (cover ++ [(L, last)])).map Prod.fst).Pairwise List.Disjoint)
    (hshared : ∀ p ∈ (F, first) :: (cover ++ [(L, last)]),
      AddsNothingOutside s p.1 (PlacedIn s result trace p)) :
    Awaiting u ((F, first') :: (cover ++ [(L, last')])) := by
  have hpoint : u.blockAllocation = s.blockAllocation :=
    hend.blockAllocation.trans hstart.blockAllocation
  have hdecided : ∀ bb v, u.decided (.real bb) v = s.allocated (.real bb) v := fun bb v => by
    rw [← hagree bb v, SchematicSolution.decided, hend.decidedPlacements, hstart.decidedPlacements]
    rfl
  have hF : (F, first) ∈ (F, first) :: (cover ++ [(L, last)]) := List.mem_cons_self
  have hL : (L, last) ∈ (F, first) :: (cover ++ [(L, last)]) := by simp
  have hFL : F.Disjoint L := (List.pairwise_cons.mp honce).1 L (by simp)
  have houtF : ∀ bb, Block.real bb ∉ F → ∀ v,
      t.allocated (.real bb) v = s.allocated (.real bb) v := fun bb hbb v =>
    hstart.eq_of_isSome fun _ hshares hv => hshared _ hF _ hfront bb hshares hbb v (.inl hv)
  have houtL : ∀ bb, Block.real bb ∉ L → ∀ v,
      u.allocated (.real bb) v = t.allocated (.real bb) v := fun bb hbb v =>
    hend.eq_of_isSome fun _ hshares hv => hstart.isSome
      (hshared _ hL _ hback bb (hshares.of_blockAllocation hstart.blockAllocation.symm) hbb v
        (.inl hv))
  -- the new allocation of the last interval
  have hlast' : ∀ v, (last'.placementOf v).isSome = true →
      PlacedIn s result trace (L, last) v := by
    intro v hv
    rcases hend.placementOf_new v with hnew | ⟨-, hnew⟩
    · exact .inl (hnew ▸ hv)
    · rw [hnew, Option.isSome_or, Bool.or_eq_true] at hv
      rcases hv with hv | hv
      · exact placedIn_back rfl hfirst hstart hback hv
      · exact .inl hv
  have hplaced : ∀ p ∈ (F, first') :: (cover ++ [(L, last')]), ∃ q ∈ (F, first) ::
      (cover ++ [(L, last)]), p.1 = q.1 ∧ ∀ v, (p.2.placementOf v).isSome = true →
        PlacedIn s result trace q v := by
    intro p hp
    simp only [List.mem_cons, List.mem_append, List.not_mem_nil, or_false] at hp
    rcases hp with rfl | hp | rfl
    · exact ⟨_, hF, rfl, fun v => placedIn_front hstart hfront⟩
    · exact ⟨p, by simp [hp], rfl, fun v hv => .inl hv⟩
    · exact ⟨_, hL, rfl, hlast'⟩
  refine ⟨fun c r hr => ?_, by simpa using honce, fun p hp b hb bb hshares hbb v hv => ?_,
    fun bb => ?_⟩
  · rw [hend.nextRef, hstart.nextRef]
    exact hs c r (hpoint ▸ hr)
  · obtain ⟨q, hq, hblocks, hadds⟩ := hplaced p hp
    rw [hblocks] at hb hbb
    exact hend.isSome (hstart.isSome (hshared q hq b hb bb
      (hshares.of_blockAllocation hpoint.symm) hbb v (hadds v hv)))
  · by_cases hbF : Block.real bb ∈ F
    · refine .inr ⟨(F, first'), by simp, hbF, fun v => ?_⟩
      rw [hdecided, hstart.or_new, houtL bb (fun hbL => hFL hbF hbL)]
    · by_cases hbL : Block.real bb ∈ L
      · refine .inr ⟨(L, last'), by simp, hbL, fun v => ?_⟩
        rw [hdecided, ← houtF bb hbF, hend.or_new]
      · exact .inl fun v => by rw [hdecided, houtL bb hbL, houtF bb hbF]

/-- **The two ends become one**: the blocks that share an object with an end have the allocation `a`
then, and the other blocks are as before. -/
structure Unified (s t : SchematicSolution) (front back : Block) (a : RegionAllocation) : Prop where
  decidedPlacements : t.decidedPlacements = s.decidedPlacements
  nextRef : t.nextRef = s.nextRef
  ends : ∀ c, s.Shares front c ∨ s.Shares back c → (∀ v, t.allocated c v = a.placementOf v) ∧
    (t.blockAllocation c = s.blockAllocation front ∨ t.blockAllocation c = s.blockAllocation back)
  others : ∀ c, ¬(s.Shares front c ∨ s.Shares back c) →
    (∀ v, t.allocated c v = s.allocated c v) ∧ t.blockAllocation c = s.blockAllocation c

theorem allocated_redirect (old new : AllocRef) (c : Block) (v : Value) :
    (s.redirect old new).allocated c v =
      if s.blockAllocation c = some old then (s.heap new).placementOf v else s.allocated c v := by
  have hpoint : (s.redirect old new).blockAllocation c =
      if s.blockAllocation c = some old then some new else s.blockAllocation c := rfl
  split_ifs at hpoint ⊢
  · exact allocated_of_blockAllocation hpoint v
  · rw [SchematicSolution.allocated, SchematicSolution.allocationOf, hpoint]
    rfl

/-- The ends before they become one: both are extended by the allocation `a₂` of the interval. -/
private structure BothExtended (s t : SchematicSolution) (front back : Block)
    (a₁ a₂ : RegionAllocation) : Prop where
  blockAllocation : t.blockAllocation = s.blockAllocation
  decidedPlacements : t.decidedPlacements = s.decidedPlacements
  nextRef : t.nextRef = s.nextRef
  atBack : ∀ c, s.Shares back c → ∀ v, t.allocated c v = a₂.placementOf v
  atFront : ∀ c, s.Shares front c → ¬s.Shares back c → ∀ v,
    t.allocated c v = (a₁.placementOf v).or (a₂.placementOf v)
  others : ∀ c, ¬(s.Shares front c ∨ s.Shares back c) → ∀ v, t.allocated c v = s.allocated c v

private theorem bothExtended_of_takesOver {a₀ a₁ a₂ : RegionAllocation}
    (hstart : TakesOver s t front true a₀ a₁) (hend : TakesOver t u back true a₁ a₂) :
    BothExtended s ((u.extendBlock front a₂).extendBlock back a₂) front back a₁ a₂ := by
  have ht : t.blockAllocation = s.blockAllocation := hstart.blockAllocation
  have hu : u.blockAllocation = s.blockAllocation := hend.blockAllocation.trans ht
  have hu₁ : (u.extendBlock front a₂).blockAllocation = s.blockAllocation :=
    (extendBlock_blockAllocation _ _ _).trans hu
  refine ⟨(extendBlock_blockAllocation _ _ _).trans hu₁, ?_, ?_, fun c hc v => ?_,
    fun c hc hnot v => ?_, fun c hc v => ?_⟩
  · rw [extendBlock_decidedPlacements, extendBlock_decidedPlacements, hend.decidedPlacements,
      hstart.decidedPlacements]
  · rw [extendBlock_nextRef, extendBlock_nextRef, hend.nextRef, hstart.nextRef]
  · have huc := (hend.shares rfl c (hc.of_blockAllocation ht) v).1
    rw [allocated_extendBlock_of_shares (hc.of_blockAllocation hu₁)]
    by_cases hfront : s.Shares front c
    · rw [allocated_extendBlock_of_shares (hfront.of_blockAllocation hu), huc, Option.or_self,
        Option.or_self]
    · rw [allocated_extendBlock_of_not_shares fun h => hfront (h.of_blockAllocation hu.symm), huc,
        Option.or_self]
  · rw [allocated_extendBlock_of_not_shares fun h => hnot (h.of_blockAllocation hu₁.symm),
      allocated_extendBlock_of_shares (hc.of_blockAllocation hu),
      hend.others c fun h => hnot (h.2.of_blockAllocation ht.symm), (hstart.shares rfl c hc v).1]
  · obtain ⟨hnot, hnot'⟩ := not_or.mp hc
    rw [allocated_extendBlock_of_not_shares fun h => hnot' (h.of_blockAllocation hu₁.symm),
      allocated_extendBlock_of_not_shares fun h => hnot (h.of_blockAllocation hu.symm),
      hend.others c fun h => hnot' (h.2.of_blockAllocation ht.symm),
      hstart.others c fun h => hnot h.2]

namespace BothExtended

variable {a₁ a₂ : RegionAllocation}

/-- No block has only the object of the front, or the back adds nothing to the front. -/
private theorem unified (h : BothExtended s t front back a₁ a₂)
    (hfront : ∀ c, s.Shares front c → ¬s.Shares back c → a₁ = a₂) : Unified s t front back a₂ := by
  refine ⟨h.decidedPlacements, h.nextRef, fun c hc => ?_,
    fun c hc => ⟨h.others c hc, congrFun h.blockAllocation c⟩⟩
  by_cases hback : s.Shares back c
  · refine ⟨h.atBack c hback, .inr ((congrFun h.blockAllocation c).trans ?_)⟩
    obtain ⟨r, hr, hr'⟩ := hback
    exact hr'.trans hr.symm
  · have hshares := hc.resolve_right hback
    refine ⟨fun v => ?_, .inl ((congrFun h.blockAllocation c).trans ?_)⟩
    · rw [h.atFront c hshares hback, hfront c hshares hback, Option.or_self]
    · obtain ⟨r, hr, hr'⟩ := hshares
      exact hr'.trans hr.symm

/-- The blocks with the object of the front get the object of the back. -/
private theorem unified_redirect (h : BothExtended s t front back a₁ a₂) {old new : AllocRef}
    (hold : s.blockAllocation front = some old) (hnew : s.blockAllocation back = some new) :
    Unified s (t.redirect old new) front back a₂ := by
  have hpoint := congrFun h.blockAllocation
  have hheap : ∀ v, (t.heap new).placementOf v = a₂.placementOf v := fun v =>
    (allocated_of_blockAllocation ((hpoint back).trans hnew) v).symm.trans
      (h.atBack back ⟨new, hnew, hnew⟩ v)
  have hredirect : ∀ c, (t.redirect old new).blockAllocation c =
      if s.blockAllocation c = some old then some new else s.blockAllocation c := fun c => by
    rw [← h.blockAllocation]
    rfl
  refine ⟨h.decidedPlacements, h.nextRef, fun c hc => ?_, fun c hc => ?_⟩
  · by_cases hc' : s.blockAllocation c = some old
    · refine ⟨fun v => ?_, .inr ((hredirect c).trans ((if_pos hc').trans hnew.symm))⟩
      rw [allocated_redirect, if_pos ((hpoint c).trans hc'), hheap]
    · have hshares : s.Shares back c := hc.resolve_left fun ⟨r, hr, hr'⟩ =>
        hc' (hr'.trans (hr.symm.trans hold))
      refine ⟨fun v => ?_, .inr ((hredirect c).trans ((if_neg hc').trans ?_))⟩
      · rw [allocated_redirect, if_neg fun hr => hc' ((hpoint c).symm.trans hr), h.atBack c hshares]
      · obtain ⟨r, hr, hr'⟩ := hshares
        exact hr'.trans hr.symm
  · have hc' : s.blockAllocation c ≠ some old := fun hr => hc (.inl ⟨old, hold, hr⟩)
    refine ⟨fun v => ?_, (hredirect c).trans (if_neg hc')⟩
    rw [allocated_redirect, if_neg fun hr => hc' ((hpoint c).symm.trans hr), h.others c hc]

end BothExtended

private theorem unified_unifyEnds {a₀ a₁ a₂ : RegionAllocation}
    (hstart : TakesOver s t front true a₀ a₁) (hend : TakesOver t u back true a₁ a₂) :
    Unified s (u.unifyEnds front back a₂) front back a₂ := by
  have hboth := bothExtended_of_takesOver hstart hend
  rw [unifyEnds]
  generalize (u.extendBlock front a₂).extendBlock back a₂ = w at *
  rw [hboth.blockAllocation]
  cases hf : s.blockAllocation front with
  | none =>
    refine hboth.unified fun c hc => ?_
    obtain ⟨r, hr, -⟩ := hc
    cases hf.symm.trans hr
  | some old =>
    cases hb : s.blockAllocation back with
    | none =>
      exact hboth.unified fun _ _ _ => (hend.unchanged (.inr
        ((congrFun hstart.blockAllocation back).trans hb))).symm
    | some new =>
      dsimp only
      split_ifs with hsame
      · -- the ends have one object already
        refine hboth.unified fun c hc hnot => absurd ?_ hnot
        obtain ⟨r, hr, hr'⟩ := hc
        exact ⟨r, by rw [hb, ← hsame, ← hf, hr], hr'⟩
      · exact hboth.unified_redirect hf hb

/-- What the one interval of two joined ends places. -/
private theorem placedIn_joined {result : RCGSolver.RCGResult} {trace : List Block}
    {a₀ a₁ a₂ : RegionAllocation} (hnone : result.selectedCheckpoints = [])
    (hfirst : result.allocations.headD {} = a₀)
    (hstart : TakesOver s t (trace.headD .startFunc) true a₀ a₁)
    (hend : TakesOver t u (trace.getLastD .endFunc) true a₁ a₂)
    (hfront : trace.headD .startFunc ∈ trace) (hback : trace.getLastD .endFunc ∈ trace) {v : Value}
    (hv : (a₂.placementOf v).isSome = true) : PlacedIn s result trace (trace, a₀) v := by
  rcases hend.placementOf_new v with hnew | ⟨-, hnew⟩
  · exact placedIn_front hstart hfront (hnew ▸ hv)
  · rw [hnew, Option.isSome_or, Bool.or_eq_true] at hv
    rcases hv with hv | hv
    · exact placedIn_back (by rw [hnone]; rfl) hfirst hstart hback hv
    · exact placedIn_front hstart hfront hv

/-- A block with the object of an end keeps its placements, if the back does not place them
differently. -/
private theorem placementOf_joined {c : Block} {a₀ a₁ a₂ : RegionAllocation}
    (hstart : TakesOver s t front true a₀ a₁) (hend : TakesOver t u back true a₁ a₂)
    (hc : s.Shares front c ∨ s.Shares back c) {v : Value} {p : Placement}
    (halike : s.Shares front c → ∀ q, s.allocated back v = some q → p = q)
    (hp : s.allocated c v = some p) : a₂.placementOf v = some p := by
  by_cases hshares : s.Shares back c
  · rw [(hend.shares rfl _ (hshares.of_blockAllocation hstart.blockAllocation) v).2,
      hstart.eq_some hp, Option.some_or]
  · have hshares' := hc.resolve_right hshares
    have hone : a₁.placementOf v = some p := by
      rw [(hstart.shares rfl _ hshares' v).2, hp, Option.some_or]
    have hother : ¬s.Shares front back := by
      rintro ⟨r, hr, hr'⟩
      obtain ⟨r', hr'', hc'⟩ := hshares'
      exact hshares ⟨r, hr', hc'.trans (hr''.symm.trans hr)⟩
    rcases hend.placementOf_new v with hnew | ⟨-, hnew⟩
    · rw [hnew, hone]
    · rw [hnew, hstart.others _ fun h => hother h.2]
      cases hq : s.allocated back v with
      | none => exact hone
      | some q => rw [halike hshares' q hq, Option.some_or]

/-- **Two ends that become one.** -/
private theorem awaiting_of_unified {trace : List Block} {a : RegionAllocation}
    {placed : Value → Prop} (hagree : PlacementsAgree s) (hs : PointersExist s)
    (hunified : Unified s t front back a) (hfront : front ∈ trace) (hback : back ∈ trace)
    (hshared : AddsNothingOutside s trace placed)
    (hplaced : ∀ v, (a.placementOf v).isSome = true → placed v)
    (hkeeps : ∀ bb, s.Shares front (.real bb) ∨ s.Shares back (.real bb) → ∀ v p,
      s.allocated (.real bb) v = some p → a.placementOf v = some p) :
    Awaiting t [(trace, a)] := by
  refine ⟨fun c r hr => ?_, List.pairwise_singleton _ _,
    List.forall_mem_singleton.mpr fun b hb bb hshares hbb v hv => ?_, fun bb => ?_⟩
  · rw [hunified.nextRef]
    by_cases hc : s.Shares front c ∨ s.Shares back c
    · rcases (hunified.ends c hc).2 with hpoint | hpoint
      · exact hs _ r (hpoint.symm.trans hr)
      · exact hs _ r (hpoint.symm.trans hr)
    · exact hs c r ((hunified.others c hc).2.symm.trans hr)
  · by_cases hend : s.Shares front (.real bb) ∨ s.Shares back (.real bb)
    · rwa [(hunified.ends _ hend).1]
    · obtain ⟨hsame, hpoint⟩ := hunified.others _ hend
      rw [hsame]
      refine hshared b hb bb ?_ hbb v (hplaced v hv)
      obtain ⟨r, hr, hr'⟩ := hshares
      rw [hpoint] at hr'
      by_cases hc : s.Shares front b ∨ s.Shares back b
      · -- then the block has the object of an end as well
        refine absurd ?_ hend
        rcases (hunified.ends b hc).2 with hb' | hb'
        · exact .inl ⟨r, hb'.symm.trans hr, hr'⟩
        · exact .inr ⟨r, hb'.symm.trans hr, hr'⟩
      · exact ⟨r, (hunified.others b hc).2.symm.trans hr, hr'⟩
  · have hdecided : ∀ v, t.decided (.real bb) v = s.allocated (.real bb) v := fun v => by
      rw [← hagree bb v, SchematicSolution.decided, hunified.decidedPlacements]
      rfl
    by_cases hend : s.Shares front (.real bb) ∨ s.Shares back (.real bb)
    · obtain ⟨hnew, -⟩ := hunified.ends _ hend
      have hfill : ∀ v, (s.allocated (.real bb) v).or (a.placementOf v) = a.placementOf v := by
        intro v
        cases hp : s.allocated (.real bb) v with
        | none => rfl
        | some p => rw [hkeeps bb hend v p hp, Option.some_or]
      by_cases hbb : Block.real bb ∈ trace
      · exact .inr ⟨_, List.mem_singleton_self _, hbb, fun v => by
          rw [hdecided, hnew, hfill, Option.or_self]⟩
      · -- nothing is added to a block outside
        refine .inl fun v => ?_
        rw [hdecided, hnew, ← hfill]
        cases hp : s.allocated (.real bb) v with
        | some p => rfl
        | none =>
          cases hq : a.placementOf v with
          | none => rfl
          | some q =>
            have hplaced' := hplaced v (by rw [hq]; rfl)
            have hsome : (s.allocated (.real bb) v).isSome = true := hend.elim
              (fun h => hshared _ hfront bb h hbb v hplaced')
              fun h => hshared _ hback bb h hbb v hplaced'
            rw [hp] at hsome
            cases hsome
    · exact .inl fun v => by rw [hdecided, (hunified.others _ hend).1]

/-- The ends of one interval. -/
private theorem extendBoundaries_single (s : SchematicSolution) (trace : List Block)
    (a₀ : RegionAllocation) : ∃ t u a₁ a₂,
      TakesOver s t (trace.headD .startFunc) true a₀ a₁ ∧
      TakesOver t u (trace.getLastD .endFunc) true a₁ a₂ ∧
      s.extendBoundaries trace [] [a₀] =
        (u.unifyEnds (trace.headD .startFunc) (trace.getLastD .endFunc) a₂, [a₂]) := by
  obtain ⟨a₁, h₁, hstart⟩ := takesOver_extendEnd s (trace.headD .startFunc) true
    (show 0 < [a₀].length from Nat.one_pos)
  obtain ⟨a₂, h₂, hend⟩ := takesOver_extendEnd
    (s.extendEnd (trace.headD .startFunc) true 0 [a₀]).1 (trace.getLastD .endFunc) true
    (show 0 < [a₁].length from Nat.one_pos)
  refine ⟨_, _, a₁, a₂, hstart, hend, ?_⟩
  simp only [SchematicSolution.extendBoundaries, List.isEmpty_cons, List.isEmpty_nil,
    Bool.false_eq_true, if_false, if_true, List.head?_nil, List.getLast?_nil, Option.all_none,
    h₁, h₂, List.set_cons_zero, List.length_singleton, Nat.sub_self, List.headD_cons]

/-- The ends of two intervals. -/
private theorem extendBoundaries_separate (s : SchematicSolution) (trace : List Block)
    {checkpoints : List CFGEdge} (hne : checkpoints ≠ []) (first : RegionAllocation)
    (middle : List RegionAllocation) (last : RegionAllocation) : ∃ t u joined first' last',
      TakesOver s t (trace.headD .startFunc) (checkpoints.head?.all fun (c : CFGEdge) =>
        decide (c.src ≠ trace.headD .startFunc)) first first' ∧
      TakesOver t u (trace.getLastD .endFunc) joined last last' ∧
      s.extendBoundaries trace checkpoints (first :: (middle ++ [last])) =
        (u, first' :: (middle ++ [last'])) := by
  obtain ⟨first', h₁, hstart⟩ := takesOver_extendEnd s (trace.headD .startFunc)
    (checkpoints.head?.all fun (c : CFGEdge) => decide (c.src ≠ trace.headD .startFunc))
    (show 0 < (first :: (middle ++ [last])).length from Nat.succ_pos _)
  generalize hp : s.extendEnd (trace.headD .startFunc) (checkpoints.head?.all
    fun (c : CFGEdge) => decide (c.src ≠ trace.headD .startFunc)) 0
      (first :: (middle ++ [last])) = p at *
  obtain ⟨last', h₂, hend⟩ := takesOver_extendEnd p.1 (trace.getLastD .endFunc)
    (checkpoints.getLast?.all fun (c : CFGEdge) => decide (c.dst ≠ trace.getLastD .endFunc))
    (show middle.length + 1 < (first' :: (middle ++ [last])).length by simp)
  have hold : (first' :: (middle ++ [last])).getD (middle.length + 1) {} = last := by simp
  have hsize : (first' :: (middle ++ [last])).length - 1 = middle.length + 1 := by simp
  rw [hold] at hend
  refine ⟨p.1, _, _, first', last', hstart, hend, ?_⟩
  simp only [SchematicSolution.extendBoundaries, hp, h₁, List.set_cons_zero, hsize]
  rw [if_neg (by simp), if_neg (by simpa using hne)]
  exact Prod.ext rfl (h₂.trans (by simp))

/-- **Extending the ends** prepares the recording of the intervals. -/
private theorem awaiting_extendBoundaries {result : RCGSolver.RCGResult} {trace : List Block}
    (hagree : PlacementsAgree s) (hs : PointersExist s) (hlength : 2 ≤ trace.length)
    (hcount : result.selectedCheckpoints.length + 1 = result.allocations.length)
    (h : AppliesAlone s result trace) :
    Awaiting (s.extendBoundaries trace result.selectedCheckpoints result.allocations).1
      (coverage trace result.selectedCheckpoints
        (s.extendBoundaries trace result.selectedCheckpoints result.allocations).2) := by
  obtain ⟨hshared, honce, halike⟩ := h
  have hlast : trace.getLast? = some (trace.getLastD .endFunc) := by
    rw [List.getLastD_eq_getLast?, List.getLast?_eq_some_getLast (List.ne_nil_of_length_pos
      (Nat.zero_lt_of_lt hlength))]
    rfl
  have hfront := headD_mem_splitAtCheckpoint result.selectedCheckpoints.head? hlength .startFunc
  obtain ⟨first, rest, hallocations⟩ := List.exists_cons_of_length_pos
    (l := result.allocations) (by omega)
  rw [hallocations, List.length_cons, Nat.add_right_cancel_iff] at hcount
  have hheadD : result.allocations.headD {} = first := by
    rw [hallocations]
    rfl
  rcases List.eq_nil_or_concat' rest with rfl | ⟨middle, last, rfl⟩
  · -- one interval: the two ends become one
    have hnone : result.selectedCheckpoints = [] := List.length_eq_zero_iff.mp hcount
    rw [hallocations, hnone, coverage_singleton] at hshared
    obtain ⟨t, u, a₁, a₂, hstart, hend, hextend⟩ := extendBoundaries_single s trace first
    rw [hallocations, hnone, hextend, coverage_singleton]
    have hfirst : trace.headD .startFunc ∈ trace := by
      obtain ⟨b, blocks, rfl⟩ := List.exists_cons_of_length_pos (Nat.zero_lt_of_lt hlength)
      exact List.mem_cons_self
    have hback := List.mem_of_getLast? hlast
    exact awaiting_of_unified hagree hs (unified_unifyEnds hstart hend) hfirst hback
      (hshared _ (List.mem_singleton_self _))
      (fun v => placedIn_joined hnone hheadD hstart hend hfirst hback)
      fun bb hbb v p hp => placementOf_joined hstart hend hbb
        (fun h q => halike hnone bb h v p q hp) hp
  · -- the ends are in two intervals
    rw [List.length_append, List.length_singleton] at hcount
    have hne : result.selectedCheckpoints ≠ [] := fun h => by simp [h] at hcount
    obtain ⟨cover, L, hback, hcover⟩ := exists_coverage_append
      ((getLast?_splitAtCheckpoint result.selectedCheckpoints.head? trace).trans hlast)
      (show result.selectedCheckpoints.tail.length = middle.length by
        rw [List.length_tail, hcount, Nat.add_sub_cancel])
    have hcoverage : ∀ a a', coverage trace result.selectedCheckpoints (a :: (middle ++ [a'])) =
        ((splitAtCheckpoint result.selectedCheckpoints.head? trace).1, a) ::
          (cover ++ [(L, a')]) := by
      intro a a'
      rw [← hcover a']
      cases middle <;> rfl
    obtain ⟨t, u, joined, first', last', hstart, hend, hextend⟩ :=
      extendBoundaries_separate s trace hne first middle last
    rw [hallocations, hextend, hcoverage]
    rw [hallocations, hcoverage] at honce hshared
    exact awaiting_of_separate_ends hagree hs hheadD hstart hend hfront hback honce hshared

end Ends

/-! ### Events -/

section Events

variable {s t : SchematicSolution}

/-- States with the same allocations have the same placements in them. -/
theorem allocated_of_same (h : SameAllocations s t) : t.allocated = s.allocated := by
  funext b v
  rw [SchematicSolution.allocated, SchematicSolution.allocationOf, h.blockAllocation, h.heap]
  rfl

theorem InAgreement.of_same (h : InAgreement s) (hst : SameAllocations s t) : InAgreement t := by
  refine ⟨fun b r hr => ?_, fun bb v => ?_⟩
  · rw [hst.nextRef]
    exact h.pointers b r (hst.blockAllocation ▸ hr)
  · rw [allocated_of_same hst, ← h.agree bb v, SchematicSolution.decided, hst.decidedPlacements]
    rfl

theorem InAgreement.empty : InAgreement {} := ⟨nofun, fun _ _ => rfl⟩

theorem AppliesAlone.of_same {result : RCGSolver.RCGResult} {trace : List Block}
    (h : AppliesAlone s result trace) (hst : SameAllocations s t) :
    AppliesAlone t result trace := by
  have hallocated := allocated_of_same hst
  have hshares : t.Shares = s.Shares := by
    funext b c
    rw [SchematicSolution.Shares, hst.blockAllocation]
    rfl
  have hplaced : PlacedIn t result trace = PlacedIn s result trace := by
    funext p v
    rw [PlacedIn, PlacedIn, hallocated, hshares]
  refine ⟨fun p hp => ?_, h.once, ?_⟩
  · rw [AddsNothingOutside, hshares, hallocated, hplaced]
    exact h.shared p hp
  · rw [hshares, hallocated]
    exact h.ends

/-- **A result is applied.** -/
theorem InAgreement.applyMemoryAllocation (hs : InAgreement s) {graph : SchematicGraph}
    {ctx : Context} {result : RCGSolver.RCGResult} {trace : List Block} (hlength : 2 ≤ trace.length)
    (hblocks : result.intervalBlocks.length = result.allocations.length)
    (hcount : result.selectedCheckpoints.length + 1 = result.allocations.length)
    (h : AppliesAlone s result trace) (loopScope : Option Loop) :
    InAgreement (s.applyMemoryAllocation graph ctx result trace loopScope) := by
  have hquiet := quiet_updateCheckpointType s graph trace result.selectedCheckpoints
  have hupdate := hs.of_same hquiet.toSameAllocations
  have happlies := h.of_same hquiet.toSameAllocations
  rw [SchematicSolution.applyMemoryAllocation]
  generalize s.updateCheckpointType graph trace result.selectedCheckpoints = t at *
  have hrecord : InAgreement ((t.extendBoundaries trace result.selectedCheckpoints
      result.allocations).1.recordAllocations trace result.selectedCheckpoints
        ((t.extendBoundaries trace result.selectedCheckpoints result.allocations).2.zip
          result.intervalBlocks) none) := by
    refine agree_recordAllocations (fun _ => rfl) ?_
    rw [List.map_fst_zip (by rw [length_extendBoundaries, hblocks])]
    exact awaiting_extendBoundaries hupdate.agree hupdate.pointers hlength hcount happlies
  have hforward := hrecord.of_same (quiet_seedForward graph ctx none (trace.headD .startFunc) true
    loopScope).toSameAllocations
  have hcheckpoints := hforward.of_same (quiet_seedCheckpoints graph ctx
    result.selectedCheckpoints loopScope).toSameAllocations
  exact hcheckpoints.of_same (quiet_seedBackward (trace.getLastD .endFunc) none
    loopScope).toSameAllocations

theorem decided_setPlacements (b c : Block) (p : ValueMap Placement) (v : Value) :
    (s.setPlacements b p).decided c v = if c = b then p.lookup v else s.decided c v := by
  by_cases hc : c = b
  · subst hc
    simp [SchematicSolution.decided, SchematicSolution.setPlacements]
  · simp [SchematicSolution.decided, SchematicSolution.setPlacements, hc]

/-- A block that is not real, or that gets the placements it has. -/
theorem InAgreement.setPlacements (hs : InAgreement s) {b : Block} {p : ValueMap Placement}
    (hp : ∀ bb, b = .real bb → ∀ v, p.lookup v = s.decided b v) :
    InAgreement (s.setPlacements b p) := by
  refine ⟨hs.pointers, fun bb v => ?_⟩
  rw [decided_setPlacements]
  split_ifs with hb
  · rw [hp bb hb.symm v, ← hb]
    exact hs.agree bb v
  · exact hs.agree bb v

/-- A block that is not real. -/
private theorem ne_real {b : Block} (hb : b.getLLVMBlock = none) (bb : BasicBlock) :
    b ≠ .real bb := by
  rintro rfl
  cases hb

/-- **A block that is not real is forgotten.** -/
theorem InAgreement.forget (hs : InAgreement s) {b : Block} (hb : b.getLLVMBlock = none) :
    InAgreement ((s.setPlacements b ∅).setBlockAllocation b none) := by
  have hplaced := hs.setPlacements (p := ∅) fun bb h => absurd h (ne_real hb bb)
  have hpoint : ∀ c, c ≠ b → ((s.setPlacements b ∅).setBlockAllocation b none).blockAllocation c =
      s.blockAllocation c := fun c hc => Function.update_of_ne hc _ _
  refine ⟨fun c r hr => ?_, fun bb v => ?_⟩
  · by_cases hc : c = b
    · subst hc
      simp [SchematicSolution.setBlockAllocation] at hr
    · exact hs.pointers c r ((hpoint c hc).symm.trans hr)
  · refine (hplaced.agree bb v).trans ?_
    rw [SchematicSolution.allocated, SchematicSolution.allocated, SchematicSolution.allocationOf,
      SchematicSolution.allocationOf, hpoint _ (ne_real hb bb).symm]
    rfl

/-- **A block gets an object of its own**, and the placements in it. -/
theorem InAgreement.give (hs : InAgreement s) (b : Block) {a : RegionAllocation}
    {p : ValueMap Placement} (hp : ∀ v, p.lookup v = a.placementOf v) :
    InAgreement (((s.makeShared a).setBlockAllocation b (some s.nextRef)).setPlacements b p) := by
  have hpoint : ∀ c, (((s.makeShared a).setBlockAllocation b (some s.nextRef)).setPlacements b
      p).blockAllocation c = if c = b then some s.nextRef else s.blockAllocation c := fun c =>
    Function.update_apply _ _ _ _
  refine ⟨fun c r hr => ?_, fun bb v => ?_⟩
  · rw [hpoint] at hr
    split_ifs at hr
    · exact Option.some.inj hr ▸ Nat.lt_succ_self _
    · exact Nat.lt_succ_of_lt (hs.pointers c r hr)
  · rw [decided_setPlacements]
    split_ifs with hb
    · rw [hp, allocated_of_blockAllocation ((hpoint _).trans (if_pos hb))]
      exact (placementOf_makeShared v).symm
    · refine (hs.agree bb v).trans ?_
      cases hr : s.blockAllocation (.real bb) with
      | none =>
        rw [allocated_of_none hr, allocated_of_none ((hpoint _).trans ((if_neg hb).trans hr))]
      | some r =>
        rw [allocated_of_blockAllocation hr,
          allocated_of_blockAllocation ((hpoint _).trans ((if_neg hb).trans hr))]
        exact congrArg (RegionAllocation.placementOf · v)
          (Function.update_of_ne (ne_of_lt (hs.pointers _ r hr)) _ _).symm

/-- **A call is folded.** -/
theorem InAgreement.foldCall (hs : InAgreement s) {ctx : Context} {graph : SchematicGraph}
    {S : CallSummary} (hS : ∀ v, S.sfPlacements.lookup v = S.sfAllocation.placementOf v ∧
      S.efPlacements.lookup v = S.efAllocation.placementOf v) (ic : IsolatedCall) :
    InAgreement (Schematic.foldCall ctx graph S ic s).2 := by
  have hblocks : InAgreement { s with
      functionCallBlocks := s.functionCallBlocks ++ [.real ic.entry, .real ic.exit] } :=
    ⟨hs.pointers, hs.agree⟩
  have hfold := (hblocks.give (.real ic.entry) fun v => (hS v).1).give (.real ic.exit)
    fun v => (hS v).2
  simp only [Schematic.foldCall]
  split
  · exact hfold.of_same ((quiet_setMeta _ _).trans ((quiet_setMeta _ _).trans
      (quiet_setCheckpointState _ _))).toSameAllocations
  · exact hfold.of_same (quiet_setCheckpointState _ _).toSameAllocations

/-- **The placements at the ends of a loop are filled**, with nothing new. -/
theorem InAgreement.resolveLoopBoundaryPlacements (hs : InAgreement s) {blocks : LoopBoundaryBlocks}
    (h : ∀ latch ∈ blocks.latchBlock,
      boundaryPlacementsDiffer (s.decidedPlacements blocks.headerBlock)
        (s.decidedPlacements latch) = true ∨
      ∀ v, (s.decided blocks.headerBlock v).isSome = (s.decided latch v).isSome) :
    InAgreement (s.resolveLoopBoundaryPlacements blocks).2 := by
  -- one end has no variable that the other one lacks
  have hfill : ∀ {d d' : Option Placement}, d.isSome = d'.isSome → d.or d' = d := by
    intro d d' hd
    cases d with
    | some p => rfl
    | none => exact Option.not_isSome_iff_eq_none.mp (by simp [← hd])
  obtain ⟨header, latchBlock, startSynth, endSynth⟩ := blocks
  cases latchBlock with
  | none =>
    simp only [SchematicSolution.resolveLoopBoundaryPlacements]
    split_ifs
    · exact hs
    · refine hs.setPlacements fun bb _ v => ?_
      rw [lookup_fillPlacements]
      exact Option.or_none
  | some latch =>
    simp only [SchematicSolution.resolveLoopBoundaryPlacements]
    split_ifs with hdiffer
    · exact hs
    · have hsame := (h latch rfl).resolve_left hdiffer
      have hheader : ∀ v, (fillPlacements (s.decidedPlacements header)
          (s.decidedPlacements latch)).lookup v = s.decided header v := fun v =>
        (lookup_fillPlacements _ _ v).trans (hfill (hsame v))
      refine (hs.setPlacements fun bb _ => hheader).setPlacements fun bb _ v => ?_
      have hlatch : (fillPlacements (s.decidedPlacements latch)
          (fillPlacements (s.decidedPlacements header) (s.decidedPlacements latch))).lookup v =
            s.decided latch v := by
        rw [lookup_fillPlacements, hheader]
        exact hfill (hsame v).symm
      rw [hlatch, decided_setPlacements]
      split_ifs with heq
      · rw [hheader, heq]
      · rfl

private theorem joins_resetLoopBody (s : SchematicSolution) (L : Loop) (body : RegionAllocation) :
    Joins (fun d a => a.or d) s.nextRef (s.makeShared body) (L.blocks.dedup.map .real)
      (s.resetLoopBody L body) := by
  have hmerge : ∀ d a : Option Placement, a.or (a.or d) = a.or d := fun d a => by
    rw [← Option.or_assoc, Option.or_self]
  rw [resetLoopBody, ← List.foldl_map (g := fun (s' : SchematicSolution) (b : Block) =>
    s'.resetBlock b s.nextRef body)]
  exact joins_foldl hmerge (fun _ _ hs => joins_resetBlock fun v =>
    (hs v).trans (placementOf_makeShared v)) (fun _ => rfl) _

/-- **A body allocation replaces the placements of its loop.** -/
theorem InAgreement.recompute {τ : PassState} (hτ : InAgreement τ.solution) (graph : SchematicGraph)
    {L : Loop} {body : RegionAllocation} (h : ReplacesAlone τ.solution L body) :
    InAgreement (τ.recompute graph L body) := by
  have hmem : ∀ bb, Block.real bb ∈ L.blocks.dedup.map Block.real ↔ bb ∈ L.blocks := fun bb => by
    simp
  have hjoin := joins_resetLoopBody τ.solution L body
  -- the reset joins the blocks of the body, all with the placements of `body`
  have hreset : InAgreement (τ.solution.resetLoopBody L body) := by
    refine ⟨hτ.pointers.joins hjoin, fun bb v => ?_⟩
    rw [decided_joins hjoin]
    split_ifs with hbb
    · rw [allocated_joins_of_mem hτ.pointers hjoin hbb, hτ.agree]
      cases hp : body.placementOf v with
      | none => exact Option.or_none.symm
      | some p =>
        cases hq : τ.solution.allocated (.real bb) v with
        | none => rfl
        | some q => rw [h.alike bb ((hmem bb).mp hbb) v p q hp hq]
    · rw [hτ.agree]
      refine (allocated_joins_of_notMem hτ.pointers hjoin hbb fun b hb r hr hr' hv => ?_).symm
      obtain ⟨bb', hbb', rfl⟩ := List.mem_map.mp hb
      refine h.shared _ (List.mem_map_of_mem (List.mem_dedup.mp hbb')) bb ⟨r, hr, hr'⟩ ?_ v hv
      intro hout
      exact hbb ((hmem bb).mpr (by simpa using hout))
  obtain ⟨s₁, hquiet, hrefresh⟩ := recompute_spec τ.ctx τ.solution graph L body
  have hset := hreset.of_same hquiet.toSameAllocations
  exact ((hset.setPlacements fun bb h => absurd h (ne_real rfl bb)).setPlacements fun bb h =>
    absurd h (ne_real rfl bb)).of_same hrefresh.toSameAllocations

/-- **One event** that keeps placements keeps the invariant. -/
theorem InAgreement.step {size : Value → ℕ} {params : SchematicParams} {σ τ : PassState}
    (hσ : InAgreement σ.solution) {e : PassEvent} (he : KeepsPlacements σ e)
    (hstep : PassStep size params σ e τ) : InAgreement τ.solution := by
  cases hstep with
  | function => exact .empty
  | fold => exact hσ.foldCall he _
  | apply hlength hsolve =>
    obtain ⟨hblocks, hcount⟩ := RCGSolver.solve_length (congrArg Prod.fst hsolve)
    exact hσ.applyMemoryAllocation (Nat.le_of_succ_le hlength) hblocks hcount he _
  | infeasible | header | capture => exact hσ
  | boundary hb => exact hσ.setPlacements fun bb h => absurd h (ne_real hb bb)
  | forget hb => exact hσ.forget hb
  | fill => exact hσ.resolveLoopBoundaryPlacements he
  | converge hrefs hchoice => exact hσ.recompute _ (hchoice ▸ he)
  | split => exact hσ.recompute _ he
  | decide => exact ⟨hσ.pointers, hσ.agree⟩

end Events

/-! ### Runs -/

/-- **Placements stay in agreement** in every run of the pass in which every event keeps them:
before every event and at the end. -/
theorem placements_agree_of_keeps {size : Value → ℕ} {params : SchematicParams} {ctx : Context}
    {log : List (PassState × PassEvent)} {τ : PassState}
    (hrun : PassRun size params { ctx := ctx } log τ)
    (hlog : ∀ entry ∈ log, KeepsPlacements entry.1 entry.2) :
    PlacementsAgree τ.solution ∧ ∀ entry ∈ log, PlacementsAgree entry.1.solution := by
  obtain ⟨hτ, hentries⟩ := hrun.invariant (I := fun σ => InAgreement σ.solution)
    (fun _ _ h hq => h.of_same hq.toSameAllocations) (fun _ _ _ h he hstep => h.step he hstep)
    hlog .empty
  exact ⟨hτ.agree, fun entry hentry => (hentries entry hentry).agree⟩

/-! ### The two ways through a diamond -/

/-- A global of two bytes. -/
def diamondVar : Value := ⟨0, true⟩

/-- The variable is stored five times in some blocks. -/
def diamondState (used : List BasicBlock) : SchematicStateAnalysis :=
  { candidates := [diamondVar]
    getLoadCount := fun _ _ => 0
    getStoreCount := fun bb v => if bb ∈ used ∧ v = diamondVar then 5 else 0
    getFirstOpIsLoad := fun bb _ => if bb ∈ used then some false else none
    getVarSizeBytes := fun v => if v = diamondVar then 2 else 0
    isPointerType := fun _ => false }

def diamondParams : SchematicParams :=
  { capacity := 1000
    E_pro := 10
    E_epi := 10
    N_reg := 0
    regStoreEnergy := 0
    regRestoreEnergy := 0
    nvmAccessPenalty := 10
    memStoreEnergyPerByte := 0
    memRestoreEnergyPerByte := 0
    vmCapacityBytes := 16
    loopIncrementCostNvm := 10
    callCost := 0 }

/-- Two ways lead from block 0 to block 3. -/
def diamondFunction (used : List BasicBlock) : FunctionInput :=
  { cfg := ⟨[0, 1, 2, 3], [(0, 1), (1, 3), (0, 2), (2, 3)], fun _ => 1⟩
    state := diamondState used
    functionPaths := [[.real 0, .real 1, .real 3], [.real 0, .real 2, .real 3]] }

def diamondContext (used : List BasicBlock) : Context :=
  ⟨(diamondFunction used).allNvmCost diamondParams, diamondState used, diamondParams, {}⟩

/-- The variable is stored in block 2 only. The trace through block 1 comes first, and the blocks on
it share one object. The trace through block 2 puts the variable in VM and extends that object from
block 0, so block 1 has the variable in its allocation and not among its placements. -/
theorem placements_disagree_diamond : ∃ log τ,
    PassRun (diamondState [2]).getVarSizeBytes diamondParams { ctx := diamondContext [2] } log τ ∧
      ¬PlacementsAgree τ.solution := by
  have hok : (solveFunction (diamondFunction [2]) diamondParams (fun _ => none)
      {}).isOk = true := by decide +kernel
  have hdecided : (solutionOf (solveFunction (diamondFunction [2]) diamondParams (fun _ => none)
      {})).decided (.real 1) diamondVar = none := by decide +kernel
  have hallocated : (solutionOf (solveFunction (diamondFunction [2]) diamondParams (fun _ => none)
      {})).allocated (.real 1) diamondVar = some .vm := by decide +kernel
  obtain ⟨ctx, A, hsolve, hA⟩ := exists_solutionOf hok
  obtain ⟨body, log, hrun⟩ := solveFunction_runs (diamondState [2]).getVarSizeBytes
    (σ := { ctx := diamondContext [2] }) rfl rfl (by simp) hsolve
  rw [← hA] at hdecided hallocated
  exact ⟨log, _, hrun, fun h => nomatch hdecided.symm.trans ((h 1 diamondVar).trans hallocated)⟩

/-- The two ways, the second one between the blocks that the first one fixes. -/
def leftTrace : List Block := [.startFunc, .real 0, .real 1, .real 3, .endFunc]

def rightTrace : List Block := [.real 0, .real 2, .real 3]

/-- The variable is stored on the left way only. -/
def leftSolved : Option RCGSolver.RCGResult × VMAddressTracker :=
  RCGSolver.solve ⟨leftTrace, {}, diamondContext [0, 1, 3]⟩ {}

def leftApplied : PassState :=
  { ctx := diamondContext [0, 1, 3]
    solution := leftSolved.1.elim {} fun result =>
      ({} : SchematicSolution).applyMemoryAllocation {} (diamondContext [0, 1, 3]) result
        leftTrace none
    tracker := leftSolved.2 }

def rightSolved : Option RCGSolver.RCGResult × VMAddressTracker :=
  RCGSolver.solve ⟨rightTrace, leftApplied.solution, diamondContext [0, 1, 3]⟩
    leftApplied.tracker

def rightApplied : PassState :=
  { ctx := diamondContext [0, 1, 3]
    solution := rightSolved.1.elim {} fun result =>
      leftApplied.solution.applyMemoryAllocation {} (diamondContext [0, 1, 3]) result rightTrace
        none
    tracker := rightSolved.2 }

/-- A variable that is placed is one of the keys. -/
private theorem mem_keys_of_isSome {a : RegionAllocation} {v : Value} :
    (a.placementOf v).isSome = true ↔ v ∈ a.vars.keys := by
  rw [RegionAllocation.placementOf, Option.isSome_map, AList.lookup_isSome]
  rfl

private theorem left_step {left : RCGSolver.RCGResult} (hleft : leftSolved.1 = some left) :
    PassStep (diamondState [0, 1, 3]).getVarSizeBytes diamondParams
      { ctx := diamondContext [0, 1, 3] } (.apply left leftTrace) leftApplied := by
  have hsolve : RCGSolver.solve ⟨leftTrace, {}, diamondContext [0, 1, 3]⟩ {} =
      (some left, leftSolved.2) := by
    rw [← hleft]
    rfl
  rw [leftApplied, hleft]
  exact .apply (by decide) hsolve

private theorem right_step {right : RCGSolver.RCGResult} (hright : rightSolved.1 = some right) :
    PassStep (diamondState [0, 1, 3]).getVarSizeBytes diamondParams leftApplied
      (.apply right rightTrace) rightApplied := by
  have hsolve : RCGSolver.solve ⟨rightTrace, leftApplied.solution, leftApplied.ctx⟩
      leftApplied.tracker = (some right, rightSolved.2) := by
    rw [← hright]
    rfl
  rw [rightApplied, hright]
  exact .apply (by decide) hsolve

/-- A trace without checkpoints is one interval. -/
private theorem once_of_single {result : RCGSolver.RCGResult} {trace : List Block}
    (hnone : result.selectedCheckpoints = []) {a : RegionAllocation}
    (ha : result.allocations = [a]) :
    ((coverage trace result.selectedCheckpoints result.allocations).map
      Prod.fst).Pairwise List.Disjoint := by
  rw [hnone, ha, coverage_singleton]
  exact List.pairwise_singleton _ _

/-- The trace on the right places one variable, which the object of its ends has already. -/
private theorem right_appliesAlone {right : RCGSolver.RCGResult}
    (hnone : right.selectedCheckpoints = []) {a : RegionAllocation}
    (ha : right.allocations = [a]) (hvars : a.vars.keys = [diamondVar]) :
    AppliesAlone leftApplied.solution right rightTrace := by
  have hpoint : rightTrace.map leftApplied.solution.blockAllocation = [some 0, none, some 0] := by
    decide +kernel
  have hkeys : (leftApplied.solution.heap 0).vars.keys = [diamondVar] := by decide +kernel
  obtain ⟨hstart, hrest⟩ := List.cons.inj hpoint
  obtain ⟨hmiddle, hrest⟩ := List.cons.inj hrest
  have hend : leftApplied.solution.blockAllocation (.real 3) = some 0 := (List.cons.inj hrest).1
  have hobject : ∀ b ∈ rightTrace, ∀ c, leftApplied.solution.Shares b c →
      leftApplied.solution.blockAllocation c = some 0 := by
    rintro b hb c ⟨r, hr, hr'⟩
    simp only [rightTrace, List.mem_cons, List.not_mem_nil, or_false] at hb
    rcases hb with rfl | rfl | rfl
    · exact hr'.trans (hr.symm.trans hstart)
    · cases hmiddle.symm.trans hr
    · exact hr'.trans (hr.symm.trans hend)
  have hplaced : ∀ b v, leftApplied.solution.blockAllocation b = some 0 →
      ((leftApplied.solution.allocated b v).isSome = true ↔ v = diamondVar) := by
    intro b v hb
    rw [allocated_of_blockAllocation hb, mem_keys_of_isSome, hkeys, List.mem_singleton]
  have hinterval : ∀ v, (a.placementOf v).isSome = true → v = diamondVar := by
    intro v hv
    rwa [mem_keys_of_isSome, hvars, List.mem_singleton] at hv
  refine ⟨?_, once_of_single hnone ha, fun _ bb hshares v p q hp hq => ?_⟩
  · rw [hnone, ha, coverage_singleton]
    refine List.forall_mem_singleton.mpr fun b hb bb hshares _ v hv => ?_
    refine (hplaced _ v (hobject b hb _ hshares)).mpr ?_
    rcases hv with hv | ⟨-, hv⟩ | ⟨-, hv | ⟨-, -, hv⟩⟩
    · exact hinterval v hv
    · exact (hplaced _ v hstart).mp hv
    · exact (hplaced _ v hend).mp hv
    · rw [ha] at hv
      exact hinterval v hv
  · -- both ends have the same object
    rw [allocated_of_blockAllocation (hobject _ List.mem_cons_self _ hshares)] at hp
    exact Option.some.inj (hp.symm.trans ((allocated_of_blockAllocation hend v).symm.trans hq))

/-- Where only the left way stores the variable, its blocks have it already when the trace on the
right extends their object. -/
theorem placements_agree_diamond :
    leftApplied.solution.Shares (.real 0) (.real 1) ∧ PlacementsAgree rightApplied.solution := by
  have hleft : leftSolved.1.map (fun r => (r.selectedCheckpoints, r.allocations.length)) =
      some ([], 1) := by decide +kernel
  have hright : rightSolved.1.map (fun r => (r.selectedCheckpoints,
      r.allocations.map fun a => a.vars.keys)) = some ([], [[diamondVar]]) := by decide +kernel
  have hshares : [leftApplied.solution.blockAllocation (.real 0),
      leftApplied.solution.blockAllocation (.real 1)] = [some 0, some 0] := by decide +kernel
  obtain ⟨left, hsolved, hleft⟩ := Option.map_eq_some_iff.mp hleft
  obtain ⟨right, hsolved', hright⟩ := Option.map_eq_some_iff.mp hright
  obtain ⟨hnone, hlength⟩ := Prod.mk.inj hleft
  obtain ⟨hnone', hallocations⟩ := Prod.mk.inj hright
  obtain ⟨a₀, ha₀⟩ := List.length_eq_one_iff.mp hlength
  obtain ⟨a, ha, hvars⟩ : ∃ a, right.allocations = [a] ∧ a.vars.keys = [diamondVar] := by
    obtain ⟨a, l, ha, hvars, hl⟩ := List.map_eq_cons_iff.mp hallocations
    exact ⟨a, by rw [ha, List.map_eq_nil_iff.mp hl], hvars⟩
  have hrun : PassRun (diamondState [0, 1, 3]).getVarSizeBytes diamondParams
      { ctx := diamondContext [0, 1, 3] } [({ ctx := diamondContext [0, 1, 3] },
        .apply left leftTrace), (leftApplied, .apply right rightTrace)] rightApplied :=
    .step (.refl _) (left_step hsolved) (.step (.refl _) (right_step hsolved') (.done (.refl _)))
  have hempty : ∀ b c, ¬SchematicSolution.Shares {} b c := fun b c ⟨r, hr, _⟩ => by cases hr
  have hnothing : AppliesAlone {} left leftTrace :=
    ⟨fun p _ b _ bb h => absurd h (hempty _ _), once_of_single hnone ha₀,
      fun _ bb h => absurd h (hempty _ _)⟩
  obtain ⟨hzero, hone⟩ := List.cons.inj hshares
  refine ⟨⟨0, hzero, (List.cons.inj hone).1⟩, (placements_agree_of_keeps hrun ?_).1⟩
  exact List.forall_mem_cons.mpr ⟨hnothing, List.forall_mem_singleton.mpr
    (right_appliesAlone hnone' ha hvars)⟩

end Bao.Schematic
