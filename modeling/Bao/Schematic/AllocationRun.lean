import Bao.Machine.LoggedRun
import Bao.Schematic.Extension
import Bao.Schematic.Instrumenter

/-!
# The analysis as a run of allocation actions

What decides the instrumentation of a back edge are the allocation objects, the pointers of the
blocks to them, the decided placements and the recorded loop decisions. The analyses change these in
six ways only: `Action`. Everything else they do (energies, checkpoint states, regions) is quiet.

A successful analysis is a run of such actions (`solveFunction_reaches` of `LoopRun`). Each entry
of the log of a run is an action with the state it starts from, so that a property of all states a
run passes through follows from what one action does to it.
-/

namespace Bao.Schematic

open RegionAllocation
open Bao.Machine

/-! ### Actions -/

/-- Where the body allocation of a loop decision comes from: the decided placements of the header,
or the convergence, with the objects it merged and their contents before it. -/
inductive Origin
  | placements
  | converged (heap : AllocRef → RegionAllocation) (refs : List AllocRef)

/-- What an analysis does to the allocations: the placements of a block, a new object, a pointer,
the extension of the object of a block, the unification of two objects, or a loop decision. -/
inductive Action
  | place (b : Block) (p : ValueMap Placement)
  | share (a : RegionAllocation)
  | point (b : Block) (r : Option AllocRef)
  | extend (b : Block) (source : RegionAllocation)
  | redirect (old new : AllocRef)
  | decide (header : Block) (d : LoopCheckpointDecision) (origin : Origin)

/-- The effect of an action. -/
def Action.run (s : SchematicSolution) : Action → SchematicSolution
  | .place b p => s.setPlacements b p
  | .share a => s.makeShared a
  | .point b r => s.setBlockAllocation b r
  | .extend b source => s.extendBlock b source
  | .redirect old new => s.redirect old new
  | .decide header d _ => s.setDecision header d

/-- Two states with the same objects, pointers, placements and loop decisions. -/
structure SameAllocations (s t : SchematicSolution) : Prop where
  heap : t.heap = s.heap
  blockAllocation : t.blockAllocation = s.blockAllocation
  decidedPlacements : t.decidedPlacements = s.decidedPlacements
  loopDecisions : t.loopDecisions = s.loopDecisions
  nextRef : t.nextRef = s.nextRef

/-- **A quiet change**: only energies and checkpoints differ, not even the list of regions. -/
structure Quiet (s t : SchematicSolution) : Prop extends SameAllocations s t where
  regions : t.regions = s.regions

/-- The body allocation holds the decided placements of the header. -/
def FromPlacements (s : SchematicSolution) (header : Block) (body : RegionAllocation) : Prop :=
  ∀ v, body.vars.lookup v =
    ((s.decidedPlacements header).lookup v).map fun p => { placement := p }

/-- The body allocation was chosen by the convergence: it merged the objects of the loop, the object
of the header first, and extended each of them by the choice. -/
structure FromConvergence (ctx : Context) (s : SchematicSolution) (header : Block)
    (body : RegionAllocation) (heap : AllocRef → RegionAllocation) (refs : List AllocRef) :
    Prop where
  chosen : ∃ accesses tracker, SavesAccesses accesses ∧ body =
    (chooseMemoryAllocationOf accesses ctx.state ctx.params none none (refs.map heap) tracker).1.1
  savesAll : ∀ r ∈ refs, (heap r).SavesAll
  lt_nextRef : ∀ r ∈ refs, r < s.nextRef
  extended : ∀ r ∈ refs, ∀ v, (s.heap r).vars.lookup v =
    ((heap r).vars.lookup v).or (body.vars.lookup v)
  header_first : ∀ r ∈ refs, s.blockAllocation header = some r → refs.head? = some r

/-- **What the code promises about an action**: the allocations it adds mark every variable for
saving, pointers lead to objects, and a decision has the origin it names. -/
def Action.Valid (ctx : Context) (s : SchematicSolution) : Action → Prop
  | .place _ _ => True
  | .share a => a.SavesAll
  | .point _ r => ∀ r' ∈ r, r' < s.nextRef
  | .extend _ source => source.SavesAll
  | .redirect _ new => new < s.nextRef
  | .decide header d origin =>
    match origin with
    | .placements => FromPlacements s header d.bodyAllocation
    | .converged heap refs => FromConvergence ctx s header d.bodyAllocation heap refs

theorem SameAllocations.refl (s : SchematicSolution) : SameAllocations s s :=
  ⟨rfl, rfl, rfl, rfl, rfl⟩

theorem SameAllocations.trans {s t u : SchematicSolution} (hst : SameAllocations s t)
    (htu : SameAllocations t u) : SameAllocations s u :=
  ⟨htu.heap.trans hst.heap, htu.blockAllocation.trans hst.blockAllocation,
    htu.decidedPlacements.trans hst.decidedPlacements, htu.loopDecisions.trans hst.loopDecisions,
    htu.nextRef.trans hst.nextRef⟩

instance : IsPreorder SchematicSolution SameAllocations where
  refl := .refl
  trans _ _ _ := .trans

/-- A valid action. -/
def Action.Step (ctx : Context) (s : SchematicSolution) (a : Action) (t : SchematicSolution) :
    Prop := a.Valid ctx s ∧ t = a.run s

/-- **A run** with its log: before each action, and after the last one, nothing happens to the
allocations. -/
abbrev Run (ctx : Context) :
    SchematicSolution → List (SchematicSolution × Action) → SchematicSolution → Prop :=
  LoggedRun SameAllocations (Action.Step ctx)

/-- Some run leads from one state to the other. -/
abbrev Reaches (ctx : Context) : SchematicSolution → SchematicSolution → Prop :=
  LoggedReach SameAllocations (Action.Step ctx)

/-! ### Objects -/

/-- Every object marks all its variables for saving, and pointers lead to objects. -/
structure WellAllocated (s : SchematicSolution) : Prop where
  savesAll : ∀ r, (s.heap r).SavesAll
  lt_nextRef : ∀ b, ∀ r ∈ s.blockAllocation b, r < s.nextRef

theorem WellAllocated.of_same {s t : SchematicSolution} (h : WellAllocated s)
    (hst : SameAllocations s t) : WellAllocated t := by
  refine ⟨fun r => ?_, fun b r hr => ?_⟩
  · rw [hst.heap]
    exact h.savesAll r
  · rw [hst.nextRef]
    exact h.lt_nextRef b r (hst.blockAllocation ▸ hr)

theorem WellAllocated.allocationOf {s : SchematicSolution} (h : WellAllocated s) {b : Block}
    {a : RegionAllocation} (ha : s.allocationOf b = some a) : a.SavesAll := by
  obtain ⟨r, -, rfl⟩ := Option.map_eq_some_iff.mp ha
  exact h.savesAll r

/-- The objects after an extension. -/
theorem heap_extendBlock (s : SchematicSolution) (b : Block) (source : RegionAllocation)
    (r : AllocRef) : (s.extendBlock b source).heap r =
      if s.blockAllocation b = some r then extendsAllocation (s.heap r) source else s.heap r := by
  rw [SchematicSolution.extendBlock]
  cases hb : s.blockAllocation b with
  | none => simp
  | some r' =>
    by_cases hr : r' = r
    · subst hr
      simp [SchematicSolution.setObject]
    · simp [SchematicSolution.setObject, Ne.symm hr, hr]

@[simp]
theorem extendBlock_blockAllocation (s : SchematicSolution) (b : Block)
    (source : RegionAllocation) :
    (s.extendBlock b source).blockAllocation = s.blockAllocation := by
  rw [SchematicSolution.extendBlock]
  cases s.blockAllocation b <;> rfl

@[simp]
theorem extendBlock_nextRef (s : SchematicSolution) (b : Block) (source : RegionAllocation) :
    (s.extendBlock b source).nextRef = s.nextRef := by
  rw [SchematicSolution.extendBlock]
  cases s.blockAllocation b <;> rfl

@[simp]
theorem extendBlock_decidedPlacements (s : SchematicSolution) (b : Block)
    (source : RegionAllocation) :
    (s.extendBlock b source).decidedPlacements = s.decidedPlacements := by
  rw [SchematicSolution.extendBlock]
  cases s.blockAllocation b <;> rfl

@[simp]
theorem extendBlock_loopDecisions (s : SchematicSolution) (b : Block) (source : RegionAllocation) :
    (s.extendBlock b source).loopDecisions = s.loopDecisions := by
  rw [SchematicSolution.extendBlock]
  cases s.blockAllocation b <;> rfl

@[simp]
theorem extendBlock_regions (s : SchematicSolution) (b : Block) (source : RegionAllocation) :
    (s.extendBlock b source).regions = s.regions := by
  rw [SchematicSolution.extendBlock]
  cases s.blockAllocation b <;> rfl

/-- A body allocation with the placements of a header marks all its variables for saving. -/
theorem FromPlacements.savesAll {s : SchematicSolution} {header : Block} {body : RegionAllocation}
    (h : FromPlacements s header body) : body.SavesAll := by
  intro v va hva
  rw [h, Option.map_eq_some_iff] at hva
  obtain ⟨p, -, rfl⟩ := hva
  rfl

/-- So does one that the convergence chose. -/
theorem FromConvergence.savesAll_body {ctx : Context} {s : SchematicSolution} {header : Block}
    {body : RegionAllocation} {heap : AllocRef → RegionAllocation} {refs : List AllocRef}
    (h : FromConvergence ctx s header body heap refs) : body.SavesAll := by
  obtain ⟨accesses, tracker, haccesses, rfl⟩ := h.chosen
  refine savesAll_chooseMemoryAllocationOf haccesses (by simp) (by simp) fun a ha => ?_
  obtain ⟨r, hr, rfl⟩ := List.mem_map.mp ha
  exact h.savesAll r hr

/-- An action keeps the objects in order. -/
theorem WellAllocated.run {ctx : Context} {s : SchematicSolution} {a : Action}
    (h : WellAllocated s) (ha : a.Valid ctx s) : WellAllocated (a.run s) := by
  cases a with
  | place b p => exact ⟨h.savesAll, h.lt_nextRef⟩
  | share a =>
    refine ⟨fun r => ?_, fun b r hr => Nat.lt_succ_of_lt (h.lt_nextRef b r hr)⟩
    have ha' : a.SavesAll := ha
    by_cases hr : r = s.nextRef
    · subst hr
      simpa [Action.run, SchematicSolution.makeShared, SchematicSolution.setObject] using ha'
    · simpa [Action.run, SchematicSolution.makeShared, SchematicSolution.setObject, hr] using
        h.savesAll r
  | point b r =>
    refine ⟨h.savesAll, fun c r' hr' => ?_⟩
    by_cases hc : c = b
    · subst hc
      exact ha r' (by simpa [Action.run, SchematicSolution.setBlockAllocation] using hr')
    · exact h.lt_nextRef c r' (by
        simpa [Action.run, SchematicSolution.setBlockAllocation, hc] using hr')
  | extend b source =>
    refine ⟨fun r => ?_, fun c r hr => ?_⟩
    · rw [Action.run, heap_extendBlock]
      split_ifs
      · exact savesAll_extendsAllocation (h.savesAll r) ha
      · exact h.savesAll r
    · rw [Action.run, extendBlock_blockAllocation] at hr
      rw [Action.run, extendBlock_nextRef]
      exact h.lt_nextRef c r hr
  | redirect old new =>
    refine ⟨h.savesAll, fun c r hr => ?_⟩
    simp only [Action.run, SchematicSolution.redirect] at hr
    split_ifs at hr
    · exact Option.some.inj hr ▸ ha
    · exact h.lt_nextRef c r hr
  | decide header d origin => exact ⟨h.savesAll, h.lt_nextRef⟩

theorem WellAllocated.of_reaches {ctx : Context} {s t : SchematicSolution} (h : WellAllocated s)
    (hst : Reaches ctx s t) : WellAllocated t := by
  refine hst.invariant (fun _ _ h hsame => h.of_same hsame) ?_ h
  rintro s a _ h ⟨ha, rfl⟩
  exact h.run ha

/-- **The body allocations of the loop decisions** mark their variables for saving. -/
def SavesBodies (s : SchematicSolution) : Prop :=
  ∀ b, ∀ d ∈ s.loopDecisions.lookup b, d.bodyAllocation.SavesAll

theorem savesBodies_empty : SavesBodies {} := by
  intro b d hd
  simp at hd

/-- An action keeps the body allocations in order. -/
theorem SavesBodies.run {ctx : Context} {s : SchematicSolution} {a : Action} (h : SavesBodies s)
    (ha : a.Valid ctx s) : SavesBodies (a.run s) := by
  cases a with
  | place b p => exact h
  | share a => exact h
  | point b r => exact h
  | extend b source => rwa [SavesBodies, Action.run, extendBlock_loopDecisions]
  | redirect old new => exact h
  | decide header d origin =>
    intro b d' hd'
    by_cases hb : b = header
    · subst hb
      obtain rfl : d = d' := by simpa [Action.run, SchematicSolution.setDecision] using hd'
      cases origin with
      | placements => exact FromPlacements.savesAll ha
      | converged heap refs => exact FromConvergence.savesAll_body ha
    · refine h b d' ?_
      simpa [Action.run, SchematicSolution.setDecision, AList.lookup_insert_ne hb] using hd'

theorem SavesBodies.of_reaches {ctx : Context} {s t : SchematicSolution} (h : SavesBodies s)
    (hst : Reaches ctx s t) : SavesBodies t := by
  refine hst.invariant (fun _ _ h hsame => by rwa [SavesBodies, hsame.loopDecisions]) ?_ h
  rintro s a _ h ⟨ha, rfl⟩
  exact h.run ha

/-! ### Composing runs -/

namespace Quiet

variable {s t u : SchematicSolution}

theorem refl (s : SchematicSolution) : Quiet s s := ⟨.refl s, rfl⟩

theorem trans (hst : Quiet s t) (htu : Quiet t u) : Quiet s u :=
  ⟨hst.toSameAllocations.trans htu.toSameAllocations, htu.regions.trans hst.regions⟩

/-- A fold of quiet steps is quiet. -/
theorem foldl {α : Type} {f : SchematicSolution → α → SchematicSolution} {l : List α}
    (hf : ∀ s, ∀ a ∈ l, Quiet s (f s a)) (s : SchematicSolution) : Quiet s (l.foldl f s) := by
  induction l generalizing s with
  | nil => exact refl s
  | cons a l ih =>
    exact (hf s a List.mem_cons_self).trans
      (ih (fun s b hb => hf s b (List.mem_cons_of_mem _ hb)) (f s a))

end Quiet

namespace Reaches

variable {ctx : Context} {s t u : SchematicSolution}

theorem refl (s : SchematicSolution) : Reaches ctx s s := LoggedReach.refl s

theorem trans (hst : Reaches ctx s t) (htu : Reaches ctx t u) : Reaches ctx s u :=
  LoggedReach.trans hst htu

theorem of_same (h : SameAllocations s t) : Reaches ctx s t := LoggedReach.of_quiet h

theorem of_action {a : Action} (ha : a.Valid ctx s) : Reaches ctx s (a.run s) :=
  LoggedReach.of_step ⟨ha, rfl⟩

theorem then_same (hst : Reaches ctx s t) (htu : SameAllocations t u) : Reaches ctx s u :=
  hst.trans (of_same htu)

theorem of_quiet (h : Quiet s t) : Reaches ctx s t := of_same h.toSameAllocations

theorem then_quiet (hst : Reaches ctx s t) (htu : Quiet t u) : Reaches ctx s u :=
  hst.trans (of_quiet htu)

theorem wellAllocated (hst : Reaches ctx s t) (h : WellAllocated s) : WellAllocated t :=
  h.of_reaches hst

end Reaches

end Bao.Schematic
