import Bao.Schematic.PassRun

/-!
# Offsets of VM variables

Every VM offset that a block's allocation stores should be the address that the tracker has recorded
for the variable. The invariant `Stored` says so for all blocks, and with it that nothing in VM is
unknown to the tracker, wherever the pass keeps placements. Every event keeps it but one: a split of
a loop body extends the blocks of the loop by an allocation that was numbered from zero.
-/

namespace Bao.Schematic

open Addressing RegionAllocation SchematicSolution

/-! ### Known variables -/

/-- A variable that is known has an address, and with `strict` the offset is that address. -/
def AtAddress (known : Value → Prop) (strict : Prop) (T : VMAddressTracker) (v : Value)
    (o : Option ℕ) : Prop :=
  known v ∧ ∃ a, T.getExistingAddress v = some a ∧ (strict → o = some a)

section AtAddress

variable {known : Value → Prop} {strict : Prop} {T T' : VMAddressTracker} {v : Value} {o : Option ℕ}

theorem AtAddress.mono (h : AtAddress known strict T v o) (hT : T.ExtendedBy T') :
    AtAddress known strict T' v o := by
  obtain ⟨hknown, a, ha, ho⟩ := h
  exact ⟨hknown, a, hT v a ha, ho⟩

theorem AtAddress.recorded (h : AtAddress known strict T v o) : AtAddress known False T v none := by
  obtain ⟨hknown, a, ha, -⟩ := h
  exact ⟨hknown, a, ha, False.elim⟩

theorem offsetOptional_atAddress : OffsetOptional (AtAddress known strict T) := by
  rintro v o ⟨hknown, a, ha, ho⟩
  exact ⟨hknown, a, ha, fun hstrict => absurd (ho hstrict) (by simp)⟩

end AtAddress

/-! ### Solutions -/

/-- **What a solution stores about VM variables**: `Q` of the variables and offsets in the
allocations of blocks, `K` of the variables that are in VM anywhere else. -/
structure SolutionStored (Q : Value → Option ℕ → Prop) (K : Value → Prop) (s : SchematicSolution) :
    Prop where
  lt_nextRef : ∀ b r, s.blockAllocation b = some r → r < s.nextRef
  blocks : ∀ b r, s.blockAllocation b = some r → (s.heap r).ForVM Q
  placements : ∀ b v, (s.decidedPlacements b).lookup v = some .vm → K v
  regions : ∀ R ∈ s.regions, R.allocation.ForVM fun v _ => K v
  decisions : ∀ header d, s.loopDecisions.lookup header = some d →
    d.bodyAllocation.ForVM fun v _ => K v

/-- **The variables that a reset adds** to the allocations of a loop, with the offsets they get. -/
def AddedByReset (s : SchematicSolution) (L : Loop) (body : RegionAllocation) (v : Value)
    (o : Option ℕ) : Prop :=
  ∃ va, body.vars.lookup v = some va ∧ va.placement = .vm ∧ body.vmOffsets.lookup v = o ∧
    ∃ bb ∈ L.blocks, ∀ a, s.allocationOf (.real bb) = some a → v ∉ a.vars

namespace SolutionStored

variable {Q Q' : Value → Option ℕ → Prop} {K K' : Value → Prop} {s t : SchematicSolution}

theorem empty : SolutionStored Q K {} := by
  refine ⟨?_, ?_, ?_, ?_, ?_⟩ <;> simp

theorem imp (h : SolutionStored Q K s) (hQ : ∀ v o, Q v o → Q' v o) (hK : ∀ v, K v → K' v) :
    SolutionStored Q' K' s :=
  ⟨h.lt_nextRef, fun b r hr => (h.blocks b r hr).imp hQ, fun b v hv => hK v (h.placements b v hv),
    fun R hR => (h.regions R hR).imp fun v _ => hK v,
    fun header d hd => (h.decisions header d hd).imp fun v _ => hK v⟩

theorem of_quiet (h : SolutionStored Q K s) (hq : Quiet s t) : SolutionStored Q K t := by
  obtain ⟨⟨hheap, hblock, hplaced, hdecisions, hnext⟩, hregions⟩ := hq
  refine ⟨?_, ?_, ?_, ?_, ?_⟩
  · rw [hblock, hnext]
    exact h.lt_nextRef
  · rw [hblock, hheap]
    exact h.blocks
  · rw [hplaced]
    exact h.placements
  · rw [hregions]
    exact h.regions
  · rw [hdecisions]
    exact h.decisions

theorem allocationOf (h : SolutionStored Q K s) {b : Block} {a : RegionAllocation}
    (ha : s.allocationOf b = some a) : a.ForVM Q := by
  obtain ⟨r, hr, rfl⟩ := Option.map_eq_some_iff.mp ha
  exact h.blocks b r hr

/-! #### Single changes -/

theorem setPlacements (h : SolutionStored Q K s) (b : Block) {p : ValueMap Placement}
    (hp : ∀ v, p.lookup v = some .vm → K v) : SolutionStored Q K (s.setPlacements b p) := by
  refine ⟨h.lt_nextRef, h.blocks, fun c v hv => ?_, h.regions, h.decisions⟩
  by_cases hc : c = b
  · subst hc
    exact hp v (by simpa [SchematicSolution.setPlacements] using hv)
  · exact h.placements c v (by simpa [SchematicSolution.setPlacements, hc] using hv)

theorem setBlockAllocation (h : SolutionStored Q K s) (b : Block) {r : Option AllocRef}
    (hr : ∀ r' ∈ r, r' < s.nextRef ∧ (s.heap r').ForVM Q) :
    SolutionStored Q K (s.setBlockAllocation b r) := by
  have hpoint : ∀ c r', (s.setBlockAllocation b r).blockAllocation c = some r' →
      r' ∈ r ∨ s.blockAllocation c = some r' := by
    intro c r' hc
    by_cases hcb : c = b
    · subst hcb
      exact .inl (by simpa [SchematicSolution.setBlockAllocation] using hc)
    · exact .inr (by simpa [SchematicSolution.setBlockAllocation, hcb] using hc)
  refine ⟨fun c r' hc => ?_, fun c r' hc => ?_, h.placements, h.regions, h.decisions⟩
  · rcases hpoint c r' hc with hr' | hc
    · exact (hr r' hr').1
    · exact h.lt_nextRef c r' hc
  · rcases hpoint c r' hc with hr' | hc
    · exact (hr r' hr').2
    · exact h.blocks c r' hc

theorem makeShared (h : SolutionStored Q K s) (a : RegionAllocation) :
    SolutionStored Q K (s.makeShared a) := by
  refine ⟨fun b r hr => Nat.lt_succ_of_lt (h.lt_nextRef b r hr), fun b r hr => ?_, h.placements,
    h.regions, h.decisions⟩
  have hne : r ≠ s.nextRef := ne_of_lt (h.lt_nextRef b r hr)
  have heq : (s.makeShared a).heap r = s.heap r := Function.update_of_ne hne _ _
  rw [heq]
  exact h.blocks b r hr

theorem setDecision (h : SolutionStored Q K s) (header : Block) {d : LoopCheckpointDecision}
    (hd : d.bodyAllocation.ForVM fun v _ => K v) : SolutionStored Q K (s.setDecision header d) := by
  refine ⟨h.lt_nextRef, h.blocks, h.placements, h.regions, fun b d' hb => ?_⟩
  by_cases hbh : b = header
  · subst hbh
    rw [SchematicSolution.setDecision, AList.lookup_insert, Option.some.injEq] at hb
    exact hb ▸ hd
  · rw [SchematicSolution.setDecision, AList.lookup_insert_ne hbh] at hb
    exact h.decisions b d' hb

theorem addRegion (h : SolutionStored Q K s) {R : RegionSolution}
    (hR : R.allocation.ForVM fun v _ => K v) :
    SolutionStored Q K { s with regions := s.regions ++ [R] } := by
  refine ⟨h.lt_nextRef, h.blocks, h.placements, fun R' hR' => ?_, h.decisions⟩
  rcases List.mem_append.mp hR' with hR' | hR'
  · exact h.regions R' hR'
  · rw [List.mem_singleton.mp hR']
    exact hR

theorem redirect (h : SolutionStored Q K s) (old : AllocRef) {new : AllocRef} {b : Block}
    (hnew : s.blockAllocation b = some new) : SolutionStored Q K (s.redirect old new) := by
  have hpoint : ∀ c r, (s.redirect old new).blockAllocation c = some r →
      ∃ c', s.blockAllocation c' = some r := by
    intro c r hc
    simp only [SchematicSolution.redirect] at hc
    split_ifs at hc
    · exact ⟨b, Option.some.inj hc ▸ hnew⟩
    · exact ⟨c, hc⟩
  refine ⟨fun c r hc => ?_, fun c r hc => ?_, h.placements, h.regions, h.decisions⟩
  · obtain ⟨c', hc'⟩ := hpoint c r hc
    exact h.lt_nextRef c' r hc'
  · obtain ⟨c', hc'⟩ := hpoint c r hc
    exact h.blocks c' r hc'

section Extend

variable (hQ : OffsetOptional Q)
include hQ

/-- The objects after an extension of the object of a block. -/
theorem heap_extendBlock {b : Block} {source : RegionAllocation}
    (hsource : ∀ r, s.blockAllocation b = some r → ∀ v va, source.vars.lookup v = some va →
      va.placement = .vm → v ∉ (s.heap r).vars → Q v (source.vmOffsets.lookup v)) {r : AllocRef}
    (hr : (s.heap r).ForVM Q) : ((s.extendBlock b source).heap r).ForVM Q := by
  rw [Schematic.heap_extendBlock]
  split_ifs with hb
  · exact forVM_extendsAllocation hQ hr (hsource r hb)
  · exact hr

theorem extendBlock (h : SolutionStored Q K s) {b : Block} {source : RegionAllocation}
    (hsource : ∀ r, s.blockAllocation b = some r → ∀ v va, source.vars.lookup v = some va →
      va.placement = .vm → v ∉ (s.heap r).vars → Q v (source.vmOffsets.lookup v)) :
    SolutionStored Q K (s.extendBlock b source) := by
  refine ⟨fun c r hc => ?_, fun c r hc => ?_, ?_, ?_, ?_⟩
  · rw [extendBlock_blockAllocation] at hc
    rw [extendBlock_nextRef]
    exact h.lt_nextRef c r hc
  · rw [extendBlock_blockAllocation] at hc
    exact heap_extendBlock hQ hsource (h.blocks c r hc)
  · rw [extendBlock_decidedPlacements]
    exact h.placements
  · rw [extendBlock_regions]
    exact h.regions
  · rw [extendBlock_loopDecisions]
    exact h.decisions

/-- An extension by an allocation with the property. -/
theorem extendBlock_of_forVM (h : SolutionStored Q K s) {b : Block} {source : RegionAllocation}
    (hsource : source.ForVM Q) : SolutionStored Q K (s.extendBlock b source) :=
  h.extendBlock hQ fun _ _ v va hv hvm _ => hsource v va hv hvm

end Extend

/-! #### Applying an RCG result -/

section Apply

variable (hQ : OffsetOptional Q) (hQK : ∀ v o, Q v o → K v)
include hQ hQK

omit hQK in
/-- Fixing a block; other objects keep the property as well. -/
theorem fixBlock (h : SolutionStored Q K s) (b : Block) {r : AllocRef} (hr : r < s.nextRef)
    (hheap : (s.heap r).ForVM Q) {vars : ValueMap VariableAllocation}
    (hvars : ∀ v va, vars.lookup v = some va → va.placement = .vm → K v) :
    SolutionStored Q K (s.fixBlock b r vars) ∧ ((s.fixBlock b r vars).heap r).ForVM Q := by
  have hplaced : ∀ v, (vars.walk.foldl (fun p e => if e.1 ∈ p then p else
      p.insert e.1 e.2.placement) (s.decidedPlacements b)).lookup v = some .vm → K v := by
    intro v hv
    rw [ValueMap.lookup_foldl_fill (fun va : VariableAllocation => va.placement),
      Option.or_eq_some_iff] at hv
    rcases hv with hv | ⟨-, hv⟩
    · exact h.placements b v hv
    · obtain ⟨e, he, hvm⟩ := Option.map_eq_some_iff.mp hv
      have hev : e.1 = v := by simpa using List.find?_some he
      exact hev ▸ hvars e.1 e.2 (ValueMap.mem_walk.mp (List.mem_of_find?_eq_some he)) hvm
  have hset : SolutionStored Q K ((s.setMeta b { s.blockMeta b with
    analyzed := true }).setPlacements b
      (vars.walk.foldl (fun p e => if e.1 ∈ p then p else p.insert e.1 e.2.placement)
        (s.decidedPlacements b))) := (h.of_quiet (quiet_setMeta b _)).setPlacements b hplaced
  simp only [SchematicSolution.fixBlock]
  split
  · exact ⟨hset.extendBlock_of_forVM hQ hheap,
      heap_extendBlock hQ (fun _ _ v va hv hvm _ => hheap v va hv hvm) hheap⟩
  · refine ⟨hset.setBlockAllocation b fun r' hr' => ?_, hheap⟩
    rw [← Option.mem_some_iff.mp hr']
    exact ⟨hr, hheap⟩

omit hQK in
theorem foldl_fixBlock {r : AllocRef} {vars : ValueMap VariableAllocation}
    (hvars : ∀ v va, vars.lookup v = some va → va.placement = .vm → K v) (blocks : List Block)
    {s : SchematicSolution} (h : SolutionStored Q K s) (hr : r < s.nextRef)
    (hheap : (s.heap r).ForVM Q) :
    SolutionStored Q K (blocks.foldl (fun s b => s.fixBlock b r vars) s) ∧
      ((blocks.foldl (fun s b => s.fixBlock b r vars) s).heap r).ForVM Q ∧
      (blocks.foldl (fun s b => s.fixBlock b r vars) s).nextRef = s.nextRef := by
  induction blocks generalizing s with
  | nil => exact ⟨h, hheap, rfl⟩
  | cons b blocks ih =>
    obtain ⟨hfix, hfixheap⟩ := h.fixBlock hQ b hr hheap hvars
    obtain ⟨hrest, hrestheap, hnext⟩ := ih hfix (by rwa [fixBlock_nextRef]) hfixheap
    exact ⟨hrest, hrestheap, hnext.trans (fixBlock_nextRef s b r vars)⟩

theorem recordAllocations {allocations : List (RegionAllocation × List Block)}
    (hl : ∀ p ∈ allocations, p.1.ForVM Q) {s : SchematicSolution} (h : SolutionStored Q K s)
    (rest : List Block) (checkpoints : List CFGEdge) {memoryAlloc : Option AllocRef}
    (hm : ∀ r ∈ memoryAlloc, r < s.nextRef ∧ (s.heap r).ForVM Q) :
    SolutionStored Q K (recordAllocations s rest checkpoints allocations memoryAlloc) := by
  induction allocations generalizing s rest checkpoints memoryAlloc with
  | nil =>
    cases memoryAlloc with
    | none => exact h
    | some r =>
      cases rest with
      | nil => exact h
      | cons b rest =>
        obtain ⟨hr, hheap⟩ := hm r rfl
        exact (h.fixBlock hQ b hr hheap fun v va hv hvm => hQK v _ (hheap v va hv hvm)).1
  | cons p allocations ih =>
    obtain ⟨alloc, blocks⟩ := p
    have halloc : alloc.ForVM Q := hl _ List.mem_cons_self
    have hK : ∀ v va, alloc.vars.lookup v = some va → va.placement = .vm → K v :=
      fun v va hv hvm => hQK v _ (halloc v va hv hvm)
    have hshared : ((s.makeShared alloc).heap s.nextRef).ForVM Q := by
      simpa [SchematicSolution.makeShared, setObject] using halloc
    rw [SchematicSolution.recordAllocations]
    obtain ⟨hfix, hheap, hnext⟩ := foldl_fixBlock hQ hK
      (splitAtCheckpoint checkpoints.head? rest).1 (h.makeShared alloc) (Nat.lt_succ_self _) hshared
    refine ih (fun q hq => hl q (List.mem_cons_of_mem _ hq)) (hfix.addRegion fun v va hv hvm =>
      hK v va hv hvm) _ _ fun r hr => ?_
    rw [← Option.mem_some_iff.mp hr]
    exact ⟨lt_of_lt_of_eq (Nat.lt_succ_self _) hnext.symm, hheap⟩

omit hQK in
/-- The extension at one end of a trace. -/
theorem extendEnd (h : SolutionStored Q K s) {allocations : List RegionAllocation}
    (hl : ∀ a ∈ allocations, a.ForVM Q) (b : Block) (noSeparation : Bool) (n : ℕ) :
    SolutionStored Q K (s.extendEnd b noSeparation n allocations).1 ∧
      ∀ a ∈ (s.extendEnd b noSeparation n allocations).2, a.ForVM Q := by
  have hgetD : (allocations.getD n {}).ForVM Q := by
    rw [List.getD_eq_getElem?_getD]
    cases hn : allocations[n]? with
    | none => exact forVM_empty
    | some a => exact hl a (List.mem_of_getElem? hn)
  rw [SchematicSolution.extendEnd]
  split
  next r hr =>
    split_ifs
    · have hext := h.extendBlock_of_forVM hQ (b := b) hgetD
      refine ⟨hext, fun a ha => ?_⟩
      rcases List.mem_or_eq_of_mem_set ha with ha | rfl
      · exact hl a ha
      · exact hext.blocks b r (by rwa [extendBlock_blockAllocation])
    · exact ⟨h, hl⟩
  next => exact ⟨h, hl⟩

omit hQK in
theorem unifyEnds (h : SolutionStored Q K s) (front back : Block) {alloc : RegionAllocation}
    (ha : alloc.ForVM Q) : SolutionStored Q K (s.unifyEnds front back alloc) := by
  have hext := (h.extendBlock_of_forVM hQ (b := front) ha).extendBlock_of_forVM hQ (b := back) ha
  simp only [SchematicSolution.unifyEnds]
  split
  next old new _ hnew =>
    split_ifs
    · exact hext
    · exact hext.redirect old hnew
  next => exact hext

omit hQK in
theorem extendBoundaries (h : SolutionStored Q K s) {allocations : List RegionAllocation}
    (hl : ∀ a ∈ allocations, a.ForVM Q) (trace : List Block) (selected : List CFGEdge) :
    SolutionStored Q K (s.extendBoundaries trace selected allocations).1 ∧
      ∀ a ∈ (s.extendBoundaries trace selected allocations).2, a.ForVM Q := by
  simp only [SchematicSolution.extendBoundaries]
  split_ifs
  · exact ⟨h, hl⟩
  all_goals
    have hp := h.extendEnd hQ hl (trace.headD .startFunc)
      (selected.head?.all fun (c : CFGEdge) => decide (c.src ≠ trace.headD .startFunc)) 0
    have hq := fun n => hp.1.extendEnd hQ hp.2 (trace.getLastD .endFunc)
      (selected.getLast?.all fun (c : CFGEdge) => decide (c.dst ≠ trace.getLastD .endFunc)) n
  · refine ⟨(hq _).1.unifyEnds hQ _ _ ?_, (hq _).2⟩
    generalize hall : (SchematicSolution.extendEnd _ _ _ _ _).2 = all
    have hall' : ∀ a ∈ all, a.ForVM Q := hall ▸ (hq _).2
    cases all with
    | nil => exact forVM_empty
    | cons a all => exact hall' a List.mem_cons_self
  · exact ⟨(hq _).1, (hq _).2⟩

/-- **`applyMemoryAllocation`** keeps what is stored, if the allocations it is given have it. -/
theorem applyMemoryAllocation {graph : SchematicGraph} {ctx : Context}
    {result : RCGSolver.RCGResult} (h : SolutionStored Q K s)
    (hl : ∀ a ∈ result.allocations, a.ForVM Q) (trace : List Block) (loopScope : Option Loop) :
    SolutionStored Q K (s.applyMemoryAllocation graph ctx result trace loopScope) := by
  have hupdate := h.of_quiet (quiet_updateCheckpointType s graph trace result.selectedCheckpoints)
  obtain ⟨hext, hall⟩ := hupdate.extendBoundaries hQ hl trace result.selectedCheckpoints
  have hrecord := hext.recordAllocations hQ hQK
    (fun p (hp : p ∈ List.zip _ result.intervalBlocks) => hall p.1 (List.of_mem_zip hp).1) trace
    result.selectedCheckpoints (fun r (hr : r ∈ none) => by simp at hr)
  have hforward := hrecord.of_quiet (quiet_seedForward graph ctx none (trace.headD .startFunc) true
    loopScope)
  have hcheckpoints := hforward.of_quiet (quiet_seedCheckpoints graph ctx
    result.selectedCheckpoints loopScope)
  exact hcheckpoints.of_quiet (quiet_seedBackward (trace.getLastD .endFunc) none loopScope)

end Apply

/-! #### Loops -/

/-- What holds in the middle of a reset, when some blocks have been done. -/
private structure Resetting (Q : Value → Option ℕ → Prop) (K : Value → Prop) (s : SchematicSolution)
    (body : RegionAllocation) (done : List BasicBlock) (t : SchematicSolution) : Prop where
  stored : SolutionStored Q K t
  shared : t.heap s.nextRef = body
  nextRef : t.nextRef = s.nextRef + 1
  grows : ∀ r, r ≠ s.nextRef → ∀ v ∈ (s.heap r).vars, v ∈ (t.heap r).vars
  untouched : ∀ bb, bb ∉ done → t.blockAllocation (.real bb) = s.blockAllocation (.real bb)

section Reset

variable (hQ : OffsetOptional Q) {L : Loop} {body : RegionAllocation}
  (hs : SolutionStored Q K s) (hbody : body.ForVM fun v _ => K v)
  (hadded : ∀ v o, AddedByReset s L body v o → Q v o)
include hQ hs hbody hadded

private theorem Resetting.step {done : List BasicBlock} (h : Resetting Q K s body done t)
    {bb : BasicBlock} (hbb : bb ∈ L.blocks) (hnew : bb ∉ done) :
    Resetting Q K s body (bb :: done) (t.resetBlock (.real bb) s.nextRef body) := by
  have hplaced : ∀ v, (body.vars.walk.foldl (fun p e => p.insert e.1 e.2.placement)
      (t.decidedPlacements (.real bb))).lookup v = some .vm → K v := by
    intro v hv
    rw [ValueMap.lookup_foldl_insert (fun va : VariableAllocation => va.placement),
      Option.or_eq_some_iff] at hv
    rcases hv with hv | ⟨-, hv⟩
    · obtain ⟨va, hva, hvm⟩ := Option.map_eq_some_iff.mp hv
      exact hbody v va hva hvm
    · exact h.stored.placements _ v hv
  have hset := (h.stored.of_quiet (quiet_setMeta (.real bb) { t.blockMeta (.real bb) with
    analyzed := true, E_left := ⊤, E_to_leave := 0 })).setPlacements (.real bb) hplaced
  have hpointer := h.untouched bb hnew
  have hrest : ∀ bb', bb' ∉ bb :: done → bb' ∉ done := fun bb' h hmem =>
    h (List.mem_cons_of_mem _ hmem)
  simp only [resetBlock]
  split
  next r hr =>
    have hr' : s.blockAllocation (.real bb) = some r := hpointer.symm.trans hr
    have hne : r ≠ s.nextRef := ne_of_lt (hs.lt_nextRef _ r hr')
    refine ⟨hset.extendBlock hQ fun r' hr'' v va hv hvm hnotMem => ?_, ?_, ?_,
      fun r' hr'' v hv => ?_,
      fun bb' hbb' => ?_⟩
    · -- what is added to the object was missing before the reset as well
      obtain rfl : r' = r := Option.some.inj (hr''.symm.trans hr)
      have hv' : body.vars.lookup v = some va := h.shared ▸ hv
      have hoff : (t.heap s.nextRef).vmOffsets.lookup v = body.vmOffsets.lookup v := by
        rw [h.shared]
      refine hoff.symm ▸ hadded v _ ⟨va, hv', hvm, rfl, bb, hbb, fun a ha hmem => hnotMem ?_⟩
      obtain ⟨r'', hpoint, rfl⟩ := Option.map_eq_some_iff.mp ha
      obtain rfl : r'' = r' := Option.some.inj (hpoint.symm.trans hr')
      exact h.grows r'' hne v hmem
    · rw [Schematic.heap_extendBlock, if_neg fun heq => hne (Option.some.inj (hr.symm.trans heq))]
      exact h.shared
    · exact (extendBlock_nextRef _ _ _).trans h.nextRef
    · rw [Schematic.heap_extendBlock]
      split_ifs
      · refine AList.lookup_isSome.mp ?_
        obtain ⟨va, hva⟩ := Option.isSome_iff_exists.mp
          (AList.lookup_isSome.mpr (h.grows r' hr'' v hv))
        rw [lookup_extendsAllocation]
        exact Option.isSome_iff_exists.mpr ⟨va, by
          rw [show ((t.setMeta (.real bb) _).setPlacements (.real bb) _).heap r' =
            t.heap r' from rfl,
            hva, Option.some_or]⟩
      · exact h.grows r' hr'' v hv
    · rw [extendBlock_blockAllocation]
      exact h.untouched bb' (hrest bb' hbb')
  next hnone =>
    have hnone' : s.blockAllocation (.real bb) = none := hpointer.symm.trans hnone
    refine ⟨hset.setBlockAllocation _ fun r hr => ?_, h.shared, h.nextRef, h.grows,
      fun bb' hbb' => ?_⟩
    · rw [← Option.mem_some_iff.mp hr]
      refine ⟨lt_of_lt_of_eq (Nat.lt_succ_self _) h.nextRef.symm, fun v va hv hvm => ?_⟩
      have hshared : ((t.setMeta (.real bb) { t.blockMeta (.real bb) with
          analyzed := true, E_left := ⊤, E_to_leave := 0 }).setPlacements (.real bb)
          (body.vars.walk.foldl (fun p e => p.insert e.1 e.2.placement)
            (t.decidedPlacements (.real bb)))).heap s.nextRef = body := h.shared
      rw [hshared] at hv ⊢
      refine hadded v _ ⟨va, hv, hvm, rfl, bb, hbb, fun a ha => ?_⟩
      rw [SchematicSolution.allocationOf, hnone'] at ha
      cases ha
    · have hne : Block.real bb' ≠ Block.real bb := by
        rintro ⟨⟩
        exact hbb' List.mem_cons_self
      exact (Function.update_of_ne hne _ _).trans (h.untouched bb' (hrest bb' hbb'))

/-- **A reset of a loop body** keeps what is stored, if what it adds to a block has the property. -/
theorem resetLoopBody : SolutionStored Q K (s.resetLoopBody L body) := by
  have hinit : Resetting Q K s body [] (s.makeShared body) := by
    refine ⟨hs.makeShared body, by simp [SchematicSolution.makeShared, setObject], rfl,
      fun r hr v hv => ?_, fun _ _ => rfl⟩
    simpa [SchematicSolution.makeShared, setObject, hr] using hv
  have hfold : ∀ (rest done : List BasicBlock) (t : SchematicSolution),
    (∀ bb ∈ rest, bb ∈ L.blocks) →
      rest.Nodup → (∀ bb ∈ rest, bb ∉ done) → Resetting Q K s body done t →
      SolutionStored Q K (rest.foldl (fun t bb => t.resetBlock (.real bb) s.nextRef body) t) := by
    intro rest
    induction rest with
    | nil => exact fun done t _ _ _ h => h.stored
    | cons bb rest ih =>
      intro done t hmem hnodup hdone h
      obtain ⟨hbb, hrest⟩ := List.forall_mem_cons.mp hmem
      obtain ⟨hnotMem, hnodup⟩ := List.nodup_cons.mp hnodup
      refine ih (bb :: done) _ hrest hnodup (fun bb' hbb' hin => ?_)
        (h.step hQ hs hbody hadded hbb (hdone bb List.mem_cons_self))
      rcases List.mem_cons.mp hin with rfl | hin
      · exact hnotMem hbb'
      · exact hdone bb' (List.mem_cons_of_mem _ hbb') hin
  exact hfold L.blocks.dedup [] _ (fun bb hbb => List.mem_dedup.mp hbb) (List.nodup_dedup _)
    (by simp) hinit

theorem recompute {τ : PassState} (hτ : τ.solution = s) (graph : SchematicGraph) :
    SolutionStored Q K (τ.recompute graph L body) := by
  obtain ⟨s₁, hquiet, hrefresh⟩ := recompute_spec τ.ctx s graph L body
  have h₁ := (resetLoopBody hQ hs hbody hadded).of_quiet hquiet
  have hheader := h₁.placements (.real L.header)
  have h₂ := (h₁.setPlacements (.startLoop L.header) hheader).setPlacements (.endLoop L.header)
    hheader
  have h₃ := h₂.of_quiet hrefresh
  rw [PassState.recompute, hτ]
  exact h₃

end Reset

theorem resolveLoopBoundaryPlacements (h : SolutionStored Q K s) (blocks : LoopBoundaryBlocks) :
    SolutionStored Q K (s.resolveLoopBoundaryPlacements blocks).2 := by
  have hfill : ∀ {p p' : ValueMap Placement}, (∀ v, p.lookup v = some .vm → K v) →
      (∀ v, p'.lookup v = some .vm → K v) → ∀ v, (fillPlacements p p').lookup v = some .vm →
        K v := by
    intro p p' hp hp' v hv
    rw [lookup_fillPlacements, Option.or_eq_some_iff] at hv
    rcases hv with hv | ⟨-, hv⟩
    · exact hp v hv
    · exact hp' v hv
  have hheader := h.placements blocks.headerBlock
  obtain ⟨header, latchBlock, startSynth, endSynth⟩ := blocks
  cases latchBlock with
  | none =>
    simp only [SchematicSolution.resolveLoopBoundaryPlacements]
    split_ifs
    · exact h
    · exact h.setPlacements _ (hfill hheader (by simp))
  | some latch =>
    have hlatch := h.placements latch
    simp only [SchematicSolution.resolveLoopBoundaryPlacements]
    split_ifs
    · exact h
    · exact (h.setPlacements _ (hfill hheader hlatch)).setPlacements _
        (hfill hlatch (hfill hheader hlatch))

/-! #### Calls -/

/-- A new object for a block. -/
private theorem share (h : SolutionStored Q K s) {a : RegionAllocation}
    (ha : a.ForVM Q) (b : Block) :
    SolutionStored Q K ((s.makeShared a).setBlockAllocation b (some s.nextRef)) := by
  refine (h.makeShared a).setBlockAllocation b fun r hr => ?_
  rw [← Option.mem_some_iff.mp hr]
  exact ⟨Nat.lt_succ_self _, by simpa [SchematicSolution.makeShared, setObject] using ha⟩

theorem foldCall (h : SolutionStored Q K s) {ctx : Context} {graph : SchematicGraph}
    {S : CallSummary}
    (hsf : S.sfAllocation.ForVM Q) (hef : S.efAllocation.ForVM Q)
    (hsfp : ∀ v, S.sfPlacements.lookup v = some .vm → K v)
    (hefp : ∀ v, S.efPlacements.lookup v = some .vm → K v) (ic : IsolatedCall) :
    SolutionStored Q K (Schematic.foldCall ctx graph S ic s).2 := by
  have hblocks : Quiet s { s with
      functionCallBlocks := s.functionCallBlocks ++ [.real ic.entry, .real ic.exit] } :=
    ⟨⟨rfl, rfl, rfl, rfl, rfl⟩, rfl⟩
  have hfold := ((((h.of_quiet hblocks).share hsf (.real ic.entry)).share hef
    (.real ic.exit)).setPlacements (.real ic.entry) hsfp).setPlacements (.real ic.exit) hefp
  simp only [Schematic.foldCall]
  split
  · exact hfold.of_quiet ((quiet_setMeta _ _).trans ((quiet_setMeta _ _).trans
      (quiet_setCheckpointState _ _)))
  · exact hfold.of_quiet (quiet_setCheckpointState _ _)

end SolutionStored

/-! ### Choosing and solving -/

section Choose

variable {size : Value → ℕ} {params : SchematicParams} {known : Value → Prop} {strict : Prop}
  (hsize : ∀ v, size v < 2 ^ 31) (hcapacity : params.vmCapacityBytes < 2 ^ 31)
include hsize hcapacity

/-- A choice places variables at their addresses, if its inputs do. -/
theorem atAddress_chooseMemoryAllocationOf {state : SchematicStateAnalysis}
    (hsized : state.Sized size) (hknown : ∀ v ∈ state.candidates, known v)
    (accesses : ValueMap VariableAccessEstimate) (startAlloc endAlloc : Option RegionAllocation)
    {allocations : List RegionAllocation} {T : VMAddressTracker}
    (hT : T.Fits size params.vmCapacityBytes)
    (hs : ∀ a ∈ startAlloc, a.ForVM (AtAddress known strict T))
    (he : ∀ a ∈ endAlloc, a.ForVM (AtAddress known strict T))
    (hl : ∀ a ∈ allocations, a.ForVM (AtAddress known strict T)) :
    (chooseMemoryAllocationOf accesses state params startAlloc endAlloc allocations T).2.Fits size
        params.vmCapacityBytes ∧
      T.ExtendedBy
        (chooseMemoryAllocationOf accesses state params startAlloc endAlloc allocations T).2 ∧
      (chooseMemoryAllocationOf accesses state params startAlloc endAlloc allocations T).1.1.ForVM
        (AtAddress known strict
          (chooseMemoryAllocationOf accesses state params startAlloc endAlloc allocations T).2) :=
            by
  obtain ⟨hfits, hext, hresult⟩ := chooseMemoryAllocationOf_forVM accesses hsize hcapacity
    offsetOptional_atAddress hsized hT hs he hl
  refine ⟨hfits, hext, hresult.imp fun v o hv => ?_⟩
  rcases hv with hv | ⟨hcandidate, a, ha, ho⟩
  · exact hv.mono hext
  · exact ⟨hknown v hcandidate, a, ha, fun _ => ho⟩

open RCGSolver RCGSolver.Problem

/-- **Solving a trace** places variables at their addresses, if the solution does. -/
theorem atAddress_solve {P : Problem} (hparams : P.ctx.params = params)
    (hsized : P.ctx.state.Sized size) (hknown : ∀ v ∈ P.ctx.state.candidates, known v)
    {K : Value → Prop}
    {T T' : VMAddressTracker} (hT : T.Fits size params.vmCapacityBytes)
    (hP : SolutionStored (AtAddress known strict T) K P.solution) {r : Option RCGResult}
    (h : solve P T = (r, T')) :
    T'.Fits size params.vmCapacityBytes ∧ T.ExtendedBy T' ∧
      ∀ result ∈ r, ∀ a ∈ result.allocations, a.ForVM (AtAddress known strict T') := by
  subst hparams
  have hgraph : (P.createReachableCheckpointGraph T).2.Fits size P.ctx.params.vmCapacityBytes ∧
      T.ExtendedBy (P.createReachableCheckpointGraph T).2 ∧
      ∀ e ∈ (P.createReachableCheckpointGraph T).1, e.allocation.ForVM
        (AtAddress known strict (P.createReachableCheckpointGraph T).2) := by
    refine createReachableCheckpointGraph_invariant (J := fun b : Building =>
      b.2.Fits size P.ctx.params.vmCapacityBytes ∧ T.ExtendedBy b.2 ∧
        ∀ e ∈ b.1, e.allocation.ForVM (AtAddress known strict b.2))
      ⟨hT, .refl T, by simp⟩ ?_
    rintro I b - ⟨hfits, hext, harcs⟩
    have hallocation : ∀ {c : Block} {a : RegionAllocation}, P.solution.allocationOf c = some a →
        a.ForVM (AtAddress known strict b.2) :=
      fun ha => (hP.allocationOf ha).imp fun v o hv => hv.mono hext
    -- the tracker and the allocation, whether the interval becomes an arc or not
    have hevaluate : (I.evaluate P b.2).2.Fits size P.ctx.params.vmCapacityBytes ∧
        b.2.ExtendedBy (I.evaluate P b.2).2 ∧
        (I.evaluate P b.2).1.1.ForVM (AtAddress known strict (I.evaluate P b.2).2) := by
      simp only [Interval.evaluate, computeCost]
      split_ifs
      · exact ⟨hfits, .refl _, forVM_empty⟩
      · refine atAddress_chooseMemoryAllocationOf hsize hcapacity hsized hknown _ _ _ hfits
          (fun a ha => hallocation (Interval.startAlloc_eq a ha))
            (fun a ha => hallocation (Interval.endAlloc_eq a ha)) fun a ha => ?_
        obtain ⟨c, -, hc⟩ := List.mem_filterMap.mp ha
        exact hallocation hc
    obtain ⟨hfits', hext', hnew⟩ := hevaluate
    refine ⟨hfits', hext.trans hext', fun e he => ?_⟩
    rcases Interval.mem_record he with he | rfl
    · exact (harcs e he).imp fun v o hv => hv.mono hext'
    · exact hnew
  obtain ⟨rfl, hresult⟩ := solve_spec h
  refine ⟨hgraph.1, hgraph.2.1, fun result hr a ha => ?_⟩
  obtain ⟨e, he, rfl⟩ := hresult result hr a ha
  exact hgraph.2.2 e he

end Choose

/-! ### The pass -/

/-- The variables that the pass may place for the function it is at. -/
def PassState.Known (σ : PassState) (v : Value) : Prop :=
  v.isGlobal = true ∨ v ∈ σ.ctx.state.candidates

/-- The variables that mean something to a caller. -/
def Shared (v : Value) : Prop := v.isGlobal = true

/-- What the summary of a function stores. -/
structure SummaryStored (strict : Prop) (T : VMAddressTracker) (S : CallSummary) : Prop where
  sfAllocation : S.sfAllocation.ForVM (AtAddress Shared strict T)
  efAllocation : S.efAllocation.ForVM (AtAddress Shared strict T)
  sfPlacements : ∀ v, S.sfPlacements.lookup v = some .vm → AtAddress Shared False T v none
  efPlacements : ∀ v, S.efPlacements.lookup v = some .vm → AtAddress Shared False T v none

/-- **The invariant of the pass**: the tracker fits, every variable in VM is known and has an
address, and with `strict` the allocations of blocks store that address. -/
structure Stored (size : Value → ℕ) (params : SchematicParams) (strict : Prop) (σ : PassState) :
    Prop where
  params_eq : σ.ctx.params = params
  sized : σ.ctx.state.Sized size
  fits : σ.tracker.Fits size params.vmCapacityBytes
  solution : SolutionStored (AtAddress σ.Known strict σ.tracker)
    (fun v => AtAddress σ.Known False σ.tracker v none) σ.solution
  bodyAlloc : σ.bodyAlloc.ForVM fun v _ => AtAddress σ.Known False σ.tracker v none
  summaries : ∀ S ∈ σ.summaries, SummaryStored strict σ.tracker S

section Captured

variable {strict : Prop} {T T' : VMAddressTracker}

theorem SummaryStored.mono {S : CallSummary} (h : SummaryStored strict T S) (hT : T.ExtendedBy T') :
    SummaryStored strict T' S :=
  ⟨h.sfAllocation.imp fun _ _ hv => hv.mono hT, h.efAllocation.imp fun _ _ hv => hv.mono hT,
    fun v hv => (h.sfPlacements v hv).mono hT, fun v hv => (h.efPlacements v hv).mono hT⟩

/-- The part of an allocation that concerns globals. -/
private theorem forVM_globals (known : Value → Prop) {a : RegionAllocation}
    (h : a.ForVM (AtAddress known strict T)) : a.globals.ForVM (AtAddress Shared strict T) := by
  intro v va hv hvm
  rw [RegionAllocation.globals, ValueMap.lookup_foldl_insert_if (fun v => v.isGlobal)] at hv
  split_ifs at hv with hglobal
  obtain ⟨-, haddress⟩ := h v va hv hvm
  refine ⟨hglobal, ?_⟩
  rw [RegionAllocation.globals, ValueMap.lookup_foldl_insert_if (fun v => v.isGlobal),
    if_pos hglobal]
  exact haddress

/-- **A summary that is read off** a solution. -/
private theorem summaryStored_capture {known : Value → Prop} {s : SchematicSolution}
    (h : SolutionStored (AtAddress known strict T) (fun v => AtAddress known False T v none) s) :
    SummaryStored strict T (captureCallSummary s) := by
  have halloc : ∀ b, ((s.allocationOf b).getD {}).globals.ForVM (AtAddress Shared strict T) := by
    intro b
    cases hb : s.allocationOf b with
    | none => exact forVM_globals known forVM_empty
    | some a => exact forVM_globals known (h.allocationOf hb)
  have hplaced : ∀ b v, ((s.decidedPlacements b).walk.foldl
      (fun (m : ValueMap Placement) e => if e.1.isGlobal then m.insert e.1 e.2 else m) ∅).lookup v =
        some .vm → AtAddress Shared False T v none := by
    intro b v hv
    rw [ValueMap.lookup_foldl_insert_if (fun v => v.isGlobal)] at hv
    split_ifs at hv with hglobal
    exact ⟨hglobal, (h.placements b v hv).2⟩
  exact ⟨halloc _, halloc _, hplaced _, hplaced _⟩

end Captured

/-- **A split that keeps offsets**: a variable that it adds to a block of the loop is numbered with
its recorded address. Every other event keeps offsets. -/
def KeepsOffsets (σ : PassState) : PassEvent → Prop
  | .split L =>
    ∀ v o, AddedByReset σ.solution L σ.bodyAlloc v o → o = σ.tracker.getExistingAddress v
  | _ => True

section Run

variable {size : Value → ℕ} {params : SchematicParams} {strict : Prop} {σ σ' : PassState}

theorem Stored.of_quiet (h : Stored size params strict σ) {s : SchematicSolution}
    (hq : Quiet σ.solution s) : Stored size params strict { σ with solution := s } :=
  ⟨h.params_eq, h.sized, h.fits, h.solution.of_quiet hq, h.bodyAlloc, h.summaries⟩

theorem Stored.init {ctx : Context} (hparams : ctx.params = params)
    (hsized : ctx.state.Sized size) :
    Stored size params strict { ctx := ctx } :=
  ⟨hparams, hsized, VMAddressTracker.fits_empty, .empty, forVM_empty, by simp⟩

/-- A tracker that has grown. -/
private theorem Stored.grow (h : Stored size params strict σ) {T : VMAddressTracker}
    (hT : T.Fits size params.vmCapacityBytes) (hext : σ.tracker.ExtendedBy T) :
    Stored size params strict { σ with tracker := T } :=
  ⟨h.params_eq, h.sized, hT, h.solution.imp (fun _ _ hv => hv.mono hext) fun _ hv => hv.mono hext,
    h.bodyAlloc.imp fun _ _ hv => hv.mono hext, fun S hS => (h.summaries S hS).mono hext⟩

/-- The objects that a convergence merges. -/
private theorem Stored.forVM_refs (h : Stored size params strict σ) {L : Loop}
    {refs : List AllocRef}
    (hrefs : ∀ r ∈ refs, ∃ bb ∈ L.blocks, σ.solution.blockAllocation (.real bb) = some r) :
    ∀ a ∈ refs.map σ.solution.heap, a.ForVM (AtAddress σ.Known strict σ.tracker) := by
  intro a ha
  obtain ⟨r, hr, rfl⟩ := List.mem_map.mp ha
  obtain ⟨bb, -, hpoint⟩ := hrefs r hr
  exact h.solution.blocks _ r hpoint

variable (hsize : ∀ v, size v < 2 ^ 31) (hcapacity : params.vmCapacityBytes < 2 ^ 31)
include hsize hcapacity

/-- **One event** keeps the invariant, if it keeps offsets. -/
theorem Stored.step (h : Stored size params strict σ) {e : PassEvent}
    (he : strict → KeepsOffsets σ e)
    (hstep : PassStep size params σ e σ') : Stored size params strict σ' := by
  cases hstep with
  | function hparams hsized =>
    exact ⟨hparams, hsized, h.fits, .empty, forVM_empty, h.summaries⟩
  | @fold graph S ic hS =>
    have hsummary := h.summaries S hS
    have hglobal : ∀ {strict : Prop} {v o}, AtAddress Shared strict σ.tracker v o →
        AtAddress σ.Known strict σ.tracker v o := fun hv => ⟨.inl hv.1, hv.2⟩
    -- the context changes in the energies of the call blocks only
    obtain ⟨cfg, hcfg⟩ : ∃ cfg, (foldCall σ.ctx graph S ic σ.solution).1 =
      { σ.ctx with cfg := cfg } := by
      simp only [foldCall]
      split <;> exact ⟨_, rfl⟩
    rw [hcfg]
    exact ⟨h.params_eq, h.sized, h.fits, h.solution.foldCall
      (hsummary.sfAllocation.imp fun _ _ hv => hglobal hv)
      (hsummary.efAllocation.imp fun _ _ hv => hglobal hv)
      (fun v hv => hglobal (hsummary.sfPlacements v hv))
      (fun v hv => hglobal (hsummary.efPlacements v hv)) ic, h.bodyAlloc, h.summaries⟩
  | @apply graph result trace loopScope T _ hsolve =>
    obtain ⟨hT, hext, hresult⟩ := atAddress_solve hsize hcapacity h.params_eq h.sized
      (fun v hv => .inr hv) h.fits h.solution hsolve
    have hgrown := h.grow hT hext
    exact ⟨hgrown.params_eq, hgrown.sized, hgrown.fits, hgrown.solution.applyMemoryAllocation
      offsetOptional_atAddress (fun _ _ hv => hv.recorded) (hresult result rfl) trace loopScope,
      hgrown.bodyAlloc, hgrown.summaries⟩
  | infeasible hsolve =>
    obtain ⟨hT, hext, -⟩ := atAddress_solve hsize hcapacity h.params_eq h.sized
      (fun v hv => .inr hv) h.fits h.solution hsolve
    exact h.grow hT hext
  | boundary hb =>
    exact ⟨h.params_eq, h.sized, h.fits, h.solution.setPlacements _ (by simp), h.bodyAlloc,
      h.summaries⟩
  | forget hb =>
    exact ⟨h.params_eq, h.sized, h.fits, (h.solution.setPlacements _ (by simp)).setBlockAllocation _
      (by simp), h.bodyAlloc, h.summaries⟩
  | fill =>
    exact ⟨h.params_eq, h.sized, h.fits, h.solution.resolveLoopBoundaryPlacements _, h.bodyAlloc,
      h.summaries⟩
  | @header header p hp =>
    refine ⟨h.params_eq, h.sized, h.fits, h.solution, fun v va hv hvm => ?_, h.summaries⟩
    rw [lookup_buildBoundaryAllocation, Option.map_eq_some_iff] at hv
    obtain ⟨p', hp', rfl⟩ := hv
    obtain rfl : p' = .vm := hvm
    exact h.solution.placements header v ((hp v).symm.trans hp')
  | @converge graph L accesses refs choice hrefs hchoice =>
    obtain ⟨hT, hext, hbody⟩ := atAddress_chooseMemoryAllocationOf hsize hcapacity h.sized
      (fun v hv => .inr hv) accesses none none h.fits (by simp) (by simp) (h.forVM_refs hrefs)
    rw [← h.params_eq, hchoice] at hT hext hbody
    rw [h.params_eq] at hT
    have hgrown := h.grow hT hext
    have hbodyK := hbody.imp fun _ _ hv => hv.recorded
    refine ⟨hgrown.params_eq, hgrown.sized, hgrown.fits, hgrown.solution.recompute
      offsetOptional_atAddress hbodyK (fun v o hadded => ?_) rfl graph, hbodyK, hgrown.summaries⟩
    obtain ⟨va, hva, hvm, rfl, -⟩ := hadded
    exact hbody v va hva hvm
  | @split graph L =>
    refine ⟨h.params_eq, h.sized, h.fits, h.solution.recompute
      offsetOptional_atAddress h.bodyAlloc
      (fun v o hadded => ?_) rfl graph, h.bodyAlloc, h.summaries⟩
    have hkeeps := fun hstrict => he hstrict v o hadded
    obtain ⟨va, hva, hvm, -⟩ := hadded
    obtain ⟨hknown, a, ha, -⟩ := h.bodyAlloc v va hva hvm
    exact ⟨hknown, a, ha, fun hstrict => (hkeeps hstrict).trans ha⟩
  | decide hd =>
    exact ⟨h.params_eq, h.sized, h.fits, h.solution.setDecision _ (hd ▸ h.bodyAlloc), h.bodyAlloc,
      h.summaries⟩
  | capture =>
    exact ⟨h.params_eq, h.sized, h.fits, h.solution, h.bodyAlloc,
      List.forall_mem_cons.mpr ⟨summaryStored_capture h.solution, h.summaries⟩⟩

/-- One event takes no address back. -/
theorem Stored.step_extendedBy (h : Stored size params strict σ) {e : PassEvent}
    (hstep : PassStep size params σ e σ') : σ.tracker.ExtendedBy σ'.tracker := by
  cases hstep with
  | apply _ hsolve | infeasible hsolve =>
    exact (atAddress_solve hsize hcapacity h.params_eq h.sized (fun v hv => .inr hv) h.fits
      h.solution hsolve).2.1
  | @converge graph L accesses refs choice hrefs hchoice =>
    have hext := (atAddress_chooseMemoryAllocationOf hsize hcapacity h.sized
      (fun v hv => .inr hv) accesses none none h.fits (by simp) (by simp) (h.forVM_refs hrefs)).2.1
    rwa [← h.params_eq, hchoice] at hext
  | _ => exact .refl _

/-- **Whole runs** keep the invariant. -/
theorem Stored.run {log : List (PassState × PassEvent)} (hrun : PassRun size params σ log σ')
    (hlog : strict → ∀ entry ∈ log, KeepsOffsets entry.1 entry.2)
    (h : Stored size params strict σ) :
    Stored size params strict σ' ∧ ∀ entry ∈ log, Stored size params strict entry.1 :=
  hrun.invariant (C := fun σ e => strict → KeepsOffsets σ e) (fun _ _ h hq => h.of_quiet hq)
    (fun _ _ _ h he hstep => h.step hsize hcapacity he hstep)
    (fun entry hentry hstrict => hlog hstrict entry hentry) h

/-- Whole runs take no address back. -/
theorem Stored.run_extendedBy {log : List (PassState × PassEvent)}
    (hrun : PassRun size params σ log σ') (h : Stored size params False σ) :
    σ.tracker.ExtendedBy σ'.tracker := by
  refine (hrun.invariant (I := fun τ => Stored size params False τ ∧
    σ.tracker.ExtendedBy τ.tracker) (C := fun _ _ => True) (fun _ _ h hq => ⟨h.1.of_quiet hq, h.2⟩)
    (fun _ _ _ h _ hstep => ⟨h.1.step hsize hcapacity False.elim hstep, h.2.trans
      (h.1.step_extendedBy hsize hcapacity hstep)⟩) (fun _ _ => trivial) ⟨h, .refl _⟩).1.2

end Run

end Bao.Schematic
