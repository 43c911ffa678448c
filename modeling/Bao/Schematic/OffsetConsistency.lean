import Bao.Schematic.VMOffsets

/-!
# Consistency of VM offsets

In every state the pass reaches, the offsets in the allocations of blocks should be the recorded
addresses, and the byte ranges of the VM variables of a block should be disjoint. Two blocks are
then incompatible, and allocations of blocks cannot be merged, only where a variable is in VM in one
of them and in NVM in the other (`OffsetsConsistent`).

Runs in which every split keeps offsets have all this (`offsets_consistent_of_keeps`). A split that
does not is taken by the analysis of a loop that does not fit in one charge: the blocks of the loop
get the variables of the header at offsets counted from zero (`split_renumbers_variables`).
-/

namespace Bao.Schematic

open Addressing RegionAllocation SchematicSolution

/-- A variable that two allocations place differently. -/
def PlacementConflict (a a' : RegionAllocation) : Prop :=
  ∃ v va va', a.vars.lookup v = some va ∧ a'.vars.lookup v = some va' ∧ va.placement ≠ va'.placement

/-- A variable that is saved or restored and that the first allocation does not mention. -/
def AddsCheckpointed (l : List RegionAllocation) : Prop :=
  ∃ first ∈ l.head?, ∃ a ∈ l.tail, ∃ v va, a.vars.lookup v = some va ∧ first.vars.lookup v = none ∧
    (va.needRestore || va.needSave) = true

/-- **VM offsets are consistent.** -/
structure OffsetsConsistent (size : Value → ℕ) (σ : PassState) : Prop where
  /-- The offset of a VM variable is its recorded address. -/
  offsets : ∀ b a, σ.solution.allocationOf b = some a → ∀ v va, a.vars.lookup v = some va →
    va.placement = .vm → ∀ o, a.vmOffsets.lookup v = some o →
    σ.tracker.getExistingAddress v = some o
  /-- The ranges of two VM variables of a block are disjoint. -/
  disjoint : ∀ b a, σ.solution.allocationOf b = some a → ∀ v w va wa, a.vars.lookup v = some va →
    a.vars.lookup w = some wa → va.placement = .vm → wa.placement = .vm → v ≠ w →
    ∀ x y, a.vmOffsets.lookup v = some x → a.vmOffsets.lookup w = some y →
    x + size v ≤ y ∨ y + size w ≤ x
  /-- Blocks are incompatible only where a variable is placed differently. -/
  compatible : ∀ b b' a a', σ.solution.allocationOf b = some a →
    σ.solution.allocationOf b' = some a' →
    isCompatibleWith a a' σ.ctx.state = false → PlacementConflict a a'
  /-- Allocations of blocks cannot be merged only where a variable is placed differently, or where
  the merge may not add what is saved or restored. -/
  merge : ∀ (l : List RegionAllocation) (increase : Bool),
    (∀ a ∈ l, ∃ b, σ.solution.allocationOf b = some a) →
    mergeAllocations l σ.ctx.state increase = none →
    (∃ a ∈ l, ∃ a' ∈ l, PlacementConflict a a') ∨ increase = false ∧ AddsCheckpointed l

/-! ### Ranges -/

section Ranges

variable {size : Value → ℕ} {capacity : ℕ} {known : Value → Prop} {T : VMAddressTracker}
  {state : SchematicStateAnalysis}

/-- What an analysis knows of the size of a variable is not too much. -/
private theorem getVarSizeBytes_le (hsized : state.Sized size) (v : Value) :
    state.getVarSizeBytes v ≤ size v := by
  rw [hsized v]
  split_ifs
  · exact le_rfl
  · exact Nat.zero_le _

/-- A range that belongs to a VM variable of an allocation. -/
private def RangeOf (T : VMAddressTracker) (state : SchematicStateAnalysis) (a : RegionAllocation)
    (r : ℕ × ℕ) : Prop :=
  ∃ w wa x, a.vars.lookup w = some wa ∧ T.getExistingAddress w = some x ∧
    r = (x, x + state.getVarSizeBytes w)

variable (hT : T.Fits size capacity) (hcapacity : capacity < 2 ^ 31) (hsized : state.Sized size)
include hT hcapacity hsized

/-- Ends of ranges do not wrap. -/
private theorem end_mod {v : Value} {x : ℕ} (hv : T.getExistingAddress v = some x) :
    (x + state.getVarSizeBytes v) % 2 ^ 32 = x + state.getVarSizeBytes v := by
  refine Nat.mod_eq_of_lt ?_
  have hend := hT.stacked.end_le hv
  have htop := hT.top_le
  have hle := getVarSizeBytes_le hsized v
  omega

omit hcapacity in
/-- The range of a variable meets no range of an allocation that does not mention it. -/
private theorem not_meets {a : RegionAllocation} {v : Value} {x : ℕ}
    (hv : T.getExistingAddress v = some x) (hnew : a.vars.lookup v = none) {r : ℕ × ℕ}
    (hr : RangeOf T state a r) :
    (decide (x < r.2) && decide (r.1 < x + state.getVarSizeBytes v)) = false := by
  obtain ⟨w, wa, y, hwa, hw, rfl⟩ := hr
  have hne : v ≠ w := by
    rintro rfl
    rw [hnew] at hwa
    cases hwa
  have hdisjoint := hT.stacked.disjoint hne hv hw
  have hlev := getVarSizeBytes_le hsized v
  have hlew := getVarSizeBytes_le hsized w
  rw [Bool.and_eq_false_iff, decide_eq_false_iff_not, decide_eq_false_iff_not]
  dsimp only
  omega

private theorem rangeOf_occupied {a : RegionAllocation} (ha : a.ForVM (AtAddress known True T))
    {r : ℕ × ℕ} (hr : r ∈ a.occupied state) : RangeOf T state a r := by
  obtain ⟨⟨w, wa⟩, hw, hr⟩ := List.mem_filterMap.mp hr
  dsimp only at hr
  split_ifs at hr with hvm
  obtain ⟨-, x, hx, hoff⟩ := ha w wa (ValueMap.mem_walk.mp hw) hvm
  rw [hoff trivial, Option.map_some, Option.some.injEq] at hr
  exact ⟨w, wa, x, ValueMap.mem_walk.mp hw, hx, by rw [← hr, end_mod hT hcapacity hsized hx]⟩

/-- One direction of the test for compatible blocks. -/
private theorem isCompatibleOneWay_of_no_conflict {a a' : RegionAllocation}
    (ha : a.ForVM (AtAddress known True T)) (ha' : a'.ForVM (AtAddress known True T))
    (hconflict : ∀ v va va', a.vars.lookup v = some va → a'.vars.lookup v = some va' →
      va.placement = va'.placement) : isCompatibleOneWay a a' state = true := by
  rw [isCompatibleOneWay, List.all_eq_true]
  rintro ⟨v, va'⟩ he
  have hv' := ValueMap.mem_walk.mp he
  cases hv : a.vars.lookup v with
  | none =>
    dsimp only
    split_ifs with hvm
    · obtain ⟨-, x, hx, hoff⟩ := ha' v va' hv' hvm
      rw [hoff trivial]
      dsimp only
      rw [end_mod hT hcapacity hsized hx, intervalIsEmpty, List.all_eq_true]
      intro r hr
      rw [not_meets hT hsized hx hv (rangeOf_occupied hT hcapacity hsized ha hr)]
      rfl
    · rfl
  | some va =>
    have hplace := hconflict v va va' hv hv'
    dsimp only
    rw [if_neg (by simp [hplace])]
    split_ifs with hvm
    · obtain ⟨-, x, hx, hoff⟩ := ha v va hv (hplace.trans hvm)
      obtain ⟨-, x', hx', hoff'⟩ := ha' v va' hv' hvm
      rw [hoff trivial, hoff' trivial]
      simpa using Option.some.inj (hx.symm.trans hx')
    · rfl

/-- What holds of a merge in progress. -/
private structure Merging (known : Value → Prop) (T : VMAddressTracker)
    (state : SchematicStateAnalysis) (first : RegionAllocation) (l : List RegionAllocation)
    (acc : RegionAllocation × List (ℕ × ℕ)) : Prop where
  forVM : acc.1.ForVM (AtAddress known True T)
  ranges : ∀ r ∈ acc.2, RangeOf T state acc.1 r
  vars : ∀ v va, acc.1.vars.lookup v = some va → ∃ a ∈ l, a.vars.lookup v = some va
  first : ∀ v, acc.1.vars.lookup v = none → first.vars.lookup v = none

omit hT hcapacity hsized in
/-- A further variable, at its recorded address if it is in VM. -/
private theorem Merging.insert {first : RegionAllocation} {l : List RegionAllocation}
    {acc : RegionAllocation × List (ℕ × ℕ)} (h : Merging known T state first l acc)
    {source : RegionAllocation} (hmem : source ∈ l) {v : Value} {va : VariableAllocation}
    (hv : source.vars.lookup v = some va) (hnew : acc.1.vars.lookup v = none)
    {result : RegionAllocation} {occupied : List (ℕ × ℕ)}
    (hvars : result.vars = acc.1.vars.insert v va)
    (hforVM : result.ForVM (AtAddress known True T))
    (hranges : ∀ r ∈ occupied, r ∈ acc.2 ∨ ∃ x, T.getExistingAddress v = some x ∧
      r = (x, x + state.getVarSizeBytes v)) : Merging known T state first l (result, occupied) := by
  have hold : ∀ w wa, acc.1.vars.lookup w = some wa → result.vars.lookup w = some wa := by
    intro w wa hw
    have hne : w ≠ v := by
      rintro rfl
      cases hnew.symm.trans hw
    rw [hvars, AList.lookup_insert_ne hne]
    exact hw
  refine ⟨hforVM, fun r hr => ?_, fun w wa hw => ?_, fun w hw => h.first w ?_⟩
  · rcases hranges r hr with hr | ⟨x, hx, rfl⟩
    · obtain ⟨w, wa, x, hwa, hx, rfl⟩ := h.ranges r hr
      exact ⟨w, wa, x, hold w wa hwa, hx, rfl⟩
    · exact ⟨v, va, x, by rw [hvars, AList.lookup_insert], hx, rfl⟩
  · dsimp only at hw
    rw [hvars] at hw
    by_cases hwv : w = v
    · subst hwv
      rw [AList.lookup_insert] at hw
      exact ⟨source, hmem, hw ▸ hv⟩
    · rw [AList.lookup_insert_ne hwv] at hw
      exact h.vars w wa hw
  · cases hacc : acc.1.vars.lookup w with
    | none => rfl
    | some wa => cases hw.symm.trans (hold w wa hacc)

/-- One variable of a merge: it is added, or there is a reason not to. -/
private theorem Merging.add {first : RegionAllocation} {l : List RegionAllocation}
    {acc : RegionAllocation × List (ℕ × ℕ)} (h : Merging known T state first l acc)
    {source : RegionAllocation} (hmem : source ∈ l)
    (hsource : source.ForVM (AtAddress known True T))
    {e : Value × VariableAllocation} (he : source.vars.lookup e.1 = some e.2) (increase : Bool) :
    (∃ acc', addNewVarAlloc state increase source acc e = some acc' ∧
      Merging known T state first l acc') ∨ (∃ a ∈ l, PlacementConflict a source) ∨
      increase = false ∧ first.vars.lookup e.1 = none ∧
        (e.2.needRestore || e.2.needSave) = true := by
  obtain ⟨result, occupied⟩ := acc
  obtain ⟨v, va⟩ := e
  simp only [addNewVarAlloc]
  cases hv : result.vars.lookup v with
  | some existing =>
    by_cases hplace : existing.placement = va.placement
    · refine .inl ⟨(result, occupied), ?_, h⟩
      dsimp only
      rw [if_neg (not_not_intro hplace)]
      by_cases hvm : va.placement = .vm
      · obtain ⟨-, x, hx, hoff⟩ := h.forVM v existing hv (hplace.trans hvm)
        obtain ⟨-, x', hx', hoff'⟩ := hsource v va he hvm
        have heq : x = x' := Option.some.inj (hx.symm.trans hx')
        have hoff : result.vmOffsets.lookup v = some x := hoff trivial
        rw [if_pos hvm, hoff, hoff' trivial]
        dsimp only
        rw [if_neg (not_not_intro heq)]
      · rw [if_neg hvm]
    · obtain ⟨a, ha, hexisting⟩ := h.vars v existing hv
      exact .inr (.inl ⟨a, ha, v, existing, va, hexisting, he, hplace⟩)
  | none =>
    dsimp only
    by_cases hvm : va.placement = .vm
    · obtain ⟨hknown, x, hx, hoff⟩ := hsource v va he hvm
      have hfree : (occupied.any fun r => decide (x < r.2) &&
          decide (r.1 < x + state.getVarSizeBytes v)) = false := by
        rw [List.any_eq_false]
        intro r hr
        rw [not_meets hT hsized hx hv (h.ranges r hr)]
        exact Bool.false_ne_true
      rw [if_pos hvm, hoff trivial]
      dsimp only
      rw [end_mod hT hcapacity hsized hx, hfree, if_neg Bool.false_ne_true]
      by_cases hincrease : ((va.needRestore || va.needSave) && !increase) = true
      · have hparts := (Bool.and_eq_true _ _).mp hincrease
        exact .inr (.inr ⟨by simpa using hparts.2, h.first v hv, hparts.1⟩)
      · rw [if_neg hincrease]
        refine .inl ⟨_, rfl, h.insert hmem he hv rfl (h.forVM.insert rfl (fun w hw =>
          AList.lookup_insert_ne hw) fun _ => ⟨hknown, x, hx, fun _ => AList.lookup_insert _⟩)
          fun r hr => ?_⟩
        rcases List.mem_append.mp hr with hr | hr
        · exact .inl hr
        · exact .inr ⟨x, hx, List.mem_singleton.mp hr⟩
    · rw [if_neg hvm]
      exact .inl ⟨_, rfl, h.insert hmem he hv rfl (h.forVM.insert rfl (fun w _ => rfl)
        fun hva => absurd hva hvm) fun r hr => .inl hr⟩

/-- **Merging allocations that store addresses** fails only where a variable is placed differently
or where the merge may not add what is saved or restored. -/
private theorem mergeAllocations_none {l : List RegionAllocation}
    (hl : ∀ a ∈ l, a.ForVM (AtAddress known True T)) {increase : Bool}
    (h : mergeAllocations l state increase = none) :
    (∃ a ∈ l, ∃ a' ∈ l, PlacementConflict a a') ∨ increase = false ∧ AddsCheckpointed l := by
  cases l with
  | nil => cases h
  | cons first rest =>
    obtain ⟨hfirst, hrest⟩ := List.forall_mem_cons.mp hl
    have hmerging : Merging known T state first (first :: rest) (first, first.occupied state) :=
      ⟨hfirst, fun r hr => rangeOf_occupied hT hcapacity hsized hfirst hr,
        fun v va hv => ⟨first, List.mem_cons_self, hv⟩, fun v hv => hv⟩
    have hsources : ∀ p ∈ rest.flatMap fun source => source.vars.walk.map fun e => (source, e),
        p.1 ∈ rest ∧ p.1.vars.lookup p.2.1 = some p.2.2 := by
      intro p hp
      obtain ⟨a, ha, hp⟩ := List.mem_flatMap.mp hp
      obtain ⟨e, he, rfl⟩ := List.mem_map.mp hp
      exact ⟨ha, ValueMap.mem_walk.mp he⟩
    rw [mergeAllocations, Option.map_eq_none_iff] at h
    revert h hsources
    generalize rest.flatMap (fun source => source.vars.walk.map fun e => (source, e)) = sources
    revert hmerging
    generalize (first, first.occupied state) = acc
    intro hmerging
    -- the first variable that is not added gives the reason
    induction sources generalizing acc with
    | nil =>
      intro h _
      cases h
    | cons p sources ih =>
      intro h hsources
      obtain ⟨⟨hp, hlookup⟩, hsources⟩ := List.forall_mem_cons.mp hsources
      rcases hmerging.add hT hcapacity hsized (List.mem_cons_of_mem _ hp) (hrest p.1 hp) hlookup
        increase with ⟨acc', hadd, hmerging'⟩ | ⟨a, ha, hconflict⟩ | ⟨hincrease, hnew, hflags⟩
      · rw [List.foldlM_cons, hadd] at h
        exact ih acc' hmerging' h hsources
      · exact .inl ⟨a, ha, p.1, List.mem_cons_of_mem _ hp, hconflict⟩
      · exact .inr ⟨hincrease, first, rfl, p.1, hp, p.2.1, p.2.2, hlookup, hnew, hflags⟩

end Ranges

/-! ### Runs -/

/-- **States with the invariant** are consistent. -/
private theorem Stored.consistent {size : Value → ℕ} {params : SchematicParams} {σ : PassState}
    (hcapacity : params.vmCapacityBytes < 2 ^ 31) (h : Stored size params True σ) :
    OffsetsConsistent size σ := by
  have hoffset : ∀ {b a v va o}, σ.solution.allocationOf b = some a → a.vars.lookup v = some va →
      va.placement = .vm → a.vmOffsets.lookup v = some o →
        σ.tracker.getExistingAddress v = some o := by
    intro b a v va o ha hv hvm ho
    obtain ⟨-, x, hx, hoff⟩ := h.solution.allocationOf ha v va hv hvm
    rw [hx, ← hoff trivial, ho]
  refine ⟨fun b a ha v va hv hvm o ho => hoffset ha hv hvm ho,
    fun b a ha v w va wa hv hw hvm hwvm hne x y hx hy => ?_,
      fun b b' a a' ha ha' hincompatible => ?_,
    fun l increase hl hnone => ?_⟩
  · exact h.fits.stacked.disjoint hne (hoffset ha hv hvm hx) (hoffset ha hw hwvm hy)
  · by_contra hconflict
    have hsame : ∀ v va va', a.vars.lookup v = some va → a'.vars.lookup v = some va' →
        va.placement = va'.placement := by
      intro v va va' hv hv'
      by_contra hne
      exact hconflict ⟨v, va, va', hv, hv', hne⟩
    have hforVM := h.solution.allocationOf ha
    have hforVM' := h.solution.allocationOf ha'
    have hcompatible : isCompatibleWith a a' σ.ctx.state = true := by
      rw [isCompatibleWith, isCompatibleOneWay_of_no_conflict h.fits hcapacity h.sized hforVM
        hforVM'
        hsame, isCompatibleOneWay_of_no_conflict h.fits hcapacity h.sized hforVM' hforVM
          fun v va va' hv hv' => (hsame v va' va hv' hv).symm]
      rfl
    cases hincompatible.symm.trans hcompatible
  · have hforVM : ∀ a ∈ l, a.ForVM (AtAddress σ.Known True σ.tracker) := by
      intro a ha
      obtain ⟨b, hb⟩ := hl a ha
      exact h.solution.allocationOf hb
    exact mergeAllocations_none h.fits hcapacity h.sized hforVM hnone

/-- **Offsets stay consistent** in every run of the pass in which every split keeps offsets: before
every event and at the end. -/
theorem offsets_consistent_of_keeps {size : Value → ℕ} {params : SchematicParams}
    (hsize : ∀ v, size v < 2 ^ 31) (hcapacity : params.vmCapacityBytes < 2 ^ 31) {ctx : Context}
    (hparams : ctx.params = params) (hsized : ctx.state.Sized size)
    {log : List (PassState × PassEvent)} {τ : PassState}
    (hrun : PassRun size params { ctx := ctx } log τ)
    (hlog : ∀ entry ∈ log, KeepsOffsets entry.1 entry.2) :
    OffsetsConsistent size τ ∧ ∀ entry ∈ log, OffsetsConsistent size entry.1 := by
  obtain ⟨hτ, hentries⟩ := (Stored.init hparams hsized).run hsize hcapacity hrun fun _ => hlog
  exact ⟨hτ.consistent hcapacity, fun entry hentry => (hentries entry hentry).consistent hcapacity⟩

/-! ### A loop that is split -/

/-- A global of two bytes. -/
def leftVar : Value := ⟨0, true⟩

/-- The next global of two bytes. -/
def rightVar : Value := ⟨1, true⟩

/-- The sizes of the two variables. -/
def pairSize (v : Value) : ℕ := if v ∈ [leftVar, rightVar] then 2 else 0

/-- Both variables are loaded in the blocks 1 and 3, the favourite more often. -/
def pairState (favourite : Value) : SchematicStateAnalysis :=
  { candidates := [leftVar, rightVar]
    getLoadCount := fun bb v => if bb = 1 ∨ bb = 3 then if v = favourite then 2 else 1 else 0
    getStoreCount := fun _ _ => 0
    getFirstOpIsLoad := fun bb _ => if bb = 1 ∨ bb = 3 then some true else none
    getVarSizeBytes := pairSize
    isPointerType := fun _ => false }

def pairParams : SchematicParams :=
  { capacity := 1000
    E_pro := 10
    E_epi := 10
    N_reg := 0
    regStoreEnergy := 0
    regRestoreEnergy := 0
    nvmAccessPenalty := 10
    memStoreEnergyPerByte := 0
    memRestoreEnergyPerByte := 0
    vmCapacityBytes := 16
    loopIncrementCostNvm := 10
    callCost := 0 }

def pairLoop : Loop := { header := 1, blocks := [1, 2, 3], latch := some 3, preheader := some 0 }

/-- A function with a loop whose body does not fit in one charge. -/
def pairFunction (favourite : Value) : FunctionInput :=
  { cfg := ⟨[0, 1, 2, 3, 4], [(0, 1), (1, 2), (2, 3), (3, 1), (1, 4)], fun bb =>
      if bb = 1 then 975 else if bb = 2 then 900 else if bb = 3 then 600 else 1⟩
    state := pairState favourite
    LI := ⟨[pairLoop]⟩
    loopTraces := [⟨pairLoop, 1, [.real 1, .real 2, .real 3], [⟨[.real 1, .real 2, .real 3], 1⟩],
      some 10⟩]
    functionPaths := [[.real 0, .real 1, .real 4]] }

def pairContext (favourite : Value) : Context :=
  ⟨(pairFunction favourite).allNvmCost pairParams, pairState favourite, pairParams,
    (pairFunction favourite).LI⟩

private theorem pairSize_lt (v : Value) : pairSize v < 2 ^ 31 := by
  rw [pairSize]
  split_ifs <;> norm_num

private theorem sized_pairState (favourite : Value) : (pairState favourite).Sized pairSize := by
  intro v
  change pairSize v = if v ∈ [leftVar, rightVar] then pairSize v else 0
  split_ifs with hv
  · rfl
  · rw [pairSize, if_neg hv]

/-- The right variable is loaded more often, so it is the first one to get an address. The split of
the loop gives block 2 the variables of the header, in the order of their own addresses: the left
variable is there at offset 0, which is the address of the right one. -/
theorem split_renumbers_variables : ∃ log τ,
    PassRun pairSize pairParams { ctx := pairContext rightVar } log τ ∧
      ¬OffsetsConsistent pairSize τ := by
  have hok : (solveFunction (pairFunction rightVar) pairParams (fun _ => none) {}).isOk = true := by
    decide +kernel
  have hstored : ((solutionOf (solveFunction (pairFunction rightVar) pairParams (fun _ => none)
      {})).allocationOf (.real 2)).any (fun a => decide ((a.vars.lookup leftVar).map
        VariableAllocation.placement = some .vm ∧ a.vmOffsets.lookup leftVar = some 0)) = true := by
    decide +kernel
  have haddress : (solveFunction (pairFunction rightVar) pairParams (fun _ => none) {}).toOption.map
      (fun p => p.2.tracker.getExistingAddress leftVar) = some (some 2) := by decide +kernel
  obtain ⟨ctx, A, hsolve, hA⟩ := exists_solutionOf hok
  obtain ⟨body, log, hrun⟩ := solveFunction_runs pairSize
    (σ := { ctx := pairContext rightVar }) rfl rfl (by simp) hsolve
  refine ⟨log, _, hrun, fun h => ?_⟩
  rw [← hA] at hstored
  rw [hsolve] at haddress
  have haddress : A.tracker.getExistingAddress leftVar = some 2 := Option.some.inj haddress
  cases ha : A.solution.allocationOf (.real 2) with
  | none =>
    rw [ha] at hstored
    cases hstored
  | some a =>
    rw [ha] at hstored
    obtain ⟨hplaced, hoffset⟩ := of_decide_eq_true hstored
    obtain ⟨va, hva, hvm⟩ := Option.map_eq_some_iff.mp hplaced
    have heq := h.offsets (.real 2) a ha leftVar va hva hvm 0 hoffset
    cases haddress.symm.trans heq

/-- The trace of the loop. -/
def pairTrace : List Block := [.startLoop 1, .real 1, .real 2, .real 3, .endLoop 1]

/-- The trace is solved with the left variable as the favourite. -/
def pairSolved : Option RCGSolver.RCGResult × VMAddressTracker :=
  RCGSolver.solve ⟨pairTrace, {}, pairContext leftVar⟩ {}

/-- The result is applied, and the placements of the header are read. -/
def pairHeader : PassState :=
  { ctx := pairContext leftVar
    solution := pairSolved.1.elim {} fun result =>
      ({} : SchematicSolution).applyMemoryAllocation {} (pairContext leftVar) result pairTrace none
    tracker := pairSolved.2 }

/-- The loop is about to be split. -/
def pairBody : PassState :=
  { pairHeader with
    bodyAlloc := buildBoundaryAllocation (pairHeader.solution.decidedPlacements (.real 1))
      (pairState leftVar) }

/-- A loop in which the favourite comes first in the header as well: the split adds two variables to
block 2, at their addresses. -/
theorem offsets_consistent_pair :
    (∃ o, AddedByReset pairBody.solution pairLoop pairBody.bodyAlloc rightVar (some o)) ∧
      OffsetsConsistent pairSize
        { pairBody with solution := pairBody.recompute {} pairLoop pairBody.bodyAlloc } := by
  have hsome : pairSolved.1.isSome = true := by decide +kernel
  have hkeys : pairBody.bodyAlloc.vars.keys = [rightVar, leftVar] := by decide +kernel
  have hleft : pairBody.bodyAlloc.vmOffsets.lookup leftVar =
      pairBody.tracker.getExistingAddress leftVar := by decide +kernel
  have hright : pairBody.bodyAlloc.vmOffsets.lookup rightVar =
      pairBody.tracker.getExistingAddress rightVar := by decide +kernel
  obtain ⟨result, hresult⟩ := Option.isSome_iff_exists.mp hsome
  have happly : PassStep pairSize pairParams { ctx := pairContext leftVar }
    (.apply result pairTrace)
      pairHeader := by
    have hsolve : RCGSolver.solve ⟨pairTrace, {}, pairContext leftVar⟩ {} =
        (some result, pairSolved.2) := by
      rw [← hresult]
      rfl
    rw [pairHeader, hresult]
    exact .apply (by decide) hsolve
  have hplaced : (pairBody.bodyAlloc.vars.lookup rightVar).map VariableAllocation.placement =
      some .vm := by decide +kernel
  have hbare : (pairBody.solution.allocationOf (.real 2)).all
    (fun a => decide (rightVar ∉ a.vars)) =
      true := by decide +kernel
  have hoffset : pairBody.bodyAlloc.vmOffsets.lookup rightVar = some 2 := by decide +kernel
  refine ⟨⟨2, ?_⟩, ?_⟩
  · obtain ⟨va, hva, hvm⟩ := Option.map_eq_some_iff.mp hplaced
    refine ⟨va, hva, hvm, hoffset, 2, by decide, fun a ha => ?_⟩
    rw [ha] at hbare
    exact of_decide_eq_true hbare
  · have hrun : PassRun pairSize pairParams { ctx := pairContext leftVar }
        [({ ctx := pairContext leftVar }, .apply result pairTrace), (pairHeader, .header (.real 1)),
          (pairBody, .split pairLoop)]
        { pairBody with solution := pairBody.recompute {} pairLoop pairBody.bodyAlloc } :=
      .step (.refl _) happly (.step (.refl _) (.header fun _ => rfl)
        (.step (.refl _) .split (.done (.refl _))))
    have hcapacity : pairParams.vmCapacityBytes < 2 ^ 31 := by decide
    refine (offsets_consistent_of_keeps pairSize_lt hcapacity rfl
      (sized_pairState leftVar) hrun ?_).1
    have hsplit : KeepsOffsets pairBody (.split pairLoop) := by
      rintro v o ⟨va, hva, -, rfl, -⟩
      have hv : v ∈ pairBody.bodyAlloc.vars.keys := AList.mem_keys.mpr
        (AList.lookup_isSome.mp (Option.isSome_iff_exists.mpr ⟨va, hva⟩))
      rw [hkeys] at hv
      rcases List.mem_pair.mp hv with rfl | rfl
      · exact hright
      · exact hleft
    exact List.forall_mem_cons.mpr ⟨trivial, List.forall_mem_cons.mpr ⟨trivial,
      List.forall_mem_singleton.mpr hsplit⟩⟩

end Bao.Schematic
