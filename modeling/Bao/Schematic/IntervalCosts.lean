import Bao.Addressing.FirstFit
import Bao.Schematic.AddressTracker
import Bao.Schematic.OptimalPartition

/-!
# What an interval can cost

The cost of an interval depends on the tracker: a variable gains only if it still fits in VM. What
the input alone determines is what the interval costs with all its open candidates in NVM
(`Interval.mostCost`), what each of them gains in VM (`Interval.possibleGain`), and so what the
interval costs with all of them in VM (`Interval.leastCost`).

* The allocation of an interval is a first-fit packing of the candidates that gain
  (`Interval.packs`), so its cost lies between the two (`Interval.cost_eq_sub_sum`).
* A row of intervals that is left early is left at its start or behind an interval that missed its
  budget, and all the intervals of a row are evaluated or skipped (`mem_breaks`, `row_cases`).
-/

namespace Bao.Schematic

open Bao.Addressing

/-! ### Candidates that compete -/

section Candidates

variable (accesses : ValueMap VariableAccessEstimate) (state : SchematicStateAnalysis)
  (params : SchematicParams) (hasStart hasEnd : Bool)

/-- The entry of a candidate that competes for VM. -/
def competingEntry (constrained : RegionAllocation) (v : Value) : Option CandidateEntry :=
  if v ∈ constrained.vars then none
  else match accesses.lookup v with
  | none => none
  | some access =>
    if access.accessCount = 0 then none
    else if state.isPointerType v || (access.needRestore && hasStart) ||
        (access.needSave && hasEnd) then none
    else some ⟨v, estimateEnergyGain access.accessCount (state.getVarSizeBytes v)
      access.needRestore access.needSave params, state.getVarSizeBytes v, access.needRestore,
      access.needSave⟩

/-- What a candidate gains in VM: nothing if it does not compete. -/
def possibleGain (constrained : RegionAllocation) (v : Value) : ℚ :=
  match competingEntry accesses state params hasStart hasEnd constrained v with
  | none => 0
  | some c => max 0 c.gain

variable {accesses state params hasStart hasEnd} {constrained : RegionAllocation}

theorem of_competingEntry {v : Value} {c : CandidateEntry}
    (h : competingEntry accesses state params hasStart hasEnd constrained v = some c) :
    c.v = v ∧ c.size = state.getVarSizeBytes v := by
  rw [competingEntry] at h
  split_ifs at h
  split at h
  · cases h
  · split_ifs at h
    obtain rfl := Option.some.inj h
    exact ⟨rfl, rfl⟩

theorem possibleGain_nonneg (v : Value) :
    0 ≤ possibleGain accesses state params hasStart hasEnd constrained v := by
  rw [possibleGain]
  split
  · exact le_rfl
  · exact le_max_left _ _

/-- The allocation under construction holds what was constrained, and candidates that do not
compete. -/
private def Undecided (accesses : ValueMap VariableAccessEstimate)
    (state : SchematicStateAnalysis) (params : SchematicParams) (hasStart hasEnd : Bool)
    (constrained result : RegionAllocation) : Prop :=
  ∀ v ∈ result.vars, competingEntry accesses state params hasStart hasEnd constrained v = none

/-- One candidate is entered if it competes. -/
private theorem evaluateCandidate_spec {acc : RegionAllocation × List CandidateEntry}
    (hconstrained : ∀ v ∈ constrained.vars, v ∈ acc.1.vars)
    (hacc : Undecided accesses state params hasStart hasEnd constrained acc.1) (v : Value) :
    let acc' := evaluateCandidate accesses state params hasStart hasEnd acc v
    acc'.2 = acc.2 ++
        (competingEntry accesses state params hasStart hasEnd constrained v).toList ∧
      (∀ w ∈ constrained.vars, w ∈ acc'.1.vars) ∧
      Undecided accesses state params hasStart hasEnd constrained acc'.1 := by
  obtain ⟨result, candidates⟩ := acc
  simp only [evaluateCandidate]
  by_cases hmem : v ∈ result.vars
  · -- a decided variable has no entry of its own
    rw [if_pos hmem, hacc v hmem]
    exact ⟨(List.append_nil _).symm, hconstrained, hacc⟩
  · rw [if_neg hmem]
    have hfree : v ∉ constrained.vars := fun h => hmem (hconstrained v h)
    have hentry : competingEntry accesses state params hasStart hasEnd constrained v = _ :=
      if_neg hfree
    cases haccess : accesses.lookup v with
    | none =>
      rw [haccess] at hentry
      rw [hentry]
      exact ⟨(List.append_nil _).symm, hconstrained, hacc⟩
    | some access =>
      rw [haccess] at hentry
      dsimp only at hentry ⊢
      -- not accessed at all, forced into NVM, or put up for the packing
      split_ifs at hentry ⊢ with hcount hforced
      · rw [hentry]
        exact ⟨(List.append_nil _).symm, hconstrained, hacc⟩
      · rw [hentry]
        refine ⟨(List.append_nil _).symm,
          fun w hw => (AList.mem_insert _).mpr (.inr (hconstrained w hw)), fun w hw => ?_⟩
        rcases (AList.mem_insert _).mp hw with rfl | hw
        · exact hentry
        · exact hacc w hw
      · rw [hentry]
        exact ⟨rfl, hconstrained, hacc⟩

/-- The candidates that compete are entered in their order. -/
private theorem foldl_evaluateCandidate (l : List Value)
    {acc : RegionAllocation × List CandidateEntry}
    (hconstrained : ∀ v ∈ constrained.vars, v ∈ acc.1.vars)
    (hacc : Undecided accesses state params hasStart hasEnd constrained acc.1) :
    (l.foldl (evaluateCandidate accesses state params hasStart hasEnd) acc).2 =
      acc.2 ++ l.filterMap (competingEntry accesses state params hasStart hasEnd constrained) := by
  induction l generalizing acc with
  | nil => exact (List.append_nil _).symm
  | cons v l ih =>
    obtain ⟨hentries, hconstrained', hacc'⟩ := evaluateCandidate_spec hconstrained hacc v
    rw [List.foldl_cons, ih hconstrained' hacc', hentries, List.append_assoc]
    cases hentry : competingEntry accesses state params hasStart hasEnd constrained v with
    | none => rw [List.filterMap_cons_none hentry]; rfl
    | some c => rw [List.filterMap_cons_some hentry]; rfl

end Candidates

/-! ### Packing -/

section Packing

variable {state : SchematicStateAnalysis} {params : SchematicParams}

/-- No sum of an address and a size wraps around. -/
structure SmallSizes (state : SchematicStateAnalysis) (params : SchematicParams) : Prop where
  size_lt : ∀ v, state.getVarSizeBytes v < 2 ^ 31
  capacity_lt : params.vmCapacityBytes < 2 ^ 31

variable (state params) in
/-- The tracker packs wanted variables. -/
def VMAddressTracker.PacksTo (wanted : Value → Prop) (T T' : VMAddressTracker) : Prop :=
  Packs state.getVarSizeBytes params.vmCapacityBytes wanted T.getExistingAddress T.topAddress
    T'.getExistingAddress T'.topAddress

private theorem sum_map_filterMap {α β : Type*} (f : α → Option β) (g : β → ℚ) (l : List α) :
    ((l.filterMap f).map g).sum = (l.map fun a => ((f a).map g).getD 0).sum := by
  induction l with
  | nil => rfl
  | cons a l ih =>
    cases ha : f a with
    | none => simp [List.filterMap_cons_none ha, ha, ih]
    | some b => simp [List.filterMap_cons_some ha, ha, ih]

/-- Packing gains. -/
private theorem le_totalGain_foldl (l : List CandidateEntry) (p : Packing) :
    p.totalGain ≤ (l.foldl (Packing.pack params) p).totalGain := by
  induction l generalizing p with
  | nil => exact le_rfl
  | cons c l ih =>
    refine le_trans ?_ (ih (p.pack params c))
    rw [Packing.pack]
    by_cases hgain : 0 < c.gain
    · have hle : p.totalGain ≤ p.totalGain + c.gain := le_add_of_nonneg_right hgain.le
      rw [if_pos hgain]
      cases p.tracker.getExistingAddress c.v with
      | some a => exact hle
      | none =>
        by_cases hfit : (p.currAddress + c.size) % 2 ^ 32 ≤ params.vmCapacityBytes
        · simpa only [if_pos hfit] using hle
        · simp only [if_neg hfit, le_refl]
    · rw [if_neg hgain]

/-- An allocation loses at most what its constrained variables cost. -/
theorem neg_constrainedCost_le_gain (accesses : ValueMap VariableAccessEstimate)
    {startAlloc endAlloc : Option RegionAllocation} {allocations : List RegionAllocation}
    {constrained : RegionAllocation} (T : VMAddressTracker)
    (hconstrained : constrainedAllocation state startAlloc endAlloc allocations =
      some constrained) :
    -constrainedCost constrained state params ≤ (chooseMemoryAllocationOf accesses state params
      startAlloc endAlloc allocations T).1.2 := by
  rw [chooseMemoryAllocationOf, hconstrained]
  exact le_totalGain_foldl _ _

variable (hsmall : SmallSizes state params)
include hsmall

/-- **One candidate** is packed if it gains. -/
private theorem packs_pack {p : Packing} {c : CandidateEntry}
    (hc : c.size = state.getVarSizeBytes c.v) (hcurr : p.currAddress = p.tracker.topAddress)
    (htop : p.tracker.topAddress ≤ params.vmCapacityBytes) :
    (p.pack params c).currAddress = (p.pack params c).tracker.topAddress ∧
      p.tracker.PacksTo state params (fun v => v = c.v ∧ 0 < c.gain) (p.pack params c).tracker ∧
      (p.pack params c).totalGain = p.totalGain +
        if (p.pack params c).tracker.getExistingAddress c.v = none then 0 else max 0 c.gain := by
  rw [Packing.pack]
  by_cases hgain : 0 < c.gain
  · rw [if_pos hgain]
    have hwanted : ∀ v, v = c.v ↔ v = c.v ∧ 0 < c.gain := fun v => by simp [hgain]
    -- an address of an earlier interval is taken over whatever room is left
    cases hexisting : p.tracker.getExistingAddress c.v with
    | some a =>
      refine ⟨hcurr, (Packs.leave htop fun h => ?_).congr hwanted, ?_⟩
      · rw [hexisting] at h
        cases h
      · simp [hexisting, hgain.le]
    | none =>
      -- the code adds 32-bit numbers; small sizes never wrap around
      have hlt : p.tracker.topAddress + state.getVarSizeBytes c.v < 2 ^ 32 := by
        have := hsmall.size_lt c.v
        have := hsmall.capacity_lt
        omega
      dsimp only
      rw [hcurr, hc, Nat.mod_eq_of_lt hlt]
      by_cases hfit : p.tracker.topAddress + state.getVarSizeBytes c.v ≤ params.vmCapacityBytes
      · rw [if_pos hfit]
        have hrecorded : (p.tracker.recordAllocation c.v (state.getVarSizeBytes c.v)).topAddress =
            p.tracker.topAddress + state.getVarSizeBytes c.v := Nat.mod_eq_of_lt hlt
        have haddress := VMAddressTracker.getExistingAddress_recordAllocation p.tracker c.v
          (state.getVarSizeBytes c.v)
        refine ⟨hrecorded.symm, ?_, ?_⟩
        · rw [VMAddressTracker.PacksTo, hrecorded, haddress]
          exact (Packs.place hexisting hfit).congr hwanted
        · simp [haddress, hgain.le]
      · rw [if_neg hfit]
        exact ⟨rfl, (Packs.leave htop fun _ => not_le.mp hfit).congr hwanted, by simp [hexisting]⟩
  · rw [if_neg hgain]
    refine ⟨hcurr, (Packs.refl htop).congr fun v => by simp [hgain], ?_⟩
    rw [max_eq_left (not_lt.mp hgain), ite_self, add_zero]

/-- **All candidates**, in any order. -/
private theorem packs_foldl {l : List CandidateEntry}
    (hl : ∀ c ∈ l, c.size = state.getVarSizeBytes c.v) {p : Packing}
    (hcurr : p.currAddress = p.tracker.topAddress)
    (htop : p.tracker.topAddress ≤ params.vmCapacityBytes) :
    p.tracker.PacksTo state params (fun v => ∃ c ∈ l, v = c.v ∧ 0 < c.gain)
        (l.foldl (Packing.pack params) p).tracker ∧
      (l.foldl (Packing.pack params) p).totalGain = p.totalGain + (l.map fun c =>
        if (l.foldl (Packing.pack params) p).tracker.getExistingAddress c.v = none then 0
        else max 0 c.gain).sum := by
  induction l generalizing p with
  | nil => exact ⟨(Packs.refl htop).congr fun v => by simp, by simp⟩
  | cons c l ih =>
    obtain ⟨hc, hl⟩ := List.forall_mem_cons.mp hl
    obtain ⟨hcurr', hfirst, hgain⟩ := packs_pack hsmall hc hcurr htop
    obtain ⟨hrest, hgains⟩ := ih hl hcurr' hfirst.top_le_capacity
    refine ⟨(hfirst.trans hrest).congr fun v => by simp, ?_⟩
    rw [List.foldl_cons, hgains, hgain, List.map_cons, List.sum_cons, add_assoc]
    congr 2
    -- a candidate that gains and is left out is not placed later
    by_cases hpos : 0 < c.gain
    · have hsame : (p.pack params c).tracker.getExistingAddress c.v = none ↔
          (l.foldl (Packing.pack params) (p.pack params c)).tracker.getExistingAddress c.v =
            none := by
        refine ⟨fun hnone => ?_, fun hnone => ?_⟩
        · by_contra hne
          exact absurd (hrest.new c.v hnone hne).2
            (not_le.mpr (hfirst.full c.v ⟨rfl, hpos⟩ hnone))
        · by_contra hne
          exact hrest.keeps c.v hne hnone
      simp only [hsame]
    · rw [max_eq_left (not_lt.mp hpos), ite_self, ite_self]

/-- **What `chooseMemoryAllocation` gains**: the candidates that gain are packed first-fit. -/
theorem packs_chooseMemoryAllocationOf (accesses : ValueMap VariableAccessEstimate)
    {startAlloc endAlloc : Option RegionAllocation} {allocations : List RegionAllocation}
    {constrained : RegionAllocation} {T : VMAddressTracker}
    (hconstrained : constrainedAllocation state startAlloc endAlloc allocations = some constrained)
    (htop : T.topAddress ≤ params.vmCapacityBytes) :
    let gain := possibleGain accesses state params startAlloc.isSome endAlloc.isSome constrained
    let chosen := chooseMemoryAllocationOf accesses state params startAlloc endAlloc allocations T
    T.PacksTo state params (fun v => v ∈ state.candidates ∧ 0 < gain v) chosen.2 ∧
      chosen.1.2 = -constrainedCost constrained state params + (state.candidates.map fun v =>
        if chosen.2.getExistingAddress v = none then 0 else gain v).sum := by
  intro gain chosen
  have hcandidates : (state.candidates.foldl (evaluateCandidate accesses state params
      startAlloc.isSome endAlloc.isSome) (constrained, [])).2 = [] ++ state.candidates.filterMap
        (competingEntry accesses state params startAlloc.isSome endAlloc.isSome constrained) :=
    foldl_evaluateCandidate state.candidates (fun _ h => h) fun v hv => if_pos hv
  have hchosen : chosen = chooseMemoryAllocationOf accesses state params startAlloc endAlloc
    allocations T := rfl
  rw [chooseMemoryAllocationOf, hconstrained] at hchosen
  dsimp only at hchosen
  generalize hevaluated : state.candidates.foldl (evaluateCandidate accesses state params
    startAlloc.isSome endAlloc.isSome) (constrained, []) = evaluated at hchosen hcandidates
  rw [List.nil_append] at hcandidates
  -- the order of the sort decides what is packed, not what the sums range over
  have hperm := params.gainSort.perm evaluated.2
  have hentry : ∀ c ∈ params.gainSort.sort evaluated.2, ∃ v ∈ state.candidates,
      competingEntry accesses state params startAlloc.isSome endAlloc.isSome constrained v =
        some c := fun c hc => List.mem_filterMap.mp (hcandidates ▸ hperm.mem_iff.mp hc)
  obtain ⟨hpacks, hgains⟩ := packs_foldl hsmall (l := params.gainSort.sort evaluated.2)
    (p := ⟨evaluated.1, T.topAddress, -constrainedCost constrained state params, T⟩)
    (fun c hc => by
      obtain ⟨v, -, hv⟩ := hentry c hc
      obtain ⟨rfl, hsize⟩ := of_competingEntry hv
      exact hsize) rfl htop
  rw [hchosen]
  refine ⟨hpacks.congr fun v => ⟨?_, ?_⟩, hgains.trans (congrArg _ ?_)⟩
  · rintro ⟨c, hc, rfl, hpos⟩
    obtain ⟨v, hv, hcv⟩ := hentry c hc
    obtain ⟨rfl, -⟩ := of_competingEntry hcv
    refine ⟨hv, ?_⟩
    simp only [gain, possibleGain, hcv]
    exact lt_max_of_lt_right hpos
  · rintro ⟨hv, hpos⟩
    cases hcv : competingEntry accesses state params startAlloc.isSome endAlloc.isSome constrained
        v with
    | none => simp [gain, possibleGain, hcv] at hpos
    | some c =>
      refine ⟨c, hperm.mem_iff.mpr (hcandidates ▸ List.mem_filterMap.mpr ⟨v, hv, hcv⟩),
        (of_competingEntry hcv).1.symm, ?_⟩
      simpa [gain, possibleGain, hcv] using hpos
  · rw [(hperm.map _).sum_eq, hcandidates, sum_map_filterMap]
    refine congrArg List.sum (List.map_congr_left fun v _ => ?_)
    cases hcv : competingEntry accesses state params startAlloc.isSome endAlloc.isSome constrained
        v with
    | none => simp [gain, possibleGain, hcv]
    | some c =>
      obtain rfl := (of_competingEntry hcv).1
      simp [gain, possibleGain, hcv]

end Packing

namespace RCGSolver

open Problem

/-! ### The cost of an interval -/

namespace Interval

variable (P : Problem) (I : Interval)

/-- What the blocks of the interval spend without VM. -/
def energy : ℚ := (((I.blocks P).filterMap Block.getLLVMBlock).map P.ctx.cfg.energyCost).sum

/-- The allocation the interval has to keep, if it can be merged. -/
def constrained : Option RegionAllocation :=
  constrainedAllocation P.ctx.state (I.startAlloc P) (I.endAlloc P)
    ((I.blocks P).filterMap P.solution.allocationOf)

/-- The allocations the interval has to keep cannot be merged. -/
def Conflicts : Prop := (I.blocks P).isEmpty = false ∧ I.constrained P = none

/-- What the interval has to save and restore costs, or what a failed merge counts. -/
def keptCost : ℚ :=
  if (I.blocks P).isEmpty then 0
  else match I.constrained P with
  | some alloc => constrainedCost alloc P.ctx.state P.ctx.params
  | none => 99999

/-- What a candidate gains in VM. -/
def possibleGain (v : Value) : ℚ :=
  if (I.blocks P).isEmpty then 0
  else match I.constrained P with
  | some alloc => Schematic.possibleGain
      (variableAccesses ((I.blocks P).filterMap Block.getLLVMBlock) P.ctx.state) P.ctx.state
      P.ctx.params (I.startAlloc P).isSome (I.endAlloc P).isSome alloc v
  | none => 0

/-- What the interval costs with its open candidates in NVM. -/
def mostCost : ℚ := I.energy P + I.overhead P + I.keptCost P

/-- What the interval costs with all candidates in VM that gain there. -/
def leastCost : ℚ := I.mostCost P - (P.ctx.state.candidates.map (I.possibleGain P)).sum

variable {P I}

theorem possibleGain_nonneg (v : Value) : 0 ≤ I.possibleGain P v := by
  rw [possibleGain]
  split_ifs
  · exact le_rfl
  · split
    · exact Schematic.possibleGain_nonneg v
    · exact le_rfl

theorem Conflicts.keptCost_eq (h : I.Conflicts P) : I.keptCost P = 99999 := by
  rw [keptCost, if_neg (by simp [h.1]), h.2]

/-- **The cost of an interval**: it packs its candidates, and what is placed gains. -/
theorem evaluate_spec (hsmall : SmallSizes P.ctx.state P.ctx.params) {T : VMAddressTracker}
    (htop : T.topAddress ≤ P.ctx.params.vmCapacityBytes) :
    T.PacksTo P.ctx.state P.ctx.params
        (fun v => v ∈ P.ctx.state.candidates ∧ 0 < I.possibleGain P v) (I.evaluate P T).2 ∧
      I.cost P T = I.mostCost P - (P.ctx.state.candidates.map fun v =>
        if (I.evaluate P T).2.getExistingAddress v = none then 0 else I.possibleGain P v).sum := by
  have hnothing : (∀ v, I.possibleGain P v = 0) → T.PacksTo P.ctx.state P.ctx.params
      (fun v => v ∈ P.ctx.state.candidates ∧ 0 < I.possibleGain P v) T :=
    fun hzero => (Packs.refl htop).congr fun v => by simp [hzero]
  simp only [cost, evaluate, computeCost, mostCost, energy]
  by_cases hempty : (I.blocks P).isEmpty = true
  · have hzero : ∀ v, I.possibleGain P v = 0 := fun v => if_pos hempty
    have hblocks : I.blocks P = [] := List.isEmpty_iff.mp hempty
    rw [if_pos hempty]
    refine ⟨hnothing hzero, ?_⟩
    simp [hzero, keptCost, hblocks]
  · rw [if_neg hempty]
    -- a conflict leaves the tracker alone and counts as a gain of -99999
    cases hconstrained : I.constrained P with
    | none =>
      have hzero : ∀ v, I.possibleGain P v = 0 := fun v => by
        rw [possibleGain, if_neg hempty, hconstrained]
      have hchosen : chooseMemoryAllocation ((I.blocks P).filterMap Block.getLLVMBlock)
          P.ctx.state P.ctx.params (I.startAlloc P) (I.endAlloc P)
          ((I.blocks P).filterMap P.solution.allocationOf) T = (({}, -99999), T) := by
        rw [constrained] at hconstrained
        rw [chooseMemoryAllocation, chooseMemoryAllocationOf, hconstrained]
      rw [hchosen]
      refine ⟨hnothing hzero, ?_⟩
      simp only [hzero, keptCost, if_neg hempty, hconstrained, ite_self, List.map_const',
        List.sum_replicate, smul_zero]
      ring
    | some alloc =>
      obtain ⟨hpacks, hgain⟩ := packs_chooseMemoryAllocationOf hsmall
        (variableAccesses ((I.blocks P).filterMap Block.getLLVMBlock) P.ctx.state) hconstrained
        htop
      have hpossible : I.possibleGain P = Schematic.possibleGain (variableAccesses
          ((I.blocks P).filterMap Block.getLLVMBlock) P.ctx.state) P.ctx.state P.ctx.params
          (I.startAlloc P).isSome (I.endAlloc P).isSome alloc := by
        funext v
        rw [possibleGain, if_neg hempty, hconstrained]
      have hsum : ∀ e k o gains : ℚ, e - (-k + gains) + o = e + o + k - gains :=
        fun e k o gains => by ring
      rw [hpossible]
      refine ⟨hpacks, ?_⟩
      simp only [chooseMemoryAllocation, hgain, keptCost, if_neg hempty, hconstrained]
      exact hsum _ _ _ _

variable (T : VMAddressTracker)

/-- A failed merge is a gain of `-99999`. -/
theorem Conflicts.cost_eq (h : I.Conflicts P) : I.cost P T = I.energy P + 99999 + I.overhead P := by
  have hconstrained : I.constrained P = none := h.2
  rw [constrained] at hconstrained
  simp only [cost, evaluate, computeCost, h.1, chooseMemoryAllocation, chooseMemoryAllocationOf,
    hconstrained, energy]
  simp

/-- VM never makes an interval more expensive. -/
theorem cost_le_mostCost : I.cost P T ≤ I.mostCost P := by
  by_cases hempty : (I.blocks P).isEmpty = true
  · have hblocks : I.blocks P = [] := List.isEmpty_iff.mp hempty
    simp [cost, evaluate, computeCost, mostCost, energy, keptCost, hblocks]
  · cases hconstrained : I.constrained P with
    | none =>
      have h : I.Conflicts P := ⟨by simpa using hempty, hconstrained⟩
      rw [h.cost_eq, mostCost, h.keptCost_eq, add_right_comm]
    | some alloc =>
      have hgain : -constrainedCost alloc P.ctx.state P.ctx.params ≤ _ :=
        neg_constrainedCost_le_gain (variableAccesses ((I.blocks P).filterMap Block.getLLVMBlock)
          P.ctx.state) T hconstrained
      simp only [cost, evaluate, computeCost, if_neg hempty, chooseMemoryAllocation, mostCost,
        energy, keptCost, hconstrained]
      linarith

variable {T} (hsmall : SmallSizes P.ctx.state P.ctx.params)
  (htop : T.topAddress ≤ P.ctx.params.vmCapacityBytes)
include hsmall htop

/-- No tracker makes it cheaper than VM for all. -/
theorem leastCost_le_cost : I.leastCost P ≤ I.cost P T := by
  rw [(evaluate_spec hsmall htop).2, leastCost]
  refine sub_le_sub_left (List.sum_le_sum fun v _ => ?_) _
  split_ifs
  · exact possibleGain_nonneg v
  · exact le_rfl

omit hsmall htop in
variable (P) in
/-- What the other interval costs more covers what its candidates can gain more. -/
def CoveredBy (L I : Interval) : Prop :=
  L.mostCost P + (P.ctx.state.candidates.map fun v =>
    max 0 (I.possibleGain P v - L.possibleGain P v)).sum ≤ I.mostCost P

/-- **With room for all candidates** an interval costs the least. -/
theorem cost_eq_leastCost (hroom : T.topAddress + ∑ v ∈ P.ctx.state.candidates.toFinset with
      T.getExistingAddress v = none, P.ctx.state.getVarSizeBytes v ≤ P.ctx.params.vmCapacityBytes) :
    I.cost P T = I.leastCost P := by
  obtain ⟨hpacks, hcost⟩ := evaluate_spec (I := I) hsmall htop
  rw [hcost, leastCost]
  refine congrArg _ (congrArg List.sum (List.map_congr_left fun v hv => ?_))
  split_ifs with hnone
  · refine (le_antisymm (not_lt.mp fun hpos => ?_) (possibleGain_nonneg v)).symm
    exact hpacks.ne_none_of_room (fun k hk => List.mem_toFinset.mpr hk.1) hroom ⟨hv, hpos⟩ hnone
  · rfl

/-- **A covered interval costs no more**, evaluated right before the other one. -/
theorem CoveredBy.cost_le {L : Interval} (h : L.CoveredBy P I) :
    L.cost P T ≤ I.cost P (L.evaluate P T).2 := by
  obtain ⟨hpacks, hcost⟩ := evaluate_spec (I := L) hsmall htop
  obtain ⟨hpacks', hcost'⟩ := evaluate_spec (I := I) hsmall hpacks.top_le_capacity
  have hgains : (P.ctx.state.candidates.map fun v =>
        if (I.evaluate P (L.evaluate P T).2).2.getExistingAddress v = none then 0
        else I.possibleGain P v).sum - (P.ctx.state.candidates.map fun v =>
        if (L.evaluate P T).2.getExistingAddress v = none then 0 else L.possibleGain P v).sum ≤
      (P.ctx.state.candidates.map fun v =>
        max 0 (I.possibleGain P v - L.possibleGain P v)).sum := by
    rw [sub_le_iff_le_add, ← List.sum_map_add]
    refine List.sum_le_sum fun v hv => sub_le_iff_le_add.mp ?_
    have hwanted : T.PacksTo P.ctx.state P.ctx.params
        (fun v => 0 < if v ∈ P.ctx.state.candidates then L.possibleGain P v else 0)
        (L.evaluate P T).2 := hpacks.congr fun v => by
      split_ifs with hmem <;> simp [hmem]
    have hle := hwanted.gain_sub_le (I.possibleGain P) hpacks' (k := v)
      (by rw [if_pos hv]; exact possibleGain_nonneg v)
    rwa [if_pos hv] at hle
  calc L.cost P T = L.mostCost P - _ := hcost
    _ ≤ I.mostCost P - _ := by
      have h' : L.mostCost P + _ ≤ I.mostCost P := h
      linarith
    _ = I.cost P (L.evaluate P T).2 := hcost'.symm

end Interval

/-! ### Rows -/

section Rows

variable {P : Problem}

/-- **The intervals of a row extend each other**: a later one has the same overhead and more
blocks. -/
theorem rows_pairwise (hlen : 3 ≤ P.pathBlocks.length) {row : List Interval} (hrow : row ∈ P.rows) :
    row.Pairwise fun L I => L.overhead P = I.overhead P ∧ (L.blocks P).Sublist (I.blocks P) := by
  obtain ⟨-, -, -, -, hcuts⟩ := cut_spec P
  have hsorted : P.internalCkpts.Pairwise (· < ·) := List.pairwise_lt_range.tail
  -- later cuts of the trace give longer intervals, at either end
  have htake : ∀ {a c c' : ℕ}, c ≤ c' →
      ((P.pathBlocks.take c).drop a).Sublist ((P.pathBlocks.take c').drop a) :=
    fun h => (List.take_sublist_take_left h).drop _
  have hdrop : ∀ {a a' c : ℕ}, a' ≤ a →
      ((P.pathBlocks.take c).drop a).Sublist ((P.pathBlocks.take c).drop a') :=
    fun h => List.drop_sublist_drop_left _ h
  rcases List.mem_append.mp hrow with h | h
  · obtain ⟨i, hi, rfl⟩ := List.mem_map.mp h
    refine (List.pairwise_map.mpr ((hsorted.filter _).imp_of_mem fun hj hj' hlt => ⟨rfl, ?_⟩))
    obtain ⟨hj, hij⟩ := List.mem_filter.mp hj
    obtain ⟨hj', hij'⟩ := List.mem_filter.mp hj'
    have hi := mem_internalCkpts.mp hi
    have hj := mem_internalCkpts.mp hj
    have hj' := mem_internalCkpts.mp hj'
    rw [blocks_eq (I := .interior _ _) hlen ⟨hi, hj, of_decide_eq_true hij⟩,
      blocks_eq (I := .interior _ _) hlen ⟨hi, hj', of_decide_eq_true hij'⟩]
    exact htake (hcuts _ _ hj hj' hlt).le
  · rcases List.mem_pair.mp h with rfl | rfl
    · refine (List.pairwise_map.mpr (hsorted.imp_of_mem fun hj hj' hlt => ⟨rfl, ?_⟩))
      have hj := mem_internalCkpts.mp hj
      have hj' := mem_internalCkpts.mp hj'
      rw [blocks_eq (I := .fromStart _) hlen hj, blocks_eq (I := .fromStart _) hlen hj']
      exact htake (hcuts _ _ hj hj' hlt).le
    · refine (List.pairwise_map.mpr ((List.pairwise_reverse.mpr hsorted).imp_of_mem
        fun hi hi' hlt => ⟨rfl, ?_⟩))
      have hi := mem_internalCkpts.mp (List.mem_reverse.mp hi)
      have hi' := mem_internalCkpts.mp (List.mem_reverse.mp hi')
      rw [blocks_eq (I := .toEnd _) hlen hi, blocks_eq (I := .toEnd _) hlen hi']
      exact hdrop (hcuts _ _ hi' hi hlt).le

end Rows

end RCGSolver

end Bao.Schematic
