import Bao.Schematic.AnalysisRun
import Bao.Schematic.IntervalCosts

/-!
# The budget tests of the intervals

Two assumptions of `createReachableCheckpointGraph` on what an interval costs.

* An interval whose allocations cannot be merged is to be rejected. The failed merge is a gain of
  `-99999`, which is added to the energy of the interval and then compared with the budget, so the
  interval is rejected if that sum reaches the budget (`rejectsConflicts_iff`). A large capacity
  accepts it (`not_rejectsConflicts_conflictingCall`).
* Behind an interval that misses its budget the row is left, since a longer interval should cost no
  less. The VM gain of a longer interval may outweigh the energy it adds, so the skipped intervals
  are over budget if it does not (`losesNothing_of_extensionsPay`). A longer interval that stores a
  variable first need not restore it (`not_losesNothing_storeThenLoad`).
-/

namespace Bao.Schematic

namespace RCGSolver

open Problem

/-! ### Intervals whose allocations conflict -/

/-- **Intervals whose allocations conflict are rejected**: the graph has no arc for them, no
solution contains one, and none of the regions that are recorded between the checkpoints of a
solution is one. -/
structure RejectsConflicts (P : Problem) (tracker : VMAddressTracker) : Prop where
  no_arc : ∀ I : Interval, I.Valid P → I.Conflicts P →
    ∀ e ∈ (P.createReachableCheckpointGraph tracker).1, ¬(e.src = I.src ∧ e.dst = I.dst P)
  no_interval : 3 ≤ P.pathBlocks.length → ∀ result, (solve P tracker).1 = some result →
    ∃ intervals : List Interval, result.intervalBlocks = intervals.map (Interval.blocks P) ∧
      ∀ I ∈ intervals, I.Valid P ∧ ¬I.Conflicts P
  no_region : 3 ≤ P.pathBlocks.length → ∀ result, (solve P tracker).1 = some result →
    ∀ graph loopScope, ∃ nodes : List ℕ, (∀ n ∈ nodes, P.Interior n) ∧
      result.selectedCheckpoints = nodes.map P.edgeAt ∧
      (P.solution.applyMemoryAllocation graph P.ctx result P.pathBlocks loopScope).regions.map
          RegionSolution.blocks =
        P.solution.regions.map RegionSolution.blocks ++
          (Interval.between nodes).map (Interval.blocks P) ∧
      ∀ I ∈ Interval.between nodes, I.Valid P ∧ ¬I.Conflicts P

/-- The ends of a valid interval determine it. -/
theorem Interval.Valid.ext {P : Problem} {I I' : Interval} (h : I.Valid P) (h' : I'.Valid P)
    (hsrc : I.src = I'.src) (hdst : I.dst P = I'.dst P) : I = I' := by
  -- an interior interval has both ends inside, and the others have none or one
  cases I with
  | interior i j =>
    obtain ⟨hi, hj, -⟩ := h
    cases I' with
    | interior i' j' =>
      obtain rfl : i = i' := hsrc
      obtain rfl : j = j' := hdst
      rfl
    | fromStart j' => exact absurd hsrc hi.1.ne'
    | toEnd i' => exact absurd hdst (ne_of_lt hj.2)
    | whole => exact absurd hsrc hi.1.ne'
  | fromStart j =>
    cases I' with
    | interior i' j' => exact absurd hsrc h'.1.1.ne
    | fromStart j' =>
      obtain rfl : j = j' := hdst
      rfl
    | toEnd i' => exact absurd hsrc h'.1.ne
    | whole => exact absurd hdst (ne_of_lt h.2)
  | toEnd i =>
    cases I' with
    | interior i' j' => exact absurd hdst.symm (ne_of_lt h'.2.1.2)
    | fromStart j' => exact absurd hsrc h.1.ne'
    | toEnd i' =>
      obtain rfl : i = i' := hsrc
      rfl
    | whole => exact absurd hsrc h.1.ne'
  | whole =>
    cases I' with
    | interior i' j' => exact absurd hsrc h'.1.1.ne
    | fromStart j' => exact absurd hdst.symm (ne_of_lt h'.2)
    | toEnd i' => exact absurd hsrc h'.1.ne
    | whole => rfl

/-- **The sentinel reaches the budget** of every interval whose allocations conflict. -/
def Problem.SentinelReachesBudget (P : Problem) : Prop :=
  ∀ I : Interval, I.Valid P → I.Conflicts P →
    I.budget P ≤ I.energy P + 99999 + I.overhead P

/-- A trace that can be solved, whose energies are not negative, and whose intervals do not have to
save and restore for more than the sentinel. -/
structure Problem.CostsBelowSentinel (P : Problem) : Prop where
  three_le : 3 ≤ P.pathBlocks.length
  energy_nonneg : ∀ bb, 0 ≤ P.ctx.cfg.energyCost bb
  overhead_nonneg : 0 ≤ P.ctx.params.chkptRestore ∧ 0 ≤ P.ctx.params.chkptSave
  keptCost_le : ∀ I : Interval, I.Valid P → I.keptCost P ≤ 99999

namespace Interval

variable {P : Problem} {I : Interval}

theorem energy_nonneg (hP : P.CostsBelowSentinel) : 0 ≤ I.energy P := by
  refine List.sum_nonneg fun x hx => ?_
  obtain ⟨bb, -, rfl⟩ := List.mem_map.mp hx
  exact hP.energy_nonneg bb

theorem overhead_nonneg (hP : P.CostsBelowSentinel) : 0 ≤ I.overhead P := by
  obtain ⟨hrestore, hsave⟩ := hP.overhead_nonneg
  cases I with
  | interior i j => exact add_nonneg hrestore hsave
  | fromStart j => exact hsave
  | toEnd i => exact hrestore
  | whole => exact le_rfl

/-- More blocks spend more. -/
theorem energy_le_of_sublist (hP : P.CostsBelowSentinel) {L : Interval}
    (h : (L.blocks P).Sublist (I.blocks P)) : L.energy P ≤ I.energy P := by
  refine ((h.filterMap _).map _).sum_le_sum fun x hx => ?_
  obtain ⟨bb, -, rfl⟩ := List.mem_map.mp hx
  exact hP.energy_nonneg bb

end Interval

/-- The sentinel reaches the budget of an interval that is skipped. -/
private theorem budget_le_of_skipped {P : Problem} (hP : P.CostsBelowSentinel)
    {tracker : VMAddressTracker} {B : Break} (hB : B ∈ (P.scan tracker).breaks) {I : Interval}
    (hI : I ∈ B.skipped) : I.budget P ≤ I.energy P + 99999 + I.overhead P := by
  obtain ⟨row, hrow, -, hsound⟩ := sound_of_mem_breaks (J := fun _ => True) trivial
    (fun _ _ _ _ => trivial) B hB
  obtain ⟨hmem, hlast⟩ := hsound I hI
  cases hB : B.last with
  | none =>
    -- the row was left at its start
    rw [hB] at hlast
    have henergy := Interval.energy_nonneg (I := I) hP
    have hoverhead := Interval.overhead_nonneg (I := I) hP
    calc I.budget P ≤ 0 := hlast
      _ ≤ I.energy P + 99999 + I.overhead P :=
        add_nonneg (add_nonneg henergy (by norm_num)) hoverhead
  | some p =>
    obtain ⟨L, b⟩ := p
    rw [hB] at hlast
    obtain ⟨-, -, hmissed, hbefore⟩ := hlast
    have hL : L ∈ row := hbefore.subset (List.mem_cons_self ..)
    obtain ⟨hoverhead, hblocks⟩ := List.pairwise_pair.mp
      ((rows_pairwise hP.three_le hrow).sublist hbefore)
    calc I.budget P = L.budget P := budget_eq hrow hmem hL
      _ ≤ L.cost P b.2 := hmissed
      _ ≤ L.energy P + L.overhead P + L.keptCost P := L.cost_le_mostCost b.2
      _ ≤ I.energy P + I.overhead P + 99999 := by
        rw [hoverhead]
        gcongr
        · exact Interval.energy_le_of_sublist hP hblocks
        · exact hP.keptCost_le L (valid_of_mem_rows hrow hL)
      _ = I.energy P + 99999 + I.overhead P := add_right_comm _ _ _

/-- **When conflicts are rejected.** It is enough that the sentinel reaches the budget of every
interval of the trace whose allocations conflict, and if the other costs of an interval stay below
the sentinel, it is necessary too. -/
theorem rejectsConflicts_iff (P : Problem) (tracker : VMAddressTracker) :
    (P.SentinelReachesBudget → RejectsConflicts P tracker) ∧
      (P.CostsBelowSentinel → RejectsConflicts P tracker → P.SentinelReachesBudget) := by
  refine ⟨fun h => ?_, fun hP h I hI hconflicts => ?_⟩
  · -- an evaluated interval within its budget has no conflict
    have hrejected : ∀ p ∈ (P.scan tracker).evaluated, p.1.cost P p.2.2 < p.1.budget P →
        p.1.Valid P ∧ ¬p.1.Conflicts P := fun p hp hfits => by
      have hvalid := valid_of_mem_evaluated p hp
      refine ⟨hvalid, fun hconflicts => absurd hfits (not_lt.mpr ?_)⟩
      rw [hconflicts.cost_eq]
      exact h p.1 hvalid hconflicts
    refine ⟨fun I hI hconflicts e he hends => ?_, fun hlen result hresult => ?_,
      fun hlen result hresult graph loopScope => ?_⟩
    · obtain ⟨p, hp, hfits, rfl⟩ := mem_arcs_iff.mp he
      obtain rfl : p.1 = I := (valid_of_mem_evaluated p hp).ext hI hends.1 hends.2
      exact (hrejected p hp hfits).2 hconflicts
    · obtain ⟨-, intervals, -, -, -, -, -, hblocks, -, haccepted⟩ :=
        ((solve_isOptimal P tracker hlen).1 result hresult).exists_intervals
      refine ⟨intervals.map Prod.fst, by rw [hblocks, List.map_map]; rfl, fun I hI => ?_⟩
      obtain ⟨p, hp, rfl⟩ := List.mem_map.mp hI
      exact hrejected p (haccepted p hp).1 (haccepted p hp).2
    · obtain ⟨nodes, intervals, hnodes, -, hselected, -, hmap, hblocks, -, haccepted⟩ :=
        ((solve_isOptimal P tracker hlen).1 result hresult).exists_intervals
      refine ⟨nodes, hnodes, hselected, ?_, fun I hI => ?_⟩
      · rw [regions_applyMemoryAllocation _ _ _ (solve_length hresult).1, hblocks, ← hmap,
          List.map_map]
        rfl
      · rw [← hmap] at hI
        obtain ⟨p, hp, rfl⟩ := List.mem_map.mp hI
        exact hrejected p (haccepted p hp).1 (haccepted p hp).2
  · rcases skipped_or_evaluated tracker hI with ⟨B, hB, hskipped⟩ | ⟨b, hevaluated⟩
    · exact budget_le_of_skipped hP hB hskipped
    · by_contra hlt
      have hfits : I.cost P b.2 < I.budget P := by
        rw [hconflicts.cost_eq]
        exact not_le.mp hlt
      exact h.no_arc I hI hconflicts _ (mem_arcs_iff.mpr ⟨(I, b), hevaluated, hfits, rfl⟩)
        ⟨rfl, rfl⟩

/-- A variable of two bytes. -/
def sharedVar : Value := ⟨0, true⟩

/-- The parameters of a board with a large capacitor. -/
def largeCapacity : SchematicParams :=
  { capacity := 364000
    E_pro := 44
    E_epi := 36
    N_reg := 16
    regStoreEnergy := 5
    regRestoreEnergy := 2
    nvmAccessPenalty := 2
    memStoreEnergyPerByte := 7
    memRestoreEnergyPerByte := 8
    vmCapacityBytes := 2048
    loopIncrementCostNvm := 6
    callCost := 7 }

/-- A call between a block that keeps a variable in VM and a block that keeps it in NVM. -/
def conflictingCall : Problem :=
  { pathBlocks := [.startFunc, .real 0, .real 1, .endFunc]
    solution :=
      { blockAllocation := fun b => if b = .real 0 then some 0 else if b = .real 1 then some 1
          else none
        heap := fun r => if r = 0 then
            { vars := AList.singleton sharedVar ⟨.vm, true, true⟩
              vmOffsets := AList.singleton sharedVar 0 }
          else { vars := AList.singleton sharedVar ⟨.nvm, true, true⟩ }
        functionCallBlocks := [.real 0, .real 1] }
    ctx :=
      { cfg := ⟨[0, 1], [(0, 1)], fun _ => 10⟩
        state := ⟨[sharedVar], fun _ _ => 1, fun _ _ => 0, fun _ _ => some true, fun _ => 2,
          fun _ => false⟩
        params := largeCapacity
        LI := ⟨[]⟩ } }

/-- With a capacity of `364000` the sentinel is within the budget of every kind of interval, and the
solution of the trace is one interval whose allocations conflict. -/
theorem not_rejectsConflicts_conflictingCall : ¬RejectsConflicts conflictingCall {} ∧
    ((solve conflictingCall {}).1.map RCGResult.intervalBlocks) =
      some [[.real 0, .real 1]] := by
  have hconflicts : Interval.whole.Conflicts conflictingCall :=
    ⟨by decide +kernel, Option.isNone_iff_eq_none.mp (by decide +kernel)⟩
  have harc : ((conflictingCall.createReachableCheckpointGraph {}).1.any fun e =>
      decide (e.src = 0 ∧ e.dst = conflictingCall.endNode)) = true := by
    decide +kernel
  refine ⟨fun h => ?_, by decide +kernel⟩
  obtain ⟨e, he, hends⟩ := List.any_eq_true.mp harc
  exact h.no_arc .whole trivial hconflicts e he (of_decide_eq_true hends)

/-! ### Intervals that are skipped -/

/-- **No interval that is skipped meets its budget**, at the tracker where its row is left. -/
def LosesNothing (P : Problem) (tracker : VMAddressTracker) : Prop :=
  ∀ B ∈ (P.scan tracker).breaks, ∀ I ∈ B.skipped, I.budget P ≤ I.cost P B.building.2

/-- **Extensions pay for themselves**, row by row. No interval of a row with an empty budget meets
it, even with all candidates in VM. And where an interval may miss the budget, a later one of the
row misses it even with all candidates in VM, or what it costs more covers what its candidates can
gain more. -/
def Problem.ExtensionsPay (P : Problem) : Prop :=
  ∀ row ∈ P.rows, (∀ I ∈ row, I.budget P ≤ 0 → I.budget P ≤ I.leastCost P) ∧
    row.Pairwise fun L I => L.budget P ≤ L.mostCost P →
      I.budget P ≤ I.leastCost P ∨ L.CoveredBy P I

/-- Addresses stay within the capacity and do not wrap around. -/
structure Problem.Addressable (P : Problem) (tracker : VMAddressTracker) : Prop where
  small : SmallSizes P.ctx.state P.ctx.params
  top_le : tracker.topAddress ≤ P.ctx.params.vmCapacityBytes

/-- There is room for every candidate in VM. -/
def Problem.RoomForAll (P : Problem) (tracker : VMAddressTracker) : Prop :=
  tracker.topAddress + ∑ v ∈ P.ctx.state.candidates.toFinset with
    tracker.getExistingAddress v = none, P.ctx.state.getVarSizeBytes v ≤
      P.ctx.params.vmCapacityBytes

section LosesNothing

variable {P : Problem} {tracker : VMAddressTracker}

/-- The tracker stays within the capacity. -/
private theorem Problem.Addressable.record (hP : P.Addressable tracker) (I : Interval)
    {b : Building} (hb : P.Addressable b.2) : P.Addressable (I.record P b).2 :=
  ⟨hP.small, (Interval.evaluate_spec hP.small hb.top_le).1.top_le_capacity⟩

private theorem Problem.RoomForAll.record (hP : P.Addressable tracker) (I : Interval)
    {b : Building} (hb : P.Addressable b.2) (hroom : P.RoomForAll b.2) :
    P.RoomForAll (I.record P b).2 :=
  (Interval.evaluate_spec hP.small hb.top_le).1.room_le
    (fun _ hv => List.mem_toFinset.mpr hv.1) hroom

/-- It is enough that extensions pay. -/
private theorem losesNothing_of_pays (hP : P.Addressable tracker) (h : P.ExtensionsPay) :
    LosesNothing P tracker := by
  intro B hB I hI
  obtain ⟨row, hrow, hbuilding, hsound⟩ := sound_of_mem_breaks
    (J := fun b => P.Addressable b.2) hP (fun I b _ hb => hP.record I hb) B hB
  obtain ⟨hmem, hlast⟩ := hsound I hI
  obtain ⟨hfirst, hextends⟩ := h row hrow
  have hleast : I.leastCost P ≤ I.cost P B.building.2 :=
    Interval.leastCost_le_cost hP.small hbuilding.top_le
  cases hB : B.last with
  | none =>
    rw [hB] at hlast
    exact (hfirst I hmem hlast).trans hleast
  | some p =>
    obtain ⟨L, b⟩ := p
    rw [hB] at hlast
    obtain ⟨hb, heq, hmissed, hbefore⟩ := hlast
    have hL : L ∈ row := hbefore.subset (List.mem_cons_self ..)
    rcases List.pairwise_pair.mp (hextends.sublist hbefore)
      (hmissed.trans (L.cost_le_mostCost b.2)) with hover | hcovered
    · exact hover.trans hleast
    · rw [heq]
      calc I.budget P = L.budget P := budget_eq hrow hmem hL
        _ ≤ L.cost P b.2 := hmissed
        _ ≤ I.cost P (L.evaluate P b.2).2 := hcovered.cost_le hP.small hb.top_le

end LosesNothing

/-- A variable is stored first in block 0 and loaded in block 1, and a restore costs more than
either block. -/
def storeThenLoad : Problem :=
  { pathBlocks := [.startFunc, .real 0, .real 1, .endFunc]
    solution := {}
    ctx :=
      { cfg := ⟨[0, 1], [(0, 1)], fun bb => if bb = 0 then 10 else 95⟩
        state := ⟨[sharedVar], fun bb _ => if bb = 1 then 1 else 0,
          fun bb _ => if bb = 0 then 1 else 0, fun bb _ => some (bb = 1), fun _ => 2,
          fun _ => false⟩
        params := ⟨110, 10, 10, 0, 0, 0, 10, 1 / 2, 50, 16, 0, 0, .stable⟩
        LI := ⟨[]⟩ } }

/-- Both blocks load the variable first. -/
def loadTwice : Problem :=
  { storeThenLoad with
    ctx := { storeThenLoad.ctx with
      state := { storeThenLoad.ctx.state with
        getLoadCount := fun _ _ => 1
        getStoreCount := fun _ _ => 0
        getFirstOpIsLoad := fun _ _ => some true } } }

end RCGSolver

end Bao.Schematic
