import Mathlib.Data.List.AList
import Mathlib.Data.List.Sort
import Mathlib.Data.Rat.Defs
import Mathlib.Algebra.GroupWithZero.Nat
import Mathlib.Algebra.Order.Ring.Rat
import Mathlib.Algebra.Order.Ring.Unbundled.Rat

/-!
# Memory allocations

The memory allocator of the SCHEMATIC pass (`MemoryAllocator.cpp`): a region allocation places each
variable it mentions in VM or in NVM, and says which VM variables are saved at the end of the region
and restored at its start.

* `mergeAllocations` joins the allocations of the blocks of an interval, or fails;
* `chooseMemoryAllocation` keeps what is already decided and packs the remaining candidates by
  descending gain; the addresses it hands out are recorded in a `VMAddressTracker`;
* `extendsAllocation` adds the variables a further allocation mentions;
* `isCompatibleWith` is the test of `TraceAnalyzer.cpp` for two regions that meet without a
  checkpoint.

Energies are exact rationals. Addresses and sizes are `unsigned`, so sums are taken modulo `2 ^ 32`.
-/

namespace Bao.Schematic

/-- A candidate variable: a global or an alloca. `address` is the pointer `std::map` sorts by. -/
structure Value where
  address : Nat
  isGlobal : Bool
deriving DecidableEq

/-- A basic block of the function. -/
abbrev BasicBlock := Nat

/-- Where a region keeps a variable. -/
inductive Placement
  | vm
  | nvm
deriving DecidableEq

/-- A variable within a region (`VariableAllocation`). -/
structure VariableAllocation where
  placement : Placement := .nvm
  rawNeedRestore : Bool := true
  rawNeedSave : Bool := true
deriving DecidableEq

namespace VariableAllocation

/-- The variable is copied to its shadow when the region starts. -/
def needRestore (va : VariableAllocation) : Bool := va.rawNeedRestore && va.placement = .vm

/-- The variable is copied from its shadow when the region ends. -/
def needSave (va : VariableAllocation) : Bool := va.rawNeedSave && va.placement = .vm

end VariableAllocation

/-- A `std::map` keyed by variables. -/
abbrev ValueMap (ν : Type) := AList fun _ : Value => ν

namespace ValueMap

variable {ν : Type}

/-- The entries in the order in which a `std::map` is walked. -/
def walk (m : ValueMap ν) : List (Value × ν) :=
  (m.entries.map fun e => (e.1, e.2)).insertionSort fun a b => a.1.address ≤ b.1.address

end ValueMap

/-- The allocation of a region. -/
structure RegionAllocation where
  vars : ValueMap VariableAllocation := ∅
  vmOffsets : ValueMap Nat := ∅
  vmBytesUsed : Nat := 0
  intervalEnergy : ℚ := 0

/-- A variable the greedy packing may put in VM. -/
structure CandidateEntry where
  v : Value
  gain : ℚ
  size : Nat
  needRestore : Bool
  needSave : Bool

/-- `std::sort` by descending gain, which may leave candidates of equal gain in any order. -/
structure GainSort where
  sort : List CandidateEntry → List CandidateEntry
  perm : ∀ candidates, (sort candidates).Perm candidates
  sorted : ∀ candidates, (sort candidates).Pairwise fun a b => b.gain ≤ a.gain

/-- The sort that keeps candidates of equal gain in their order. -/
def GainSort.stable : GainSort where
  sort candidates := candidates.insertionSort fun a b => b.gain ≤ a.gain
  perm := List.perm_insertionSort _
  sorted candidates := by
    have : Std.Total fun a b : CandidateEntry => b.gain ≤ a.gain := ⟨fun a b => le_total _ _⟩
    have : IsTrans CandidateEntry fun a b => b.gain ≤ a.gain := ⟨fun _ _ _ h h' => h'.trans h⟩
    exact List.pairwise_insertionSort _ candidates

/-- The parameters of the pass (`SchematicParams`), and the sort it is compiled with. -/
structure SchematicParams where
  capacity : ℚ
  E_pro : ℚ
  E_epi : ℚ
  N_reg : Nat
  regStoreEnergy : ℚ
  regRestoreEnergy : ℚ
  nvmAccessPenalty : ℚ
  memStoreEnergyPerByte : ℚ
  memRestoreEnergyPerByte : ℚ
  vmCapacityBytes : Nat
  loopIncrementCostNvm : ℚ
  callCost : ℚ
  gainSort : GainSort := .stable

namespace SchematicParams

/-- What a boundary spends on waking up, registers included. -/
def chkptRestore (params : SchematicParams) : ℚ :=
  params.E_pro + params.N_reg * params.regRestoreEnergy

/-- What a boundary spends on going down, registers included. -/
def chkptSave (params : SchematicParams) : ℚ :=
  params.E_epi + params.N_reg * params.regStoreEnergy

end SchematicParams

/-- What the allocator reads of `SchematicStateAnalysis`. -/
structure SchematicStateAnalysis where
  candidates : List Value
  getLoadCount : BasicBlock → Value → Nat
  getStoreCount : BasicBlock → Value → Nat
  getFirstOpIsLoad : BasicBlock → Value → Option Bool
  getVarSizeBytes : Value → Nat
  isPointerType : Value → Bool

/-- The `CFGAnalysis` of the function: its blocks and edges in order, and the block energies. -/
structure CFGAnalysis where
  blocks : List BasicBlock
  edges : List (BasicBlock × BasicBlock)
  energyCost : BasicBlock → ℚ

/-! ### Addresses -/

/-- The VM addresses handed out so far, over all functions. -/
structure VMAddressTracker where
  allocatedVars : ValueMap Nat := ∅
  topAddress : Nat := 0

namespace VMAddressTracker

/-- The address a variable already has. -/
def getExistingAddress (t : VMAddressTracker) (v : Value) : Option Nat := t.allocatedVars.lookup v

/-- Gives a variable the address at the top. -/
def recordAllocation (t : VMAddressTracker) (v : Value) (size : Nat) : VMAddressTracker :=
  { allocatedVars := t.allocatedVars.insert v t.topAddress
    topAddress := (t.topAddress + size) % 2 ^ 32 }

end VMAddressTracker

/-! ### Merging -/

/-- The byte ranges of the VM variables that have an offset. -/
def RegionAllocation.occupied (alloc : RegionAllocation) (state : SchematicStateAnalysis) :
    List (Nat × Nat) :=
  alloc.vars.walk.filterMap fun e =>
    if e.2.placement = .vm then
      (alloc.vmOffsets.lookup e.1).map fun off => (off, (off + state.getVarSizeBytes e.1) % 2 ^ 32)
    else none

/-- One variable of a further allocation (`add_new_var_alloc`). `occupied` holds the ranges taken so
far. -/
def addNewVarAlloc (state : SchematicStateAnalysis) (checkpointIncreaseAllowed : Bool)
    (source : RegionAllocation) (acc : RegionAllocation × List (Nat × Nat))
    (e : Value × VariableAllocation) : Option (RegionAllocation × List (Nat × Nat)) :=
  let (result, occupied) := acc
  let (v, va) := e
  let increase := (va.needRestore || va.needSave) && !checkpointIncreaseAllowed
  match result.vars.lookup v with
  | some existing =>
    if existing.placement ≠ va.placement then none
    else if va.placement = .vm then
      match result.vmOffsets.lookup v, source.vmOffsets.lookup v with
      | some off₁, some off₂ => if off₁ ≠ off₂ then none else some acc
      | _, _ => some acc
    else some acc
  | none =>
    if va.placement = .vm then
      match source.vmOffsets.lookup v with
      | some startAddr =>
        let endAddr := (startAddr + state.getVarSizeBytes v) % 2 ^ 32
        if occupied.any fun r => decide (startAddr < r.2) && decide (r.1 < endAddr) then none
        else if increase then none
        else some ({ result with
          vars := result.vars.insert v va
          vmOffsets := result.vmOffsets.insert v startAddr }, occupied ++ [(startAddr, endAddr)])
      | none =>
        if increase then none
        else some ({ result with vars := result.vars.insert v va }, occupied)
    else some ({ result with vars := result.vars.insert v va }, occupied)

/-- The join of some allocations, or `none` where they conflict. The flags of a variable are those
of the first allocation that mentions it. -/
def mergeAllocations (allocations : List RegionAllocation) (state : SchematicStateAnalysis)
    (checkpointIncreaseAllowed : Bool) : Option RegionAllocation :=
  match allocations with
  | [] => some {}
  | first :: rest =>
    (rest.flatMap fun source => source.vars.walk.map fun e => (source, e)).foldlM
      (fun acc p => addNewVarAlloc state checkpointIncreaseAllowed p.1 acc p.2)
      (first, first.occupied state) |>.map Prod.fst

/-- Adds the variables of `source` that `target` does not mention. -/
def extendsAllocation (target source : RegionAllocation) : RegionAllocation :=
  source.vars.walk.foldl (fun target e =>
    if e.1 ∈ target.vars then target
    else
      let target := { target with vars := target.vars.insert e.1 e.2 }
      if e.2.placement = .vm then
        match source.vmOffsets.lookup e.1 with
        | some off => { target with vmOffsets := target.vmOffsets.insert e.1 off }
        | none => target
      else target) target

/-! ### Choosing an allocation -/

/-- Whether an interval has to restore a variable, that is, whether its first access in the
interval is a load. A save is always assumed to be needed. -/
def computeSaveRestoreFlags (v : Value) (intervalBlocks : List BasicBlock)
    (state : SchematicStateAnalysis) : Bool × Bool :=
  ((intervalBlocks.findSome? fun bb => state.getFirstOpIsLoad bb v).getD false, true)

/-- How a variable is accessed in an interval. -/
structure VariableAccessEstimate where
  accessCount : Nat := 0
  needRestore : Bool := false
  needSave : Bool := true

/-- What an interval saves with a variable in VM. -/
def estimateEnergyGain (accessCount varSizeBytes : Nat) (needRestore needSave : Bool)
    (params : SchematicParams) : ℚ :=
  params.nvmAccessPenalty * accessCount -
    ((if needRestore then params.memRestoreEnergyPerByte * varSizeBytes else 0) +
      if needSave then params.memStoreEnergyPerByte * varSizeBytes else 0)

/-- Joins the allocation at an end of the interval, where no variable that is saved or restored may
be added. -/
def mergeBoundary (state : SchematicStateAnalysis) (boundary : Option RegionAllocation)
    (merged : RegionAllocation) : Option RegionAllocation :=
  match boundary with
  | some a => mergeAllocations [a, merged] state false
  | none => some merged

/-- The allocation the interval has to keep: the blocks' allocations joined, then joined with the
allocation at either end. -/
def constrainedAllocation (state : SchematicStateAnalysis)
    (startAlloc endAlloc : Option RegionAllocation) (memoryAllocations : List RegionAllocation) :
    Option RegionAllocation :=
  (mergeAllocations memoryAllocations state true).bind fun merged =>
    (mergeBoundary state startAlloc merged).bind (mergeBoundary state endAlloc)

/-- What the save and the restore of the constrained variables cost. -/
def constrainedCost (result : RegionAllocation) (state : SchematicStateAnalysis)
    (params : SchematicParams) : ℚ :=
  (result.vars.walk.map fun e =>
    (if e.2.needRestore then params.memRestoreEnergyPerByte * state.getVarSizeBytes e.1 else 0) +
      if e.2.needSave then params.memStoreEnergyPerByte * state.getVarSizeBytes e.1 else 0).sum

/-- A candidate that the constraints leave open: a pointer stays in NVM, and so does a variable
that a boundary without a checkpoint would have to restore or save; the others compete. -/
def evaluateCandidate (variableAccesses : ValueMap VariableAccessEstimate)
    (state : SchematicStateAnalysis) (params : SchematicParams) (hasStart hasEnd : Bool)
    (acc : RegionAllocation × List CandidateEntry) (v : Value) :
    RegionAllocation × List CandidateEntry :=
  let (result, candidates) := acc
  if v ∈ result.vars then acc
  else match variableAccesses.lookup v with
  | none => acc
  | some access =>
    if access.accessCount = 0 then acc
    else if state.isPointerType v || (access.needRestore && hasStart) ||
        (access.needSave && hasEnd) then
      ({ result with
        vars := result.vars.insert v ⟨.nvm, access.needRestore, access.needSave⟩ }, candidates)
    else
      let size := state.getVarSizeBytes v
      let gain :=
        estimateEnergyGain access.accessCount size access.needRestore access.needSave params
      (result, candidates ++ [⟨v, gain, size, access.needRestore, access.needSave⟩])

/-- The state of the greedy packing. -/
structure Packing where
  result : RegionAllocation
  currAddress : Nat
  totalGain : ℚ
  tracker : VMAddressTracker

/-- Packs one candidate: at the address it already has, or at the current top if it fits there. -/
def Packing.pack (params : SchematicParams) (p : Packing) (c : CandidateEntry) : Packing :=
  let place (placement : Placement) : RegionAllocation :=
    { p.result with
      vars := p.result.vars.insert c.v ⟨placement, c.needRestore, c.needSave⟩ }
  if 0 < c.gain then
    match p.tracker.getExistingAddress c.v with
    | some existing =>
      { p with
        result := { place .vm with vmOffsets := p.result.vmOffsets.insert c.v existing }
        totalGain := p.totalGain + c.gain }
    | none =>
      if (p.currAddress + c.size) % 2 ^ 32 ≤ params.vmCapacityBytes then
        { result := { place .vm with vmOffsets := p.result.vmOffsets.insert c.v p.currAddress }
          currAddress := (p.currAddress + c.size) % 2 ^ 32
          totalGain := p.totalGain + c.gain
          tracker := p.tracker.recordAllocation c.v c.size }
      else { p with result := place .nvm }
  else { p with result := place .nvm }

/-- **`chooseMemoryAllocation`** from given access estimates. -/
def chooseMemoryAllocationOf (variableAccesses : ValueMap VariableAccessEstimate)
    (state : SchematicStateAnalysis) (params : SchematicParams)
    (startAlloc endAlloc : Option RegionAllocation) (memoryAllocations : List RegionAllocation)
    (tracker : VMAddressTracker) : (RegionAllocation × ℚ) × VMAddressTracker :=
  match constrainedAllocation state startAlloc endAlloc memoryAllocations with
  | none => (({}, -99999), tracker)
  | some constrained =>
    let (result, candidates) := state.candidates.foldl
      (evaluateCandidate variableAccesses state params startAlloc.isSome endAlloc.isSome)
      (constrained, [])
    let packed := (params.gainSort.sort candidates).foldl (Packing.pack params)
      ⟨result, tracker.topAddress, -constrainedCost constrained state params, tracker⟩
    (({ packed.result with vmBytesUsed := packed.currAddress }, packed.totalGain), packed.tracker)

/-- How an interval accesses the candidates. -/
def variableAccesses (intervalBlocks : List BasicBlock) (state : SchematicStateAnalysis) :
    ValueMap VariableAccessEstimate :=
  state.candidates.foldl (fun accesses v =>
    let nR := (intervalBlocks.map fun bb => state.getLoadCount bb v).sum
    let nW := (intervalBlocks.map fun bb => state.getStoreCount bb v).sum
    if nR = 0 ∧ nW = 0 then accesses
    else
      let (needRestore, needSave) := computeSaveRestoreFlags v intervalBlocks state
      accesses.insert v ⟨nR + nW, needRestore, needSave⟩) ∅

/-- **`chooseMemoryAllocation`** for an interval. -/
def chooseMemoryAllocation (intervalBlocks : List BasicBlock) (state : SchematicStateAnalysis)
    (params : SchematicParams) (startAlloc endAlloc : Option RegionAllocation)
    (memoryAllocations : List RegionAllocation) (tracker : VMAddressTracker) :
    (RegionAllocation × ℚ) × VMAddressTracker :=
  chooseMemoryAllocationOf (variableAccesses intervalBlocks state) state params startAlloc endAlloc
    memoryAllocations tracker

/-! ### Compatibility -/

/-- No VM variable of the allocation has a byte in the range. -/
def intervalIsEmpty (alloc : RegionAllocation) (startAddr endAddr : Nat)
    (state : SchematicStateAnalysis) : Bool :=
  (alloc.occupied state).all fun r => !(decide (startAddr < r.2) && decide (r.1 < endAddr))

/-- What `other` mentions can be added to `self`, or is there already. -/
def isCompatibleOneWay (self other : RegionAllocation) (state : SchematicStateAnalysis) : Bool :=
  other.vars.walk.all fun e =>
    match self.vars.lookup e.1 with
    | none =>
      if e.2.placement = .vm then
        match other.vmOffsets.lookup e.1 with
        | some off => intervalIsEmpty self off ((off + state.getVarSizeBytes e.1) % 2 ^ 32) state
        | none => true
      else true
    | some own =>
      if e.2.placement ≠ own.placement then false
      else if e.2.placement = .vm then
        decide ((self.vmOffsets.lookup e.1).getD 0 = (other.vmOffsets.lookup e.1).getD 0)
      else true

/-- The two allocations may meet on an edge without a checkpoint. -/
def isCompatibleWith (a b : RegionAllocation) (state : SchematicStateAnalysis) : Bool :=
  isCompatibleOneWay a b state && isCompatibleOneWay b a state

end Bao.Schematic
