import Mathlib

/-!
# The views the MILP optimizer reads

`ModelViews.h` hands the optimizer three read-only views of a function: its node graph
(`ICFGView`), the state its nodes touch (`IStateView`) and the energy of everything
(`IEnergyView`). They are modelled as records. What the analyses establish of a view once
and for all — edges run between nodes, live-in globals are candidates, ineligible objects
are allocas or SSA values, costs are non-negative — is carried as fields.

`std::set` and `std::vector` are both modelled by lists; the sets are the lists with a
`Nodup` field. The sorted iteration order of the source (`collectSortedValues`) only fixes
the order in which linear terms are accumulated and is not modelled.
-/

namespace Bao.Milp

/-- A node of the (abstract) control flow graph. -/
abbrev NodeId := ℕ

/-- A global variable, as the module identifies it. -/
abbrev GlobalVariable := ℕ

/-- The `llvm::Value`s the passes track: global variables, static allocas and the results
of SSA instructions. -/
inductive Value
  | global (id : GlobalVariable)
  | alloca (id : ℕ)
  | inst (id : ℕ)
  deriving DecidableEq, Repr

/-- Pairs of a node and a value, the keys of the optimizer's variable maps, have a lawful
equality. -/
instance instLawfulBEqKey : LawfulBEq (NodeId × Value) := inferInstance

/-- Energy parameters of the MILP configuration file. -/
structure MILPEnergyParams where
  capacity : ℚ
  ePro : ℚ
  eEpi : ℚ
  regStoreEnergy : ℚ
  regRestoreEnergy : ℚ
  nvmAccessPenalty : ℚ
  memStoreEnergyPerByte : ℚ
  memRestoreEnergyPerByte : ℚ
  vmCapacityBytes : ℕ

/-- The control flow graph view. -/
structure ICFGView where
  blocks : List NodeId
  edges : List (NodeId × NodeId)
  entryBlock : NodeId
  exitBlocks : List NodeId
  blocks_nodup : blocks.Nodup
  entry_mem : entryBlock ∈ blocks
  exit_mem : ∀ b ∈ exitBlocks, b ∈ blocks
  edge_mem : ∀ e ∈ edges, e.1 ∈ blocks ∧ e.2 ∈ blocks

/-- The state view: the eligible globals, which get a placement, and the ineligible objects
(allocas and cross-block SSA values), which always live in VM. -/
structure IStateView where
  vmObjs : List GlobalVariable
  eligLiveIn : NodeId → List GlobalVariable
  eligDefIndicator : NodeId → GlobalVariable → Bool
  ineligibleObjs : List Value
  ineligLiveIn : NodeId → List Value
  ineligDefIndicator : NodeId → Value → Bool
  varSizeBytes : Value → ℤ
  vmObjs_nodup : vmObjs.Nodup
  eligLiveIn_nodup : ∀ b, (eligLiveIn b).Nodup
  eligLiveIn_subset : ∀ b, ∀ g ∈ eligLiveIn b, g ∈ vmObjs
  ineligibleObjs_nodup : ineligibleObjs.Nodup
  ineligible_ne_global : ∀ v ∈ ineligibleObjs, ∀ g, v ≠ .global g
  ineligLiveIn_nodup : ∀ b, (ineligLiveIn b).Nodup
  ineligLiveIn_subset : ∀ b, ∀ v ∈ ineligLiveIn b, v ∈ ineligibleObjs

/-! States with one global and no ineligible objects meet the side conditions above. -/

theorem oneGlobal_nodup : ([0] : List GlobalVariable).Nodup := List.nodup_singleton 0

theorem noIneligible_ne_global : ∀ v ∈ ([] : List Value), ∀ g, v ≠ .global g := by simp

theorem noIneligible_nodup (_ : NodeId) : ([] : List Value).Nodup := List.nodup_nil

theorem noIneligible_subset (_ : NodeId) : ∀ v ∈ ([] : List Value), v ∈ ([] : List Value) :=
  List.Subset.refl []

/-- `isIneligible`: membership in the set of ineligible objects. -/
def IStateView.isIneligible (S : IStateView) (v : Value) : Bool := v ∈ S.ineligibleObjs

/-- The indicator `D_{b,v}` as the optimizer reads it: the eligible table for globals, then
the ineligible table. -/
def IStateView.isDef (S : IStateView) (b : NodeId) (v : Value) : Bool :=
  (match v with
    | .global g => S.eligDefIndicator b g
    | _ => false) || S.ineligDefIndicator b v

/-- The energy view. Costs are non-negative. -/
structure IEnergyView where
  params : MILPEnergyParams
  eBase : NodeId → ℚ
  eNvm : NodeId → GlobalVariable → ℚ
  eSave : Value → ℚ
  eRestore : Value → ℚ
  fEntry : NodeId → ℚ
  fBoundary : NodeId → ℚ
  ePro_nonneg : 0 ≤ params.ePro
  eEpi_nonneg : 0 ≤ params.eEpi
  eBase_nonneg : ∀ b, 0 ≤ eBase b
  eNvm_nonneg : ∀ b g, 0 ≤ eNvm b g
  eSave_nonneg : ∀ v, 0 ≤ eSave v
  eRestore_nonneg : ∀ v, 0 ≤ eRestore v

end Bao.Milp
