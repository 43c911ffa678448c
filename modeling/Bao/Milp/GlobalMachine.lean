import Bao.Milp.Optimizer

/-!
# The machine of the eligible globals

A node is abstracted to the sequence of its accesses to eligible globals: loads, stores that
overwrite the whole object and stores that overwrite part of it. Between accesses the
program computes on a private state `σ`, which a load updates with the loaded value and from
which a store computes its value, so equal loads lead to equal stores.

* `GlobalProgram.exec` is the uninstrumented run: one copy of every global.
* `GlobalProgram.execInstr` is the run of the instrumented program. Every global has an NVM
  copy and a VM shadow; `rewriteAccessesInVMRegions` sends an access to the shadow exactly in
  the nodes that place the global in VM, and `insertRegionBoundaries` emits
  commits, the boundary and restores at the top of a region start. At the boundary power may
  be lost, which leaves arbitrary values in the shadows. The entry emits restores only.

`MayLive` is the exact may-liveness of a global: some path reaches a load before a full store.
-/

namespace Bao.Milp

/-- An access to an eligible global. -/
inductive GlobalAccess (σ Val : Type*)
  | load (g : GlobalVariable) (k : σ → Val → σ)
  | fullStore (g : GlobalVariable) (f : σ → Val)
  | partialStore (g : GlobalVariable) (f : σ → Val → Val)

namespace GlobalAccess

variable {σ Val : Type*}

/-- The global an access touches. -/
def target : GlobalAccess σ Val → GlobalVariable
  | .load g _ => g
  | .fullStore g _ => g
  | .partialStore g _ => g

/-- The access writes the global, in full or in part. -/
def storesTo (g : GlobalVariable) : GlobalAccess σ Val → Bool
  | .load _ _ => false
  | .fullStore g' _ => g' == g
  | .partialStore g' _ => g' == g

/-- The global is loaded before any full store. -/
def exposed (g : GlobalVariable) : List (GlobalAccess σ Val) → Bool
  | [] => false
  | .load g' _ :: l => g' == g || exposed g l
  | .fullStore g' _ :: l => g' != g && exposed g l
  | .partialStore _ _ :: l => exposed g l

/-- The global is overwritten as a whole. -/
def kills (g : GlobalVariable) : List (GlobalAccess σ Val) → Bool
  | [] => false
  | .fullStore g' _ :: l => g' == g || kills g l
  | .load _ _ :: l => kills g l
  | .partialStore _ _ :: l => kills g l

end GlobalAccess

/-- The accesses of the nodes of a graph. -/
abbrev NodeAccesses (σ Val : Type*) := NodeId → List (GlobalAccess σ Val)

/-- **May-liveness**: some path from the top of a node reaches a load of the global that no
full store precedes. -/
inductive MayLive {σ Val : Type*} (edges : List (NodeId × NodeId)) (acc : NodeAccesses σ Val)
    (g : GlobalVariable) : NodeId → Prop
  | here {b : NodeId} : GlobalAccess.exposed g (acc b) = true → MayLive edges acc g b
  | there {b c : NodeId} : GlobalAccess.kills g (acc b) = false → (b, c) ∈ edges →
      MayLive edges acc g c → MayLive edges acc g b

/-- A program over the eligible globals of an optimizer instance. The analyses the optimizer
relies on are fields: live-in sets contain the may-live globals, and the definition
indicator holds exactly at the nodes with a store. -/
structure GlobalProgram (P : CheckpointOptimizer) (σ Val : Type*) where
  accesses : NodeAccesses σ Val
  target_mem : ∀ b, ∀ a ∈ accesses b, a.target ∈ P.state.vmObjs
  mayLive_subset : ∀ b ∈ P.cfg.blocks, ∀ g ∈ P.state.vmObjs,
    MayLive P.cfg.edges accesses g b → g ∈ P.state.eligLiveIn b
  isDef_iff : ∀ b ∈ P.cfg.blocks, ∀ g ∈ P.state.vmObjs,
    P.state.isDef b (.global g) = true ↔ ∃ a ∈ accesses b, a.storesTo g = true

/-- The uninstrumented machine: program state, globals and the loads observed so far. -/
structure GlobalState (σ Val : Type*) where
  state : σ
  mem : GlobalVariable → Val
  trace : List (GlobalVariable × Val)

/-- The instrumented machine: an NVM copy and a VM shadow of every global. -/
structure ShadowState (σ Val : Type*) where
  state : σ
  nvm : GlobalVariable → Val
  shadow : GlobalVariable → Val
  trace : List (GlobalVariable × Val)

variable {σ Val : Type*}

/-- One access of the uninstrumented program. -/
def GlobalState.access (u : GlobalState σ Val) : GlobalAccess σ Val → GlobalState σ Val
  | .load g k => ⟨k u.state (u.mem g), u.mem, u.trace ++ [(g, u.mem g)]⟩
  | .fullStore g f => { u with mem := Function.update u.mem g (f u.state) }
  | .partialStore g f => { u with mem := Function.update u.mem g (f u.state (u.mem g)) }

namespace ShadowState

/-- The copy of a global that an access in a node with placement `inVM` goes to. -/
def copyOf (i : ShadowState σ Val) (inVM : GlobalVariable → Bool) (g : GlobalVariable) : Val :=
  if inVM g then i.shadow g else i.nvm g

/-- Write the copy of a global that the node's placement selects. -/
def writeCopy (i : ShadowState σ Val) (inVM : GlobalVariable → Bool) (g : GlobalVariable)
    (a : Val) : ShadowState σ Val :=
  if inVM g then { i with shadow := Function.update i.shadow g a }
  else { i with nvm := Function.update i.nvm g a }

/-- One access of the instrumented program (`rewriteAccessesInVMRegions`). -/
def access (inVM : GlobalVariable → Bool) (i : ShadowState σ Val) :
    GlobalAccess σ Val → ShadowState σ Val
  | .load g k => { i with state := k i.state (i.copyOf inVM g)
                          trace := i.trace ++ [(g, i.copyOf inVM g)] }
  | .fullStore g f => i.writeCopy inVM g (f i.state)
  | .partialStore g f => i.writeCopy inVM g (f i.state (i.copyOf inVM g))

/-- Commit: the selected shadows are copied to NVM. -/
def commit (sel : GlobalVariable → Bool) (i : ShadowState σ Val) : ShadowState σ Val :=
  { i with nvm := fun g => if sel g then i.shadow g else i.nvm g }

/-- Power loss, if it happens, leaves arbitrary shadows. -/
def lose (loss : Option (GlobalVariable → Val)) (i : ShadowState σ Val) : ShadowState σ Val :=
  match loss with
  | none => i
  | some junk => { i with shadow := junk }

/-- Restore: the selected NVM copies are read back into the shadows. -/
def restore (sel : GlobalVariable → Bool) (i : ShadowState σ Val) : ShadowState σ Val :=
  { i with shadow := fun g => if sel g then i.nvm g else i.shadow g }

end ShadowState

namespace GlobalProgram

open CheckpointOptimizer (MILPSolution)

variable {P : CheckpointOptimizer} (Q : GlobalProgram P σ Val)

/-- Run a node of the uninstrumented program. -/
def execNode (u : GlobalState σ Val) (b : NodeId) : GlobalState σ Val :=
  (Q.accesses b).foldl GlobalState.access u

/-- Run a path of the uninstrumented program. -/
def exec (u : GlobalState σ Val) (path : List NodeId) : GlobalState σ Val :=
  path.foldl Q.execNode u

variable (P) in
/-- The code at the top of a node (`insertRegionBoundaries`): at a region start the commits,
the boundary and the restores; the entry has no boundary and no commits. -/
def boundary (sol : MILPSolution) (b : NodeId) (loss : Option (GlobalVariable → Val))
    (i : ShadowState σ Val) : ShadowState σ Val :=
  if sol.r b then
    if b = P.cfg.entryBlock then i.restore fun g => sol.rHat b (.global g)
    else ((i.commit fun g => sol.s b (.global g)).lose loss).restore
      fun g => sol.rHat b (.global g)
  else i

/-- Run a node of the instrumented program. -/
def execNodeInstr (sol : MILPSolution) (i : ShadowState σ Val)
    (step : NodeId × Option (GlobalVariable → Val)) : ShadowState σ Val :=
  (Q.accesses step.1).foldl (ShadowState.access fun g => sol.m step.1 (.global g))
    (boundary P sol step.1 step.2 i)

/-- Run a path of the instrumented program, with a power loss or none at every node. -/
def execInstr (sol : MILPSolution) (i : ShadowState σ Val)
    (path : List (NodeId × Option (GlobalVariable → Val))) : ShadowState σ Val :=
  path.foldl (Q.execNodeInstr sol) i

end GlobalProgram

end Bao.Milp
