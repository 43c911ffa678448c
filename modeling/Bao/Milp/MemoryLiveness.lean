import Bao.Dataflow.MemoryLiveness
import Bao.Milp.Liveness

/-!
# Exactness of memory liveness

`computeEligibleLiveness` and `computeIneligAllocaLiveness` scan every block for reads of a
variable and for stores that provably overwrite all of it, and solve the liveness equations for
each variable. Reads come from alias analysis, whose answers are part of the code here
(`MemInstr.isRef`). A write is a must-store if it is a store or a memory intrinsic directly to
the variable and covers its kill threshold; the threshold of an alloca of dynamic size is
unknown. In `main`, the entry block counts as a must-store of the allocas promoted to globals.

Both functions terminate, and both find a variable live exactly when some path reads it before
any must-store (`memory_liveness_exact`).
-/

namespace Bao.Milp

open Dataflow

/-- The instructions that may overwrite a variable: the pointer operand without its casts, if
it is a variable, and the number of bytes, if it is a constant. -/
inductive MemWrite (V : Type*)
  | none
  | storeInst (ptr : Option V) (valueBytes : ℕ)
  | memIntrinsic (rawDest : Option V) (length : Option ℕ)

/-- An instruction as the scan sees it. -/
structure MemInstr (V : Type*) where
  /-- `isRefSet` of `AA.getModRefInfo` for the whole variable. -/
  isRef : V → Bool
  write : MemWrite V

/-- The memory accesses of a function. -/
structure MemCode (V : Type*) where
  cfg : CFGAnalysis
  body : BlockId → List (MemInstr V)
  /-- `gvBytes` or `killBytes`. -/
  killBytes : V → Option ℕ

namespace MemCode

variable {V : Type*} [DecidableEq V] (F : MemCode V)

/-- The instruction provably overwrites the variable. -/
def isMustStore (v : V) : MemWrite V → Bool
  | .none => false
  | .storeInst ptr valueBytes => ptr = some v && (F.killBytes v).any (· ≤ valueBytes)
  | .memIntrinsic rawDest length =>
    rawDest = some v && length.any fun n => (F.killBytes v).any (· ≤ n)

/-- The accesses of a block to a variable. -/
def accesses (v : V) (b : BlockId) : List Access :=
  (F.body b).map fun i => ⟨i.isRef v, F.isMustStore v i.write⟩

/-! ### Promoted globals -/

/-- The accesses of `computeEligibleLiveness`: a promoted alloca holds no defined value at the
entry of `main`. -/
def eligAccesses (isMain : Bool) (promotedAlloca : V → Bool) (v : V) (b : BlockId) :
    List Access :=
  if b = F.cfg.entryBlock && isMain && promotedAlloca v then [⟨false, true⟩] else F.accesses v b

/-- The equations of `computeEligibleLiveness`; `BlockGVInfo` is the scan of a block. -/
def eligTransfer (isMain : Bool) (promotedAlloca : V → Bool) (v : V) :
    (BlockId ⊕ BlockId → Bool) → BlockId ⊕ BlockId → Bool :=
  accessTransfer F.cfg.successors (F.eligAccesses isMain promotedAlloca v)

/-- `computeEligibleLiveness`. -/
def computeEligibleLiveness (isMain : Bool) (promotedAlloca : V → Bool) (vmObjs : List V)
    (b : BlockId) : List V :=
  if b ∈ F.cfg.blocks then
    vmObjs.filter fun v =>
      solve (F.eligTransfer isMain promotedAlloca v) (liveCells F.cfg.blocks) (.inr b)
  else []

/-! ### Allocas -/

/-- The equations of `computeIneligAllocaLiveness`; `BlockVarInfo` is the scan of a block. -/
def allocaTransfer (v : V) : (BlockId ⊕ BlockId → Bool) → BlockId ⊕ BlockId → Bool :=
  accessTransfer F.cfg.successors (F.accesses v)

/-- `computeIneligAllocaLiveness` for the allocas among the ineligible objects. -/
def computeIneligAllocaLiveness (allocaIneligs : List V) (b : BlockId) : List V :=
  if b ∈ F.cfg.blocks then
    allocaIneligs.filter fun v =>
      solve (F.allocaTransfer v) (liveCells F.cfg.blocks) (.inr b)
  else []

/-! ### Exactness -/

/-- On some path from the block, a read comes before all must-stores. -/
def ReadAhead (accesses : BlockId → List Access) (b : BlockId) : Prop :=
  ∃ p, List.IsChain F.cfg.Succ (b :: p) ∧ ReadsFirst ((b :: p).flatMap accesses)

omit [DecidableEq V] in
/-- What both functions do with their solutions. -/
private theorem mem_liveFilter {accesses : V → BlockId → List Access} {vs : List V} {b : BlockId}
    {v : V} :
    (v ∈ if b ∈ F.cfg.blocks then
        vs.filter fun v => solve (accessTransfer F.cfg.successors (accesses v))
          (liveCells F.cfg.blocks) (.inr b)
      else []) ↔ b ∈ F.cfg.blocks ∧ v ∈ vs ∧ F.ReadAhead (accesses v) b := by
  have hsucc : ∀ b ∈ F.cfg.blocks, ∀ s ∈ F.cfg.successors b, s ∈ F.cfg.blocks :=
    fun _ _ _ hs => CFGAnalysis.Succ.dst_mem hs
  split_ifs with hb
  · rw [List.mem_filter, live_iff_path hsucc]
    exact ⟨fun ⟨hv, _, hahead⟩ => ⟨hb, hv, hahead⟩, fun ⟨_, hv, hahead⟩ => ⟨hv, hb, hahead⟩⟩
  · simp [hb]

/-- **Memory liveness is exact.** The sweeps of both functions end, for every variable, and a
variable is live into a block exactly when some path from there reads it before any must-store;
in `main`, the entry block must-stores the promoted allocas. -/
theorem memory_liveness_exact (G : MemCode GlobalVariable) (isMain : Bool)
    (promotedAlloca : GlobalVariable → Bool) (vmObjs : List GlobalVariable) (A : MemCode AllocaId)
    (allocaIneligs : List AllocaId) :
    ((∀ g, iterate (G.eligTransfer isMain promotedAlloca g) (liveCells G.cfg.blocks)
        ((liveCells G.cfg.blocks).length + 1) (fun _ => false) =
          some (solve (G.eligTransfer isMain promotedAlloca g) (liveCells G.cfg.blocks))) ∧
      ∀ b g, g ∈ G.computeEligibleLiveness isMain promotedAlloca vmObjs b ↔
        b ∈ G.cfg.blocks ∧ g ∈ vmObjs ∧ G.ReadAhead (G.eligAccesses isMain promotedAlloca g) b) ∧
    (∀ a, iterate (A.allocaTransfer a) (liveCells A.cfg.blocks)
        ((liveCells A.cfg.blocks).length + 1) (fun _ => false) =
          some (solve (A.allocaTransfer a) (liveCells A.cfg.blocks))) ∧
      ∀ b a, a ∈ A.computeIneligAllocaLiveness allocaIneligs b ↔
        b ∈ A.cfg.blocks ∧ a ∈ allocaIneligs ∧ A.ReadAhead (A.accesses a) b :=
  ⟨⟨fun _ => solve_eq liveTransfer_monotone _, fun _ _ => G.mem_liveFilter⟩,
    fun _ => solve_eq liveTransfer_monotone _, fun _ _ => A.mem_liveFilter⟩

end MemCode

/-! ### The allocas of a function in SSA form -/

namespace SSACode

variable {σ Val : Type*} (F : SSACode σ Val)

/-- The stores and memory intrinsics of a function in SSA form. -/
def memWrite : Instr σ Val → MemWrite AllocaId
  | .store _ (.direct d) size _ => .storeInst (some d) size
  | .store _ (.derived _) size _ => .storeInst none size
  | .memset _ (.direct d) (.const n) _ => .memIntrinsic (some d) (some n)
  | .memcpy _ (.direct d) _ (.const n) => .memIntrinsic (some d) (some n)
  | .memset _ _ _ _ => .memIntrinsic none none
  | .memcpy _ _ _ _ => .memIntrinsic none none
  | _ => .none

/-- The memory accesses of a function in SSA form; its allocas have static sizes. -/
def memCode : MemCode AllocaId where
  cfg := F.cfg
  body b := (F.body b).map fun i => ⟨F.isRef i, memWrite i⟩
  killBytes a := some (F.data a)

theorem isMustStore_memWrite (a : AllocaId) (i : Instr σ Val) :
    F.memCode.isMustStore a (memWrite i) = F.isMustStore a i := by
  cases i with
  | call => rfl
  | load => rfl
  | store args ptr size bytes =>
    cases ptr <;> simp [memWrite, MemCode.isMustStore, isMustStore, memCode]
  | memset args ptr len bytes =>
    cases ptr <;> cases len <;> simp [memWrite, MemCode.isMustStore, isMustStore, memCode]
  | memcpy args dst src len =>
    cases dst <;> cases len <;> simp [memWrite, MemCode.isMustStore, isMustStore, memCode]

/-- Reading first, in the accesses of a list of instructions. -/
theorem readsFirst_accesses {a : AllocaId} {l : List (Instr σ Val)} :
    ReadsFirst (l.map fun i => ⟨F.isRef i a, F.isMustStore a i⟩) ↔ F.loadsFirst a l = true := by
  induction l with
  | nil => simp [loadsFirst]
  | cons i l ih =>
    rw [List.map_cons, readsFirst_cons, ih, loadsFirst]
    simp

/-- The liveness of allocas in `Liveness.lean` is the one of `MemCode`. -/
theorem allocaTransfer_memCode (a : AllocaId) :
    F.memCode.allocaTransfer a = F.allocaTransfer a := by
  have haccesses (b : BlockId) : F.memCode.accesses a b =
      (F.body b).map fun i => ⟨F.isRef i a, F.isMustStore a i⟩ := by
    simp only [MemCode.accesses, ← isMustStore_memWrite]
    simp [memCode]
  funext live cell
  cases cell with
  | inl b => rfl
  | inr b =>
    have hread : (scan (F.memCode.accesses a b)).loadBeforeMustStore =
        F.loadsFirst a (F.body b) := by
      rw [Bool.eq_iff_iff, scan_loadBeforeMustStore, haccesses, readsFirst_accesses]
    have hwrite : (scan (F.memCode.accesses a b)).hasMustStore =
        (F.body b).any (F.isMustStore a) := by
      rw [scan_hasMustStore, haccesses, List.any_map]
      rfl
    rw [MemCode.allocaTransfer, accessTransfer, liveTransfer, hread, hwrite, allocaTransfer,
      blockVarInfo_eq]

/-- **The liveness of allocas is exact.** -/
theorem allocaLiveIn_iff {a : AllocaId} {b : BlockId} :
    F.allocaLiveIn a b = true ↔
      b ∈ F.cfg.blocks ∧ F.memCode.ReadAhead (F.memCode.accesses a) b := by
  have hsucc : ∀ b ∈ F.cfg.blocks, ∀ s ∈ F.cfg.successors b, s ∈ F.cfg.blocks :=
    fun _ _ _ hs => CFGAnalysis.Succ.dst_mem hs
  rw [allocaLiveIn, ← allocaTransfer_memCode]
  exact live_iff_path hsucc

end SSACode

end Bao.Milp
