import Bao.Dataflow.MemoryLiveness
import Bao.Graph.Worklist
import Bao.RockClimb.Optimizer

/-!
# Liveness of registers

A machine function after register allocation, and its two analyses of the registers R4 to R15.

* `isRegLiveFromBlock` searches from one block for a block that reads one register first. It takes
  whole instructions, which read before they write (`isRegLiveFromBlock_iff`).
* `computeBulkLiveIn` iterates over all blocks and registers. It takes the operands one by one, as
  the instruction lists them (`mem_computeBulkLiveIn`), so it finds less
  (`LiveFrom.of_bulkLiveFrom`).
-/

namespace Bao.RockClimb.Backend

open Bao.Graph Relation

/-! ### Machine code -/

/-- A physical register of the MSP430: one of PC, SP, SR, CG, R4, …, R15 by its number, or its
8-bit half. -/
structure MCPhysReg where
  number : ℕ
  isByte : Bool := false
deriving DecidableEq

/-- `TRI->regsOverlap`. -/
def regsOverlap (r r' : MCPhysReg) : Bool := r.number = r'.number

/-- The target of a global operand. -/
inductive GlobalValue
  | function (name : String) (isDeclaration : Bool)
  | other

/-- An operand. A register is missing if it is not a physical one. -/
inductive MachineOperand
  | reg (r : Option MCPhysReg) (isDef isUndef : Bool)
  | global (target : GlobalValue)
  | symbol
  | other

/-- An instruction. -/
structure MachineInstr where
  operands : List MachineOperand
  isCall : Bool := false
  isTerminator : Bool := false

/-- A machine function after register allocation; there are no PHIs left. A register and its 8-bit
half are reserved together. -/
structure MachineFunction extends MachineCFG where
  instrs : MachineBasicBlock → List MachineInstr
  isReserved : ℕ → Bool := fun _ => false
  terminators_last : ∀ b ∈ blocks, (instrs b).Pairwise fun MI MI' =>
    MI.isTerminator = true → MI'.isTerminator = true

/-- The numbers of R4 to R15. -/
def gprs : List ℕ := List.range' 4 12

theorem mem_gprs {reg : ℕ} : reg ∈ gprs ↔ 4 ≤ reg ∧ reg ≤ 15 := by
  rw [gprs, List.mem_range'_1]
  omega

/-- The first of R4 to R15 that a register overlaps. -/
def overlappingGPR (r : MCPhysReg) : Option ℕ := gprs.find? fun gpr => regsOverlap r ⟨gpr, false⟩

theorem overlappingGPR_eq_some {r : MCPhysReg} {reg : ℕ} :
    overlappingGPR r = some reg ↔ reg ∈ gprs ∧ r.number = reg := by
  constructor
  · intro h
    exact ⟨List.mem_of_find?_eq_some h, by simpa [regsOverlap] using List.find?_some h⟩
  · rintro ⟨hreg, rfl⟩
    rw [overlappingGPR]
    cases hfind : gprs.find? fun gpr => regsOverlap r ⟨gpr, false⟩ with
    | none => exact absurd (by simp [regsOverlap]) (List.find?_eq_none.mp hfind _ hreg)
    | some gpr =>
      have hgpr : r.number = gpr := by simpa [regsOverlap] using List.find?_some hfind
      rw [hgpr]

namespace MachineOperand

/-- A use of the register that is not undefined. -/
def uses (MO : MachineOperand) (reg : ℕ) : Bool :=
  match MO with
  | .reg (some r) isDef isUndef => regsOverlap r ⟨reg, false⟩ && !isDef && !isUndef
  | _ => false

/-- A definition of the register. -/
def defines (MO : MachineOperand) (reg : ℕ) : Bool :=
  match MO with
  | .reg (some r) isDef _ => regsOverlap r ⟨reg, false⟩ && isDef
  | _ => false

/-- What the operand does to a register. -/
def access (reg : ℕ) (MO : MachineOperand) : Dataflow.Access := ⟨MO.uses reg, MO.defines reg⟩

end MachineOperand

namespace MachineInstr

def hasUse (MI : MachineInstr) (reg : ℕ) : Bool := MI.operands.any (·.uses reg)

def hasDef (MI : MachineInstr) (reg : ℕ) : Bool := MI.operands.any (·.defines reg)

/-- What the instruction does to a register. -/
def access (reg : ℕ) (MI : MachineInstr) : Dataflow.Access := ⟨MI.hasUse reg, MI.hasDef reg⟩

end MachineInstr

/-! ### The search for one register -/

/-- The result of a scan of a block. -/
inductive RegScanResult
  | usedFirst
  | definedFirst
  | neither
deriving DecidableEq

/-- **`scanBlockForReg`**: the first instruction that uses or defines the register decides; one that
does both uses it. -/
def scanBlockForReg : List MachineInstr → ℕ → RegScanResult
  | [], _ => .neither
  | MI :: rest, reg =>
    if MI.hasUse reg then .usedFirst
    else if MI.hasDef reg then .definedFirst
    else scanBlockForReg rest reg

section Search

variable (MF : MachineCFG) (instrs : MachineBasicBlock → List MachineInstr) (reg : ℕ)

/-- The successors of a block that the register passes through. -/
def passesTo (b : MachineBasicBlock) : List MachineBasicBlock :=
  if scanBlockForReg (instrs b) reg = .neither then MF.successors b else []

/-- **`isRegLiveFromBlock`**. -/
def isRegLiveFromBlock (startMBB : MachineBasicBlock) : Bool :=
  Worklist.find (passesTo MF instrs reg) (fun b => scanBlockForReg (instrs b) reg = .usedFirst)
    (Worklist.fuelFor (passesTo MF instrs reg) MF.blocks [startMBB]) [startMBB] []

/-- A path from the block leads to a block that reads the register first, and the blocks on the way
neither read nor write it. -/
def LiveFrom (b : MachineBasicBlock) : Prop :=
  ∃ c, ReflTransGen (fun a d => d ∈ passesTo MF instrs reg a) b c ∧
    scanBlockForReg (instrs c) reg = .usedFirst

end Search

variable {MF : MachineFunction} {instrs : MachineBasicBlock → List MachineInstr} {reg : ℕ}
  {b c : MachineBasicBlock}

/-- **The search is exact.** -/
theorem isRegLiveFromBlock_iff {MF : MachineCFG} (hb : b ∈ MF.blocks) :
    isRegLiveFromBlock MF instrs reg b = true ↔ LiveFrom MF instrs reg b := by
  rw [isRegLiveFromBlock, Worklist.find_iff (fun a ha d hd => ?_) (by simpa using hb)]
  · simp [LiveFrom]
  · rw [passesTo] at hd
    split_ifs at hd
    · exact MF.successors_mem a ha d hd
    · exact absurd hd List.not_mem_nil

theorem scanBlockForReg_eq_usedFirst {l : List MachineInstr} :
    scanBlockForReg l reg = .usedFirst ↔ Dataflow.ReadsFirst (l.map (MachineInstr.access reg)) := by
  induction l with
  | nil => simp [scanBlockForReg]
  | cons MI l ih =>
    rw [scanBlockForReg, List.map_cons, Dataflow.readsFirst_cons, ← ih]
    simp only [MachineInstr.access]
    split_ifs with huse hdef
    · simp [huse]
    · simp [huse, hdef]
    · simp [huse, hdef]

/-- A block that does not write the register reads it, or the register passes through. -/
theorem scanBlockForReg_of_not_hasDef {l : List MachineInstr}
    (hdef : ∀ MI ∈ l, MI.hasDef reg = false) :
    scanBlockForReg l reg = .usedFirst ∨ scanBlockForReg l reg = .neither := by
  induction l with
  | nil => exact .inr rfl
  | cons MI l ih =>
    obtain ⟨hMI, hdef⟩ := List.forall_mem_cons.mp hdef
    rw [scanBlockForReg, hMI, if_neg Bool.false_ne_true]
    split_ifs
    · exact .inl rfl
    · exact ih hdef

/-- **A register that is live into a successor** is live into a block that does not write it. -/
theorem LiveFrom.of_succ {MF : MachineCFG} (hdef : ∀ MI ∈ instrs b, MI.hasDef reg = false)
    (hc : c ∈ MF.successors b) (h : LiveFrom MF instrs reg c) : LiveFrom MF instrs reg b := by
  rcases scanBlockForReg_of_not_hasDef hdef with hscan | hscan
  · exact ⟨b, .refl, hscan⟩
  · obtain ⟨d, hpath, hd⟩ := h
    exact ⟨d, .head (by rwa [passesTo, if_pos hscan]) hpath, hd⟩

/-! ### The bulk analysis -/

namespace MachineFunction

variable (MF : MachineFunction)

/-- The operands of a block in the order of its instructions. -/
def operands (b : MachineBasicBlock) : List MachineOperand :=
  (MF.instrs b).flatMap MachineInstr.operands

/-- The register the bulk analysis takes an operand for: reserved registers are left out. -/
def trackedGPR (r : MCPhysReg) : Option ℕ :=
  if MF.isReserved r.number then none else overlappingGPR r

/-- One operand of the scan of a block: a use counts if no operand before it is a definition. -/
def scanOperand (sets : List ℕ × List ℕ) (MO : MachineOperand) : List ℕ × List ℕ :=
  match MO with
  | .reg (some r) isDef isUndef =>
    match MF.trackedGPR r with
    | none => sets
    | some gpr =>
      (if !isDef && !isUndef && gpr ∉ sets.2 then sets.1.insert gpr else sets.1,
        if isDef then sets.2.insert gpr else sets.2)
  | _ => sets

/-- The registers a block uses before it defines them, and those it defines. -/
def scanBlock (b : MachineBasicBlock) : List ℕ × List ℕ :=
  (MF.operands b).foldl MF.scanOperand ([], [])

def useSet (b : MachineBasicBlock) : List ℕ := (MF.scanBlock b).1

def defSet (b : MachineBasicBlock) : List ℕ := (MF.scanBlock b).2

/-- `liveIn = use ∪ (liveOut \ def)`. -/
def bulkTransfer (liveIn : MachineBasicBlock × ℕ → Bool) (cell : MachineBasicBlock × ℕ) : Bool :=
  cell.2 ∈ MF.useSet cell.1 || cell.2 ∉ MF.defSet cell.1 &&
    (MF.successors cell.1).any fun succ => liveIn (succ, cell.2)

/-- **`computeBulkLiveIn`**: the iteration starts with the uses. -/
def computeBulkLiveIn (b : MachineBasicBlock) : List ℕ :=
  gprs.filter fun reg => Dataflow.solveFrom MF.bulkTransfer (MF.blocks ×ˢ gprs)
    (fun cell => cell.2 ∈ MF.useSet cell.1) (b, reg)

/-- A path from the block leads to a block whose operands read the register first, and the blocks
on the way do not write it. -/
def BulkLiveFrom (reg : ℕ) (b : MachineBasicBlock) : Prop :=
  ∃ c, ReflTransGen (fun a d => (∀ MI ∈ MF.instrs a, MI.hasDef reg = false) ∧
    d ∈ MF.successors a) b c ∧ Dataflow.ReadsFirst ((MF.operands c).map (MachineOperand.access reg))

/-- A register the bulk analysis looks at. -/
def IsTracked (reg : ℕ) : Prop := reg ∈ gprs ∧ MF.isReserved reg = false

variable {MF}

theorem trackedGPR_eq_some {r : MCPhysReg} :
    MF.trackedGPR r = some reg ↔ MF.IsTracked reg ∧ r.number = reg := by
  rw [trackedGPR, IsTracked]
  constructor
  · intro h
    split_ifs at h with hreserved
    obtain ⟨hreg, rfl⟩ := overlappingGPR_eq_some.mp h
    exact ⟨⟨hreg, by simpa using hreserved⟩, rfl⟩
  · rintro ⟨⟨hreg, hfree⟩, rfl⟩
    rw [hfree, if_neg Bool.false_ne_true, overlappingGPR_eq_some.mpr ⟨hreg, rfl⟩]

private theorem mem_scanOperand (MF : MachineFunction) (reg : ℕ) (sets : List ℕ × List ℕ)
    (MO : MachineOperand) :
    (reg ∈ (MF.scanOperand sets MO).1 ↔
      reg ∈ sets.1 ∨ MF.IsTracked reg ∧ reg ∉ sets.2 ∧ MO.uses reg = true) ∧
    (reg ∈ (MF.scanOperand sets MO).2 ↔
      reg ∈ sets.2 ∨ MF.IsTracked reg ∧ MO.defines reg = true) := by
  rcases MO with ⟨_ | r, isDef, isUndef⟩ | _ | _ | _
  case reg.some =>
    simp only [scanOperand, MachineOperand.uses, MachineOperand.defines, regsOverlap]
    cases hgpr : MF.trackedGPR r with
    | none =>
      have hnot : MF.IsTracked reg → r.number ≠ reg := fun htracked heq =>
        Option.some_ne_none _ ((trackedGPR_eq_some.mpr ⟨htracked, heq⟩).symm.trans hgpr)
      by_cases htracked : MF.IsTracked reg
      · simp [hnot htracked]
      · simp [htracked]
    | some gpr =>
      obtain ⟨htracked, rfl⟩ := trackedGPR_eq_some.mp hgpr
      by_cases hreg : r.number = reg
      · subst hreg
        cases isDef <;> cases isUndef <;> by_cases hdef : r.number ∈ sets.2 <;>
          simp [htracked, hdef, or_comm]
      · have hreg' : reg ≠ r.number := Ne.symm hreg
        simp only [hreg, decide_false, Bool.false_and, Bool.false_eq_true, and_false, or_false]
        constructor <;> split_ifs <;> simp [hreg']
  all_goals simp [scanOperand, MachineOperand.uses, MachineOperand.defines]

private theorem mem_foldl_scanOperand (MF : MachineFunction) (reg : ℕ)
    (ops : List MachineOperand) (sets : List ℕ × List ℕ) :
    (reg ∈ (ops.foldl MF.scanOperand sets).1 ↔ reg ∈ sets.1 ∨ MF.IsTracked reg ∧ reg ∉ sets.2 ∧
      Dataflow.ReadsFirst (ops.map (MachineOperand.access reg))) ∧
    (reg ∈ (ops.foldl MF.scanOperand sets).2 ↔
      reg ∈ sets.2 ∨ MF.IsTracked reg ∧ ∃ MO ∈ ops, MO.defines reg = true) := by
  induction ops generalizing sets with
  | nil => simp
  | cons MO ops ih =>
    obtain ⟨huse, hdef⟩ := mem_scanOperand MF reg sets MO
    obtain ⟨huses, hdefs⟩ := ih (MF.scanOperand sets MO)
    rw [List.foldl_cons, huses, hdefs, huse, hdef, List.map_cons, Dataflow.readsFirst_cons]
    simp only [MachineOperand.access, List.mem_cons, exists_eq_or_imp, ← Bool.not_eq_true]
    clear ih huses hdefs huse hdef
    by_cases htracked : MF.IsTracked reg
    · simp only [htracked, true_and]
      constructor <;> tauto
    · simp only [htracked, false_and, or_false, and_self]

theorem mem_useSet : reg ∈ MF.useSet b ↔ MF.IsTracked reg ∧
    Dataflow.ReadsFirst ((MF.operands b).map (MachineOperand.access reg)) := by
  rw [useSet, scanBlock, (mem_foldl_scanOperand MF reg _ _).1]
  simp

theorem mem_defSet : reg ∈ MF.defSet b ↔
    MF.IsTracked reg ∧ ∃ MI ∈ MF.instrs b, MI.hasDef reg = true := by
  rw [defSet, scanBlock, (mem_foldl_scanOperand MF reg _ _).2, or_iff_right List.not_mem_nil]
  refine and_congr_right fun _ => ?_
  simp only [operands, List.mem_flatMap, MachineInstr.hasDef, List.any_eq_true]
  exact ⟨fun ⟨MO, ⟨MI, hMI, hMO⟩, hdef⟩ => ⟨MI, hMI, MO, hMO, hdef⟩,
    fun ⟨MI, hMI, MO, hMO, hdef⟩ => ⟨MO, ⟨MI, hMI, hMO⟩, hdef⟩⟩

private theorem notMem_defSet (hreg : MF.IsTracked reg) :
    reg ∉ MF.defSet b ↔ ∀ MI ∈ MF.instrs b, MI.hasDef reg = false := by
  rw [mem_defSet, and_iff_right hreg]
  push Not
  simp only [ne_eq, Bool.not_eq_true]

private theorem bulkTransfer_monotone : Dataflow.Monotone MF.bulkTransfer := by
  intro s t hst cell hcell
  simp only [bulkTransfer, Bool.or_eq_true, Bool.and_eq_true, List.any_eq_true] at hcell ⊢
  exact hcell.imp_right fun ⟨hdef, succ, hsucc, hlive⟩ => ⟨hdef, succ, hsucc, hst _ hlive⟩

/-- **The bulk analysis is exact** for the operands in their order. -/
theorem mem_computeBulkLiveIn (hb : b ∈ MF.blocks) :
    reg ∈ MF.computeBulkLiveIn b ↔ MF.IsTracked reg ∧ MF.BulkLiveFrom reg b := by
  have hinit : ∀ cell ∈ MF.blocks ×ˢ gprs, decide (cell.2 ∈ MF.useSet cell.1) = true →
      MF.bulkTransfer (fun cell => cell.2 ∈ MF.useSet cell.1) cell = true := fun cell _ huse => by
    rw [bulkTransfer, huse, Bool.true_or]
  rw [computeBulkLiveIn, List.mem_filter]
  constructor
  · rintro ⟨hreg, hlive⟩
    refine Dataflow.solveFrom_induction bulkTransfer_monotone hinit
      (P := fun cell => MF.IsTracked cell.2 ∧ MF.BulkLiveFrom cell.2 cell.1) (fun cell huse => ?_)
      (fun s hs cell _ hlive => ?_) hlive
    · obtain ⟨htracked, hreads⟩ := mem_useSet.mp (of_decide_eq_true huse)
      exact ⟨htracked, cell.1, .refl, hreads⟩
    · rw [bulkTransfer, Bool.or_eq_true, Bool.and_eq_true, List.any_eq_true] at hlive
      rcases hlive with huse | ⟨hdef, succ, hsucc, hlive⟩
      · obtain ⟨htracked, hreads⟩ := mem_useSet.mp (of_decide_eq_true huse)
        exact ⟨htracked, cell.1, .refl, hreads⟩
      · obtain ⟨htracked, d, hpath, hreads⟩ := hs _ hlive
        exact ⟨htracked, d, .head ⟨(notMem_defSet htracked).mp (of_decide_eq_true hdef), hsucc⟩
          hpath, hreads⟩
  · rintro ⟨htracked, d, hpath, hreads⟩
    refine ⟨htracked.1, ?_⟩
    have hfixed := Dataflow.solveFrom_fixed bulkTransfer_monotone hinit
    induction hpath using ReflTransGen.head_induction_on with
    | refl =>
      rw [← hfixed _ (List.pair_mem_product.mpr ⟨hb, htracked.1⟩), bulkTransfer,
        decide_eq_true (mem_useSet.mpr ⟨htracked, hreads⟩), Bool.true_or]
    | head hstep _ ih =>
      rw [← hfixed _ (List.pair_mem_product.mpr ⟨hb, htracked.1⟩), bulkTransfer, Bool.or_eq_true,
        Bool.and_eq_true, List.any_eq_true]
      exact .inr ⟨decide_eq_true ((notMem_defSet htracked).mpr hstep.1), _, hstep.2,
        ih (MF.successors_mem _ hb _ hstep.2)⟩

/-- A block whose operands read the register first reads it first. -/
private theorem readsFirst_instrs {l : List MachineInstr}
    (h : Dataflow.ReadsFirst ((l.flatMap MachineInstr.operands).map (MachineOperand.access reg))) :
    Dataflow.ReadsFirst (l.map (MachineInstr.access reg)) := by
  induction l with
  | nil => exact absurd h Dataflow.not_readsFirst_nil
  | cons MI l ih =>
    rw [List.flatMap_cons, List.map_append, Dataflow.readsFirst_append] at h
    rw [List.map_cons, Dataflow.readsFirst_cons]
    rcases h with ⟨front, a, back, hsplit, hread, -⟩ | ⟨hwrite, h⟩
    · obtain ⟨MO, hMO, rfl⟩ : ∃ MO ∈ MI.operands, MO.access reg = a :=
        List.mem_map.mp (hsplit ▸ List.mem_append_right _ List.mem_cons_self)
      exact .inl (List.any_eq_true.mpr ⟨MO, hMO, hread⟩)
    · refine .inr ⟨?_, ih h⟩
      rw [List.any_map] at hwrite
      exact hwrite

end MachineFunction

/-- **The bulk analysis finds live registers only.** -/
theorem LiveFrom.of_bulkLiveFrom (h : MF.BulkLiveFrom reg b) :
    LiveFrom MF.toMachineCFG MF.instrs reg b := by
  obtain ⟨c, hpath, hreads⟩ := h
  induction hpath using ReflTransGen.head_induction_on with
  | refl =>
    exact ⟨c, .refl, scanBlockForReg_eq_usedFirst.mpr (MachineFunction.readsFirst_instrs hreads)⟩
  | head hstep _ ih => exact .of_succ hstep.1 hstep.2 ih

end Bao.RockClimb.Backend
