import Bao.RockClimb.MachineLiveness

/-!
# Distributed register saves

`MachineDistributedCheckpointing.cpp` selects the instructions after which a register is saved. For
every region it walks back from the start block to the nearest other start blocks
(`predBlockSet`), and takes the registers that are written there and are live into the start block.
A backward analysis then finds their last definitions (`findLastReachingDefs`). A call whose callee
may write `__nvm_regs` counts as a definition of every register.

* Of every block at most one instruction is selected for a register, the last one that counts as a
  definition (`IsLastDef`).
* A definition whose value reaches a start block into which the register is live is selected
  (`exists_mem_analyze`), since the nearest start block on the way looks back as far
  (`ReachesStart.exists_nearest`).
-/

namespace Bao.RockClimb.Backend

open Bao.Graph Relation

/-! ### Definitions of a register -/

/-- **`isRuntimeFunction`**. -/
def isRuntimeFunction (name : String) : Bool :=
  name ∈ ["timing_gpio_init", "timing_gpio_start", "timing_gpio_stop", "_timing_delay_cycles",
    "debug_init", "debug_exit", "uart_init", "uart_putc", "uart_puts", "uart_put_u16"]

/-- The first operand that names a target decides; without one the call is indirect. -/
def targetMayClobber : List MachineOperand → Bool
  | [] => true
  | .global (.function name isDeclaration) :: _ => !isDeclaration && !isRuntimeFunction name
  | .global .other :: _ => true
  | .symbol :: _ => false
  | _ :: rest => targetMayClobber rest

/-- **`callMayClobberNvmRegs`**. -/
def callMayClobberNvmRegs (MI : MachineInstr) : Bool := targetMayClobber MI.operands

namespace MachineInstr

def isClobberingCall (MI : MachineInstr) : Bool := MI.isCall && callMayClobberNvmRegs MI

/-- What counts as a definition of the register. -/
def isDefLike (MI : MachineInstr) (reg : ℕ) : Bool := MI.hasDef reg || MI.isClobberingCall

end MachineInstr

/-- One instruction of the reverse scan, with its index. -/
def reverseTransferInstr (reg : ℕ) (MI : MachineInstr × ℕ) (st : Bool × List ℕ) : Bool × List ℕ :=
  if MI.1.isDefLike reg then (false, if st.1 && !MI.1.isTerminator then st.2 ++ [MI.2] else st.2)
  else st

/-- **`reverseTransferBlock`**: whether the register is needed before the block, and the indices of
the instructions after which it is saved. -/
def reverseTransferBlock (instrs : List MachineInstr) (reg : ℕ) (needAfterBlock : Bool) :
    Bool × List ℕ :=
  instrs.zipIdx.foldr (reverseTransferInstr reg) (needAfterBlock, [])

/-- The instruction with the index is the last one of the block that counts as a definition. -/
def IsLastDef (instrs : List MachineInstr) (reg i : ℕ) : Prop :=
  ∃ front MI back, instrs = front ++ MI :: back ∧ i = front.length ∧ MI.isDefLike reg = true ∧
    MI.isTerminator = false ∧ ∀ MI' ∈ back, MI'.isDefLike reg = false

theorem isLastDef_cons {MI : MachineInstr} {instrs : List MachineInstr} {reg i : ℕ} :
    IsLastDef (MI :: instrs) reg i ↔
      i = 0 ∧ MI.isDefLike reg = true ∧ MI.isTerminator = false ∧
        (∀ MI' ∈ instrs, MI'.isDefLike reg = false) ∨
      ∃ j, IsLastDef instrs reg j ∧ i = j + 1 := by
  constructor
  · rintro ⟨front, MI', back, hsplit, rfl, hdef, hterm, hback⟩
    cases front with
    | nil =>
      obtain ⟨rfl, rfl⟩ := List.cons.inj hsplit
      exact .inl ⟨rfl, hdef, hterm, hback⟩
    | cons _ front =>
      obtain ⟨rfl, rfl⟩ := List.cons.inj hsplit
      exact .inr ⟨_, ⟨front, MI', back, rfl, rfl, hdef, hterm, hback⟩, rfl⟩
  · rintro (⟨rfl, hdef, hterm, hback⟩ | ⟨_, ⟨front, MI', back, rfl, rfl, hrest⟩, rfl⟩)
    · exact ⟨[], MI, instrs, rfl, rfl, hdef, hterm, hback⟩
    · exact ⟨MI :: front, MI', back, rfl, rfl, hrest⟩

/-- Nothing after the last definition counts as one. -/
theorem IsLastDef.exists_isDefLike {instrs : List MachineInstr} {reg i : ℕ}
    (h : IsLastDef instrs reg i) : ∃ MI ∈ instrs, MI.isDefLike reg = true := by
  obtain ⟨front, MI, back, rfl, -, hdef, -, -⟩ := h
  exact ⟨MI, List.mem_append_right _ List.mem_cons_self, hdef⟩

/-- A block that defines the register has a last definition, if no terminator defines it. -/
theorem exists_isLastDef {instrs : List MachineInstr} {reg : ℕ}
    (hdef : ∃ MI ∈ instrs, MI.isDefLike reg = true)
    (hterm : ∀ MI ∈ instrs, MI.isDefLike reg = true → MI.isTerminator = false) :
    ∃ i, IsLastDef instrs reg i := by
  induction instrs with
  | nil =>
    obtain ⟨_, hMI, -⟩ := hdef
    exact absurd hMI List.not_mem_nil
  | cons MI instrs ih =>
    obtain ⟨hMI, hterm⟩ := List.forall_mem_cons.mp hterm
    by_cases hlater : ∃ MI' ∈ instrs, MI'.isDefLike reg = true
    · obtain ⟨i, hi⟩ := ih hlater hterm
      exact ⟨i + 1, isLastDef_cons.mpr (.inr ⟨i, hi, rfl⟩)⟩
    · push Not at hlater
      obtain ⟨MI', hmem, hdef⟩ := hdef
      rcases List.mem_cons.mp hmem with rfl | hmem
      · exact ⟨0, isLastDef_cons.mpr (.inl ⟨rfl, hdef, hMI hdef, fun MI'' hMI'' =>
          Bool.eq_false_iff.mpr (hlater MI'' hMI'')⟩)⟩
      · exact absurd hdef (hlater MI' hmem)

/-- **A block has one last definition.** -/
theorem IsLastDef.unique {instrs : List MachineInstr} {reg i j : ℕ} (hi : IsLastDef instrs reg i)
    (hj : IsLastDef instrs reg j) : i = j := by
  induction instrs generalizing i j with
  | nil =>
    obtain ⟨_, hMI, -⟩ := hi.exists_isDefLike
    exact absurd hMI List.not_mem_nil
  | cons MI instrs ih =>
    have hcontra : ∀ {i}, (∀ MI' ∈ instrs, MI'.isDefLike reg = false) →
        ¬IsLastDef instrs reg i := by
      intro i hnone hlast
      obtain ⟨MI', hMI', hdef⟩ := hlast.exists_isDefLike
      rw [hnone MI' hMI'] at hdef
      cases hdef
    rcases isLastDef_cons.mp hi with ⟨rfl, -, -, hnone⟩ | ⟨i', hi', rfl⟩
    · rcases isLastDef_cons.mp hj with ⟨rfl, -⟩ | ⟨j', hj', rfl⟩
      · rfl
      · exact absurd hj' (hcontra hnone)
    · rcases isLastDef_cons.mp hj with ⟨rfl, -, -, hnone⟩ | ⟨j', hj', rfl⟩
      · exact absurd hi' (hcontra hnone)
      · rw [ih hi' hj']

private theorem foldr_reverseTransferInstr (reg : ℕ) (need : Bool) (instrs : List MachineInstr)
    (k : ℕ) :
    (((instrs.zipIdx k).foldr (reverseTransferInstr reg) (need, [])).1 = true ↔
      need = true ∧ ∀ MI ∈ instrs, MI.isDefLike reg = false) ∧
    ∀ i, i ∈ ((instrs.zipIdx k).foldr (reverseTransferInstr reg) (need, [])).2 ↔
      need = true ∧ ∃ j, IsLastDef instrs reg j ∧ i = k + j := by
  induction instrs generalizing k with
  | nil => simp [IsLastDef]
  | cons MI instrs ih =>
    obtain ⟨hneed, hpoints⟩ := ih (k + 1)
    rw [List.zipIdx_cons, List.foldr_cons, reverseTransferInstr]
    simp only [isLastDef_cons]
    generalize (instrs.zipIdx (k + 1)).foldr (reverseTransferInstr reg) (need, []) = st
      at hneed hpoints ⊢
    have hlater : ∀ i, i ∈ st.2 ↔ need = true ∧ ∃ j, (∃ j', IsLastDef instrs reg j' ∧ j = j' + 1) ∧
        i = k + j := by
      intro i
      rw [hpoints]
      refine and_congr_right fun _ => ⟨?_, ?_⟩
      · rintro ⟨j, hj, rfl⟩
        exact ⟨j + 1, ⟨j, hj, rfl⟩, by omega⟩
      · rintro ⟨_, ⟨j, hj, rfl⟩, rfl⟩
        exact ⟨j, hj, by omega⟩
    cases hdef : MI.isDefLike reg with
    | false =>
      refine ⟨?_, fun i => ?_⟩
      · simp [hneed, hdef]
      · simp [hlater]
    | true =>
      refine ⟨by simp [hdef], fun i => ?_⟩
      simp only [if_true]
      by_cases hsave : (st.1 && !MI.isTerminator) = true
      · obtain ⟨hst, hterm⟩ : st.1 = true ∧ MI.isTerminator = false := by simpa using hsave
        obtain ⟨hneed, hnone⟩ := hneed.mp hst
        rw [if_pos hsave, List.mem_append, List.mem_singleton, hlater]
        constructor
        · rintro (⟨-, j, hj, rfl⟩ | rfl)
          · exact ⟨hneed, j, .inr hj, rfl⟩
          · exact ⟨hneed, 0, .inl ⟨rfl, trivial, hterm, hnone⟩, rfl⟩
        · rintro ⟨-, j, ⟨rfl, -⟩ | hj, rfl⟩
          · exact .inr rfl
          · exact .inl ⟨hneed, j, hj, rfl⟩
      · rw [if_neg hsave, hlater]
        refine and_congr_right fun hneed' => exists_congr fun j => and_congr_left fun _ => ?_
        refine (or_iff_right ?_).symm
        rintro ⟨-, -, hterm, hnone⟩
        exact hsave (by simp [hneed.mpr ⟨hneed', hnone⟩, hterm])

theorem reverseTransferBlock_fst {instrs : List MachineInstr} {reg : ℕ} {need : Bool} :
    (reverseTransferBlock instrs reg need).1 = true ↔
      need = true ∧ ∀ MI ∈ instrs, MI.isDefLike reg = false :=
  (foldr_reverseTransferInstr reg need instrs 0).1

/-- **The last definition is selected**, if the register is needed after the block. -/
theorem mem_reverseTransferBlock_snd {instrs : List MachineInstr} {reg i : ℕ} {need : Bool} :
    i ∈ (reverseTransferBlock instrs reg need).2 ↔ need = true ∧ IsLastDef instrs reg i := by
  rw [reverseTransferBlock, (foldr_reverseTransferInstr reg need instrs 0).2]
  simp

/-! ### The analysis -/

/-- `normalizeToGPR16`. -/
def normalizeToGPR16 (r : MCPhysReg) : Option ℕ :=
  if !r.isByte && r.number ∈ gprs then some r.number else overlappingGPR r

theorem normalizeToGPR16_eq (r : MCPhysReg) : normalizeToGPR16 r = overlappingGPR r := by
  rw [normalizeToGPR16]
  split_ifs with h
  · obtain ⟨-, hreg⟩ : r.isByte = false ∧ r.number ∈ gprs := by simpa using h
    exact (overlappingGPR_eq_some.mpr ⟨hreg, rfl⟩).symm
  · rfl

def isCheckpointableReg (reg : ℕ) : Bool := 4 ≤ reg && reg ≤ 15

/-- The slot of a register in `__nvm_regs`: R4 has slot 0. -/
def assignRegId (reg : ℕ) : ℕ := reg - 4

/-- A save: the block and the index of the instruction it comes after, the register, its slot, and
the start block it is for. -/
structure MachineCheckpointPoint where
  afterInst : MachineBasicBlock × ℕ
  reg : ℕ
  regId : ℕ
  regionStart : MachineBasicBlock
deriving DecidableEq

namespace MachineFunction

variable (MF : MachineFunction)

def predecessors (b : MachineBasicBlock) : List MachineBasicBlock :=
  MF.blocks.filter fun pred => b ∈ MF.successors pred

/-- The walk back goes on from a block that starts no region. -/
def walksBackTo (boundarySet : List MachineBasicBlock) (b : MachineBasicBlock) :
    List MachineBasicBlock :=
  if b ∈ boundarySet then [] else MF.predecessors b

/-- The blocks that reach the start block without another start block on the way; the other start
block itself is one of them. -/
def predBlockSet (boundarySet : List MachineBasicBlock) (startBlock : MachineBasicBlock) :
    List MachineBasicBlock :=
  let worklist := (MF.predecessors startBlock).reverse
  Worklist.collect (MF.walksBackTo boundarySet)
    (Worklist.fuelFor (MF.walksBackTo boundarySet) MF.blocks worklist) worklist [startBlock]

/-- The register that an operand defines, unless it is reserved. -/
def definedGPR : MachineOperand → Option ℕ
  | .reg (some r) true _ =>
    if MF.isReserved r.number then none else (normalizeToGPR16 r).filter isCheckpointableReg
  | _ => none

/-- The registers that some block of the set defines. -/
def defsInPreds (predBlockSet : List MachineBasicBlock) : List ℕ :=
  ((MF.blocks.filter (· ∈ predBlockSet)).flatMap fun b =>
    (MF.operands b).filterMap MF.definedGPR).eraseDups

section LastReachingDefs

variable (predBlockSet : List MachineBasicBlock) (reg : ℕ) (regionStart : MachineBasicBlock)

def needOut (needIn : MachineBasicBlock → Bool) (b : MachineBasicBlock) : Bool :=
  (MF.successors b).any fun succ => decide (succ ∈ predBlockSet) && needIn succ

/-- The register is needed at the start block. -/
def needTransfer (needIn : MachineBasicBlock → Bool) (b : MachineBasicBlock) : Bool :=
  if b = regionStart then true
  else (reverseTransferBlock (MF.instrs b) reg (MF.needOut predBlockSet needIn b)).1

def needIn : MachineBasicBlock → Bool :=
  Dataflow.solve (MF.needTransfer predBlockSet reg regionStart)
    (MF.blocks.filter (· ∈ predBlockSet))

/-- **`findLastReachingDefs`**. -/
def findLastReachingDefs : List MachineCheckpointPoint :=
  (MF.blocks.filter (· ∈ predBlockSet)).flatMap fun b =>
    (reverseTransferBlock (MF.instrs b) reg
      (MF.needOut predBlockSet (MF.needIn predBlockSet reg regionStart) b)).2.map fun i =>
        ⟨(b, i), reg, assignRegId reg, regionStart⟩

end LastReachingDefs

/-- The saves for one start block. -/
def regionCheckpoints (boundarySet : List MachineBasicBlock) (startBlock : MachineBasicBlock) :
    List MachineCheckpointPoint :=
  ((MF.defsInPreds (MF.predBlockSet boundarySet startBlock)).filter fun reg =>
    isRegLiveFromBlock MF.toMachineCFG MF.instrs reg startBlock).flatMap fun reg =>
      MF.findLastReachingDefs (MF.predBlockSet boundarySet startBlock) reg startBlock

end MachineFunction

/-- Keeps the first save of every instruction and register. -/
def uniqueCheckpoints : List MachineCheckpointPoint → List ((MachineBasicBlock × ℕ) × ℕ) →
    List MachineCheckpointPoint
  | [], _ => []
  | ckpt :: rest, seen =>
    if (ckpt.afterInst, ckpt.reg) ∈ seen then uniqueCheckpoints rest seen
    else ckpt :: uniqueCheckpoints rest ((ckpt.afterInst, ckpt.reg) :: seen)

/-- The start blocks of the regions. -/
def startBlocks (regions : List MachineRegionInfo) : List MachineBasicBlock :=
  regions.map MachineRegionInfo.startBlock

/-- **`analyze`**. -/
def MachineFunction.analyze (MF : MachineFunction) (regions : List MachineRegionInfo) :
    List MachineCheckpointPoint :=
  uniqueCheckpoints (regions.flatMap fun region =>
    MF.regionCheckpoints (startBlocks regions) region.startBlock) []

/-! ### What is selected -/

theorem mem_of_mem_uniqueCheckpoints {ckpt : MachineCheckpointPoint}
    {l : List MachineCheckpointPoint} {seen : List ((MachineBasicBlock × ℕ) × ℕ)}
    (h : ckpt ∈ uniqueCheckpoints l seen) : ckpt ∈ l := by
  induction l generalizing seen with
  | nil => exact h
  | cons c l ih =>
    rw [uniqueCheckpoints] at h
    split_ifs at h
    · exact List.mem_cons_of_mem c (ih h)
    · rcases List.mem_cons.mp h with rfl | h
      · exact List.mem_cons_self
      · exact List.mem_cons_of_mem c (ih h)

theorem exists_mem_uniqueCheckpoints {ckpt : MachineCheckpointPoint}
    {l : List MachineCheckpointPoint} {seen : List ((MachineBasicBlock × ℕ) × ℕ)} (h : ckpt ∈ l)
    (hseen : (ckpt.afterInst, ckpt.reg) ∉ seen) :
    ∃ c ∈ uniqueCheckpoints l seen, c.afterInst = ckpt.afterInst ∧ c.reg = ckpt.reg := by
  induction l generalizing seen with
  | nil => exact absurd h List.not_mem_nil
  | cons c l ih =>
    rw [uniqueCheckpoints]
    split_ifs with hc
    · refine ih ((List.mem_cons.mp h).resolve_left ?_) hseen
      rintro rfl
      exact hseen hc
    · by_cases hkey : (ckpt.afterInst, ckpt.reg) = (c.afterInst, c.reg)
      · obtain ⟨hinst, hreg⟩ := Prod.ext_iff.mp hkey
        exact ⟨c, List.mem_cons_self, hinst.symm, hreg.symm⟩
      · have hmem : ckpt ∈ l := (List.mem_cons.mp h).resolve_left fun heq => hkey (heq ▸ rfl)
        obtain ⟨c', hc', heq⟩ := ih hmem fun hcon => (List.mem_cons.mp hcon).elim hkey hseen
        exact ⟨c', List.mem_cons_of_mem c hc', heq⟩

namespace MachineFunction

variable {MF : MachineFunction} {boundarySet : List MachineBasicBlock}
  {startBlock b succ : MachineBasicBlock} {reg i : ℕ}

theorem mem_predecessors : b ∈ MF.predecessors succ ↔ b ∈ MF.blocks ∧ succ ∈ MF.successors b := by
  simp [predecessors]

private theorem predBlockSet_collects : Worklist.Collects (MF.walksBackTo boundarySet)
    (MF.predecessors startBlock).reverse [startBlock] (MF.predBlockSet boundarySet startBlock) := by
  refine Worklist.collect_spec (fun v _ w hw => ?_) _ fun v hv => ?_
  · rw [walksBackTo] at hw
    split_ifs at hw
    · exact absurd hw List.not_mem_nil
    · exact (mem_predecessors.mp hw).1
  · exact (mem_predecessors.mp (List.mem_reverse.mp hv)).1

theorem self_mem_predBlockSet : startBlock ∈ MF.predBlockSet boundarySet startBlock :=
  predBlockSet_collects.visited_subset _ (List.mem_singleton_self _)

/-- The walk back goes on to the predecessors of every block but other start blocks. -/
theorem mem_predBlockSet_of_succ (hb : b ∈ MF.blocks) (hsucc : succ ∈ MF.successors b)
    (hmem : succ ∈ MF.predBlockSet boundarySet startBlock)
    (hwalk : succ = startBlock ∨ succ ∉ boundarySet) :
    b ∈ MF.predBlockSet boundarySet startBlock := by
  by_cases hstart : succ = startBlock
  · exact predBlockSet_collects.worklist_subset _
      (List.mem_reverse.mpr (mem_predecessors.mpr ⟨hb, hstart ▸ hsucc⟩))
  · refine predBlockSet_collects.closed _ hmem (by simpa using hstart) _ ?_
    rw [walksBackTo, if_neg (hwalk.resolve_left hstart)]
    exact mem_predecessors.mpr ⟨hb, hsucc⟩

theorem definedGPR_eq_some {MO : MachineOperand} :
    MF.definedGPR MO = some reg ↔ MF.IsTracked reg ∧ MO.defines reg = true := by
  have hcheck : ∀ reg, (overlappingGPR reg).filter isCheckpointableReg = overlappingGPR reg := by
    intro r
    cases hgpr : overlappingGPR r with
    | none => rfl
    | some gpr =>
      obtain ⟨hlow, hhigh⟩ := mem_gprs.mp (overlappingGPR_eq_some.mp hgpr).1
      simp [isCheckpointableReg, hlow, hhigh]
  rcases MO with ⟨_ | r, isDef, isUndef⟩ | _ | _ | _
  case reg.some =>
    cases isDef with
    | false => simp [definedGPR, MachineOperand.defines]
    | true =>
      rw [definedGPR, normalizeToGPR16_eq, hcheck, ← trackedGPR, trackedGPR_eq_some]
      simp [MachineOperand.defines, regsOverlap]
  all_goals simp [definedGPR, MachineOperand.defines]

theorem mem_defsInPreds {P : List MachineBasicBlock} : reg ∈ MF.defsInPreds P ↔
    MF.IsTracked reg ∧ ∃ b ∈ MF.blocks, b ∈ P ∧ ∃ MI ∈ MF.instrs b, MI.hasDef reg = true := by
  simp only [defsInPreds, List.mem_eraseDups, List.mem_flatMap, List.mem_filter,
    decide_eq_true_eq, List.mem_filterMap, operands, definedGPR_eq_some, MachineInstr.hasDef,
    List.any_eq_true]
  constructor
  · rintro ⟨b, ⟨hb, hP⟩, MO, ⟨MI, hMI, hMO⟩, htracked, hdef⟩
    exact ⟨htracked, b, hb, hP, MI, hMI, MO, hMO, hdef⟩
  · rintro ⟨htracked, b, hb, hP, MI, hMI, MO, hMO, hdef⟩
    exact ⟨b, ⟨hb, hP⟩, MO, ⟨MI, hMI, hMO⟩, htracked, hdef⟩

section Need

variable {P : List MachineBasicBlock}

theorem needOut_eq_true {s : MachineBasicBlock → Bool} : MF.needOut P s b = true ↔
    ∃ succ ∈ MF.successors b, succ ∈ P ∧ s succ = true := by
  simp [needOut]

private theorem needTransfer_monotone :
    Dataflow.Monotone (MF.needTransfer P reg startBlock) := by
  intro s t hst b hb
  rw [needTransfer] at hb ⊢
  split_ifs at hb ⊢ with hstart
  · rfl
  · rw [reverseTransferBlock_fst, needOut_eq_true] at hb ⊢
    obtain ⟨⟨succ, hsucc, hP, hs⟩, hnone⟩ := hb
    exact ⟨⟨succ, hsucc, hP, hst succ hs⟩, hnone⟩

/-- The register is needed at the start block. -/
theorem needIn_startBlock (hb : startBlock ∈ MF.blocks) (hP : startBlock ∈ P) :
    MF.needIn P reg startBlock startBlock = true := by
  rw [needIn, ← Dataflow.solve_fixed needTransfer_monotone startBlock (by simp [hb, hP]),
    needTransfer, if_pos rfl]

/-- It is needed before a block that does not define it, if it is needed after. -/
theorem needIn_of_needOut (hb : b ∈ MF.blocks) (hP : b ∈ P)
    (hneed : MF.needOut P (MF.needIn P reg startBlock) b = true)
    (hnone : ∀ MI ∈ MF.instrs b, MI.isDefLike reg = false) :
    MF.needIn P reg startBlock b = true := by
  rw [needIn, ← Dataflow.solve_fixed needTransfer_monotone b (by simp [hb, hP]), needTransfer]
  split_ifs
  · rfl
  · exact reverseTransferBlock_fst.mpr ⟨hneed, hnone⟩

/-- **It is needed nowhere else.** -/
theorem needIn_induction {Q : MachineBasicBlock → Prop}
    (hstart : startBlock ∈ MF.blocks → Q startBlock)
    (hstep : ∀ b ∈ MF.blocks, ∀ succ ∈ MF.successors b, Q succ →
      (∀ MI ∈ MF.instrs b, MI.isDefLike reg = false) → Q b)
    (h : MF.needIn P reg startBlock b = true) : Q b := by
  refine Dataflow.solve_induction needTransfer_monotone (P := Q) (fun s hs b hb hneed => ?_) h
  rw [needTransfer] at hneed
  split_ifs at hneed with hb'
  · subst hb'
    exact hstart (List.mem_filter.mp hb).1
  · obtain ⟨hneed, hnone⟩ := reverseTransferBlock_fst.mp hneed
    obtain ⟨succ, hsucc, -, hsucc'⟩ := needOut_eq_true.mp hneed
    exact hstep b (List.mem_filter.mp hb).1 succ hsucc (hs succ hsucc') hnone

theorem mem_findLastReachingDefs {ckpt : MachineCheckpointPoint} :
    ckpt ∈ MF.findLastReachingDefs P reg startBlock ↔
      ∃ b i, b ∈ MF.blocks ∧ b ∈ P ∧ MF.needOut P (MF.needIn P reg startBlock) b = true ∧
        IsLastDef (MF.instrs b) reg i ∧
        ckpt = ⟨(b, i), reg, assignRegId reg, startBlock⟩ := by
  simp only [findLastReachingDefs, List.mem_flatMap, List.mem_filter, decide_eq_true_eq,
    List.mem_map, mem_reverseTransferBlock_snd]
  constructor
  · rintro ⟨b, ⟨hb, hP⟩, i, ⟨hneed, hlast⟩, rfl⟩
    exact ⟨b, i, hb, hP, hneed, hlast, rfl⟩
  · rintro ⟨b, i, hb, hP, hneed, hlast, rfl⟩
    exact ⟨b, ⟨hb, hP⟩, i, ⟨hneed, hlast⟩, rfl⟩

end Need

/-- A save that the analysis selects for a start block. -/
structure Selects (MF : MachineFunction) (boundarySet : List MachineBasicBlock)
    (startBlock : MachineBasicBlock) (reg : ℕ) (b : MachineBasicBlock) (i : ℕ) : Prop where
  mem_defs : reg ∈ MF.defsInPreds (MF.predBlockSet boundarySet startBlock)
  live : isRegLiveFromBlock MF.toMachineCFG MF.instrs reg startBlock = true
  mem_blocks : b ∈ MF.blocks
  mem_preds : b ∈ MF.predBlockSet boundarySet startBlock
  needed : MF.needOut (MF.predBlockSet boundarySet startBlock)
    (MF.needIn (MF.predBlockSet boundarySet startBlock) reg startBlock) b = true
  lastDef : IsLastDef (MF.instrs b) reg i

theorem mem_regionCheckpoints {ckpt : MachineCheckpointPoint} :
    ckpt ∈ MF.regionCheckpoints boundarySet startBlock ↔ ∃ reg b i,
      MF.Selects boundarySet startBlock reg b i ∧
        ckpt = ⟨(b, i), reg, assignRegId reg, startBlock⟩ := by
  simp only [regionCheckpoints, List.mem_flatMap, List.mem_filter, mem_findLastReachingDefs]
  constructor
  · rintro ⟨reg, ⟨hdefs, hlive⟩, b, i, hb, hP, hneed, hlast, rfl⟩
    exact ⟨reg, b, i, ⟨hdefs, hlive, hb, hP, hneed, hlast⟩, rfl⟩
  · rintro ⟨reg, b, i, ⟨hdefs, hlive, hb, hP, hneed, hlast⟩, rfl⟩
    exact ⟨reg, ⟨hdefs, hlive⟩, b, i, hb, hP, hneed, hlast, rfl⟩

variable {regions : List MachineRegionInfo}

/-- **What `analyze` returns** is selected for some start block. -/
theorem selects_of_mem_analyze {ckpt : MachineCheckpointPoint} (h : ckpt ∈ MF.analyze regions) :
    ckpt.regId = assignRegId ckpt.reg ∧ ∃ startBlock ∈ startBlocks regions,
      MF.Selects (startBlocks regions) startBlock ckpt.reg ckpt.afterInst.1 ckpt.afterInst.2 := by
  obtain ⟨region, hregion, hckpt⟩ := List.mem_flatMap.mp (mem_of_mem_uniqueCheckpoints h)
  obtain ⟨reg, b, i, hselects, rfl⟩ := mem_regionCheckpoints.mp hckpt
  exact ⟨rfl, region.startBlock, List.mem_map_of_mem hregion, hselects⟩

/-- **What is selected** for some start block is returned. -/
theorem Selects.exists_mem_analyze (hstart : startBlock ∈ startBlocks regions)
    (h : MF.Selects (startBlocks regions) startBlock reg b i) :
    ∃ ckpt ∈ MF.analyze regions, ckpt.afterInst = (b, i) ∧ ckpt.reg = reg := by
  obtain ⟨region, hregion, rfl⟩ := List.mem_map.mp hstart
  have hmem : ⟨(b, i), reg, assignRegId reg, region.startBlock⟩ ∈ regions.flatMap fun region =>
      MF.regionCheckpoints (startBlocks regions) region.startBlock :=
    List.mem_flatMap.mpr ⟨region, hregion, mem_regionCheckpoints.mpr ⟨reg, b, i, h, rfl⟩⟩
  exact exists_mem_uniqueCheckpoints hmem List.not_mem_nil

/-! ### Definitions that reach a start block -/

/-- A path from the block leads to a start block into which the register is live, and no
instruction on the way counts as a definition. -/
def ReachesStart (MF : MachineFunction) (boundarySet : List MachineBasicBlock) (reg : ℕ)
    (b : MachineBasicBlock) : Prop :=
  ∃ c, ReflTransGen (fun a d => (∀ MI ∈ MF.instrs a, MI.isDefLike reg = false) ∧
      d ∈ MF.successors a) b c ∧
    c ∈ boundarySet ∧ LiveFrom MF.toMachineCFG MF.instrs reg c

theorem hasDef_of_not_isDefLike {MI : MachineInstr} (h : MI.isDefLike reg = false) :
    MI.hasDef reg = false :=
  (Bool.or_eq_false_iff.mp h).1

/-- The register is live from there. -/
theorem ReachesStart.liveFrom (h : MF.ReachesStart boundarySet reg b) :
    LiveFrom MF.toMachineCFG MF.instrs reg b := by
  obtain ⟨c, hpath, -, hlive⟩ := h
  induction hpath using ReflTransGen.head_induction_on with
  | refl => exact hlive
  | head hstep _ ih =>
    exact .of_succ (fun MI hMI => hasDef_of_not_isDefLike (hstep.1 MI hMI)) hstep.2 ih

/-- **The nearest start block** on the way looks back to the block. -/
theorem ReachesStart.exists_nearest (hb : b ∈ MF.blocks) (h : MF.ReachesStart boundarySet reg b) :
    ∃ startBlock ∈ boundarySet, startBlock ∈ MF.blocks ∧
      LiveFrom MF.toMachineCFG MF.instrs reg startBlock ∧
      (b = startBlock ∨ b ∉ boundarySet) ∧ b ∈ MF.predBlockSet boundarySet startBlock ∧
      MF.needIn (MF.predBlockSet boundarySet startBlock) reg startBlock b = true := by
  have hself : ∀ d ∈ MF.blocks, d ∈ boundarySet → LiveFrom MF.toMachineCFG MF.instrs reg d →
      ∃ startBlock ∈ boundarySet, startBlock ∈ MF.blocks ∧
        LiveFrom MF.toMachineCFG MF.instrs reg startBlock ∧
        (d = startBlock ∨ d ∉ boundarySet) ∧ d ∈ MF.predBlockSet boundarySet startBlock ∧
        MF.needIn (MF.predBlockSet boundarySet startBlock) reg startBlock d = true :=
    fun d hd hstart hlive => ⟨d, hstart, hd, hlive, .inl rfl, self_mem_predBlockSet,
      needIn_startBlock hd self_mem_predBlockSet⟩
  obtain ⟨c, hpath, hc, hlive⟩ := h
  induction hpath using ReflTransGen.head_induction_on with
  | refl => exact hself c hb hc hlive
  | @head a d hstep hpath ih =>
    by_cases ha : a ∈ boundarySet
    · exact hself a hb ha (ReachesStart.liveFrom ⟨c, .head hstep hpath, hc, hlive⟩)
    · obtain ⟨T, hT, hTb, hTlive, hwalk, hmem, hneed⟩ := ih (MF.successors_mem a hb d hstep.2)
      have hpred := mem_predBlockSet_of_succ hb hstep.2 hmem hwalk
      exact ⟨T, hT, hTb, hTlive, .inr ha, hpred, needIn_of_needOut hb hpred
        (needOut_eq_true.mpr ⟨d, hstep.2, hmem, hneed⟩) hstep.1⟩

/-- **A definition that reaches a start block** is selected. -/
theorem exists_mem_analyze (hb : b ∈ MF.blocks) (hsucc : succ ∈ MF.successors b)
    (hreaches : MF.ReachesStart (startBlocks regions) reg succ) (htracked : MF.IsTracked reg)
    (hdef : ∃ MI ∈ MF.instrs b, MI.hasDef reg = true) (hlast : IsLastDef (MF.instrs b) reg i) :
    ∃ ckpt ∈ MF.analyze regions, ckpt.afterInst = (b, i) ∧ ckpt.reg = reg := by
  obtain ⟨T, hT, hTb, hlive, hwalk, hmem, hneed⟩ :=
    hreaches.exists_nearest (MF.successors_mem b hb succ hsucc)
  have hpred := mem_predBlockSet_of_succ hb hsucc hmem hwalk
  exact Selects.exists_mem_analyze hT ⟨mem_defsInPreds.mpr ⟨htracked, b, hb, hpred, hdef⟩,
    (isRegLiveFromBlock_iff hTb).mpr hlive, hb, hpred,
    needOut_eq_true.mpr ⟨succ, hsucc, hmem, hneed⟩, hlast⟩

end MachineFunction

end Bao.RockClimb.Backend
