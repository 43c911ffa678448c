import Bao.RockClimb.DistributedCheckpointing

/-!
# Register slots at boundaries

`RockClimbMachineInstrumenter.cpp` puts a call of `__region_boundary` at the top of every boundary,
saves the registers that are live into the entry before the boundary there, and puts the selected
saves behind their instructions. A run of the code goes on at a boundary, or recovers with the
registers that the slots hold.

A register that is written later on the way to a boundary does not matter, and one whose value
reaches a boundary was saved where it was written. So at every moment the slot of a register whose
value can reach a start block is up to date, but for saves that come next (`IsUpToDate`), and at
an executed boundary the slots of all live registers are (`slots_are_current`).
-/

namespace Bao.RockClimb.Backend

open Bao.Graph Relation

/-! ### The instrumenter -/

/-- An instruction of the emitted code: one of the function with its index in the block, a call of
`__region_boundary`, or the store of a register to its slot. -/
inductive EmittedInstr
  | original (index : ℕ) (MI : MachineInstr)
  | regionBoundary
  | save (reg regId : ℕ)

namespace EmittedInstr

/-- The operand for R4 to R15. -/
def gprOperand (isDef : Bool) (reg : ℕ) : MachineOperand := .reg (some ⟨reg, false⟩) isDef false

/-- The machine instruction. The boundary is a call that defines R11 to R15. -/
def toInstr : EmittedInstr → MachineInstr
  | .original _ MI => MI
  | .regionBoundary =>
    { operands := .symbol :: (List.range' 11 5).map (gprOperand true), isCall := true }
  | .save reg _ => { operands := [gprOperand false 2, .global .other, gprOperand false reg] }

end EmittedInstr

/-- The code of all blocks. -/
abbrev Code := MachineBasicBlock → List EmittedInstr

/-- Behind the instruction with the index, unless it is a terminator. -/
def insertAfter (index : ℕ) (e : EmittedInstr) : List EmittedInstr → List EmittedInstr
  | [] => []
  | .original i MI :: rest =>
    if i = index then
      if MI.isTerminator then .original i MI :: rest else .original i MI :: e :: rest
    else .original i MI :: insertAfter index e rest
  | e' :: rest => e' :: insertAfter index e rest

namespace MachineFunction

variable (MF : MachineFunction)

/-- The code before the instrumentation. -/
def code (b : MachineBasicBlock) : List EmittedInstr :=
  (MF.instrs b).zipIdx.map fun MI => .original MI.2 MI.1

/-- The registers that are live into a block of the code. -/
def argRegs (code : Code) (b : MachineBasicBlock) : List ℕ :=
  gprs.filter fun reg =>
    isRegLiveFromBlock MF.toMachineCFG (fun b => (code b).map EmittedInstr.toInstr) reg b

/-- **`insertEntryBoundary`** and **`insertBoundaryCheck`**. -/
def insertBoundary (code : Code) (b : MachineBasicBlock) : Code :=
  if MF.blocks.head? = some b then
    Function.update code b (((MF.argRegs code b).map fun reg => .save reg (assignRegId reg)) ++
      .regionBoundary :: code b)
  else Function.update code b (.regionBoundary :: code b)

/-- **`insertRegisterCheckpoint`**. -/
def insertRegisterCheckpoint (code : Code) (ckpt : MachineCheckpointPoint) : Code :=
  Function.update code ckpt.afterInst.1
    (insertAfter ckpt.afterInst.2 (.save ckpt.reg ckpt.regId) (code ckpt.afterInst.1))

/-- **`instrument`**. -/
def instrument (boundaries : List MachineBasicBlock) (checkpoints : List MachineCheckpointPoint)
    (enableDistributedCkpt : Bool) : Code :=
  let code := boundaries.foldl MF.insertBoundary MF.code
  if enableDistributedCkpt then checkpoints.foldl insertRegisterCheckpoint code else code

end MachineFunction

/-! ### Runs -/

/-- The block that runs with what is left of its code, the registers, and the slots. -/
structure MachineState where
  block : MachineBasicBlock
  rest : List EmittedInstr
  regs : ℕ → BitVec 16
  nvmRegs : ℕ → BitVec 16

/-- **An instruction** writes the registers it defines only, and no slots unless it calls a function
that may write them. -/
def Executes (MI : MachineInstr) (regs nvmRegs regs' nvmRegs' : ℕ → BitVec 16) : Prop :=
  (∀ reg ∈ gprs, MI.hasDef reg = false → regs' reg = regs reg) ∧
    (MI.isClobberingCall = false → nvmRegs' = nvmRegs)

/-- A step of the code. A boundary is passed, or the registers are restored from the slots. A
terminator may leave the block. -/
inductive Step (MF : MachineFunction) (code : Code) : MachineState → MachineState → Prop
  | instr {b i MI rest regs nvmRegs regs' nvmRegs'} (h : Executes MI regs nvmRegs regs' nvmRegs') :
    Step MF code ⟨b, .original i MI :: rest, regs, nvmRegs⟩ ⟨b, rest, regs', nvmRegs'⟩
  | save {b reg regId rest regs nvmRegs} :
    Step MF code ⟨b, .save reg regId :: rest, regs, nvmRegs⟩
      ⟨b, rest, regs, Function.update nvmRegs regId (regs reg)⟩
  | boundary {b rest regs nvmRegs} :
    Step MF code ⟨b, .regionBoundary :: rest, regs, nvmRegs⟩ ⟨b, rest, regs, nvmRegs⟩
  | recover {b rest regs nvmRegs regs'} (h : ∀ reg ∈ gprs, regs' reg = nvmRegs (assignRegId reg)) :
    Step MF code ⟨b, .regionBoundary :: rest, regs, nvmRegs⟩ ⟨b, rest, regs', nvmRegs⟩
  | branch {b i MI rest regs nvmRegs regs' nvmRegs' succ} (hterm : MI.isTerminator = true)
    (hsucc : succ ∈ MF.successors b) (h : Executes MI regs nvmRegs regs' nvmRegs') :
    Step MF code ⟨b, .original i MI :: rest, regs, nvmRegs⟩ ⟨succ, code succ, regs', nvmRegs'⟩
  | fallThrough {b regs nvmRegs succ} (hsucc : succ ∈ MF.successors b) :
    Step MF code ⟨b, [], regs, nvmRegs⟩ ⟨succ, code succ, regs, nvmRegs⟩

/-- **At every executed boundary** the slot of a register that is live into the block holds its
value. -/
def SlotsAreCurrent (MF : MachineFunction) (code : Code) : Prop :=
  ∀ entry regs nvmRegs s, MF.blocks.head? = some entry →
    ReflTransGen (Step MF code) ⟨entry, code entry, regs, nvmRegs⟩ s →
    s.rest.head? = some .regionBoundary → ∀ reg ∈ gprs,
      isRegLiveFromBlock MF.toMachineCFG MF.instrs reg s.block = true →
        s.nvmRegs (assignRegId reg) = s.regs reg

/-! ### The emitted code -/

/-- The store of a register to a slot. -/
private def storeOf (save : ℕ × ℕ) : EmittedInstr := .save save.1 save.2

/-- The instructions from an index on, with the saves behind them. -/
private def emittedBody (saves : ℕ → List (ℕ × ℕ)) : ℕ → List MachineInstr → List EmittedInstr
  | _, [] => []
  | i, MI :: rest =>
    .original i MI :: ((if MI.isTerminator then [] else (saves i).map storeOf) ++
      emittedBody saves (i + 1) rest)

private theorem emittedBody_congr {saves saves' : ℕ → List (ℕ × ℕ)} (l : List MachineInstr) {k : ℕ}
    (h : ∀ i, k ≤ i → saves i = saves' i) : emittedBody saves k l = emittedBody saves' k l := by
  induction l generalizing k with
  | nil => rfl
  | cons MI l ih => rw [emittedBody, emittedBody, h k le_rfl, ih fun i hi => h i (by omega)]

private theorem code_eq_emittedBody (MF : MachineFunction) (b : MachineBasicBlock) :
    MF.code b = emittedBody (fun _ => []) 0 (MF.instrs b) := by
  have hbody : ∀ (l : List MachineInstr) k, (l.zipIdx k).map (fun MI => .original MI.2 MI.1) =
      emittedBody (fun _ => []) k l := by
    intro l
    induction l with
    | nil => exact fun _ => rfl
    | cons MI l ih =>
      intro k
      rw [List.zipIdx_cons, List.map_cons, ih, emittedBody]
      simp
  exact hbody _ 0

private theorem insertAfter_append {front l : List EmittedInstr} {i : ℕ} {e : EmittedInstr}
    (hfront : ∀ e' ∈ front, ∀ i MI, e' ≠ .original i MI) :
    insertAfter i e (front ++ l) = front ++ insertAfter i e l := by
  induction front with
  | nil => rfl
  | cons e' front ih =>
    obtain ⟨he', hrest⟩ := List.forall_mem_cons.mp hfront
    cases e' with
    | original i MI => exact absurd rfl (he' i MI)
    | regionBoundary => simp only [List.cons_append, insertAfter, ih hrest]
    | save reg regId => simp only [List.cons_append, insertAfter, ih hrest]

private theorem insertAfter_emittedBody {saves : ℕ → List (ℕ × ℕ)} {l : List MachineInstr} {i k : ℕ}
    {save : ℕ × ℕ} : insertAfter i (storeOf save) (emittedBody saves k l) =
      emittedBody (Function.update saves i (save :: saves i)) k l := by
  have hsaves : ∀ saves : List (ℕ × ℕ), ∀ e ∈ saves.map storeOf, ∀ i MI, e ≠ .original i MI := by
    intro saves e he i MI heq
    obtain ⟨save, -, rfl⟩ := List.mem_map.mp he
    cases heq
  induction l generalizing k with
  | nil => rfl
  | cons MI l ih =>
    rw [emittedBody, emittedBody, insertAfter]
    by_cases hk : k = i
    · subst hk
      have hlater : emittedBody saves (k + 1) l =
          emittedBody (Function.update saves k (save :: saves k)) (k + 1) l :=
        emittedBody_congr l fun j hj => (Function.update_of_ne (by omega) _ _).symm
      rw [if_pos rfl, Function.update_self, hlater]
      cases MI.isTerminator <;> simp
    · rw [if_neg hk, Function.update_of_ne hk]
      cases MI.isTerminator with
      | true => simp [ih]
      | false =>
        rw [if_neg Bool.false_ne_true, insertAfter_append (hsaves _), ih]

/-- The saves of the emitted code: those behind the instructions of a block, by the index. -/
private def savesAfter (checkpoints : List MachineCheckpointPoint) (b : MachineBasicBlock)
    (i : ℕ) : List (ℕ × ℕ) :=
  ((checkpoints.filter fun ckpt => ckpt.afterInst = (b, i)).map fun ckpt =>
    (ckpt.reg, ckpt.regId)).reverse

private theorem mem_savesAfter {checkpoints : List MachineCheckpointPoint} {b : MachineBasicBlock}
    {i : ℕ} {save : ℕ × ℕ} : save ∈ savesAfter checkpoints b i ↔
      ∃ ckpt ∈ checkpoints, ckpt.afterInst = (b, i) ∧ (ckpt.reg, ckpt.regId) = save := by
  simp only [savesAfter, List.mem_reverse, List.mem_map, List.mem_filter, decide_eq_true_eq,
    and_assoc]

/-- The code of a block with everything that is put at its top. -/
private def emitted (MF : MachineFunction) (top : MachineBasicBlock → List EmittedInstr)
    (checkpoints : List MachineCheckpointPoint) : Code :=
  fun b => top b ++ emittedBody (savesAfter checkpoints b) 0 (MF.instrs b)

private theorem insertRegisterCheckpoint_emitted {MF : MachineFunction}
    {top : MachineBasicBlock → List EmittedInstr} {checkpoints : List MachineCheckpointPoint}
    {ckpt : MachineCheckpointPoint} (htop : ∀ b, ∀ e ∈ top b, ∀ i MI, e ≠ .original i MI) :
    MachineFunction.insertRegisterCheckpoint (emitted MF top checkpoints) ckpt =
      emitted MF top (checkpoints ++ [ckpt]) := by
  have hsaves : ∀ b i, savesAfter (checkpoints ++ [ckpt]) b i =
      if ckpt.afterInst = (b, i) then (ckpt.reg, ckpt.regId) :: savesAfter checkpoints b i
      else savesAfter checkpoints b i := by
    intro b i
    rw [savesAfter, List.filter_append]
    by_cases h : ckpt.afterInst = (b, i) <;> simp [h, savesAfter]
  funext b
  rw [MachineFunction.insertRegisterCheckpoint]
  by_cases hb : b = ckpt.afterInst.1
  · subst hb
    have hupdate : savesAfter (checkpoints ++ [ckpt]) ckpt.afterInst.1 =
        Function.update (savesAfter checkpoints ckpt.afterInst.1) ckpt.afterInst.2
          ((ckpt.reg, ckpt.regId) ::
            savesAfter checkpoints ckpt.afterInst.1 ckpt.afterInst.2) := by
      funext i
      rw [hsaves]
      by_cases hi : i = ckpt.afterInst.2
      · subst hi
        rw [Function.update_self, if_pos rfl]
      · rw [Function.update_of_ne hi, if_neg fun h => hi (Prod.ext_iff.mp h).2.symm]
    rw [Function.update_self, emitted, emitted, hupdate, ← insertAfter_emittedBody]
    exact insertAfter_append (htop _)
  · rw [Function.update_of_ne hb, emitted, emitted]
    refine congrArg (top b ++ ·) (emittedBody_congr _ fun i _ => ?_)
    rw [hsaves, if_neg fun h => hb (Prod.ext_iff.mp h).1.symm]

private theorem foldl_insertRegisterCheckpoint {MF : MachineFunction}
    {top : MachineBasicBlock → List EmittedInstr}
    (htop : ∀ b, ∀ e ∈ top b, ∀ i MI, e ≠ .original i MI)
    (done checkpoints : List MachineCheckpointPoint) :
    checkpoints.foldl MachineFunction.insertRegisterCheckpoint (emitted MF top done) =
      emitted MF top (done ++ checkpoints) := by
  induction checkpoints generalizing done with
  | nil => rw [List.append_nil, List.foldl_nil]
  | cons ckpt checkpoints ih =>
    rw [List.foldl_cons, insertRegisterCheckpoint_emitted htop, ih, List.append_assoc]
    rfl

/-- The top of a block: the saves of the entry and the boundary. -/
private def topOf (args : MachineBasicBlock → List ℕ) (boundaries : List MachineBasicBlock)
    (b : MachineBasicBlock) : List EmittedInstr :=
  if b ∈ boundaries then ((args b).map fun reg => .save reg (assignRegId reg)) ++ [.regionBoundary]
  else []

/-- The boundaries are put at the top of their blocks. At the first one the code is as it was. -/
private theorem foldl_insertBoundary (MF : MachineFunction) {boundaries : List MachineBasicBlock}
    (hnodup : boundaries.Nodup) (code : Code) : ∃ args : MachineBasicBlock → List ℕ,
      (∀ b, ∀ reg ∈ args b, reg ∈ gprs) ∧
      (∀ entry, MF.blocks.head? = some entry → boundaries.head? = some entry →
        args entry = MF.argRegs code entry) ∧
      boundaries.foldl MF.insertBoundary code = fun b => topOf args boundaries b ++ code b := by
  induction boundaries generalizing code with
  | nil => exact ⟨fun _ => [], by simp, by simp, by simp [topOf]⟩
  | cons b boundaries ih =>
    obtain ⟨hb, hnodup⟩ := List.nodup_cons.mp hnodup
    obtain ⟨args, hargs, -, hfold⟩ := ih hnodup (MF.insertBoundary code b)
    set first : List ℕ := if MF.blocks.head? = some b then MF.argRegs code b else [] with hfirst
    have hinsert : MF.insertBoundary code b = Function.update code b
        ((first.map fun reg => .save reg (assignRegId reg)) ++ .regionBoundary :: code b) := by
      rw [MachineFunction.insertBoundary, hfirst]
      split_ifs <;> rfl
    refine ⟨Function.update args b first, fun c reg hreg => ?_, fun entry hentry hhead => ?_, ?_⟩
    · by_cases hc : c = b
      · rw [hc, Function.update_self, hfirst] at hreg
        split_ifs at hreg
        · exact (List.mem_filter.mp hreg).1
        · exact absurd hreg List.not_mem_nil
      · rw [Function.update_of_ne hc] at hreg
        exact hargs c reg hreg
    · obtain rfl : b = entry := Option.some.inj hhead
      rw [Function.update_self, hfirst, if_pos hentry]
    · rw [List.foldl_cons, hfold, hinsert]
      funext c
      by_cases hc : c = b
      · subst hc
        simp [topOf, hb]
      · simp [topOf, hc]

/-- **The emitted code**: a boundary and the saves of the entry at the top, and every selected save
behind its instruction. -/
private theorem instrument_eq {MF : MachineFunction} {boundaries : List MachineBasicBlock}
    (hnodup : boundaries.Nodup) (checkpoints : List MachineCheckpointPoint) :
    ∃ args : MachineBasicBlock → List ℕ, (∀ b, ∀ reg ∈ args b, reg ∈ gprs) ∧
      (∀ entry, MF.blocks.head? = some entry → boundaries.head? = some entry →
        ∀ reg ∈ gprs, isRegLiveFromBlock MF.toMachineCFG MF.instrs reg entry = true →
          reg ∈ args entry) ∧
      MF.instrument boundaries checkpoints true =
        emitted MF (topOf args boundaries) checkpoints := by
  obtain ⟨args, hargs, hentry, hfold⟩ := foldl_insertBoundary MF hnodup MF.code
  have hcode : (fun b => (MF.code b).map EmittedInstr.toInstr) = MF.instrs := by
    funext b
    simp only [MachineFunction.code, List.map_map]
    exact List.zipIdx_map_fst _ _
  refine ⟨args, hargs, fun entry hhead hfirst reg hreg hlive => ?_, ?_⟩
  · rw [hentry entry hhead hfirst, MachineFunction.argRegs, hcode]
    exact List.mem_filter.mpr ⟨hreg, hlive⟩
  · have hinit : (fun b => topOf args boundaries b ++ MF.code b) =
        emitted MF (topOf args boundaries) [] := by
      funext b
      rw [emitted, code_eq_emittedBody]
      rfl
    rw [MachineFunction.instrument, if_pos rfl, hfold, hinit, foldl_insertRegisterCheckpoint,
      List.nil_append]
    intro b e he i MI heq
    subst heq
    rw [topOf] at he
    split_ifs at he
    · simp at he
    · exact absurd he List.not_mem_nil

/-! ### Regions and boundaries -/

/-- **The regions and their boundaries**: a boundary starts a region, and the boundary of the entry
comes first. -/
structure IsPartition (MF : MachineFunction) (regions : List MachineRegionInfo)
    (boundaries : List MachineBasicBlock) : Prop where
  nodup : boundaries.Nodup
  starts : ∀ b ∈ boundaries, b ∈ startBlocks regions
  entry_first : ∀ entry, MF.blocks.head? = some entry → entry ∈ boundaries →
    boundaries.head? = some entry

section Partition

variable {boundarySet : List MachineBasicBlock} {O : RockClimbMachineOptimizer}

/-- The start blocks of the finished regions and of the open one, if it has a block. -/
private def startsOf (f : RockClimbMachineOptimizer.Forming) : List MachineBasicBlock :=
  startBlocks f.flush

private theorem mem_startsOf_formRegion {f : RockClimbMachineOptimizer.Forming}
    {b c : MachineBasicBlock} (h : c ∈ startsOf f ∨ c = b ∧ b ∈ boundarySet) :
    c ∈ startsOf (O.formRegion boundarySet f b) := by
  have hnonempty : ∀ l : List MachineBasicBlock, (l ++ [b]).isEmpty = false := by simp
  rw [startsOf, RockClimbMachineOptimizer.formRegion]
  by_cases hb : b ∈ boundarySet
  · simp only [if_pos hb, RockClimbMachineOptimizer.Forming.flush, hnonempty, Bool.false_eq_true,
      if_false, startBlocks, List.map_append, List.mem_append, List.map_cons, List.map_nil,
      List.mem_singleton]
    exact h.imp id And.left
  · have hc := h.resolve_right fun hcon => hb hcon.2
    simp only [if_neg hb, RockClimbMachineOptimizer.Forming.flush, hnonempty, Bool.false_eq_true,
      if_false, startBlocks, List.map_append, List.mem_append, List.map_cons, List.map_nil,
      List.mem_singleton]
    rw [startsOf, RockClimbMachineOptimizer.Forming.flush] at hc
    split_ifs at hc
    · exact .inl hc
    · simpa [startBlocks] using hc

private theorem mem_startsOf_foldl {f : RockClimbMachineOptimizer.Forming}
    {blocks : List MachineBasicBlock} {c : MachineBasicBlock}
    (h : c ∈ startsOf f ∨ c ∈ blocks ∧ c ∈ boundarySet) :
    c ∈ startsOf (blocks.foldl (O.formRegion boundarySet) f) := by
  induction blocks generalizing f with
  | nil => exact h.resolve_right fun hcon => List.not_mem_nil hcon.1
  | cons b blocks ih =>
    rw [List.foldl_cons]
    rcases h with hc | ⟨hc, hset⟩
    · exact ih (.inl (mem_startsOf_formRegion (.inl hc)))
    · rcases List.mem_cons.mp hc with rfl | hc
      · exact ih (.inl (mem_startsOf_formRegion (.inr ⟨rfl, hset⟩)))
      · exact ih (.inr ⟨hc, hset⟩)

/-- **`partitionRegions`** returns such regions and boundaries. -/
theorem partitionRegions_isPartition (MF : MachineFunction) (energyCosts : MachineBasicBlock → ℚ)
    (E_safe : ℚ) : IsPartition MF
      (RockClimbMachineOptimizer.partitionRegions ⟨MF.toMachineCFG, energyCosts, E_safe⟩).regions
      (RockClimbMachineOptimizer.partitionRegions
        ⟨MF.toMachineCFG, energyCosts, E_safe⟩).regionBoundaries := by
  have hnodup := MF.toMachineCFG.nodup_topoOrder
  have hhead := MF.toMachineCFG.head?_topoOrder
  rw [RockClimbMachineOptimizer.partitionRegions]
  cases htopo : MF.toMachineCFG.topoOrder with
  | nil => exact ⟨by simp, by simp, by simp⟩
  | cons entryMBB rest =>
    rw [htopo] at hnodup hhead
    simp only
    split
    · exact ⟨by simp, by simp, by simp⟩
    · next P _ =>
      refine ⟨hnodup.filter fun b => decide (b ∈ P.boundarySet), fun b hb => ?_,
        fun entry hentry hmem => ?_⟩
      · obtain ⟨hb, hset⟩ := List.mem_filter.mp hb
        exact mem_startsOf_foldl (.inr ⟨hb, of_decide_eq_true hset⟩)
      · obtain rfl : entryMBB = entry := Option.some.inj (hhead.trans hentry)
        rw [List.filter_cons, if_pos (List.mem_filter.mp hmem).2, List.head?_cons]

end Partition

/-! ### Slots that are up to date -/

/-- **Code that writes the slots in its own saves only**: no call writes them, and no terminator
writes a register. The register allocator gives out no reserved register. -/
structure KeepsSlots (MF : MachineFunction) : Prop where
  calls : ∀ b ∈ MF.blocks, ∀ MI ∈ MF.instrs b, MI.isClobberingCall = false
  terminators : ∀ b ∈ MF.blocks, ∀ MI ∈ MF.instrs b, MI.isTerminator = true →
    ∀ reg ∈ gprs, MI.hasDef reg = false
  reserved : ∀ b ∈ MF.blocks, ∀ MI ∈ MF.instrs b, ∀ reg ∈ gprs, MF.isReserved reg = true →
    MI.hasDef reg = false

section Invariant

variable {MF : MachineFunction} {regions : List MachineRegionInfo}
  {boundaries : List MachineBasicBlock} {args : MachineBasicBlock → List ℕ}
  {b : MachineBasicBlock} {reg : ℕ}

private theorem assignRegId_inj {reg reg' : ℕ} (hreg : reg ∈ gprs) (hreg' : reg' ∈ gprs)
    (h : assignRegId reg = assignRegId reg') : reg = reg' := by
  rw [mem_gprs] at hreg hreg'
  rw [assignRegId, assignRegId] at h
  omega

/-- The value of the register can reach a start block from inside a block. -/
private def NeededAfter (MF : MachineFunction) (regions : List MachineRegionInfo) (reg : ℕ)
    (b : MachineBasicBlock) (back : List MachineInstr) : Prop :=
  (∀ MI ∈ back, MI.isDefLike reg = false) ∧
    ∃ succ ∈ MF.successors b, MF.ReachesStart (startBlocks regions) reg succ

/-- **The slot of a register whose value can reach a start block is up to date**, or its save comes
next. The saves that come next are `pending`, and a boundary may follow them. -/
private structure IsUpToDate (MF : MachineFunction) (regions : List MachineRegionInfo)
    (pending : List (ℕ × ℕ)) (atBoundary : Bool) (front back : List MachineInstr)
    (s : MachineState) : Prop where
  mem_blocks : s.block ∈ MF.blocks
  instrs_eq : MF.instrs s.block = front ++ back
  rest_eq : s.rest = pending.map storeOf ++ ((if atBoundary then [.regionBoundary] else []) ++
    emittedBody (savesAfter (MF.analyze regions) s.block) front.length back)
  slots : ∀ save ∈ pending, save.1 ∈ gprs ∧ save.2 = assignRegId save.1
  current : ∀ reg ∈ gprs, NeededAfter MF regions reg s.block back ∨
      atBoundary = true ∧ LiveFrom MF.toMachineCFG MF.instrs reg s.block →
    s.nvmRegs (assignRegId reg) = s.regs reg ∨ (reg, assignRegId reg) ∈ pending

/-- The emitted code of the function. -/
private abbrev emittedCode (MF : MachineFunction) (regions : List MachineRegionInfo)
    (args : MachineBasicBlock → List ℕ) (boundaries : List MachineBasicBlock) : Code :=
  emitted MF (topOf args boundaries) (MF.analyze regions)

/-- **Entering a block.** -/
private theorem isUpToDate_enter (hpartition : IsPartition MF regions boundaries)
    (hargs : ∀ b, ∀ reg ∈ args b, reg ∈ gprs) (hb : b ∈ MF.blocks) {regs nvmRegs : ℕ → BitVec 16}
    (hcurrent : ∀ reg ∈ gprs, MF.ReachesStart (startBlocks regions) reg b →
      nvmRegs (assignRegId reg) = regs reg ∨ b ∈ boundaries ∧ reg ∈ args b) :
    ∃ pending atBoundary front back, IsUpToDate MF regions pending atBoundary front back
      ⟨b, emittedCode MF regions args boundaries b, regs, nvmRegs⟩ := by
  refine ⟨if b ∈ boundaries then (args b).map fun reg => (reg, assignRegId reg) else [],
    decide (b ∈ boundaries), [], MF.instrs b, hb, rfl, ?_, fun save hsave => ?_,
    fun reg hreg hneeded => ?_⟩
  · by_cases hmem : b ∈ boundaries <;> simp [emitted, topOf, hmem, storeOf]
  · split_ifs at hsave
    · obtain ⟨reg, hreg, rfl⟩ := List.mem_map.mp hsave
      exact ⟨hargs b reg hreg, rfl⟩
    · exact absurd hsave List.not_mem_nil
  · have hreaches : MF.ReachesStart (startBlocks regions) reg b := by
      rcases hneeded with ⟨hnone, succ, hsucc, c, hpath, hc⟩ | ⟨hmem, hlive⟩
      · exact ⟨c, .head ⟨hnone, hsucc⟩ hpath, hc⟩
      · exact ⟨b, .refl, hpartition.starts b (of_decide_eq_true hmem), hlive⟩
    refine (hcurrent reg hreg hreaches).imp_right fun ⟨hmem, harg⟩ => ?_
    rw [if_pos hmem]
    exact List.mem_map_of_mem harg

/-- **An instruction** after which the register is needed leaves its slot up to date, or the save
behind it does. -/
private theorem current_after_instr (hkeeps : KeepsSlots MF) (hb : b ∈ MF.blocks)
    {front back : List MachineInstr} {MI : MachineInstr}
    (hinstrs : MF.instrs b = front ++ MI :: back) {regs nvmRegs regs' nvmRegs' : ℕ → BitVec 16}
    (hexec : Executes MI regs nvmRegs regs' nvmRegs') (hreg : reg ∈ gprs)
    (hbefore : NeededAfter MF regions reg b (MI :: back) → nvmRegs (assignRegId reg) = regs reg)
    (hneeded : NeededAfter MF regions reg b back) :
    nvmRegs' (assignRegId reg) = regs' reg ∨ MI.isTerminator = false ∧
      (reg, assignRegId reg) ∈ savesAfter (MF.analyze regions) b front.length := by
  have hMI : MI ∈ MF.instrs b := hinstrs ▸ List.mem_append_right _ List.mem_cons_self
  have hcall := hkeeps.calls b hb MI hMI
  cases hdef : MI.isDefLike reg with
  | false =>
    left
    rw [hexec.2 hcall, hexec.1 reg hreg (MachineFunction.hasDef_of_not_isDefLike hdef)]
    exact hbefore ⟨List.forall_mem_cons.mpr ⟨hdef, hneeded.1⟩, hneeded.2⟩
  | true =>
    right
    -- the last definition of the block, which is selected
    have hdef' : MI.hasDef reg = true := by
      rwa [MachineInstr.isDefLike, hcall, Bool.or_false] at hdef
    have hterm : MI.isTerminator = false := by
      by_contra hterm
      rw [hkeeps.terminators b hb MI hMI (Bool.not_eq_false _ ▸ hterm) reg hreg] at hdef'
      cases hdef'
    have htracked : MF.IsTracked reg := by
      refine ⟨hreg, ?_⟩
      by_contra hreserved
      rw [hkeeps.reserved b hb MI hMI reg hreg (Bool.not_eq_false _ ▸ hreserved)] at hdef'
      cases hdef'
    obtain ⟨hnone, succ, hsucc, hreaches⟩ := hneeded
    obtain ⟨ckpt, hckpt, hinst, rfl⟩ := MachineFunction.exists_mem_analyze hb hsucc hreaches
      htracked ⟨MI, hMI, hdef'⟩ ⟨front, MI, back, hinstrs, rfl, hdef, hterm, hnone⟩
    refine ⟨hterm, mem_savesAfter.mpr ⟨ckpt, hckpt, hinst, ?_⟩⟩
    rw [(MachineFunction.selects_of_mem_analyze hckpt).1]

/-- **One step** keeps the slots up to date. -/
private theorem IsUpToDate.step (hkeeps : KeepsSlots MF)
    (hpartition : IsPartition MF regions boundaries) (hargs : ∀ b, ∀ reg ∈ args b, reg ∈ gprs)
    {pending : List (ℕ × ℕ)} {atBoundary : Bool} {front back : List MachineInstr}
    {s s' : MachineState} (h : IsUpToDate MF regions pending atBoundary front back s)
    (hstep : Step MF (emittedCode MF regions args boundaries) s s') :
    ∃ pending atBoundary front back, IsUpToDate MF regions pending atBoundary front back s' := by
  obtain ⟨b, rest, regs, nvmRegs⟩ := s
  obtain ⟨hb, hinstrs, hrest, hslots, hcurrent⟩ := h
  simp only at hb hinstrs hrest hslots hcurrent
  subst hrest
  cases pending with
  | cons save pending =>
    obtain ⟨⟨hsave, hslot⟩, hslots⟩ := List.forall_mem_cons.mp hslots
    cases hstep
    refine ⟨pending, atBoundary, front, back, hb, hinstrs, rfl, hslots, fun reg hreg hneeded => ?_⟩
    simp only [hslot]
    by_cases heq : reg = save.1
    · exact .inl (by rw [heq, Function.update_self])
    · rw [Function.update_of_ne fun hid => heq (assignRegId_inj hreg hsave hid)]
      refine (hcurrent reg hreg hneeded).imp_right fun hmem => ?_
      exact (List.mem_cons.mp hmem).resolve_left fun hcon => heq (Prod.ext_iff.mp hcon).1
  | nil =>
    have hvalue : ∀ reg ∈ gprs, NeededAfter MF regions reg b back →
        nvmRegs (assignRegId reg) = regs reg := fun reg hreg hneeded =>
      (hcurrent reg hreg (.inl hneeded)).resolve_right List.not_mem_nil
    cases atBoundary with
    | true =>
      cases hstep with
      | boundary =>
        exact ⟨[], false, front, back, hb, hinstrs, rfl, hslots, fun reg hreg hneeded =>
          .inl (hvalue reg hreg (hneeded.resolve_right fun hcon => Bool.false_ne_true hcon.1))⟩
      | recover hregs =>
        exact ⟨[], false, front, back, hb, hinstrs, rfl, hslots, fun reg hreg _ =>
          .inl (hregs reg hreg).symm⟩
    | false =>
      cases back with
      | nil =>
        cases hstep with
        | fallThrough hsucc =>
          exact isUpToDate_enter hpartition hargs (MF.successors_mem b hb _ hsucc)
            fun reg hreg hreaches => .inl (hvalue reg hreg ⟨by simp, _, hsucc, hreaches⟩)
      | cons MI back =>
        cases hstep with
        | instr hexec =>
          refine ⟨if MI.isTerminator then [] else savesAfter (MF.analyze regions) b front.length,
            false, front ++ [MI], back, hb, by simp [hinstrs], ?_, fun save hsave => ?_,
            fun reg hreg hneeded => ?_⟩
          · cases MI.isTerminator <;> simp
          · split_ifs at hsave
            · exact absurd hsave List.not_mem_nil
            · obtain ⟨ckpt, hckpt, -, rfl⟩ := mem_savesAfter.mp hsave
              obtain ⟨hid, _, -, hselects⟩ := MachineFunction.selects_of_mem_analyze hckpt
              exact ⟨(MachineFunction.mem_defsInPreds.mp hselects.mem_defs).1.1, hid⟩
          · refine (current_after_instr hkeeps hb hinstrs hexec hreg (hvalue reg hreg)
              (hneeded.resolve_right fun hcon => Bool.false_ne_true hcon.1)).imp_right ?_
            rintro ⟨hterm, hmem⟩
            rwa [hterm, if_neg Bool.false_ne_true]
        | branch hterm hsucc hexec =>
          have hMI : MI ∈ MF.instrs b := hinstrs ▸ List.mem_append_right _ List.mem_cons_self
          -- only terminators are left, and they write nothing
          have hlast : ∀ MI' ∈ MI :: back, MI'.isTerminator = true := by
            have hpair := MF.terminators_last b hb
            rw [hinstrs] at hpair
            exact List.forall_mem_cons.mpr ⟨hterm, fun MI' hMI' => (List.pairwise_cons.mp
              (List.pairwise_append.mp hpair).2.1).1 MI' hMI' hterm⟩
          refine isUpToDate_enter hpartition hargs (MF.successors_mem b hb _ hsucc)
            fun reg hreg hreaches => .inl ?_
          have hnone : ∀ MI' ∈ MI :: back, MI'.isDefLike reg = false := fun MI' hMI' => by
            have hmem : MI' ∈ MF.instrs b := hinstrs ▸ List.mem_append_right _ hMI'
            rw [MachineInstr.isDefLike, hkeeps.calls b hb MI' hmem,
              hkeeps.terminators b hb MI' hmem (hlast MI' hMI') reg hreg, Bool.or_false]
          rw [hexec.2 (hkeeps.calls b hb MI hMI),
            hexec.1 reg hreg (hkeeps.terminators b hb MI hMI hterm reg hreg)]
          exact hvalue reg hreg ⟨hnone, _, hsucc, hreaches⟩

end Invariant

/-- **Distributed register saves are right**: if no call writes the slots, and the entry is a
boundary or no register is live into it, then at every executed boundary the slot of every live
register holds its value. -/
theorem slots_are_current {MF : MachineFunction} {regions : List MachineRegionInfo}
    {boundaries : List MachineBasicBlock} (hkeeps : KeepsSlots MF)
    (hpartition : IsPartition MF regions boundaries)
    (hentry : ∀ entry, MF.blocks.head? = some entry → entry ∈ boundaries ∨
      ∀ reg ∈ gprs, isRegLiveFromBlock MF.toMachineCFG MF.instrs reg entry = false) :
    SlotsAreCurrent MF (MF.instrument boundaries (MF.analyze regions) true) := by
  obtain ⟨args, hargs, hlive, hcode⟩ := instrument_eq hpartition.nodup (MF.analyze regions)
  rw [hcode]
  intro entry regs nvmRegs s hhead hrun
  have hmem : entry ∈ MF.blocks := List.mem_of_head? hhead
  have hinv : ∃ pending atBoundary front back,
      IsUpToDate MF regions pending atBoundary front back s := by
    induction hrun with
    | refl =>
      refine isUpToDate_enter hpartition hargs hmem fun reg hreg hreaches => .inr ?_
      have hliveIn := (isRegLiveFromBlock_iff hmem).mpr hreaches.liveFrom
      rcases hentry entry hhead with hboundary | hnone
      · exact ⟨hboundary, hlive entry hhead (hpartition.entry_first entry hhead hboundary) reg
          hreg hliveIn⟩
      · rw [hnone reg hreg] at hliveIn
        cases hliveIn
    | tail _ hstep ih =>
      obtain ⟨_, _, _, _, h⟩ := ih
      exact h.step hkeeps hpartition hargs hstep
  obtain ⟨pending, atBoundary, front, back, hb, -, hrest, -, hcurrent⟩ := hinv
  intro hboundary reg hreg hliveIn
  have hlive' := (isRegLiveFromBlock_iff hb).mp hliveIn
  rw [hrest] at hboundary
  cases pending with
  | cons save pending => cases hboundary
  | nil =>
    cases atBoundary with
    | true =>
      exact (hcurrent reg hreg (.inr ⟨rfl, hlive'⟩)).resolve_right List.not_mem_nil
    | false =>
      cases back with
      | nil => cases hboundary
      | cons MI back => cases hboundary

/-! ### A loop with an accumulator -/

/-- An instruction on registers R4 to R15: those it defines, and those it uses. -/
def instrOf (defs uses : List ℕ) : MachineInstr :=
  { operands := defs.map (EmittedInstr.gprOperand true) ++
      uses.map (EmittedInstr.gprOperand false) }

/-- A branch or a return that uses registers. -/
def terminatorOf (uses : List ℕ) : MachineInstr :=
  { operands := uses.map (EmittedInstr.gprOperand false), isTerminator := true }

/-- The entry clears R4, the loop adds the argument R12 to it, and the last block returns it. -/
def accumulate : MachineFunction where
  name := "accumulate"
  blocks := List.range 3
  successors := fun b => if b = 0 then [1] else if b = 1 then [1, 2] else []
  isReturnBlock := fun b => b = 2
  loopHeaders := [1]
  nodup := by decide
  successors_mem := by decide
  instrs := fun b =>
    if b = 0 then [instrOf [4] []]
    else if b = 1 then [instrOf [4] [4, 12], terminatorOf [4]]
    else [instrOf [12] [4], terminatorOf [12]]
  terminators_last := by decide

/-- Its regions: every block is a boundary. -/
def accumulatePartition : MachineRockClimbResult :=
  RockClimbMachineOptimizer.partitionRegions ⟨accumulate.toMachineCFG, fun _ => 10, 100⟩

/-- R4 is saved where it is written, for the loop and for the last block. -/
theorem accumulate_slots_are_current :
    (accumulate.analyze accumulatePartition.regions).map (fun ckpt =>
        (ckpt.afterInst, ckpt.reg)) = [((0, 0), 4), ((1, 0), 4)] ∧
    SlotsAreCurrent accumulate (accumulate.instrument accumulatePartition.regionBoundaries
      (accumulate.analyze accumulatePartition.regions) true) := by
  have hentry : 0 ∈ accumulatePartition.regionBoundaries := by decide +kernel
  refine ⟨by decide +kernel, slots_are_current ⟨by decide, by decide, by decide⟩
    (partitionRegions_isPartition accumulate _ _) fun entry hhead => .inl ?_⟩
  obtain rfl : 0 = entry := Option.some.inj hhead
  exact hentry

end Bao.RockClimb.Backend
