import Bao.RockClimb.Instrumenter

/-!
# The charge for register saves

Before the regions exist, `addDistributedSaveCosts` charges every block for the registers that it
defines and that are live out of it. The live registers come from `computeBulkLiveIn`, which misses
a register that the first instruction to touch it both reads and writes: the operand that is written
is listed first. The analysis of the saves does not miss it.

So the charge of a block bounds its saves for all regions if the reads they are for show in that
analysis, and in a block without a clobbering call only then (`charge_bounds_saves`). The
accumulator of a loop does not show (`accumulate_is_not_charged`).
-/

namespace Bao.RockClimb.Backend

open Bao.Graph Relation

namespace MachineFunction

variable (MF : MachineFunction)

/-! ### The charge -/

/-- The union of the live-ins of the successors. -/
def liveOut (b : MachineBasicBlock) : List ℕ :=
  ((MF.successors b).flatMap MF.computeBulkLiveIn).dedup

def hasClobberingCall (b : MachineBasicBlock) : Bool :=
  (MF.instrs b).any MachineInstr.isClobberingCall

/-- The register that an operand defines. -/
def trackedDef : MachineOperand → Option ℕ
  | .reg (some r) true _ => MF.trackedGPR r
  | _ => none

def defined (b : MachineBasicBlock) : List ℕ := (MF.operands b).filterMap MF.trackedDef

/-- The live registers that a block is charged for. -/
def chargedRegs (b : MachineBasicBlock) : List ℕ :=
  (MF.liveOut b).filter fun reg => MF.hasClobberingCall b || reg ∈ MF.defined b

/-- The number of saves a block is charged for. -/
def chargedSaves (b : MachineBasicBlock) : ℕ := (MF.chargedRegs b).length

/-- **`addDistributedSaveCosts`**. -/
def addDistributedSaveCosts (energyCosts : MachineBasicBlock → ℚ) (regStoreEnergy : ℚ)
    (b : MachineBasicBlock) : ℚ :=
  if b ∈ MF.blocks then energyCosts b + MF.chargedSaves b * regStoreEnergy else energyCosts b

/-- The saves that `analyze` places in a block: the instructions, and the registers behind them. -/
def placedSaves (regions : List MachineRegionInfo) (b : MachineBasicBlock) :
    List ((MachineBasicBlock × ℕ) × ℕ) :=
  (((MF.analyze regions).filter fun ckpt => ckpt.afterInst.1 = b).map fun ckpt =>
    (ckpt.afterInst, ckpt.reg)).dedup

/-- **The charge bounds the saves** of a block, whatever the regions are. -/
def ChargeBoundsSaves (b : MachineBasicBlock) : Prop :=
  ∀ regions, (MF.placedSaves regions b).length ≤ MF.chargedSaves b

/-- **The reads that the saves of a block are for show** in the operands: if a register that the
block defines, or has to save again behind a call, is live into a successor, then some path from a
successor leads to a block whose operands read the register first, in their order. -/
def ReadsShow (b : MachineBasicBlock) : Prop :=
  ∀ reg, MF.IsTracked reg → (∃ MI ∈ MF.instrs b, MI.isDefLike reg = true) →
    (∃ succ ∈ MF.successors b, LiveFrom MF.toMachineCFG MF.instrs reg succ) →
      ∃ succ ∈ MF.successors b, MF.BulkLiveFrom reg succ

variable {MF} {regions : List MachineRegionInfo} {b : MachineBasicBlock} {reg : ℕ}

theorem mem_liveOut (hb : b ∈ MF.blocks) : reg ∈ MF.liveOut b ↔
    MF.IsTracked reg ∧ ∃ succ ∈ MF.successors b, MF.BulkLiveFrom reg succ := by
  rw [liveOut, List.mem_dedup, List.mem_flatMap]
  constructor
  · rintro ⟨succ, hsucc, hlive⟩
    obtain ⟨htracked, hlive⟩ :=
      (mem_computeBulkLiveIn (MF.successors_mem b hb succ hsucc)).mp hlive
    exact ⟨htracked, succ, hsucc, hlive⟩
  · rintro ⟨htracked, succ, hsucc, hlive⟩
    exact ⟨succ, hsucc, (mem_computeBulkLiveIn (MF.successors_mem b hb succ hsucc)).mpr
      ⟨htracked, hlive⟩⟩

theorem mem_defined : reg ∈ MF.defined b ↔
    MF.IsTracked reg ∧ ∃ MI ∈ MF.instrs b, MI.hasDef reg = true := by
  have hdef : ∀ MO, MF.trackedDef MO = some reg ↔ MF.IsTracked reg ∧ MO.defines reg = true := by
    rintro (⟨_ | r, isDef, isUndef⟩ | _ | _ | _)
    case reg.some =>
      cases isDef
      · simp [trackedDef, MachineOperand.defines]
      · simp [trackedDef, trackedGPR_eq_some, MachineOperand.defines, regsOverlap]
    all_goals simp [trackedDef, MachineOperand.defines]
  simp only [defined, List.mem_filterMap, operands, List.mem_flatMap, hdef, MachineInstr.hasDef,
    List.any_eq_true]
  constructor
  · rintro ⟨MO, ⟨MI, hMI, hMO⟩, htracked, hMOdef⟩
    exact ⟨htracked, MI, hMI, MO, hMO, hMOdef⟩
  · rintro ⟨htracked, MI, hMI, MO, hMO, hMOdef⟩
    exact ⟨MO, ⟨MI, hMI, hMO⟩, htracked, hMOdef⟩

/-- A register is charged if the block has something that counts as its definition. -/
theorem mem_chargedRegs (hb : b ∈ MF.blocks) : reg ∈ MF.chargedRegs b ↔
    MF.IsTracked reg ∧ (∃ succ ∈ MF.successors b, MF.BulkLiveFrom reg succ) ∧
      ∃ MI ∈ MF.instrs b, MI.isDefLike reg = true := by
  simp only [chargedRegs, List.mem_filter, mem_liveOut hb, Bool.or_eq_true, decide_eq_true_eq,
    mem_defined, hasClobberingCall, List.any_eq_true, MachineInstr.isDefLike]
  constructor
  · rintro ⟨⟨htracked, hlive⟩, ⟨MI, hMI, hcall⟩ | ⟨-, MI, hMI, hdef⟩⟩
    · exact ⟨htracked, hlive, MI, hMI, .inr hcall⟩
    · exact ⟨htracked, hlive, MI, hMI, .inl hdef⟩
  · rintro ⟨htracked, hlive, MI, hMI, hdef | hcall⟩
    · exact ⟨⟨htracked, hlive⟩, .inr ⟨htracked, MI, hMI, hdef⟩⟩
    · exact ⟨⟨htracked, hlive⟩, .inl ⟨MI, hMI, hcall⟩⟩

private theorem nodup_chargedRegs : (MF.chargedRegs b).Nodup := (List.nodup_dedup _).filter _

/-! ### The saves -/

/-- The registers that are saved in a block. -/
private def placedRegs (MF : MachineFunction) (regions : List MachineRegionInfo)
    (b : MachineBasicBlock) : List ℕ :=
  (MF.placedSaves regions b).map Prod.snd

private theorem mem_placedRegs : reg ∈ placedRegs MF regions b ↔
    ∃ ckpt ∈ MF.analyze regions, ckpt.afterInst.1 = b ∧ ckpt.reg = reg := by
  simp only [placedRegs, placedSaves, List.mem_map, List.mem_dedup, List.mem_filter,
    decide_eq_true_eq]
  constructor
  · rintro ⟨_, ⟨ckpt, ⟨hckpt, hblock⟩, rfl⟩, rfl⟩
    exact ⟨ckpt, hckpt, hblock, rfl⟩
  · rintro ⟨ckpt, hckpt, hblock, rfl⟩
    exact ⟨_, ⟨ckpt, ⟨hckpt, hblock⟩, rfl⟩, rfl⟩

/-- A register is saved once in a block, behind its last definition. -/
private theorem nodup_placedRegs : (placedRegs MF regions b).Nodup := by
  refine List.Nodup.map_on ?_ (List.nodup_dedup _)
  simp only [placedSaves, List.mem_dedup, List.mem_map, List.mem_filter, decide_eq_true_eq]
  rintro _ ⟨ckpt, ⟨hckpt, hblock⟩, rfl⟩ _ ⟨ckpt', ⟨hckpt', hblock'⟩, rfl⟩ hreg
  have hreg' : ckpt.reg = ckpt'.reg := hreg
  obtain ⟨-, _, -, hselects⟩ := selects_of_mem_analyze hckpt
  obtain ⟨-, _, -, hselects'⟩ := selects_of_mem_analyze hckpt'
  have hlast := hselects.lastDef
  have hlast' := hselects'.lastDef
  rw [hblock, hreg'] at hlast
  rw [hblock'] at hlast'
  have hinst : ckpt.afterInst = ckpt'.afterInst :=
    Prod.ext (hblock.trans hblock'.symm) (hlast.unique hlast')
  rw [hinst, hreg']

/-- **A register that is saved** is live into a successor. -/
private theorem live_of_mem_placedRegs (h : reg ∈ placedRegs MF regions b) :
    MF.IsTracked reg ∧ (∃ MI ∈ MF.instrs b, MI.isDefLike reg = true) ∧
      ∃ succ ∈ MF.successors b, LiveFrom MF.toMachineCFG MF.instrs reg succ := by
  obtain ⟨ckpt, hckpt, rfl, rfl⟩ := mem_placedRegs.mp h
  obtain ⟨-, T, -, hselects⟩ := selects_of_mem_analyze hckpt
  obtain ⟨succ, hsucc, -, hneed⟩ := needOut_eq_true.mp hselects.needed
  refine ⟨(mem_defsInPreds.mp hselects.mem_defs).1, hselects.lastDef.exists_isDefLike, succ, hsucc,
    needIn_induction (fun hT => (isRegLiveFromBlock_iff hT).mp hselects.live)
      (fun c _ d hd hlive hnone => .of_succ
        (fun MI hMI => hasDef_of_not_isDefLike (hnone MI hMI)) hd hlive) hneed⟩

/-- Every block as a region of its own. -/
private def allRegions (MF : MachineFunction) : List MachineRegionInfo :=
  MF.blocks.map fun b => ⟨b, [b], 0⟩

/-- **With every block a boundary**, every register that a block defines is saved if it is live into
a successor. -/
private theorem mem_placedRegs_allRegions (hb : b ∈ MF.blocks)
    (hcall : MF.hasClobberingCall b = false)
    (hterm : ∀ MI ∈ MF.instrs b, MI.isTerminator = true → MI.hasDef reg = false)
    (htracked : MF.IsTracked reg) (hdef : ∃ MI ∈ MF.instrs b, MI.isDefLike reg = true)
    (hlive : ∃ succ ∈ MF.successors b, LiveFrom MF.toMachineCFG MF.instrs reg succ) :
    reg ∈ placedRegs MF (allRegions MF) b := by
  have hstarts : startBlocks (allRegions MF) = MF.blocks := by
    simp [startBlocks, allRegions, Function.comp_def]
  have hdefLike : ∀ MI ∈ MF.instrs b, MI.isDefLike reg = MI.hasDef reg := fun MI hMI => by
    have hMIcall : MI.isClobberingCall = false :=
      Bool.eq_false_iff.mpr (List.any_eq_false.mp hcall MI hMI)
    rw [MachineInstr.isDefLike, hMIcall, Bool.or_false]
  obtain ⟨i, hlast⟩ := exists_isLastDef hdef fun MI hMI hMIdef => by
    by_contra hMIterm
    rw [hdefLike MI hMI, hterm MI hMI (Bool.not_eq_false _ ▸ hMIterm)] at hMIdef
    cases hMIdef
  obtain ⟨MI, hMI, hMIdef⟩ := hdef
  obtain ⟨succ, hsucc, hlive⟩ := hlive
  have hreaches : MF.ReachesStart (startBlocks (allRegions MF)) reg succ :=
    ⟨succ, .refl, hstarts ▸ MF.successors_mem b hb succ hsucc, hlive⟩
  obtain ⟨ckpt, hckpt, hinst, hreg⟩ := exists_mem_analyze hb hsucc hreaches htracked
    ⟨MI, hMI, hdefLike MI hMI ▸ hMIdef⟩ hlast
  exact mem_placedRegs.mpr ⟨ckpt, hckpt, by rw [hinst], hreg⟩

end MachineFunction

/-- **When the charge bounds the saves.** It does in a block whose reads show. In a block without a
clobbering call, whose terminators define nothing, it does for all regions in no other case. -/
theorem charge_bounds_saves {MF : MachineFunction} {b : MachineBasicBlock} (hb : b ∈ MF.blocks) :
    (MF.ReadsShow b → MF.ChargeBoundsSaves b) ∧
    (MF.hasClobberingCall b = false →
      (∀ MI ∈ MF.instrs b, MI.isTerminator = true → ∀ reg ∈ gprs, MI.hasDef reg = false) →
        MF.ChargeBoundsSaves b → MF.ReadsShow b) := by
  constructor
  · intro hshow regions
    have hsubset : MachineFunction.placedRegs MF regions b ⊆ MF.chargedRegs b := fun reg hreg => by
      obtain ⟨htracked, hdef, hlive⟩ := MachineFunction.live_of_mem_placedRegs hreg
      exact (MachineFunction.mem_chargedRegs hb).mpr
        ⟨htracked, hshow reg htracked hdef hlive, hdef⟩
    have hle := (MachineFunction.nodup_placedRegs.subperm hsubset).length_le
    rwa [MachineFunction.placedRegs, List.length_map] at hle
  · intro hcall hterm hbound reg htracked hdef hlive
    have hmem : ∀ reg, MF.IsTracked reg → (∃ MI ∈ MF.instrs b, MI.isDefLike reg = true) →
        (∃ succ ∈ MF.successors b, LiveFrom MF.toMachineCFG MF.instrs reg succ) →
          reg ∈ MachineFunction.placedRegs MF (MachineFunction.allRegions MF) b :=
      fun reg htracked => MachineFunction.mem_placedRegs_allRegions hb hcall
        (fun MI hMI hMIterm => hterm MI hMI hMIterm reg htracked.1) htracked
    have hsubset : MF.chargedRegs b ⊆
        MachineFunction.placedRegs MF (MachineFunction.allRegions MF) b := fun reg hreg => by
      obtain ⟨htracked, ⟨succ, hsucc, hbulk⟩, hdef⟩ := (MachineFunction.mem_chargedRegs hb).mp hreg
      exact hmem reg htracked hdef ⟨succ, hsucc, .of_bulkLiveFrom hbulk⟩
    -- as many registers are charged as are saved, so they are the same
    have hle : (MachineFunction.placedRegs MF (MachineFunction.allRegions MF) b).length ≤
        (MF.chargedRegs b).length := by
      rw [MachineFunction.placedRegs, List.length_map]
      exact hbound _
    have hperm := (MachineFunction.nodup_chargedRegs.subperm hsubset).perm_of_length_le hle
    exact ((MachineFunction.mem_chargedRegs hb).mp
      (hperm.mem_iff.mpr (hmem reg htracked hdef hlive))).2.1

/-- The saves in the loop of `accumulate` are charged: the last block shows that it reads R4. -/
theorem accumulate_loop_is_charged : accumulate.ChargeBoundsSaves 1 := by
  refine (charge_bounds_saves (by decide)).1 fun reg _ hdef _ => ?_
  have hreg : 4 = reg := by
    obtain ⟨MI, hMI, hMIdef⟩ := hdef
    have hcases : MI = instrOf [4] [4, 12] ∨ MI = terminatorOf [4] := by
      simpa [accumulate] using hMI
    rcases hcases with rfl | rfl
    · simpa [instrOf, MachineInstr.isDefLike, MachineInstr.isClobberingCall, MachineInstr.hasDef,
        EmittedInstr.gprOperand, MachineOperand.defines, regsOverlap] using hMIdef
    · simp [terminatorOf, MachineInstr.isDefLike, MachineInstr.isClobberingCall,
        MachineInstr.hasDef, EmittedInstr.gprOperand, MachineOperand.defines] at hMIdef
  subst hreg
  refine ⟨2, by decide, 2, .refl, ?_⟩
  exact ⟨[⟨false, false⟩], ⟨true, false⟩, [⟨false, false⟩], rfl, rfl, by decide⟩

/-- **The accumulator is not charged**: the entry saves R4 for the loop, whose first instruction
lists R4 as written before it lists it as read. -/
theorem accumulate_is_not_charged :
    let regions := (RockClimbMachineOptimizer.partitionRegions ⟨accumulate.toMachineCFG,
      accumulate.addDistributedSaveCosts (fun _ => 10) 1, 100⟩).regions
    accumulate.placedSaves regions 0 = [((0, 0), 4)] ∧ accumulate.chargedSaves 0 = 0 ∧
      ¬(accumulate.placedSaves regions 0).length ≤ accumulate.chargedSaves 0 := by
  decide +kernel

end Bao.RockClimb.Backend
