import Bao.RockClimb.Instrumenter

/-!
# The two liveness analyses

`isRegLiveFromBlock` answers whether a register is read, on some path from a block, before an
instruction that only writes it (`isRegLiveFromBlock_iff_readBeforeWritten`). `computeBulkLiveIn`
is to say the same for all blocks and registers at once, but it takes the operands of an instruction
in their listed order, and the operand that a two-address instruction writes is listed before the
one it reads.

So the analyses agree on a function exactly if in every block the first instruction to touch a
register lists a read of it before the writes, in case it reads the register at all
(`liveness_analyses_agree`). The loop of `accumulate` violates that (`accumulate_disagrees`).
-/

namespace Bao.RockClimb.Backend

open Bao.Graph Relation

/-! ### Reads before writes on a path -/

namespace MachineInstr

/-- The instruction writes the register without reading it. -/
def OnlyWrites (MI : MachineInstr) (reg : ℕ) : Prop :=
  MI.hasDef reg = true ∧ MI.hasUse reg = false

/-- The instruction neither reads nor writes the register. -/
def Untouched (MI : MachineInstr) (reg : ℕ) : Prop :=
  MI.hasUse reg = false ∧ MI.hasDef reg = false

/-- The operands list a read of the register that no write precedes. -/
def ListsUseFirst (MI : MachineInstr) (reg : ℕ) : Prop :=
  ∃ front MO back, MI.operands = front ++ MO :: back ∧ MO.uses reg = true ∧
    ∀ MO' ∈ front, MO'.defines reg = false

end MachineInstr

namespace MachineFunction

variable (MF : MachineFunction)

/-- **Some path from the block reads the register before any instruction that only writes it.** -/
def ReadBeforeWritten (reg : ℕ) (b : MachineBasicBlock) : Prop :=
  ∃ p, List.IsChain (fun a c => c ∈ MF.successors a) (b :: p) ∧
    ∃ front MI back, (b :: p).flatMap MF.instrs = front ++ MI :: back ∧ MI.hasUse reg = true ∧
      ∀ MI' ∈ front, ¬MI'.OnlyWrites reg

/-- In every block, the first instruction that touches a register and reads it lists a read
first. -/
def ListsUsesFirst : Prop :=
  ∀ b ∈ MF.blocks, ∀ reg, MF.IsTracked reg → ∀ front MI back, MF.instrs b = front ++ MI :: back →
    (∀ MI' ∈ front, MI'.Untouched reg) → MI.hasUse reg = true → MI.ListsUseFirst reg

end MachineFunction

variable {MF : MachineFunction} {reg : ℕ} {b : MachineBasicBlock}

/-- For what is read first, an instruction that reads and writes counts as a read. -/
private theorem readsFirst_iff_exists {l : List MachineInstr} :
    Dataflow.ReadsFirst (l.map (MachineInstr.access reg)) ↔
      ∃ front MI back, l = front ++ MI :: back ∧ MI.hasUse reg = true ∧
        ∀ MI' ∈ front, ¬MI'.OnlyWrites reg := by
  induction l with
  | nil => simp
  | cons MI l ih =>
    rw [List.map_cons, Dataflow.readsFirst_cons, ih]
    constructor
    · rintro (huse | ⟨hdef, front, MI', back, rfl, huse, hfront⟩)
      · exact ⟨[], MI, l, rfl, huse, List.forall_mem_nil _⟩
      · have hMI : ¬MI.OnlyWrites reg := fun honly =>
          Bool.false_ne_true (hdef.symm.trans honly.1)
        exact ⟨MI :: front, MI', back, rfl, huse, List.forall_mem_cons.mpr ⟨hMI, hfront⟩⟩
    · rintro ⟨_ | ⟨MI', front⟩, MI'', back, heq, huse, hfront⟩
      · obtain ⟨rfl, -⟩ := List.cons.inj heq
        exact .inl huse
      · obtain ⟨rfl, rfl⟩ := List.cons.inj heq
        obtain ⟨hMI, hfront⟩ := List.forall_mem_cons.mp hfront
        by_cases hread : MI.hasUse reg = true
        · exact .inl hread
        · refine .inr ⟨?_, front, MI'', back, rfl, huse, hfront⟩
          exact Bool.eq_false_iff.mpr fun hdef => hMI ⟨hdef, Bool.eq_false_iff.mpr hread⟩

private theorem readsFirst_operands {MI : MachineInstr} :
    Dataflow.ReadsFirst (MI.operands.map (MachineOperand.access reg)) ↔ MI.ListsUseFirst reg := by
  constructor
  · rintro ⟨pre, a, post, heq, huse, hpre⟩
    obtain ⟨front, rest, hops, rfl, hrest⟩ := List.map_eq_append_iff.mp heq
    obtain ⟨MO, back, rfl, rfl, -⟩ := List.map_eq_cons_iff.mp hrest
    exact ⟨front, MO, back, hops, huse, fun MO' hMO' => hpre _ (List.mem_map_of_mem hMO')⟩
  · rintro ⟨front, MO, back, hops, huse, hfront⟩
    refine ⟨front.map (MachineOperand.access reg), MO.access reg,
      back.map (MachineOperand.access reg), by rw [hops, List.map_append, List.map_cons], huse, ?_⟩
    intro a ha
    obtain ⟨MO', hMO', rfl⟩ := List.mem_map.mp ha
    exact hfront MO' hMO'

private theorem any_isMustWrite_instrs {l : List MachineInstr} :
    (l.map (MachineInstr.access reg)).any Dataflow.Access.isMustWrite = false ↔
      ∀ MI ∈ l, MI.hasDef reg = false := by
  simp [MachineInstr.access]

theorem scanBlockForReg_eq_neither {l : List MachineInstr} :
    scanBlockForReg l reg = .neither ↔ ∀ MI ∈ l, MI.Untouched reg := by
  induction l with
  | nil => simp [scanBlockForReg]
  | cons MI l ih =>
    rw [scanBlockForReg, List.forall_mem_cons, ← ih, MachineInstr.Untouched]
    split_ifs with huse hdef
    · simp [huse]
    · simp [huse, hdef]
    · simp [huse, hdef]

/-- **The search follows the paths** on which the register is read before it is only written. -/
theorem isRegLiveFromBlock_iff_readBeforeWritten (hb : b ∈ MF.blocks) :
    isRegLiveFromBlock MF.toMachineCFG MF.instrs reg b = true ↔ MF.ReadBeforeWritten reg b := by
  rw [isRegLiveFromBlock_iff hb]
  have hpath : (∃ c, ReflTransGen (fun a c => c ∈ MF.successors a ∧
        ((MF.instrs a).map (MachineInstr.access reg)).any Dataflow.Access.isMustWrite = false) b c ∧
      Dataflow.ReadsFirst ((MF.instrs c).map (MachineInstr.access reg))) ↔
      ∃ p, List.IsChain (fun a c => c ∈ MF.successors a) (b :: p) ∧
        Dataflow.ReadsFirst ((b :: p).flatMap fun a =>
          (MF.instrs a).map (MachineInstr.access reg)) :=
    Dataflow.exists_readsFirst_iff_path
  simp only [← List.map_flatMap, readsFirst_iff_exists] at hpath
  rw [MachineFunction.ReadBeforeWritten, ← hpath]
  clear hpath hb
  constructor
  · rintro ⟨c, hsteps, hscan⟩
    refine ⟨c, ReflTransGen.mono (fun a d hd => ?_) b c hsteps,
      readsFirst_iff_exists.mp (scanBlockForReg_eq_usedFirst.mp hscan)⟩
    rw [passesTo] at hd
    split_ifs at hd with hneither
    · exact ⟨hd, any_isMustWrite_instrs.mpr fun MI hMI =>
        (scanBlockForReg_eq_neither.mp hneither MI hMI).2⟩
    · exact absurd hd List.not_mem_nil
  · rintro ⟨c, hsteps, hread⟩
    induction hsteps using ReflTransGen.head_induction_on with
    | refl => exact ⟨c, .refl, scanBlockForReg_eq_usedFirst.mpr (readsFirst_iff_exists.mpr hread)⟩
    | head hstep _ ih => exact .of_succ (any_isMustWrite_instrs.mp hstep.2) hstep.1 ih

/-! ### The order of the operands -/

/-- An instruction that reads the register and does not write it lists a read first. -/
private theorem listsUseFirst_of_not_hasDef {MI : MachineInstr} (huse : MI.hasUse reg = true)
    (hdef : MI.hasDef reg = false) : MI.ListsUseFirst reg := by
  obtain ⟨MO, hMO, huse⟩ := List.any_eq_true.mp huse
  obtain ⟨front, back, hops⟩ := List.append_of_mem hMO
  refine ⟨front, MO, back, hops, huse, fun MO' hMO' => ?_⟩
  rw [MachineInstr.hasDef, List.any_eq_false] at hdef
  exact Bool.eq_false_iff.mpr (hdef MO' (hops ▸ List.mem_append_left _ hMO'))

/-- The operands of instructions that do not touch the register are skipped. -/
private theorem readsFirst_operands_cons {front : List MachineInstr} {MI : MachineInstr}
    {back : List MachineInstr} (hfront : ∀ MI' ∈ front, MI'.Untouched reg)
    (huse : MI.hasUse reg = true) :
    Dataflow.ReadsFirst (((front ++ MI :: back).flatMap MachineInstr.operands).map
      (MachineOperand.access reg)) ↔ MI.ListsUseFirst reg := by
  induction front with
  | nil =>
    rw [List.nil_append, List.flatMap_cons, List.map_append, Dataflow.readsFirst_append,
      readsFirst_operands, or_iff_left_of_imp]
    rintro ⟨hdef, -⟩
    rw [List.any_map] at hdef
    exact listsUseFirst_of_not_hasDef huse hdef
  | cons MI' front ih =>
    obtain ⟨hMI', hfront⟩ := List.forall_mem_cons.mp hfront
    rw [List.cons_append, List.flatMap_cons, List.map_append, Dataflow.readsFirst_append, ih hfront,
      readsFirst_operands, List.any_map]
    constructor
    · rintro (⟨pre, MO, post, hops, hread, -⟩ | ⟨-, h⟩)
      · have hany : MI'.hasUse reg = true := List.any_eq_true.mpr
          ⟨MO, hops ▸ List.mem_append_right _ List.mem_cons_self, hread⟩
        exact absurd (hMI'.1.symm.trans hany) Bool.false_ne_true
      · exact h
    · exact fun h => .inr ⟨hMI'.2, h⟩

/-- The first instruction of a block to touch a register that the block reads first. -/
private theorem exists_firstTouch {l : List MachineInstr}
    (h : scanBlockForReg l reg = .usedFirst) :
    ∃ front MI back, l = front ++ MI :: back ∧ (∀ MI' ∈ front, MI'.Untouched reg) ∧
      MI.hasUse reg = true := by
  induction l with
  | nil => exact absurd h (by simp [scanBlockForReg])
  | cons MI l ih =>
    rw [scanBlockForReg] at h
    split_ifs at h with huse hdef
    · exact ⟨[], MI, l, rfl, List.forall_mem_nil _, huse⟩
    · obtain ⟨front, MI', back, rfl, hfront, huse'⟩ := ih h
      exact ⟨MI :: front, MI', back, rfl, List.forall_mem_cons.mpr
        ⟨⟨Bool.eq_false_iff.mpr huse, Bool.eq_false_iff.mpr hdef⟩, hfront⟩, huse'⟩

private theorem scanBlockForReg_of_firstTouch {front : List MachineInstr} {MI : MachineInstr}
    {back : List MachineInstr} (hfront : ∀ MI' ∈ front, MI'.Untouched reg)
    (huse : MI.hasUse reg = true) : scanBlockForReg (front ++ MI :: back) reg = .usedFirst := by
  induction front with
  | nil => rw [List.nil_append, scanBlockForReg, if_pos huse]
  | cons MI' front ih =>
    obtain ⟨hMI', hfront⟩ := List.forall_mem_cons.mp hfront
    rw [List.cons_append, scanBlockForReg, hMI'.1, hMI'.2, if_neg Bool.false_ne_true,
      if_neg Bool.false_ne_true, ih hfront]

/-- **The operand order is enough.** -/
private theorem bulkLiveFrom_of_liveFrom (hlists : MF.ListsUsesFirst) (htracked : MF.IsTracked reg)
    (hb : b ∈ MF.blocks) (h : LiveFrom MF.toMachineCFG MF.instrs reg b) :
    MF.BulkLiveFrom reg b := by
  obtain ⟨c, hsteps, hscan⟩ := h
  induction hsteps using ReflTransGen.head_induction_on with
  | refl =>
    obtain ⟨front, MI, back, hinstrs, hfront, huse⟩ := exists_firstTouch hscan
    refine ⟨c, .refl, ?_⟩
    rw [MachineFunction.operands, hinstrs, readsFirst_operands_cons hfront huse]
    exact hlists c hb reg htracked front MI back hinstrs hfront huse
  | @head a d hstep _ ih =>
    rw [passesTo] at hstep
    split_ifs at hstep with hneither
    · obtain ⟨e, hpath, hreads⟩ := ih (MF.successors_mem a hb d hstep)
      have hdef : ∀ MI ∈ MF.instrs a, MI.hasDef reg = false := fun MI hMI =>
        (scanBlockForReg_eq_neither.mp hneither MI hMI).2
      exact ⟨e, .head ⟨hdef, hstep⟩ hpath, hreads⟩
    · exact absurd hstep List.not_mem_nil

/-- **The analyses agree on a function exactly if it lists reads first.** -/
theorem liveness_analyses_agree (MF : MachineFunction) :
    (∀ b ∈ MF.blocks, ∀ reg, MF.IsTracked reg →
      (reg ∈ MF.computeBulkLiveIn b ↔
        isRegLiveFromBlock MF.toMachineCFG MF.instrs reg b = true) ∧
      (reg ∈ MF.computeBulkLiveIn b ↔ MF.ReadBeforeWritten reg b) ∧
      (isRegLiveFromBlock MF.toMachineCFG MF.instrs reg b = true ↔
        MF.ReadBeforeWritten reg b)) ↔ MF.ListsUsesFirst := by
  constructor
  · intro hagree b hb reg htracked front MI back hinstrs hfront huse
    -- the search stops in the block itself, so the bulk analysis must find the read there
    have hlive : isRegLiveFromBlock MF.toMachineCFG MF.instrs reg b = true :=
      (isRegLiveFromBlock_iff hb).mpr
        ⟨b, .refl, hinstrs ▸ scanBlockForReg_of_firstTouch hfront huse⟩
    obtain ⟨-, c, hsteps, hreads⟩ :=
      (MachineFunction.mem_computeBulkLiveIn hb).mp ((hagree b hb reg htracked).1.mpr hlive)
    cases hsteps using ReflTransGen.head_induction_on with
    | refl =>
      rw [MachineFunction.operands, hinstrs] at hreads
      exact (readsFirst_operands_cons hfront huse).mp hreads
    | head hstep _ =>
      exact listsUseFirst_of_not_hasDef huse
        (hstep.1 MI (hinstrs ▸ List.mem_append_right _ List.mem_cons_self))
  · intro hlists b hb reg htracked
    have hsearch : isRegLiveFromBlock MF.toMachineCFG MF.instrs reg b = true ↔
        MF.ReadBeforeWritten reg b := isRegLiveFromBlock_iff_readBeforeWritten hb
    have hbulk : reg ∈ MF.computeBulkLiveIn b ↔
        isRegLiveFromBlock MF.toMachineCFG MF.instrs reg b = true := by
      rw [MachineFunction.mem_computeBulkLiveIn hb, isRegLiveFromBlock_iff hb,
        and_iff_right htracked]
      exact ⟨.of_bulkLiveFrom, bulkLiveFrom_of_liveFrom hlists htracked hb⟩
    exact ⟨hbulk, hbulk.trans hsearch, hsearch⟩

/-- **The accumulator of the loop is missed**: its addition reads R4, which the search sees, but
lists the write first. -/
theorem accumulate_disagrees :
    1 ∈ accumulate.blocks ∧ accumulate.IsTracked 4 ∧
      isRegLiveFromBlock accumulate.toMachineCFG accumulate.instrs 4 1 = true ∧
      4 ∉ accumulate.computeBulkLiveIn 1 := by
  exact ⟨by decide, ⟨by decide, rfl⟩, by decide +kernel, by decide +kernel⟩

end Bao.RockClimb.Backend
