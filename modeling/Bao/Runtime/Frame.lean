import Bao.Runtime.System

/-!
# What the routines leave alone

Most instructions of the routines are housekeeping: they save and restore general registers, count
and wait. This file says once what they keep. `SameControl` is agreement on the control words of
`.nvm` and on the ghost log, `SameTop` adds the stack pointer and the word on top of the stack. The
rules `wp_quiet`, `wp_counted` and `wp_wait` step over quiet instructions, over a counted block
between `push SR` and `pop SR`, and over a call of `wait_until_vcc_full`.
-/

namespace Bao.Runtime

open Machine (Code Semantics Point CodeStep CodeRun)

/-- The words that steer the boot code and the result record: all but counters and registers. -/
def Nvm.control : Nvm → Bool
  | .cntRecovery _ => false
  | .cntBoundary _ => false
  | .cntSaveReg _ => false
  | .cntRestoreReg _ => false
  | .regs _ => false
  | _ => true

/-- Agreement on the control words and the log. -/
structure SameControl (s t : State) : Prop where
  nvm : ∀ x : Nvm, x.control = true → t.nvm x = s.nvm x
  log : t.log = s.log

/-- Agreement on the control words, the log, the stack pointer and the memory. -/
structure SameStack (s t : State) : Prop extends SameControl s t where
  sp : t.reg SP = s.reg SP
  mem : t.mem = s.mem

/-- Agreement on the control words, the log, the stack pointer and the top of the stack. -/
structure SameTop (s t : State) : Prop extends SameControl s t where
  sp : t.reg SP = s.reg SP
  top : t.top = s.top

theorem SameControl.refl (s : State) : SameControl s s := ⟨fun _ _ => rfl, rfl⟩

theorem SameControl.trans {s t u : State} (h : SameControl s t) (h' : SameControl t u) :
    SameControl s u :=
  ⟨fun x hx => (h'.nvm x hx).trans (h.nvm x hx), h'.log.trans h.log⟩

theorem SameStack.refl (s : State) : SameStack s s := ⟨.refl s, rfl, rfl⟩

theorem SameStack.trans {s t u : State} (h : SameStack s t) (h' : SameStack t u) :
    SameStack s u :=
  ⟨h.toSameControl.trans h'.toSameControl, h'.sp.trans h.sp, h'.mem.trans h.mem⟩

theorem SameStack.sameTop {s t : State} (h : SameStack s t) : SameTop s t :=
  ⟨h.toSameControl, h.sp, by rw [State.top, State.top, h.sp, h.mem]⟩

theorem SameTop.trans {s t u : State} (h : SameTop s t) (h' : SameTop t u) : SameTop s u :=
  ⟨h.toSameControl.trans h'.toSameControl, h'.sp.trans h.sp, h'.top.trans h.top⟩

/-- Instructions that touch neither control words nor the stack. -/
def Instr.quiet : Instr → Bool
  | .store _ dst => !dst.control
  | .load _ r => decide (r ≠ SP)
  | .add _ dst => !dst.control
  | .addc dst => !dst.control
  | .clr r => decide (r ≠ SP)
  | .hwInit => true
  | _ => false

/-- Quiet instructions that stand for no event. -/
def Op.quiet (o : Op) : Bool := o.instr.quiet && o.event.isNone

/-- Writing a word that is not a control word. -/
private theorem sameStack_setNvm (s : State) {x : Nvm} (hx : x.control = false) (w : Word)
    (carry : Bool) : SameStack s { s.setNvm x w with carry := carry } := by
  refine ⟨⟨fun y hy => ?_, rfl⟩, rfl, rfl⟩
  have hne : y ≠ x := by
    rintro rfl
    rw [hx] at hy
    exact Bool.false_ne_true hy
  exact Function.update_of_ne hne w s.nvm

private theorem sameStack_setReg (s : State) {r : Reg} (hr : r ≠ SP) (w : Word) :
    SameStack s (s.setReg r w) := by
  refine ⟨⟨fun _ _ => rfl, rfl⟩, ?_, rfl⟩
  rw [State.setReg_reg, Function.update_of_ne hr.symm]

/-- **A quiet instruction** keeps the control words and the stack. -/
theorem Op.quiet.sameStack {o : Op} (h : o.quiet = true) (s : State) :
    SameStack s (o.exec s) := by
  obtain ⟨instr, event⟩ := o
  cases event with
  | some e => simp [Op.quiet] at h
  | none =>
    cases instr with
    | store r dst =>
      exact sameStack_setNvm s (by simpa [Op.quiet, Instr.quiet] using h) _ s.carry
    | load src r => exact sameStack_setReg s (by simpa [Op.quiet, Instr.quiet] using h) _
    | add k dst => exact sameStack_setNvm s (by simpa [Op.quiet, Instr.quiet] using h) _ _
    | addc dst => exact sameStack_setNvm s (by simpa [Op.quiet, Instr.quiet] using h) _ _
    | clr r => exact sameStack_setReg s (by simpa [Op.quiet, Instr.quiet] using h) _
    | hwInit => exact .refl s
    | movImm k dst => simp [Op.quiet, Instr.quiet] at h
    | movTop dst => simp [Op.quiet, Instr.quiet] at h
    | push r => simp [Op.quiet, Instr.quiet] at h
    | pop r => simp [Op.quiet, Instr.quiet] at h
    | poisonSram => simp [Op.quiet, Instr.quiet] at h

section Rules

variable {B : Build} {C : State → Prop} {A : Label → State → Prop} {Q : Exit → State → Prop}
  {k : Routine} {s : State}

/-- Step over quiet instructions. -/
theorem wp_quiet {ops : List Op} (hops : ∀ o ∈ ops, o.quiet = true)
    (hC : ∀ t, SameControl s t → C t) (hk : ∀ t, SameStack s t → k.wp B.sem C A Q t) :
    (Code.seqs ops k).wp B.sem C A Q s := by
  refine Code.wp_seqs (I := SameStack s) (fun t ht => hC t ht.toSameControl) ?_ hk (.refl s)
  intro o ho t ht
  exact ht.trans (Op.quiet.sameStack (hops o ho) t)

/-- A word address and the one below it differ. -/
theorem sub_two_ne (a : Word) : a - 2 ≠ a := by
  simp

/-- A register that is pushed and popped again leaves the top of the stack alone. -/
theorem sameTop_of_push_pop {r : Reg} (hr : r ≠ SP) {u : State}
    (hu : SameStack (s.pushWord (s.reg r)) u) : SameTop s ((Instr.pop r).op.exec u) := by
  have hsp : ((Instr.pop r).op.exec u).reg SP = s.reg SP := by
    change Function.update (Function.update u.reg SP (u.reg SP + 2)) r u.top SP = s.reg SP
    rw [Function.update_of_ne hr.symm, Function.update_self, hu.sp]
    simp
  refine ⟨⟨fun x hx => hu.nvm x hx, hu.log⟩, hsp, ?_⟩
  have hmem : ((Instr.pop r).op.exec u).mem = u.mem := rfl
  rw [State.top, hsp, hmem, hu.mem, State.pushWord_mem,
    Function.update_of_ne (sub_two_ne _).symm, State.top]

/-- Step over quiet instructions between `push SR` and `pop SR`. -/
theorem wp_counted {ops : List Op} (hops : ∀ o ∈ ops, o.quiet = true)
    (hC : ∀ t, SameControl s t → C t) (hk : ∀ t, SameTop s t → k.wp B.sem C A Q t) :
    (Code.seqs ((Instr.push SR).op :: ops ++ [(Instr.pop SR).op]) k).wp B.sem C A Q s := by
  have hpush : SameControl s (s.pushWord (s.reg SR)) := ⟨fun _ _ => rfl, rfl⟩
  rw [List.cons_append]
  refine ⟨hC s (.refl s), ?_⟩
  change (Code.seqs (ops ++ [(Instr.pop SR).op]) k).wp B.sem C A Q (s.pushWord (s.reg SR))
  rw [Code.seqs_append]
  refine wp_quiet hops (fun t ht => hC t (hpush.trans ht)) fun t ht => ?_
  exact ⟨hC t (hpush.trans ht.toSameControl), hk _ (sameTop_of_push_pop (by decide) ht)⟩

/-- Pushing and popping registers keeps the control words. -/
theorem wp_pushPop {ops : List Op}
    (hops : ∀ o ∈ ops, ∃ r, o = (Instr.push r).op ∨ o = (Instr.pop r).op)
    (hC : ∀ t, SameControl s t → C t) (hk : ∀ t, SameControl s t → k.wp B.sem C A Q t) :
    (Code.seqs ops k).wp B.sem C A Q s := by
  refine Code.wp_seqs (I := SameControl s) hC ?_ hk (.refl s)
  intro o ho t ht
  obtain ⟨r, rfl | rfl⟩ := hops o ho
  · exact ht.trans ⟨fun _ _ => rfl, rfl⟩
  · exact ht.trans ⟨fun _ _ => rfl, rfl⟩

/-- Step over a call of `wait_until_vcc_full`. -/
theorem wp_wait (hC : ∀ t, SameControl s t → C t)
    (hk : ∀ t, SameControl s t → t.reg SP = s.reg SP → k.wp B.sem C A Q t) :
    (Code.call k).wp B.sem C A Q s := by
  refine Code.wp_call (I := fun t => SameControl s t ∧ t.reg SP = s.reg SP - 2)
    (fun t ht => hC t ht.1) ?_ ?_ (hC s (.refl s)) ⟨⟨fun _ _ => rfl, rfl⟩, ?_⟩
  · rintro t u ⟨ht, hsp⟩ hwait
    refine ⟨ht.trans ⟨fun x _ => by rw [hwait.nvm], hwait.log⟩, ?_⟩
    rw [hwait.reg SP (by decide) (by decide), hsp]
  · rintro t u ⟨ht, hsp⟩ rfl
    refine hk _ (ht.trans ⟨fun _ _ => rfl, rfl⟩) ?_
    change Function.update t.reg SP (t.reg SP + 2) SP = s.reg SP
    rw [Function.update_self, hsp]
    simp
  · exact Function.update_self SP _ s.reg

/-- **The boundary's prologue** keeps the control words and the return address on top of the
stack. -/
theorem wp_boundaryPrologue (hC : ∀ t, SameControl s t → C t)
    (hk : ∀ t, SameTop s t → k.wp B.sem C A Q t) :
    (Code.seqs (boundaryPrologue B) k).wp B.sem C A Q s := by
  rw [boundaryPrologue, Code.seqs_append]
  have hregs : ∀ o ∈ saveRegs B, o.quiet = true := by
    rw [saveRegs]
    cases B.variant <;> decide
  have hcount : ∀ o ∈ boundaryCounters B, o.quiet = true := by
    rw [boundaryCounters]
    cases B.variant <;> decide
  refine wp_quiet hregs hC fun t ht => ?_
  have hC' : ∀ u, SameControl t u → C u := fun u hu => hC u (ht.toSameControl.trans hu)
  split_ifs
  · exact wp_counted hcount hC' fun u hu => hk u (ht.sameTop.trans hu)
  · exact hk t ht.sameTop

/-- **The restore of the registers** keeps the control words and the saved PC on top of the
stack. -/
theorem wp_restoreRegs (hC : ∀ t, SameControl s t → C t)
    (hk : ∀ t, SameTop s t → k.wp B.sem C A Q t) : (restoreRegs B k).wp B.sem C A Q s := by
  have hregs : ∀ o ∈ regSlots.map fun p => (Instr.load (.regs p.1) p.2).op, o.quiet = true := by
    decide
  have hcount : ∀ o ∈ addU32ToNvmCounter .cntRestoreReg 14, o.quiet = true := by decide
  rw [restoreRegs]
  split
  · exact hk s (SameStack.refl s).sameTop
  · exact wp_quiet hregs hC fun t ht => hk t ht.sameTop
  · refine wp_quiet hregs hC fun t ht => ?_
    split_ifs
    · exact wp_counted hcount (fun u hu => hC u (ht.toSameControl.trans hu))
        fun u hu => hk u (ht.sameTop.trans hu)
    · exact hk t ht.sameTop

end Rules

end Bao.Runtime
