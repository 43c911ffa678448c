import Bao.Runtime.Violation

/-!
# What a recovery does to the suspended program

RockClimb and SCHEMATIC keep the stack in FRAM, so the frames of a suspended program survive a
power failure. The recovery path calls `wait_until_vcc_full` before it reloads `SP`: the call pushes
onto the stack the CRT has set up, at `__stack`, where the oldest frames of the suspended program
live. `wp_boot_memory` follows the memory through a boot in wait mode; `recovery_intact_iff` says
that the recoveries of a boundary leave the suspended program intact exactly if it has no live
stack cell, that is, if its stack pointer is `__stack` itself.
-/

namespace Bao.Runtime

open Machine (Code Point CodeStep CodeRun)

/-- The power failed after a boundary with stack pointer `S` was committed: the state in which the
boot entry starts. -/
structure AfterFailure (B : Build) (S : Word) (s : State) : Prop where
  flag : s.nvm .inRegion = 0
  done : s.nvm .done ≠ 1
  pc : s.nvm .pc ≠ 0
  sp : s.nvm .sp = S
  spReg : s.reg SP = B.variant.stackTop

/-- A FRAM cell of the suspended program: below the stack area, which starts at `L`, or at or above
the saved stack pointer. -/
def Live (L : ℕ) (S a : Word) : Prop := inSram a = false ∧ (a.toNat < L ∨ S.toNat ≤ a.toNat)

/-- The stack area reaches from `L` to `__stack`. It holds the saved stack pointer, which is even,
the words that a resume pushes below it, and the frame of `wait_until_vcc_full`. -/
structure Layout (B : Build) (L : ℕ) (S : Word) : Prop where
  frame : L + 2 + B.waitDepth ≤ B.variant.stackTop.toNat
  room : L + 4 ≤ S.toNat
  le : S.toNat ≤ B.variant.stackTop.toNat
  even : S.toNat % 2 = 0

/-- A step of the device that stays in the boot code, power failures included. -/
def BootStep (B : Build) (c c' : Config) : Prop := Step B c c' ∧ ∃ p, c'.ctl = .code .boot p

/-- A recovery that started in state `s` is about to resume, in state `t`, with the machine state of
the boundary: its return address, its stack pointer, its registers and its memory. -/
structure Intact (L : ℕ) (S : Word) (s t : State) : Prop where
  mem : ∀ a, Live L S a → t.mem a = s.mem a
  top : t.top = s.nvm .pc
  sp : t.reg SP + 2 = S
  regs : ∀ p ∈ regSlots, t.reg p.2 = s.nvm (.regs p.1)

/-- Every recovery of a boundary with stack pointer `S`, cut by any number of power failures, leaves
the suspended program intact. -/
def RecoveryIntact (B : Build) (L : ℕ) (S : Word) : Prop :=
  ∀ s, AfterFailure B S s → ∀ t, Relation.ReflTransGen (BootStep B)
    ⟨.before .boot (boot B), s⟩ ⟨.before .boot (.exit .ret), t⟩ → Intact L S s t

/-! ### Memory through a boot -/

/-- The words of the boundary's checkpoint. -/
structure Kept (s t : State) : Prop where
  pc : t.nvm .pc = s.nvm .pc
  sp : t.nvm .sp = s.nvm .sp
  done : t.nvm .done = s.nvm .done
  regs : ∀ i, t.nvm (.regs i) = s.nvm (.regs i)

theorem regSlots_nodup : (regSlots.map Prod.snd).Nodup := by decide +kernel

theorem regSlots_ne : ∀ p ∈ regSlots, p.2 ≠ SP ∧ p.2 ≠ SR := by decide +kernel

section Memory

variable {B : Build} {C : State → Prop} {A : Label → State → Prop} {Q : Exit → State → Prop}
  {k : Routine} {s₀ s : State}

/-- Loading registers from `.nvm` changes nothing else. -/
theorem wp_loadRegs {slots : List (Fin 12 × Reg)} (hnodup : (slots.map Prod.snd).Nodup)
    (hsp : ∀ p ∈ slots, p.2 ≠ SP)
    (hC : ∀ t : State, t.nvm = s.nvm → t.mem = s.mem → C t)
    (hk : ∀ t : State, t.nvm = s.nvm → t.mem = s.mem → t.reg SP = s.reg SP →
      (∀ p ∈ slots, t.reg p.2 = s.nvm (.regs p.1)) →
      (∀ r, r ∉ slots.map Prod.snd → t.reg r = s.reg r) → k.wp B.sem C A Q t) :
    (Code.seqs (slots.map fun p => (Instr.load (.regs p.1) p.2).op) k).wp B.sem C A Q s := by
  induction slots generalizing s with
  | nil => exact hk s rfl rfl rfl (by simp) fun _ _ => rfl
  | cons p slots ih =>
    obtain ⟨hnot, hnodup'⟩ := List.nodup_cons.mp hnodup
    refine ⟨hC s rfl rfl, ih hnodup' (fun q hq => hsp q (List.mem_cons_of_mem p hq)) hC ?_⟩
    intro t hnvm hmem hspt hregs hrest
    have hne : SP ≠ p.2 := (hsp p List.mem_cons_self).symm
    refine hk t hnvm hmem ?_ ?_ fun r hr => ?_
    · rw [hspt]
      exact Function.update_of_ne hne _ s.reg
    · intro q hq
      rcases List.mem_cons.mp hq with rfl | hq
      · rw [hrest q.2 hnot]
        exact Function.update_self q.2 _ s.reg
      · exact hregs q hq
    · have hne' : r ≠ p.2 := fun h => hr (by simp [h])
      rw [hrest r fun hmem' => hr (List.mem_cons_of_mem _ hmem')]
      exact Function.update_of_ne hne' _ s.reg

/-- How the boot code changes memory: by the call of `wait_until_vcc_full` and its frame, and by
what it pushes below the saved stack pointer. `M₀` holds before the call, `M₁` from then on. -/
structure MemoryRules (B : Build) (S : Word) (M₀ M₁ : (Word → Word) → Prop) : Prop where
  call : ∀ m, M₀ m → M₁ (Function.update m (B.variant.stackTop - 2) B.waitReturn)
  wait : ∀ m m' : Word → Word, M₁ m →
    (∀ a, ¬(0 < (B.variant.stackTop - 2 - a).toNat ∧
      (B.variant.stackTop - 2 - a).toNat ≤ B.waitDepth) → m' a = m a) → M₁ m'
  push : ∀ m w, M₁ m → M₁ (Function.update m (S - 2) w)
  pushSr : ∀ m w, M₁ m → M₁ (Function.update m (S - 2 - 2) w)

variable {S : Word} {M₀ M₁ : (Word → Word) → Prop}

/-- The last instructions of a recovery. -/
private theorem wp_mark_memory (hkept : Kept s₀ s) (hmem : M₁ s.mem)
    (htop : s.top = s₀.nvm .pc) (hsp : s.reg SP = S - 2)
    (hregs : ∀ p ∈ regSlots, s.reg p.2 = s₀.nvm (.regs p.1))
    (hC : ∀ t, Kept s₀ t → M₁ t.mem → C t)
    (hret : ∀ t, Kept s₀ t → M₁ t.mem → t.top = s₀.nvm .pc → t.reg SP = S - 2 →
      (∀ p ∈ regSlots, t.reg p.2 = s₀.nvm (.regs p.1)) → Q .ret t) :
    (markInRegion (.exit .ret)).wp B.sem C A Q s := by
  have hkept' : Kept s₀ ((Instr.movImm 1 .inRegion).op.exec s) := by
    refine ⟨?_, ?_, ?_, fun i => ?_⟩
    · simpa [Op.exec, Instr.op, Instr.exec] using hkept.pc
    · simpa [Op.exec, Instr.op, Instr.exec] using hkept.sp
    · simpa [Op.exec, Instr.op, Instr.exec] using hkept.done
    · simpa [Op.exec, Instr.op, Instr.exec] using hkept.regs i
  exact ⟨hC s hkept hmem, hC _ hkept' hmem, hret _ hkept' hmem htop hsp hregs⟩

/-- The counters of SCHEMATIC's debug build, between `push SR` and `pop SR`. -/
private theorem wp_debug_memory (hM : MemoryRules B S M₀ M₁) (hkept : Kept s₀ s)
    (hmem : M₁ s.mem) (htop : s.top = s₀.nvm .pc) (hsp : s.reg SP = S - 2)
    (hregs : ∀ p ∈ regSlots, s.reg p.2 = s₀.nvm (.regs p.1))
    (hC : ∀ t, Kept s₀ t → M₁ t.mem → C t)
    (hk : ∀ t : State, Kept s₀ t → M₁ t.mem → t.top = s₀.nvm .pc → t.reg SP = S - 2 →
      (∀ p ∈ regSlots, t.reg p.2 = s₀.nvm (.regs p.1)) → k.wp B.sem C A Q t) :
    (Code.seqs ((Instr.push SR).op :: addU32ToNvmCounter .cntRestoreReg 14 ++
      [(Instr.pop SR).op]) k).wp B.sem C A Q s := by
  have hpushed : M₁ (Function.update s.mem (S - 2 - 2) (s.reg SR)) := hM.pushSr _ _ hmem
  rw [← hsp] at hpushed
  let t := (Instr.addc (.cntRestoreReg true)).op.exec
    ((Instr.add 14 (.cntRestoreReg false)).op.exec ((Instr.push SR).op.exec s))
  have hkept₁ : Kept s₀ ((Instr.add 14 (.cntRestoreReg false)).op.exec
      ((Instr.push SR).op.exec s)) := by
    refine ⟨?_, ?_, ?_, fun i => ?_⟩
    · simpa [Op.exec, Instr.op, Instr.exec] using hkept.pc
    · simpa [Op.exec, Instr.op, Instr.exec] using hkept.sp
    · simpa [Op.exec, Instr.op, Instr.exec] using hkept.done
    · simpa [Op.exec, Instr.op, Instr.exec] using hkept.regs i
  have hkept₂ : Kept s₀ t := by
    refine ⟨?_, ?_, ?_, fun i => ?_⟩
    · simpa [t, Op.exec, Instr.op, Instr.exec] using hkept.pc
    · simpa [t, Op.exec, Instr.op, Instr.exec] using hkept.sp
    · simpa [t, Op.exec, Instr.op, Instr.exec] using hkept.done
    · simpa [t, Op.exec, Instr.op, Instr.exec] using hkept.regs i
  have hspt : ((Instr.pop SR).op.exec t).reg SP = S - 2 := by
    have hne : SP ≠ SR := by decide
    simp [t, Op.exec, Instr.op, Instr.exec, Function.update_of_ne hne, hsp]
  refine ⟨hC s hkept hmem, hC _ ⟨hkept.pc, hkept.sp, hkept.done, hkept.regs⟩ hpushed,
    hC _ hkept₁ hpushed, hC t hkept₂ hpushed, ?_⟩
  refine hk ((Instr.pop SR).op.exec t) ⟨hkept₂.pc, hkept₂.sp, hkept₂.done, hkept₂.regs⟩ hpushed
    ?_ hspt fun p hp => ?_
  · rw [State.top, hspt, ← hsp, ← htop]
    exact Function.update_of_ne (sub_two_ne _).symm _ s.mem
  · rw [← hregs p hp]
    simp [t, Op.exec, Instr.op, Instr.exec, Function.update_of_ne (regSlots_ne p hp).2]

/-- Restoring the registers keeps the checkpoint and the memory rules. -/
theorem wp_restoreRegs_memory (hB : B.variant ≠ .milp) (hM : MemoryRules B S M₀ M₁)
    (hkept : Kept s₀ s) (hmem : M₁ s.mem) (htop : s.top = s₀.nvm .pc) (hsp : s.reg SP = S - 2)
    (hC : ∀ t, Kept s₀ t → M₁ t.mem → C t)
    (hret : ∀ t, Kept s₀ t → M₁ t.mem → t.top = s₀.nvm .pc → t.reg SP = S - 2 →
      (∀ p ∈ regSlots, t.reg p.2 = s₀.nvm (.regs p.1)) → Q .ret t) :
    (restoreRegs B (markInRegion (.exit .ret))).wp B.sem C A Q s := by
  have hk : ∀ t : State, t.nvm = s.nvm → Kept s₀ t := by
    intro t ht
    exact ⟨by rw [ht, hkept.pc], by rw [ht, hkept.sp], by rw [ht, hkept.done],
      fun i => by rw [ht, hkept.regs]⟩
  have hload : ∀ {k : Routine}, (∀ t : State, Kept s₀ t → M₁ t.mem → t.top = s₀.nvm .pc →
      t.reg SP = S - 2 → (∀ p ∈ regSlots, t.reg p.2 = s₀.nvm (.regs p.1)) →
      k.wp B.sem C A Q t) →
      (Code.seqs (regSlots.map fun p => (Instr.load (.regs p.1) p.2).op) k).wp B.sem C A Q s := by
    intro k hk'
    refine wp_loadRegs regSlots_nodup (fun p hp => (regSlots_ne p hp).1)
      (fun t hn hm => hC t (hk t hn) (hm ▸ hmem)) ?_
    intro t hnvm hmem' hspt hregs _
    refine hk' t (hk t hnvm) (hmem' ▸ hmem) ?_ (hspt.trans hsp) fun p hp => ?_
    · rw [State.top, hspt, hmem']
      exact htop
    · rw [hregs p hp, hkept.regs]
  have hmark : ∀ t : State, Kept s₀ t → M₁ t.mem → t.top = s₀.nvm .pc → t.reg SP = S - 2 →
      (∀ p ∈ regSlots, t.reg p.2 = s₀.nvm (.regs p.1)) →
      (markInRegion (.exit .ret)).wp B.sem C A Q t :=
    fun t h₁ h₂ h₃ h₄ h₅ => wp_mark_memory h₁ h₂ h₃ h₄ h₅ hC hret
  rw [restoreRegs]
  split
  · exact absurd (by assumption) hB
  · exact hload hmark
  · refine hload fun t hkt hmt htopt hspt hregst => ?_
    split_ifs
    · exact wp_debug_memory hM hkt hmt htopt hspt hregst hC hmark
    · exact hmark t hkt hmt htopt hspt hregst

/-- From the reloaded PC to the resume. -/
theorem wp_restoreAndResume_memory (hB : B.variant ≠ .milp) (hwait : B.haltMode = .wait)
    (hM : MemoryRules B S M₀ M₁) (hS : s₀.nvm .sp = S) (hkept : Kept s₀ s) (hmem : M₁ s.mem)
    (hR14 : s.reg 14 = s₀.nvm .pc) (hC : ∀ t, Kept s₀ t → M₁ t.mem → C t)
    (hret : ∀ t, Kept s₀ t → M₁ t.mem → t.top = s₀.nvm .pc → t.reg SP = S - 2 →
      (∀ p ∈ regSlots, t.reg p.2 = s₀.nvm (.regs p.1)) → Q .ret t) :
    (restoreAndResume B).wp B.sem C A Q s := by
  have hne : (14 : Reg) ≠ SP := by decide
  let t := (Instr.push 14).op.exec ((Instr.load .sp SP).op.exec s)
  have hsp : t.reg SP = S - 2 := by simp [t, Op.exec, Instr.op, Instr.exec, hkept.sp, hS]
  have htop : t.top = s₀.nvm .pc := by
    simp [t, Op.exec, Instr.op, Instr.exec, State.top, Function.update_of_ne hne, hR14]
  have hmem' : M₁ t.mem := by
    have hpush := hM.push s.mem (s₀.nvm .pc) hmem
    simpa [t, Op.exec, Instr.op, Instr.exec, Function.update_of_ne hne, hR14, hkept.sp, hS]
      using hpush
  have hkept' : Kept s₀ t := ⟨hkept.pc, hkept.sp, hkept.done, hkept.regs⟩
  refine ⟨hC s hkept hmem, hC _ ⟨hkept.pc, hkept.sp, hkept.done, hkept.regs⟩ hmem, ?_⟩
  change (poisonBorGprs B (restoreRegs B (markInRegion (.exit .ret)))).wp B.sem C A Q t
  rw [poisonBorGprs, hwait]
  exact wp_restoreRegs_memory hB hM hkept' hmem' htop hsp hC hret

/-- **Memory through a boot.** In wait mode with the stack in FRAM, a boot that starts at `__stack`
keeps the checkpoint, changes memory by the rules only, and ends blinking or about to resume. -/
theorem wp_boot_memory (hB : B.variant ≠ .milp) (hwait : B.haltMode = .wait)
    (hM : MemoryRules B S M₀ M₁) (hS : s₀.nvm .sp = S) (hpc : s₀.nvm .pc ≠ 0)
    (hdone : s₀.nvm .done ≠ 1) (hkept : Kept s₀ s) (hsp : s.reg SP = B.variant.stackTop)
    (hmem : M₀ s.mem) (hC₀ : ∀ t, Kept s₀ t → M₀ t.mem → C t)
    (hC₁ : ∀ t, Kept s₀ t → M₁ t.mem → C t) (hlabel : ∀ l t, A l t)
    (hblink : s.nvm .inRegion ≠ 0 → ∀ t, Q .blink t)
    (hret : ∀ t, Kept s₀ t → M₁ t.mem → t.top = s₀.nvm .pc → t.reg SP = S - 2 →
      (∀ p ∈ regSlots, t.reg p.2 = s₀.nvm (.regs p.1)) → Q .ret t) :
    (boot B).wp B.sem C A Q s := by
  have hCs : C s := hC₀ s hkept hmem
  let t := (Instr.load .pc 14).op.exec s
  have hne : SP ≠ (14 : Reg) := by decide
  have hspt : t.reg SP = B.variant.stackTop := by
    simp [t, Op.exec, Instr.op, Instr.exec, Function.update_of_ne hne, hsp]
  have hCt : C t := hC₀ t ⟨hkept.pc, hkept.sp, hkept.done, hkept.regs⟩ hmem
  refine ⟨hCs, fun hd => ?_, fun _ => ⟨hCs, fun _ => ⟨hCs, hCt, fun hz => ?_, fun _ => ?_⟩,
    fun hf => ?_⟩⟩
  · refine absurd ?_ hdone
    rw [← hkept.done]
    simpa [Build.sem, Cond.holds] using hd
  · refine absurd ?_ hpc
    rw [← hkept.pc]
    simpa [Build.sem, Cond.holds, Op.exec, Instr.op, Instr.exec] using hz
  · -- the recovery: two counters, then the wait on the stack at `__stack`
    let u := (Instr.addc (.cntRecovery true)).op.exec
      ((Instr.add 1 (.cntRecovery false)).op.exec t)
    have hkept₁ : Kept s₀ ((Instr.add 1 (.cntRecovery false)).op.exec t) := by
      refine ⟨?_, ?_, ?_, fun i => ?_⟩
      · simpa [t, Op.exec, Instr.op, Instr.exec] using hkept.pc
      · simpa [t, Op.exec, Instr.op, Instr.exec] using hkept.sp
      · simpa [t, Op.exec, Instr.op, Instr.exec] using hkept.done
      · simpa [t, Op.exec, Instr.op, Instr.exec] using hkept.regs i
    have hkept₂ : Kept s₀ u := by
      refine ⟨?_, ?_, ?_, fun i => ?_⟩
      · simpa [u, t, Op.exec, Instr.op, Instr.exec] using hkept.pc
      · simpa [u, t, Op.exec, Instr.op, Instr.exec] using hkept.sp
      · simpa [u, t, Op.exec, Instr.op, Instr.exec] using hkept.done
      · simpa [u, t, Op.exec, Instr.op, Instr.exec] using hkept.regs i
    have hspu : u.reg SP = B.variant.stackTop := hspt
    refine ⟨hCt, hlabel _ _, hCt, ?_⟩
    change (poisonBorSram B _).wp B.sem C A Q t
    rw [poisonBorSram, hwait]
    refine ⟨hCt, hC₀ _ hkept₁ hmem, ?_⟩
    change (awaitRecovery B (restoreAndResume B)).wp B.sem C A Q u
    rw [awaitRecovery, hwait]
    refine Code.wp_call (I := fun v => Kept s₀ v ∧ M₁ v.mem ∧
      v.reg SP = B.variant.stackTop - 2) (fun v hv => hC₁ v hv.1 hv.2.1) ?_ ?_
      (hC₀ u hkept₂ hmem) ⟨?_, ?_, ?_⟩
    · rintro v w ⟨hkv, hmv, hspv⟩ hw
      refine ⟨⟨by rw [hw.nvm, hkv.pc], by rw [hw.nvm, hkv.sp], by rw [hw.nvm, hkv.done],
        fun i => by rw [hw.nvm, hkv.regs]⟩, hM.wait v.mem w.mem hmv ?_, ?_⟩
      · intro a ha
        refine hw.mem a ?_
        rw [State.inFrame, hspv]
        exact ha
      · rw [hw.reg SP (by decide) (by decide), hspv]
    · rintro v w ⟨hkv, hmv, hspv⟩ rfl
      have hkd : Kept s₀ v.drop := ⟨hkv.pc, hkv.sp, hkv.done, hkv.regs⟩
      refine ⟨hC₁ _ hkd hmv, ?_⟩
      refine wp_restoreAndResume_memory hB hwait hM hS
        ⟨hkv.pc, hkv.sp, hkv.done, hkv.regs⟩ hmv ?_ hC₁ hret
      simp [Build.sem, Op.exec, Instr.op, Instr.exec, hkv.pc]
    · exact ⟨hkept₂.pc, hkept₂.sp, hkept₂.done, hkept₂.regs⟩
    · have hcall := hM.call u.mem hmem
      rw [← hspu] at hcall
      exact hcall
    · change (u.pushWord B.waitReturn).reg SP = _
      simp [hspu]
  · have hflag : s.nvm .inRegion ≠ 0 := by simpa [Build.sem, Cond.holds] using hf
    refine ⟨hCs, hCs, hC₀ _ ⟨?_, ?_, ?_, fun i => ?_⟩ hmem, hblink hflag _⟩
    · simpa [Build.sem, Op.exec, Instr.op, Instr.exec] using hkept.pc
    · simpa [Build.sem, Op.exec, Instr.op, Instr.exec] using hkept.sp
    · simpa [Build.sem, Op.exec, Instr.op, Instr.exec] using hkept.done
    · simpa [Build.sem, Op.exec, Instr.op, Instr.exec] using hkept.regs i

end Memory

/-! ### The live cells -/

variable {B : Build} {L : ℕ} {S : Word} {s : State}

theorem toNat_sub_two {a : Word} (h : 2 ≤ a.toNat) : (a - 2).toNat = a.toNat - 2 := by
  have hlt := a.isLt
  have htwo : (2 : Word).toNat = 2 := rfl
  rw [BitVec.toNat_sub, htwo]
  omega

/-- A cell inside the dead part of the stack area is not live. -/
theorem Live.ne_of_dead {a w : Word} (h : Live L S a) (hL : L ≤ w.toNat) (hS : w.toNat < S.toNat) :
    a ≠ w := by
  rintro rfl
  have := h.2
  omega

theorem Variant.stackTop_even (v : Variant) : v.stackTop.toNat % 2 = 0 := by
  cases v <;> decide

/-- If the saved stack pointer is `__stack`, a boot writes dead cells only. -/
theorem memoryRules_live (hlay : Layout B L S) (hS : S = B.variant.stackTop) (m₀ : Word → Word) :
    MemoryRules B S (fun m => ∀ a, Live L S a → m a = m₀ a)
      fun m => ∀ a, Live L S a → m a = m₀ a := by
  have hframe := hlay.frame
  have hroom := hlay.room
  rw [← hS] at hframe
  have hdead : ∀ m : Word → Word, ∀ w v : Word, L ≤ w.toNat → w.toNat < S.toNat →
      (∀ a, Live L S a → m a = m₀ a) → ∀ a, Live L S a → Function.update m w v a = m₀ a := by
    intro m w v hL hlt hm a ha
    rw [Function.update_of_ne (ha.ne_of_dead hL hlt)]
    exact hm a ha
  have htwo : (S - 2).toNat = S.toNat - 2 := toNat_sub_two (by omega)
  have hfour : (S - 2 - 2).toNat = S.toNat - 4 := by
    rw [toNat_sub_two (by omega), htwo]
    omega
  refine ⟨fun m hm => ?_, fun m m' hm hsame a ha => ?_, fun m w hm => ?_, fun m w hm => ?_⟩
  · rw [← hS]
    exact hdead m _ _ (by omega) (by omega) hm
  · rw [hsame a ?_]
    · exact hm a ha
    · rw [← hS]
      rintro ⟨hpos, hle⟩
      have hlt := a.isLt
      have hlive := ha.2
      rw [BitVec.toNat_sub, htwo] at hpos hle
      omega
  · exact hdead m _ _ (by omega) (by omega) hm
  · exact hdead m _ _ (by omega) (by omega) hm

/-- Otherwise the call of `wait_until_vcc_full` leaves its return address in the topmost word of the
stack. -/
theorem memoryRules_top (hlay : Layout B L S) (hS : S ≠ B.variant.stackTop) :
    MemoryRules B S (fun _ => True) fun m => m (B.variant.stackTop - 2) = B.waitReturn := by
  have hroom := hlay.room
  have hle := hlay.le
  have hlt : S.toNat < B.variant.stackTop.toNat :=
    lt_of_le_of_ne hle fun h => hS (BitVec.eq_of_toNat_eq h)
  have htop : (B.variant.stackTop - 2).toNat = B.variant.stackTop.toNat - 2 :=
    toNat_sub_two (by omega)
  have htwo : (S - 2).toNat = S.toNat - 2 := toNat_sub_two (by omega)
  have hfour : (S - 2 - 2).toNat = S.toNat - 4 := by
    rw [toNat_sub_two (by omega), htwo]
    omega
  have hother : ∀ (m : Word → Word) (w v : Word), w.toNat ≠ B.variant.stackTop.toNat - 2 →
      m (B.variant.stackTop - 2) = B.waitReturn →
      Function.update m w v (B.variant.stackTop - 2) = B.waitReturn := by
    intro m w v hne hm
    rw [Function.update_of_ne fun h => hne (by rw [← h, htop]), hm]
  refine ⟨fun m _ => Function.update_self _ _ m, fun m m' hm hsame => ?_,
    fun m w hm => hother m _ w (by omega) hm, fun m w hm => hother m _ w (by omega) hm⟩
  rw [hsame _ (by simp), hm]

/-! ### Recoveries -/

/-- The invariant of the boots after a failure, if the saved stack pointer is `__stack`. -/
theorem bootSteps_ok (hB : B.variant ≠ .milp) (hwait : B.haltMode = .wait) (hlay : Layout B L S)
    (hS : S = B.variant.stackTop) (hs : AfterFailure B S s) {c : Config}
    (hsteps : Relation.ReflTransGen (BootStep B) ⟨.before .boot (boot B), s⟩ c) :
    ∃ p, c.ctl = .code .boot p ∧ p.Ok B.sem
      (fun t => Kept s t ∧ ∀ a, Live L S a → t.mem a = s.mem a) (fun _ _ => True)
      (fun e t => e = .ret → Intact L S s t) c.s := by
  have hboot : ∀ t, Kept s t → (∀ a, Live L S a → t.mem a = s.mem a) →
      t.reg SP = B.variant.stackTop → (boot B).wp B.sem
        (fun t => Kept s t ∧ ∀ a, Live L S a → t.mem a = s.mem a) (fun _ _ => True)
        (fun e t => e = .ret → Intact L S s t) t := by
    intro t hkept hmem hsp
    refine wp_boot_memory hB hwait (memoryRules_live hlay hS s.mem) hs.sp hs.pc hs.done hkept hsp
      hmem (fun u hu hm => ⟨hu, hm⟩) (fun u hu hm => ⟨hu, hm⟩) (fun _ _ => trivial)
      (fun _ _ h => absurd h (by decide)) ?_
    intro u _ hm htop hspu hregs _
    refine ⟨hm, htop, ?_, hregs⟩
    rw [hspu]
    simp
  induction hsteps with
  | refl => exact ⟨_, rfl, hboot s ⟨rfl, rfl, rfl, fun _ => rfl⟩ (fun _ _ => rfl) hs.spReg⟩
  | @tail c d _ hstep ih =>
    obtain ⟨p, hctl, hok⟩ := ih
    obtain ⟨hstep, q, hq⟩ := hstep
    cases hstep with
    | code hcode =>
      simp only [Control.code.injEq] at hctl
      obtain ⟨rfl, rfl⟩ := hctl
      exact ⟨_, rfl, hok.step hcode⟩
    | fail c hfail =>
      obtain ⟨hkept, hmem⟩ := hok.crash
      refine ⟨_, rfl, hboot _ ⟨?_, ?_, ?_, fun i => ?_⟩ (fun a ha => ?_) hfail.sp⟩
      · rw [hfail.nvm, hkept.pc]
      · rw [hfail.nvm, hkept.sp]
      · rw [hfail.nvm, hkept.done]
      · rw [hfail.nvm, hkept.regs]
      · rw [hfail.mem a ha.1, hmem a ha]
    | swbor s => exact absurd hctl (by simp [Control.before])
    | start s => exact absurd hctl (by simp [Control.before])
    | resume s => exact absurd hq (by simp)
    | crt s => exact absurd hq (by simp)
    | boundaryRet s => exact absurd hctl (by simp [Control.before])
    | commitRet s => exact absurd hctl (by simp [Control.before])
    | user _ _ _ => exact absurd hctl (by simp)
    | callBoundary _ s ra => exact absurd hctl (by simp)
    | callCommitResult _ s ra result => exact absurd hctl (by simp)
    | callHalt _ s ra _ => exact absurd hctl (by simp)

/-- Running the boot code is a sequence of boot steps. -/
theorem CodeRun.bootSteps {p q : Point Op Cond Label Exit} {s t : State}
    (h : CodeRun B.sem p s q t) :
    Relation.ReflTransGen (BootStep B) ⟨.code .boot p, s⟩ ⟨.code .boot q, t⟩ := by
  induction h with
  | refl p s => exact .refl
  | head hstep _ ih => exact .head ⟨.code hstep, _, rfl⟩ ih

/-- A boot after a failure that overwrites the topmost word of the stack. -/
theorem exists_clobbering_boot (hB : B.variant ≠ .milp) (hwait : B.haltMode = .wait)
    (hlay : Layout B L S) (hS : S ≠ B.variant.stackTop) (hs : AfterFailure B S s) :
    ∃ t, Relation.ReflTransGen (BootStep B) ⟨.before .boot (boot B), s⟩
        ⟨.before .boot (.exit .ret), t⟩ ∧
      t.mem (B.variant.stackTop - 2) = B.waitReturn := by
  have hboot : (boot B).wp B.sem (fun _ => True) (fun _ _ => True)
      (fun e t => e = .ret ∧ t.mem (B.variant.stackTop - 2) = B.waitReturn) s :=
    wp_boot_memory hB hwait (memoryRules_top hlay hS) hs.sp hs.pc hs.done
      ⟨rfl, rfl, rfl, fun _ => rfl⟩ hs.spReg trivial (fun _ _ _ => trivial)
      (fun _ _ _ => trivial) (fun _ _ => trivial) (fun hflag => absurd hs.flag hflag)
      fun _ _ hm _ _ _ => ⟨rfl, hm⟩
  obtain ⟨e, t, hrun⟩ := exists_boot_exit B s
  obtain ⟨rfl, hmem⟩ := Code.wp_exit
    (Q := fun e t => e = .ret ∧ t.mem (B.variant.stackTop - 2) = B.waitReturn) hboot hrun
  exact ⟨t, CodeRun.bootSteps hrun, hmem⟩

/-- A state after a failure, with chosen memory. -/
def afterFailure (B : Build) (S : Word) (mem : Word → Word) : State where
  reg _ := B.variant.stackTop
  carry := false
  mem := mem
  nvm
    | .pc => 1
    | .sp => S
    | _ => 0
  log := []

theorem afterFailure_ok (B : Build) (S : Word) (mem : Word → Word) :
    AfterFailure B S (afterFailure B S mem) :=
  ⟨rfl, by simp [afterFailure], by simp [afterFailure], rfl, rfl⟩

/-- **When recoveries leave the suspended program intact.** With the stack in FRAM and in wait mode,
the recoveries of a boundary, cut by any number of power failures, resume with its machine state and
leave every FRAM cell of the suspended program unchanged exactly if its saved stack pointer is
`__stack`. With a live stack cell the call of `wait_until_vcc_full` on the recovery path overwrites
the topmost word of the stack. -/
theorem recovery_intact_iff (hB : B.variant ≠ .milp) (hwait : B.haltMode = .wait)
    (hlay : Layout B L S) : RecoveryIntact B L S ↔ S = B.variant.stackTop := by
  constructor
  · intro hintact
    by_contra hS
    let s := afterFailure B S fun _ => B.waitReturn + 1
    obtain ⟨t, hsteps, htop⟩ :=
      exists_clobbering_boot hB hwait hlay hS (afterFailure_ok B S fun _ => B.waitReturn + 1)
    have hlive : Live L S (B.variant.stackTop - 2) := by
      have heven := B.variant.stackTop_even
      have hroom := hlay.room
      have hle := hlay.le
      have hS2 := hlay.even
      have hne : S.toNat ≠ B.variant.stackTop.toNat := fun h => hS (BitVec.eq_of_toNat_eq h)
      refine ⟨?_, .inr ?_⟩
      · cases hv : B.variant with
        | milp => exact absurd hv hB
        | rockclimb => decide
        | schematic => decide
      · rw [toNat_sub_two (by omega)]
        omega
    have hmem := (hintact s (afterFailure_ok B S _) t hsteps).mem _ hlive
    rw [htop] at hmem
    have hone : B.waitReturn = B.waitReturn + 1 := hmem
    simp at hone
  · intro hS s hs t hsteps
    obtain ⟨p, hctl, hok⟩ := bootSteps_ok hB hwait hlay hS hs hsteps
    obtain rfl : Point.before (.exit .ret) = p := by simpa [Control.before] using hctl
    exact hok.2 rfl

/-- A SCHEMATIC build in wait mode. -/
def schematicWait : Build where
  variant := .schematic
  haltMode := .wait
  deviceDebug := false
  crtEntry := 0x4400
  waitReturn := 0x4410
  waitDepth := 16

/-- With nothing on the stack, recoveries are harmless. -/
theorem recovery_intact_iff_empty : schematicWait.variant ≠ .milp ∧
    schematicWait.haltMode = .wait ∧ Layout schematicWait 0xF000 0xFF80 ∧
    RecoveryIntact schematicWait 0xF000 0xFF80 := by
  have hlay : Layout schematicWait 0xF000 0xFF80 := ⟨by decide, by decide, by decide, by decide⟩
  exact ⟨by decide, rfl, hlay, (recovery_intact_iff (by decide) rfl hlay).mpr rfl⟩

/-- A program suspended with one word on its stack, at `0xFF7E`, resumes with that word overwritten
by the return address of the call of `wait_until_vcc_full`. -/
theorem recovery_overwrites_frame :
    ∃ s t, AfterFailure schematicWait 0xFF7E s ∧ Live 0xF000 0xFF7E 0xFF7E ∧
      Relation.ReflTransGen (BootStep schematicWait) ⟨.before .boot (boot schematicWait), s⟩
        ⟨.before .boot (.exit .ret), t⟩ ∧
      s.mem 0xFF7E = 0x1234 ∧ t.mem 0xFF7E = 0x4410 := by
  exact ⟨afterFailure schematicWait 0xFF7E fun _ => 0x1234,
    (advance schematicWait 26 (.before (boot schematicWait))
      (afterFailure schematicWait 0xFF7E fun _ => 0x1234)).2,
    afterFailure_ok _ _ _, ⟨rfl, .inr (by decide)⟩,
    CodeRun.bootSteps (advance_run schematicWait 26 _ _), rfl, rfl⟩

end Bao.Runtime
