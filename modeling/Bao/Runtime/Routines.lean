import Bao.Runtime.Frame

/-!
# What the routines do

One specification for each routine, as a rule for its weakest condition: `wp_regionBoundary` for
the boundary and `wp_boot` for the boot entry, in every variant and halt mode. They describe the
states a routine goes through by the control words only: a boundary that is `Saving` and then
`Committed`; a boot that ends with a violation (`Violated`), goes through a `FreshBoot`, or is
`Recovering` until it is `Resuming` with the saved PC on top of the saved stack. What a power
failure finds is always one of these states.
-/

namespace Bao.Runtime

open Machine (Code)

/-! ### The boundary -/

/-- Between the prologue and the commit of a boundary, only the saved pair changes. -/
structure Saving (s t : State) : Prop where
  log : t.log = s.log
  inRegion : t.nvm .inRegion = s.nvm .inRegion
  done : t.nvm .done = s.nvm .done

/-- A boundary entered in state `s` is committed: the saved pair is that of its call, and the
in-region flag has the value `flag`. -/
structure Committed (s : State) (flag : Word) (t : State) : Prop where
  log : t.log = .committed :: s.log
  pc : t.nvm .pc = s.top
  sp : t.nvm .sp = s.reg SP + 2
  inRegion : t.nvm .inRegion = flag
  done : t.nvm .done = s.nvm .done

theorem SameControl.saving {s t : State} (h : SameControl s t) : Saving s t :=
  ⟨h.log, h.nvm .inRegion rfl, h.nvm .done rfl⟩

theorem Committed.sameControl {s t u : State} {flag : Word} (h : Committed s flag t)
    (h' : SameControl t u) : Committed s flag u :=
  ⟨h'.log.trans h.log, (h'.nvm .pc rfl).trans h.pc, (h'.nvm .sp rfl).trans h.sp,
    (h'.nvm .inRegion rfl).trans h.inRegion, (h'.nvm .done rfl).trans h.done⟩

/-- The three writes of the saved pair and the commit. -/
private theorem committed_of_sameTop {s t : State} (h : SameTop s t) :
    Committed s 0 ((⟨.movImm 0 .inRegion, some .committed⟩ : Op).exec
      ((Instr.add 2 .sp).op.exec ((Instr.store SP .sp).op.exec
        ((Instr.movTop .pc).op.exec t)))) := by
  refine ⟨?_, ?_, ?_, ?_, ?_⟩
  · simp [Op.exec, Instr.op, Instr.exec, h.log]
  · simp [Op.exec, Instr.op, Instr.exec, h.top]
  · simp [Op.exec, Instr.op, Instr.exec, h.sp]
  · simp [Op.exec, Instr.op, Instr.exec]
  · simpa [Op.exec, Instr.op, Instr.exec] using h.nvm .done rfl

section Boundary

variable {B : Build} {C : State → Prop} {A : Label → State → Prop} {Q : Exit → State → Prop}
  {s : State}

/-- **What a boundary does.** Until it commits, the in-region flag keeps its value; from then on
the saved pair is that of this call. -/
theorem wp_regionBoundary (hsaving : ∀ t, Saving s t → C t)
    (hcommitted : ∀ t, Committed s 0 t → C t)
    (hbor : B.haltMode = .bor → ∀ t, Committed s 0 t → Q .swbor t)
    (hswbor : B.haltMode = .swbor → ∀ t, Committed s 0 t → Q .start t)
    (hwait : B.haltMode = .wait → ∀ t, Committed s 1 t → C t ∧ Q .ret t) :
    (regionBoundary B).wp B.sem C A Q s := by
  refine wp_boundaryPrologue (fun t ht => hsaving t ht.saving) fun t ht => ?_
  have hsv : Saving s t := ht.toSameControl.saving
  have hcom := committed_of_sameTop ht
  refine ⟨hsaving _ hsv, hsaving _ ⟨hsv.log, hsv.inRegion, hsv.done⟩,
    hsaving _ ⟨hsv.log, hsv.inRegion, hsv.done⟩, hsaving _ ⟨hsv.log, hsv.inRegion, hsv.done⟩, ?_⟩
  -- what follows the commit: each way to halt keeps the control words
  have hCu := fun v hv => hcommitted v (hcom.sameControl hv)
  split
  · exact ⟨hcommitted _ hcom, hbor (by assumption) _ hcom⟩
  · exact ⟨hcommitted _ hcom, hswbor (by assumption) _ hcom⟩
  · refine wp_pushPop (by decide) hCu fun v hv => ?_
    refine wp_wait (fun w hw => hCu w (hv.trans hw)) fun w hw _ => ?_
    refine wp_pushPop (by decide) (fun z hz => hCu z ((hv.trans hw).trans hz)) fun z hz => ?_
    have hz' := hcom.sameControl ((hv.trans hw).trans hz)
    have hmark : Committed s 1 ((Instr.movImm 1 .inRegion).op.exec z) := by
      refine ⟨hz'.log, ?_, ?_, ?_, ?_⟩
      · simpa [Op.exec, Instr.op, Instr.exec] using hz'.pc
      · simpa [Op.exec, Instr.op, Instr.exec] using hz'.sp
      · simp [Op.exec, Instr.op, Instr.exec]
      · simpa [Op.exec, Instr.op, Instr.exec] using hz'.done
    exact ⟨hcommitted z hz', hwait (by assumption) _ hmark⟩

end Boundary

/-! ### The boot entry -/

/-- The boot found the in-region flag up and reported it. -/
structure Violated (s t : State) : Prop where
  log : t.log = s.log
  inRegion : t.nvm .inRegion = s.nvm .inRegion
  done : t.nvm .done = s.nvm .done
  violation : t.nvm .violation = 1

/-- A fresh boot, with the in-region flag at `flag`. -/
structure FreshBoot (s : State) (flag : Word) (t : State) : Prop where
  log : t.log = s.log
  pc : t.nvm .pc = 0
  inRegion : t.nvm .inRegion = flag
  done : t.nvm .done = s.nvm .done

/-- A recovery in progress, with the in-region flag at `flag`. In wait mode the saved PC stays. -/
structure Recovering (B : Build) (s : State) (flag : Word) (t : State) : Prop where
  log : t.log = s.log
  pc : B.haltMode = .wait → t.nvm .pc = s.nvm .pc
  sp : t.nvm .sp = s.nvm .sp
  inRegion : t.nvm .inRegion = flag
  done : t.nvm .done = s.nvm .done

/-- A recovery about to resume: the saved PC is on top of the saved stack. -/
structure Resuming (B : Build) (s t : State) : Prop extends Recovering B s 1 t where
  top : t.top = s.nvm .pc
  spReg : t.reg SP + 2 = s.nvm .sp

theorem Recovering.sameControl {B : Build} {s t u : State} {flag : Word}
    (h : Recovering B s flag t) (h' : SameControl t u) : Recovering B s flag u :=
  ⟨h'.log.trans h.log, fun hw => (h'.nvm .pc rfl).trans (h.pc hw), (h'.nvm .sp rfl).trans h.sp,
    (h'.nvm .inRegion rfl).trans h.inRegion, (h'.nvm .done rfl).trans h.done⟩

theorem FreshBoot.sameControl {s t u : State} {flag : Word} (h : FreshBoot s flag t)
    (h' : SameControl t u) : FreshBoot s flag u :=
  ⟨h'.log.trans h.log, (h'.nvm .pc rfl).trans h.pc, (h'.nvm .inRegion rfl).trans h.inRegion,
    (h'.nvm .done rfl).trans h.done⟩

section BootSpec

variable {B : Build} {C : State → Prop} {A : Label → State → Prop} {Q : Exit → State → Prop}
  {s t : State}

/-- The fresh boot zeroes the control words, waits and enters the first region. -/
theorem wp_normalBoot (ht : FreshBoot s 0 t) (hC : ∀ u, FreshBoot s 0 u → C u)
    (hcrt : ∀ u, FreshBoot s 1 u → C u ∧ Q .crt u) : (normalBoot B).wp B.sem C A Q t := by
  have hzero : ∀ {u : State} (x : Nvm), FreshBoot s 0 u → x = .pc ∨ x = .sp ∨ x = .inRegion →
      FreshBoot s 0 ((Instr.movImm 0 x).op.exec u) := by
    rintro u x hu (rfl | rfl | rfl)
    · exact ⟨hu.log, by simp [Op.exec, Instr.op, Instr.exec],
        by simpa [Op.exec, Instr.op, Instr.exec] using hu.inRegion,
        by simpa [Op.exec, Instr.op, Instr.exec] using hu.done⟩
    · exact ⟨hu.log, by simpa [Op.exec, Instr.op, Instr.exec] using hu.pc,
        by simpa [Op.exec, Instr.op, Instr.exec] using hu.inRegion,
        by simpa [Op.exec, Instr.op, Instr.exec] using hu.done⟩
    · exact ⟨hu.log, by simpa [Op.exec, Instr.op, Instr.exec] using hu.pc,
        by simp [Op.exec, Instr.op, Instr.exec],
        by simpa [Op.exec, Instr.op, Instr.exec] using hu.done⟩
  have hmark : ∀ u, FreshBoot s 0 u →
      (markInRegion (.exit .crt)).wp B.sem C A Q u := by
    intro u hu
    refine ⟨hC u hu, hcrt _ ⟨hu.log, ?_, ?_, ?_⟩⟩
    · simpa [Op.exec, Instr.op, Instr.exec, Build.sem] using hu.pc
    · simp [Op.exec, Instr.op, Instr.exec, Build.sem]
    · simpa [Op.exec, Instr.op, Instr.exec, Build.sem] using hu.done
  refine ⟨hC t ht, hC t ht, hC _ (hzero .pc ht (by simp)), ?_⟩
  refine ⟨hC _ (hzero .sp (hzero .pc ht (by simp)) (by simp)), ?_⟩
  have hz := hzero .inRegion (hzero .sp (hzero .pc ht (by simp)) (by simp)) (by simp)
  change (awaitFreshBoot B (markInRegion (.exit .crt))).wp B.sem C A Q _
  rw [awaitFreshBoot]
  split
  · refine wp_wait (fun u hu => hC u (hz.sameControl hu)) fun u hu _ => ?_
    exact hmark u (hz.sameControl hu)
  · exact hmark _ hz

/-- The recovery path from the reloaded PC on: it resumes with the saved pair. -/
theorem wp_restoreAndResume (ht : Recovering B s 0 t) (hR14 : t.reg 14 = s.nvm .pc)
    (hC : ∀ u, Recovering B s 0 u → C u) (hret : ∀ u, Resuming B s u → C u ∧ Q .ret u) :
    (restoreAndResume B).wp B.sem C A Q t := by
  let u := (Instr.push 14).op.exec ((Instr.load .sp SP).op.exec t)
  have hne : (14 : Reg) ≠ SP := by decide
  have hu : Recovering B s 0 u := ⟨ht.log, ht.pc, ht.sp, ht.inRegion, ht.done⟩
  have hsp : u.reg SP + 2 = s.nvm .sp := by
    simp [u, Op.exec, Instr.op, Instr.exec, ht.sp]
  have htop : u.top = s.nvm .pc := by
    simp [u, Op.exec, Instr.op, Instr.exec, State.top, Function.update_of_ne hne, hR14]
  refine ⟨hC t ht, hC _ ⟨ht.log, ht.pc, ht.sp, ht.inRegion, ht.done⟩, ?_⟩
  change (poisonBorGprs B _).wp B.sem C A Q u
  -- the registers are cleared and restored without touching the stack
  have hrest : ∀ v, SameTop u v →
      (restoreRegs B <| markInRegion <| .exit .ret).wp B.sem C A Q v := by
    intro v hv
    refine wp_restoreRegs (fun w hw => hC w (hu.sameControl (hv.toSameControl.trans hw)))
      fun w hw => ?_
    have hw' := hv.trans hw
    have hrec := hu.sameControl hw'.toSameControl
    refine ⟨hC w hrec, hret _ ⟨⟨hrec.log, fun hwait => ?_, ?_, ?_, ?_⟩, ?_, ?_⟩⟩
    · simpa [Op.exec, Instr.op, Instr.exec, Build.sem] using hrec.pc hwait
    · simpa [Op.exec, Instr.op, Instr.exec, Build.sem] using hrec.sp
    · simp [Op.exec, Instr.op, Instr.exec, Build.sem]
    · simpa [Op.exec, Instr.op, Instr.exec, Build.sem] using hrec.done
    · exact hw'.top.trans htop
    · change w.reg SP + 2 = _
      rw [hw'.sp, hsp]
  rw [poisonBorGprs]
  split
  · exact wp_quiet (by decide) (fun v hv => hC v (hu.sameControl hv)) fun v hv => hrest v hv.sameTop
  · exact hrest u (SameStack.refl u).sameTop

/-- **What a recovery does**: it ends with the saved PC on top of the saved stack and the in-region
flag up, and until then the flag is down. -/
theorem wp_doRecovery (ht : Recovering B s 0 t) (hR14 : t.reg 14 = s.nvm .pc)
    (hpc : t.nvm .pc = s.nvm .pc)
    (hC : ∀ u, Recovering B s 0 u → C u) (hret : ∀ u, Resuming B s u → C u ∧ Q .ret u) :
    (doRecovery B).wp B.sem C A Q t := by
  refine ⟨hC t ht, ?_⟩
  -- counting, then waiting or clearing the marker, then the resume
  have hawait : ∀ u, SameControl t u → u.reg 14 = s.nvm .pc →
      (awaitRecovery B (restoreAndResume B)).wp B.sem C A Q u := by
    intro u hu hR
    have hrec := ht.sameControl hu
    rw [awaitRecovery]
    split
    · refine wp_wait (fun v hv => hC v (hrec.sameControl hv)) fun v hv _ => ?_
      have hv' := hrec.sameControl hv
      refine ⟨hC v hv', wp_restoreAndResume ⟨hv'.log, hv'.pc, hv'.sp, hv'.inRegion, hv'.done⟩ ?_ hC
        hret⟩
      have hpcv : v.nvm .pc = s.nvm .pc := by rw [hv.nvm .pc rfl, hu.nvm .pc rfl, hpc]
      simp [Op.exec, Instr.op, Instr.exec, Build.sem, hpcv]
    · rename_i hmode
      refine ⟨hC u hrec, wp_restoreAndResume ⟨hrec.log, fun hw => absurd hw hmode, ?_, ?_, ?_⟩ ?_ hC
        hret⟩
      · simpa [Op.exec, Instr.op, Instr.exec, Build.sem] using hrec.sp
      · simpa [Op.exec, Instr.op, Instr.exec, Build.sem] using hrec.inRegion
      · simpa [Op.exec, Instr.op, Instr.exec, Build.sem] using hrec.done
      · exact hR
  have hcount : ∀ u, SameControl t u → u.reg 14 = s.nvm .pc →
      (Code.seqs [(Instr.add 1 (.cntRecovery false)).op, (Instr.addc (.cntRecovery true)).op] <|
        awaitRecovery B <| restoreAndResume B).wp B.sem C A Q u := by
    intro u hu hR
    have hlo : SameControl u ((Instr.add 1 (.cntRecovery false)).op.exec u) :=
      (Op.quiet.sameStack rfl u).toSameControl
    have hhi : SameControl ((Instr.add 1 (.cntRecovery false)).op.exec u)
        ((Instr.addc (.cntRecovery true)).op.exec ((Instr.add 1 (.cntRecovery false)).op.exec u)) :=
      (Op.quiet.sameStack rfl _).toSameControl
    refine ⟨hC u (ht.sameControl hu), hC _ (ht.sameControl (hu.trans hlo)), ?_⟩
    exact hawait _ ((hu.trans hlo).trans hhi) hR
  change (poisonBorSram B _).wp B.sem C A Q t
  rw [poisonBorSram]
  split
  · exact ⟨hC t ht, hcount _ ⟨fun _ _ => rfl, rfl⟩ hR14⟩
  · exact hcount t (.refl t) hR14

/-- **What a boot does.** A finished run is parked; an in-region flag that is up is reported, and
the boot ends there; otherwise the boot is fresh if no PC is saved and a recovery if one is. -/
theorem wp_boot (hC : ∀ t, SameControl s t → C t) (hpark : s.nvm .done = 1 → Q .park s)
    (hblink : s.nvm .done ≠ 1 → s.nvm .inRegion ≠ 0 → ∀ t, Violated s t → C t ∧ Q .blink t)
    (hfresh : s.nvm .done ≠ 1 → s.nvm .inRegion = 0 → s.nvm .pc = 0 →
      (∀ t, SameControl s t → A .normalBoot t) ∧ (∀ t, FreshBoot s 0 t → C t) ∧
      ∀ t, FreshBoot s 1 t → C t ∧ Q .crt t)
    (hrecover : s.nvm .done ≠ 1 → s.nvm .inRegion = 0 → s.nvm .pc ≠ 0 →
      (∀ t, SameControl s t → A .doRecovery t) ∧ (∀ t, Recovering B s 0 t → C t) ∧
      ∀ t, Resuming B s t → C t ∧ Q .ret t) :
    (boot B).wp B.sem C A Q s := by
  have hCs : C s := hC s (.refl s)
  let t := (Instr.load .pc 14).op.exec s
  have ht : SameControl s t := ⟨fun _ _ => rfl, rfl⟩
  have hR14 : t.reg 14 = s.nvm .pc := by simp [t, Op.exec, Instr.op, Instr.exec]
  refine ⟨hCs, fun hdone => ⟨hCs, hpark (by simpa [Build.sem, Cond.holds] using hdone)⟩,
    fun hdone => ⟨hCs, fun hflag => ?_, fun hflag => ?_⟩⟩
  · have hdone' : s.nvm .done ≠ 1 := by simpa [Build.sem, Cond.holds] using hdone
    have hflag' : s.nvm .inRegion = 0 := by simpa [Build.sem, Cond.holds] using hflag
    refine ⟨hCs, hC t ht, fun hpc => ?_, fun hpc => ?_⟩
    · have hpc' : s.nvm .pc = 0 := by
        rw [← hR14]
        simpa [Build.sem, Cond.holds] using hpc
      obtain ⟨hlabel, hCf, hcrt⟩ := hfresh hdone' hflag' hpc'
      have hf : FreshBoot s 0 t := ⟨rfl, hpc', hflag', rfl⟩
      exact ⟨hC t ht, hlabel t ht, wp_normalBoot hf hCf hcrt⟩
    · have hpc' : s.nvm .pc ≠ 0 := by
        rw [← hR14]
        simpa [Build.sem, Cond.holds] using hpc
      obtain ⟨hlabel, hCr, hret⟩ := hrecover hdone' hflag' hpc'
      have hr : Recovering B s 0 t := ⟨rfl, fun _ => rfl, rfl, hflag', rfl⟩
      exact ⟨hC t ht, hlabel t ht, wp_doRecovery hr hR14 rfl hCr hret⟩
  · have hdone' : s.nvm .done ≠ 1 := by simpa [Build.sem, Cond.holds] using hdone
    have hflag' : s.nvm .inRegion ≠ 0 := by simpa [Build.sem, Cond.holds] using hflag
    refine ⟨hCs, hCs, hblink hdone' hflag' _ ⟨rfl, ?_, ?_, ?_⟩⟩
    · simp [Op.exec, Instr.op, Instr.exec, Build.sem]
    · simp [Op.exec, Instr.op, Instr.exec, Build.sem]
    · simp [Op.exec, Instr.op, Instr.exec, Build.sem]

end BootSpec

end Bao.Runtime
