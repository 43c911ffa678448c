import Bao.Runtime.Routines

/-!
# Atomicity of the boundary protocol

A boundary saves its return address and its stack pointer by separate writes. The words `pc` and
`sp` of `.nvm` may therefore belong to different boundaries for a while, but only while the
in-region flag is up, and a boot that finds the flag up does not recover. The proof outline
`protocol` makes this the crash condition: **if the flag is down and the run is not done, a
non-zero saved pair is that of the last completed boundary.**
-/

namespace Bao.Runtime

/-- The boundary that was called last, if it is neither completed nor cut by a failure: its
return address and its caller's stack pointer. -/
def pendingBoundary : List Event → Option (Word × Word)
  | [] => none
  | .called ra sp :: _ => some (ra, sp)
  | .committed :: _ => none
  | .failed :: _ => none
  | _ :: log => pendingBoundary log

/-- The last boundary whose bookkeeping finished. -/
def lastCompleted : List Event → Option (Word × Word)
  | [] => none
  | .committed :: log => pendingBoundary log
  | _ :: log => lastCompleted log

/-- A non-zero saved pair is that of the last completed boundary. -/
def SavedPair (s : State) : Prop :=
  s.nvm .pc ≠ 0 → lastCompleted s.log = some (s.nvm .pc, s.nvm .sp)

/-- User code runs with the in-region flag up, or after the result is recorded. -/
structure InUserCode (s : State) : Prop where
  saved : SavedPair s
  flag : s.nvm .inRegion = 1 ∨ s.nvm .done = 1

/-- The crash condition of the protocol. -/
def ProtocolCrash (s : State) : Prop :=
  s.nvm .inRegion = 0 → s.nvm .done ≠ 1 → SavedPair s

/-- What holds when a recovery is taken. -/
structure RecoveryTaken (s : State) : Prop where
  flag : s.nvm .inRegion = 0
  pair : lastCompleted s.log = some (s.nvm .pc, s.nvm .sp)

/-- What holds in front of the resuming `ret`. -/
structure AboutToResume (s : State) : Prop where
  user : InUserCode s
  pair : lastCompleted s.log = some (s.nvm .pc, s.nvm .sp)
  top : s.top = s.nvm .pc
  spReg : s.reg SP + 2 = s.nvm .sp

variable {B : Build} {s t : State}

theorem SavedPair.congr (h : SavedPair s) (hlog : lastCompleted t.log = lastCompleted s.log)
    (hpc : t.nvm .pc = s.nvm .pc) (hsp : t.nvm .sp = s.nvm .sp) : SavedPair t := by
  intro hne
  rw [hlog, hpc, hsp]
  exact h (hpc ▸ hne)

theorem savedPair_of_pc_eq_zero (h : s.nvm .pc = 0) : SavedPair s := fun hne => absurd h hne

theorem InUserCode.crash (h : InUserCode s) : ProtocolCrash s := fun _ _ => h.saved

/-- Outside the window between the writes of the pair, the flag keeps a boot from recovering. -/
theorem ProtocolCrash.of_flag (h : s.nvm .inRegion = 1 ∨ s.nvm .done = 1) : ProtocolCrash s := by
  intro hflag hdone
  rcases h with h | h
  · rw [hflag] at h
    exact absurd h (by decide)
  · exact absurd h hdone

theorem ProtocolCrash.sameControl (h : ProtocolCrash s) (hst : SameControl s t) :
    ProtocolCrash t := by
  intro hflag hdone
  rw [hst.nvm .inRegion rfl] at hflag
  rw [hst.nvm .done rfl] at hdone
  exact (h hflag hdone).congr (by rw [hst.log]) (hst.nvm .pc rfl) (hst.nvm .sp rfl)

/-- The exits of the routines. -/
def protocolExit : Who → Exit → State → Prop
  | .boot, .ret, s => AboutToResume s
  | .boot, .crt, s => InUserCode s ∧ s.nvm .pc = 0
  | .boundary, .ret, s => InUserCode s
  | .boundary, .swbor, s => ProtocolCrash s
  | .boundary, .start, s => ProtocolCrash s
  | .commitResult, .ret, s => InUserCode s
  | _, _, _ => True

/-- The assertions at the labels of the boot entry. -/
def protocolAssert : Label → State → Prop
  | .doRecovery, s => RecoveryTaken s
  | .normalBoot, _ => True

/-- **The boot entry**: a recovery is taken only from the last completed boundary. -/
theorem protocol_boot (hwait : B.haltMode = .wait) (h : ProtocolCrash s) :
    (boot B).wp B.sem ProtocolCrash protocolAssert (protocolExit .boot) s := by
  refine wp_boot (fun t ht => h.sameControl ht) (fun _ => trivial) ?_ ?_ ?_
  · intro _ hflag t ht
    refine ⟨fun hzero => absurd ?_ hflag, trivial⟩
    rw [← ht.inRegion, hzero]
  · intro _ _ _
    refine ⟨fun _ _ => trivial, fun t ht _ _ => savedPair_of_pc_eq_zero ht.pc, fun t ht => ?_⟩
    have huser : InUserCode t := ⟨savedPair_of_pc_eq_zero ht.pc, .inl ht.inRegion⟩
    exact ⟨huser.crash, huser, ht.pc⟩
  · intro hdone hflag hpc
    have hpair : lastCompleted s.log = some (s.nvm .pc, s.nvm .sp) := h hflag hdone hpc
    refine ⟨fun t ht => ⟨?_, ?_⟩, fun t ht _ _ => ?_, fun t ht => ?_⟩
    · rw [ht.nvm .inRegion rfl, hflag]
    · rw [ht.log, ht.nvm .pc rfl, ht.nvm .sp rfl, hpair]
    · exact SavedPair.congr (fun _ => hpair) (by rw [ht.log]) (ht.pc hwait) ht.sp
    · have hsaved : SavedPair t :=
        SavedPair.congr (fun _ => hpair) (by rw [ht.log]) (ht.pc hwait) ht.sp
      have huser : InUserCode t := ⟨hsaved, .inl ht.inRegion⟩
      refine ⟨huser.crash, huser, ?_, ?_, ?_⟩
      · rw [ht.log, ht.pc hwait, ht.sp, hpair]
      · rw [ht.top, ht.pc hwait]
      · rw [ht.spReg, ht.sp]

/-- **The boundary**: until it commits the flag is up, and it commits its own pair. -/
theorem protocol_boundary (ra : Word) (h : InUserCode s) :
    (regionBoundary B).wp B.sem ProtocolCrash protocolAssert (protocolExit .boundary)
      ((s.pushWord ra).note (.called ra (s.reg SP))) := by
  have hcommit : ∀ {flag : Word} t,
      Committed ((s.pushWord ra).note (.called ra (s.reg SP))) flag t → SavedPair t := by
    intro flag t ht _
    have htop : ((s.pushWord ra).note (.called ra (s.reg SP))).top = ra := by simp [State.top]
    have hsp : ((s.pushWord ra).note (.called ra (s.reg SP))).reg SP + 2 = s.reg SP := by simp
    rw [ht.log, ht.pc, ht.sp, htop, hsp]
    rfl
  refine wp_regionBoundary (fun t ht => .of_flag ?_) (fun t ht _ _ => hcommit t ht)
    (fun _ t ht _ _ => hcommit t ht) (fun _ t ht _ _ => hcommit t ht) fun _ t ht => ?_
  · rw [ht.inRegion, ht.done]
    exact h.flag
  · have huser : InUserCode t := ⟨hcommit t ht, .inl ht.inRegion⟩
    exact ⟨huser.crash, huser⟩

/-- The result record keeps the saved pair. -/
theorem protocol_commitResult (ra result : Word) (h : InUserCode s) :
    (benchCommitResult result).wp B.sem ProtocolCrash protocolAssert (protocolExit .commitResult)
      (s.pushWord ra) := by
  have hpair : ∀ t : State, t.nvm .pc = s.nvm .pc → t.nvm .sp = s.nvm .sp →
      lastCompleted t.log = lastCompleted s.log → SavedPair t :=
    fun t hpc hsp hlog => h.saved.congr hlog hpc hsp
  refine ⟨fun _ _ => hpair _ rfl rfl rfl, fun _ _ => hpair _ ?_ ?_ rfl,
    fun _ _ => hpair _ ?_ ?_ rfl, fun _ _ => hpair _ ?_ ?_ rfl, ⟨hpair _ ?_ ?_ rfl, .inr ?_⟩⟩
  all_goals simp [Build.sem, Op.exec, Instr.op, Instr.exec]

/-- Halting keeps the saved pair. -/
theorem protocol_halt (ra : Word) (hdone : s.nvm .done = 1) :
    benchHalt.wp B.sem ProtocolCrash protocolAssert (protocolExit .halt) (s.pushWord ra) := by
  refine ⟨.of_flag (.inr hdone), .of_flag (.inr ?_), trivial⟩
  simpa [Build.sem, Op.exec, Instr.op, Instr.exec] using hdone

/-- The outline of the protocol, in wait mode. -/
def protocol (hwait : B.haltMode = .wait) : Outline B where
  crash := ProtocolCrash
  assert := protocolAssert
  exit := protocolExit
  user := InUserCode
  user_crash _ h := h.crash
  user_step s t h ht := by
    refine ⟨h.saved.congr (by rw [ht.log]) (by rw [ht.nvm]) (by rw [ht.nvm]), ?_⟩
    rw [ht.nvm]
    exact h.flag
  initial s hnvm _ _ := protocol_boot hwait fun _ _ => savedPair_of_pc_eq_zero (hnvm .pc)
  reboot s t h ht := by
    refine protocol_boot hwait fun hflag hdone => ?_
    rw [ht.nvm] at hflag hdone
    exact (h hflag hdone).congr (by rw [ht.log]; rfl) (by rw [ht.nvm]) (by rw [ht.nvm])
  boundary s ra h := protocol_boundary ra h
  commitResult s ra result h := protocol_commitResult ra result h
  halt s ra _ hdone := protocol_halt ra hdone
  resume s h := ⟨h.user.saved.congr rfl rfl rfl, h.user.flag⟩
  crt s h := ⟨h.1.saved.congr rfl rfl rfl, h.1.flag⟩
  boundaryRet s h := ⟨h.saved.congr rfl rfl rfl, h.flag⟩
  commitRet s h := ⟨h.saved.congr rfl rfl rfl, h.flag⟩
  swbor s h := protocol_boot hwait fun hflag hdone => (h hflag hdone).congr rfl rfl rfl
  start s h := protocol_boot hwait fun hflag hdone => (h hflag hdone).congr rfl rfl rfl

end Bao.Runtime
