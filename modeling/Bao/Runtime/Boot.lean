import Bao.Machine.CrashCode

/-!
# The boot and boundary routines

The runtimes of the three passes share `boot_common.inc`. This file embeds its macros under their
own names, the boot entry and `__region_boundary` of `milp_boot.S`, `rockclimb_boot.S` and
`schematic_boot.S`, and `bench_commit_result` and `bench_halt` of the runtimes' C files, as code
that a power failure may cut short at any instruction (`Machine.Code`). A macro is a function of
the code that follows it.

The `.nvm` words that the routines use are named (`Nvm`); the linker scripts keep them apart from
all other memory, which is `mem`, one cell for each word address. A compare and the jump on its
flags are one instruction here, since neither writes anything. `hw_init` writes peripheral
registers only and is one instruction without effect. `cnt_wait`, which nothing reads, is left out.

The state has a ghost component, the `log` of what happened, newest event first. The code never
reads it. `System` closes the routines to a system: arbitrary user code that calls them, and
power failures at any point.
-/

namespace Bao.Runtime

open Machine (Code Semantics Point CodeStep)

/-- A 16-bit word: a value or an address. -/
abbrev Word := BitVec 16

/-- The registers `R0`–`R15`. -/
abbrev Reg := Fin 16

/-- The stack pointer is `R1`. -/
def SP : Reg := 1

/-- The status register is `R2`. -/
def SR : Reg := 2

/-- The words of section `.nvm`. The counters have two words, `false` the low one. -/
inductive Nvm
  | pc
  | sp
  | inRegion
  | violation
  | done
  | result
  | cntRecovery (hi : Bool)
  | cntBoundary (hi : Bool)
  | cntSaveReg (hi : Bool)
  | cntRestoreReg (hi : Bool)
  | regs (i : Fin 12)
  deriving DecidableEq, Repr

/-- Ghost events: calls of the boundary routine with their return address and stack pointer,
the commit of a boundary, the ways into a region, the two ends of the result record, and power
failures. -/
inductive Event
  | called (ra sp : Word)
  | committed
  | continued
  | resumed (pc sp : Word)
  | coldStarted
  | recording
  | recorded
  | failed
  deriving DecidableEq, Repr

/-- The state of the device, with its ghost log. `carry` is the carry flag of `SR`. -/
structure State where
  reg : Reg → Word
  carry : Bool
  mem : Word → Word
  nvm : Nvm → Word
  log : List Event

/-- The instructions of the routines. -/
inductive Instr
  | movImm (k : Word) (dst : Nvm)
  | movTop (dst : Nvm)
  | store (r : Reg) (dst : Nvm)
  | load (src : Nvm) (r : Reg)
  | add (k : Word) (dst : Nvm)
  | addc (dst : Nvm)
  | push (r : Reg)
  | pop (r : Reg)
  | clr (r : Reg)
  | hwInit
  | poisonSram
  deriving DecidableEq, Repr

/-- An instruction and the ghost event it stands for, if any. -/
structure Op where
  instr : Instr
  event : Option Event
  deriving DecidableEq, Repr

/-- An instruction that stands for no event. -/
def Instr.op (i : Instr) : Op := ⟨i, none⟩

/-- The conditions of the boot code's jumps. -/
inductive Cond
  | nvmEq (x : Nvm) (k : Word)
  | regZero (r : Reg)
  deriving DecidableEq, Repr

/-- The labels of the boot entry. -/
inductive Label
  | doRecovery
  | normalBoot
  deriving DecidableEq, Repr

/-- How a routine ends: `ret`, the fall through into the CRT, the three endless loops, and the
two resets of the other halt modes. -/
inductive Exit
  | ret
  | crt
  | park
  | blink
  | sleep
  | swbor
  | start
  deriving DecidableEq, Repr

/-- The code of the routines. -/
abbrev Routine := Code Op Cond Label Exit

/-- Which pass's runtime is linked. -/
inductive Variant
  | milp
  | rockclimb
  | schematic
  deriving DecidableEq, Repr

/-- The halt mode the runtime is assembled for. -/
inductive HaltMode
  | bor
  | swbor
  | wait
  deriving DecidableEq, Repr

/-- A build: the variant, the halt mode and `DEVICE_DEBUG`; the address the CRT goes on at; and
of the compiled `wait_until_vcc_full` the return address its call pushes and the bytes of stack
it uses, its interrupts included. -/
structure Build where
  variant : Variant
  haltMode : HaltMode
  deviceDebug : Bool
  crtEntry : Word
  waitReturn : Word
  waitDepth : ℕ

/-- `__stack`: the end of RAM for MILP, the end of FRAM for RockClimb and SCHEMATIC. -/
def Variant.stackTop : Variant → Word
  | .milp => 0x2C00
  | .rockclimb => 0xFF80
  | .schematic => 0xFF80

/-- The cells of the device's SRAM, from `__ram_start` up to `__ram_end`. -/
def inSram (a : Word) : Bool := decide (0x1C00 ≤ a.toNat) && decide (a.toNat < 0x2C00)

/-! ### Instructions -/

namespace State

/-- A register write. -/
def setReg (s : State) (r : Reg) (w : Word) : State := { s with reg := Function.update s.reg r w }

/-- A write to a named word. -/
def setNvm (s : State) (x : Nvm) (w : Word) : State := { s with nvm := Function.update s.nvm x w }

/-- Push a word. -/
def pushWord (s : State) (w : Word) : State :=
  { s with
    reg := Function.update s.reg SP (s.reg SP - 2)
    mem := Function.update s.mem (s.reg SP - 2) w }

/-- The word on top of the stack. -/
def top (s : State) : Word := s.mem (s.reg SP)

/-- Drop the word on top of the stack. -/
def drop (s : State) : State := s.setReg SP (s.reg SP + 2)

/-- Append an event to the ghost log. -/
def note (s : State) (e : Event) : State := { s with log := e :: s.log }

section Projections

variable (s : State) (r : Reg) (x : Nvm) (w : Word) (e : Event)

@[simp] theorem setReg_reg : (s.setReg r w).reg = Function.update s.reg r w := rfl
@[simp] theorem setReg_mem : (s.setReg r w).mem = s.mem := rfl
@[simp] theorem setReg_nvm : (s.setReg r w).nvm = s.nvm := rfl
@[simp] theorem setReg_log : (s.setReg r w).log = s.log := rfl

@[simp] theorem setNvm_reg : (s.setNvm x w).reg = s.reg := rfl
@[simp] theorem setNvm_mem : (s.setNvm x w).mem = s.mem := rfl
@[simp] theorem setNvm_nvm : (s.setNvm x w).nvm = Function.update s.nvm x w := rfl
@[simp] theorem setNvm_log : (s.setNvm x w).log = s.log := rfl

@[simp] theorem pushWord_reg :
    (s.pushWord w).reg = Function.update s.reg SP (s.reg SP - 2) := rfl
@[simp] theorem pushWord_mem :
    (s.pushWord w).mem = Function.update s.mem (s.reg SP - 2) w := rfl
@[simp] theorem pushWord_nvm : (s.pushWord w).nvm = s.nvm := rfl
@[simp] theorem pushWord_log : (s.pushWord w).log = s.log := rfl

@[simp] theorem drop_reg : s.drop.reg = Function.update s.reg SP (s.reg SP + 2) := rfl
@[simp] theorem drop_mem : s.drop.mem = s.mem := rfl
@[simp] theorem drop_nvm : s.drop.nvm = s.nvm := rfl
@[simp] theorem drop_log : s.drop.log = s.log := rfl

@[simp] theorem note_reg : (s.note e).reg = s.reg := rfl
@[simp] theorem note_mem : (s.note e).mem = s.mem := rfl
@[simp] theorem note_nvm : (s.note e).nvm = s.nvm := rfl
@[simp] theorem note_log : (s.note e).log = e :: s.log := rfl

end Projections

end State

/-- What an instruction does. -/
def Instr.exec : Instr → State → State
  | .movImm k dst, s => s.setNvm dst k
  | .movTop dst, s => s.setNvm dst s.top
  | .store r dst, s => s.setNvm dst (s.reg r)
  | .load src r, s => s.setReg r (s.nvm src)
  | .add k dst, s =>
    { s.setNvm dst (s.nvm dst + k) with
      carry := decide (2 ^ 16 ≤ (s.nvm dst).toNat + k.toNat) }
  | .addc dst, s =>
    { s.setNvm dst (s.nvm dst + BitVec.ofNat 16 s.carry.toNat) with
      carry := decide (2 ^ 16 ≤ (s.nvm dst).toNat + s.carry.toNat) }
  | .push r, s => s.pushWord (s.reg r)
  | .pop r, s => s.drop.setReg r s.top
  | .clr r, s => s.setReg r 0
  | .hwInit, s => s
  | .poisonSram, s => { s with mem := fun a => if inSram a then 0 else s.mem a }

/-- An instruction and its event. -/
def Op.exec (o : Op) (s : State) : State :=
  match o.event with
  | none => o.instr.exec s
  | some e => (o.instr.exec s).note e

/-- Whether a jump's condition holds. -/
def Cond.holds : Cond → State → Bool
  | .nvmEq x k, s => decide (s.nvm x = k)
  | .regZero r, s => decide (s.reg r = 0)

/-- A cell of the stack below `SP` that `wait_until_vcc_full` may use. -/
def State.inFrame (depth : ℕ) (s : State) (a : Word) : Prop :=
  0 < (s.reg SP - a).toNat ∧ (s.reg SP - a).toNat ≤ depth

/-- `wait_until_vcc_full` may change its frame and the registers a C function may clobber. -/
structure WaitStep (depth : ℕ) (s t : State) : Prop where
  nvm : t.nvm = s.nvm
  log : t.log = s.log
  reg : ∀ r : Reg, r.val < 11 → r ≠ SR → t.reg r = s.reg r
  mem : ∀ a, ¬s.inFrame depth a → t.mem a = s.mem a

/-- The meaning of the routines in a build. The only calls are calls of
`wait_until_vcc_full`. -/
def Build.sem (B : Build) : Semantics Op Cond State where
  exec := Op.exec
  holds := Cond.holds
  enter s := s.pushWord B.waitReturn
  env := WaitStep B.waitDepth
  leave s t := t = s.drop

/-! ### The macros of `boot_common.inc` -/

def parkIfDone (k : Routine) : Routine := .ite (.nvmEq .done 1) (.exit .park) k

def hwInit (k : Routine) : Routine := .seq Instr.hwInit.op k

def checkRegionViolation (k : Routine) : Routine :=
  .ite (.nvmEq .inRegion 0) k <|
    hwInit <| .seq (Instr.movImm 1 .violation).op <| .exit .blink

def markInRegion (k : Routine) : Routine := .seq (Instr.movImm 1 .inRegion).op k

def poisonBorSram (B : Build) (k : Routine) : Routine :=
  match B.haltMode with
  | .bor => .seq Instr.poisonSram.op k
  | _ => k

def poisonBorGprs (B : Build) (k : Routine) : Routine :=
  match B.haltMode with
  | .bor => .seqs ([4, 5, 6, 7, 8, 9, 10, 11, 12, 13, 14, 15].map fun r => (Instr.clr r).op) k
  | _ => k

def addU32ToNvmCounter (counter : Bool → Nvm) (amount : Word) : List Op :=
  [(Instr.add amount (counter false)).op, (Instr.addc (counter true)).op]

def savePcSpAndHalt (B : Build) (k : Routine) : Routine :=
  .seqs [(Instr.movTop .pc).op, (Instr.store SP .sp).op, (Instr.add 2 .sp).op,
    ⟨.movImm 0 .inRegion, some .committed⟩] <|
  match B.haltMode with
  | .bor => .exit .swbor
  | .swbor => .exit .start
  | .wait =>
    .seqs ([SR, 11, 12, 13, 14, 15].map fun r => (Instr.push r).op) <| .call <|
    .seqs ([15, 14, 13, 12, 11, SR].map fun r => (Instr.pop r).op) <| markInRegion k

def zeroNvmState (k : Routine) : Routine :=
  .seqs [(Instr.movImm 0 .pc).op, (Instr.movImm 0 .sp).op, (Instr.movImm 0 .inRegion).op] k

/-! ### The boot entry -/

/-- Where `__nvm_regs` keeps `R4`–`R15`. -/
def regSlots : List (Fin 12 × Reg) :=
  [(0, 4), (1, 5), (2, 6), (3, 7), (4, 8), (5, 9), (6, 10), (7, 11), (8, 12), (9, 13), (10, 14),
    (11, 15)]

/-- The register restore of RockClimb and SCHEMATIC, with SCHEMATIC's debug counter. -/
def restoreRegs (B : Build) (k : Routine) : Routine :=
  match B.variant with
  | .milp => k
  | .rockclimb => .seqs (regSlots.map fun p => (Instr.load (.regs p.1) p.2).op) k
  | .schematic =>
    .seqs (regSlots.map fun p => (Instr.load (.regs p.1) p.2).op) <|
    if B.deviceDebug then
      .seqs ((Instr.push SR).op :: addU32ToNvmCounter .cntRestoreReg 14 ++ [(Instr.pop SR).op]) k
    else k

/-- The recovery path waits for a full capacitor and reloads the saved PC, or clears the
recovery marker. -/
def awaitRecovery (B : Build) (k : Routine) : Routine :=
  match B.haltMode with
  | .wait => .call <| .seq (Instr.load .pc 14).op k
  | _ => .seq (Instr.movImm 0 .pc).op k

/-- The end of the recovery path, from the restored SP to the resuming `ret`. -/
def restoreAndResume (B : Build) : Routine :=
  .seq (Instr.load .sp SP).op <| .seq (Instr.push 14).op <|
  poisonBorGprs B <| restoreRegs B <| markInRegion <| .exit .ret

/-- From `_do_recovery` to the resuming `ret`. -/
def doRecovery (B : Build) : Routine :=
  hwInit <| poisonBorSram B <|
  .seqs [(Instr.add 1 (.cntRecovery false)).op, (Instr.addc (.cntRecovery true)).op] <|
  awaitRecovery B <| restoreAndResume B

/-- The fresh boot waits for a full capacitor in wait mode. -/
def awaitFreshBoot (B : Build) (k : Routine) : Routine :=
  match B.haltMode with
  | .wait => .call k
  | _ => k

/-- From `_normal_boot` to the fall through into the CRT. -/
def normalBoot (B : Build) : Routine :=
  hwInit <| zeroNvmState <| awaitFreshBoot B <| markInRegion <| .exit .crt

/-- `_milp_boot`, `_rockclimb_boot` and `_schematic_boot`. -/
def boot (B : Build) : Routine :=
  parkIfDone <| checkRegionViolation <| .seq (Instr.load .pc 14).op <|
  .ite (.regZero 14) (.label .normalBoot (normalBoot B)) (.label .doRecovery (doRecovery B))

/-! ### The boundary and the result record -/

/-- SCHEMATIC saves the registers in bulk. -/
def saveRegs (B : Build) : List Op :=
  match B.variant with
  | .schematic => regSlots.map fun p => (Instr.store p.2 (.regs p.1)).op
  | _ => []

/-- The counters of a debug build. -/
def boundaryCounters (B : Build) : List Op :=
  match B.variant with
  | .schematic => addU32ToNvmCounter .cntSaveReg 14 ++ addU32ToNvmCounter .cntBoundary 1
  | _ => addU32ToNvmCounter .cntBoundary 1

/-- What comes before the PC and the SP are saved. -/
def boundaryPrologue (B : Build) : List Op :=
  saveRegs B ++
    if B.deviceDebug then (Instr.push SR).op :: boundaryCounters B ++ [(Instr.pop SR).op] else []

/-- `__region_boundary`. -/
def regionBoundary (B : Build) : Routine :=
  .seqs (boundaryPrologue B) <| savePcSpAndHalt B <| .exit .ret

/-- `bench_commit_result`. Its stores are volatile and stay in order. -/
def benchCommitResult (result : Word) : Routine :=
  .seqs [⟨.movImm 0 .inRegion, some .recording⟩, (Instr.movImm result .result).op,
    ⟨.movImm 1 .done, some .recorded⟩] <| .exit .ret

/-- `bench_halt`. -/
def benchHalt : Routine := .seq (Instr.movImm 0 .inRegion).op <| .exit .sleep

end Bao.Runtime
