import Bao.Milp.Liveness

/-!
# Runs of a function and of its instrumented version

The uninstrumented run has one register for each value (`RegState`). The instrumented run
(`Machine`) distinguishes two copies of each value: the original result of the instruction,
and the definition that reaches the current point, which `SSAUpdater` selects from the
original and the values reloaded after the boundaries. Uses in the half block that defines the
value read the original, all others the reaching definition (`readAt`).

A boundary splits its block after the PHIs. It stores the ineligible live-in values of the
block to their backups, may lose all registers and the whole stack, and reloads exactly those
values. The entry block is not split: it only reloads.

Both runs follow a given path and record what every instruction, PHI and terminator observes:
the values of its operands and the value it loads.
-/

namespace Bao.Milp.SSACode

variable {σ Val : Type*} (F : SSACode σ Val)

/-! ### Instructions -/

/-- The value of a register. A type without bytes has only one value. -/
def getReg (regs : InstId → Val) (v : InstId) : Val :=
  if F.sizeBytes v = 0 then F.null else regs v

/-- The value of an operand. -/
def evalOperand (read : InstId → Val) : Operand Val → Val
  | .const c => c
  | .inst v => read v

/-- Read `n` data bytes. -/
def readBytes (stack : AllocaId → Contents) (ptr : AllocaId × ℕ) (n : ℕ) : List UInt8 :=
  (List.range n).map fun k =>
    if ptr.2 + k < F.data ptr.1 then stack ptr.1 (ptr.2 + k) else 0

/-- Write `n` bytes. -/
def writeBytes (stack : AllocaId → Contents) (ptr : AllocaId × ℕ) (n : ℕ) (bytes : Contents) :
    AllocaId → Contents :=
  Function.update stack ptr.1 fun k =>
    if ptr.2 ≤ k ∧ k < ptr.2 + n then bytes (k - ptr.2) else stack ptr.1 k

/-- The data of the allocas that are passed to a call. -/
def frameOf (stack : AllocaId → Contents) (frame : List AllocaId) : AllocaId → Contents :=
  fun a k => if a ∈ frame ∧ k < F.data a then stack a k else 0

/-- What an instruction does. -/
structure Effect (σ Val : Type*) where
  world : σ
  result : Val
  stack : AllocaId → Contents

/-- Execute an instruction on the values of its operands. -/
def exec (w : σ) (vals : List Val) (stack : AllocaId → Contents) : Instr σ Val → Effect σ Val
  | .call _ _ frame run =>
    let r := run w vals (F.frameOf stack frame)
    ⟨r.1, r.2.1, fun a => if a ∈ frame then r.2.2 a else stack a⟩
  | .load _ _ ptr size decode => ⟨w, decode (F.readBytes stack (ptr.resolve vals) size), stack⟩
  | .store _ ptr size bytes =>
    ⟨w, F.null, writeBytes stack (ptr.resolve vals) size (bytes vals)⟩
  | .memset _ ptr len bytes =>
    ⟨w, F.null, writeBytes stack (ptr.resolve vals) (len.eval vals) (bytes w vals)⟩
  | .memcpy _ dst src len =>
    let bytes := F.readBytes stack (src.resolve vals) (len.eval vals)
    ⟨w, F.null, writeBytes stack (dst.resolve vals) (len.eval vals) fun k => bytes.getD k 0⟩

/-- Write the result register, if any. -/
def assign (regs : InstId → Val) (dst : Option InstId) (x : Val) : InstId → Val :=
  match dst with
  | none => regs
  | some v => Function.update regs v x

/-- The values the PHIs of `b` take when control comes from `p`. -/
def phiValues (read : InstId → Val) (p b : BlockId) : List (InstId × Val) :=
  (F.phis b).map fun φ => (φ.dst, (φ.incoming.lookup p).elim F.null (evalOperand read))

/-- Write several registers. -/
def assignAll (regs : InstId → Val) (as : List (InstId × Val)) : InstId → Val :=
  as.foldl (fun r e => Function.update r e.1 e.2) regs

/-! ### The uninstrumented run -/

/-- The state of the uninstrumented run. -/
structure RegState (σ Val : Type*) where
  world : σ
  regs : InstId → Val
  stack : AllocaId → Contents
  trace : List (List Val)

/-- One instruction. -/
def step (s : RegState σ Val) (i : Instr σ Val) : RegState σ Val :=
  let vals := i.args.map (evalOperand (F.getReg s.regs))
  let e := F.exec s.world vals s.stack i
  ⟨e.world, assign s.regs i.dst e.result, e.stack, s.trace ++ [vals ++ [e.result]]⟩

/-- The PHIs of a block, all at once. -/
def enter (prev : Option BlockId) (b : BlockId) (s : RegState σ Val) : RegState σ Val :=
  match prev with
  | none => s
  | some p =>
    let as := F.phiValues (F.getReg s.regs) p b
    { s with regs := assignAll s.regs as, trace := s.trace ++ [as.map Prod.snd] }

/-- One block. -/
def execBlock (prev : Option BlockId) (b : BlockId) (s : RegState σ Val) : RegState σ Val :=
  let s := (F.body b).foldl F.step (F.enter prev b s)
  { s with trace := s.trace ++ [(F.termArgs b).map (evalOperand (F.getReg s.regs))] }

/-- A path. -/
def run : Option BlockId → RegState σ Val → List BlockId → RegState σ Val
  | _, s, [] => s
  | prev, s, b :: w => run (some b) (F.execBlock prev b s) w

/-! ### The instrumented run -/

/-- The state of the instrumented run. -/
structure Machine (σ Val : Type*) where
  world : σ
  orig : InstId → Val
  cur : InstId → Val
  stack : AllocaId → Contents
  valBackup : InstId → Val
  memBackup : AllocaId → Contents
  trace : List (List Val)

/-- What registers and stack hold after a power loss. -/
structure Lost (Val : Type*) where
  orig : InstId → Val
  cur : InstId → Val
  stack : AllocaId → Contents

/-- The halves of a split block. -/
inductive Half
  | top
  | bottom

section Instrumented

variable (regionStart : BlockId → Bool)

/-- The boundary of a region start other than the entry splits the block. -/
def isSplit (b : BlockId) : Bool := regionStart b && b ≠ F.cfg.entryBlock

/-- A value with a restore somewhere: its uses are rewritten. -/
def hasRestore (v : InstId) : Bool :=
  F.cfg.blocks.any fun b => regionStart b && (.inst v ∈ F.ineligLiveIn b)

/-- The half block is the one that holds the definition: PHIs stay in the top half, all other
instructions move to the bottom half. -/
def inDefHalf (h : Half) (b : BlockId) (v : InstId) : Bool :=
  F.defBlock v = b && (!F.isSplit regionStart b ||
    match h with
    | .top => F.isPhi v
    | .bottom => !F.isPhi v)

/-- The registers that rewritten uses of a value read. -/
def reaching (m : Machine σ Val) (v : InstId) : Val :=
  F.getReg (if F.hasRestore regionStart v then m.cur else m.orig) v

/-- **The rewritten uses.** A use in a half block: the original in the half that defines the
value, the reaching definition elsewhere. -/
def readAt (h : Half) (b : BlockId) (m : Machine σ Val) (v : InstId) : Val :=
  if F.inDefHalf regionStart h b v then F.getReg m.orig v else F.reaching regionStart m v

/-- One instruction, in the bottom half of its block. -/
def stepInstr (b : BlockId) (m : Machine σ Val) (i : Instr σ Val) : Machine σ Val :=
  let vals := i.args.map (evalOperand (F.readAt regionStart .bottom b m))
  let e := F.exec m.world vals m.stack i
  { m with
    world := e.world
    orig := assign m.orig i.dst e.result
    cur := assign m.cur i.dst e.result
    stack := e.stack
    trace := m.trace ++ [vals ++ [e.result]] }

/-- The PHIs of a block. Their operands are uses in the bottom half of the incoming block. -/
def enterInstr (prev : Option BlockId) (b : BlockId) (m : Machine σ Val) : Machine σ Val :=
  match prev with
  | none => m
  | some p =>
    let as := F.phiValues (F.readAt regionStart .bottom p m) p b
    { m with
      orig := assignAll m.orig as
      cur := assignAll m.cur as
      trace := m.trace ++ [as.map Prod.snd] }

/-- The commit stores of a boundary: every ineligible live-in value with bytes goes to its
backup. The stores are in the top half of the block. -/
def commit (b : BlockId) (m : Machine σ Val) : Machine σ Val :=
  { m with
    valBackup := fun v =>
      if .inst v ∈ F.ineligLiveIn b ∧ F.sizeBytes v ≠ 0 then F.readAt regionStart .top b m v
      else m.valBackup v
    memBackup := fun a k =>
      if .alloca a ∈ F.ineligLiveIn b ∧ k < (F.allocaType a).totalBytes then m.stack a k
      else m.memBackup a k }

/-- Registers and stack after the boundary. -/
def lose (loss : Option (Lost Val)) (m : Machine σ Val) : Machine σ Val :=
  match loss with
  | none => m
  | some l => { m with orig := l.orig, cur := l.cur, stack := l.stack }

/-- The restores: every ineligible live-in value is reloaded from its backup. -/
def restore (b : BlockId) (m : Machine σ Val) : Machine σ Val :=
  { m with
    cur := fun v => if .inst v ∈ F.ineligLiveIn b then m.valBackup v else m.cur v
    stack := fun a k =>
      if .alloca a ∈ F.ineligLiveIn b ∧ k < (F.allocaType a).totalBytes then m.memBackup a k
      else m.stack a k }

/-- `insertRegionBoundaries`: commit, boundary and restore after the PHIs of a region start;
the entry block only restores. -/
def boundary (b : BlockId) (loss : Option (Lost Val)) (m : Machine σ Val) : Machine σ Val :=
  if regionStart b then
    if b = F.cfg.entryBlock then F.restore b m
    else F.restore b (lose loss (F.commit regionStart b m))
  else m

/-- One block. -/
def execBlockInstr (prev : Option BlockId) (b : BlockId) (loss : Option (Lost Val))
    (m : Machine σ Val) : Machine σ Val :=
  let m := (F.body b).foldl (F.stepInstr regionStart b)
    (F.boundary regionStart b loss (F.enterInstr regionStart prev b m))
  { m with
    trace := m.trace ++
      [(F.termArgs b).map (evalOperand (F.readAt regionStart .bottom b m))] }

/-- A path, with what is lost at each block. -/
def runInstr : Option BlockId → Machine σ Val → List (BlockId × Option (Lost Val)) →
    Machine σ Val
  | _, m, [] => m
  | prev, m, (b, loss) :: w =>
    runInstr (some b) (F.execBlockInstr regionStart prev b loss m) w

end Instrumented

end Bao.Milp.SSACode
