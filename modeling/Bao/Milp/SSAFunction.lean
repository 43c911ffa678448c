import Bao.Milp.SummaryBudget

/-!
# Functions in SSA form

The code of a function without arguments, as far as the checkpoint passes look at it: blocks
with PHIs, a body and the operands of the terminator, and static allocas. An instruction is
what it does to the registers and to the allocas; everything else it may touch (globals,
devices) is one opaque world `σ`, which survives a power loss.

`SSACode` is the bare code, `SSAFunction` adds what the LLVM verifier checks of it: values are
defined once, before their uses in the same block (`BodyAvail`), in a dominating block
otherwise (`Dominates`). Alias analysis is a parameter, with its soundness for reads as a
field.

`ineligibleObjs` is the list of objects the passes back up: all allocas, and the SSA values
with a use in another block, by a PHI, or, for a PHI, any use at all.
-/

namespace Bao.Milp

/-- An instruction with a result, as the function identifies it. -/
abbrev InstId := ℕ

/-- A static alloca. -/
abbrev AllocaId := ℕ

/-- The bytes of an alloca. -/
abbrev Contents := ℕ → UInt8

/-- An operand: a constant or the result of an instruction. -/
inductive Operand (Val : Type*)
  | const (c : Val)
  | inst (v : InstId)

/-- A pointer into an alloca: the alloca itself, up to pointer casts, or an address computed
from the operands. -/
inductive Pointer (Val : Type*)
  | direct (a : AllocaId)
  | derived (target : List Val → AllocaId × ℕ)

/-- The length of a memory intrinsic. -/
inductive Length (Val : Type*)
  | const (n : ℕ)
  | dynamic (n : List Val → ℕ)

/-- The instructions. `call` stands for everything that is not a memory access of its own:
arithmetic, accesses to globals, and calls that get the allocas in `frame`. -/
inductive Instr (σ Val : Type*)
  | call (dst : Option InstId) (args : List (Operand Val)) (frame : List AllocaId)
      (run : σ → List Val → (AllocaId → Contents) → σ × Val × (AllocaId → Contents))
  | load (dst : InstId) (args : List (Operand Val)) (ptr : Pointer Val) (size : ℕ)
      (decode : List UInt8 → Val)
  | store (args : List (Operand Val)) (ptr : Pointer Val) (size : ℕ)
      (bytes : List Val → Contents)
  | memset (args : List (Operand Val)) (ptr : Pointer Val) (len : Length Val)
      (bytes : σ → List Val → Contents)
  | memcpy (args : List (Operand Val)) (dst src : Pointer Val) (len : Length Val)

/-- A PHI with one operand for each predecessor. -/
structure Phi (Val : Type*) where
  dst : InstId
  incoming : List (BlockId × Operand Val)

/-- The type of an alloca: the allocation and store sizes of the element type and the number
of elements. -/
structure AllocaType where
  elemBytes : ℕ
  storeBytes : ℕ
  elemCount : ℕ
  store_le_elem : storeBytes ≤ elemBytes

/-- An array of `n` bytes. -/
def AllocaType.bytes (n : ℕ) : AllocaType := ⟨1, 1, n, le_rfl⟩

/-- The size of the backup. -/
def AllocaType.totalBytes (t : AllocaType) : ℕ := t.elemBytes * t.elemCount

/-- The kill threshold: a write of this many bytes overwrites all data. The tail padding of a
single element carries none. -/
def AllocaType.killBytes (t : AllocaType) : ℕ :=
  if t.elemCount = 1 then t.storeBytes else t.totalBytes

theorem AllocaType.kill_le_total (t : AllocaType) : t.killBytes ≤ t.totalBytes := by
  rw [killBytes]
  split_ifs with h
  · rw [totalBytes, h, mul_one]
    exact t.store_le_elem
  · exact le_rfl

section Operands

variable {σ Val : Type*}

/-- The values an operand uses. -/
def Operand.uses : Operand Val → List InstId
  | .const _ => []
  | .inst v => [v]

/-- The alloca and offset a pointer refers to, for the given operand values. -/
def Pointer.resolve : Pointer Val → List Val → AllocaId × ℕ
  | .direct a, _ => (a, 0)
  | .derived target, vals => target vals

/-- The number of bytes, for the given operand values. -/
def Length.eval : Length Val → List Val → ℕ
  | .const n, _ => n
  | .dynamic n, vals => n vals

namespace Instr

/-- The operands. -/
def args : Instr σ Val → List (Operand Val)
  | .call _ args _ _ => args
  | .load _ args _ _ _ => args
  | .store args _ _ _ => args
  | .memset args _ _ _ => args
  | .memcpy args _ _ _ => args

/-- The result register. -/
def dst : Instr σ Val → Option InstId
  | .call dst _ _ _ => dst
  | .load dst _ _ _ _ => some dst
  | _ => none

/-- The values an instruction uses. -/
def uses (i : Instr σ Val) : List InstId := i.args.flatMap Operand.uses

/-- The instruction reads the alloca for some operand values. -/
def MayRead : Instr σ Val → AllocaId → Prop
  | .call _ _ frame _, a => a ∈ frame
  | .load _ _ ptr _ _, a => ∃ vals, (ptr.resolve vals).1 = a
  | .memcpy _ _ src _, a => ∃ vals, (src.resolve vals).1 = a
  | _, _ => False

end Instr

end Operands

/-- The code of a function. -/
structure SSACode (σ Val : Type*) where
  cfg : CFGAnalysis
  phis : BlockId → List (Phi Val)
  body : BlockId → List (Instr σ Val)
  termArgs : BlockId → List (Operand Val)
  /-- The static allocas, at the top of the entry block. -/
  allocas : List AllocaId
  allocaType : AllocaId → AllocaType
  defBlock : InstId → BlockId
  isPhi : InstId → Bool
  /-- The allocation size of the type of a value. -/
  sizeBytes : InstId → ℕ
  /-- The only value of a type without bytes, and the initial value of the backups. -/
  null : Val
  /-- `isRefSet` and `isModSet` of `AA.getModRefInfo`. -/
  isRef : Instr σ Val → AllocaId → Bool
  isMod : Instr σ Val → AllocaId → Bool

namespace SSACode

variable {σ Val : Type*} (F : SSACode σ Val)

/-! ### Definitions and uses -/

/-- The PHIs of a block. -/
def phiDefs (b : BlockId) : List InstId := (F.phis b).map Phi.dst

/-- The results of the body of a block. -/
def instrDefs (b : BlockId) : List InstId := (F.body b).filterMap Instr.dst

/-- All values, in function order. -/
def values : List InstId := F.cfg.blocks.flatMap fun b => F.phiDefs b ++ F.instrDefs b

/-- A value is an operand of an instruction of the body or of the terminator. -/
def usedIn (v : InstId) (b : BlockId) : Bool :=
  ((F.body b).any fun i => v ∈ i.uses) || ((F.termArgs b).flatMap Operand.uses).contains v

/-- The incoming blocks of the PHI operands a value is. -/
def phiUseBlocks (v : InstId) : List BlockId :=
  F.cfg.blocks.flatMap fun b => (F.phis b).flatMap fun φ =>
    (φ.incoming.filter fun e => v ∈ e.2.uses).map Prod.fst

/-- The test of `identifyIneligibleSSAValues`: a PHI with uses, or another value with a use by
a PHI or in another block. -/
def needsTracking (v : InstId) : Bool :=
  F.phiUseBlocks v ≠ [] ||
    F.cfg.blocks.any fun b => (F.isPhi v || b ≠ F.defBlock v) && F.usedIn v b

/-- `getIneligibleObjs`: the allocas and the tracked SSA values. -/
def ineligibleObjs : List Value :=
  F.allocas.map .alloca ++ (F.values.filter F.needsTracking).map .inst

/-- `getIneligDefIndicator`: a block defines an alloca that it may write, and the SSA values of
its own. -/
def ineligDefIndicator (b : BlockId) : Value → Bool
  | .alloca a => (F.body b).any fun i => F.isMod i a
  | .inst v => .inst v ∈ F.ineligibleObjs && F.defBlock v = b
  | .global _ => false

/-- The bytes of an alloca that carry data. -/
def data (a : AllocaId) : ℕ := (F.allocaType a).killBytes

/-! ### What the verifier checks -/

/-- A step that does not go to the block `d`. -/
def AvoidStep (d b c : BlockId) : Prop := F.cfg.Succ b c ∧ c ≠ d

/-- `d` dominates `b`: every path from the entry to `b` goes through `d`. -/
def Dominates (d b : BlockId) : Prop :=
  d ≠ F.cfg.entryBlock → ¬Relation.ReflTransGen (F.AvoidStep d) F.cfg.entryBlock b

/-- A value is available in a block after the results `done` of its body: it is one of them or
a PHI of the block, or it is defined in a dominating block. -/
def AvailableAt (b : BlockId) (done : List InstId) (v : InstId) : Prop :=
  if F.defBlock v = b then if F.isPhi v then v ∈ F.phiDefs b else v ∈ done
  else v ∈ F.values ∧ F.Dominates (F.defBlock v) b

/-- The operands of a body are available one after the other, and those of the terminator at
the end. -/
def BodyAvail (b : BlockId) : List InstId → List (Instr σ Val) → Prop
  | done, [] => ∀ v ∈ (F.termArgs b).flatMap Operand.uses, F.AvailableAt b done v
  | done, i :: rest => (∀ v ∈ i.uses, F.AvailableAt b done v) ∧
      BodyAvail b (done ++ i.dst.toList) rest

instance (d b : BlockId) : Decidable (F.Dominates d b) :=
  decidable_of_iff (d ≠ F.cfg.entryBlock → b ∉ Graph.closure
      (fun c => (F.cfg.successors c).filter fun s => s ≠ d) F.cfg.blocks [F.cfg.entryBlock]) <| by
    have hstep : (fun b c => c ∈ (F.cfg.successors b).filter fun s => s ≠ d) = F.AvoidStep d := by
      funext b c
      simp [AvoidStep, CFGAnalysis.Succ]
    rw [Dominates, Graph.mem_closure_iff
      (fun a c hc => CFGAnalysis.Succ.dst_mem (List.mem_of_mem_filter hc))
      (by simp [F.cfg.entry_mem]) (by simp), hstep]
    simp only [List.mem_singleton, exists_eq_left]

instance (b : BlockId) (done : List InstId) (v : InstId) : Decidable (F.AvailableAt b done v) :=
  inferInstanceAs (Decidable (if F.defBlock v = b then if F.isPhi v then v ∈ F.phiDefs b
    else v ∈ done else v ∈ F.values ∧ F.Dominates (F.defBlock v) b))

instance decidableBodyAvail (b : BlockId) :
    ∀ (done : List InstId) (l : List (Instr σ Val)), Decidable (F.BodyAvail b done l)
  | _, [] => inferInstanceAs (Decidable (∀ v ∈ (F.termArgs b).flatMap Operand.uses, _))
  | done, i :: rest =>
    haveI := decidableBodyAvail b (done ++ i.dst.toList) rest
    inferInstanceAs (Decidable (_ ∧ _))

end SSACode

/-- A function in SSA form. -/
structure SSAFunction (σ Val : Type*) extends SSACode σ Val where
  allocas_nodup : allocas.Nodup
  values_nodup : toSSACode.values.Nodup
  phi_def : ∀ b ∈ cfg.blocks, ∀ φ ∈ phis b, defBlock φ.dst = b ∧ isPhi φ.dst = true
  instr_def : ∀ b ∈ cfg.blocks, ∀ i ∈ body b, ∀ v ∈ i.dst, defBlock v = b ∧ isPhi v = false
  entry_phis : phis cfg.entryBlock = []
  /-- Every PHI has an operand for every predecessor, available at its end. -/
  phi_incoming : ∀ b ∈ cfg.blocks, ∀ φ ∈ phis b, ∀ p ∈ cfg.predecessors b,
    p ∈ φ.incoming.map Prod.fst
  phi_avail : ∀ b ∈ cfg.blocks, ∀ φ ∈ phis b, ∀ e ∈ φ.incoming,
    ∀ v ∈ e.2.uses, toSSACode.AvailableAt e.1 (toSSACode.instrDefs e.1) v
  body_avail : ∀ b ∈ cfg.blocks, cfg.Reachable b → toSSACode.BodyAvail b [] (body b)
  /-- Alias analysis is sound for reads. -/
  ref_sound : ∀ i a, i.MayRead a → isRef i a = true
  read_mem : ∀ b ∈ cfg.blocks, ∀ i ∈ body b, ∀ a, i.MayRead a → a ∈ allocas

namespace SSAFunction

variable {σ Val : Type*} (F : SSAFunction σ Val)

/-- The values of a block, by kind. -/
theorem mem_values {v : InstId} :
    v ∈ F.values ↔ F.defBlock v ∈ F.cfg.blocks ∧
      if F.isPhi v then v ∈ F.phiDefs (F.defBlock v) else v ∈ F.instrDefs (F.defBlock v) := by
  have hphi : ∀ b ∈ F.cfg.blocks, v ∈ F.phiDefs b → F.defBlock v = b ∧ F.isPhi v = true := by
    intro b hb hv
    obtain ⟨φ, hφ, rfl⟩ := List.mem_map.mp hv
    exact F.phi_def b hb φ hφ
  have hinst : ∀ b ∈ F.cfg.blocks, v ∈ F.instrDefs b →
      F.defBlock v = b ∧ F.isPhi v = false := by
    intro b hb hv
    obtain ⟨i, hi, hdst⟩ := List.mem_filterMap.mp hv
    exact F.instr_def b hb i hi v hdst
  simp only [SSACode.values, List.mem_flatMap, List.mem_append]
  constructor
  · rintro ⟨b, hb, hv | hv⟩
    · obtain ⟨rfl, hkind⟩ := hphi b hb hv
      exact ⟨hb, by rwa [if_pos hkind]⟩
    · obtain ⟨rfl, hkind⟩ := hinst b hb hv
      exact ⟨hb, by rwa [if_neg (by simp [hkind])]⟩
  · rintro ⟨hb, hv⟩
    refine ⟨F.defBlock v, hb, ?_⟩
    split_ifs at hv
    · exact .inl hv
    · exact .inr hv

theorem mem_ineligibleObjs_inst {v : InstId} :
    .inst v ∈ F.ineligibleObjs ↔ v ∈ F.values ∧ F.needsTracking v = true := by
  simp [SSACode.ineligibleObjs]

theorem mem_ineligibleObjs_alloca {a : AllocaId} :
    .alloca a ∈ F.ineligibleObjs ↔ a ∈ F.allocas := by
  simp [SSACode.ineligibleObjs]

end SSAFunction

end Bao.Milp
