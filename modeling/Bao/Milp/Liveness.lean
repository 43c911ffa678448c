import Bao.Dataflow.RoundRobin
import Bao.Milp.SSAFunction

/-!
# Liveness of allocas and SSA values

`computeIneligAllocaLiveness` and `computeIneligSSALiveness`: backward dataflow problems,
solved by sweeping over the blocks until nothing changes (`Dataflow.solve`).

An alloca is live into a block that reads it before a full store, or that has no full store
and a successor it is live into. An SSA value is live into the blocks from which a use is
reached without passing its defining block; a PHI operand is used in its incoming block, and a
PHI counts as live into its own block, because a boundary is placed after the PHIs.
-/

namespace Bao.Milp

namespace SSACode

variable {σ Val : Type*} (F : SSACode σ Val)

/-! ### Allocas -/

/-- A write that provably overwrites the whole alloca: a direct store or memory intrinsic of
constant length that covers the kill threshold. -/
def isMustStore (a : AllocaId) : Instr σ Val → Bool
  | .store _ (.direct d) size _ => d = a && F.data a ≤ size
  | .memset _ (.direct d) (.const n) _ => d = a && F.data a ≤ n
  | .memcpy _ (.direct d) _ (.const n) => d = a && F.data a ≤ n
  | _ => false

/-- `BlockVarInfo`. -/
structure BlockVarInfo where
  loadBeforeMustStore : Bool
  hasMustStore : Bool

/-- One instruction of the scan of a block. -/
def scanInstr (a : AllocaId) (info : BlockVarInfo) (i : Instr σ Val) : BlockVarInfo where
  loadBeforeMustStore := info.loadBeforeMustStore || (F.isRef i a && !info.hasMustStore)
  hasMustStore := info.hasMustStore || F.isMustStore a i

/-- The scan of a block. `seenMustStore` of the source is `hasMustStore` so far. -/
def blockVarInfo (a : AllocaId) (b : BlockId) : BlockVarInfo :=
  (F.body b).foldl (F.scanInstr a) ⟨false, false⟩

/-- The equations of the dataflow problem: `inl b` is `liveOut[b]`, `inr b` is `liveIn[b]`. -/
def allocaTransfer (a : AllocaId) (live : BlockId ⊕ BlockId → Bool) : BlockId ⊕ BlockId → Bool
  | .inl b => (F.cfg.successors b).any fun s => live (.inr s)
  | .inr b => (F.blockVarInfo a b).loadBeforeMustStore ||
      (live (.inl b) && !(F.blockVarInfo a b).hasMustStore)

/-- `computeIneligAllocaLiveness`. -/
def allocaLiveIn (a : AllocaId) (b : BlockId) : Bool :=
  Dataflow.solve (F.allocaTransfer a) (F.cfg.blocks.flatMap fun b => [.inl b, .inr b]) (.inr b)

/-! ### SSA values -/

/-- The blocks with a use: the incoming blocks of PHI operands and the other blocks with a use
by an instruction. -/
def useBlocks (v : InstId) : List BlockId :=
  F.phiUseBlocks v ++ F.cfg.blocks.filter fun b => b ≠ F.defBlock v && F.usedIn v b

/-- The equations of the dataflow problem. -/
def ssaTransfer (v : InstId) (live : BlockId → Bool) (b : BlockId) : Bool :=
  b ∈ F.useBlocks v || (F.cfg.successors b).any live

/-- The solution on the blocks other than the defining one. -/
def ssaLive (v : InstId) : BlockId → Bool :=
  Dataflow.solve (F.ssaTransfer v) (F.cfg.blocks.filter fun b => b ≠ F.defBlock v)

/-- `computeIneligSSALiveness`. -/
def ssaLiveIn (v : InstId) (b : BlockId) : Bool :=
  if F.useBlocks v = [] && !F.isPhi v then false
  else if b = F.defBlock v then F.isPhi v else F.ssaLive v b

/-- `getIneligLiveIn`. -/
def ineligLiveIn (b : BlockId) : List Value :=
  if b ∈ F.cfg.blocks then
    F.ineligibleObjs.filter fun
      | .alloca a => F.allocaLiveIn a b
      | .inst v => F.ssaLiveIn v b
      | .global _ => false
  else []

variable {F}

/-! ### The scan of a block -/

/-- The alloca is read in the list before a full store. -/
def loadsFirst (F : SSACode σ Val) (a : AllocaId) : List (Instr σ Val) → Bool
  | [] => false
  | i :: rest => F.isRef i a || (!F.isMustStore a i && loadsFirst F a rest)

theorem foldl_scanInstr (a : AllocaId) (l : List (Instr σ Val)) (info : BlockVarInfo) :
    l.foldl (F.scanInstr a) info =
      ⟨info.loadBeforeMustStore || (!info.hasMustStore && F.loadsFirst a l),
        info.hasMustStore || l.any (F.isMustStore a)⟩ := by
  induction l generalizing info with
  | nil => simp [loadsFirst]
  | cons i l ih =>
    rw [List.foldl_cons, ih, scanInstr, loadsFirst, List.any_cons]
    cases info.loadBeforeMustStore <;> cases info.hasMustStore <;> cases F.isRef i a <;>
      cases F.isMustStore a i <;> simp

theorem blockVarInfo_eq (a : AllocaId) (b : BlockId) :
    F.blockVarInfo a b = ⟨F.loadsFirst a (F.body b), (F.body b).any (F.isMustStore a)⟩ := by
  simp [blockVarInfo, foldl_scanInstr]

/-! ### The solutions -/

theorem allocaTransfer_monotone (a : AllocaId) : Dataflow.Monotone (F.allocaTransfer a) := by
  intro s t hst k hk
  cases k with
  | inl b =>
    simp only [allocaTransfer, List.any_eq_true] at hk ⊢
    obtain ⟨c, hc, hlive⟩ := hk
    exact ⟨c, hc, hst _ hlive⟩
  | inr b =>
    simp only [allocaTransfer, Bool.or_eq_true, Bool.and_eq_true] at hk ⊢
    exact hk.imp id fun h => ⟨hst _ h.1, h.2⟩

theorem ssaTransfer_monotone (v : InstId) : Dataflow.Monotone (F.ssaTransfer v) := by
  intro s t hst b hb
  simp only [ssaTransfer, Bool.or_eq_true, List.any_eq_true] at hb ⊢
  exact hb.imp id fun ⟨c, hc, hlive⟩ => ⟨c, hc, hst c hlive⟩

/-- An alloca is live in the middle of a block: it is read first in the rest, or the rest has
no full store and it is live into a successor. -/
def AllocaLive (F : SSACode σ Val) (a : AllocaId) (b : BlockId) (rest : List (Instr σ Val)) :
    Prop :=
  F.loadsFirst a rest = true ∨
    rest.any (F.isMustStore a) = false ∧ ∃ c, F.cfg.Succ b c ∧ F.allocaLiveIn a c = true

/-- **The liveness of allocas covers their reads.** -/
theorem allocaLiveIn_of_live {a : AllocaId} {b : BlockId} (hb : b ∈ F.cfg.blocks)
    (h : F.AllocaLive a b (F.body b)) : F.allocaLiveIn a b = true := by
  have hcell : ∀ k ∈ [Sum.inl b, Sum.inr b],
      k ∈ F.cfg.blocks.flatMap fun b => [Sum.inl b, Sum.inr b] :=
    fun k hk => List.mem_flatMap.mpr ⟨b, hb, hk⟩
  have hout := Dataflow.solve_fixed (F.allocaTransfer_monotone a) _ (hcell (.inl b) (by simp))
  have hin := Dataflow.solve_fixed (F.allocaTransfer_monotone a) _ (hcell (.inr b) (by simp))
  rw [allocaLiveIn, ← hin, allocaTransfer, blockVarInfo_eq, Bool.or_eq_true, Bool.and_eq_true]
  refine h.imp id fun ⟨hno, c, hc, hlive⟩ => ⟨?_, by simp [hno]⟩
  rw [← hout, allocaTransfer, List.any_eq_true]
  exact ⟨c, hc, hlive⟩

/-- The solution satisfies its equations outside the defining block. -/
theorem ssaTransfer_ssaLive {v : InstId} {b : BlockId} (hb : b ∈ F.cfg.blocks)
    (hne : b ≠ F.defBlock v) : F.ssaTransfer v (F.ssaLive v) b = F.ssaLive v b := by
  have hcell : b ∈ F.cfg.blocks.filter fun b => b ≠ F.defBlock v :=
    List.mem_filter.mpr ⟨hb, by simpa using hne⟩
  exact Dataflow.solve_fixed (F.ssaTransfer_monotone v) b hcell

/-- A block with a use, other than the defining block, is live. -/
theorem ssaLive_of_use {v : InstId} {b : BlockId} (hb : b ∈ F.cfg.blocks)
    (hne : b ≠ F.defBlock v) (huse : b ∈ F.useBlocks v) : F.ssaLive v b = true := by
  rw [← ssaTransfer_ssaLive hb hne, ssaTransfer]
  simp [huse]

/-- Liveness propagates backwards up to the defining block. -/
theorem ssaLive_of_succ {v : InstId} {b c : BlockId} (hsucc : F.cfg.Succ b c)
    (hne : b ≠ F.defBlock v) (hlive : F.ssaLive v c = true) : F.ssaLive v b = true := by
  rw [← ssaTransfer_ssaLive hsucc.src_mem hne, ssaTransfer, Bool.or_eq_true, List.any_eq_true]
  exact .inr ⟨c, hsucc, hlive⟩

/-- **A live value has a use ahead**, on a path that avoids the defining block. -/
theorem exists_use_of_ssaLive {v : InstId} {b : BlockId} (hlive : F.ssaLive v b = true) :
    b ∈ F.cfg.blocks ∧ b ≠ F.defBlock v ∧ ∃ u ∈ F.useBlocks v, u ≠ F.defBlock v ∧
      Relation.ReflTransGen (F.AvoidStep (F.defBlock v)) b u := by
  refine Dataflow.solve_induction (F.ssaTransfer_monotone v)
    (P := fun b => b ∈ F.cfg.blocks ∧ b ≠ F.defBlock v ∧ ∃ u ∈ F.useBlocks v,
      u ≠ F.defBlock v ∧ Relation.ReflTransGen (F.AvoidStep (F.defBlock v)) b u)
    (fun s hs k hk htrue => ?_) hlive
  obtain ⟨hmem, hne⟩ := List.mem_filter.mp hk
  have hne' : k ≠ F.defBlock v := by simpa using hne
  rw [ssaTransfer, Bool.or_eq_true, List.any_eq_true, decide_eq_true_eq] at htrue
  rcases htrue with huse | ⟨c, hc, hset⟩
  · exact ⟨hmem, hne', k, huse, hne', .refl⟩
  · obtain ⟨-, hcne, u, hu, hune, hpath⟩ := hs c hset
    exact ⟨hmem, hne', u, hu, hune, .head ⟨hc, hcne⟩ hpath⟩

end SSACode

namespace SSAFunction

variable {σ Val : Type*} (F : SSAFunction σ Val)

theorem mem_ineligLiveIn_alloca {a : AllocaId} {b : BlockId} :
    .alloca a ∈ F.ineligLiveIn b ↔
      b ∈ F.cfg.blocks ∧ a ∈ F.allocas ∧ F.allocaLiveIn a b = true := by
  rw [SSACode.ineligLiveIn]
  split_ifs with hb
  · rw [List.mem_filter, mem_ineligibleObjs_alloca]
    simp [hb]
  · simp [hb]

theorem mem_ineligLiveIn_inst {v : InstId} {b : BlockId} :
    .inst v ∈ F.ineligLiveIn b ↔ b ∈ F.cfg.blocks ∧ (v ∈ F.values ∧ F.needsTracking v = true) ∧
      F.ssaLiveIn v b = true := by
  rw [SSACode.ineligLiveIn]
  split_ifs with hb
  · rw [List.mem_filter, mem_ineligibleObjs_inst]
    simp [hb]
  · simp [hb]

end SSAFunction

end Bao.Milp
