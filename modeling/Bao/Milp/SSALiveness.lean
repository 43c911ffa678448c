import Bao.Dataflow.MemoryLiveness
import Bao.Milp.Liveness

/-!
# Exactness of SSA liveness

`computeIneligSSALiveness` terminates, and a tracked value is live into a block exactly when it
is a PHI of the block, or the block is not the defining one and a use is reached without passing
the defining block (`ssa_liveness_exact`).

A boundary is placed after the PHIs of its block. What a run does from there is a sequence of
steps that read and define values (`runTouches`): the instructions of each block one by one, the
terminator, and all PHIs of the next block at once, with the operands that belong to the edge.
Whenever such a run reads a value that it has not defined before, the value is live.
-/

namespace Bao.Milp

open Dataflow

namespace SSACode

variable {σ Val : Type*} (F : SSACode σ Val)

/-- A use of a value in a block; a PHI operand is used in its incoming block. -/
def UsedAt (v : InstId) (b : BlockId) : Prop :=
  b ∈ F.cfg.blocks ∧ F.usedIn v b = true ∨ b ∈ F.phiUseBlocks v

/-- A use is reached on a path without the defining block. -/
def UseAhead (v : InstId) (b : BlockId) : Prop :=
  b ≠ F.defBlock v ∧ ∃ u, F.UsedAt v u ∧ u ≠ F.defBlock v ∧
    Relation.ReflTransGen (F.AvoidStep (F.defBlock v)) b u

/-! ### Steps of a run -/

/-- The values a step of a run reads, and those it defines. -/
structure Touch where
  reads : List InstId
  defs : List InstId

/-- The instructions of a block after its PHIs, and the terminator. -/
def bodyTouches (b : BlockId) (l : List (Instr σ Val)) : List Touch :=
  l.map (fun i => ⟨i.uses, i.dst.toList⟩) ++ [⟨(F.termArgs b).flatMap Operand.uses, []⟩]

/-- The PHIs of `c` when control comes from `b`. -/
def phiTouch (b c : BlockId) : Touch where
  reads := (F.phis c).flatMap fun φ => (φ.incoming.lookup b).elim [] Operand.uses
  defs := F.phiDefs c

/-- The run that goes on after the PHIs of a block. -/
def runTouches : BlockId → List BlockId → List Touch
  | b, [] => F.bodyTouches b (F.body b)
  | b, c :: w => F.bodyTouches b (F.body b) ++ F.phiTouch b c :: runTouches c w

/-- What the steps do to one value. -/
def touchAccesses (v : InstId) (ts : List Touch) : List Access :=
  ts.map fun t => ⟨v ∈ t.reads, v ∈ t.defs⟩

/-- The steps use the value that was computed before them. -/
def UsesOld (v : InstId) (ts : List Touch) : Prop := ReadsFirst (touchAccesses v ts)

variable {F}

@[simp] theorem not_usesOld_nil {v : InstId} : ¬UsesOld v [] := not_readsFirst_nil

theorem usesOld_cons {v : InstId} {t : Touch} {ts : List Touch} :
    UsesOld v (t :: ts) ↔ v ∈ t.reads ∨ v ∉ t.defs ∧ UsesOld v ts := by
  rw [UsesOld, touchAccesses, List.map_cons, readsFirst_cons, decide_eq_true_eq,
    decide_eq_false_iff_not]
  rfl

theorem usesOld_append {v : InstId} {ts us : List Touch} :
    UsesOld v (ts ++ us) ↔ UsesOld v ts ∨ (∀ t ∈ ts, v ∉ t.defs) ∧ UsesOld v us := by
  rw [UsesOld, touchAccesses, List.map_append, readsFirst_append]
  simp [UsesOld, touchAccesses, List.any_eq_false]

/-- A value that a block uses before it defines it is used in the block. -/
theorem usedIn_of_usesOld {v : InstId} {b : BlockId}
    (h : UsesOld v (F.bodyTouches b (F.body b))) : F.usedIn v b = true := by
  obtain ⟨pre, a, post, heq, hread, -⟩ := h
  have hmem : a ∈ touchAccesses v (F.bodyTouches b (F.body b)) := heq ▸ by simp
  obtain ⟨t, ht, rfl⟩ := List.mem_map.mp hmem
  have hv : v ∈ t.reads := by simpa using hread
  rw [usedIn, Bool.or_eq_true, List.any_eq_true]
  rcases List.mem_append.mp ht with ht | ht
  · obtain ⟨i, hi, rfl⟩ := List.mem_map.mp ht
    exact .inl ⟨i, hi, by simpa using hv⟩
  · obtain rfl := List.mem_singleton.mp ht
    exact .inr (by simpa using hv)

/-- A PHI operand on an edge is used in the incoming block. -/
theorem mem_phiUseBlocks_of_reads {v : InstId} {b c : BlockId} (hc : c ∈ F.cfg.blocks)
    (h : v ∈ (F.phiTouch b c).reads) : b ∈ F.phiUseBlocks v := by
  obtain ⟨φ, hφ, hv⟩ := List.mem_flatMap.mp h
  cases hlookup : φ.incoming.lookup b with
  | none => simp [hlookup] at hv
  | some op =>
    rw [hlookup, Option.elim_some] at hv
    have hmem : (b, op) ∈ φ.incoming := by
      obtain ⟨pre, post, heq, -⟩ := List.lookup_eq_some_iff.mp hlookup
      rw [heq]
      simp
    refine List.mem_flatMap.mpr ⟨c, hc, List.mem_flatMap.mpr ⟨φ, hφ, ?_⟩⟩
    exact List.mem_map.mpr ⟨(b, op), List.mem_filter.mpr ⟨hmem, by simpa using hv⟩, rfl⟩

/-- A value that is not a PHI is not used in its block before it is defined. -/
theorem not_usesOld_body {v : InstId} {b : BlockId} (hdef : F.defBlock v = b)
    (hphi : F.isPhi v = false) {done : List InstId} {l : List (Instr σ Val)}
    (havail : F.BodyAvail b done l) (hdone : v ∉ done) : ¬UsesOld v (F.bodyTouches b l) := by
  have hnot : ∀ {done}, v ∉ done → ¬F.AvailableAt b done v := by
    intro done hdone h
    rw [AvailableAt, if_pos hdef, if_neg (by simp [hphi])] at h
    exact hdone h
  induction l generalizing done with
  | nil =>
    rw [bodyTouches, List.map_nil, List.nil_append, usesOld_cons]
    rintro (hread | ⟨-, hrest⟩)
    · exact hnot hdone (havail v hread)
    · exact not_usesOld_nil hrest
  | cons i l ih =>
    rw [bodyTouches, List.map_cons, List.cons_append, usesOld_cons]
    rintro (hread | ⟨hnew, hrest⟩)
    · exact hnot hdone (havail.1 v hread)
    · exact ih havail.2 (by simpa [hdone] using hnew) hrest

end SSACode

namespace SSAFunction

variable {σ Val : Type*} {F : SSAFunction σ Val}

/-- **Runs use values ahead.** A run from the top of a reachable block that uses the old value
of `v` uses a PHI of the block, or reaches a use without passing the defining block. -/
theorem phi_or_useAhead_of_usesOld {v : InstId} (hv : v ∈ F.values) {b : BlockId}
    {w : List BlockId} (hreach : F.cfg.Reachable b) (hchain : List.IsChain F.cfg.Succ (b :: w))
    (hold : SSACode.UsesOld v (F.runTouches b w)) : v ∈ F.phiDefs b ∨ F.UseAhead v b := by
  obtain ⟨hdefmem, hkind⟩ := F.mem_values.mp hv
  induction w generalizing b with
  | nil =>
    by_cases hb : b = F.defBlock v
    · subst hb
      split_ifs at hkind with hphi
      · exact .inl hkind
      · exact absurd hold (SSACode.not_usesOld_body rfl (by simpa using hphi)
          (F.body_avail _ hdefmem hreach) List.not_mem_nil)
    · exact .inr ⟨hb, b, .inl ⟨hreach.mem, SSACode.usedIn_of_usesOld hold⟩, hb, .refl⟩
  | cons c w ih =>
    obtain ⟨hbc, hrest⟩ := List.isChain_cons_cons.mp hchain
    rw [SSACode.runTouches, SSACode.usesOld_append, SSACode.usesOld_cons] at hold
    by_cases hb : b = F.defBlock v
    · subst hb
      split_ifs at hkind with hphi
      · exact .inl hkind
      · -- the block defines the value after its PHIs and before it is left
        exfalso
        rcases hold with hold | ⟨hnew, -⟩
        · exact SSACode.not_usesOld_body rfl (by simpa using hphi)
            (F.body_avail _ hdefmem hreach) List.not_mem_nil hold
        · obtain ⟨i, hi, hdst⟩ := List.mem_filterMap.mp hkind
          refine hnew ⟨i.uses, i.dst.toList⟩ ?_ (by simp [hdst])
          exact List.mem_append_left _ (List.mem_map_of_mem hi)
    · refine .inr ⟨hb, ?_⟩
      rcases hold with hold | ⟨-, hread | ⟨hphi, hold⟩⟩
      · exact ⟨b, .inl ⟨hreach.mem, SSACode.usedIn_of_usesOld hold⟩, hb, .refl⟩
      · exact ⟨b, .inr (SSACode.mem_phiUseBlocks_of_reads hbc.dst_mem hread), hb, .refl⟩
      · obtain ⟨hne, u, hu, hune, hpath⟩ := (ih (hreach.tail hbc) hrest hold).resolve_left hphi
        exact ⟨u, hu, hune, .head ⟨hbc, hne⟩ hpath⟩

/-- The uses of the source are the uses outside the defining block. -/
theorem mem_useBlocks {v : InstId} {b : BlockId} (hne : b ≠ F.defBlock v) :
    b ∈ F.useBlocks v ↔ F.UsedAt v b := by
  rw [SSACode.useBlocks, List.mem_append, List.mem_filter, SSACode.UsedAt, or_comm]
  simp [hne]

/-- The solution of the sweeps is the existence of a use ahead. -/
theorem ssaLive_iff {v : InstId} {b : BlockId} (hb : b ∈ F.cfg.blocks) (hne : b ≠ F.defBlock v) :
    F.ssaLive v b = true ↔ F.UseAhead v b := by
  constructor
  · intro hlive
    obtain ⟨-, -, u, hu, hune, hpath⟩ := SSACode.exists_use_of_ssaLive hlive
    exact ⟨hne, u, (mem_useBlocks hune).mp hu, hune, hpath⟩
  · rintro ⟨-, u, hu, hune, hpath⟩
    induction hpath using Relation.ReflTransGen.head_induction_on with
    | refl => exact SSACode.ssaLive_of_use hb hune ((mem_useBlocks hune).mpr hu)
    | @head a c hstep _ ih =>
      exact SSACode.ssaLive_of_succ hstep.1 hne (ih hstep.1.dst_mem hstep.2)

/-- A tracked value is live into a block: it is a PHI of the block, or there is a use ahead. -/
theorem mem_ineligLiveIn_iff {v : InstId} (hv : .inst v ∈ F.ineligibleObjs) {b : BlockId}
    (hb : b ∈ F.cfg.blocks) :
    .inst v ∈ F.ineligLiveIn b ↔ v ∈ F.phiDefs b ∨ F.UseAhead v b := by
  obtain ⟨hval, htracked⟩ := F.mem_ineligibleObjs_inst.mp hv
  obtain ⟨-, hkind⟩ := F.mem_values.mp hval
  have hphi : v ∈ F.phiDefs b ↔ b = F.defBlock v ∧ F.isPhi v = true := by
    constructor
    · intro hmem
      obtain ⟨φ, hφ, rfl⟩ := List.mem_map.mp hmem
      obtain ⟨hdef, hisPhi⟩ := F.phi_def b hb φ hφ
      exact ⟨hdef.symm, hisPhi⟩
    · rintro ⟨rfl, hisPhi⟩
      rwa [if_pos hisPhi] at hkind
  rw [F.mem_ineligLiveIn_inst, SSACode.ssaLiveIn, hphi]
  by_cases hdef : b = F.defBlock v
  · have hahead : ¬F.UseAhead v b := fun h => h.1 hdef
    by_cases hisPhi : F.isPhi v = true <;> simp [hval, htracked, hdef, hisPhi, hdef ▸ hahead]
    simpa [hdef] using hb
  · have hnone : F.useBlocks v = [] → ¬F.UseAhead v b := by
      rintro hnil ⟨-, u, hu, hune, -⟩
      exact List.not_mem_nil (hnil ▸ (mem_useBlocks hune).mpr hu)
    rw [if_neg hdef, ← ssaLive_iff hb hdef]
    by_cases hskip : (F.useBlocks v = [] && !F.isPhi v) = true
    · have hnil : F.useBlocks v = [] := by simpa using (Bool.and_eq_true_iff.mp hskip).1
      have hdead := mt (ssaLive_iff hb hdef).mp (hnone hnil)
      simp [hskip, hdef, hdead]
    · simp [hskip, hdef, hb, hval, htracked]

/-- **SSA liveness is exact.** The sweeps end for every value. A tracked value is live into a
block exactly when it is a PHI of the block, or there is a use ahead on a path that avoids the
defining block. So a value is live into every reachable block from whose top a run can still
use what was computed for it before. -/
theorem ssa_liveness_exact (F : SSAFunction σ Val) :
    (∀ v, iterate (F.ssaTransfer v) (F.cfg.blocks.filter fun b => b ≠ F.defBlock v)
        ((F.cfg.blocks.filter fun b => b ≠ F.defBlock v).length + 1) (fun _ => false) =
          some (F.ssaLive v)) ∧
      (∀ v, .inst v ∈ F.ineligibleObjs → ∀ b ∈ F.cfg.blocks,
        (.inst v ∈ F.ineligLiveIn b ↔ v ∈ F.phiDefs b ∨ F.UseAhead v b)) ∧
      ∀ v, .inst v ∈ F.ineligibleObjs → ∀ b w, F.cfg.Reachable b →
        List.IsChain F.cfg.Succ (b :: w) → SSACode.UsesOld v (F.runTouches b w) →
          .inst v ∈ F.ineligLiveIn b := by
  refine ⟨fun v => solve_eq (SSACode.ssaTransfer_monotone v) _,
    fun v hv b hb => mem_ineligLiveIn_iff hv hb, fun v hv b w hreach hchain hold => ?_⟩
  rw [mem_ineligLiveIn_iff hv hreach.mem]
  exact phi_or_useAhead_of_usesOld (F.mem_ineligibleObjs_inst.mp hv).1 hreach hchain hold

end SSAFunction

end Bao.Milp
