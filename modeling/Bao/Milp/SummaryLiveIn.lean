import Bao.Milp.Simulation
import Bao.Milp.SSAConsistency

/-!
# The live-in set of a loop summary

The instrumenter commits and restores at the entry block of a summary what the liveness
analysis calls live into that block. The MILP charges what `buildAbstractCFG` records as the
live-in set of the summary node: what is live into some block of the summary, without the SSA
values defined inside.

The two agree exactly when the entry block, that is the preheader, has no tracked PHI
(`summary_live_in_iff`). A PHI counts as live into its own block, but it is defined inside the
summary; all other values live into the preheader are defined outside, because their
definitions dominate the uses ahead. `merging_phi_not_in_summary` is a loop whose preheader
merges two values.
-/

namespace Bao.Milp

/-! ### The state analysis of a function -/

/-- What the state analysis knows of the eligible globals. -/
structure EligibleState where
  vmObjs : List GlobalVariable
  eligLiveIn : BlockId → List GlobalVariable
  eligDefIndicator : BlockId → GlobalVariable → Bool
  loadCount : BlockId → GlobalVariable → ℕ
  storeCount : BlockId → GlobalVariable → ℕ
  sizeBytes : GlobalVariable → ℕ
  isAggregate : GlobalVariable → Bool
  vmObjs_nodup : vmObjs.Nodup
  eligLiveIn_nodup : ∀ b, (eligLiveIn b).Nodup
  eligLiveIn_subset : ∀ b, ∀ g ∈ eligLiveIn b, g ∈ vmObjs

/-- The part of the state that concerns the globals. -/
def StateAnalysis.eligible (S : StateAnalysis) : EligibleState where
  vmObjs := S.vmObjs
  eligLiveIn := S.eligLiveIn
  eligDefIndicator := S.eligDefIndicator
  loadCount := S.loadCount
  storeCount := S.storeCount
  sizeBytes g := S.varSizeBytes (.global g)
  isAggregate := S.isAggregate
  vmObjs_nodup := S.vmObjs_nodup
  eligLiveIn_nodup := S.eligLiveIn_nodup
  eligLiveIn_subset := S.eligLiveIn_subset

namespace SSAFunction

variable {σ Val : Type*}

theorem ineligibleObjs_nodup (F : SSAFunction σ Val) : F.ineligibleObjs.Nodup := by
  refine List.nodup_append.mpr ⟨F.allocas_nodup.map fun _ _ h => by simpa using h,
    (F.values_nodup.filter _).map fun _ _ h => by simpa using h, fun x hx y hy => ?_⟩
  obtain ⟨a, -, rfl⟩ := List.mem_map.mp hx
  obtain ⟨v, -, rfl⟩ := List.mem_map.mp hy
  simp

/-- `StateAnalysis` of a function in SSA form. -/
def stateAnalysis (F : SSAFunction σ Val) (E : EligibleState) : StateAnalysis where
  vmObjs := E.vmObjs
  eligLiveIn := E.eligLiveIn
  eligDefIndicator := E.eligDefIndicator
  ineligibleObjs := F.ineligibleObjs
  ineligLiveIn := F.ineligLiveIn
  ineligDefIndicator := F.ineligDefIndicator
  loadCount := E.loadCount
  storeCount := E.storeCount
  varSizeBytes
    | .global g => E.sizeBytes g
    | .alloca a => (F.allocaType a).totalBytes
    | .inst v => F.sizeBytes v
  isAggregate := E.isAggregate
  vmObjs_nodup := E.vmObjs_nodup
  eligLiveIn_nodup := E.eligLiveIn_nodup
  eligLiveIn_subset := E.eligLiveIn_subset
  ineligibleObjs_nodup := F.ineligibleObjs_nodup
  ineligible_ne_global v hv g := by
    rcases List.mem_append.mp hv with hv | hv
    · obtain ⟨a, -, rfl⟩ := List.mem_map.mp hv
      simp
    · obtain ⟨i, -, rfl⟩ := List.mem_map.mp hv
      simp
  ineligLiveIn_nodup b := by
    rw [SSACode.ineligLiveIn]
    split_ifs
    · exact F.ineligibleObjs_nodup.filter _
    · exact List.nodup_nil
  ineligLiveIn_subset b v hv := by
    rw [SSACode.ineligLiveIn] at hv
    split_ifs at hv
    · exact List.mem_of_mem_filter hv
    · exact absurd hv List.not_mem_nil

/-- The analyses of a function in SSA form. -/
def analysis (F : SSAFunction σ Val) (loopInfo : LoopInfo F.cfg) (E : EligibleState)
    (params : EnergyParams) (fEntry : BlockId → ℚ) (hasInvoke : BlockId → Bool) :
    FunctionAnalysis :=
  ⟨F.cfg, loopInfo, F.stateAnalysis E, params, fEntry, hasInvoke⟩

/-! ### Values live into the preheader -/

variable {F : SSAFunction σ Val}

/-- **A value is needed** from a block on: a path that avoids its definition leads to a use. -/
def NeededFrom (F : SSAFunction σ Val) (v : InstId) (b u : BlockId) : Prop :=
  b ≠ F.defBlock v ∧ Relation.ReflTransGen (F.AvoidStep (F.defBlock v)) b u ∧ F.UseAt v u

/-- A value needed from a block on is live into the block. -/
theorem live_of_needed {v : InstId} {b u : BlockId} (hb : F.cfg.Reachable b)
    (h : F.NeededFrom v b u) : .inst v ∈ F.ineligLiveIn b := by
  obtain ⟨hne, hpath, huse⟩ := h
  have hune : u ≠ F.defBlock v := by
    rcases Relation.ReflTransGen.cases_tail hpath with rfl | ⟨c, -, hstep⟩
    · exact hne
    · exact hstep.2
  have hu : F.cfg.Reachable u :=
    hb.trans (Relation.ReflTransGen.mono (fun _ _ hstep => hstep.1) _ _ hpath)
  obtain ⟨done, havail⟩ : ∃ done, F.AvailableAt u done v := exists_available_of_use hu huse
  have hlive := live_of_use hu.mem huse havail (.inl (Ne.symm hune))
  obtain ⟨-, ⟨hval, htrack⟩, -⟩ := F.mem_ineligLiveIn_inst.mp hlive
  refine live_of_ssaLive hval htrack ?_
  have hend := ssaLive_of_live hlive (Ne.symm hune)
  induction hpath using Relation.ReflTransGen.head_induction_on with
  | refl => exact hend
  | @head a c hstep _ ih =>
    exact SSACode.ssaLive_of_succ hstep.1 hne (ih (hb.tail hstep.1) hstep.2)

/-- A value of another block that is live into the preheader of a loop is not defined in the
loop: its definition would have to dominate the use ahead. -/
theorem defBlock_not_mem_loop {L : Loop} (hn : L.Natural F.cfg) {ph : BlockId}
    (hph : L.getLoopPreheader F.cfg = some ph) {v : InstId}
    (hlive : .inst v ∈ F.ineligLiveIn ph) (hdef : F.defBlock v ≠ ph) :
    F.defBlock v ∉ L.blocks := by
  intro hmem
  obtain ⟨-, -, u, hu, hune, hpath⟩ := SSACode.exists_use_of_ssaLive (ssaLive_of_live hlive hdef)
  have hbefore : Relation.ReflTransGen (F.AvoidStep (F.defBlock v)) F.cfg.entryBlock ph :=
    Relation.ReflTransGen.mono
      (fun _ _ hstep => ⟨hstep.1, fun heq => hstep.2 (heq ▸ hmem)⟩) _ _
      (hn.preheader_reachable hph)
  have hwhole := hbefore.trans hpath
  have hreach : F.cfg.Reachable u :=
    Relation.ReflTransGen.mono (fun _ _ hstep => hstep.1) _ _ hwhole
  exact dominates_of_use hu hune hreach (fun heq => hn.entry_not_mem (heq ▸ hmem)) hwhole

/-- What the summary records as ineligible live-in. -/
theorem mem_summaryIneligLiveIn {A : FunctionAnalysis} {bs : List BlockId} {v : Value} :
    v ∈ A.summaryIneligLiveIn bs ↔ v ∈ A.state.ineligibleObjs ∧
      (∃ b ∈ bs, v ∈ A.state.ineligLiveIn b) ∧
      ∀ i, v = .inst i → ∀ b ∈ bs, A.state.ineligDefIndicator b v = false := by
  rw [FunctionAnalysis.summaryIneligLiveIn, List.mem_filter, Bool.and_eq_true]
  cases v <;> simp

variable {loopInfo : LoopInfo F.cfg} {E : EligibleState} {params : EnergyParams}
  {fEntry : BlockId → ℚ} {hasInvoke : BlockId → Bool}

/-- **The live-in set of a summary.** For a summary of a function in loop-simplify form: every
ineligible value live into the entry block is in the live-in set of the summary, and so is
every value that is needed from the entry block on inside the summary, and every eligible
global live into the entry block, if and only if the entry block has no tracked PHI. -/
theorem summary_live_in_iff (hsimp : loopInfo.Simplified) {agg : LoopAggregate}
    (hagg : agg ∈ (F.analysis loopInfo E params fEntry hasInvoke).summaries) :
    ((∀ v ∈ F.ineligLiveIn agg.entryBB, v ∈ agg.ineligLiveIn) ∧
      (∀ v, ∀ u ∈ agg.loopBlocks, F.NeededFrom v agg.entryBB u → .inst v ∈ agg.ineligLiveIn) ∧
      (∀ a ∈ F.allocas, F.AllocaLive a agg.entryBB (F.body agg.entryBB) →
        .alloca a ∈ agg.ineligLiveIn) ∧
      ∀ g ∈ E.eligLiveIn agg.entryBB, g ∈ agg.eligLiveIn) ↔
    ∀ v ∈ F.phiDefs agg.entryBB, F.needsTracking v = false := by
  obtain ⟨L, hc⟩ := FunctionAnalysis.selection_valid.collapses agg hagg
  have hnat : L.Natural F.cfg := loopInfo.natural L hc.loop
  obtain ⟨ph, hph⟩ : ∃ ph, L.getLoopPreheader F.cfg = some ph :=
    Option.isSome_iff_exists.mp (hsimp L hc.loop).preheader
  have hph_mem : ph ∈ F.cfg.blocks := (Loop.preheader_spec hph).2.1.src_mem
  have hph_in : ph ∈ agg.loopBlocks := (hc.mem_blocks ph).mpr (.inr hph)
  have hph_reach : F.cfg.Reachable ph :=
    Relation.ReflTransGen.mono (fun _ _ hstep => hstep.1) _ _ (hnat.preheader_reachable hph)
  have hset : ∀ v, v ∈ agg.ineligLiveIn ↔ v ∈ F.ineligibleObjs ∧
      (∃ b ∈ agg.loopBlocks, v ∈ F.ineligLiveIn b) ∧
      ∀ i, v = .inst i → ∀ b ∈ agg.loopBlocks, F.ineligDefIndicator b v = false := by
    intro v
    rw [hc.ineligLiveIn_eq]
    exact mem_summaryIneligLiveIn
  have hentry : agg.entryBB = ph := by
    have := hc.entry
    change agg.entryBB = (L.getLoopPreheader F.cfg).getD L.header at this
    rw [this, hph, Option.getD_some]
  rw [hentry]
  constructor
  · rintro ⟨hall, -⟩ v hv
    by_contra htrack
    -- a tracked PHI is live into the preheader, and defined in it
    have hlive := live_of_phi hph_mem hv (by simpa using htrack)
    have hdef := ((hset _).mp (hall _ hlive)).2.2 v rfl ph hph_in
    obtain ⟨φ, hφ, rfl⟩ := List.mem_map.mp hv
    have hobj := ((hset _).mp (hall _ hlive)).1
    simp [SSACode.ineligDefIndicator, hobj, (F.phi_def ph hph_mem φ hφ).1] at hdef
  · intro hnophi
    have hall : ∀ v ∈ F.ineligLiveIn ph, v ∈ agg.ineligLiveIn := by
      intro v hv
      have hobj : v ∈ F.ineligibleObjs := (F.stateAnalysis E).ineligLiveIn_subset ph v hv
      refine (hset v).mpr ⟨hobj, ⟨ph, hph_in, hv⟩, ?_⟩
      rintro i rfl b hb
      have hne : F.defBlock i ≠ ph := by
        intro hdef
        have hmem := (isPhi_of_live hv hdef).2
        have htrack := (F.mem_ineligibleObjs_inst.mp hobj).2
        rw [hnophi i hmem] at htrack
        exact absurd htrack (by simp)
      have hout := defBlock_not_mem_loop hnat hph hv hne
      have hdef : F.defBlock i ≠ b := by
        rintro rfl
        exact ((hc.mem_blocks _).mp hb).elim hout fun heq =>
          hne (Option.some.inj (heq.symm.trans hph))
      simp [SSACode.ineligDefIndicator, hdef]
    refine ⟨hall, fun v u _ hneed => hall _ (live_of_needed hph_reach hneed),
      fun a ha hlive => hall _ (F.mem_ineligLiveIn_alloca.mpr
        ⟨hph_mem, ha, SSACode.allocaLiveIn_of_live hph_mem hlive⟩), fun g hg => ?_⟩
    rw [hc.eligLiveIn_eq, List.mem_filter, List.any_eq_true]
    exact ⟨E.eligLiveIn_subset ph g hg, ph, hph_in, decide_eq_true hg⟩

/-! ### A preheader that merges two values -/

/-- Two branches meet in block `3`, the preheader of the loop of block `4`, which uses the value
`0`. With `merge` this value is a PHI of the preheader, otherwise the entry block defines
it. -/
def branchingCode (merge : Bool) : SSACode Unit ℕ where
  cfg := .ofTable [(.branch [1, 2], 1), (.branch [3], 1), (.branch [3], 1), (.branch [4], 1),
    (.branch [4, 5], 1), (.ret, 1)] (by decide) (by decide) (by decide +kernel)
  phis b := if merge && b = 3 then [⟨0, [(1, .const 10), (2, .const 20)]⟩] else []
  body b :=
    if !merge && b = 0 then [.call (some 0) [] [] fun w _ stack => (w, 10, stack)]
    else if b = 4 then
      [.call (some 1) [.inst 0] [] fun w vals stack => (w, vals.getD 0 0 + 1, stack)]
    else []
  termArgs b := if b = 4 then [.inst 1] else []
  allocas := []
  allocaType _ := .bytes 1
  defBlock v := if v = 0 then if merge then 3 else 0 else 4
  isPhi v := merge && v = 0
  sizeBytes _ := 2
  null := 0
  isRef _ _ := true
  isMod _ _ := true

/-- `branchingCode` is in SSA form. -/
def branching (merge : Bool) : SSAFunction Unit ℕ where
  toSSACode := branchingCode merge
  allocas_nodup := List.nodup_nil
  values_nodup := by revert merge; decide +kernel
  phi_def := by revert merge; decide +kernel
  instr_def := by revert merge; decide +kernel
  entry_phis := by revert merge; decide +kernel
  phi_incoming := by revert merge; decide +kernel
  phi_avail := by revert merge; decide +kernel
  body_avail := by revert merge; decide +kernel
  ref_sound _ _ _ := rfl
  read_mem := by
    intro b _ i hi a ha
    simp only [branchingCode] at hi
    split_ifs at hi
    · obtain rfl := List.mem_singleton.mp hi
      exact absurd ha List.not_mem_nil
    · obtain rfl := List.mem_singleton.mp hi
      exact absurd ha List.not_mem_nil
    · exact absurd hi List.not_mem_nil

/-- The loop of block `4`, with two iterations by its marker. -/
def branchingLoops (merge : Bool) : LoopInfo (branching merge).cfg where
  topLevelLoops := [.mk 4 [4] 0 (some 2) []]
  natural := by revert merge; decide +kernel
  disjoint := List.pairwise_singleton _ _

/-- No globals. -/
def noGlobals : EligibleState :=
  FunctionAnalysis.emptyState.eligible

/-- The analyses of `branching`. -/
def branchingAnalysis (merge : Bool) : FunctionAnalysis :=
  (branching merge).analysis (branchingLoops merge) noGlobals FunctionAnalysis.unitParams
    (fun _ => 1) fun _ => false

private theorem branching_summary (merge : Bool) : ∃ agg ∈ (branchingAnalysis merge).summaries,
    agg.entryBB = 3 ∧ agg.ineligLiveIn = if merge then [] else [.inst 0] := by
  have heval : (branchingAnalysis merge).summaries.map
      (fun agg => (agg.entryBB, agg.ineligLiveIn)) =
        [(3, if merge then [] else [.inst 0])] := by
    revert merge
    decide +kernel
  have hmem : (3, if merge then [] else [Value.inst 0]) ∈
      (branchingAnalysis merge).summaries.map fun agg => (agg.entryBB, agg.ineligLiveIn) := by
    rw [heval]
    exact List.mem_singleton_self _
  obtain ⟨agg, hagg, heq⟩ := List.mem_map.mp hmem
  rw [Prod.mk.injEq] at heq
  exact ⟨agg, hagg, heq⟩

/-- **The merged value is not modelled.** The PHI of the preheader is live into the entry block
of the summary, so the instrumenter restores it there, but it is not in the live-in set of the
summary. -/
theorem merging_phi_not_in_summary :
    (branchingLoops true).Simplified ∧ ∃ agg ∈ (branchingAnalysis true).summaries,
      .inst 0 ∈ (branching true).ineligLiveIn agg.entryBB ∧ .inst 0 ∉ agg.ineligLiveIn := by
  refine ⟨by decide +kernel, ?_⟩
  obtain ⟨agg, hagg, hentry, hlive⟩ := branching_summary true
  refine ⟨agg, hagg, ?_, by simp [hlive]⟩
  rw [hentry]
  decide +kernel

/-- A value of the entry block that the loop uses is live into the preheader and in the live-in
set of the summary. -/
theorem summary_live_in_iff_branching : ∃ agg ∈ (branchingAnalysis false).summaries,
    .inst 0 ∈ (branching false).ineligLiveIn agg.entryBB ∧
    ∀ v ∈ (branching false).ineligLiveIn agg.entryBB, v ∈ agg.ineligLiveIn := by
  obtain ⟨agg, hagg, hentry, -⟩ := branching_summary false
  have hnophi : ∀ v ∈ (branching false).phiDefs 3, (branching false).needsTracking v = false := by
    decide +kernel
  refine ⟨agg, hagg, ?_, ?_⟩
  · rw [hentry]
    decide +kernel
  · exact ((summary_live_in_iff (by decide +kernel) hagg).mpr (hentry ▸ hnophi)).1

end SSAFunction

end Bao.Milp
