import Bao.Milp.LoopEnergy
import Bao.RockClimb.IterationEnergy

/-!
# The loops the unroll pass selects

`RockClimbLoopUnrollPass` decides which loops of a function are unrolled, and by how much
(`computePlan`, `selectLoopsToUnroll`). The copies of the body in an unrolled loop run without a
region boundary between them, so `K` iterations have to fit one charge.

The selection goes down every nest and stops at the first loop with a plan, so no selected loop is
inside another one, and a loop with a plan that is not selected is inside a selected one. What a
plan promises follows from the worst-case energy of one iteration: `K` is the largest count within
the unroll factor and the trip count that costs less than `E_safe`, and every stretch of an
execution of the loop with at most `K` iterations does.

Energies are exact rationals, and `nextafter` towards minus infinity is the strict inequality.
-/

namespace Bao.RockClimb

open Milp

/-- What the energy budget is computed from; `N_reg` counts PC and SP. -/
structure RockClimbParams where
  capacity : ℚ
  EPro : ℚ
  EEpi : ℚ
  NReg : ℕ
  regRestoreEnergy : ℚ
  two_le_NReg : 2 ≤ NReg

/-- **`calculateESafe`**: PC and SP are accounted for in `E_pro`. -/
def RockClimbParams.calculateESafe (p : RockClimbParams) : ℚ :=
  p.capacity - p.EPro - p.EEpi - (p.NReg - 2 : ℕ) * p.regRestoreEnergy

/-- What the pass knows of a function: its loops are those of `LI`. -/
structure UnrollInput where
  C : CFGAnalysis
  LI : LoopInfo C
  /-- The constant backedge-taken counts of scalar evolution. -/
  backedgeTakenCount : Loop → Option ℕ
  containsInvoke : Loop → Bool
  params : RockClimbParams
  maxUnrollFactor : ℕ

/-- The plan for one loop. -/
structure LoopUnrollPlan where
  tripCount : ℕ
  unrollCount : ℕ
  iterEnergy : ℚ
  loopEnergy : ℚ
deriving DecidableEq, Repr

/-- Why a loop has no plan. -/
inductive SkipReason
  | notLoopSimplifyForm
  | noDedicatedExits
  | missingPreheader
  | missingSingleLatch
  | containsInvoke
  | unknownTripCount
  | tripCountNotBeneficial
  | iterationError (e : IterationError)
  | iterEnergyUnavailable
  | nonpositiveEnergyBudget
  | kNotBeneficial
deriving DecidableEq, Repr

/-- The texts of the reasons. -/
def SkipReason.message : SkipReason → String
  | .notLoopSimplifyForm => "not-loop-simplify-form"
  | .noDedicatedExits => "no-dedicated-exits"
  | .missingPreheader => "missing-preheader"
  | .missingSingleLatch => "missing-single-latch"
  | .containsInvoke => "contains-invoke"
  | .unknownTripCount => "unknown-trip-count"
  | .tripCountNotBeneficial => "trip-count-not-beneficial"
  | .iterationError e => e.message
  | .iterEnergyUnavailable => "iter-energy-unavailable"
  | .nonpositiveEnergyBudget => "nonpositive-energy-budget"
  | .kNotBeneficial => "k-not-beneficial"

/-- `hasDedicatedExits`. -/
def hasDedicatedExits (C : CFGAnalysis) (L : Loop) : Bool :=
  (L.getExitBlocks C).all fun e => (C.predecessors e).all fun p => p ∈ L.blocks

/-- The largest number of iterations that costs less than `ESafe`: the floor of the quotient by
the energy of one, with the budget `nextafter(ESafe)`. -/
def rawUnrollCount (ESafe iterEnergy : ℚ) : ℤ := ⌈ESafe / iterEnergy⌉ - 1

namespace UnrollInput

variable (I : UnrollInput)

/-- The exact trip count of a loop. -/
def tripCount (L : Loop) : Option ℕ := getExactConstantTripCount I.C I.backedgeTakenCount L

/-- The unroll count for a loop, if unrolling is worth it. -/
def unrollCount (tripCount : ℕ) (iterEnergy : ℚ) : Option ℕ :=
  let ESafe := I.params.calculateESafe
  if tripCount * iterEnergy < ESafe then
    let K := min tripCount I.maxUnrollFactor
    if K ≤ 1 then none else some K
  else
    let rawK := rawUnrollCount ESafe iterEnergy
    if rawK ≤ 1 then none
    else
      let K := min rawK.toNat I.maxUnrollFactor
      if K ≤ 1 then none else some K

/-- **`computePlan`**. -/
def computePlan (L : Loop) : Except SkipReason LoopUnrollPlan :=
  if ¬((L.getLoopPreheader I.C).isSome ∧ (L.getLoopLatch I.C).isSome ∧
      hasDedicatedExits I.C L = true) then .error .notLoopSimplifyForm
  else if hasDedicatedExits I.C L = false then .error .noDedicatedExits
  else if (L.getLoopPreheader I.C).isNone then .error .missingPreheader
  else if (L.getLoopLatch I.C).isNone then .error .missingSingleLatch
  else if I.containsInvoke L then .error .containsInvoke
  else match I.tripCount L with
    | none => .error .unknownTripCount
    | some n =>
      if n ≤ 1 then .error .tripCountNotBeneficial
      else match computeWorstCaseIterationEnergy I.C I.backedgeTakenCount L with
        | .error e => .error (.iterationError e)
        | .ok W =>
          if W.energy ≤ 0 then .error .iterEnergyUnavailable
          else if I.params.calculateESafe ≤ 0 then .error .nonpositiveEnergyBudget
          else match I.unrollCount n W.energy with
            | none => .error .kNotBeneficial
            | some K => .ok ⟨n, K, W.energy, n * W.energy⟩

mutual

/-- **`selectInNest`**: the loop if it has a plan, else what its sub-loops select. -/
def selectInNest : Loop → List (Loop × LoopUnrollPlan)
  | L@(.mk _ _ _ _ subs) =>
    match I.computePlan L with
    | .ok plan => [(L, plan)]
    | .error _ => selectInNests subs

/-- The selections of sibling loops. -/
def selectInNests : List Loop → List (Loop × LoopUnrollPlan)
  | [] => []
  | L :: Ls => selectInNest L ++ selectInNests Ls

end

/-- **`selectLoopsToUnroll`**. -/
def selectLoopsToUnroll : List (Loop × LoopUnrollPlan) := I.selectInNests I.LI.topLevelLoops

variable {I}

/-! ### One plan -/

/-- `k` iterations are within the raw count if and only if they cost less than the budget. -/
theorem le_rawUnrollCount_iff {ESafe iterEnergy : ℚ} (hpos : 0 < iterEnergy) (k : ℕ) :
    (k : ℤ) ≤ rawUnrollCount ESafe iterEnergy ↔ k * iterEnergy < ESafe := by
  rw [rawUnrollCount, Int.le_sub_one_iff, Int.lt_ceil, lt_div_iff₀ hpos, Int.cast_natCast]

/-- **The unroll count is the best one**: it is above one, and it is the largest count within the
factor and the trip count that costs less than `E_safe`. -/
theorem unrollCount_eq_some {n K : ℕ} {e : ℚ} (hpos : 0 < e) (h : I.unrollCount n e = some K) :
    2 ≤ K ∧ ∀ k, k ≤ K ↔ k ≤ I.maxUnrollFactor ∧ k ≤ n ∧ k * e < I.params.calculateESafe := by
  simp only [unrollCount] at h
  split_ifs at h with hwhole hK hraw hK
  · -- all iterations fit
    obtain rfl := Option.some.inj h
    refine ⟨by omega, fun k => ⟨fun hk => ⟨by omega, by omega, ?_⟩, fun hk => le_min hk.2.1 hk.1⟩⟩
    have hkn : (k : ℚ) ≤ n := by exact_mod_cast (show k ≤ n by omega)
    exact (mul_le_mul_of_nonneg_right hkn hpos.le).trans_lt hwhole
  · obtain rfl := Option.some.inj h
    have hle : ∀ k : ℕ, k ≤ (rawUnrollCount I.params.calculateESafe e).toNat ↔
        k * e < I.params.calculateESafe := by
      intro k
      rw [← le_rawUnrollCount_iff hpos]
      omega
    refine ⟨by omega, fun k => ⟨fun hk => ?_, fun hk => le_min ((hle k).mpr hk.2.2) hk.1⟩⟩
    have hfit := (hle k).mp (hk.trans (min_le_left _ _))
    -- not all iterations fit, so those that do are fewer
    refine ⟨hk.trans (min_le_right _ _), ?_, hfit⟩
    by_contra hkn
    have hkn' : (n : ℚ) ≤ k := by exact_mod_cast (not_le.mp hkn).le
    exact hwhole ((mul_le_mul_of_nonneg_right hkn' hpos.le).trans_lt hfit)

/-- What `computePlan` has checked when it returns a plan. -/
structure Planned (I : UnrollInput) (L : Loop) (p : LoopUnrollPlan) : Prop where
  simplify : L.SimplifyForm I.C
  no_invoke : I.containsInvoke L = false
  tripCount : I.tripCount L = some p.tripCount
  iteration : ∃ W, computeWorstCaseIterationEnergy I.C I.backedgeTakenCount L = .ok W ∧
    W.energy = p.iterEnergy
  pos : 0 < p.iterEnergy
  loopEnergy : p.loopEnergy = p.tripCount * p.iterEnergy
  count : 2 ≤ p.unrollCount
  best : ∀ k, k ≤ p.unrollCount ↔
    k ≤ I.maxUnrollFactor ∧ k ≤ p.tripCount ∧ k * p.iterEnergy < I.params.calculateESafe

theorem planned_of_computePlan {L : Loop} {p : LoopUnrollPlan} (h : I.computePlan L = .ok p) :
    Planned I L p := by
  rw [computePlan] at h
  by_cases hform : (L.getLoopPreheader I.C).isSome ∧ (L.getLoopLatch I.C).isSome ∧
      hasDedicatedExits I.C L = true
  swap
  · rw [if_pos hform] at h
    cases h
  obtain ⟨hpre, hlatch, hded⟩ := hform
  -- the form has a preheader, a latch and dedicated exits, so the next checks pass
  rw [if_neg (not_not.mpr ⟨hpre, hlatch, hded⟩), if_neg (by simp [hded]),
    if_neg (by simp [Option.isSome_iff_ne_none.mp hpre]),
    if_neg (by simp [Option.isSome_iff_ne_none.mp hlatch])] at h
  by_cases hinvoke : I.containsInvoke L = true
  · rw [if_pos hinvoke] at h
    cases h
  rw [if_neg hinvoke] at h
  split at h
  · cases h
  · next n hn =>
      by_cases htrip : n ≤ 1
      · rw [if_pos htrip] at h
        cases h
      rw [if_neg htrip] at h
      split at h
      · cases h
      · next W hW =>
          by_cases henergy : W.energy ≤ 0
          · rw [if_pos henergy] at h
            cases h
          rw [if_neg henergy] at h
          by_cases hbudget : I.params.calculateESafe ≤ 0
          · rw [if_pos hbudget] at h
            cases h
          rw [if_neg hbudget] at h
          split at h
          · cases h
          · next K hK =>
              obtain rfl := Except.ok.inj h
              have hpos := not_le.mp henergy
              obtain ⟨hcount, hbest⟩ := unrollCount_eq_some hpos hK
              refine ⟨⟨hpre, hlatch, fun e he q hq => ?_⟩, by simpa using hinvoke, hn, ⟨W, hW, rfl⟩,
                hpos, rfl, hcount, hbest⟩
              have hall := List.all_eq_true.mp (List.all_eq_true.mp hded e he) q
                (CFGAnalysis.mem_predecessors.mpr hq)
              simpa using hall

/-! ### The selection -/

theorem mem_selectInNests {Ls : List Loop} {x : Loop × LoopUnrollPlan} :
    x ∈ I.selectInNests Ls ↔ ∃ L ∈ Ls, x ∈ I.selectInNest L := by
  induction Ls with
  | nil => simp [selectInNests]
  | cons L Ls ih => simp [selectInNests, ih]

/-- A nest with a plan selects its outermost loop, any other nest what its sub-loops select. -/
theorem selectInNest_eq (L : Loop) : I.selectInNest L = match I.computePlan L with
    | .ok plan => [(L, plan)]
    | .error _ => I.selectInNests L.subLoops := by
  cases L
  rw [selectInNest]
  rfl

/-- What is selected in a nest: a loop of the nest with its plan. -/
private theorem computePlan_of_mem (L : Loop) : ∀ {S : Loop} {p : LoopUnrollPlan},
    (S, p) ∈ I.selectInNest L → S ∈ L.collectOutermostFirst ∧ I.computePlan S = .ok p := by
  induction L using Loop.nest_induction with
  | step L ih =>
    intro S p h
    rw [selectInNest_eq] at h
    split at h
    · next plan hplan =>
        obtain ⟨rfl, rfl⟩ := Prod.mk.inj (List.mem_singleton.mp h)
        exact ⟨S.self_mem_nest, hplan⟩
    · obtain ⟨M, hM, hS⟩ := mem_selectInNests.mp h
      obtain ⟨hmem, hplan⟩ := ih M hM hS
      exact ⟨Loop.mem_collectOutermostFirst.mpr (.inr ⟨M, hM, hmem⟩), hplan⟩

/-- A loop with a plan is inside a selected one. -/
private theorem exists_selected (L : Loop) : ∀ {S : Loop} {p : LoopUnrollPlan},
    S ∈ L.collectOutermostFirst → I.computePlan S = .ok p →
      ∃ x ∈ I.selectInNest L, S ∈ x.1.collectOutermostFirst := by
  induction L using Loop.nest_induction with
  | step L ih =>
    intro S p hS hp
    rw [selectInNest_eq]
    split
    · next plan _ => exact ⟨(L, plan), List.mem_singleton_self _, hS⟩
    · next e he =>
        rcases Loop.mem_collectOutermostFirst.mp hS with rfl | ⟨M, hM, hSM⟩
        · rw [he] at hp
          cases hp
        · obtain ⟨x, hx, hSx⟩ := ih M hM hSM hp
          exact ⟨x, mem_selectInNests.mpr ⟨M, hM, hx⟩, hSx⟩

/-- The selections of disjoint nests are disjoint. -/
private theorem disjoint_of_nests {L M : Loop} (hL : ∀ T ∈ L.collectOutermostFirst, T.Natural I.C)
    (hM : ∀ T ∈ M.collectOutermostFirst, T.Natural I.C) (hLM : L.Disjoint M)
    {x y : Loop × LoopUnrollPlan} (hx : x ∈ I.selectInNest L) (hy : y ∈ I.selectInNest M) :
    x.1.Disjoint y.1 := fun b hbx hby =>
  hLM b (Loop.nest_subset L hL (computePlan_of_mem L hx).1 b hbx)
    (Loop.nest_subset M hM (computePlan_of_mem M hy).1 b hby)

private theorem pairwise_selectInNests {Ls : List Loop}
    (hnat : ∀ L ∈ Ls, ∀ T ∈ L.collectOutermostFirst, T.Natural I.C)
    (hdisjoint : Ls.Pairwise Loop.Disjoint)
    (hnest : ∀ L ∈ Ls, (I.selectInNest L).Pairwise fun x y => x.1.Disjoint y.1) :
    (I.selectInNests Ls).Pairwise fun x y => x.1.Disjoint y.1 := by
  induction Ls with
  | nil => exact List.Pairwise.nil
  | cons L Ls ih =>
    obtain ⟨hL, hdisjoint⟩ := List.pairwise_cons.mp hdisjoint
    rw [selectInNests, List.pairwise_append]
    refine ⟨hnest L (List.mem_cons_self ..), ih (fun M hM => hnat M (List.mem_cons_of_mem _ hM))
      hdisjoint fun M hM => hnest M (List.mem_cons_of_mem _ hM), fun x hx y hy => ?_⟩
    obtain ⟨M, hM, hy⟩ := mem_selectInNests.mp hy
    exact disjoint_of_nests (hnat L (List.mem_cons_self ..))
      (hnat M (List.mem_cons_of_mem _ hM)) (hL M hM) hx hy

private theorem pairwise_selectInNest (L : Loop)
    (hnat : ∀ T ∈ L.collectOutermostFirst, T.Natural I.C) :
    (I.selectInNest L).Pairwise fun x y => x.1.Disjoint y.1 := by
  induction L using Loop.nest_induction with
  | step L ih =>
    have hsub : ∀ S ∈ L.subLoops, ∀ T ∈ S.collectOutermostFirst, T.Natural I.C :=
      fun S hS T hT => hnat T (Loop.mem_nest_trans hT (Loop.subLoop_mem_nest hS))
    rw [selectInNest_eq]
    split
    · exact List.pairwise_singleton ..
    · exact pairwise_selectInNests hsub (hnat L L.self_mem_nest).sub_disjoint
        fun S hS => ih S hS (hsub S hS)

/-- **The selection is safe and complete.** In a function in loop-simplify form, every selected
loop has a plan whose unroll count is the best one, and every stretch of an execution of the loop
with at most that many iterations, in which a latch leads back to its header or out of its loop,
costs less than `E_safe`. No selected loop shares a block with another one, and every loop with a
plan is inside a selected one. -/
theorem selectLoopsToUnroll_safe (hsimp : I.LI.Simplified) :
    (∀ x ∈ I.selectLoopsToUnroll, x.1 ∈ I.LI.loops ∧ Planned I x.1 x.2 ∧
      ∀ w, x.1.Walk I.C w → List.IsChain (x.1.LatchStep I.C) w →
        (∀ S ∈ x.1.subLoops, ∀ T ∈ S.collectOutermostFirst, Loop.TripBound I.tripCount T w) →
        w.count x.1.header ≤ x.2.unrollCount →
        Loop.energyOf I.C w < I.params.calculateESafe) ∧
      (I.selectLoopsToUnroll.Pairwise fun x y => x.1.Disjoint y.1) ∧
      ∀ L ∈ I.LI.loops, ∀ p, I.computePlan L = .ok p →
        ∃ x ∈ I.selectLoopsToUnroll, L ∈ x.1.collectOutermostFirst := by
  have hnest : ∀ R ∈ I.LI.topLevelLoops, ∀ T ∈ R.collectOutermostFirst, T ∈ I.LI.loops :=
    fun R hR T hT => Loop.mem_collectAll.mpr ⟨R, hR, hT⟩
  refine ⟨fun x hx => ?_, ?_, fun L hL p hp => ?_⟩
  · obtain ⟨R, hR, hx⟩ := mem_selectInNests.mp hx
    obtain ⟨hmem, hplan⟩ := computePlan_of_mem R hx
    have hplanned := planned_of_computePlan hplan
    refine ⟨hnest R hR _ hmem, hplanned, fun w hwalk hlatch htrip hcount => ?_⟩
    obtain ⟨W, hW, henergy⟩ := hplanned.iteration
    have hloops : ∀ T ∈ x.1.collectOutermostFirst, T ∈ I.LI.loops :=
      fun T hT => hnest R hR T (Loop.mem_nest_trans hT hmem)
    have hworst := ((computeWorstCasePath_exact I.LI I.tripCount (hnest R hR _ hmem)).2.2
      I.backedgeTakenCount (fun _ _ => rfl) W).mp hW
    have hle := Loop.energy_le_count_mul_worst (fun T hT => I.LI.natural T (hloops T hT))
      (fun T hT => hsimp T (hloops T hT)) hworst hwalk hlatch htrip
    rw [henergy] at hle
    exact hle.trans_lt ((hplanned.best _).mp hcount).2.2
  · exact pairwise_selectInNests (fun R hR T hT => I.LI.natural T (hnest R hR T hT))
      I.LI.disjoint fun R hR =>
        pairwise_selectInNest R fun T hT => I.LI.natural T (hnest R hR T hT)
  · obtain ⟨R, hR, hLR⟩ := Loop.mem_collectAll.mp hL
    obtain ⟨x, hx, hLx⟩ := exists_selected R hLR hp
    exact ⟨x, mem_selectInNests.mpr ⟨R, hR, hx⟩, hLx⟩

/-- An inner loop of blocks `2` and `3`, which runs five times, in an outer loop that is too
expensive to be unrolled. -/
def nestCfg : CFGAnalysis :=
  .ofTable [(.branch [1], 1), (.branch [2], 1), (.branch [3], 1), (.branch [2, 4], 1),
    (.branch [1, 5], 1), (.ret, 1)] (by decide) (by decide) (by decide)

/-- The inner loop of `nestCfg`. -/
def nestInner : Loop := .mk 2 [2, 3] 5 none []

/-- The function of `nestCfg`, with `E_safe = 17`. -/
def nestUnroll : UnrollInput where
  C := nestCfg
  LI :=
    { topLevelLoops := [.mk 1 [1, 2, 3, 4] 10 none [nestInner]]
      natural := by decide +kernel
      disjoint := by decide +kernel }
  backedgeTakenCount L := if L.header = 2 then some 4 else some 9
  containsInvoke _ := false
  params := ⟨20, 1, 1, 3, 1, by decide⟩
  maxUnrollFactor := 4

/-- The inner loop of `nestCfg` is unrolled by four, and four iterations fit one charge. -/
theorem selectLoopsToUnroll_safe_nest :
    nestUnroll.selectLoopsToUnroll = [(nestInner, ⟨5, 4, 2, 10⟩)] ∧
      Loop.energyOf nestCfg [2, 3, 2, 3, 2, 3, 2, 3] < nestUnroll.params.calculateESafe := by
  have houter : nestUnroll.computePlan (.mk 1 [1, 2, 3, 4] 10 none [nestInner]) =
      .error .kNotBeneficial := by decide +kernel
  have hinner : nestUnroll.computePlan nestInner = .ok ⟨5, 4, 2, 10⟩ := by decide +kernel
  have hselected : nestUnroll.selectLoopsToUnroll = [(nestInner, ⟨5, 4, 2, 10⟩)] := by
    change nestUnroll.selectInNests [.mk 1 [1, 2, 3, 4] 10 none [nestInner]] = _
    rw [selectInNests, selectInNests, List.append_nil, selectInNest_eq, houter]
    change nestUnroll.selectInNests [nestInner] = _
    rw [selectInNests, selectInNests, List.append_nil, selectInNest_eq, hinner]
  obtain ⟨-, -, hsafe⟩ := (selectLoopsToUnroll_safe (I := nestUnroll) (by decide +kernel)).1
    (nestInner, ⟨5, 4, 2, 10⟩) (by rw [hselected]; exact List.mem_singleton_self _)
  refine ⟨hselected, hsafe [2, 3, 2, 3, 2, 3, 2, 3] ⟨rfl, ?_, by decide⟩ ?_ (fun S hS => ?_)
    (by decide)⟩
  · decide +kernel
  · decide +kernel
  · cases hS

end UnrollInput

end Bao.RockClimb
