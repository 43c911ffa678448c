import Bao.Schematic.AddressTracker
import Bao.Schematic.LoopRun

/-!
# Runs of the pass

The SCHEMATIC pass works through the functions of a module with one address tracker. What it does to
placements, allocations and addresses is a sequence of events: calls are folded, traces are solved
and applied, the ends of a loop take over each other's placements, a loop body is allocated anew by
the convergence or for a split, the back edge of a loop is decided, and a summary is read off.

A run (`PassRun`) is any sequence of events with quiet changes in between, and its log has every
event with the state before it. What `solveFunction` returns is reached by a run
(`solveFunction_runs`).
-/

namespace Bao.Schematic

open RegionAllocation SchematicSolution
open Bao.Machine

/-! ### Events -/

/-- The state of the pass: the function it is at, the tracker and the summaries of the module, and
the body allocation of the loop it is at. -/
structure PassState where
  ctx : Context
  solution : SchematicSolution := {}
  tracker : VMAddressTracker := {}
  summaries : List CallSummary := []
  bodyAlloc : RegionAllocation := {}

/-- What the pass does. -/
inductive PassEvent
  /-- The next function. -/
  | function (ctx : Context)
  | fold (S : CallSummary) (ic : IsolatedCall)
  /-- A trace is solved and the result applied. -/
  | apply (result : RCGSolver.RCGResult) (trace : List Block)
  /-- A trace is solved in vain. -/
  | infeasible (trace : List Block)
  /-- A synthetic block starts without placements. -/
  | boundary (b : Block)
  /-- A synthetic block is forgotten. -/
  | forget (b : Block)
  | fill (blocks : LoopBoundaryBlocks)
  /-- The body allocation holds the placements of the header. -/
  | header (header : Block)
  | converge (L : Loop) (accesses : ValueMap VariableAccessEstimate) (refs : List AllocRef)
  | split (L : Loop)
  | decide (header : Block) (d : LoopCheckpointDecision)
  | capture

/-- The energies of a loop body with a new allocation. -/
def PassState.recompute (σ : PassState) (graph : SchematicGraph) (L : Loop)
    (body : RegionAllocation) : SchematicSolution :=
  (σ.solution.recomputeLoopBodyEnergyOnCFG graph σ.ctx L body
    (createLoopBoundaryBlocks L)).refreshDisabledCheckpointEnergy graph σ.ctx (some L)

variable (size : Value → ℕ) (params : SchematicParams)

/-- **One event.** -/
inductive PassStep : PassState → PassEvent → PassState → Prop
  | function {σ : PassState} {ctx : Context} (hparams : ctx.params = params)
      (hsized : ctx.state.Sized size) :
      PassStep σ (.function ctx) { σ with ctx := ctx, solution := {}, bodyAlloc := {} }
  | fold {σ : PassState} {graph : SchematicGraph} {S : CallSummary} {ic : IsolatedCall}
      (hS : S ∈ σ.summaries) :
      PassStep σ (.fold S ic) { σ with
        ctx := (foldCall σ.ctx graph S ic σ.solution).1
        solution := (foldCall σ.ctx graph S ic σ.solution).2 }
  | apply {σ : PassState} {graph : SchematicGraph} {result : RCGSolver.RCGResult}
      {trace : List Block} {loopScope : Option Loop} {T : VMAddressTracker}
      (hlength : 3 ≤ trace.length)
      (hsolve : RCGSolver.solve ⟨trace, σ.solution, σ.ctx⟩ σ.tracker = (some result, T)) :
      PassStep σ (.apply result trace) { σ with
        solution := σ.solution.applyMemoryAllocation graph σ.ctx result trace loopScope
        tracker := T }
  | infeasible {σ : PassState} {trace : List Block} {T : VMAddressTracker}
      (hsolve : RCGSolver.solve ⟨trace, σ.solution, σ.ctx⟩ σ.tracker = (none, T)) :
      PassStep σ (.infeasible trace) { σ with tracker := T }
  | boundary {σ : PassState} {b : Block} (hb : b.getLLVMBlock = none) :
      PassStep σ (.boundary b) { σ with solution := σ.solution.setPlacements b ∅ }
  | forget {σ : PassState} {b : Block} (hb : b.getLLVMBlock = none) :
      PassStep σ (.forget b) { σ with
        solution := (σ.solution.setPlacements b ∅).setBlockAllocation b none }
  | fill {σ : PassState} {blocks : LoopBoundaryBlocks} :
      PassStep σ (.fill blocks) { σ with
        solution := (σ.solution.resolveLoopBoundaryPlacements blocks).2 }
  | header {σ : PassState} {header : Block} {p : ValueMap Placement}
      (hp : ∀ v, p.lookup v = (σ.solution.decidedPlacements header).lookup v) :
      PassStep σ (.header header) { σ with bodyAlloc := buildBoundaryAllocation p σ.ctx.state }
  | converge {σ : PassState} {graph : SchematicGraph} {L : Loop}
      {accesses : ValueMap VariableAccessEstimate} {refs : List AllocRef}
      {choice : (RegionAllocation × ℚ) × VMAddressTracker}
      (hrefs : ∀ r ∈ refs, ∃ bb ∈ L.blocks, σ.solution.blockAllocation (.real bb) = some r)
      (hchoice : chooseMemoryAllocationOf accesses σ.ctx.state σ.ctx.params none none
        (refs.map σ.solution.heap) σ.tracker = choice) :
      PassStep σ (.converge L accesses refs) { σ with
        solution := σ.recompute graph L choice.1.1
        tracker := choice.2
        bodyAlloc := choice.1.1 }
  | split {σ : PassState} {graph : SchematicGraph} {L : Loop} :
      PassStep σ (.split L) { σ with solution := σ.recompute graph L σ.bodyAlloc }
  | decide {σ : PassState} {header : Block} {d : LoopCheckpointDecision}
      (hd : d.bodyAllocation = σ.bodyAlloc) :
      PassStep σ (.decide header d) { σ with solution := σ.solution.setDecision header d }
  | capture {σ : PassState} :
      PassStep σ .capture { σ with summaries := captureCallSummary σ.solution :: σ.summaries }

/-- Only quiet changes to the function that the pass is at. -/
inductive PassQuiet : PassState → PassState → Prop
  | intro {σ : PassState} {s : SchematicSolution} (h : Quiet σ.solution s) :
      PassQuiet σ { σ with solution := s }

theorem PassQuiet.refl (σ : PassState) : PassQuiet σ σ := .intro (.refl σ.solution)

instance : IsPreorder PassState PassQuiet where
  refl := .refl
  trans := by
    rintro σ _ _ ⟨h⟩ ⟨h'⟩
    exact .intro (h.trans h')

/-- **A run** with its log: before each event, and after the last one, only quiet changes. -/
abbrev PassRun : PassState → List (PassState × PassEvent) → PassState → Prop :=
  LoggedRun PassQuiet (PassStep size params)

/-- Some run leads from one state to the other. -/
abbrev PassReaches : PassState → PassState → Prop := LoggedReach PassQuiet (PassStep size params)

variable {size params}

/-- **An invariant of a run** whose events meet a condition: it survives quiet changes and holds
after every event that meets the condition in a state with the invariant. -/
theorem PassRun.invariant {I : PassState → Prop} {C : PassState → PassEvent → Prop}
    (hquiet : ∀ σ s, I σ → Quiet σ.solution s → I { σ with solution := s })
    (hstep : ∀ σ e σ', I σ → C σ e → PassStep size params σ e σ' → I σ') {σ τ : PassState}
    {log : List (PassState × PassEvent)} (hrun : PassRun size params σ log τ)
    (hlog : ∀ entry ∈ log, C entry.1 entry.2) (hσ : I σ) : I τ ∧ ∀ entry ∈ log, I entry.1 := by
  refine LoggedRun.invariant ?_ hstep hrun hlog hσ
  rintro σ _ hσ ⟨h⟩
  exact hquiet σ _ hσ h

namespace PassReaches

variable {σ τ υ : PassState}

theorem refl (σ : PassState) : PassReaches size params σ σ := LoggedReach.refl σ

theorem trans (h : PassReaches size params σ τ) (h' : PassReaches size params τ υ) :
    PassReaches size params σ υ := LoggedReach.trans h h'

theorem of_step {e : PassEvent} (h : PassStep size params σ e τ) : PassReaches size params σ τ :=
  LoggedReach.of_step h

theorem then_step {e : PassEvent} (h : PassReaches size params σ τ)
    (h' : PassStep size params τ e υ) : PassReaches size params σ υ := LoggedReach.then_step h h'

theorem of_quiet {s : SchematicSolution} (h : Quiet σ.solution s) :
    PassReaches size params σ { σ with solution := s } := LoggedReach.of_quiet (.intro h)

theorem then_quiet {s : SchematicSolution} (h : PassReaches size params σ τ)
    (h' : Quiet τ.solution s) : PassReaches size params σ { τ with solution := s } :=
  h.trans (of_quiet h')

end PassReaches

/-! ### Every analysis is a run -/

/-- The state of the pass at an analysis. -/
def PassState.at (σ : PassState) (A : Analysis) (body : RegionAllocation) : PassState :=
  { σ with solution := A.solution, tracker := A.tracker, bodyAlloc := body }

section Analyses

variable {σ : PassState}

/-- A recomputation keeps the pointers of the blocks that have one. -/
theorem blockAllocation_recompute (τ : PassState) {graph : SchematicGraph} {L : Loop}
    {body : RegionAllocation} {b : Block} {r : AllocRef}
    (h : τ.solution.blockAllocation b = some r) :
    (τ.recompute graph L body).blockAllocation b = some r := by
  obtain ⟨s₁, hquiet, hrefresh⟩ := recompute_spec τ.ctx τ.solution graph L body
  have hreset : (τ.solution.resetLoopBody L body).blockAllocation b = some r := by
    refine List.foldlRecOn (motive := fun s : SchematicSolution => s.blockAllocation b = some r)
      L.blocks.dedup _ h fun s hs bb _ => ?_
    simp only [resetBlock]
    split
    · rw [extendBlock_blockAllocation]
      exact hs
    next hnone =>
      refine (Function.update_of_ne ?_ _ _).trans hs
      rintro rfl
      cases hnone.symm.trans hs
  rw [PassState.recompute, hrefresh.blockAllocation]
  exact hquiet.blockAllocation ▸ hreset

/-- The state of the pass at a convergence. -/
def PassState.converged (τ : PassState) (C : Convergence) : PassState :=
  { τ with solution := C.solution, tracker := C.tracker, bodyAlloc := C.bodyAlloc }

/-- One round of the convergence. -/
private theorem reaches_round (graph : SchematicGraph) {trace : LoadedLoopTrace} (maxTripCount : ℕ)
    {refs : List AllocRef} {C : Convergence}
    (hrefs : ∀ r ∈ refs, ∃ bb ∈ trace.loop.blocks, C.solution.blockAllocation (.real bb) = some r) :
    PassReaches size params (σ.converged C)
        (σ.converged (C.round σ.ctx graph trace maxTripCount refs).1) ∧
      (C.round σ.ctx graph trace maxTripCount refs).1.decision.bodyAllocation =
        (C.round σ.ctx graph trace maxTripCount refs).1.bodyAlloc ∧
      ∀ r ∈ refs, ∃ bb ∈ trace.loop.blocks,
        (C.round σ.ctx graph trace maxTripCount refs).1.solution.blockAllocation (.real bb) =
          some r := by
  obtain ⟨accesses, -, hbody, htracker, hdecision, hsolution⟩ :=
    round_eq σ.ctx graph trace maxTripCount refs C
  have hround : (C.round σ.ctx graph trace maxTripCount refs).1.solution =
      (σ.converged C).recompute graph trace.loop
        (C.round σ.ctx graph trace maxTripCount refs).1.bodyAlloc := hsolution
  refine ⟨?_, hdecision, fun r hr => ?_⟩
  · -- the round is one event of the pass
    have hstep : PassStep size params (σ.converged C) (.converge trace.loop accesses refs)
        { σ.converged C with
          solution := (σ.converged C).recompute graph trace.loop
            (C.round σ.ctx graph trace maxTripCount refs).1.bodyAlloc
          tracker := (C.round σ.ctx graph trace maxTripCount refs).1.tracker
          bodyAlloc := (C.round σ.ctx graph trace maxTripCount refs).1.bodyAlloc } := by
      rw [hbody, htracker]
      exact .converge hrefs rfl
    rw [← hround] at hstep
    exact .of_step hstep
  · obtain ⟨bb, hbb, hpoint⟩ := hrefs r hr
    rw [hround]
    exact ⟨bb, hbb, blockAllocation_recompute (σ.converged C) hpoint⟩

/-- The rounds of the convergence, with the objects collected before the first one. -/
private theorem reaches_rounds {graph : SchematicGraph} {trace : LoadedLoopTrace} {maxTripCount : ℕ}
    {refs : List AllocRef} (fuel previous : ℕ) {C : Convergence}
    (hbody : C.decision.bodyAllocation = C.bodyAlloc)
    (hrefs : ∀ r ∈ refs, ∃ bb ∈ trace.loop.blocks, C.solution.blockAllocation (.real bb) = some r) :
    PassReaches size params (σ.converged C)
        (σ.converged (C.rounds σ.ctx graph trace maxTripCount refs fuel previous)) ∧
      (C.rounds σ.ctx graph trace maxTripCount refs fuel previous).decision.bodyAllocation =
        (C.rounds σ.ctx graph trace maxTripCount refs fuel previous).bodyAlloc := by
  induction fuel generalizing previous C with
  | zero => exact ⟨.refl _, hbody⟩
  | succ fuel ih =>
    rw [Convergence.rounds]
    split_ifs
    · exact ⟨.refl _, hbody⟩
    · obtain ⟨hreach, hdecision, hpointed⟩ := reaches_round graph maxTripCount hrefs
      split
      next C' hround =>
        rw [hround] at hreach hdecision hpointed
        obtain ⟨hrest, hbody'⟩ := ih C.budget.numIterations hdecision hpointed
        exact ⟨hreach.trans hrest, hbody'⟩
      next C' hround =>
        rw [hround] at hreach hdecision
        exact ⟨hreach, hdecision⟩

private theorem reaches_refine (graph : SchematicGraph) {trace : LoadedLoopTrace} (maxTripCount : ℕ)
    {C : Convergence} (hbody : C.decision.bodyAllocation = C.bodyAlloc) :
    PassReaches size params (σ.converged C)
        (σ.converged (refineLoopBudgetWithConvergence σ.ctx graph trace maxTripCount C)) ∧
      (refineLoopBudgetWithConvergence σ.ctx graph trace maxTripCount C).decision.bodyAllocation =
        (refineLoopBudgetWithConvergence σ.ctx graph trace maxTripCount C).bodyAlloc := by
  simp only [refineLoopBudgetWithConvergence]
  split_ifs
  · exact ⟨.refl _, hbody⟩
  · exact reaches_rounds (C := { C with decision := { C.decision with
        hadEnabledCheckpoints := C.solution.hasEnabledCheckpointsInLoop trace.loop
        convergenceApplied := true } }) 15 0 hbody
      (loopObjects_collect C.solution trace.loop).pointed

private theorem reaches_splitLoopBody {graph : SchematicGraph} {L : Loop}
    {bodyPaths : List (List Block)} {C C' : Convergence}
    (hbody : C.decision.bodyAllocation = C.bodyAlloc)
    (h : splitLoopBody σ.ctx graph L bodyPaths C = .ok C') :
    PassReaches size params (σ.converged C) (σ.converged C') ∧
      C'.decision.bodyAllocation = C'.bodyAlloc := by
  simp only [splitLoopBody] at h
  split_ifs at h
  · cases h
    exact ⟨.refl _, hbody⟩
  · split at h
    · cases h
    next s₁ hs₁ =>
      split_ifs at h
      cases h
      have hquiet := quiet_splitLoopBodyAtFixedBoundary hs₁
      exact ⟨(PassReaches.of_quiet (σ := σ.converged C) hquiet).then_step .split, hbody⟩

/-- The placements of the header as the body allocation. -/
private theorem reaches_header {A : Analysis} {header : Block} {headerAlloc : ValueMap Placement}
    (hplaced : ∀ v, (A.solution.decidedPlacements header).lookup v = headerAlloc.lookup v)
    (body : RegionAllocation) :
    PassReaches size params (σ.at A body)
      (σ.at A (buildBoundaryAllocation headerAlloc σ.ctx.state)) :=
  .of_step (.header fun v => (hplaced v).symm)

/-- A decision with the body allocation at hand, and what follows it quietly. -/
private theorem reaches_decide {τ : PassState} {header : Block} {d : LoopCheckpointDecision}
    {s : SchematicSolution} (hd : d.bodyAllocation = τ.bodyAlloc)
    (hquiet : Quiet (τ.solution.setDecision header d) s) :
    PassReaches size params τ { τ with solution := s } :=
  (PassReaches.of_step (.decide hd)).then_quiet hquiet

private theorem passReaches_decideMismatch {A : Analysis} {L : Loop}
    {headerAlloc : ValueMap Placement}
    (hplaced : ∀ v, (A.solution.decidedPlacements (.real L.header)).lookup v = headerAlloc.lookup v)
    (body : RegionAllocation) :
    ∃ body', PassReaches size params (σ.at A body)
      (σ.at (A.decideMismatch σ.ctx L headerAlloc) body') := by
  refine ⟨buildBoundaryAllocation headerAlloc σ.ctx.state, (reaches_header hplaced body).trans ?_⟩
  simp only [Analysis.decideMismatch]
  split
  · exact reaches_decide rfl
      ((quiet_propagateMandatoryLoopBoundary _ _ _).trans (quiet_setCheckpointState _ _))
  · exact reaches_decide rfl (quiet_propagateMandatoryLoopBoundary _ _ _)

private theorem passReaches_decideByBudget {A A' : Analysis} {trace : LoadedLoopTrace}
    {headerAlloc : ValueMap Placement}
    (hplaced : ∀ v, (A.solution.decidedPlacements (.real trace.loop.header)).lookup v =
      headerAlloc.lookup v) (body : RegionAllocation)
    (h : A.decideByBudget σ.ctx trace headerAlloc = .ok A') :
    ∃ body', PassReaches size params (σ.at A body) (σ.at A' body') := by
  have hcopy := quiet_copyLoopBoundaryEnergyToSyntheticBlocks (s := A.solution)
    (createLoopBoundaryBlocks trace.loop)
  rw [Analysis.decideByBudget] at h
  dsimp only at h
  generalize A.solution.copyLoopBoundaryEnergyToSyntheticBlocks
    (createLoopBoundaryBlocks trace.loop) = s at h hcopy
  generalize s.readLoopIterationBudget σ.ctx (createLoopBoundaryBlocks trace.loop)
    (buildBoundaryAllocation headerAlloc σ.ctx.state) = budget at h
  have hstart : PassReaches size params (σ.at A body) (σ.at { A with solution := s }
      (buildBoundaryAllocation headerAlloc σ.ctx.state)) :=
    (reaches_header hplaced body).then_quiet hcopy
  -- iterations that cost nothing, a charge with nothing left for one, or a convergence
  split_ifs at h
  · cases h
    exact ⟨_, hstart.then_step (.decide rfl)⟩
  · cases h
    split
    · exact ⟨_, hstart.trans (reaches_decide rfl (quiet_setCheckpointState _ _))⟩
    · exact ⟨_, hstart.then_step (.decide rfl)⟩
  · obtain ⟨C, hC, hend⟩ := except_bind_eq_ok h
    cases hend
    obtain ⟨hrefine, hbody⟩ := reaches_refine (σ := σ) A.graph
      (trace.maxTripCount.getD (2 ^ 32 - 1)) (C := ⟨s, A.tracker, budget,
        buildBoundaryAllocation headerAlloc σ.ctx.state,
        { loop := trace.loop, E_loop := budget.ELoop
          bodyAllocation := buildBoundaryAllocation headerAlloc σ.ctx.state }⟩) rfl
    obtain ⟨hsplit, hbody⟩ := reaches_splitLoopBody hbody hC
    obtain ⟨hpolicy, hkept⟩ := quiet_applyLoopCheckpointPolicy (s := C.solution) A.graph
      (trace.maxTripCount.getD (2 ^ 32 - 1) % 2 ^ 32) (createLoopBoundaryBlocks trace.loop) C.budget
      C.decision
    have hpolicied := ((hstart.trans hrefine).trans hsplit).then_quiet hpolicy
    exact ⟨C.bodyAlloc, hpolicied.trans (reaches_decide (hkept.trans hbody)
      (quiet_applyLoopIterationAdjustment _ _ _ _))⟩

variable (size params σ) in
/-- **The analyses** do what a run of the pass does. -/
theorem analysisInvariant_passReaches (σ₀ : PassState) :
    AnalysisInvariant σ.ctx fun A => ∃ body, PassReaches size params σ₀ (σ.at A body) where
  quiet := fun h hquiet => h.imp fun _ h => h.then_quiet hquiet
  graph := fun _ h => h
  apply := fun _ h hlength hsolve => h.imp fun _ h => h.then_step (.apply hlength hsolve)
  boundary := fun h hb => h.imp fun _ h => h.then_step (.boundary hb)
  forget := fun h hb => h.imp fun _ h => h.then_step (.forget hb)
  resolve := fun _ h => h.imp fun _ h => h.then_step .fill
  mismatch := fun h hplaced => h.elim fun body h =>
    (passReaches_decideMismatch hplaced body).imp fun _ h' => h.trans h'
  budget := fun h hplaced hok => h.elim fun body h =>
    (passReaches_decideByBudget hplaced body hok).imp fun _ h' => h.trans h'

end Analyses

/-! ### Functions -/

/-- The calls of a function are folded one by one. -/
private theorem passReaches_foldCalleeSummaries {graph : SchematicGraph}
    {summaries : ℕ → Option CallSummary} {calls : List IsolatedCall} {σ : PassState}
    (hsum : ∀ f S, summaries f = some S → S ∈ σ.summaries) {ctx : Context} {s : SchematicSolution}
    (h : foldCalleeSummaries graph summaries calls σ.ctx σ.solution = some (ctx, s)) :
    PassReaches size params σ { σ with ctx := ctx, solution := s } := by
  rw [foldCalleeSummaries] at h
  induction calls generalizing σ with
  | nil =>
    cases h
    exact .refl _
  | cons ic calls ih =>
    rw [List.foldlM_cons, Option.bind_eq_bind, Option.bind_eq_some_iff] at h
    obtain ⟨p, hp, hrest⟩ := h
    obtain ⟨S, hS, rfl⟩ := Option.map_eq_some_iff.mp hp
    have hfold : PassStep size params σ (.fold S ic) { σ with
        ctx := (foldCall σ.ctx graph S ic σ.solution).1
        solution := (foldCall σ.ctx graph S ic σ.solution).2 } := .fold (hsum _ S hS)
    exact (PassReaches.of_step hfold).trans (ih hsum hrest)

variable (size) in
/-- **What `solveFunction` returns is reached by a run** of the pass, from the state in which the
function is started. -/
theorem solveFunction_runs {F : FunctionInput} {summaries : ℕ → Option CallSummary} {σ : PassState}
    {ctx : Context} {A : Analysis} (hctx : σ.ctx = ⟨F.allNvmCost params, F.state, params, F.LI⟩)
    (hsolution : σ.solution = {}) (hsum : ∀ f S, summaries f = some S → S ∈ σ.summaries)
    (h : solveFunction F params summaries σ.tracker = .ok (ctx, A)) :
    ∃ body, PassReaches size params σ { σ with
      ctx := ctx, solution := A.solution, tracker := A.tracker, bodyAlloc := body } := by
  obtain ⟨graph, s, hfold, hrest⟩ := solveFunction_invariant h
  rw [← hctx, ← hsolution] at hfold
  exact hrest _ (analysisInvariant_passReaches size params { σ with ctx := ctx } σ)
    ⟨σ.bodyAlloc, passReaches_foldCalleeSummaries hsum hfold⟩

end Bao.Schematic
