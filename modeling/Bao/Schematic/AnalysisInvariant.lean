import Bao.Schematic.AnalysisRun

/-!
# What survives an analysis

The analyses of traces and loops are made of a few steps. A stretch is solved and the result is
applied; the boundary blocks of a function or a loop start without placements, and those of a loop
are forgotten at its end; the two ends of a loop take over each other's placements; and the back
edge of a loop is decided. What survives each of these, and quiet changes, survives whole analyses
(`AnalysisInvariant`), up to `solveFunction`.
-/

namespace Bao.Schematic

open SchematicSolution

/-! ### Fallible steps -/

/-- A step of a `do` block that succeeded. -/
theorem except_bind_eq_ok {α β : Type} {x : Except Failure α} {f : α → Except Failure β}
    {b : β} (h : x >>= f = .ok b) : ∃ a, x = .ok a ∧ f a = .ok b := by
  cases x with
  | error e => cases h
  | ok a => exact ⟨a, rfl, h⟩

/-- A fold of fallible steps keeps what each of them keeps. -/
private theorem invariant_foldlM {α β : Type} {I : β → Prop} {f : β → α → Except Failure β}
    {l : List α} (hf : ∀ a ∈ l, ∀ A A', I A → f A a = .ok A' → I A') {A A' : β} (hA : I A)
    (h : l.foldlM f A = .ok A') : I A' := by
  induction l generalizing A with
  | nil =>
    cases h
    exact hA
  | cons a l ih =>
    obtain ⟨B, hB, hrest⟩ := except_bind_eq_ok (by rwa [List.foldlM_cons] at h)
    exact ih (fun b hb => hf b (List.mem_cons_of_mem _ hb)) (hf a List.mem_cons_self A B hA hB)
      hrest

/-! ### The ends of a loop -/

theorem lookup_fillPlacements (target source : ValueMap Placement) (v : Value) :
    (fillPlacements target source).lookup v = (target.lookup v).or (source.lookup v) := by
  rw [← ValueMap.find?_walk source v]
  exact ValueMap.lookup_foldl_fill id source.walk target v

/-- **After the boundary placements are resolved**, the header has the placements the decision is
made from. -/
theorem lookup_resolveLoopBoundaryPlacements (s : SchematicSolution) (blocks : LoopBoundaryBlocks)
    (v : Value) :
    ((s.resolveLoopBoundaryPlacements blocks).2.decidedPlacements blocks.headerBlock).lookup v =
      (s.resolveLoopBoundaryPlacements blocks).1.headerAlloc.lookup v := by
  obtain ⟨header, latchBlock, startSynth, endSynth⟩ := blocks
  cases latchBlock with
  | none =>
    simp only [resolveLoopBoundaryPlacements]
    split_ifs
    · rfl
    · simp [setPlacements]
  | some latch =>
    simp only [resolveLoopBoundaryPlacements]
    split_ifs
    · rfl
    · by_cases heq : header = latch
      · -- a loop of one block: both maps are the one of that block
        subst heq
        simp only [setPlacements, Function.update_self, lookup_fillPlacements]
        cases (s.decidedPlacements header).lookup v <;> simp
      · simp [setPlacements, Function.update_of_ne heq]

/-! ### Analyses -/

/-- **What survives every step of the analyses** of a function. -/
structure AnalysisInvariant (ctx : Context) (I : Analysis → Prop) : Prop where
  quiet : ∀ {A s}, I A → Quiet A.solution s → I { A with solution := s }
  graph : ∀ {A} (graph : SchematicGraph), I A → I { A with graph := graph }
  apply : ∀ {A trace result tracker} (loopScope : Option Loop), I A → 3 ≤ trace.length →
    RCGSolver.solve ⟨trace, A.solution, ctx⟩ A.tracker = (some result, tracker) →
      I { A with
        solution := A.solution.applyMemoryAllocation A.graph ctx result trace loopScope
        tracker := tracker }
  boundary : ∀ {A} {b : Block}, I A → b.getLLVMBlock = none →
    I { A with solution := A.solution.setPlacements b ∅ }
  forget : ∀ {A} {b : Block}, I A → b.getLLVMBlock = none →
    I { A with solution := (A.solution.setPlacements b ∅).setBlockAllocation b none }
  resolve : ∀ {A} (blocks : LoopBoundaryBlocks), I A →
    I { A with solution := (A.solution.resolveLoopBoundaryPlacements blocks).2 }
  mismatch : ∀ {A} {L : Loop} {headerAlloc : ValueMap Placement}, I A →
    (∀ v, (A.solution.decidedPlacements (.real L.header)).lookup v = headerAlloc.lookup v) →
      I (A.decideMismatch ctx L headerAlloc)
  budget : ∀ {A A'} {trace : LoadedLoopTrace} {headerAlloc : ValueMap Placement}, I A →
    (∀ v, (A.solution.decidedPlacements (.real trace.loop.header)).lookup v =
      headerAlloc.lookup v) →
      A.decideByBudget ctx trace headerAlloc = .ok A' → I A'

namespace AnalysisInvariant

variable {ctx : Context} {I : Analysis → Prop} (hI : AnalysisInvariant ctx I) {A A' : Analysis}

include hI

theorem analyzeSubPath {loopScope : Option Loop} {subPath : List Block} (hA : I A)
    (h : A.analyzeSubPath ctx loopScope subPath = .ok A') : I A' := by
  rw [Analysis.analyzeSubPath] at h
  split_ifs at h with hlength
  split at h
  · cases h
  next result tracker hsolve =>
    cases h
    exact hI.apply loopScope hA (not_lt.mp hlength) hsolve

theorem analyzeTrace {loopScope : Option Loop} {trace : List Block} (hA : I A)
    (h : A.analyzeTrace ctx loopScope trace = .ok A') : I A' := by
  rw [Analysis.analyzeTrace] at h
  split_ifs at h
  · cases h
    exact hA
  · exact invariant_foldlM (fun _ _ _ _ => hI.analyzeSubPath) hA h

theorem findAndAnalyzeNotFixedPaths {loopScope : Option Loop} (hA : I A)
    (h : A.findAndAnalyzeNotFixedPaths ctx loopScope = .ok A') : I A' := by
  refine invariant_foldlM (fun bb _ A A' hA h => ?_) hA h
  split_ifs at h
  · cases h
    exact hA
  · exact hI.analyzeTrace hA h

/-- Traces that are added to the graph one by one. -/
theorem addTraceEdges {loopScope : Option Loop} (extend : List Block → List Block)
    {paths : List (List Block)} (hA : I A)
    (h : paths.foldlM (fun A path => Analysis.analyzeTrace ctx loopScope (extend path)
      { A with graph := A.graph.addTraceEdges (extend path) }) A = .ok A') : I A' :=
  invariant_foldlM (fun _ _ _ _ hA => hI.analyzeTrace (hI.graph _ hA)) hA h

/-- Quiet changes and empty placements for the two boundaries of a function or of a loop. -/
theorem boundaries {b b' : Block} {s₁ s₂ : SchematicSolution} (hA : I A)
    (hb : b.getLLVMBlock = none) (hb' : b'.getLLVMBlock = none) (h₁ : Quiet A.solution s₁)
    (h₂ : Quiet (s₁.setPlacements b ∅) s₂) :
    I { A with solution := s₂.setPlacements b' ∅ } :=
  hI.boundary (hI.quiet (hI.boundary (hI.quiet hA h₁) hb) h₂) hb'

theorem analyzeLoopBody {trace : LoadedLoopTrace} (hA : I A)
    (h : A.analyzeLoopBody ctx trace = .ok A') : I A' := by
  rw [Analysis.analyzeLoopBody] at h
  dsimp only at h
  split_ifs at h
  · cases h
  · obtain ⟨A₁, hA₁, h⟩ := except_bind_eq_ok h
    obtain ⟨A₂, hA₂, h⟩ := except_bind_eq_ok h
    cases h
    have hinit : I { A with
        solution := A.solution.initializeSyntheticLoopBoundaryState ctx
          (createLoopBoundaryBlocks trace.loop) } :=
      hI.boundaries hA rfl rfl (quiet_setMeta _ _) (quiet_setMeta _ _)
    have htraces := hI.addTraceEdges
      (fun path => (createLoopBoundaryBlocks trace.loop).startSynth :: path ++
        [(createLoopBoundaryBlocks trace.loop).endSynth]) hinit hA₁
    exact hI.quiet (hI.findAndAnalyzeNotFixedPaths htraces hA₂)
      ((quiet_removePotentialCheckpointsBetweenFixedBBs _).trans
        (quiet_refreshDisabledCheckpointEnergy _))

theorem analyzeLoop {trace : LoadedLoopTrace} (hA : I A)
    (h : A.analyzeLoop ctx trace = .ok A') : I A' := by
  rw [Analysis.analyzeLoop] at h
  dsimp only at h
  obtain ⟨B, hB, h⟩ := except_bind_eq_ok h
  have hresolve := hI.resolve (createLoopBoundaryBlocks trace.loop) (hI.analyzeLoopBody hA hB)
  have hplaced := lookup_resolveLoopBoundaryPlacements B.solution
    (createLoopBoundaryBlocks trace.loop)
  -- the two synthetic blocks are forgotten at the end
  have herase : ∀ D : Analysis, I D → I { D with
      solution := D.solution.eraseSyntheticLoopBoundaryState
        (createLoopBoundaryBlocks trace.loop) } := fun D hD =>
    hI.forget (hI.quiet (hI.forget (hI.quiet hD (quiet_setMeta _ _)) rfl) (quiet_setMeta _ _)) rfl
  split_ifs at h
  · cases h
    exact herase _ (hI.mismatch hresolve hplaced)
  · obtain ⟨D, hD, h⟩ := except_bind_eq_ok h
    cases h
    exact herase _ (hI.budget hresolve hplaced hD)

theorem analyzeLoops {traces : List LoadedLoopTrace} (hA : I A)
    (h : A.analyzeLoops ctx traces = .ok A') : I A' := by
  rw [Analysis.analyzeLoops] at h
  split_ifs at h
  exact invariant_foldlM (fun _ _ _ _ => hI.analyzeLoop) hA h

end AnalysisInvariant

/-- **What `solveFunction` returns**: the calls are folded, and what survives the analyses survives
the rest. -/
theorem solveFunction_invariant {F : FunctionInput} {params : SchematicParams}
    {summaries : ℕ → Option CallSummary} {tracker : VMAddressTracker} {ctx : Context} {A : Analysis}
    (h : solveFunction F params summaries tracker = .ok (ctx, A)) :
    ∃ graph s, foldCalleeSummaries graph summaries F.calls
        ⟨F.allNvmCost params, F.state, params, F.LI⟩ {} = some (ctx, s) ∧
      ∀ I, AnalysisInvariant ctx I → I ⟨s, graph, tracker⟩ → I A := by
  rw [solveFunction] at h
  dsimp only at h
  split at h
  · cases h
  next ctx' s hfold =>
    split_ifs at h
    · cases h
    · obtain ⟨A₁, hA₁, h⟩ := except_bind_eq_ok h
      obtain ⟨A₂, hA₂, h⟩ := except_bind_eq_ok h
      obtain ⟨A₃, hA₃, h⟩ := except_bind_eq_ok h
      cases h
      refine ⟨_, s, hfold, fun I hI hs => ?_⟩
      have hbound : I { A₁ with solution := initializeFunctionBoundaries params A₁.solution } :=
        hI.boundaries (hI.analyzeLoops hs hA₁) rfl rfl (quiet_setMeta _ _) (quiet_setMeta _ _)
      have htraces := hI.addTraceEdges (fun path => .startFunc :: path ++ [.endFunc]) hbound hA₂
      exact hI.quiet (hI.findAndAnalyzeNotFixedPaths htraces hA₃)
        (quiet_removePotentialCheckpointsBetweenFixedBBs none)

end Bao.Schematic
