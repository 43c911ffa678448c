import Bao.Schematic.LoopRun

/-!
# What a back-edge checkpoint moves

The checkpoint on the back edge of a loop moves the variables of the decision's `bodyAllocation`, on
both sides. The accesses of the latch and of the header go by the allocations of these two blocks. A
variable that the latch keeps in VM has to be saved before the boundary, and one that the header
restores has to be restored after it, so the decision has to cover both allocations (`Covered`).

* Where header and latch place variables differently, the body allocation holds the placements of
  the *header*: a variable that only the latch keeps in VM is not saved
  (`back_edge_loses_latch_variable`).
* An allocation is extended by later analyses, the body allocation of a decision is not.

`Careful` says for each action which variables it must not add. `back_edge_moves_of_careful` is the
result: a run of careful actions keeps every back edge covered.
-/

namespace Bao.Schematic

open RegionAllocation SchematicSolution

/-! ### Covered back edges -/

namespace LoopCheckpointDecision

variable (d : LoopCheckpointDecision)

/-- The back edge saves the variable. -/
def Saves (v : Value) : Prop :=
  ∃ va, d.bodyAllocation.vars.lookup v = some va ∧ va.needSave = true

/-- The back edge restores the variable. -/
def Restores (v : Value) : Prop :=
  ∃ va, d.bodyAllocation.vars.lookup v = some va ∧ va.needRestore = true

/-- What the back edge owes a block that keeps a variable: the latch a save, the header a
restore. -/
def Covers (header b : Block) (v : Value) (va : VariableAllocation) : Prop :=
  (d.loop.latch.map Block.real = some b → va.needSave = true → d.Saves v) ∧
    (b = header → va.needRestore = true → d.Restores v)

end LoopCheckpointDecision

namespace SchematicSolution

variable (s : SchematicSolution)

/-- The back edge of a recorded decision gets a checkpoint. -/
def HasBackEdgeCheckpoint (header : Block) (d : LoopCheckpointDecision) : Prop :=
  s.loopDecisions.lookup header = some d ∧ d.handledByLoopLogic = true

/-- **Every back edge covers its latch and its header.** -/
def Covered : Prop :=
  ∀ header d, s.HasBackEdgeCheckpoint header d → ∀ b r, s.blockAllocation b = some r →
    ∀ v va, (s.heap r).vars.lookup v = some va → d.Covers header b v va

/-- **The checkpoint of a back edge moves the right variables**: it saves what the latch keeps in VM
and marks for saving, and restores what the header keeps in VM and marks for restoring. -/
def MovesRightVariables (header : Block) (d : LoopCheckpointDecision) : Prop :=
  (∀ latch a, d.loop.latch = some latch → s.allocationOf (.real latch) = some a →
    ∀ v va, a.vars.lookup v = some va → va.needSave = true → v ∈ (s.backEdgeSequence d).saves) ∧
  ∀ a, s.allocationOf header = some a →
    ∀ v va, a.vars.lookup v = some va → va.needRestore = true →
      v ∈ (s.backEdgeSequence d).restores

end SchematicSolution

/-- A variable that a decision places in VM has a shadow. -/
theorem hasShadow_of_decision {s : SchematicSolution} {header : Block} {d : LoopCheckpointDecision}
    (h : s.loopDecisions.lookup header = some d) {v : Value} {va : VariableAllocation}
    (hv : d.bodyAllocation.vars.lookup v = some va) (hvm : va.placement = .vm) :
    s.hasShadow v = true := by
  simp only [hasShadow, vmPlacedVals, List.mem_insertionSort, List.mem_dedup, List.mem_flatMap,
    decide_eq_true_eq]
  refine ⟨d.bodyAllocation, List.mem_append_right _ (List.mem_map.mpr
    ⟨⟨header, d⟩, AList.mem_lookup_iff.mp h, rfl⟩), List.mem_map.mpr ⟨(v, va), ?_, rfl⟩⟩
  exact List.mem_filter.mpr ⟨ValueMap.mem_walk.mpr hv, by simpa using hvm⟩

theorem movesRightVariables_of_covered {s : SchematicSolution} (h : s.Covered) {header : Block}
    {d : LoopCheckpointDecision} (hd : s.HasBackEdgeCheckpoint header d) :
    s.MovesRightVariables header d := by
  refine ⟨fun latch a hlatch ha v va hv hsave => ?_, fun a ha v va hv hrestore => ?_⟩
  · obtain ⟨r, hr, rfl⟩ := Option.map_eq_some_iff.mp ha
    obtain ⟨wa, hw, hneed⟩ := (h header d hd _ r hr v va hv).1 (by rw [hlatch]; rfl) hsave
    have hshadow := hasShadow_of_decision hd.1 hw (by
      simp only [VariableAllocation.needSave, Bool.and_eq_true, decide_eq_true_eq] at hneed
      exact hneed.2)
    exact List.mem_map.mpr ⟨(v, wa), List.mem_filter.mpr ⟨ValueMap.mem_walk.mpr hw,
      by simp [hneed, hshadow]⟩, rfl⟩
  · obtain ⟨r, hr, rfl⟩ := Option.map_eq_some_iff.mp ha
    obtain ⟨wa, hw, hneed⟩ := (h header d hd _ r hr v va hv).2 rfl hrestore
    have hshadow := hasShadow_of_decision hd.1 hw (by
      simp only [VariableAllocation.needRestore, Bool.and_eq_true, decide_eq_true_eq] at hneed
      exact hneed.2)
    exact List.mem_map.mpr ⟨(v, wa), List.mem_filter.mpr ⟨ValueMap.mem_walk.mpr hw,
      by simp [hneed, hshadow]⟩, rfl⟩

/-! ### Careful actions -/

/-- **What keeps the back edges covered.** No pointer, extension or unification gives the latch or
the header of a decided loop a variable that its back edge does not move. When a loop is decided
from placements, the header places in VM whatever its latch has to save and it has to restore
itself. When a loop is decided by convergence, the allocations of its header and its latch are among
those that were merged, and these did not conflict. -/
def Careful (ctx : Context) (s : SchematicSolution) : Action → Prop
  | .place _ _ => True
  | .share _ => True
  | .point b r => ∀ header d, s.HasBackEdgeCheckpoint header d → ∀ r' ∈ r, ∀ v va,
      (s.heap r').vars.lookup v = some va → d.Covers header b v va
  | .extend b source => ∀ header d, s.HasBackEdgeCheckpoint header d → ∀ b' r,
      s.blockAllocation b = some r → s.blockAllocation b' = some r → ∀ v va,
        (s.heap r).vars.lookup v = none → source.vars.lookup v = some va → d.Covers header b' v va
  | .redirect old new => ∀ header d, s.HasBackEdgeCheckpoint header d → ∀ b,
      s.blockAllocation b = some old → ∀ v va, (s.heap new).vars.lookup v = some va →
        d.Covers header b v va
  | .decide header d .placements => d.handledByLoopLogic = true → ∀ b r,
      s.blockAllocation b = some r → ∀ v va, (s.heap r).vars.lookup v = some va →
        (d.loop.latch.map Block.real = some b ∧ va.needSave = true ∨
          b = header ∧ va.needRestore = true) →
        (s.decidedPlacements header).lookup v = some .vm
  | .decide header d (.converged heap refs) => d.handledByLoopLogic = true →
      (mergeAllocations (refs.map heap) ctx.state true).isSome = true ∧
      ∀ b, b = header ∨ d.loop.latch.map Block.real = some b →
        ∀ r, s.blockAllocation b = some r → r ∈ refs

/-- A run of careful actions. -/
def CarefulRun (ctx : Context) (log : List (SchematicSolution × Action)) : Prop :=
  ∀ e ∈ log, Careful ctx e.1 e.2

section Step

variable {ctx : Context} {s t : SchematicSolution}

theorem SchematicSolution.Covered.of_same (h : s.Covered) (hst : SameAllocations s t) :
    t.Covered := by
  intro header d hd b r hr v va hv
  refine h header d ⟨hst.loopDecisions ▸ hd.1, hd.2⟩ b r (hst.blockAllocation ▸ hr) v va ?_
  rw [← hst.heap]
  exact hv

/-- A body allocation from placements. -/
private theorem covers_of_fromPlacements {header b : Block} {d : LoopCheckpointDecision}
    (hd : FromPlacements s header d.bodyAllocation) {v : Value} {va : VariableAllocation}
    (hvm : (d.loop.latch.map Block.real = some b ∧ va.needSave = true ∨
      b = header ∧ va.needRestore = true) → (s.decidedPlacements header).lookup v = some .vm) :
    d.Covers header b v va := by
  have hmoved : (s.decidedPlacements header).lookup v = some .vm →
      d.bodyAllocation.vars.lookup v = some { placement := .vm } := fun h => by
    rw [hd v, h]
    rfl
  exact ⟨fun hlatch hsave => ⟨_, hmoved (hvm (Or.inl ⟨hlatch, hsave⟩)), rfl⟩,
    fun hheader hrestore => ⟨_, hmoved (hvm (Or.inr ⟨hheader, hrestore⟩)), rfl⟩⟩

/-- A merge that succeeds keeps the placement of every variable of its inputs. -/
private theorem placement_mergeAllocations {state : SchematicStateAnalysis}
    {l : List RegionAllocation} {m a : RegionAllocation}
    (hm : mergeAllocations l state true = some m) (ha : a ∈ l) {v : Value} {va : VariableAllocation}
    (hv : a.vars.lookup v = some va) :
    ∃ vb, m.vars.lookup v = some vb ∧ vb.placement = va.placement := by
  cases l with
  | nil => simp at ha
  | cons first rest =>
    obtain ⟨hfirst, hrest, -⟩ := mergeAllocations_spec hm
    rcases List.mem_cons.mp ha with rfl | ha
    · exact ⟨va, hfirst v va hv, rfl⟩
    · exact hrest a ha v va hv

/-- A body allocation from a convergence without a conflict. -/
private theorem covers_of_fromConvergence {header b : Block} {d : LoopCheckpointDecision}
    {heap : AllocRef → RegionAllocation} {refs : List AllocRef}
    (hd : FromConvergence ctx s header d.bodyAllocation heap refs)
    (hmerge : (mergeAllocations (refs.map heap) ctx.state true).isSome = true) {r : AllocRef}
    (hr : s.blockAllocation b = some r) (hrefs : r ∈ refs) {v : Value} {va : VariableAllocation}
    (hv : (s.heap r).vars.lookup v = some va) : d.Covers header b v va := by
  obtain ⟨m, hm⟩ := Option.isSome_iff_exists.mp hmerge
  obtain ⟨accesses, tracker, haccess, hbody⟩ := hd.chosen
  have hconstrained : constrainedAllocation ctx.state none none (refs.map heap) = some m := by
    simp [constrainedAllocation, mergeBoundary, hm]
  have hsaves : m.SavesAll := savesAll_mergeAllocations (fun a ha => by
    obtain ⟨r', hr', rfl⟩ := List.mem_map.mp ha
    exact hd.savesAll r' hr') hm
  have hchosen : ExtendedBy m d.bodyAllocation ∧ d.bodyAllocation.SavesAll := by
    rw [hbody]
    exact chooseMemoryAllocationOf_spec haccess hsaves hconstrained
  rw [hd.extended r hrefs v, Option.or_eq_some_iff] at hv
  refine ⟨fun _ hsave => ?_, fun hheader hrestore => ?_⟩
  · rcases hv with hv | ⟨-, hv⟩
    · -- a merged variable keeps its placement, and everything is saved
      obtain ⟨vb, hvb, hplacement⟩ := placement_mergeAllocations hm (List.mem_map_of_mem hrefs) hv
      have hin := hchosen.1 v vb hvb
      refine ⟨vb, hin, ?_⟩
      simp only [VariableAllocation.needSave, Bool.and_eq_true, decide_eq_true_eq] at hsave ⊢
      exact ⟨hchosen.2 v vb hin, hplacement.trans hsave.2⟩
    · exact ⟨va, hv, hsave⟩
  · rcases hv with hv | ⟨-, hv⟩
    · -- the flags of the header's object, the first one, win
      have hfirst := hd.header_first r hrefs (hheader ▸ hr)
      obtain ⟨rest, hrest⟩ : ∃ rest, refs = r :: rest := by
        cases refs with
        | nil => simp at hrefs
        | cons r' rest => exact ⟨rest, by rw [Option.some.inj hfirst]⟩
      rw [hrest, List.map_cons] at hm
      exact ⟨va, hchosen.1 v va ((mergeAllocations_spec hm).1 v va hv), hrestore⟩
    · exact ⟨va, hv, hrestore⟩

theorem SchematicSolution.Covered.setDecision {header : Block} {d : LoopCheckpointDecision}
    (h : s.Covered)
    (hd : d.handledByLoopLogic = true → ∀ b r, s.blockAllocation b = some r → ∀ v va,
      (s.heap r).vars.lookup v = some va → d.Covers header b v va) :
    (s.setDecision header d).Covered := by
  rintro header' d' ⟨hlookup, hhandled⟩ b r hr v va hv
  by_cases heq : header' = header
  · subst heq
    have hd' : some d = some d' := by simpa [SchematicSolution.setDecision] using hlookup
    obtain rfl := Option.some.inj hd'
    exact hd hhandled b r hr v va hv
  · refine h header' d' ⟨?_, hhandled⟩ b r hr v va hv
    simpa [SchematicSolution.setDecision, AList.lookup_insert_ne heq] using hlookup

/-- **A careful action keeps the back edges covered.** -/
theorem SchematicSolution.Covered.run {a : Action} (h : s.Covered) (hs : WellAllocated s)
    (ha : a.Valid ctx s)
    (hcareful : Careful ctx s a) : (a.run s).Covered := by
  cases a with
  | place b p => exact h
  | share a =>
    intro header d hd b r hr v va hv
    -- no block points to the fresh object yet
    have hne : r ≠ s.nextRef := ne_of_lt (hs.lt_nextRef b r hr)
    refine h header d hd b r hr v va ?_
    simpa [Action.run, makeShared, setObject, hne] using hv
  | point b r =>
    intro header d hd c r' hr' v va hv
    by_cases hc : c = b
    · subst hc
      exact hcareful header d hd r' (by simpa [Action.run, setBlockAllocation] using hr') v va hv
    · exact h header d hd c r' (by simpa [Action.run, setBlockAllocation, hc] using hr') v va hv
  | extend b source =>
    intro header d hd c r hr v va hv
    rw [Action.run, extendBlock_blockAllocation] at hr
    have hd' : s.HasBackEdgeCheckpoint header d := by
      simpa [HasBackEdgeCheckpoint, Action.run] using hd
    rw [Action.run, heap_extendBlock] at hv
    split_ifs at hv with hb
    · rw [lookup_extendsAllocation, Option.or_eq_some_iff] at hv
      rcases hv with hv | ⟨hnone, hv⟩
      · exact h header d hd' c r hr v va hv
      · exact hcareful header d hd' c r hb hr v va hnone hv
    · exact h header d hd' c r hr v va hv
  | redirect old new =>
    intro header d hd c r hr v va hv
    simp only [Action.run, redirect] at hr
    split_ifs at hr with hold
    · obtain rfl := Option.some.inj hr
      exact hcareful header d hd c hold v va hv
    · exact h header d hd c r hr v va hv
  | decide header d origin =>
    refine h.setDecision fun hhandled b r hr v va hv => ?_
    cases origin with
    | placements => exact covers_of_fromPlacements ha (hcareful hhandled b r hr v va hv)
    | converged heap refs =>
      obtain ⟨hmerge, hrefs⟩ := hcareful hhandled
      exact ⟨fun hlatch => (covers_of_fromConvergence ha hmerge hr (hrefs b (Or.inr hlatch) r hr)
          hv).1 hlatch,
        fun hheader => (covers_of_fromConvergence ha hmerge hr (hrefs b (Or.inl hheader) r hr)
          hv).2 hheader⟩

/-- A run of careful actions keeps the back edges covered. -/
theorem SchematicSolution.Covered.of_run {log : List (SchematicSolution × Action)}
    (hrun : Run ctx s log t)
    (h : s.Covered) (hs : WellAllocated s) (hcareful : CarefulRun ctx log) : t.Covered := by
  refine (hrun.invariant (I := fun s => s.Covered ∧ WellAllocated s)
    (fun _ _ h hst => ⟨h.1.of_same hst, h.2.of_same hst⟩) ?_ hcareful ⟨h, hs⟩).1.1
  rintro s a _ ⟨h, hs⟩ hcareful ⟨ha, rfl⟩
  exact ⟨h.run hs ha hcareful, hs.run ha⟩

theorem covered_empty : Covered {} := by
  rintro header d ⟨h, -⟩
  simp at h

end Step

/-! ### Back edges of careful runs -/

/-- **A careful run moves the right variables over every back edge.** What `solveFunction` returns
is reached by a run, and in every state that a run of careful actions reaches, the checkpoint of
every back edge saves what the latch keeps in VM and restores what the header keeps in VM. -/
theorem back_edge_moves_of_careful {F : FunctionInput} {params : SchematicParams}
    {summaries : ℕ → Option CallSummary} {tracker : VMAddressTracker} {ctx : Context} {A : Analysis}
    (hsum : ∀ f S, summaries f = some S → SolvedSummary params S)
    (h : solveFunction F params summaries tracker = .ok (ctx, A)) :
    Reaches ctx {} A.solution ∧
      ∀ log s, Run ctx {} log s → CarefulRun ctx log → ∀ header d,
        s.HasBackEdgeCheckpoint header d → s.MovesRightVariables header d := by
  refine ⟨solveFunction_reaches (fun f S hS => (hsum f S hS).savesAll) h, ?_⟩
  intro log s hrun hcareful header d hd
  exact movesRightVariables_of_covered (covered_empty.of_run hrun wellAllocated_empty hcareful) hd

/-! ### A variable of the latch -/

/-- A global of two bytes. -/
def counterVar : Value := ⟨0, true⟩

/-- A capacity of 100, boundaries that cost 1 on either side, and room for the variable in VM. -/
def latchParams : SchematicParams :=
  { capacity := 100, E_pro := 1, E_epi := 1, N_reg := 0, regStoreEnergy := 0, regRestoreEnergy := 0
    nvmAccessPenalty := 1, memStoreEnergyPerByte := 0, memRestoreEnergyPerByte := 0
    vmCapacityBytes := 16, loopIncrementCostNvm := 1, callCost := 0 }

/-- The given blocks load the variable, then store it. -/
def counterState (users : List BasicBlock) : SchematicStateAnalysis :=
  { candidates := [counterVar]
    getLoadCount := fun b _ => if b ∈ users then 1 else 0
    getStoreCount := fun b _ => if b ∈ users then 1 else 0
    getFirstOpIsLoad := fun b _ => if b ∈ users then some true else none
    getVarSizeBytes := fun _ => 2
    isPointerType := fun _ => false }

/-- A loop of two blocks. -/
def counterLoop : Loop := { header := 1, blocks := [1, 2], latch := some 2, preheader := some 0 }

/-- A function around the loop. One charge pays for either block of the loop, not for both. -/
def counterFunction (users : List BasicBlock) : FunctionInput :=
  { cfg := ⟨[0, 1, 2, 3], [(0, 1), (1, 2), (2, 1), (1, 3)],
      fun b => if b = 1 ∨ b = 2 then 60 else 5⟩
    state := counterState users
    LI := ⟨[counterLoop]⟩
    loopTraces := [⟨counterLoop, 1, [.real 1, .real 2], [⟨[.real 1, .real 2], 1⟩], some 10⟩]
    functionPaths := [[.real 0, .real 1, .real 3]] }

/-- What `solveFunction` makes of it. -/
def counterSolution (users : List BasicBlock) : SchematicSolution :=
  solutionOf (solveFunction (counterFunction users) latchParams (fun _ => none) {})

/-- A variable that only the latch accesses: the latch keeps it in VM and has to save it, the body
allocation holds the placements of the header, and the back edge saves nothing. -/
theorem back_edge_loses_latch_variable :
    ∃ ctx A, solveFunction (counterFunction [2]) latchParams (fun _ => none) {} = .ok (ctx, A) ∧
      ∃ header d, A.solution.HasBackEdgeCheckpoint header d ∧
        ¬A.solution.MovesRightVariables header d := by
  obtain ⟨ctx, A, hsolve, hA⟩ := exists_solutionOf
    (x := solveFunction (counterFunction [2]) latchParams (fun _ => none) {}) (by decide +kernel)
  have hdecision : ((counterSolution [2]).loopDecisions.lookup (.real 1)).any (fun d =>
      d.handledByLoopLogic && decide (d.loop.latch = some 2) &&
        decide (counterVar ∉ ((counterSolution [2]).backEdgeSequence d).saves)) = true := by
    decide +kernel
  have hlatch : ((counterSolution [2]).allocationOf (.real 2)).any (fun a =>
      (a.vars.lookup counterVar).any fun va => va.needSave) = true := by
    decide +kernel
  obtain ⟨d, hd, hprops⟩ := (Option.any_eq_true _ _).mp hdecision
  obtain ⟨a, ha, hvar⟩ := (Option.any_eq_true _ _).mp hlatch
  obtain ⟨va, hva, hsave⟩ := (Option.any_eq_true _ _).mp hvar
  simp only [Bool.and_eq_true, decide_eq_true_eq] at hprops
  obtain ⟨⟨hhandled, hloop⟩, hlost⟩ := hprops
  refine ⟨ctx, A, hsolve, .real 1, d, ?_⟩
  rw [hA]
  exact ⟨⟨hd, hhandled⟩, fun hmoves => hlost (hmoves.1 2 a hloop ha counterVar va hva hsave)⟩

/-! ### A body that shares its allocation -/

/-- An allocation that keeps the variable in VM. -/
def sharedBody : RegionAllocation := { vars := AList.insert counterVar { placement := .vm } ∅ }

/-- A decision from the placements of a header that keeps the variable in VM. -/
def sharedDecision : LoopCheckpointDecision :=
  { loop := counterLoop, mandatoryBackEdge := true, numIterationsPerCharge := 1
    bodyAllocation :=
      buildBoundaryAllocation (AList.insert counterVar .vm ∅) (counterState [1, 2]) }

/-- Header and latch share one object; the loop is decided, then the latch is extended by variables
it already has. -/
def sharedActions : List Action :=
  [.share sharedBody, .point (.real 1) (some 0), .point (.real 2) (some 0),
    .place (.real 1) (AList.insert counterVar .vm ∅),
    .decide (.real 1) sharedDecision .placements, .extend (.real 2) sharedBody]

/-- The state after these actions. -/
def sharedState : SchematicSolution := sharedActions.foldl Action.run {}

/-- The log of a list of actions. -/
def logOf : SchematicSolution → List Action → List (SchematicSolution × Action)
  | _, [] => []
  | s, a :: actions => (s, a) :: logOf (a.run s) actions

private theorem run_logOf {ctx : Context} {actions : List Action} {s : SchematicSolution}
    (h : ∀ e ∈ logOf s actions, e.2.Valid ctx e.1) :
    Run ctx s (logOf s actions) (actions.foldl Action.run s) := by
  induction actions generalizing s with
  | nil => exact .done (.refl s)
  | cons a actions ih =>
    exact .step (.refl s) ⟨h (s, a) List.mem_cons_self, rfl⟩
      (ih fun e he => h e (List.mem_cons_of_mem _ he))

/-- What the header and the latch of the shared body keep. -/
private theorem sharedBody_lookup {v : Value} {va : VariableAllocation}
    (h : sharedBody.vars.lookup v = some va) : v = counterVar ∧ va = { placement := .vm } := by
  by_cases hv : v = counterVar
  · subst hv
    rw [sharedBody, AList.lookup_insert] at h
    exact ⟨rfl, (Option.some.inj h).symm⟩
  · rw [sharedBody, AList.lookup_insert_ne hv] at h
    simp at h

private theorem sharedActions_valid (ctx : Context) :
    ∀ e ∈ logOf {} sharedActions, e.2.Valid ctx e.1 := by
  have hsaves : sharedBody.SavesAll := fun v va h => by rw [(sharedBody_lookup h).2]
  simp only [sharedActions, logOf, List.forall_mem_cons, List.not_mem_nil, false_imp_iff,
    implies_true, and_true]
  refine ⟨hsaves, ?_, ?_, trivial, ?_, hsaves⟩
  · simp [Action.Valid, Action.run, makeShared]
  · simp [Action.Valid, Action.run, makeShared, setBlockAllocation]
  · exact fromPlacements_buildBoundaryAllocation (fun v => by
      simp [Action.run, setPlacements]) _

private theorem sharedActions_careful (ctx : Context) :
    CarefulRun ctx (logOf {} sharedActions) := by
  simp only [CarefulRun, sharedActions, logOf, List.forall_mem_cons, List.not_mem_nil,
    false_imp_iff, implies_true, and_true]
  refine ⟨trivial, ?_, ?_, trivial, ?_, ?_⟩
  · rintro header d ⟨h, -⟩
    simp [Action.run, makeShared, setObject] at h
  · rintro header d ⟨h, -⟩
    simp [Action.run, makeShared, setObject, setBlockAllocation] at h
  · intro _ b r hr v va hv _
    have hbody : sharedBody.vars.lookup v = some va := by
      simp only [Action.run, makeShared, setObject, setBlockAllocation, setPlacements,
        Function.update_apply] at hr hv
      split_ifs at hr
      · cases hr
        simpa using hv
      · cases hr
        simpa using hv
    rw [(sharedBody_lookup hbody).1]
    exact AList.lookup_insert _
  · -- the latch has all variables of the extension
    intro header d hd b r hb hb' v va hnone hsource
    simp only [Action.run, makeShared, setObject, setBlockAllocation, setPlacements,
      SchematicSolution.setDecision, Function.update_self, Option.some.injEq] at hb hnone
    subst hb
    simp [hsource] at hnone

/-- The shared body: the function above is reached by a run, and here the back edge saves the
variable. -/
theorem back_edge_moves_shared_body :
    (∃ ctx A, solveFunction (counterFunction [2]) latchParams (fun _ => none) {} = .ok (ctx, A) ∧
      Reaches ctx {} A.solution) ∧
    sharedState.MovesRightVariables (.real 1) sharedDecision ∧
      counterVar ∈ (sharedState.backEdgeSequence sharedDecision).saves := by
  obtain ⟨ctx, A, hsolve, -⟩ := exists_solutionOf
    (x := solveFunction (counterFunction [2]) latchParams (fun _ => none) {}) (by decide +kernel)
  obtain ⟨hreach, hmoves⟩ := back_edge_moves_of_careful (by simp) hsolve
  refine ⟨⟨ctx, A, hsolve, hreach⟩, ?_, by decide +kernel⟩
  exact hmoves _ _ (run_logOf (sharedActions_valid ctx)) (sharedActions_careful ctx) (.real 1)
    sharedDecision ⟨rfl, rfl⟩

end Bao.Schematic
