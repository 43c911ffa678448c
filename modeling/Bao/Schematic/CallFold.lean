import Bao.Schematic.Instrumenter
import Mathlib.Algebra.Order.Monoid.WithTop
import Mathlib.Tactic.Linarith

/-!
# Energy safety of folded calls

A caller reads four numbers of a solved callee. Its analysis then accepts a region that ends at the
call or starts after it by comparing with these numbers only. This file relates what the analysis
accepts to what a run spends between the checkpoint before the call and the one after it.

* A callee without a checkpoint is one number on the call's entry block, and the fold is safe.
* A callee with a checkpoint is a wall for *all* its paths. A path without a checkpoint lets the
  energy the caller spent before the call run on into the region after it, and nothing compares the
  two. `call_fold_safe_iff` says when this is harmless; `call_fold_overdraws` is a callee with a
  short path past its checkpoint for which it is not.
-/

namespace Bao.Schematic

/-! ### Runs and stretches -/

/-- Where a boundary that a run executes comes from: an enabled edge, the checkpoint of a back edge,
or a call to a function with a checkpoint. -/
inductive BoundaryCause
  | edge (e : CFGEdge)
  | backEdge (header : Block)
  | call (e : CFGEdge)

/-- The instrumented function contains the boundary. -/
def SchematicSolution.Emits (solution : SchematicSolution) : BoundaryCause → Prop
  | .edge e => e ∈ solution.enabledCheckpoints
  | .backEdge header =>
    ∃ d, solution.loopDecisions.lookup header = some d ∧ d.handledByLoopLogic = true
  | .call e => solution.checkpointStates.lookup e = some .virtual

/-- What a run does, as far as its energy goes. The save of a boundary ends a stretch, the restore
starts the next one; both include the registers. -/
inductive Event
  | exec (energy : ℚ)
  | boundary (cause : BoundaryCause) (save restore : ℚ)

/-- **The energies spent between consecutive checkpoints**, with `spent` spent before the first
event. -/
def stretches : ℚ → List Event → List ℚ
  | spent, [] => [spent]
  | spent, .exec e :: run => stretches (spent + e) run
  | spent, .boundary _ save restore :: run => (spent + save) :: stretches restore run

/-- The run executes a boundary. -/
def hasBoundary (run : List Event) : Bool :=
  run.any fun
    | .boundary .. => true
    | .exec _ => false

/-- The energy from the start of a run to the end of its first save, or to its end and `last` from
there on. -/
def energyToLeave (last : ℚ) : List Event → ℚ
  | [] => last
  | .exec e :: run => e + energyToLeave last run
  | .boundary _ save _ :: _ => save

/-- The energy spent since the last restore when the run ends. -/
def spentAtReturn : ℚ → List Event → ℚ
  | spent, [] => spent
  | spent, .exec e :: run => spentAtReturn (spent + e) run
  | _, .boundary _ _ restore :: run => spentAtReturn restore run

section Stretches

variable {run : List Event} {spent rest cap : ℚ}

theorem energyToLeave_of_not_hasBoundary (h : hasBoundary run = false) (last : ℚ) :
    energyToLeave last run = energyToLeave 0 run + last := by
  induction run with
  | nil => simp [energyToLeave]
  | cons a run ih =>
    cases a with
    | exec e =>
      have hrun : hasBoundary run = false := by simpa [hasBoundary] using h
      rw [energyToLeave, energyToLeave, ih hrun, add_assoc]
    | boundary c s r => simp [hasBoundary] at h

theorem energyToLeave_of_hasBoundary (h : hasBoundary run = true) (last : ℚ) :
    energyToLeave last run = energyToLeave 0 run := by
  induction run with
  | nil => simp [hasBoundary] at h
  | cons a run ih =>
    cases a with
    | exec e =>
      have hrun : hasBoundary run = true := by simpa [hasBoundary] using h
      rw [energyToLeave, energyToLeave, ih hrun]
    | boundary c s r => rfl

theorem spentAtReturn_of_not_hasBoundary (h : hasBoundary run = false) :
    spentAtReturn spent run = spent + energyToLeave 0 run := by
  induction run generalizing spent with
  | nil => simp [spentAtReturn, energyToLeave]
  | cons a run ih =>
    cases a with
    | exec e =>
      have hrun : hasBoundary run = false := by simpa [hasBoundary] using h
      rw [spentAtReturn, energyToLeave, ih hrun, add_assoc]
    | boundary c s r => simp [hasBoundary] at h

/-- After a boundary it no longer matters what was spent before. -/
theorem spentAtReturn_of_hasBoundary (h : hasBoundary run = true) (spent : ℚ) :
    spentAtReturn spent run = spentAtReturn 0 run := by
  induction run generalizing spent with
  | nil => simp [hasBoundary] at h
  | cons a run ih =>
    cases a with
    | exec e =>
      have hrun : hasBoundary run = true := by simpa [hasBoundary] using h
      rw [spentAtReturn, spentAtReturn, ih hrun (spent + e), ih hrun (0 + e)]
    | boundary c s r => rfl

/-- The first stretch of a run with a boundary ends with its first save. -/
theorem add_energyToLeave_le (h : hasBoundary run = true)
    (hle : ∀ e ∈ stretches spent run, e ≤ cap) :
    spent + energyToLeave 0 run ≤ cap := by
  induction run generalizing spent with
  | nil => simp [hasBoundary] at h
  | cons a run ih =>
    cases a with
    | exec e =>
      have hrun : hasBoundary run = true := by simpa [hasBoundary] using h
      calc spent + energyToLeave 0 (.exec e :: run)
          = spent + e + energyToLeave 0 run := by rw [energyToLeave, add_assoc]
        _ ≤ cap := ih hrun hle
    | boundary c s r => exact hle _ List.mem_cons_self

/-- A run without a boundary belongs to one stretch. -/
theorem stretches_append_of_not_hasBoundary (h : hasBoundary run = false) :
    stretches spent (run ++ [.exec rest]) = [spent + energyToLeave 0 run + rest] := by
  induction run generalizing spent with
  | nil => simp [stretches, energyToLeave]
  | cons a run ih =>
    cases a with
    | exec e =>
      have hrun : hasBoundary run = false := by simpa [hasBoundary] using h
      rw [List.cons_append, stretches, ih hrun, energyToLeave, add_assoc spent e]
    | boundary c s r => simp [hasBoundary] at h

/-- A run with a boundary: the stretch it ends, the one it leaves open, and the ones inside. -/
theorem stretches_append_le_iff (h : hasBoundary run = true)
    (hsafe : ∃ r, ∀ e ∈ stretches r run, e ≤ cap) :
    (∀ e ∈ stretches spent (run ++ [.exec rest]), e ≤ cap) ↔
      spent + energyToLeave 0 run ≤ cap ∧ spentAtReturn 0 run + rest ≤ cap := by
  obtain ⟨r, hr⟩ := hsafe
  induction run generalizing spent r with
  | nil => simp [hasBoundary] at h
  | cons a run ih =>
    cases a with
    | exec e =>
      have hrun : hasBoundary run = true := by simpa [hasBoundary] using h
      rw [List.cons_append, stretches, ih hrun (r + e) hr, energyToLeave, spentAtReturn,
        spentAtReturn_of_hasBoundary hrun (0 + e), add_assoc]
    | boundary c s r' =>
      have hrest : ∀ e ∈ stretches r' run, e ≤ cap := fun e he => hr e (List.mem_cons_of_mem _ he)
      simp only [List.cons_append, stretches, List.forall_mem_cons, energyToLeave, spentAtReturn]
      refine and_congr_right fun _ => ?_
      cases hb : hasBoundary run with
      | true =>
        -- the stretch from this boundary to the next one lies inside the run
        rw [ih hb r' hrest, spentAtReturn_of_hasBoundary hb r',
          and_iff_right (add_energyToLeave_le hb hrest)]
      | false =>
        rw [stretches_append_of_not_hasBoundary hb, spentAtReturn_of_not_hasBoundary hb]
        simp

end Stretches

/-! ### The callee -/

/-- A solved function with its runs. No loop is both said to fit and given a mandatory checkpoint,
and a run executes only boundaries that the instrumented function contains. -/
structure Callee where
  solution : SchematicSolution
  paths : Set (List Event)
  not_mandatory : ∀ header d, solution.loopDecisions.lookup header = some d →
    d.loopFitsEntirely = true → d.mandatoryBackEdge = false
  emits : ∀ run ∈ paths, ∀ c save restore, Event.boundary c save restore ∈ run → solution.Emits c

namespace Callee

variable (K : Callee)

/-- The summary a caller folds. -/
def summary : CallSummary := captureCallSummary K.solution

/-- **The callee's solution is energy-safe** from a full buffer, and its summary is conservative:
`START_Func.E_to_leave` covers the way to the first checkpoint, or to the return and
`END_Func.E_to_leave` from there on, and at the return at least `END_Func.E_left` is left. -/
structure Solved (params : SchematicParams) : Prop where
  safe : ∀ run ∈ K.paths, ∀ e ∈ stretches params.chkptRestore run, e ≤ params.capacity
  toLeave_le : ∀ run ∈ K.paths, energyToLeave K.summary.efEToLeave run ≤ K.summary.sfEToLeave
  left_le : ∀ run ∈ K.paths, K.summary.efELeft ≤
    ((params.capacity - spentAtReturn params.chkptRestore run : ℚ) : WithTop ℚ)

variable {K}

/-- **The regime is right about runs**: a function that counts as checkpoint-free executes no
boundary. -/
theorem not_hasBoundary (h : K.solution.hasNonDisabledCheckpoint = false) {run : List Event}
    (hrun : run ∈ K.paths) : hasBoundary run = false := by
  simp only [SchematicSolution.hasNonDisabledCheckpoint, Bool.or_eq_false_iff,
    Bool.not_eq_eq_eq_not, Bool.not_false, List.isEmpty_iff, List.any_eq_false] at h
  obtain ⟨⟨henabled, hstates⟩, hloops⟩ := h
  rw [hasBoundary, List.any_eq_false]
  rintro (e | ⟨c, save, restore⟩) hmem
  · simp
  · exfalso
    have hemits := K.emits run hrun c save restore hmem
    cases c with
    | edge e =>
      rw [SchematicSolution.Emits, henabled] at hemits
      exact List.not_mem_nil hemits
    | backEdge header =>
      obtain ⟨d, hd, hlogic⟩ := hemits
      have hd' := hloops _ (AList.mem_lookup_iff.mp hd)
      have hfits := K.not_mandatory header d hd
      simp only [LoopCheckpointDecision.handledByLoopLogic] at hlogic
      cases hf : d.loopFitsEntirely <;> simp_all
    | call e =>
      have hstate := hstates _ (AList.mem_lookup_iff.mp hemits)
      simp at hstate

end Callee

/-! ### The call site -/

/-- A path of the caller around a call: what it spends from the last checkpoint to the call, restore
included, and from the call to the end of the save at the next checkpoint. -/
structure CallerPath (params : SchematicParams) where
  before : ℚ
  after : ℚ
  restore_le : params.chkptRestore ≤ before
  save_le : params.chkptSave ≤ after

/-- A call that is about to be folded; its blocks are not analyzed yet. -/
structure CallSite where
  ctx : Context
  graph : SchematicGraph
  ic : IsolatedCall
  solution : SchematicSolution
  fresh : (solution.blockMeta (.real ic.entry)).analyzed = false

namespace CallSite

variable (site : CallSite) (K : Callee)

/-- The caller's state after the fold. -/
def folded : Context × SchematicSolution :=
  foldCall site.ctx site.graph K.summary site.ic site.solution

/-- **The analysis accepts the caller's regions**. Call blocks that are fixed cut the trace: the
interval up to the call is tested with the `E_to_leave` of the entry block, the interval after it
with the `E_left` of the exit block. Otherwise the call lies inside one interval. -/
def Accepts (c : CallerPath site.ctx.params) : Prop :=
  let entry := (site.folded K).2.blockMeta (.real site.ic.entry)
  let exit := (site.folded K).2.blockMeta (.real site.ic.exit)
  if entry.analyzed then
    c.before + entry.E_to_leave < site.ctx.params.capacity ∧ (c.after : WithTop ℚ) < exit.E_left
  else
    c.before + (site.folded K).1.cfg.energyCost site.ic.entry +
      (site.folded K).1.cfg.energyCost site.ic.exit + c.after < site.ctx.params.capacity

/-- The run from the checkpoint before the call to the one after it. -/
def around (c : CallerPath site.ctx.params) (run : List Event) : List Event :=
  .exec (site.ctx.cfg.energyCost site.ic.entry) :: run ++
    [.exec (site.ctx.cfg.energyCost site.ic.exit + c.after)]

/-- **The fold is safe**: whatever the callee and the caller do, no stretch between two checkpoints
exceeds the capacity. -/
def Safe : Prop :=
  ∀ run ∈ K.paths, ∀ c, site.Accepts K c →
    ∀ e ∈ stretches c.before (site.around c run), e ≤ site.ctx.params.capacity

/-- Some region of the caller fits on either side of the wall. -/
def Usable : Prop :=
  site.ctx.params.chkptRestore + (K.summary.sfEToLeave + site.ctx.cfg.energyCost site.ic.entry) <
      site.ctx.params.capacity ∧
    (site.ctx.params.chkptSave : WithTop ℚ) < K.summary.efELeft

/-- **A wall is harmless for a path**: without a checkpoint, the path and what the caller may spend
after it have been set aside before the call; with one, the exit block has been set aside. -/
def Harmless (run : List Event) : Prop :=
  if hasBoundary run then
    ((spentAtReturn 0 run + site.ctx.cfg.energyCost site.ic.exit : ℚ) : WithTop ℚ) +
      K.summary.efELeft ≤ (site.ctx.params.capacity : WithTop ℚ)
  else
    ((energyToLeave 0 run + site.ctx.cfg.energyCost site.ic.exit : ℚ) : WithTop ℚ) +
      K.summary.efELeft ≤ (K.summary.sfEToLeave : WithTop ℚ)

variable {site K}

/-- A callee without a checkpoint stays inside the caller's interval. -/
theorem accepts_disabled (h : K.solution.hasNonDisabledCheckpoint = false)
    {c : CallerPath site.ctx.params} :
    site.Accepts K c ↔ c.before +
      (site.ctx.cfg.energyCost site.ic.entry + K.summary.sfEToLeave - K.summary.efEToLeave) +
        site.ctx.cfg.energyCost site.ic.exit + c.after < site.ctx.params.capacity := by
  have hne := site.ic.entry_ne_exit
  have hreg : K.summary.checkpointInFunction = false := h
  have hfresh := site.fresh
  simp [Accepts, folded, foldCall, computeFoldedCallCosts, hreg, hfresh, hne,
    SchematicSolution.disableCheckpoint, SchematicSolution.setCheckpointState,
    SchematicSolution.setPlacements, SchematicSolution.setBlockAllocation,
    SchematicSolution.makeShared, SchematicSolution.setObject]

/-- A callee with a checkpoint is a wall. -/
theorem accepts_virtual (h : K.solution.hasNonDisabledCheckpoint = true)
    {c : CallerPath site.ctx.params} :
    site.Accepts K c ↔
      c.before + (K.summary.sfEToLeave + site.ctx.cfg.energyCost site.ic.entry) <
        site.ctx.params.capacity ∧ (c.after : WithTop ℚ) < K.summary.efELeft := by
  have hne := site.ic.entry_ne_exit
  have hreg : K.summary.checkpointInFunction = true := h
  simp [Accepts, folded, foldCall, computeFoldedCallCosts, hreg, hne,
    SchematicSolution.setCheckpointState, SchematicSolution.setMeta,
    SchematicSolution.setPlacements, SchematicSolution.setBlockAllocation,
    SchematicSolution.makeShared, SchematicSolution.setObject]

section Around

variable {run : List Event} {c : CallerPath site.ctx.params}

/-- A path without a checkpoint joins what the caller spends on both sides. -/
theorem around_le_iff_of_not_hasBoundary (h : hasBoundary run = false) :
    (∀ e ∈ stretches c.before (site.around c run), e ≤ site.ctx.params.capacity) ↔
      c.before + site.ctx.cfg.energyCost site.ic.entry + energyToLeave 0 run +
        site.ctx.cfg.energyCost site.ic.exit + c.after ≤ site.ctx.params.capacity := by
  rw [around, List.cons_append, stretches, stretches_append_of_not_hasBoundary h]
  simp [add_assoc]

/-- A path with a checkpoint keeps the two sides apart. -/
theorem around_le_iff_of_hasBoundary (h : hasBoundary run = true)
    (hsafe : ∃ r, ∀ e ∈ stretches r run, e ≤ site.ctx.params.capacity) :
    (∀ e ∈ stretches c.before (site.around c run), e ≤ site.ctx.params.capacity) ↔
      c.before + site.ctx.cfg.energyCost site.ic.entry + energyToLeave 0 run ≤
          site.ctx.params.capacity ∧
        spentAtReturn 0 run + (site.ctx.cfg.energyCost site.ic.exit + c.after) ≤
          site.ctx.params.capacity := by
  rw [around, List.cons_append, stretches, stretches_append_le_iff h hsafe]

end Around

section Wall

variable (hwall : K.solution.hasNonDisabledCheckpoint = true) {run : List Event}
include hwall

/-- Behind a wall, a harmless path never overdraws the buffer. -/
theorem around_le_of_harmless (hK : K.Solved site.ctx.params) (hrun : run ∈ K.paths)
    (hharm : site.Harmless K run) {c : CallerPath site.ctx.params} (hc : site.Accepts K c) :
    ∀ e ∈ stretches c.before (site.around c run), e ≤ site.ctx.params.capacity := by
  obtain ⟨hbefore, hafter⟩ := (accepts_virtual hwall).mp hc
  have hto := hK.toLeave_le run hrun
  obtain ⟨l, hl⟩ := WithTop.ne_top_iff_exists.mp (ne_top_of_le_ne_top WithTop.coe_ne_top
    (hK.left_le run hrun))
  rw [← hl, WithTop.coe_lt_coe] at hafter
  rw [Harmless, ← hl] at hharm
  split_ifs at hharm with hb
  · rw [← WithTop.coe_add, WithTop.coe_le_coe] at hharm
    rw [energyToLeave_of_hasBoundary hb] at hto
    rw [around_le_iff_of_hasBoundary hb ⟨_, hK.safe run hrun⟩]
    constructor
    · calc c.before + site.ctx.cfg.energyCost site.ic.entry + energyToLeave 0 run
          ≤ c.before + site.ctx.cfg.energyCost site.ic.entry + K.summary.sfEToLeave := by gcongr
        _ = c.before + (K.summary.sfEToLeave + site.ctx.cfg.energyCost site.ic.entry) := by ring
        _ ≤ site.ctx.params.capacity := hbefore.le
    · calc spentAtReturn 0 run + (site.ctx.cfg.energyCost site.ic.exit + c.after)
          ≤ spentAtReturn 0 run + (site.ctx.cfg.energyCost site.ic.exit + l) := by gcongr
        _ = spentAtReturn 0 run + site.ctx.cfg.energyCost site.ic.exit + l :=
            (add_assoc ..).symm
        _ ≤ site.ctx.params.capacity := hharm
  · rw [← WithTop.coe_add, WithTop.coe_le_coe] at hharm
    rw [around_le_iff_of_not_hasBoundary (by simpa using hb)]
    -- the path joins the two sides, and what it spends was set aside for both
    calc c.before + site.ctx.cfg.energyCost site.ic.entry + energyToLeave 0 run +
          site.ctx.cfg.energyCost site.ic.exit + c.after
        ≤ c.before + site.ctx.cfg.energyCost site.ic.entry + energyToLeave 0 run +
            site.ctx.cfg.energyCost site.ic.exit + l := by gcongr
      _ = c.before + site.ctx.cfg.energyCost site.ic.entry +
            (energyToLeave 0 run + site.ctx.cfg.energyCost site.ic.exit + l) := by ring
      _ ≤ c.before + site.ctx.cfg.energyCost site.ic.entry + K.summary.sfEToLeave := by gcongr
      _ = c.before + (K.summary.sfEToLeave + site.ctx.cfg.energyCost site.ic.entry) := by ring
      _ ≤ site.ctx.params.capacity := hbefore.le

/-- A path that is not harmless overdraws the buffer in a caller that uses up what it may. -/
theorem exists_overdraw (hK : K.Solved site.ctx.params) (hrun : run ∈ K.paths)
    (huse : site.Usable K) (hharm : ¬site.Harmless K run) :
    ∃ c, site.Accepts K c ∧
      ¬∀ e ∈ stretches c.before (site.around c run), e ≤ site.ctx.params.capacity := by
  obtain ⟨hbefore, hafter⟩ := huse
  obtain ⟨l, hl⟩ := WithTop.ne_top_iff_exists.mp (ne_top_of_le_ne_top WithTop.coe_ne_top
    (hK.left_le run hrun))
  rw [← hl, WithTop.coe_lt_coe] at hafter
  rw [Harmless, ← hl] at hharm
  -- how far the path overshoots what was set aside
  obtain ⟨gap, hgap, hfree, hbound⟩ : ∃ gap : ℚ, 0 < gap ∧
      (hasBoundary run = false → K.summary.sfEToLeave + gap ≤
        energyToLeave 0 run + site.ctx.cfg.energyCost site.ic.exit + l) ∧
      (hasBoundary run = true → site.ctx.params.capacity + gap ≤
        spentAtReturn 0 run + site.ctx.cfg.energyCost site.ic.exit + l) := by
    split_ifs at hharm with hb
    · rw [← WithTop.coe_add, WithTop.coe_le_coe, not_le] at hharm
      refine ⟨_, sub_pos.mpr hharm, fun h => absurd hb (by simp [h]), fun _ => ?_⟩
      exact (add_sub_cancel _ _).le
    · rw [← WithTop.coe_add, WithTop.coe_le_coe, not_le] at hharm
      refine ⟨_, sub_pos.mpr hharm, fun _ => (add_sub_cancel _ _).le, fun h => absurd h hb⟩
  -- the caller spends all but a third of the overshoot on either side
  let c : CallerPath site.ctx.params :=
    { before := max site.ctx.params.chkptRestore (site.ctx.params.capacity -
        (K.summary.sfEToLeave + site.ctx.cfg.energyCost site.ic.entry) - gap / 3)
      after := max site.ctx.params.chkptSave (l - gap / 3)
      restore_le := le_max_left _ _
      save_le := le_max_left _ _ }
  have hb₁ : site.ctx.params.capacity -
      (K.summary.sfEToLeave + site.ctx.cfg.energyCost site.ic.entry) - gap / 3 ≤ c.before :=
    le_max_right _ _
  have ha₁ : l - gap / 3 ≤ c.after := le_max_right _ _
  have hb₂ : c.before < site.ctx.params.capacity -
      (K.summary.sfEToLeave + site.ctx.cfg.energyCost site.ic.entry) :=
    max_lt (by linarith) (by linarith)
  have ha₂ : c.after < l := max_lt hafter (by linarith)
  refine ⟨c, (accepts_virtual hwall).mpr ⟨by linarith, ?_⟩, fun hle => ?_⟩
  · rw [← hl, WithTop.coe_lt_coe]
    exact ha₂
  · cases hb : hasBoundary run with
    | true =>
      have hle' := ((around_le_iff_of_hasBoundary hb ⟨_, hK.safe run hrun⟩).mp hle).2
      have hover := hbound hb
      linarith
    | false =>
      have hle' := (around_le_iff_of_not_hasBoundary hb).mp hle
      have hover := hfree hb
      linarith

end Wall

/-- Without a checkpoint in the callee the caller's interval pays for the whole call. -/
theorem around_le_of_checkpointFree (hfree : K.solution.hasNonDisabledCheckpoint = false)
    (hK : K.Solved site.ctx.params) {run : List Event} (hrun : run ∈ K.paths)
    {c : CallerPath site.ctx.params} (hc : site.Accepts K c) :
    ∀ e ∈ stretches c.before (site.around c run), e ≤ site.ctx.params.capacity := by
  have hb := K.not_hasBoundary hfree hrun
  have hacc := (accepts_disabled hfree).mp hc
  have hto := hK.toLeave_le run hrun
  rw [energyToLeave_of_not_hasBoundary hb] at hto
  rw [around_le_iff_of_not_hasBoundary hb]
  calc c.before + site.ctx.cfg.energyCost site.ic.entry + energyToLeave 0 run +
        site.ctx.cfg.energyCost site.ic.exit + c.after
      ≤ c.before + site.ctx.cfg.energyCost site.ic.entry +
          (K.summary.sfEToLeave - K.summary.efEToLeave) +
          site.ctx.cfg.energyCost site.ic.exit + c.after := by
        gcongr
        linarith
    _ = c.before +
          (site.ctx.cfg.energyCost site.ic.entry + K.summary.sfEToLeave - K.summary.efEToLeave) +
          site.ctx.cfg.energyCost site.ic.exit + c.after := by ring
    _ ≤ site.ctx.params.capacity := hacc.le

/-- A region that is accepted next to a wall fits there. -/
theorem usable_of_accepts (hwall : K.solution.hasNonDisabledCheckpoint = true)
    {c : CallerPath site.ctx.params} (hc : site.Accepts K c) : site.Usable K := by
  obtain ⟨hbefore, hafter⟩ := (accepts_virtual hwall).mp hc
  refine ⟨?_, lt_of_le_of_lt (WithTop.coe_le_coe.mpr c.save_le) hafter⟩
  have hrestore := c.restore_le
  linarith

/-- **When a folded call is safe**: always for a callee without a checkpoint, and for a callee with
one exactly when its wall is harmless for each of its paths, or nothing fits next to it. -/
theorem call_fold_safe_iff (hK : K.Solved site.ctx.params) :
    site.Safe K ↔ (K.solution.hasNonDisabledCheckpoint = true → site.Usable K →
      ∀ run ∈ K.paths, site.Harmless K run) := by
  constructor
  · intro hsafe hwall huse run hrun
    by_contra hharm
    obtain ⟨c, hc, hover⟩ := exists_overdraw hwall hK hrun huse hharm
    exact hover (hsafe run hrun c hc)
  · intro hharm run hrun c hc
    cases hwall : K.solution.hasNonDisabledCheckpoint with
    | false => exact around_le_of_checkpointFree hwall hK hrun hc
    | true =>
      exact around_le_of_harmless hwall hK hrun
        (hharm hwall (usable_of_accepts hwall hc) run hrun) hc

end CallSite

/-! ### A callee with a short path -/

/-- A capacity of 100, and a boundary that costs 1 on either side. -/
def shortcutParams : SchematicParams :=
  { capacity := 100, E_pro := 1, E_epi := 1, N_reg := 0, regStoreEnergy := 0, regRestoreEnergy := 0
    nvmAccessPenalty := 0, memStoreEnergyPerByte := 0, memRestoreEnergyPerByte := 0
    vmCapacityBytes := 0, loopIncrementCostNvm := 0, callCost := 0 }

/-- No candidate variables. -/
def noCandidates : SchematicStateAnalysis :=
  { candidates := [], getLoadCount := fun _ _ => 0, getStoreCount := fun _ _ => 0
    getFirstOpIsLoad := fun _ _ => none, getVarSizeBytes := fun _ => 0
    isPointerType := fun _ => false }

/-- A function that either goes through block 2, which needs most of a charge, or past it. -/
def shortcutFunction : FunctionInput :=
  { cfg := ⟨[0, 1, 2, 3, 4], [(0, 1), (0, 3), (1, 2), (2, 4), (3, 4)],
      fun b => if b = 2 then 88 else 5⟩
    state := noCandidates
    functionPaths := [[.real 0, .real 1, .real 2, .real 4], [.real 0, .real 3, .real 4]] }

/-- What `solveFunction` makes of it: one checkpoint, in front of block 2. -/
def shortcutSolution : SchematicSolution :=
  match solveFunction shortcutFunction shortcutParams (fun _ => none) {} with
  | .ok (_, A) => A.solution
  | .error _ => {}

/-- The run through block 2. -/
def longRun : List Event :=
  [.exec 5, .exec 5, .boundary (.edge ⟨.real 1, .real 2⟩) 1 1, .exec 88, .exec 5]

/-- The run past block 2. -/
def shortRun : List Event := [.exec 5, .exec 5, .exec 5]

private theorem shortcut_enabled :
    shortcutSolution.enabledCheckpoints = [⟨.real 1, .real 2⟩] := by decide +kernel

private theorem shortcut_loopDecisions : shortcutSolution.loopDecisions.entries = [] := by
  rw [← List.isEmpty_iff]
  decide +kernel

private theorem shortcut_summary : shortcutSolution.hasNonDisabledCheckpoint = true ∧
    (captureCallSummary shortcutSolution).sfEToLeave = 16 ∧
    (captureCallSummary shortcutSolution).efEToLeave = 1 ∧
    (captureCallSummary shortcutSolution).efELeft = ((6 : ℚ) : WithTop ℚ) := by
  decide +kernel

/-- The function with its two runs. -/
def shortcutCallee : Callee where
  solution := shortcutSolution
  paths := {longRun, shortRun}
  not_mandatory header d hd := by simp [AList.lookup, shortcut_loopDecisions] at hd
  emits := by
    rintro run (rfl | rfl) c save restore hmem
    · simp only [longRun, List.mem_cons, List.not_mem_nil, reduceCtorEq, or_false, false_or,
        Event.boundary.injEq] at hmem
      rw [hmem.1, SchematicSolution.Emits, shortcut_enabled]
      exact List.mem_singleton_self _
    · simp [shortRun] at hmem

/-- A caller whose call blocks cost nothing themselves. -/
def shortcutSite : CallSite where
  ctx := ⟨⟨[0, 1], [(0, 1)], fun _ => 0⟩, noCandidates, shortcutParams, {}⟩
  graph := {}
  ic := ⟨0, 1, 0, by decide⟩
  solution := {}
  fresh := rfl

private theorem shortcut_solved : shortcutCallee.Solved shortcutSite.ctx.params := by
  obtain ⟨-, hsf, hef, hleft⟩ := shortcut_summary
  refine ⟨?_, ?_, ?_⟩
  · rintro run (rfl | rfl)
    · decide +kernel
    · decide +kernel
  · rintro run (rfl | rfl)
    all_goals
      change energyToLeave (captureCallSummary shortcutSolution).efEToLeave _ ≤
        (captureCallSummary shortcutSolution).sfEToLeave
      rw [hsf, hef]
      decide +kernel
  · rintro run (rfl | rfl)
    all_goals
      change (captureCallSummary shortcutSolution).efELeft ≤ _
      rw [hleft, WithTop.coe_le_coe]
      decide +kernel

/-- The caller may spend 83 before the call and 5 after it; with the short run in between this is
103 out of 100. -/
theorem call_fold_overdraws : shortcutCallee.Solved shortcutSite.ctx.params ∧
    ¬shortcutSite.Safe shortcutCallee := by
  refine ⟨shortcut_solved, fun hsafe => ?_⟩
  obtain ⟨hwall, hsf, -, hleft⟩ := shortcut_summary
  let c : CallerPath shortcutSite.ctx.params := ⟨83, 5, by decide +kernel, by decide +kernel⟩
  have hc : shortcutSite.Accepts shortcutCallee c := by
    refine (CallSite.accepts_virtual hwall).mpr ⟨?_, ?_⟩
    · change 83 + ((captureCallSummary shortcutSolution).sfEToLeave + 0) < (100 : ℚ)
      rw [hsf]
      norm_num
    · change ((5 : ℚ) : WithTop ℚ) < (captureCallSummary shortcutSolution).efELeft
      rw [hleft, WithTop.coe_lt_coe]
      norm_num
  have hle := hsafe shortRun (Or.inr rfl) c hc 103 (by decide +kernel)
  exact absurd hle (by decide +kernel)

/-- The condition at this call: the wall is not harmless for the short run. -/
theorem call_fold_safe_iff_shortcut : shortcutSite.Safe shortcutCallee ↔
    (shortcutCallee.solution.hasNonDisabledCheckpoint = true → shortcutSite.Usable shortcutCallee →
      ∀ run ∈ shortcutCallee.paths, shortcutSite.Harmless shortcutCallee run) :=
  CallSite.call_fold_safe_iff shortcut_solved

end Bao.Schematic
