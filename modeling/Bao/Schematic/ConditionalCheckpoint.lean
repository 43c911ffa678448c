import Bao.Schematic.ConvergedBudget
import Bao.Schematic.Instrumenter

/-!
# The conditional loop checkpoint

`insertLoopConditionalCheckpoint` splits the back edge of a loop. The new block compares a counter
with `numIt - 2` and goes to a block that takes a checkpoint or to one that increments the counter;
the counter is a PHI of the header, reset at the preheader and behind a checkpoint.

* At most `numIt - 1` iterations start between a loop entry or a checkpoint and the next checkpoint
  (`LoopConditionalCheckpoint.count_header_le`).
* If no iteration costs more than `E_loop`, every stretch between two checkpoints fits into the
  capacity (`conditionalCheckpoint_keepsPromise`).
-/

namespace Bao.Schematic

/-! ### The emitted code -/

/-- A loop in simplified form: the preheader leads to the header only, and the header has no
predecessor but the preheader and the latch. -/
structure Loop.IsLoopSimplifyForm (L : Loop) (cfg : CFGAnalysis) (preheader latch : BasicBlock) :
    Prop where
  preheader_eq : L.preheader = some preheader
  latch_eq : L.latch = some latch
  preheader_notMem : preheader ∉ L.blocks
  latch_mem : latch ∈ L.blocks
  succ_preheader : ∀ e ∈ cfg.edges, e.1 = preheader → e.2 = L.header
  pred_header : ∀ e ∈ cfg.edges, e.2 = L.header → e.1 = preheader ∨ e.1 = latch

/-- The blocks of the emitted code: those of the function and three new ones. -/
inductive EmittedBlock
  | original (bb : BasicBlock)
  | schematicLoopCheck
  | schematicLoopIncr
  | schematicLoopCkpt
deriving DecidableEq

/-- An incoming value of the counter. -/
inductive CounterValue
  | const (n : BitVec 32)
  | incremented

/-- What `insertLoopConditionalCheckpoint` leaves behind: the edges, the PHIs of the header with
their incoming values, the counter, what it is compared with, and the checkpoint. -/
structure LoopConditionalCheckpoint (ν : Type*) where
  header : EmittedBlock
  edges : List (EmittedBlock × EmittedBlock)
  phis : List (List (EmittedBlock × ν))
  counterPHI : List (EmittedBlock × CounterValue)
  threshold : BitVec 32
  sequence : CheckpointSequence

open EmittedBlock in
/-- **`insertLoopConditionalCheckpoint`**. The back edge goes to the new block that compares, the
incoming values of the back edge to both blocks behind it. -/
def SchematicSolution.insertLoopConditionalCheckpoint {ν : Type*} (solution : SchematicSolution)
    (cfg : CFGAnalysis) (phis : List (List (BasicBlock × ν))) (header : BasicBlock)
    (decision : LoopCheckpointDecision) : Option (LoopConditionalCheckpoint ν) :=
  match decision.loop.latch, decision.loop.preheader with
  | some latch, some preheader =>
    let numIt := decision.numIterationsPerCharge
    if numIt = 0 then none
    else some {
      header := original header
      edges := (cfg.edges.map fun e =>
          if e = (latch, header) then (original latch, schematicLoopCheck)
          else (original e.1, original e.2)) ++
        [(schematicLoopCheck, schematicLoopCkpt), (schematicLoopCheck, schematicLoopIncr),
          (schematicLoopIncr, original header), (schematicLoopCkpt, original header)]
      phis := phis.map fun incoming =>
        ((incoming.filter fun e => e.1 ≠ latch).map fun e => (original e.1, e.2)) ++
          match incoming.lookup latch with
          | some v => [(schematicLoopIncr, v), (schematicLoopCkpt, v)]
          | none => []
      counterPHI := [(original preheader, .const 0), (schematicLoopIncr, .incremented),
        (schematicLoopCkpt, .const 0)]
      threshold := BitVec.ofNat 32 numIt - 2
      sequence := solution.backEdgeSequence decision }
  | _, _ => none

namespace LoopConditionalCheckpoint

variable {ν : Type*} (code : LoopConditionalCheckpoint ν)

/-- Control at the top of a block, with the value of the counter. -/
structure State where
  block : EmittedBlock
  counter : BitVec 32

/-- The counter after an edge. -/
def enter (src dst : EmittedBlock) (counter : BitVec 32) : BitVec 32 :=
  if dst = code.header then
    match code.counterPHI.lookup src with
    | some (.const n) => n
    | some .incremented => counter + 1
    | none => counter
  else counter

/-- Control follows the edges; the new block compares the counter, signed, with the threshold. -/
structure Step (s t : State) : Prop where
  edge : (s.block, t.block) ∈ code.edges
  branch : s.block = .schematicLoopCheck → t.block =
    if code.threshold.sle s.counter then .schematicLoopCkpt else .schematicLoopIncr
  counter : t.counter = code.enter s.block t.block s.counter

/-- The iterations of a stretch: each one starts at the header. -/
def iterations (stretch : List State) : List (List State) :=
  stretch.splitBy fun _ s => s.block ≠ code.header

/-- What a checkpoint spends on the save. -/
def saveEnergy (ctx : Context) : ℚ :=
  ctx.params.chkptSave + (code.sequence.saves.map fun v =>
    ctx.params.memStoreEnergyPerByte * ctx.state.getVarSizeBytes v).sum

/-- What a checkpoint spends on the restore, after the power has come back. -/
def restoreEnergy (ctx : Context) : ℚ :=
  ctx.params.chkptRestore + (code.sequence.restores.map fun v =>
    ctx.params.memRestoreEnergyPerByte * ctx.state.getVarSizeBytes v).sum

/-- No state of the stretch is at a boundary of the loop or enters it again. -/
def IsStretch (preheader : BasicBlock) (stretch : List State) : Prop :=
  ∀ s ∈ stretch, s.block ≠ .original preheader ∧ s.block ≠ .schematicLoopCkpt

/-- **The energy promise**: the iterations from a loop entry or a boundary on are fewer than the
charge counts, and if none of them costs more than `E_loop`, the energy between two boundaries of
one loop entry, a restore and a save included, is at most the capacity. -/
structure KeepsPromise (ctx : Context) (preheader : BasicBlock) (d : LoopCheckpointDecision) :
    Prop where
  length_iterations_le : ∀ s stretch, s.block = .original preheader ∨ s.block = .schematicLoopCkpt →
    (s :: stretch).IsChain code.Step → IsStretch preheader stretch →
      (code.iterations stretch).length ≤ d.numIterationsPerCharge - 1
  energy_le : ∀ s stretch t, s.block = .schematicLoopCkpt → t.block = .schematicLoopCkpt →
    (s :: stretch ++ [t]).IsChain code.Step → IsStretch preheader stretch → ∀ cost : State → ℚ,
      (∀ iteration ∈ code.iterations stretch, (iteration.map cost).sum ≤ d.E_loop) →
        code.restoreEnergy ctx + (stretch.map cost).sum + code.saveEnergy ctx ≤ ctx.params.capacity

/-! ### Counting -/

section Counting

variable {code} {solution : SchematicSolution} {cfg : CFGAnalysis}
  {phis : List (List (BasicBlock × ν))} {d : LoopCheckpointDecision} {preheader latch : BasicBlock}

/-- What the emitted code is made of. -/
theorem eq_of_insert (hform : d.loop.IsLoopSimplifyForm cfg preheader latch)
    (h : solution.insertLoopConditionalCheckpoint cfg phis d.loop.header d = some code) :
    0 < d.numIterationsPerCharge ∧ code.header = .original d.loop.header ∧
      code.counterPHI = [(.original preheader, .const 0), (.schematicLoopIncr, .incremented),
        (.schematicLoopCkpt, .const 0)] ∧
      code.threshold = BitVec.ofNat 32 d.numIterationsPerCharge - 2 ∧
      code.sequence = solution.backEdgeSequence d := by
  simp only [SchematicSolution.insertLoopConditionalCheckpoint, hform.latch_eq,
    hform.preheader_eq] at h
  split_ifs at h with hnone
  cases h
  exact ⟨Nat.pos_of_ne_zero hnone, rfl, rfl, rfl, rfl⟩

/-- The edges of the emitted code: those of the function but the back edge, and the new ones. -/
theorem mem_edges_of_insert (hform : d.loop.IsLoopSimplifyForm cfg preheader latch)
    (h : solution.insertLoopConditionalCheckpoint cfg phis d.loop.header d = some code)
    {a b : EmittedBlock} (hab : (a, b) ∈ code.edges) :
    (∃ e ∈ cfg.edges, e ≠ (latch, d.loop.header) ∧ a = .original e.1 ∧ b = .original e.2) ∨
      (a = .original latch ∧ b = .schematicLoopCheck) ∨
      (a = .schematicLoopCheck ∧ (b = .schematicLoopCkpt ∨ b = .schematicLoopIncr)) ∨
      ((a = .schematicLoopIncr ∨ a = .schematicLoopCkpt) ∧ b = code.header) := by
  simp only [SchematicSolution.insertLoopConditionalCheckpoint, hform.latch_eq,
    hform.preheader_eq] at h
  split_ifs at h with hnone
  cases h
  rcases List.mem_append.mp hab with hab | hab
  · obtain ⟨e, he, heq⟩ := List.mem_map.mp hab
    split_ifs at heq with hback
    · cases heq
      exact .inr (.inl ⟨rfl, rfl⟩)
    · cases heq
      exact .inl ⟨e, he, hback, rfl, rfl⟩
  · simp only [List.mem_cons, Prod.mk.injEq, List.not_mem_nil, or_false] at hab
    tauto

/-- Behind the preheader and behind a checkpoint comes the header, with the counter reset. -/
theorem Step.of_boundary (hform : d.loop.IsLoopSimplifyForm cfg preheader latch)
    (h : solution.insertLoopConditionalCheckpoint cfg phis d.loop.header d = some code)
    {s t : State} (hst : code.Step s t)
    (hs : s.block = .original preheader ∨ s.block = .schematicLoopCkpt) :
    t.block = code.header ∧ t.counter = 0 := by
  obtain ⟨-, hheader, hphi, -⟩ := eq_of_insert hform h
  have hblock : t.block = code.header := by
    rcases mem_edges_of_insert hform h hst.edge with
      ⟨e, he, -, hsrc, hdst⟩ | ⟨hsrc, -⟩ | ⟨hsrc, -⟩ | ⟨-, hdst⟩
    · rcases hs with hs | hs
      · have hpre := EmittedBlock.original.inj (hsrc.symm.trans hs)
        rw [hdst, hheader, hform.succ_preheader e he hpre]
      · cases hsrc.symm.trans hs
    · rcases hs with hs | hs
      · cases hsrc.symm.trans hs
        exact absurd hform.latch_mem hform.preheader_notMem
      · cases hsrc.symm.trans hs
    · rcases hs with hs | hs <;> cases hsrc.symm.trans hs
    · exact hdst
  refine ⟨hblock, ?_⟩
  rw [hst.counter, enter, if_pos hblock, hphi]
  rcases hs with hs | hs
  · rw [hs, List.lookup_cons_self]
  · rw [hs]
    rfl

/-- Between boundaries only the incremented counter reaches the header, and it is incremented only
below the threshold. -/
theorem Step.inside (hform : d.loop.IsLoopSimplifyForm cfg preheader latch)
    (h : solution.insertLoopConditionalCheckpoint cfg phis d.loop.header d = some code)
    {s t : State} (hst : code.Step s t)
    (hs : s.block ≠ .original preheader ∧ s.block ≠ .schematicLoopCkpt) :
    (t.block = code.header ∧ s.block = .schematicLoopIncr ∧ t.counter = s.counter + 1) ∨
      (t.block ≠ code.header ∧ t.counter = s.counter ∧
        (t.block = .schematicLoopIncr → code.threshold.sle s.counter = false)) := by
  obtain ⟨-, hheader, hphi, -⟩ := eq_of_insert hform h
  have hcounter := hst.counter
  -- an old edge that stays, the edge to the test, the two out of it, and the one to the header
  rcases mem_edges_of_insert hform h hst.edge with
    ⟨e, he, hback, hsrc, hdst⟩ | ⟨-, hdst⟩ | ⟨hsrc, hdst⟩ | ⟨hsrc, hdst⟩
  · have hne : t.block ≠ code.header := by
      rw [hdst, hheader]
      intro heq
      have heq := EmittedBlock.original.inj heq
      rcases hform.pred_header e he heq with hpre | hlatch
      · exact hs.1 (hsrc.trans (congrArg EmittedBlock.original hpre))
      · exact hback (Prod.ext hlatch heq)
    rw [enter, if_neg hne] at hcounter
    exact .inr ⟨hne, hcounter, fun hincr => by cases hdst.symm.trans hincr⟩
  · have hne : t.block ≠ code.header := by simp [hdst, hheader]
    rw [enter, if_neg hne] at hcounter
    exact .inr ⟨hne, hcounter, fun hincr => by cases hdst.symm.trans hincr⟩
  · have hne : t.block ≠ code.header := by rcases hdst with hdst | hdst <;> simp [hdst, hheader]
    rw [enter, if_neg hne] at hcounter
    refine .inr ⟨hne, hcounter, fun hincr => ?_⟩
    have hbranch := hst.branch hsrc
    rw [hincr] at hbranch
    by_contra hsle
    rw [if_pos (by simpa using hsle)] at hbranch
    cases hbranch
  · have hincr : s.block = .schematicLoopIncr := hsrc.resolve_right hs.2
    rw [enter, if_pos hdst, hphi, hincr] at hcounter
    exact .inl ⟨hdst, hincr, hcounter⟩

/-- Below `2 ^ 31` the signed comparison is the one of the numbers. -/
private theorem sle_threshold {numIt : ℕ} {c : BitVec 32} (hnumIt : 3 ≤ numIt)
    (hsigned : numIt < 2 ^ 31) (hc : c.toNat < 2 ^ 31)
    (h : (BitVec.ofNat 32 numIt - 2).sle c = false) : c.toNat + 2 < numIt := by
  have hthreshold : (BitVec.ofNat 32 numIt - 2).toNat = numIt - 2 := by
    rw [BitVec.toNat_sub, BitVec.toNat_ofNat]
    simp
    omega
  rw [BitVec.sle_eq_decide, decide_eq_false_iff_not, BitVec.toInt_eq_toNat_of_lt (by omega),
    BitVec.toInt_eq_toNat_of_lt (by omega), hthreshold] at h
  omega

/-- The counter counts the iterations that have started: `n` of them, fewer than the charge counts,
and one less if the counter is about to be incremented. -/
structure Counted (numIt n : ℕ) (s : State) : Prop where
  counter_eq : s.counter.toNat + 1 = n
  lt : n < numIt
  incr : s.block = .schematicLoopIncr → n + 1 < numIt

/-- **One step** between boundaries keeps the count. -/
theorem Counted.step (hform : d.loop.IsLoopSimplifyForm cfg preheader latch)
    (h : solution.insertLoopConditionalCheckpoint cfg phis d.loop.header d = some code)
    (hnumIt : 3 ≤ d.numIterationsPerCharge) (hsigned : d.numIterationsPerCharge < 2 ^ 31)
    {s t : State} {n : ℕ} (hst : code.Step s t)
    (hs : s.block ≠ .original preheader ∧ s.block ≠ .schematicLoopCkpt)
    (hn : Counted d.numIterationsPerCharge n s) :
    Counted d.numIterationsPerCharge (if t.block = code.header then n + 1 else n) t := by
  obtain ⟨-, hheader, -, hthreshold, -⟩ := eq_of_insert hform h
  obtain ⟨hcount, hlt, hincr⟩ := hn
  rcases hst.inside hform h hs with ⟨hblock, hsrc, hcounter⟩ | ⟨hblock, hcounter, hbelow⟩
  · have hlt := hincr hsrc
    rw [if_pos hblock]
    refine ⟨?_, hlt, fun hincr => ?_⟩
    · rw [hcounter, BitVec.toNat_add]
      simp
      omega
    · rw [hincr, hheader] at hblock
      cases hblock
  · rw [if_neg hblock]
    refine ⟨hcounter ▸ hcount, hlt, fun hincr => ?_⟩
    have hbelow := hbelow hincr
    rw [hthreshold] at hbelow
    have := sle_threshold hnumIt hsigned (by omega) hbelow
    omega

/-- **A run** between boundaries starts fewer iterations than the charge counts. -/
theorem Counted.run (hform : d.loop.IsLoopSimplifyForm cfg preheader latch)
    (h : solution.insertLoopConditionalCheckpoint cfg phis d.loop.header d = some code)
    (hnumIt : 3 ≤ d.numIterationsPerCharge) (hsigned : d.numIterationsPerCharge < 2 ^ 31)
    {s : State} {l : List State} {n : ℕ} (hchain : (s :: l).IsChain code.Step)
    (hl : IsStretch preheader (s :: l)) (hn : Counted d.numIterationsPerCharge n s) :
    n + l.countP (fun t => t.block = code.header) < d.numIterationsPerCharge := by
  induction l generalizing s n with
  | nil => simpa using hn.lt
  | cons t l ih =>
    obtain ⟨hst, hchain⟩ := List.isChain_cons_cons.mp hchain
    obtain ⟨hs, hl⟩ := List.forall_mem_cons.mp hl
    have hrun := ih hchain hl (hn.step hform h hnumIt hsigned hst hs)
    rw [List.countP_cons]
    by_cases hblock : t.block = code.header
    · simp only [hblock, if_true, decide_true] at hrun ⊢
      omega
    · simpa [hblock] using hrun

/-! ### Iterations -/

/-- If every piece behind the first starts with a marked element and the first has one, all do. -/
private theorem exists_mem_of_isChain {α : Type*} {p : α → Bool} {pieces : List (List α)}
    (hchain : pieces.IsChain fun a b => ∃ (_ : a ≠ []) (hb : b ≠ []), (!p (b.head hb)) = false)
    (hfirst : ∀ piece ∈ pieces.head?, ∃ a ∈ piece, p a = true) :
    ∀ piece ∈ pieces, ∃ a ∈ piece, p a = true := by
  induction pieces with
  | nil => simp
  | cons piece pieces ih =>
    refine List.forall_mem_cons.mpr ⟨hfirst piece rfl, ih hchain.tail fun next hnext => ?_⟩
    obtain ⟨rest, rfl⟩ := List.head?_eq_some_iff.mp hnext
    obtain ⟨-, hb, hp⟩ := (List.isChain_cons_cons.mp hchain).1
    exact ⟨_, List.head_mem hb, by simpa using hp⟩

/-- A list that starts with a marked element has no more pieces, each starting with one, than marked
elements. -/
private theorem length_splitBy_le {α : Type*} {p : α → Bool} {l : List α}
    (hl : ∀ a ∈ l.head?, p a = true) : (l.splitBy fun _ b => !p b).length ≤ l.countP p := by
  have hmarked : ∀ piece ∈ l.splitBy fun _ b => !p b, ∃ a ∈ piece, p a = true := by
    refine exists_mem_of_isChain (List.isChain_getLast_head_splitBy (fun _ b => !p b)
      l) fun piece hpiece => ?_
    obtain ⟨rest, hrest⟩ := List.head?_eq_some_iff.mp hpiece
    have hne : l ≠ [] := List.splitBy_ne_nil.mp (by rw [hrest]; exact List.cons_ne_nil _ _)
    have hfirst := List.head_head_splitBy (fun _ b => !p b) hne
    simp only [hrest, List.head_cons] at hfirst
    exact ⟨_, List.head_mem _, hfirst ▸ hl _ (List.head_mem_head? hne)⟩
  calc (l.splitBy fun _ b => !p b).length
      = ((l.splitBy fun _ b => !p b).map fun _ => 1).sum := by simp
    _ ≤ ((l.splitBy fun _ b => !p b).map (List.countP p)).sum :=
        List.sum_le_sum fun piece hpiece => List.countP_pos_iff.mpr (hmarked piece hpiece)
    _ = l.countP p := by
        rw [← List.countP_flatten, List.flatten_splitBy]

/-- The iterations of a stretch cost what its states cost. -/
private theorem sum_map_le_of_iterations {stretch : List State} {cost : State → ℚ} {E : ℚ}
    (hcost : ∀ iteration ∈ code.iterations stretch, (iteration.map cost).sum ≤ E) :
    (stretch.map cost).sum ≤ (code.iterations stretch).length * E := by
  calc (stretch.map cost).sum
      = ((code.iterations stretch).map fun iteration => (iteration.map cost).sum).sum := by
        conv_lhs => rw [← List.flatten_splitBy (fun _ s => decide (s.block ≠ code.header)) stretch]
        rw [List.map_flatten, List.sum_flatten, List.map_map]
        rfl
    _ ≤ (code.iterations stretch).length • E := by
        have := List.sum_le_card_nsmul
          ((code.iterations stretch).map fun iteration => (iteration.map cost).sum) E
          (by simpa using hcost)
        simpa using this
    _ = (code.iterations stretch).length * E := nsmul_eq_mul _ _

/-- Fewer iterations start between boundaries than the charge counts. -/
private theorem length_iterations_lt (hform : d.loop.IsLoopSimplifyForm cfg preheader latch)
    (h : solution.insertLoopConditionalCheckpoint cfg phis d.loop.header d = some code)
    (hnumIt : 3 ≤ d.numIterationsPerCharge) (hsigned : d.numIterationsPerCharge < 2 ^ 31)
    {s : State} {stretch : List State}
    (hs : s.block = .original preheader ∨ s.block = .schematicLoopCkpt)
    (hchain : (s :: stretch).IsChain code.Step) (hstretch : IsStretch preheader stretch) :
    (code.iterations stretch).length < d.numIterationsPerCharge := by
  cases stretch with
  | nil =>
    rw [iterations, List.splitBy_nil, List.length_nil]
    omega
  | cons t l =>
    obtain ⟨hst, hchain⟩ := List.isChain_cons_cons.mp hchain
    obtain ⟨hblock, hcounter⟩ := hst.of_boundary hform h hs
    have hheader := (eq_of_insert hform h).2.1
    have hstart : Counted d.numIterationsPerCharge 1 t := by
      refine ⟨by rw [hcounter]; rfl, by omega, fun hincr => ?_⟩
      rw [hincr, hheader] at hblock
      cases hblock
    have hrun := hstart.run hform h hnumIt hsigned hchain hstretch
    have hlength : ((t :: l).splitBy fun _ u => !decide (u.block = code.header)).length ≤ _ :=
      length_splitBy_le (by simp [hblock])
    rw [List.countP_cons_of_pos (by simpa using hblock)] at hlength
    simp only [iterations, ne_eq, decide_not]
    omega

/-- Some variables of an allocation that are in VM cost no more than all of them. -/
private theorem sum_filter_le (alloc : RegionAllocation) {q : Value × VariableAllocation → Bool}
    (hq : ∀ e, q e = true → e.2.placement = .vm) (size : Value → ℕ) {energy : ℚ}
    (henergy : 0 ≤ energy) :
    (((alloc.vars.walk.filter q).map Prod.fst).map fun v => energy * size v).sum ≤
      (alloc.vars.walk.map fun e =>
        if e.2.placement = .vm then energy * (size e.1 : ℚ) else 0).sum := by
  induction alloc.vars.walk with
  | nil => simp
  | cons e l ih =>
    have hnonneg : 0 ≤ energy * (size e.1 : ℚ) := mul_nonneg henergy (Nat.cast_nonneg _)
    rw [List.map_cons, List.sum_cons]
    by_cases he : q e = true
    · rw [List.filter_cons_of_pos he, List.map_cons, List.map_cons, List.sum_cons, if_pos (hq e he)]
      exact add_le_add_right ih _
    · rw [List.filter_cons_of_neg he]
      split_ifs
      · linarith
      · linarith

/-- What the checkpoint saves and restores costs no more than the whole body allocation. -/
private theorem energies_le (hform : d.loop.IsLoopSimplifyForm cfg preheader latch)
    (h : solution.insertLoopConditionalCheckpoint cfg phis d.loop.header d = some code)
    {ctx : Context} (hstore : 0 ≤ ctx.params.memStoreEnergyPerByte)
    (hrestore : 0 ≤ ctx.params.memRestoreEnergyPerByte) :
    code.saveEnergy ctx ≤ computeLoopExitEnergyToLeave d.bodyAllocation ctx.state ctx.params false ∧
      code.restoreEnergy ctx ≤ ctx.params.capacity -
        computeLoopEntryEnergyLeft d.bodyAllocation ctx.state ctx.params := by
  obtain ⟨-, -, -, -, hsequence⟩ := eq_of_insert hform h
  constructor
  · have hle := sum_filter_le d.bodyAllocation
      (q := fun e => e.2.needSave && solution.hasShadow e.1)
      (fun e he => by simp_all [VariableAllocation.needSave]) ctx.state.getVarSizeBytes hstore
    simp only [saveEnergy, hsequence, SchematicSolution.backEdgeSequence,
      SchematicSolution.insertCheckpointSequence, Option.getD_some, computeLoopExitEnergyToLeave]
    simpa using hle
  · have hle := sum_filter_le d.bodyAllocation
      (q := fun e => e.2.needRestore && solution.hasShadow e.1)
      (fun e he => by simp_all [VariableAllocation.needRestore]) ctx.state.getVarSizeBytes hrestore
    simp only [restoreEnergy, hsequence, SchematicSolution.backEdgeSequence,
      SchematicSolution.insertCheckpointSequence, Option.getD_some, computeLoopEntryEnergyLeft]
    linarith

end Counting

end LoopConditionalCheckpoint

/-! ### The promise -/

open LoopConditionalCheckpoint

/-- **The conditional loop checkpoint keeps its energy promise**, for a loop in simplified form
whose body has no checkpoint. -/
theorem conditionalCheckpoint_keepsPromise {ν : Type*} {ctx : Context} {trace : LoadedLoopTrace}
    {headerAlloc : ValueMap Placement} {A A' : Analysis} {d : LoopCheckpointDecision}
    {preheader latch : BasicBlock} (solution : SchematicSolution)
    (phis : List (List (BasicBlock × ν)))
    (hform : trace.loop.IsLoopSimplifyForm ctx.cfg preheader latch)
    (hbody : A.solution.hasOnlyDisabledCheckpointsInLoop A.graph ctx trace.loop
      (createLoopBoundaryBlocks trace.loop) = true)
    (hdecide : A.decideByBudget ctx trace headerAlloc = .ok A')
    (hd : A'.solution.loopDecisions.lookup (.real trace.loop.header) = some d)
    (hmandatory : d.mandatoryBackEdge = false) (hlogic : d.handledByLoopLogic = true)
    (hsigned : d.numIterationsPerCharge < 2 ^ 31)
    (hstore : 0 ≤ ctx.params.memStoreEnergyPerByte)
    (hrestore : 0 ≤ ctx.params.memRestoreEnergyPerByte)
    (hinc : 0 ≤ ctx.params.loopIncrementCostNvm) :
    ∃ code, solution.insertLoopConditionalCheckpoint ctx.cfg phis trace.loop.header d = some code ∧
      code.KeepsPromise ctx preheader d := by
  obtain ⟨C, hC, hELoop, hbodyAlloc, hcharge, hmany, hloop⟩ :=
    exists_isConverged_of_decideByBudget hbody hdecide hd hmandatory hlogic
  rw [← hloop] at hform ⊢
  obtain ⟨code, hcode⟩ : ∃ code,
      solution.insertLoopConditionalCheckpoint ctx.cfg phis d.loop.header d = some code := by
    simp only [SchematicSolution.insertLoopConditionalCheckpoint, hform.latch_eq,
      hform.preheader_eq]
    rw [if_neg (by omega)]
    exact ⟨_, rfl⟩
  refine ⟨code, hcode, ⟨fun s stretch hs hchain hstretch => ?_,
    fun s stretch t hs ht hchain hstretch cost hcost => ?_⟩⟩
  · exact Nat.le_sub_one_of_lt (length_iterations_lt hform hcode hmany hsigned hs hchain hstretch)
  · have hchain := (List.isChain_append.mp hchain).1
    have hlt := length_iterations_lt hform hcode hmany hsigned (.inr hs) hchain hstretch
    have hsum := sum_map_le_of_iterations hcost
    obtain ⟨hsave, hrestored⟩ := energies_le hform hcode hstore hrestore
    have hpays := hC.pays_charge hinc (by omega)
    rw [← hELoop, ← hbodyAlloc, ← hcharge] at hpays
    have hELoop_pos : 0 < d.E_loop := hELoop ▸ (hC.read.pays (by omega : 0 < _)).1
    have hiterations : ((code.iterations stretch).length : ℚ) * d.E_loop ≤
        ((d.numIterationsPerCharge - 1 : ℕ) : ℚ) * d.E_loop :=
      mul_le_mul_of_nonneg_right (by exact_mod_cast Nat.le_sub_one_of_lt hlt) hELoop_pos.le
    calc code.restoreEnergy ctx + (stretch.map cost).sum + code.saveEnergy ctx
        ≤ (ctx.params.capacity -
              computeLoopEntryEnergyLeft d.bodyAllocation ctx.state ctx.params) +
            ((d.numIterationsPerCharge - 1 : ℕ) : ℚ) * d.E_loop +
            computeLoopExitEnergyToLeave d.bodyAllocation ctx.state ctx.params false :=
          add_le_add (add_le_add hrestored (hsum.trans hiterations)) hsave
      _ ≤ ctx.params.capacity := by linarith

/-! ### A loop of one block -/

/-- A loop of one block of ten units, without an energy for checkpoints. -/
def oneBlockContext : Context where
  cfg := ⟨[0, 1, 2], [(0, 1), (1, 1), (1, 2)], fun _ => 10⟩
  state := ⟨[], fun _ _ => 0, fun _ _ => 0, fun _ _ => none, fun _ => 0, fun _ => false⟩
  params := ⟨100, 0, 0, 0, 0, 0, 0, 0, 0, 0, 0, 0, .stable⟩
  LI := ⟨[⟨1, [1], some 1, some 0, rfl⟩]⟩

/-- The trace of its body. -/
def oneBlockTrace : LoadedLoopTrace where
  loop := ⟨1, [1], some 1, some 0, rfl⟩
  depth := 1
  members := [.real 1]
  iterationPaths := [⟨[.real 1], 1⟩]
  maxTripCount := none

/-- The body after its analysis. -/
def oneBlockAnalysis : Analysis where
  solution := ({} : SchematicSolution).setMeta (.real 1) { E_to_leave := 10, analyzed := true }
  graph := {}
  tracker := {}

/-- The back edge gets a checkpoint in every eighth iteration. -/
private theorem decideByBudget_oneBlock : ∃ A' d,
    oneBlockAnalysis.decideByBudget oneBlockContext oneBlockTrace ∅ = .ok A' ∧
      A'.solution.loopDecisions.lookup (.real 1) = some d ∧ d.mandatoryBackEdge = false ∧
      d.handledByLoopLogic = true ∧ d.numIterationsPerCharge = 8 := by
  have hdecision : ((oneBlockAnalysis.decideByBudget oneBlockContext oneBlockTrace
      ∅).toOption.bind fun A' => A'.solution.loopDecisions.lookup (.real 1)).map (fun d =>
        (d.mandatoryBackEdge, d.handledByLoopLogic, d.numIterationsPerCharge)) =
      some (false, true, 8) := by decide +kernel
  cases hdecide : oneBlockAnalysis.decideByBudget oneBlockContext oneBlockTrace ∅ with
  | error e =>
    rw [hdecide] at hdecision
    cases hdecision
  | ok A' =>
    rw [hdecide] at hdecision
    obtain ⟨d, hd, heq⟩ := Option.map_eq_some_iff.mp hdecision
    simp only [Prod.mk.injEq] at heq
    exact ⟨A', d, rfl, hd, heq⟩

theorem oneBlock_keepsPromise : ∃ d code, d.numIterationsPerCharge = 8 ∧
    ({} : SchematicSolution).insertLoopConditionalCheckpoint oneBlockContext.cfg
      [[((0 : BasicBlock), 0), (1, 1)]] 1 d = some code ∧
    code.KeepsPromise oneBlockContext 0 d := by
  obtain ⟨A', d, hdecide, hd, hmandatory, hlogic, hcharge⟩ := decideByBudget_oneBlock
  have hform : oneBlockTrace.loop.IsLoopSimplifyForm oneBlockContext.cfg 0 1 :=
    ⟨rfl, rfl, by decide, by decide, by decide, by decide⟩
  obtain ⟨code, hcode, hpromise⟩ := conditionalCheckpoint_keepsPromise {}
    [[((0 : BasicBlock), 0), (1, 1)]] hform (by decide +kernel) hdecide hd hmandatory hlogic
    (by omega) le_rfl le_rfl le_rfl
  exact ⟨d, code, hcharge, hcode, hpromise⟩

end Bao.Schematic
