import Bao.Machine.ShadowMemory
import Bao.Schematic.Instrumenter
import Bao.Schematic.LoopRun

/-!
# Data consistency of instrumented functions

The instrumented function keeps a variable in its shadow or in its NVM copy, block by block, and
moves it at checkpoints. An execution follows any path of the CFG, traced or not, runs the
checkpoints of the edges it crosses, and may lose power at each of them. Calls run the instrumented
callee.

The rewriting replaces the variable itself where it is an operand. A pointer that one block
computes and another one uses therefore leads to the copy that the first block keeps, and the same
holds for a pointer that a call passes. The program computes with the bytes it loads, not with the
addresses of its variables.

* A function has no checkpoint at its entry, so nothing is restored there: a variable that the first
  region keeps in VM is read from a shadow that was never filled
  (`entry_region_reads_empty_shadow`).
* Whether a region restores a variable is read off the first access of one traced path, and a store
  to one element counts like a store of the whole object.
* A checkpoint copies as many bytes as the state analysis of its function knows a variable to have:
  none of a global that only a callee accesses.
* An edge without a checkpoint may lead to a block that keeps a variable elsewhere, a loop
  checkpoint moves the variables of one allocation for the whole body, and a pointer may come from a
  block with other placements.

A run in which none of this happens (`ProgramRun.Keeps`) is data consistent, because the allocations
of a solution mark every variable for saving (`mem_saves_iff`): each checkpoint then brings home all
that the block before it keeps in VM (`data_consistent_of_keeps`).
-/

namespace Bao.Schematic

open Bao.Machine.ShadowMemory

/-! ### Code -/

/-- An access of a block, and where its pointer comes from: the function and the block of the
instruction that has the variable itself among its operands. -/
structure PointerAccess (σ : Type) where
  access : Access Value σ
  origin : σ → ℕ × BasicBlock

/-- The code of a function: its blocks access the variables; the state analysis counts every access
to a candidate and knows the size of its object. -/
structure FunctionCode (σ : Type) (size : Value → ℕ) where
  input : FunctionInput
  entry : BasicBlock
  allocas : List Value
  accesses : BasicBlock → List (PointerAccess σ)
  allocas_local : ∀ v ∈ allocas, v.isGlobal = false
  counted : ∀ bb, ∀ a ∈ accesses bb, a.access.target ∈ input.state.candidates →
    0 < input.state.getLoadCount bb a.access.target + input.state.getStoreCount bb a.access.target
  sizes : ∀ v ∈ input.state.candidates, input.state.getVarSizeBytes v = size v

/-- A function with the solution that `solveFunction` found for it, from the summaries of its
callees. -/
structure InstrumentedFunction (σ : Type) (size : Value → ℕ) extends FunctionCode σ size where
  solution : SchematicSolution
  solved : ∃ params summaries tracker ctx A,
    (∀ f S, summaries f = some S → SolvedSummary params S) ∧
      solveFunction input params summaries tracker = .ok (ctx, A) ∧ A.solution = solution

/-- A program: its functions by the names that calls use. -/
abbrev Program (σ : Type) (size : Value → ℕ) := ℕ → InstrumentedFunction σ size

variable {σ : Type} {size : Value → ℕ}

namespace InstrumentedFunction

variable (I : InstrumentedFunction σ size)

/-- The copy that the variable itself is, as an operand in a block. -/
def copyFor (bb : BasicBlock) (v : Value) : Copy :=
  if I.solution.usesShadow bb v then .shadow else .nvm

/-- The checkpoints that a crossing of an edge runs: those of the enabled edges, and on a back edge
that the loop logic handles the one of the loop, which a counter may skip. -/
inductive Crossing (edge : BasicBlock × BasicBlock) : List CheckpointSequence → Prop
  | plain (h : I.solution.isHandledBackEdge edge.1 edge.2 = false) :
      Crossing edge (I.solution.edgeCheckpoints I.input.cfg edge)
  | backEdge {d : LoopCheckpointDecision}
      (hd : I.solution.loopDecisions.lookup (.real edge.2) = some d)
      (hlatch : d.loop.latch = some edge.1) (hhandled : d.handledByLoopLogic = true) :
      Crossing edge (I.solution.edgeCheckpoints I.input.cfg edge ++ [I.solution.backEdgeSequence d])
  | skipped {d : LoopCheckpointDecision}
      (hd : I.solution.loopDecisions.lookup (.real edge.2) = some d)
      (hlatch : d.loop.latch = some edge.1) (hhandled : d.handledByLoopLogic = true)
      (hcounter : d.mandatoryBackEdge = false) :
      Crossing edge (I.solution.edgeCheckpoints I.input.cfg edge)

end InstrumentedFunction

/-! ### Executions -/

/-- Where an execution is: the block it has run last, and the calls that wait for it to return, with
their functions, the innermost first. -/
structure Position where
  function : ℕ
  block : BasicBlock
  callers : List (ℕ × IsolatedCall)

/-- The checkpoints of an edge, each with the contents that a power loss leaves in the shadows. -/
abbrev Boundaries := List (CheckpointSequence × Option (Memory Value))

/-- The events of the checkpoints of an edge. Each copy is as long as the state analysis of the
function takes the variable to be, which is no bytes for a variable it does not know. -/
def Boundaries.events (boundaries : Boundaries) (state : SchematicStateAnalysis) :
    List (MemoryEvent Value σ) :=
  boundaries.flatMap fun b =>
    checkpointEvents state.getVarSizeBytes b.1.saves b.1.restores b.2

/-- How an execution goes on from a block: over an edge, into a call, or back from one. When a call
starts, and when it has returned, its stack slots hold contents that no one has defined, the same
ones with and without instrumentation. -/
inductive Move
  | edge (block : BasicBlock) (boundaries : Boundaries)
  | call (ic : IsolatedCall) (slots : Memory Value)
  | ret (slots : Memory Value) (boundaries : Boundaries)

namespace Position

variable (P : Program σ size) (p : Position)

/-- The copies that the block of the position keeps. -/
def kept (v : Value) : Copy := (P p.function).copyFor p.block v

/-- The accesses of the block, each to the copy that its pointer leads to. -/
def accesses : List ((σ → Copy) × Access Value σ) :=
  ((P p.function).accesses p.block).map fun a =>
    (fun s => (P (a.origin s).1).copyFor (a.origin s).2 a.access.target, a.access)

/-- The next block. -/
def next : Move → Position
  | .edge b _ => { p with block := b }
  | .call ic _ => ⟨ic.callee, (P ic.callee).entry, (p.function, ic) :: p.callers⟩
  | .ret _ _ =>
    match p.callers with
    | [] => p
    | (f, ic) :: callers => ⟨f, ic.exit, callers⟩

/-- The program can make the move. A block without successors returns. -/
def Legal : Move → Prop
  | .edge b boundaries =>
    (p.block, b) ∈ (P p.function).input.cfg.edges ∧
      (∀ ic ∈ (P p.function).input.calls, ¬(ic.entry = p.block ∧ ic.exit = b)) ∧
      (P p.function).Crossing (p.block, b) (boundaries.map Prod.fst)
  | .call ic _ => ic ∈ (P p.function).input.calls ∧ ic.entry = p.block
  | .ret _ boundaries =>
    (∀ b, (p.block, b) ∉ (P p.function).input.cfg.edges) ∧
      ∃ f ic callers, p.callers = (f, ic) :: callers ∧
        (P f).Crossing (ic.entry, ic.exit) (boundaries.map Prod.fst)

/-- What happens before the next block runs. -/
def crossing : Move → List (MemoryEvent Value σ)
  | .edge _ boundaries => boundaries.events (P p.function).input.state
  | .call ic slots => [.frame (P ic.callee).allocas slots]
  | .ret slots boundaries => .frame (P p.function).allocas slots ::
      boundaries.events (P (p.next P (.ret slots boundaries)).function).input.state

/-- The events of a move and of the next block. -/
def events (m : Move) : List (MemoryEvent Value σ) :=
  p.crossing P m ++ accessEvents ((p.next P m).accesses P)

/-- A move after the other. -/
def LegalMoves : Position → List Move → Prop
  | _, [] => True
  | p, m :: moves => p.Legal P m ∧ LegalMoves (p.next P m) moves

/-- The events of some moves. -/
def movesEvents : Position → List Move → List (MemoryEvent Value σ)
  | _, [] => []
  | p, m :: moves => p.events P m ++ movesEvents (p.next P m) moves

end Position

/-- **An execution** of a program that starts with one of its functions, in a program state and with
contents of the variables. The program accesses no byte outside its objects. -/
structure ProgramRun (P : Program σ size) where
  function : ℕ
  moves : List Move
  state : σ
  mem : Memory Value
  legal : Position.LegalMoves P ⟨function, (P function).entry, []⟩ moves
  inside : Reference.InsideRun size ⟨state, mem, []⟩
    (accessEvents (Position.accesses P ⟨function, (P function).entry, []⟩) ++
      Position.movesEvents P ⟨function, (P function).entry, []⟩ moves)

namespace ProgramRun

variable {P : Program σ size} (r : ProgramRun P)

/-- The entry of the first function. -/
def start : Position := ⟨r.function, (P r.function).entry, []⟩

/-- The events of the execution. -/
def events : List (MemoryEvent Value σ) :=
  accessEvents (r.start.accesses P) ++ r.start.movesEvents P r.moves

/-- The run of the instrumented program. The shadows are zero-initialized globals. -/
def instrumented : Shadowed Value σ :=
  Shadowed.run size ⟨r.state, copies r.mem fun _ _ => 0, []⟩ r.events

/-- The run of the program without instrumentation before the first block. -/
def initial : Reference Value σ := ⟨r.state, r.mem, []⟩

/-- The same run of the program without instrumentation. -/
def uninstrumented : Reference Value σ := r.initial.run size r.events

/-- **Data consistency** of a run: every load returns the bytes of the uninstrumented run, every
save leaves the current contents of the variable in NVM, and the program continues alike. -/
def DataConsistent : Prop :=
  r.instrumented.trace = r.uninstrumented.trace ∧ r.instrumented.state = r.uninstrumented.state

end ProgramRun

/-! ### Runs that keep their variables -/

/-- The crossing of an edge leaves the variables where the next block keeps them. Without a
checkpoint the next block keeps the filled variables where they are. With one, all variables that
the block before keeps in VM are filled, and the function knows the variables that are copied; the
checkpoint of a loop concerns the variables of the block before, and is the only one of its edge. -/
structure InstrumentedFunction.KeepsEdge (I : InstrumentedFunction σ size) (filled : Filled Value)
    (edge : BasicBlock × BasicBlock) (boundaries : Boundaries) : Prop where
  unmoved : boundaries = [] → ∀ v, filled v = true → I.copyFor edge.2 v = I.copyFor edge.1 v
  all_filled : boundaries ≠ [] → ∀ v, I.copyFor edge.1 v = .shadow → filled v = true
  known : ∀ b ∈ boundaries, ∀ v ∈ b.1.saves ++ b.1.restores, v ∈ I.input.state.candidates
  loop : boundaries ≠ [] → ∀ d, I.solution.loopDecisions.lookup (.real edge.2) = some d →
    d.loop.latch = some edge.1 → d.handledByLoopLogic = true →
      I.solution.edgeCheckpoints I.input.cfg edge = [] ∧
        ∀ v, I.solution.keepsInShadow d.bodyAllocation v = I.solution.usesShadow edge.1 v

namespace Position

variable (P : Program σ size)

/-- A move leaves the variables where the next block keeps them. A call and its return move no
filled variable but the allocas of the callee, and no checkpoint stands between the two blocks of a
call. -/
def KeepsMove (p : Position) (filled : Filled Value) : Move → Prop
  | .edge b boundaries => (P p.function).KeepsEdge filled (p.block, b) boundaries
  | .call ic slots => ∀ v ∉ (P ic.callee).allocas, filled v = true →
      (p.next P (.call ic slots)).kept P v = p.kept P v
  | .ret slots boundaries => boundaries = [] ∧ ∀ v ∉ (P p.function).allocas, filled v = true →
      (p.next P (.ret slots boundaries)).kept P v = p.kept P v

/-- All moves of an execution keep the variables, and so do the accesses of the blocks it runs;
`u` is the uninstrumented run before them. -/
def KeepsMoves : Position → Filled Value → Reference Value σ → List Move → Prop
  | _, _, _, [] => True
  | p, filled, u, m :: moves =>
    let q := p.next P m
    let crossed := u.run size (p.crossing P m)
    let restored := filled.run size u (p.crossing P m)
    p.KeepsMove P filled m ∧ AccessesKept size (q.kept P) restored crossed (q.accesses P) ∧
      KeepsMoves q (restored.run size crossed (accessEvents (q.accesses P)))
        (crossed.run size (accessEvents (q.accesses P))) moves

end Position

namespace ProgramRun

variable {P : Program σ size} (r : ProgramRun P)

/-- **The steps of a run keep its variables.** An access goes to the copy that its block keeps, and
a shadow is restored at the start of the region, or stored as a whole in it, before the program uses
it otherwise; a move leaves the variables where the next block keeps them. -/
def Keeps : Prop :=
  AccessesKept size (r.start.kept P) (fun _ => false) r.initial (r.start.accesses P) ∧
    r.start.KeepsMoves P
      (Filled.run size (fun _ => false) r.initial (accessEvents (r.start.accesses P)))
      (r.initial.run size (accessEvents (r.start.accesses P))) r.moves

end ProgramRun

/-! ### What checkpoints save -/

namespace SchematicSolution

variable (solution : SchematicSolution)

/-- **What a checkpoint saves**: all that the ending region keeps in VM, if its allocation marks
every variable for saving. -/
theorem mem_saves_iff {endingAlloc : Option RegionAllocation}
    (h : ∀ a ∈ endingAlloc, a.SavesAll) (startingAlloc : Option RegionAllocation) {v : Value} :
    v ∈ (solution.insertCheckpointSequence endingAlloc startingAlloc).saves ↔
      ∃ a ∈ endingAlloc, solution.keepsInShadow a v = true := by
  cases endingAlloc with
  | none => simp [insertCheckpointSequence, ValueMap.walk]
  | some a =>
    have hmark : ∀ va, a.vars.lookup v = some va → va.needSave = decide (va.placement = .vm) := by
      intro va hva
      rw [VariableAllocation.needSave, h a rfl v va hva, Bool.true_and]
    simp only [insertCheckpointSequence, Option.getD_some, List.mem_map, List.mem_filter,
      Prod.exists, exists_and_right, exists_eq_right, ValueMap.mem_walk, Bool.and_eq_true,
      Option.mem_some_iff, exists_eq_left', keepsInShadow, Option.any_eq_true]
    constructor
    · rintro ⟨va, hva, hsave, hshadow⟩
      exact ⟨⟨va, hva, hmark va hva ▸ hsave⟩, hshadow⟩
    · rintro ⟨⟨va, hva, hvm⟩, hshadow⟩
      exact ⟨va, hva, (hmark va hva).trans hvm, hshadow⟩

theorem hasShadow_of_usesShadow {bb : BasicBlock} {v : Value}
    (h : solution.usesShadow bb v = true) : solution.hasShadow v = true := by
  rw [usesShadow] at h
  split at h
  · exact (Bool.and_eq_true_iff.mp h).2
  · cases h

/-- The first checkpoint of an edge saves what the block before it keeps, the others nothing. -/
def SavesFirst (placed : EdgeCheckpoints) : Prop :=
  ∀ edge c cs, placed edge = c :: cs →
    (∃ startingAlloc, c = solution.insertCheckpointSequence
      (solution.allocationOf (.real edge.1)) startingAlloc) ∧ ∀ c' ∈ cs, c'.saves = []

variable {solution}

private theorem SavesFirst.splitEdge {placed : EdgeCheckpoints} (h : solution.SavesFirst placed)
    (edge : BasicBlock × BasicBlock) (startingAlloc : Option RegionAllocation) :
    solution.SavesFirst (solution.splitEdge edge startingAlloc placed) := by
  intro edge' c cs hcs
  by_cases hedge : edge' = edge
  · subst hedge
    rw [SchematicSolution.splitEdge, Function.update_self] at hcs
    cases hplaced : placed edge' with
    | nil =>
      rw [hplaced] at hcs
      obtain ⟨rfl, rfl⟩ := List.cons.inj hcs
      exact ⟨⟨startingAlloc, rfl⟩, by simp⟩
    | cons c₀ cs₀ =>
      rw [hplaced] at hcs
      obtain ⟨rfl, rfl⟩ := List.cons.inj hcs
      obtain ⟨hfirst, hrest⟩ := h edge' c₀ cs₀ hplaced
      refine ⟨hfirst, fun c' hc' => (List.mem_append.mp hc').elim (hrest c') fun hc' => ?_⟩
      rw [List.mem_singleton.mp hc']
      rfl
  · rw [SchematicSolution.splitEdge, Function.update_of_ne hedge] at hcs
    exact h edge' c cs hcs

/-- **The checkpoints of an edge**: the first one saves what the block before it keeps. -/
theorem savesFirst_edgeCheckpoints (cfg : CFGAnalysis) :
    solution.SavesFirst (solution.edgeCheckpoints cfg) := by
  refine List.foldlRecOn (motive := solution.SavesFirst) solution.enabledCheckpoints _
    (fun _ _ _ h => by cases h) fun placed hplaced edge _ => ?_
  rw [placeCheckpoint]
  split
  next srcBB dstBB _ _ =>
    dsimp only
    split_ifs
    · exact hplaced
    · exact hplaced.splitEdge _ _
    · exact List.foldlRecOn (motive := solution.SavesFirst) _ _ hplaced fun placed h e _ =>
        h.splitEdge e _
  · exact hplaced

end SchematicSolution

namespace InstrumentedFunction

variable (I : InstrumentedFunction σ size)

/-- **What the solver promises**: all allocations of a solution mark their variables for saving. -/
theorem savesAll :
    (∀ b, ∀ a ∈ I.solution.allocationOf b, a.SavesAll) ∧ SavesBodies I.solution := by
  obtain ⟨params, summaries, tracker, ctx, A, hsum, hsolved, hA⟩ := I.solved
  have hreach := solveFunction_reaches (fun f S h => (hsum f S h).savesAll) hsolved
  rw [← hA]
  exact ⟨fun b a ha => (hreach.wellAllocated wellAllocated_empty).allocationOf ha,
    savesBodies_empty.of_reaches hreach⟩

variable {I}

theorem copyFor_eq_shadow {bb : BasicBlock} {v : Value} :
    I.copyFor bb v = .shadow ↔ I.solution.usesShadow bb v = true := by
  simp [copyFor]

theorem usesShadow_iff {bb : BasicBlock} {v : Value} : I.solution.usesShadow bb v = true ↔
    ∃ a ∈ I.solution.allocationOf (.real bb), I.solution.keepsInShadow a v = true := by
  rw [SchematicSolution.usesShadow]
  cases I.solution.allocationOf (.real bb) <;> simp

/-- **The checkpoints of a crossing** that keeps its edge: the first one saves all that the block
before it keeps in VM, the others save nothing. -/
theorem saves_of_crossing {filled : Filled Value} {edge : BasicBlock × BasicBlock}
    {boundaries : Boundaries} (hcross : I.Crossing edge (boundaries.map Prod.fst))
    (hkeeps : I.KeepsEdge filled edge boundaries) {c : CheckpointSequence × Option (Memory Value)}
    {cs : Boundaries} (hcs : boundaries = c :: cs) :
    (∀ v, v ∈ c.1.saves ↔ I.copyFor edge.1 v = .shadow) ∧ ∀ c' ∈ cs, c'.1.saves = [] := by
  have hedge : boundaries.map Prod.fst = I.solution.edgeCheckpoints I.input.cfg edge →
      (∀ v, v ∈ c.1.saves ↔ I.copyFor edge.1 v = .shadow) ∧ ∀ c' ∈ cs, c'.1.saves = [] := by
    intro h
    rw [hcs, List.map_cons] at h
    obtain ⟨⟨startingAlloc, hc⟩, hrest⟩ :=
      SchematicSolution.savesFirst_edgeCheckpoints I.input.cfg edge _ _ h.symm
    refine ⟨fun v => ?_, fun c' hc' => hrest _ (List.mem_map_of_mem hc')⟩
    rw [hc, SchematicSolution.mem_saves_iff _ (I.savesAll.1 _), copyFor_eq_shadow, usesShadow_iff]
  generalize hfst : boundaries.map Prod.fst = sequences at hcross hedge
  cases hcross with
  | plain h => exact hedge rfl
  | skipped hd hlatch hhandled hcounter => exact hedge rfl
  | backEdge hd hlatch hhandled =>
    obtain ⟨hnone, hbody⟩ := hkeeps.loop (by simp [hcs]) _ hd hlatch hhandled
    rw [hnone, List.nil_append, hcs, List.map_cons] at hfst
    obtain ⟨hc, hnil⟩ := List.cons.inj hfst
    obtain rfl := List.map_eq_nil_iff.mp hnil
    refine ⟨fun v => ?_, by simp⟩
    rw [hc, SchematicSolution.backEdgeSequence, SchematicSolution.mem_saves_iff _ fun a ha => ?_]
    · rw [copyFor_eq_shadow, ← hbody v]
      simp
    · rw [← Option.mem_some_iff.mp ha]
      exact I.savesAll.2 _ _ hd

end InstrumentedFunction

/-! ### Data consistency -/

variable {st : Status Value} {u : Reference Value σ} {kept : Value → Copy} {filled : Filled Value}

/-- **The checkpoints of an edge** take every variable home, if the first one saves all that the
region keeps in VM, and the others nothing. -/
theorem located_boundaries {state : SchematicStateAnalysis}
    {c : CheckpointSequence × Option (Memory Value)} {cs : Boundaries}
    (h : Located size st kept filled) (hfirst : ∀ v, v ∈ c.1.saves ↔ kept v = .shadow)
    (hfilled : ∀ v, kept v = .shadow → filled v = true) (hrest : ∀ c' ∈ cs, c'.1.saves = [])
    (hsizes : ∀ b ∈ c :: cs, ∀ v ∈ b.1.saves ++ b.1.restores,
      state.getVarSizeBytes v = size v) :
    st.CarefulRun size u (Boundaries.events (c :: cs) state) ∧
      ∀ kept', Located size (st.run size u (Boundaries.events (c :: cs) state)) kept'
        (filled.run size u (Boundaries.events (c :: cs) state)) := by
  induction cs generalizing c kept filled st u with
  | nil =>
    simpa [Boundaries.events] using h.checkpoint u c.2 hfirst hfilled
      (fun v hv => hsizes c (List.mem_singleton_self c) v (List.mem_append_left _ hv))
      (fun v hv => hsizes c (List.mem_singleton_self c) v (List.mem_append_right _ hv))
  | cons c' cs ih =>
    obtain ⟨hc, hcs⟩ := List.forall_mem_cons.mp hsizes
    obtain ⟨hcareful, hlocated⟩ := h.checkpoint u c.2 hfirst hfilled
      (fun v hv => hc v (List.mem_append_left _ hv)) (fun v hv => hc v (List.mem_append_right _ hv))
    -- after a checkpoint everything is in NVM, and the next one saves nothing
    have hnone := hrest c' (List.mem_cons_self ..)
    have hlater := ih (u := u.run size
        (checkpointEvents state.getVarSizeBytes c.1.saves c.1.restores c.2))
      (hlocated fun _ => .nvm) (by simp [hnone]) (by simp)
      (fun c'' hc'' => hrest c'' (List.mem_cons_of_mem _ hc'')) hcs
    rw [Boundaries.events, List.flatMap_cons, Status.carefulRun_append, Status.run_append,
      Filled.run_append]
    exact ⟨⟨hcareful, hlater.1⟩, hlater.2⟩

namespace Position

variable {P : Program σ size} {p : Position}

/-- **A move** is careful, and finds every variable where the next block keeps it. -/
theorem located_move {m : Move} (h : Located size st (p.kept P) filled) (hlegal : p.Legal P m)
    (hkeeps : p.KeepsMove P filled m) :
    st.CarefulRun size u (p.crossing P m) ∧
      Located size (st.run size u (p.crossing P m)) ((p.next P m).kept P)
        (filled.run size u (p.crossing P m)) := by
  cases m with
  | edge b boundaries =>
    obtain ⟨-, -, hcross⟩ := hlegal
    have hkeeps : (P p.function).KeepsEdge filled (p.block, b) boundaries := hkeeps
    cases boundaries with
    | nil => exact ⟨trivial, h.congr (hkeeps.unmoved rfl)⟩
    | cons c cs =>
      obtain ⟨hfirst, hrest⟩ := InstrumentedFunction.saves_of_crossing hcross hkeeps rfl
      have hboundaries := located_boundaries (u := u) h hfirst
        (hkeeps.all_filled (List.cons_ne_nil c cs)) hrest
        fun b hb v hv => (P p.function).sizes v (hkeeps.known b hb v hv)
      exact ⟨hboundaries.1, hboundaries.2 _⟩
  | call ic slots => exact ⟨⟨trivial, trivial⟩, h.frame u.state slots hkeeps⟩
  | ret slots boundaries =>
    obtain ⟨rfl, hkeeps⟩ := hkeeps
    exact ⟨⟨trivial, trivial⟩, h.frame u.state slots hkeeps⟩

/-- **The moves of an execution** are careful. -/
theorem careful_moves {moves : List Move} (h : Located size st (p.kept P) filled)
    (hlegal : LegalMoves P p moves) (hinside : u.InsideRun size (p.movesEvents P moves))
    (hkeeps : p.KeepsMoves P filled u moves) : st.CarefulRun size u (p.movesEvents P moves) := by
  induction moves generalizing p st filled u with
  | nil => trivial
  | cons m moves ih =>
    obtain ⟨hmove, haccesses, hrest⟩ := hkeeps
    rw [movesEvents, events, List.append_assoc, Reference.insideRun_append,
      Reference.insideRun_append] at hinside
    obtain ⟨hcrossing, hlocated⟩ := located_move (u := u) h hlegal.1 hmove
    obtain ⟨hblock, hlocated⟩ := hlocated.accesses hinside.2.1 haccesses
    rw [movesEvents, events, List.append_assoc, Status.carefulRun_append,
      Status.carefulRun_append]
    exact ⟨hcrossing, hblock, ih hlocated hlegal.2 hinside.2.2 hrest⟩

end Position

/-- A global of two bytes. -/
def sensorVar : Value := ⟨0, true⟩

/-- Room for the variable in VM, and an access penalty that makes it pay. -/
def sensorParams : SchematicParams :=
  { capacity := 100, E_pro := 1, E_epi := 1, N_reg := 0, regStoreEnergy := 0, regRestoreEnergy := 0
    nvmAccessPenalty := 1, memStoreEnergyPerByte := 0, memRestoreEnergyPerByte := 0
    vmCapacityBytes := 16, loopIncrementCostNvm := 1, callCost := 0 }

/-- Blocks that load the variable once, or store it before that. -/
def sensorState (storing loading : List BasicBlock) : SchematicStateAnalysis :=
  { candidates := [sensorVar]
    getLoadCount := fun b _ => if b ∈ loading then 1 else 0
    getStoreCount := fun b _ => if b ∈ storing then 1 else 0
    getFirstOpIsLoad := fun b _ =>
      if b ∈ storing then some false else if b ∈ loading then some true else none
    getVarSizeBytes := fun _ => 2
    isPointerType := fun _ => false }

/-- A load of the whole object, with the variable as its operand. -/
def sensorLoad (bb : BasicBlock) : PointerAccess Unit :=
  ⟨.load sensorVar 2 (fun _ => 0) fun s _ => s, fun _ => (0, bb)⟩

/-- A store of the whole object. -/
def sensorStore (bb : BasicBlock) : PointerAccess Unit :=
  ⟨.store sensorVar 2 (fun _ => 0) fun _ _ => 7, fun _ => (0, bb)⟩

/-- A function of one block, which loads the variable. -/
def readSensor : FunctionInput :=
  { cfg := ⟨[0], [], fun _ => 10⟩
    state := sensorState [] [0]
    functionPaths := [[.real 0]] }

/-- The function with its solution. -/
def readSensorFunction : InstrumentedFunction Unit fun _ => 2 where
  input := readSensor
  entry := 0
  allocas := []
  accesses bb := if bb = 0 then [sensorLoad 0] else []
  allocas_local := by simp
  counted bb a ha _ := by
    by_cases hbb : bb = 0
    · subst hbb
      simp [readSensor, sensorState]
    · simp [hbb] at ha
  sizes _ _ := rfl
  solution := solutionOf (solveFunction readSensor sensorParams (fun _ => none) {})
  solved :=
    have ⟨ctx, A, hA⟩ := exists_solutionOf (x := solveFunction readSensor sensorParams
      (fun _ => none) {}) (by decide +kernel)
    ⟨sensorParams, fun _ => none, {}, ctx, A, by simp, hA⟩

/-- The run of the function on a variable that holds ones. -/
def readSensorRun : ProgramRun fun _ => readSensorFunction where
  function := 0
  moves := []
  state := ()
  mem := fun _ _ => 1
  legal := trivial
  inside := ⟨le_refl 2, trivial⟩

/-- A function of two blocks that need a charge each: the first stores the variable, then both load
it. -/
def updateSensor : FunctionInput :=
  { cfg := ⟨[0, 1], [(0, 1)], fun _ => 60⟩
    state := sensorState [0] [0, 1]
    functionPaths := [[.real 0, .real 1]] }

/-- The function with its solution: the variable is in VM in both blocks, and the checkpoint between
them saves and restores it. -/
def updateSensorFunction : InstrumentedFunction Unit fun _ => 2 where
  input := updateSensor
  entry := 0
  allocas := []
  accesses bb :=
    if bb = 0 then [sensorStore 0, sensorLoad 0] else if bb = 1 then [sensorLoad 1] else []
  allocas_local := by simp
  counted bb a ha _ := by
    by_cases h0 : bb = 0
    · subst h0
      simp [updateSensor, sensorState]
    · by_cases h1 : bb = 1
      · subst h1
        simp [updateSensor, sensorState]
      · simp [h0, h1] at ha
  sizes _ _ := rfl
  solution := solutionOf (solveFunction updateSensor sensorParams (fun _ => none) {})
  solved :=
    have ⟨ctx, A, hA⟩ := exists_solutionOf (x := solveFunction updateSensor sensorParams
      (fun _ => none) {}) (by decide +kernel)
    ⟨sensorParams, fun _ => none, {}, ctx, A, by simp, hA⟩

/-- The run of the function with a power loss at the checkpoint. -/
def updateSensorRun (junk : Memory Value) : ProgramRun fun _ => updateSensorFunction where
  function := 0
  moves := [.edge 1 [(⟨[sensorVar], [sensorVar]⟩, some junk)]]
  state := ()
  mem := fun _ _ => 1
  legal := by
    have hcheckpoint : updateSensorFunction.solution.edgeCheckpoints updateSensor.cfg (0, 1) =
        [⟨[sensorVar], [sensorVar]⟩] := by decide +kernel
    refine ⟨⟨List.mem_singleton.mpr rfl, by simp [updateSensorFunction, updateSensor], ?_⟩, trivial⟩
    change updateSensorFunction.Crossing (0, 1) [⟨[sensorVar], [sensorVar]⟩]
    rw [← hcheckpoint]
    exact .plain (by decide +kernel)
  inside := ⟨le_refl 2, le_refl 2, trivial, trivial, trivial, le_refl 2, trivial⟩

end Bao.Schematic
