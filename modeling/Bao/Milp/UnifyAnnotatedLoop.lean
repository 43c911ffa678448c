import Bao.Graph.Dominance
import Bao.Machine.Effects

/-!
# Unification of split loops

LLVM sometimes splits a loop with two back edges into two nested loops. `UnifyAnnotatedLoopPass`
finds such pairs by their common loop metadata and sends both back edges to the outer header again,
through one new latch (`unifyPair`).

The inner back edge went to the inner header. Now it goes through the outer header, whose PHIs keep
their values, and whose other instructions are executed once more. They are safe to execute
speculatively, so they have no side effects, but they may load from memory, and the inner loop may
have stored there since.

Functions are modelled in SSA form: PHIs, instructions that are what they do to their operands and
the memory, and terminators.
-/

namespace Bao.Milp.Unify

open Bao.Graph Machine Relation

/-- A basic block. -/
abbrev Label := ℕ

/-- An SSA value. -/
abbrev Var := ℕ

/-- An instruction that is neither a PHI nor a terminator: its operands, its result and what it does
to the memory, with its side effects. -/
structure Instruction (V M ε : Type*) where
  dst : Var
  args : List Var
  run : List V → M → V × M × List ε
  isSafeToSpeculativelyExecute : Bool
  mayReadFromMemory : Bool
  /-- An instruction that is safe to execute speculatively stores nothing and has no side effects;
  it may be a load. -/
  safe_run : isSafeToSpeculativelyExecute = true → ∀ vals m, (run vals m).2 = (m, [])
  pure_run : isSafeToSpeculativelyExecute = true → mayReadFromMemory = false →
    ∀ vals m m', (run vals m).1 = (run vals m').1

/-- A PHI with its incoming values. -/
structure PHINode where
  dst : Var
  incoming : List (Label × Var)

/-- A terminator: an unconditional branch, a branch or switch, or a return. -/
inductive Terminator (V υ : Type*)
  | br (dst : Label)
  | switch (args : List Var) (choose : List V → ℕ) (first : Label) (rest : List Label)
  | ret (args : List Var) (value : List V → υ)

namespace Terminator

variable {V υ : Type*}

/-- The successors. -/
def successors : Terminator V υ → List Label
  | br dst => [dst]
  | switch _ _ first rest => first :: rest
  | ret _ _ => []

/-- Where control goes, or what is returned. -/
def next (regs : Var → V) : Terminator V υ → Label ⊕ υ
  | br dst => .inl dst
  | switch args choose first rest => .inl ((first :: rest).getD (choose (args.map regs)) first)
  | ret args value => .inr (value (args.map regs))

/-- `replaceSuccessorWith`. -/
def replaceSuccessorWith (old new : Label) : Terminator V υ → Terminator V υ
  | br dst => br (if dst = old then new else dst)
  | switch args choose first rest =>
    switch args choose (if first = old then new else first)
      (rest.map fun c => if c = old then new else c)
  | ret args value => ret args value

/-- The operands. -/
def args : Terminator V υ → List Var
  | br _ => []
  | switch args _ _ _ => args
  | ret args _ => args

theorem next_replaceSuccessorWith (t : Terminator V υ) (old new : Label) (regs : Var → V) :
    (t.replaceSuccessorWith old new).next regs =
      (t.next regs).map (fun c => if c = old then new else c) id := by
  cases t with
  | br dst => rfl
  | switch args choose first rest =>
    simp only [replaceSuccessorWith, next, Sum.map_inl]
    rw [← List.map_cons (f := fun c => if c = old then new else c), List.getD_map]
  | ret args value => rfl

theorem successors_replaceSuccessorWith (t : Terminator V υ) (old new : Label) :
    (t.replaceSuccessorWith old new).successors =
      t.successors.map fun c => if c = old then new else c := by
  cases t <;> rfl

theorem args_replaceSuccessorWith (t : Terminator V υ) (old new : Label) :
    (t.replaceSuccessorWith old new).args = t.args := by
  cases t <;> rfl

theorem next_congr {t : Terminator V υ} {regs regs' : Var → V}
    (h : ∀ x ∈ t.args, regs x = regs' x) : t.next regs = t.next regs' := by
  cases t with
  | br dst => rfl
  | switch args choose first rest =>
    have hargs : args.map regs = args.map regs' := List.map_congr_left h
    rw [next, next, hargs]
  | ret args value =>
    have hargs : args.map regs = args.map regs' := List.map_congr_left h
    rw [next, next, hargs]

theorem mem_successors_of_next {t : Terminator V υ} {regs : Var → V} {c : Label}
    (h : t.next regs = .inl c) : c ∈ t.successors := by
  cases t with
  | br dst => simpa [next, successors, eq_comm] using h
  | switch args choose first rest =>
    simp only [next, Sum.inl.injEq] at h
    rw [← h, successors]
    by_cases hlt : choose (args.map regs) < (first :: rest).length
    · rw [List.getD_eq_getElem _ _ hlt]
      exact List.getElem_mem hlt
    · rw [List.getD_eq_default _ _ (by omega)]
      exact List.mem_cons_self ..
  | ret args value => simp [next] at h

end Terminator

/-- A block; `loopID` is the loop metadata of its terminator. -/
structure BasicBlock (V M ε υ : Type*) where
  phis : List PHINode
  insts : List (Instruction V M ε)
  term : Terminator V υ
  loopID : Option ℕ

/-- A function. All values are below `numVars`. -/
structure Function (V M ε υ : Type*) where
  entry : Label
  blocks : Finset Label
  block : Label → BasicBlock V M ε υ
  numVars : ℕ
  entry_mem : entry ∈ blocks
  succ_mem : ∀ b ∈ blocks, ∀ c ∈ (block b).term.successors, c ∈ blocks ∧ c ≠ entry

/-! ### Execution -/

section Execution

variable {V M ε υ : Type*}

/-- The instructions of a block, one after the other. -/
def runInstructions : List (Instruction V M ε) → (Var → V) → M → (Var → V) × M × List ε
  | [], regs, m => (regs, m, [])
  | I :: rest, regs, m =>
    let r := I.run (I.args.map regs) m
    let s := runInstructions rest (Function.update regs I.dst r.1) r.2.1
    (s.1, s.2.1, r.2.2 ++ s.2.2)

/-- A configuration: at the top of a block, after its PHIs, or returned. -/
inductive Config (V M υ : Type*)
  | block (b : Label) (regs : Var → V) (m : M)
  | returned (v : υ)

namespace Function

variable (F : Function V M ε υ)

/-- The PHIs of a block for control that comes from another one. -/
def enter (p c : Label) (regs : Var → V) : Var → V := fun x =>
  match ((F.block c).phis.find? fun φ => φ.dst = x).bind fun φ => φ.incoming.lookup p with
  | some y => regs y
  | none => regs x

/-- Execution of one block. -/
def step : Config V M υ → Config V M υ
  | .block b regs m =>
    let s := runInstructions (F.block b).insts regs m
    match (F.block b).term.next s.1 with
    | .inl c => .block c (F.enter b c s.1) s.2.1
    | .inr v => .returned v
  | .returned v => .returned v

/-- A function as a program. -/
def program : EffectProgram (Config V M υ) ε υ where
  step := F.step
  effects
    | .block b regs m => (runInstructions (F.block b).insts regs m).2.2
    | .returned _ => []
  result
    | .block _ _ _ => none
    | .returned v => some v
  step_of_result {c v} h := by
    cases c with
    | block b regs m => cases h
    | returned v => rfl
  effects_of_result {c v} h := by
    cases c with
    | block b regs m => cases h
    | returned v => rfl

@[simp] theorem program_step (c : Config V M υ) : F.program.step c = F.step c := rfl

/-! ### Loops -/

/-- An edge of the control-flow graph. -/
def Succ (b c : Label) : Prop := b ∈ F.blocks ∧ c ∈ (F.block b).term.successors

/-- The blocks of the natural loop with header `h`: they reach a latch without the header. -/
def InLoop (h b : Label) : Prop :=
  b = h ∨ b ≠ h ∧ ReflTransGen F.Succ F.entry b ∧
    ∃ l, IsBackEdge F.Succ F.entry l h ∧ ReflTransGen (AvoidStep F.Succ h) b l

/-- `getLoopLatch`: the loop has one back edge, and it is from `l`. -/
def IsLoopLatch (l h : Label) : Prop :=
  IsBackEdge F.Succ F.entry l h ∧ (F.block l).term.successors.count h = 1 ∧
    ∀ l', IsBackEdge F.Succ F.entry l' h → l' = l

/-- `getLoopPreheader`: the only predecessor outside the loop, without other successors. -/
def IsLoopPreheader (p h : Label) : Prop :=
  p ∈ F.blocks ∧ (F.block p).term.successors = [h] ∧ ¬F.InLoop h p ∧
    ∀ p', F.Succ p' h → ¬F.InLoop h p' → p' = p

/-- `getSubLoops`: the outer loop is the innermost one around the inner loop. -/
def IsSubLoop (o i : Label) : Prop :=
  i ≠ o ∧ F.InLoop o i ∧
    ∀ h, IsHeader F.Succ F.entry h → h ≠ i → F.InLoop h i → F.InLoop h o

/-- **`findSplitInnerLoop`** on the loop with header `o` returns the loop with header `i`. -/
structure FindSplitInnerLoop (o ol i il : Label) : Prop where
  loopID : ∃ id, (F.block ol).loopID = some id ∧ (F.block il).loopID = some id
  preheader : ∃ p, F.IsLoopPreheader p o
  outerLatch : F.IsLoopLatch ol o
  headerBranch : (F.block o).term = .br i
  safe : ∀ I ∈ (F.block o).insts, I.isSafeToSpeculativelyExecute = true
  no_phis : (F.block i).phis = []
  subLoop : F.IsSubLoop o i
  innerLatch : F.IsLoopLatch il i
  pred_inner : ∀ p, F.Succ p i → p = o ∨ p = il

end Function

/-! ### The pass -/

/-- `replaceSuccessorWith` on the terminator of a block. -/
def replaceSuccessor (B : Label → BasicBlock V M ε υ) (b old new : Label) :
    Label → BasicBlock V M ε υ :=
  Function.update B b { B b with term := (B b).term.replaceSuccessorWith old new }

/-- `PN.addIncoming(&PN, pred)` for the PHIs of a block: they keep their values. -/
def addIncoming (B : Label → BasicBlock V M ε υ) (b pred : Label) : Label → BasicBlock V M ε υ :=
  Function.update B b { B b with
    phis := (B b).phis.map fun φ => ⟨φ.dst, φ.incoming ++ [(pred, φ.dst)]⟩ }

/-- `SplitBlockPredecessors`: a new block takes the edges from some predecessors, with a PHI for
each one of the block. -/
def splitBlockPredecessors (B : Label → BasicBlock V M ε υ) (numVars : ℕ) (bb : Label)
    (preds : List Label) (new : Label) : Label → BasicBlock V M ε υ := fun b =>
  if b = new then
    { phis := (B bb).phis.map fun φ =>
        ⟨numVars + φ.dst, φ.incoming.filter fun e => e.1 ∈ preds⟩
      insts := []
      term := .br bb
      loopID := none }
  else
    { B b with
      phis := if b = bb then (B b).phis.map fun φ =>
          ⟨φ.dst, (φ.incoming.filter fun e => e.1 ∉ preds) ++ [(new, numVars + φ.dst)]⟩
        else (B b).phis
      term := if b ∈ preds then (B b).term.replaceSuccessorWith bb new else (B b).term }

/-- `setMetadata(MD_loop, ...)` on the terminator of a block. -/
def setLoopID (B : Label → BasicBlock V M ε υ) (b : Label) (id : Option ℕ) :
    Label → BasicBlock V M ε υ :=
  Function.update B b { B b with loopID := id }

section Blocks

variable (B : Label → BasicBlock V M ε υ) (b c old new pred : Label) (id : Option ℕ)

@[simp] theorem replaceSuccessor_phis : (replaceSuccessor B b old new c).phis = (B c).phis := by
  rcases eq_or_ne c b with rfl | h <;> simp [replaceSuccessor, *]

@[simp] theorem replaceSuccessor_insts : (replaceSuccessor B b old new c).insts = (B c).insts := by
  rcases eq_or_ne c b with rfl | h <;> simp [replaceSuccessor, *]

theorem replaceSuccessor_term : (replaceSuccessor B b old new c).term =
    if c = b then (B c).term.replaceSuccessorWith old new else (B c).term := by
  rcases eq_or_ne c b with rfl | h <;> simp [replaceSuccessor, *]

theorem addIncoming_phis : (addIncoming B b pred c).phis =
    if c = b then (B c).phis.map fun φ => ⟨φ.dst, φ.incoming ++ [(pred, φ.dst)]⟩
    else (B c).phis := by
  rcases eq_or_ne c b with rfl | h <;> simp [addIncoming, *]

@[simp] theorem addIncoming_insts : (addIncoming B b pred c).insts = (B c).insts := by
  rcases eq_or_ne c b with rfl | h <;> simp [addIncoming, *]

@[simp] theorem addIncoming_term : (addIncoming B b pred c).term = (B c).term := by
  rcases eq_or_ne c b with rfl | h <;> simp [addIncoming, *]

@[simp] theorem setLoopID_phis : (setLoopID B b id c).phis = (B c).phis := by
  rcases eq_or_ne c b with rfl | h <;> simp [setLoopID, *]

@[simp] theorem setLoopID_insts : (setLoopID B b id c).insts = (B c).insts := by
  rcases eq_or_ne c b with rfl | h <;> simp [setLoopID, *]

@[simp] theorem setLoopID_term : (setLoopID B b id c).term = (B c).term := by
  rcases eq_or_ne c b with rfl | h <;> simp [setLoopID, *]

end Blocks

namespace Function

variable (F : Function V M ε υ)

/-- A block that is not there yet. -/
def freshBlock : Label := F.blocks.sup id + 1

theorem freshBlock_notMem : F.freshBlock ∉ F.blocks := by
  intro h
  have hle : F.blocks.sup id + 1 ≤ F.blocks.sup id := Finset.le_sup (f := id) h
  exact Nat.not_succ_le_self _ hle

/-- The blocks after `unifyPair`. -/
def unifiedBlocks (o ol i il : Label) : Label → BasicBlock V M ε υ :=
  let B := replaceSuccessor F.block il i o
  let B := addIncoming B o il
  let B := splitBlockPredecessors B F.numVars o [ol, il] F.freshBlock
  let B := setLoopID B ol none
  let B := setLoopID B il none
  setLoopID B F.freshBlock (F.block ol).loopID

variable {F} {o ol i il b : Label}

/-! The new latch -/

theorem unifiedBlocks_latch_phis : (F.unifiedBlocks o ol i il F.freshBlock).phis =
    (F.block o).phis.map fun φ => ⟨F.numVars + φ.dst,
      (φ.incoming ++ [(il, φ.dst)]).filter fun e => e.1 ∈ [ol, il]⟩ := by
  simp [unifiedBlocks, splitBlockPredecessors, addIncoming_phis, Function.comp_def]

@[simp] theorem unifiedBlocks_latch_insts :
    (F.unifiedBlocks o ol i il F.freshBlock).insts = [] := by
  simp [unifiedBlocks, splitBlockPredecessors]

@[simp] theorem unifiedBlocks_latch_term :
    (F.unifiedBlocks o ol i il F.freshBlock).term = .br o := by
  simp [unifiedBlocks, splitBlockPredecessors]

/-! The other blocks -/

theorem unifiedBlocks_phis (hb : b ≠ F.freshBlock) : (F.unifiedBlocks o ol i il b).phis =
    if b = o then (F.block b).phis.map fun φ => ⟨φ.dst,
      ((φ.incoming ++ [(il, φ.dst)]).filter fun e => e.1 ∉ [ol, il]) ++
        [(F.freshBlock, F.numVars + φ.dst)]⟩
    else (F.block b).phis := by
  rcases eq_or_ne b o with rfl | h <;>
    simp [unifiedBlocks, splitBlockPredecessors, addIncoming_phis, Function.comp_def, *]

theorem unifiedBlocks_insts (hb : b ≠ F.freshBlock) :
    (F.unifiedBlocks o ol i il b).insts = (F.block b).insts := by
  simp [unifiedBlocks, splitBlockPredecessors, hb]

theorem unifiedBlocks_term (hb : b ≠ F.freshBlock) : (F.unifiedBlocks o ol i il b).term =
    if b = il then ((F.block b).term.replaceSuccessorWith i o).replaceSuccessorWith o F.freshBlock
    else if b = ol then (F.block b).term.replaceSuccessorWith o F.freshBlock
    else (F.block b).term := by
  simp only [unifiedBlocks, setLoopID_term, splitBlockPredecessors, if_neg hb, addIncoming_term,
    replaceSuccessor_term, List.mem_cons, List.not_mem_nil, or_false]
  by_cases hil : b = il
  · rw [if_pos (.inr hil), if_pos hil, if_pos hil]
  · by_cases hol : b = ol
    · rw [if_pos (.inl hol), if_neg hil, if_neg hil, if_pos hol]
    · rw [if_neg (not_or.mpr ⟨hol, hil⟩), if_neg hil, if_neg hil, if_neg hol]

/-- Where an edge leads to afterwards. -/
def redirect (F : Function V M ε υ) (o ol i il b c : Label) : Label :=
  if b = il ∧ c = i ∨ (b = ol ∨ b = il) ∧ c = o then F.freshBlock else c

theorem redirect_eq (c : Label) : F.redirect o ol i il b c =
    if b = il then
      if (if c = i then o else c) = o then F.freshBlock else if c = i then o else c
    else if b = ol then if c = o then F.freshBlock else c else c := by
  unfold redirect
  grind

theorem unifiedBlocks_next (hb : b ≠ F.freshBlock) (regs : Var → V) :
    (F.unifiedBlocks o ol i il b).term.next regs =
      ((F.block b).term.next regs).map (F.redirect o ol i il b) id := by
  have hredirect : F.redirect o ol i il b = _ := funext redirect_eq
  rw [unifiedBlocks_term hb, hredirect]
  split_ifs with hil hol
  · simp only [Terminator.next_replaceSuccessorWith, Sum.map_map]
    rfl
  · rw [Terminator.next_replaceSuccessorWith]
  · exact (Sum.map_id_id ▸ rfl)

theorem unifiedBlocks_successors (hb : b ≠ F.freshBlock) :
    (F.unifiedBlocks o ol i il b).term.successors =
      (F.block b).term.successors.map (F.redirect o ol i il b) := by
  have hredirect : F.redirect o ol i il b = _ := funext redirect_eq
  rw [unifiedBlocks_term hb, hredirect]
  split_ifs with hil hol
  · simp only [Terminator.successors_replaceSuccessorWith, List.map_map]
    rfl
  · rw [Terminator.successors_replaceSuccessorWith]
  · exact (List.map_id _).symm

theorem unifiedBlocks_args (hb : b ≠ F.freshBlock) :
    (F.unifiedBlocks o ol i il b).term.args = (F.block b).term.args := by
  rw [unifiedBlocks_term hb]
  split_ifs <;> simp only [Terminator.args_replaceSuccessorWith]

theorem redirect_of_ne {c : Label} (hil : ¬(b = il ∧ c = i)) (hol : ¬((b = ol ∨ b = il) ∧ c = o)) :
    F.redirect o ol i il b c = c :=
  if_neg (not_or.mpr ⟨hil, hol⟩)

theorem redirect_latch {c : Label} (h : b = il ∧ c = i ∨ (b = ol ∨ b = il) ∧ c = o) :
    F.redirect o ol i il b c = F.freshBlock :=
  if_pos h

end Function

/-! ### Accepted pairs -/

/-- A pair of loops that `findSplitInnerLoop` returns. -/
structure LoopPair (F : Function V M ε υ) where
  outer : Label
  outerLatch : Label
  inner : Label
  innerLatch : Label
  found : F.FindSplitInnerLoop outer outerLatch inner innerLatch

namespace LoopPair

variable {F : Function V M ε υ} (P : LoopPair F)

theorem outerLatch_mem : P.outerLatch ∈ F.blocks := P.found.outerLatch.1.succ.1

theorem innerLatch_mem : P.innerLatch ∈ F.blocks := P.found.innerLatch.1.succ.1

theorem outer_mem : P.outer ∈ F.blocks :=
  (F.succ_mem _ P.outerLatch_mem _ P.found.outerLatch.1.succ.2).1

theorem outer_ne_entry : P.outer ≠ F.entry :=
  (F.succ_mem _ P.outerLatch_mem _ P.found.outerLatch.1.succ.2).2

theorem inner_mem : P.inner ∈ F.blocks :=
  (F.succ_mem _ P.innerLatch_mem _ P.found.innerLatch.1.succ.2).1

theorem inner_ne_entry : P.inner ≠ F.entry :=
  (F.succ_mem _ P.innerLatch_mem _ P.found.innerLatch.1.succ.2).2

theorem outer_ne_inner : P.outer ≠ P.inner := P.found.subLoop.1.symm

/-- The outer header goes to the inner one only. -/
theorem succ_outer {c : Label} : F.Succ P.outer c ↔ c = P.inner := by
  rw [Function.Succ, P.found.headerBranch, Terminator.successors, List.mem_singleton]
  exact ⟨fun h => h.2, fun h => ⟨P.outer_mem, h⟩⟩

theorem ne_freshBlock {b : Label} (hb : b ∈ F.blocks) : b ≠ F.freshBlock :=
  fun h => F.freshBlock_notMem (h ▸ hb)

end LoopPair

/-- **`unifyPair`**. -/
def Function.unifyPair (F : Function V M ε υ) (P : LoopPair F) : Function V M ε υ where
  entry := F.entry
  blocks := insert F.freshBlock F.blocks
  block := F.unifiedBlocks P.outer P.outerLatch P.inner P.innerLatch
  numVars := 2 * F.numVars
  entry_mem := Finset.mem_insert_of_mem F.entry_mem
  succ_mem b hb c hc := by
    rcases Finset.mem_insert.mp hb with rfl | hb
    · rw [Function.unifiedBlocks_latch_term, Terminator.successors, List.mem_singleton] at hc
      exact hc ▸ ⟨Finset.mem_insert_of_mem P.outer_mem, P.outer_ne_entry⟩
    · rw [Function.unifiedBlocks_successors (LoopPair.ne_freshBlock hb), List.mem_map] at hc
      obtain ⟨c, hc, rfl⟩ := hc
      rw [Function.redirect]
      split_ifs
      · exact ⟨Finset.mem_insert_self _ _, (LoopPair.ne_freshBlock F.entry_mem).symm⟩
      · exact ⟨Finset.mem_insert_of_mem (F.succ_mem b hb c hc).1, (F.succ_mem b hb c hc).2⟩

namespace LoopPair

variable {F : Function V M ε υ} (P : LoopPair F)

/-- The edges afterwards. -/
theorem succ_unifyPair (b c : Label) : (F.unifyPair P).Succ b c ↔
    F.Succ b c ∧ ¬(b = P.innerLatch ∧ c = P.inner) ∧
        ¬((b = P.outerLatch ∨ b = P.innerLatch) ∧ c = P.outer) ∨
      (b = P.outerLatch ∨ b = P.innerLatch) ∧ c = F.freshBlock ∨
      b = F.freshBlock ∧ c = P.outer := by
  by_cases hb : b = F.freshBlock
  · subst hb
    have hnone : ¬F.Succ F.freshBlock c := fun h => F.freshBlock_notMem h.1
    have hol : F.freshBlock ≠ P.outerLatch := (ne_freshBlock P.outerLatch_mem).symm
    have hil : F.freshBlock ≠ P.innerLatch := (ne_freshBlock P.innerLatch_mem).symm
    simp [Function.Succ, Function.unifyPair, Terminator.successors, hol, hil,
      F.freshBlock_notMem]
  · simp only [Function.Succ, Function.unifyPair, Function.unifiedBlocks_successors hb,
      List.mem_map, Finset.mem_insert, hb, false_or, false_and, or_false]
    constructor
    · rintro ⟨hmem, c, hc, rfl⟩
      rw [Function.redirect]
      split_ifs with h
      · exact .inr ⟨by tauto, rfl⟩
      · exact .inl ⟨⟨hmem, hc⟩, not_or.mp h⟩
    · rintro (⟨⟨hmem, hc⟩, hinner, houter⟩ | ⟨rfl | rfl, rfl⟩)
      · exact ⟨hmem, c, hc, Function.redirect_of_ne hinner houter⟩
      · exact ⟨P.outerLatch_mem, P.outer, P.found.outerLatch.1.succ.2,
          Function.redirect_latch (.inr ⟨.inl rfl, rfl⟩)⟩
      · exact ⟨P.innerLatch_mem, P.inner, P.found.innerLatch.1.succ.2,
          Function.redirect_latch (.inl ⟨rfl, rfl⟩)⟩

/-- The pass redirects the back edges of both loops to the new latch. -/
theorem redirects : Redirects F.Succ (F.unifyPair P).Succ F.entry P.outer P.outerLatch P.inner
    P.innerLatch F.freshBlock where
  outer := P.found.outerLatch.1
  inner := P.found.innerLatch.1
  enter := P.succ_outer.mpr rfl
  ne := P.outer_ne_inner
  i_ne_entry := P.inner_ne_entry
  pred_inner := P.found.pred_inner
  fresh x := ⟨fun h => F.freshBlock_notMem (F.succ_mem x h.1 _ h.2).1,
    fun h => F.freshBlock_notMem h.1⟩
  latch_ne_entry := (ne_freshBlock F.entry_mem).symm
  step_iff := P.succ_unifyPair

theorem innerLatch_ne : P.innerLatch ≠ P.outer := by
  intro h
  have hdom : Dominates F.Succ F.entry P.inner P.outer := h ▸ P.found.innerLatch.1.dominates
  exact P.outer_ne_inner (P.redirects.dominates_inner.antisymm hdom
    (P.redirects.reachable_outer.tail P.redirects.enter))

end LoopPair

/-! ### Termination -/

namespace Function

/-- The headers of the loops. -/
def headers (F : Function V M ε υ) : Set Label := {h | IsHeader F.Succ F.entry h}

theorem finite_headers (F : Function V M ε υ) : F.headers.Finite := by
  refine F.blocks.finite_toSet.subset ?_
  rintro h ⟨l, hback⟩
  exact (F.succ_mem l hback.succ.1 h hback.succ.2).1

/-- A unification leaves fewer headers. -/
theorem headers_unifyPair_ssubset (F : Function V M ε υ) (P : LoopPair F) :
    (F.unifyPair P).headers ⊂ F.headers :=
  LE.le.ssubset_of_mem_notMem (fun _ hh => (P.redirects.isHeader hh).1)
    (show P.inner ∈ F.headers from ⟨P.innerLatch, P.found.innerLatch.1⟩)
    fun hh => (P.redirects.isHeader hh).2 rfl

/-- One round of `UnifyAnnotatedLoopPass::run`; `find` selects one of the accepted pairs. -/
def unifyOnce (find : ∀ F : Function V M ε υ, Option (LoopPair F)) (F : Function V M ε υ) :
    Function V M ε υ :=
  match find F with
  | some P => F.unifyPair P
  | none => F

/-- **The pass terminates**, after at most one round for each loop. -/
theorem exists_unifyOnce_eq_none (find : ∀ F : Function V M ε υ, Option (LoopPair F))
    (F : Function V M ε υ) : ∃ n ≤ F.headers.ncard, find ((unifyOnce find)^[n] F) = none := by
  induction hcard : F.headers.ncard using Nat.strong_induction_on generalizing F with
  | _ k ih =>
    cases hfind : find F with
    | none => exact ⟨0, Nat.zero_le k, hfind⟩
    | some P =>
      have honce : unifyOnce find F = F.unifyPair P := by rw [unifyOnce, hfind]
      have hlt : (F.unifyPair P).headers.ncard < k :=
        hcard ▸ Set.ncard_lt_ncard (F.headers_unifyPair_ssubset P) F.finite_headers
      obtain ⟨n, hn, hnone⟩ := ih _ hlt _ rfl
      refine ⟨n + 1, by omega, ?_⟩
      rwa [Function.iterate_succ_apply, honce]

end Function

end Execution

end Bao.Milp.Unify
