import Bao.RockClimb.Optimizer

/-!
# Energy across calls

Each function of a program is partitioned alone. A call runs into the entry boundary of the callee,
and a return goes on from the last boundary of the callee, the one at the start of its return block,
with the rest of the caller's block. So the stretch up to the caller's next boundary has a part of
the callee and a part of the caller.

Runs in which the callee's part never exceeds what the caller has spent since its own last boundary
are safe (`energy_safe_of_paid_returns`): the stretch is then no longer than the caller's path
through its region. A callee that spends more takes the stretch over the limit
(`return_block_and_caller_exceed`).
-/

namespace Bao.RockClimb

open RockClimbMachineOptimizer

namespace RockClimbMachineOptimizer

variable {O : RockClimbMachineOptimizer} {entryMBB : MachineBasicBlock}

/-- A boundary remains one. -/
private theorem subset_of_foldlM {todo : List MachineBasicBlock} {P P' : Partition}
    (h : todo.foldlM (O.visitBlock entryMBB) P = .ok P') :
    ∀ b ∈ P.boundarySet, b ∈ P'.boundarySet := by
  induction todo generalizing P with
  | nil =>
    cases h
    exact fun b hb => hb
  | cons b todo ih =>
    rw [List.foldlM_cons] at h
    cases hvisit : O.visitBlock entryMBB P b with
    | error d => simp [hvisit, bind, Except.bind] at h
    | ok P₁ =>
      rw [hvisit] at h
      obtain ⟨-, hset, -⟩ := visitBlock_ok hvisit
      intro c hc
      exact ih h c (hset ▸ mem_boundariesWith.mpr (.inl hc))

/-- **The entry of a callee is a boundary.** -/
theorem entry_mem_regionBoundaries (h : O.partitionRegions.feasible = true)
    (hname : O.MF.name ≠ "main")
    (hentry : O.MF.blocks.head? = some entryMBB) :
    entryMBB ∈ O.partitionRegions.regionBoundaries := by
  have hhead : O.MF.topoOrder.head? = some entryMBB := MachineCFG.head?_topoOrder.trans hentry
  rw [partitionRegions] at h ⊢
  cases htopo : O.MF.topoOrder with
  | nil => simp [htopo] at hhead
  | cons entry rest =>
    obtain rfl : entry = entryMBB := by simpa [htopo] using hhead
    rw [htopo] at h
    simp only at h ⊢
    cases hfold : (entry :: rest).foldlM (O.visitBlock entry) (O.initial entry) with
    | error d => simp [hfold] at h
    | ok P =>
      have hinitial : entry ∈ (O.initial entry).boundarySet := by
        rw [initial, if_pos hname]
        exact List.mem_singleton.mpr rfl
      exact List.mem_filter.mpr ⟨List.mem_cons_self, by
        simpa using subset_of_foldlM hfold entry hinitial⟩

end RockClimbMachineOptimizer

/-! ### Programs -/

/-- A machine function, by its number. -/
abbrev MachineFunction := Nat

/-- What a block does: it spends energy, or calls a function of the program. -/
inductive Item
  | energy (e : ℚ)
  | call (callee : MachineFunction)

/-- The energy that some items spend themselves. -/
def itemsCost (items : List Item) : ℚ :=
  (items.map fun item => match item with
    | .energy e => e
    | .call _ => 0).sum

/-- A program: its functions with their partitions, and what their blocks do between calls. The
energy of a block is that of all its parts. -/
structure Program where
  function : MachineFunction → RockClimbMachineOptimizer
  body : MachineFunction → MachineBasicBlock → List Item
  E_safe : ℚ
  main : MachineFunction
  safe_eq : ∀ f, (function f).E_safe = E_safe
  energy_eq : ∀ f b, (function f).energyCosts b = itemsCost (body f b)
  energy_nonneg : ∀ f b e, .energy e ∈ body f b → 0 ≤ e
  entry_noPredecessors : ∀ f, (function f).MF.EntryHasNoPredecessors
  main_of_name : ∀ f, (function f).MF.name = "main" → f = main

/-- A function that is being executed: its block, what is left of the block, and what the function
has spent itself since its last own boundary. -/
structure Activation where
  function : MachineFunction
  block : MachineBasicBlock
  todo : List Item
  spent : ℚ

/-- The activations, the present one first, and the energy since the last boundary that was executed
anywhere. -/
structure ExecState where
  stack : List Activation
  since : ℚ

namespace Program

variable (P : Program)

/-- A function has a call of another one. -/
def Calls (f g : MachineFunction) : Prop :=
  ∃ b ∈ (P.function f).MF.blocks, .call g ∈ P.body f b

/-- The call graph has no cycle. -/
def Acyclic : Prop := ∀ f, ¬Relation.TransGen P.Calls f f

/-- Every function has a feasible partition. -/
def Feasible : Prop := ∀ f, (P.function f).partitionRegions.feasible = true

/-- A block is entered: a boundary is executed at its start, if it is one. -/
def enter (f : MachineFunction) (b : MachineBasicBlock) (spent since : ℚ)
    (stack : List Activation) :
    ExecState :=
  if b ∈ (P.function f).partitionRegions.regionBoundaries then ⟨⟨f, b, P.body f b, 0⟩ :: stack, 0⟩
  else ⟨⟨f, b, P.body f b, spent⟩ :: stack, since⟩

/-- **One step of an execution.** -/
inductive Step : ExecState → ExecState → Prop
  | spend {f : MachineFunction} {b : MachineBasicBlock} {e spent since : ℚ} {todo : List Item}
      {stack : List Activation} :
      Step ⟨⟨f, b, .energy e :: todo, spent⟩ :: stack, since⟩
        ⟨⟨f, b, todo, spent + e⟩ :: stack, since + e⟩
  | call {f g : MachineFunction} {b entry : MachineBasicBlock} {spent since : ℚ} {todo : List Item}
      {stack : List Activation} (hentry : (P.function g).MF.blocks.head? = some entry) :
      Step ⟨⟨f, b, .call g :: todo, spent⟩ :: stack, since⟩
        (P.enter g entry 0 since (⟨f, b, todo, spent⟩ :: stack))
  | edge {f : MachineFunction} {b c : MachineBasicBlock} {spent since : ℚ} {stack : List Activation}
      (hedge : (P.function f).MF.Edge b c) :
      Step ⟨⟨f, b, [], spent⟩ :: stack, since⟩ (P.enter f c spent since stack)
  | ret {f : MachineFunction} {b : MachineBasicBlock} {spent since : ℚ} {caller : Activation}
      {stack : List Activation} (hret : (P.function f).MF.isReturnBlock b = true) :
      Step ⟨⟨f, b, [], spent⟩ :: caller :: stack, since⟩ ⟨caller :: stack, since⟩

/-- An execution starts at the entry of the program-entry function. -/
def Start (s : ExecState) : Prop :=
  ∃ entry, (P.function P.main).MF.blocks.head? = some entry ∧ s = P.enter P.main entry 0 0 []

/-- **A return that is paid for**: if the present function returns next, it has spent no more since
its last boundary than its caller has since the caller's own. -/
def PaysReturn (s : ExecState) : Prop :=
  ∀ callee caller stack, s.stack = callee :: caller :: stack → callee.todo = [] →
    (P.function callee.function).MF.isReturnBlock callee.block = true → s.since ≤ caller.spent

/-- A step from a state in which returns are paid for. -/
def PaidStep (s t : ExecState) : Prop := P.PaysReturn s ∧ P.Step s t

/-! ### Executions -/

/-- An activation is within the accumulated energy of its block. -/
private structure Within (accum : MachineFunction → MachineBasicBlock → ℚ) (a : Activation) :
    Prop where
  reachable : (P.function a.function).MF.Reachable a.block
  called : Relation.ReflTransGen P.Calls P.main a.function
  todo_subset : ∀ item ∈ a.todo, item ∈ P.body a.function a.block
  le_accum : a.spent + itemsCost a.todo ≤ accum a.function a.block

/-- What holds in every state of a paid execution. -/
private def Bounded (accum : MachineFunction → MachineBasicBlock → ℚ) (s : ExecState) : Prop :=
  ∃ a stack, s.stack = a :: stack ∧ s.since ≤ a.spent ∧ ∀ a' ∈ a :: stack, P.Within accum a'

section Executions

variable {P} {accum : MachineFunction → MachineBasicBlock → ℚ}
  (haccum : ∀ f b, (P.function f).MF.Reachable b →
    accum f b < P.E_safe ∧ (P.function f).energyCosts b ≤ accum f b ∧
      ∀ c, (P.function f).MF.Edge b c → c ∉ (P.function f).partitionRegions.regionBoundaries →
        accum f b + (P.function f).energyCosts c ≤ accum f c)
include haccum

/-- **Entering a block** after a path that is within the limit. -/
private theorem bounded_enter {f : MachineFunction} {b : MachineBasicBlock} {spent since : ℚ}
    {stack : List Activation} (hreach : (P.function f).MF.Reachable b)
    (hcalled : Relation.ReflTransGen P.Calls P.main f) (hstack : ∀ a ∈ stack, P.Within accum a)
    (hpath : b ∉ (P.function f).partitionRegions.regionBoundaries →
      since ≤ spent ∧ spent + (P.function f).energyCosts b ≤ accum f b) :
    P.Bounded accum (P.enter f b spent since stack) := by
  rw [enter]
  split_ifs with hb
  · refine ⟨_, _, rfl, le_rfl, List.forall_mem_cons.mpr
      ⟨⟨hreach, hcalled, fun _ h => h, ?_⟩, hstack⟩⟩
    change 0 + itemsCost (P.body f b) ≤ accum f b
    rw [zero_add, ← P.energy_eq]
    exact (haccum f b hreach).2.1
  · obtain ⟨hsince, hspent⟩ := hpath hb
    refine ⟨_, _, rfl, hsince, List.forall_mem_cons.mpr
      ⟨⟨hreach, hcalled, fun _ h => h, ?_⟩, hstack⟩⟩
    change spent + itemsCost (P.body f b) ≤ accum f b
    rwa [← P.energy_eq]

/-- **One step** that is paid for. -/
private theorem Bounded.step (hacyclic : P.Acyclic) (hfeasible : P.Feasible) {s t : ExecState}
    (h : P.Bounded accum s) (hstep : P.PaidStep s t) : P.Bounded accum t := by
  obtain ⟨hpaid, hstep⟩ := hstep
  obtain ⟨a, stack, hs, hsince, hall⟩ := h
  cases hstep with
  | @spend f b e spent since todo _ =>
    obtain ⟨rfl, rfl⟩ := List.cons.inj hs
    obtain ⟨ha, hstack⟩ := List.forall_mem_cons.mp hall
    refine ⟨_, _, rfl, add_le_add_left hsince e, List.forall_mem_cons.mpr
      ⟨⟨ha.reachable, ha.called, fun item h => ha.todo_subset item (List.mem_cons_of_mem _ h), ?_⟩,
        hstack⟩⟩
    calc spent + e + itemsCost todo
        = spent + itemsCost (.energy e :: todo) := by simp [itemsCost, add_assoc]
      _ ≤ accum f b := ha.le_accum
  | @call f g b entry spent since todo _ hentry =>
    obtain ⟨rfl, rfl⟩ := List.cons.inj hs
    obtain ⟨ha, hstack⟩ := List.forall_mem_cons.mp hall
    have hcalls : P.Calls f g :=
      ⟨b, MachineCFG.mem_blocks_of_mem_rpo (MachineCFG.mem_rpo_iff.mpr ha.reachable),
        ha.todo_subset _ List.mem_cons_self⟩
    have hcalled : Relation.TransGen P.Calls P.main g := Relation.TransGen.tail' ha.called hcalls
    -- the callee is not the program-entry function, so its entry is a boundary
    have hname : (P.function g).MF.name ≠ "main" := fun hname =>
      hacyclic P.main (P.main_of_name g hname ▸ hcalled)
    have hle : spent + itemsCost (.call g :: todo) ≤ accum f b := ha.le_accum
    have hcost : itemsCost (.call g :: todo) = itemsCost todo := by simp [itemsCost]
    refine bounded_enter haccum ⟨entry, hentry, .refl⟩ hcalled.to_reflTransGen
      (List.forall_mem_cons.mpr ⟨⟨ha.reachable, ha.called, fun item h =>
        ha.todo_subset item (List.mem_cons_of_mem _ h), hcost ▸ hle⟩, hstack⟩) fun hnot => ?_
    exact absurd (entry_mem_regionBoundaries (hfeasible g) hname hentry) hnot
  | @edge f b c spent since _ hedge =>
    obtain ⟨rfl, rfl⟩ := List.cons.inj hs
    obtain ⟨ha, hstack⟩ := List.forall_mem_cons.mp hall
    refine bounded_enter haccum (ha.reachable.edge hedge) ha.called hstack fun hnot =>
      ⟨hsince, ?_⟩
    have hspent : spent ≤ accum f b := by simpa [itemsCost] using ha.le_accum
    calc spent + (P.function f).energyCosts c
        ≤ accum f b + (P.function f).energyCosts c := by gcongr
      _ ≤ accum f c := (haccum f b ha.reachable).2.2 c hedge hnot
  | @ret f b spent since caller _ hret =>
    obtain ⟨rfl, rfl⟩ := List.cons.inj hs
    exact ⟨caller, _, rfl, hpaid _ _ _ rfl rfl hret, (List.forall_mem_cons.mp hall).2⟩

end Executions

/-- **Energy safety across calls.** In every execution in which returns are paid for, the energy
since the last boundary that was executed stays below `E_safe`. -/
theorem energy_safe_of_paid_returns (hacyclic : P.Acyclic) (hfeasible : P.Feasible)
    {s t : ExecState}
    (hs : P.Start s) (hrun : Relation.ReflTransGen P.PaidStep s t) : t.since < P.E_safe := by
  choose accum haccum using fun f => exists_accum (hfeasible f) (P.entry_noPredecessors f)
  have haccum' : ∀ f b, (P.function f).MF.Reachable b →
      accum f b < P.E_safe ∧ (P.function f).energyCosts b ≤ accum f b ∧
        ∀ c, (P.function f).MF.Edge b c → c ∉ (P.function f).partitionRegions.regionBoundaries →
          accum f b + (P.function f).energyCosts c ≤ accum f c := by
    intro f b hb
    obtain ⟨hlt, hle, hstep⟩ := haccum f b hb
    exact ⟨P.safe_eq f ▸ hlt, hle, fun c hedge hc => (hstep c hedge hc).2⟩
  have hbounded : P.Bounded accum t := by
    induction hrun with
    | refl =>
      obtain ⟨entry, hentry, rfl⟩ := hs
      have hreach : (P.function P.main).MF.Reachable entry := ⟨entry, hentry, .refl⟩
      refine bounded_enter haccum' hreach .refl (by simp) fun _ => ⟨le_rfl, ?_⟩
      rw [zero_add]
      exact (haccum' P.main entry hreach).2.1
    | tail _ hstep ih => exact ih.step haccum' hacyclic hfeasible hstep
  obtain ⟨a, stack, -, hsince, hall⟩ := hbounded
  have ha := hall a List.mem_cons_self
  have hnonneg : 0 ≤ itemsCost a.todo := by
    refine List.sum_nonneg fun e he => ?_
    obtain ⟨item, hitem, rfl⟩ := List.mem_map.mp he
    cases item with
    | energy e => exact P.energy_nonneg _ _ e (ha.todo_subset _ hitem)
    | call g => exact le_rfl
  calc t.since ≤ a.spent := hsince
    _ ≤ a.spent + itemsCost a.todo := le_add_of_nonneg_right hnonneg
    _ ≤ accum a.function a.block := ha.le_accum
    _ < P.E_safe := (haccum' _ _ ha.reachable).1

end Program

/-! ### A call of a function of one block -/

/-- The program-entry function: a block with the call, and a return block. -/
def callingMain (cost : ℚ) : RockClimbMachineOptimizer where
  MF := {
    name := "main"
    blocks := [0, 1]
    successors := fun b => if b = 0 then [1] else []
    isReturnBlock := fun b => b = 1
    loopHeaders := []
    nodup := by decide
    successors_mem := by
      intro b hb c hc
      split_ifs at hc
      · simp [List.mem_singleton.mp hc]
      · cases hc }
  energyCosts := fun b => if b = 0 then cost else 0
  E_safe := 10

/-- A function of one block. -/
def leaf (cost : ℚ) : RockClimbMachineOptimizer where
  MF := {
    name := "leaf"
    blocks := [0]
    successors := fun _ => []
    isReturnBlock := fun _ => true
    loopHeaders := []
    nodup := by decide
    successors_mem := by simp }
  energyCosts := fun _ => cost
  E_safe := 10

/-- The program-entry function spends `before`, calls a function that spends `cost`, spends `after`
and goes on to its return block. -/
def leafCall (before after cost : ℕ) : Program where
  function f := if f = 0 then callingMain (before + after) else leaf cost
  body f b :=
    if f = 0 then if b = 0 then [.energy before, .call 1, .energy after] else []
    else [.energy cost]
  E_safe := 10
  main := 0
  safe_eq f := by split_ifs <;> rfl
  energy_eq f b := by split_ifs <;> simp [callingMain, leaf, itemsCost, *]
  energy_nonneg f b e he := by
    split_ifs at he
    · simp only [List.mem_cons, Item.energy.injEq, reduceCtorEq, List.not_mem_nil, or_false,
        false_or] at he
      rcases he with rfl | rfl <;> positivity
    · cases he
    · simp only [List.mem_singleton, Item.energy.injEq] at he
      exact he ▸ Nat.cast_nonneg cost
  entry_noPredecessors f := by
    intro entry hentry b _ hedge
    split_ifs at hentry hedge
    · obtain rfl : 0 = entry := by simpa [callingMain] using hentry
      simp only [MachineCFG.Edge, callingMain] at hedge
      split_ifs at hedge <;> simp at hedge
    · exact absurd hedge (by simp [MachineCFG.Edge, leaf])
  main_of_name f hname := by
    by_contra hf
    rw [if_neg hf] at hname
    simp [leaf] at hname

namespace leafCall

variable {before after cost : ℕ}

private theorem acyclic : (leafCall before after cost).Acyclic := by
  have hcalls : ∀ f g, (leafCall before after cost).Calls f g → f = 0 ∧ g = 1 := by
    rintro f g ⟨b, -, hcall⟩
    by_cases hf : f = 0
    · by_cases hb : b = 0
      · simpa [leafCall, hf, hb] using hcall
      · simp [leafCall, hf, hb] at hcall
    · simp [leafCall, hf] at hcall
  have htrans : ∀ f g, Relation.TransGen (leafCall before after cost).Calls f g →
      f = 0 ∧ g = 1 := by
    intro f g h
    induction h with
    | single h => exact hcalls _ _ h
    | tail _ hstep ih => exact absurd (ih.2.symm.trans (hcalls _ _ hstep).1) (by simp)
  intro f hcycle
  obtain ⟨rfl, hone⟩ := htrans f f hcycle
  exact absurd hone (by simp)

private theorem feasible
    (hmain : (callingMain (before + after)).partitionRegions.feasible = true)
    (hleaf : (leaf cost).partitionRegions.feasible = true) :
    (leafCall before after cost).Feasible := by
  intro f
  rw [leafCall]
  dsimp only
  split_ifs
  · exact hmain
  · exact hleaf

/-- The caller alone, in its first block. -/
def alone (todo : List Item) (spent since : ℚ) : ExecState := ⟨[⟨0, 0, todo, spent⟩], since⟩

/-- The callee, called by the caller. -/
def called (before after : ℕ) (todo : List Item) (spent since : ℚ) : ExecState :=
  ⟨[⟨1, 0, todo, spent⟩, ⟨0, 0, [.energy after], 0 + before⟩], since⟩

variable (before after cost) in
/-- The steps of the program up to the end of the caller's first block, of any kind that contains
them. -/
private theorem runs
    (hmain : 0 ∉ (callingMain (before + after)).partitionRegions.regionBoundaries)
    (hleaf : 0 ∈ (leaf cost).partitionRegions.regionBoundaries)
    {R : ExecState → ExecState → Prop}
    (halone : ∀ todo spent since t, (leafCall before after cost).Step (alone todo spent since) t →
      R (alone todo spent since) t)
    (hcallee : ∀ t, (leafCall before after cost).Step
      (called before after [.energy cost] 0 0) t → R (called before after [.energy cost] 0 0) t)
    (hreturn : ∀ t, (leafCall before after cost).Step
      (called before after [] (0 + cost) (0 + cost)) t →
        R (called before after [] (0 + cost) (0 + cost)) t) :
    ∃ s, (leafCall before after cost).Start s ∧
      Relation.ReflTransGen R s (alone [] (0 + before + after) (0 + cost + after)) := by
  have hstart : (leafCall before after cost).enter 0 0 0 0 [] =
      alone [.energy before, .call 1, .energy after] 0 0 := if_neg hmain
  have henter : (leafCall before after cost).enter 1 0 0 (0 + before)
      [⟨0, 0, [.energy after], 0 + before⟩] = called before after [.energy cost] 0 0 := if_pos hleaf
  have hcall : R (alone [.call 1, .energy after] (0 + before) (0 + before))
      (called before after [.energy cost] 0 0) := by
    refine halone _ _ _ _ ?_
    rw [← henter]
    exact .call rfl
  exact ⟨_, ⟨0, rfl, rfl⟩, hstart ▸ ((((Relation.ReflTransGen.single (halone _ _ _ _ .spend)).tail
    hcall).tail (hcallee _ .spend)).tail (hreturn _ (.ret rfl))).tail (halone _ _ _ _ .spend)⟩

end leafCall

open leafCall

/-- The caller spends 6 before the call, the callee 5, and the caller 3 after it: from the callee's
boundary on, 8 are spent. -/
theorem energy_safe_leafCall : ∃ s t, (leafCall 6 3 5).Start s ∧
    Relation.ReflTransGen (leafCall 6 3 5).PaidStep s t ∧ t.since = 8 ∧
      t.since < (leafCall 6 3 5).E_safe := by
  have hfeasible : (leafCall 6 3 5).Feasible := feasible (by decide +kernel) (by decide +kernel)
  have halone : ∀ todo spent since, (leafCall 6 3 5).PaysReturn (alone todo spent since) := by
    intro todo spent since callee caller stack hstack
    cases hstack
  have hcallee : (leafCall 6 3 5).PaysReturn (called 6 3 [.energy (5 : ℕ)] 0 0) := by
    intro callee caller stack hstack htodo
    cases hstack
    cases htodo
  have hreturn : (leafCall 6 3 5).PaysReturn (called 6 3 [] (0 + (5 : ℕ)) (0 + (5 : ℕ))) := by
    intro callee caller stack hstack _ _
    cases hstack
    norm_num [called]
  obtain ⟨s, hs, hrun⟩ := leafCall.runs 6 3 5 (R := (leafCall 6 3 5).PaidStep) (by decide +kernel)
    (by decide +kernel) (fun _ _ _ _ h => ⟨halone _ _ _, h⟩) (fun _ h => ⟨hcallee, h⟩) fun _ h =>
      ⟨hreturn, h⟩
  exact ⟨s, _, hs, hrun, by norm_num [alone],
    Program.energy_safe_of_paid_returns _ leafCall.acyclic hfeasible hs hrun⟩

/-- The caller calls at once a function whose only block spends 6, spends 6 more and goes on to its
return block. Either function fits a charge of 10; the 12 between the boundary of the callee and the
boundary of the caller's return block do not. -/
theorem return_block_and_caller_exceed : (leafCall 0 6 6).Acyclic ∧ (leafCall 0 6 6).Feasible ∧
    ∃ s t u, (leafCall 0 6 6).Start s ∧ Relation.ReflTransGen (leafCall 0 6 6).Step s t ∧
      (leafCall 0 6 6).E_safe ≤ t.since ∧ (leafCall 0 6 6).Step t u ∧
      1 ∈ ((leafCall 0 6 6).function 0).partitionRegions.regionBoundaries ∧
      u.stack.map (fun a => (a.function, a.block)) = [(0, 1)] ∧ u.since = 0 := by
  obtain ⟨s, hs, hrun⟩ := leafCall.runs 0 6 6 (R := (leafCall 0 6 6).Step) (by decide +kernel)
    (by decide +kernel) (fun _ _ _ _ h => h) (fun _ h => h) fun _ h => h
  have hboundary : 1 ∈ ((leafCall 0 6 6).function 0).partitionRegions.regionBoundaries := by
    decide +kernel
  refine ⟨leafCall.acyclic, feasible (by decide +kernel) (by decide +kernel), s, _, _, hs, hrun,
    by norm_num [alone, leafCall], .edge (c := 1) (List.mem_singleton.mpr rfl), hboundary, ?_⟩
  rw [Program.enter, if_pos hboundary]
  exact ⟨rfl, rfl⟩

end Bao.RockClimb
