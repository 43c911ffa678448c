import Bao.Milp.UnifyAnnotatedLoop

/-!
# Behaviour of unified loops

After a unification, an iteration of the inner loop goes through the outer header. The PHIs of the
header keep their values, and its instructions are executed again. Their operands are defined
outside of the inner loop, so an instruction that does not read from memory gives the same value as
before. One that reads from memory may give another one.

So a run of the function shows the same behaviour afterwards if every instruction of the outer
header that reads from memory reads the same again whenever the inner loop goes on
(`LoopPair.Harmless`, `unifyPair_same_behaviour`). Two loops that share their latch need more: the
new latch then has two values for each PHI.
-/

namespace Bao.Milp.Unify

open Bao.Graph Machine Relation

variable {V M ε υ : Type*}

/-! ### Instructions -/

section Instructions

variable {insts : List (Instruction V M ε)} {regs regs' : Var → V} {m : M}

/-- The instructions that do not read from memory would give the values they have. -/
def Holds (insts : List (Instruction V M ε)) (regs : Var → V) : Prop :=
  ∀ I ∈ insts, I.mayReadFromMemory = false → ∀ m, regs I.dst = (I.run (I.args.map regs) m).1

theorem runInstructions_of_notMem {x : Var} (hx : x ∉ insts.map Instruction.dst) :
    (runInstructions insts regs m).1 x = regs x := by
  induction insts generalizing regs m with
  | nil => rfl
  | cons I rest ih =>
    rw [List.map_cons, List.mem_cons, not_or] at hx
    rw [runInstructions]
    exact (ih hx.2).trans (Function.update_of_ne hx.1 _ _)

/-- Instructions that use the first `n` values only do the same for registers that agree on
these. -/
theorem runInstructions_congr {n : ℕ} (hlt : ∀ I ∈ insts, ∀ x ∈ I.args, x < n)
    (hagree : ∀ x < n, regs x = regs' x) :
    (∀ x < n, (runInstructions insts regs m).1 x = (runInstructions insts regs' m).1 x) ∧
      (runInstructions insts regs m).2 = (runInstructions insts regs' m).2 := by
  induction insts generalizing regs regs' m with
  | nil => exact ⟨hagree, rfl⟩
  | cons I rest ih =>
    have hargs : I.args.map regs = I.args.map regs' :=
      List.map_congr_left fun x hx => hagree x (hlt I (List.mem_cons_self ..) x hx)
    have hupdate : ∀ v, ∀ x < n, Function.update regs I.dst v x =
      Function.update regs' I.dst v x := by
      intro v x hx
      rcases eq_or_ne x I.dst with rfl | hne
      · rw [Function.update_self, Function.update_self]
      · rw [Function.update_of_ne hne, Function.update_of_ne hne, hagree x hx]
    obtain ⟨hregs, hrest⟩ := ih (m := (I.run (I.args.map regs') m).2.1)
      (fun J hJ => hlt J (List.mem_cons_of_mem _ hJ)) (hupdate (I.run (I.args.map regs') m).1)
    simp only [runInstructions, hargs]
    exact ⟨hregs, by rw [hrest]⟩

/-- Instructions that are safe to execute speculatively leave values that they would give again. -/
theorem holds_runInstructions
    (hsafe : ∀ I ∈ insts, I.isSafeToSpeculativelyExecute = true)
    (hnodup : (insts.map Instruction.dst).Nodup) (hself : ∀ I ∈ insts, I.dst ∉ I.args)
    (hlater : insts.Pairwise fun I J => J.dst ∉ I.args) :
    Holds insts (runInstructions insts regs m).1 := by
  induction insts generalizing regs m with
  | nil => exact fun _ hI => absurd hI List.not_mem_nil
  | cons I rest ih =>
    rw [List.map_cons, List.nodup_cons] at hnodup
    rw [List.pairwise_cons] at hlater
    intro J hJ hread m'
    rw [runInstructions]
    rcases List.mem_cons.mp hJ with rfl | hJ
    · -- neither the result nor the operands change later
      have hargs : J.args.map (runInstructions rest
          (Function.update regs J.dst (J.run (J.args.map regs) m).1)
          (J.run (J.args.map regs) m).2.1).1 = J.args.map regs := by
        refine List.map_congr_left fun x hx => ?_
        have hx' : x ∉ rest.map Instruction.dst := by
          rintro hmem
          obtain ⟨K, hK, rfl⟩ := List.mem_map.mp hmem
          exact hlater.1 K hK hx
        rw [runInstructions_of_notMem hx', Function.update_of_ne]
        rintro rfl
        exact hself J (List.mem_cons_self ..) hx
      rw [hargs, runInstructions_of_notMem hnodup.1, Function.update_self]
      exact J.pure_run (hsafe J (List.mem_cons_self ..)) hread _ _ _
    · exact ih (fun K hK => hsafe K (List.mem_cons_of_mem _ hK)) hnodup.2
        (fun K hK => hself K (List.mem_cons_of_mem _ hK)) hlater.2 J hJ hread m'

/-- Instructions that give the values there are change nothing. -/
theorem runInstructions_eq_self
    (hsafe : ∀ I ∈ insts, I.isSafeToSpeculativelyExecute = true)
    (hvalue : ∀ I ∈ insts, regs I.dst = (I.run (I.args.map regs) m).1) :
    runInstructions insts regs m = (regs, m, []) := by
  induction insts with
  | nil => rfl
  | cons I rest ih =>
    have hrest := ih (fun J hJ => hsafe J (List.mem_cons_of_mem _ hJ))
      fun J hJ => hvalue J (List.mem_cons_of_mem _ hJ)
    rw [runInstructions, ← hvalue I (List.mem_cons_self ..), Function.update_eq_self,
      I.safe_run (hsafe I (List.mem_cons_self ..)), hrest]
    rfl

theorem Holds.of_agree (h : Holds insts regs)
    (hagree : ∀ I ∈ insts, ∀ x, x = I.dst ∨ x ∈ I.args → regs' x = regs x) : Holds insts regs' := by
  intro I hI hread m
  rw [hagree I hI _ (.inl rfl), h I hI hread m,
    List.map_congr_left fun x hx => hagree I hI x (.inr hx)]

end Instructions

/-! ### Well-formed functions -/

namespace Function

/-- The values that a block defines. -/
def defs (F : Function V M ε υ) (b : Label) : List Var :=
  (F.block b).phis.map PHINode.dst ++ (F.block b).insts.map Instruction.dst

/-- What the verifier checks: PHIs have their values for the predecessors, every value is defined
once, and operands of instructions are defined before. -/
structure WellFormed (F : Function V M ε υ) : Prop where
  incoming : ∀ b ∈ F.blocks, ∀ φ ∈ (F.block b).phis, ∀ p,
    p ∈ φ.incoming.map Prod.fst ↔ F.Succ p b
  phis_lt : ∀ b ∈ F.blocks, ∀ φ ∈ (F.block b).phis,
    φ.dst < F.numVars ∧ ∀ e ∈ φ.incoming, e.2 < F.numVars
  insts_lt : ∀ b ∈ F.blocks, ∀ I ∈ (F.block b).insts,
    I.dst < F.numVars ∧ ∀ x ∈ I.args, x < F.numVars
  args_lt : ∀ b ∈ F.blocks, ∀ x ∈ (F.block b).term.args, x < F.numVars
  nodup : ∀ b ∈ F.blocks, (F.defs b).Nodup
  unique : ∀ b ∈ F.blocks, ∀ c ∈ F.blocks, ∀ x ∈ F.defs b, x ∈ F.defs c → b = c
  self : ∀ b ∈ F.blocks, ∀ I ∈ (F.block b).insts, I.dst ∉ I.args
  later : ∀ b ∈ F.blocks, (F.block b).insts.Pairwise fun I J => J.dst ∉ I.args
  dominates : ∀ b ∈ F.blocks, ∀ I ∈ (F.block b).insts, ∀ x ∈ I.args, ∀ d ∈ F.blocks,
    x ∈ F.defs d → Dominates F.Succ F.entry d b

/-! ### Steps -/

section Step

variable {F : Function V M ε υ} {b : Label} {regs : Var → V} {m : M}

theorem step_of_next_inl {c : Label}
    (h : (F.block b).term.next (runInstructions (F.block b).insts regs m).1 = .inl c) :
    F.step (.block b regs m) =
      .block c (F.enter b c (runInstructions (F.block b).insts regs m).1)
        (runInstructions (F.block b).insts regs m).2.1 := by
  simp only [step, h]

theorem step_of_next_inr {v : υ}
    (h : (F.block b).term.next (runInstructions (F.block b).insts regs m).1 = .inr v) :
    F.step (.block b regs m) = .returned v := by
  simp only [step, h]

end Step

/-! ### PHIs -/

section Enter

variable {F : Function V M ε υ} {p c : Label} {regs : Var → V}

theorem enter_of_notMem {x : Var} (hx : x ∉ (F.block c).phis.map PHINode.dst) :
    F.enter p c regs x = regs x := by
  have hnone : (F.block c).phis.find? (fun φ => φ.dst = x) = none := by
    rw [List.find?_eq_none]
    intro φ hφ
    simpa using fun h => hx (List.mem_map.mpr ⟨φ, hφ, h⟩)
  rw [enter, hnone]
  rfl

theorem enter_of_phis_eq_nil (h : (F.block c).phis = []) : F.enter p c regs = regs :=
  funext fun x => enter_of_notMem (by rw [h]; exact List.not_mem_nil)

/-- A PHI takes its value for the predecessor. -/
theorem enter_dst (hnodup : ((F.block c).phis.map PHINode.dst).Nodup) {φ : PHINode}
    (hφ : φ ∈ (F.block c).phis) {y : Var} (hy : φ.incoming.lookup p = some y) :
    F.enter p c regs φ.dst = regs y := by
  have hfind : (F.block c).phis.find? (fun ψ => ψ.dst = φ.dst) = some φ := by
    obtain ⟨ψ, hψ⟩ : ∃ ψ, (F.block c).phis.find? (fun ψ => ψ.dst = φ.dst) = some ψ := by
      rw [← Option.isSome_iff_exists, List.find?_isSome]
      exact ⟨φ, hφ, decide_eq_true rfl⟩
    have hdst : ψ.dst = φ.dst := of_decide_eq_true (List.find?_some hψ :)
    rw [hψ, List.inj_on_of_nodup_map hnodup (List.mem_of_find?_eq_some hψ) hφ hdst]
  rw [enter, hfind, Option.bind_some, hy]

end Enter

/-- A filter on the keys keeps the values of the keys that pass it. -/
private theorem lookup_filter {α β : Type*} [BEq α] [LawfulBEq α] {p : α → Bool} {a : α}
    (ha : p a = true) (l : List (α × β)) :
    (l.filter fun e => p e.1).lookup a = l.lookup a := by
  induction l with
  | nil => rfl
  | cons e rest ih =>
    rw [List.filter_cons]
    rcases eq_or_ne a e.1 with rfl | hne
    · rw [if_pos ha, List.lookup_cons, List.lookup_cons, beq_self_eq_true]
    · rw [List.lookup_cons, beq_false_of_ne hne]
      split_ifs
      · rw [List.lookup_cons, beq_false_of_ne hne]
        exact ih
      · exact ih

private theorem lookup_eq_none {α β : Type*} [BEq α] [LawfulBEq α] {a : α} {l : List (α × β)}
    (h : a ∉ l.map Prod.fst) : l.lookup a = none := by
  rw [List.lookup_eq_none_iff]
  intro e he
  rw [bne_iff_ne]
  rintro rfl
  exact h (List.mem_map_of_mem he)

private theorem exists_lookup {α β : Type*} [BEq α] [LawfulBEq α] {a : α} {l : List (α × β)}
    (h : a ∈ l.map Prod.fst) : ∃ y, l.lookup a = some y ∧ (a, y) ∈ l := by
  induction l with
  | nil => exact absurd h List.not_mem_nil
  | cons e rest ih =>
    rw [List.lookup_cons]
    rcases eq_or_ne a e.1 with rfl | hne
    · rw [beq_self_eq_true]
      exact ⟨e.2, rfl, List.mem_cons_self ..⟩
    · rw [beq_false_of_ne hne]
      obtain ⟨y, hy, hmem⟩ := ih ((List.mem_cons.mp h).resolve_left hne)
      exact ⟨y, hy, List.mem_cons_of_mem _ hmem⟩

end Function

namespace LoopPair

variable {F : Function V M ε υ} (P : LoopPair F) {b c : Label} {regs regs' : Var → V}

theorem unifyPair_phis (hc : c ∈ F.blocks) : ((F.unifyPair P).block c).phis =
    if c = P.outer then (F.block c).phis.map fun φ => ⟨φ.dst,
      ((φ.incoming ++ [(P.innerLatch, φ.dst)]).filter
        fun e => e.1 ∉ [P.outerLatch, P.innerLatch]) ++ [(F.freshBlock, F.numVars + φ.dst)]⟩
    else (F.block c).phis :=
  Function.unifiedBlocks_phis (ne_freshBlock hc)

theorem unifyPair_phis_dst (hc : c ∈ F.blocks) :
    ((F.unifyPair P).block c).phis.map PHINode.dst = (F.block c).phis.map PHINode.dst := by
  rw [P.unifyPair_phis hc]
  split_ifs
  · rw [List.map_map]
    rfl
  · rfl

theorem unifyPair_insts (hc : c ∈ F.blocks) :
    ((F.unifyPair P).block c).insts = (F.block c).insts :=
  Function.unifiedBlocks_insts (ne_freshBlock hc)

theorem insts_latch : ((F.unifyPair P).block F.freshBlock).insts = [] :=
  Function.unifiedBlocks_latch_insts

theorem unifyPair_defs (hc : c ∈ F.blocks) : (F.unifyPair P).defs c = F.defs c := by
  rw [Function.defs, P.unifyPair_phis_dst hc, P.unifyPair_insts hc, Function.defs]

section WellFormed

variable (hwf : F.WellFormed)
include hwf

theorem nodup_phis (hc : c ∈ F.blocks) : ((F.block c).phis.map PHINode.dst).Nodup :=
  (hwf.nodup c hc).of_append_left

/-- **Edges that stay.** The PHIs take the values they took. -/
theorem enter_unifyPair (hsucc : F.Succ b c)
    (houter : ¬((b = P.outerLatch ∨ b = P.innerLatch) ∧ c = P.outer))
    (hagree : ∀ x < F.numVars, regs x = regs' x) (x : Var) (hx : x < F.numVars) :
    F.enter b c regs x = (F.unifyPair P).enter b c regs' x := by
  have hc : c ∈ F.blocks := (F.succ_mem b hsucc.1 c hsucc.2).1
  by_cases hmem : x ∈ (F.block c).phis.map PHINode.dst
  · obtain ⟨φ, hφ, rfl⟩ := List.mem_map.mp hmem
    obtain ⟨y, hy, hin⟩ := Function.exists_lookup ((hwf.incoming c hc φ hφ b).mpr hsucc)
    have hnodup : (((F.unifyPair P).block c).phis.map PHINode.dst).Nodup :=
      P.unifyPair_phis_dst hc ▸ nodup_phis hwf hc
    obtain ⟨ψ, hψ, hdst, hlookup⟩ : ∃ ψ ∈ ((F.unifyPair P).block c).phis,
        ψ.dst = φ.dst ∧ ψ.incoming.lookup b = some y := by
      rw [P.unifyPair_phis hc]
      split_ifs with ho
      · refine ⟨_, List.mem_map_of_mem hφ, rfl, ?_⟩
        have hlatches : b ∉ [P.outerLatch, P.innerLatch] := by
          simpa using fun h => houter ⟨h, ho⟩
        rw [List.lookup_append, Function.lookup_filter
          (p := fun p => decide (p ∉ [P.outerLatch, P.innerLatch])) (decide_eq_true hlatches),
          List.lookup_append, hy, Option.some_or, Option.some_or]
      · exact ⟨φ, hφ, rfl, hy⟩
    rw [Function.enter_dst (nodup_phis hwf hc) hφ hy, ← hdst,
      Function.enter_dst hnodup hψ hlookup]
    exact hagree y ((hwf.phis_lt c hc φ hφ).2 _ hin)
  · rw [Function.enter_of_notMem hmem,
      Function.enter_of_notMem (P.unifyPair_phis_dst hc ▸ hmem), hagree x hx]

omit hwf in
theorem latch_phis_dst : ((F.unifyPair P).block F.freshBlock).phis.map PHINode.dst =
    (F.block P.outer).phis.map fun φ => F.numVars + φ.dst := by
  rw [Function.unifyPair, Function.unifiedBlocks_latch_phis, List.map_map]
  rfl

omit hwf in
/-- The PHIs of the new latch leave the old values alone. -/
theorem enter_latch_of_lt {x : Var} (hx : x < F.numVars) :
    (F.unifyPair P).enter b F.freshBlock regs x = regs x := by
  refine Function.enter_of_notMem fun hmem => ?_
  rw [P.latch_phis_dst] at hmem
  obtain ⟨φ, -, rfl⟩ := List.mem_map.mp hmem
  exact absurd hx (Nat.not_lt.mpr (Nat.le_add_right _ _))

/-- **Through the new latch** a PHI of the outer header gets the value of the old edge. -/
theorem enter_latch_dst {φ : PHINode} (hφ : φ ∈ (F.block P.outer).phis) {y : Var}
    (hb : b ∈ [P.outerLatch, P.innerLatch])
    (hy : (φ.incoming ++ [(P.innerLatch, φ.dst)]).lookup b = some y) :
    (F.unifyPair P).enter F.freshBlock P.outer ((F.unifyPair P).enter b F.freshBlock regs) φ.dst =
      regs y := by
  have hnodup : (((F.unifyPair P).block P.outer).phis.map PHINode.dst).Nodup :=
    P.unifyPair_phis_dst P.outer_mem ▸ nodup_phis hwf P.outer_mem
  obtain ⟨ψ, hψ, hdst, hlookup⟩ : ∃ ψ ∈ ((F.unifyPair P).block P.outer).phis,
      ψ.dst = φ.dst ∧ ψ.incoming.lookup F.freshBlock = some (F.numVars + φ.dst) := by
    rw [P.unifyPair_phis P.outer_mem, if_pos rfl]
    refine ⟨_, List.mem_map_of_mem hφ, rfl, ?_⟩
    have hfresh : F.freshBlock ∉ ((φ.incoming ++ [(P.innerLatch, φ.dst)]).filter
        fun e => e.1 ∉ [P.outerLatch, P.innerLatch]).map Prod.fst := by
      intro hmem
      obtain ⟨e, he, heq⟩ := List.mem_map.mp hmem
      obtain ⟨hmem, hne⟩ := List.mem_filter.mp he
      rcases List.mem_append.mp hmem with hmem | hmem
      · have hpred := (hwf.incoming _ P.outer_mem φ hφ e.1).mp (List.mem_map_of_mem hmem)
        exact F.freshBlock_notMem (heq ▸ hpred.1)
      · rw [List.mem_singleton.mp hmem] at hne
        simp at hne
    rw [List.lookup_append, Function.lookup_eq_none hfresh, Option.none_or, List.lookup_cons,
      beq_self_eq_true]
  have hlatch : (((F.unifyPair P).block F.freshBlock).phis.map PHINode.dst).Nodup := by
    have hmap := (nodup_phis hwf P.outer_mem).map (add_right_injective F.numVars)
    rw [List.map_map] at hmap
    rwa [P.latch_phis_dst]
  obtain ⟨χ, hχ, hdst', hlookup'⟩ : ∃ χ ∈ ((F.unifyPair P).block F.freshBlock).phis,
      χ.dst = F.numVars + φ.dst ∧ χ.incoming.lookup b = some y := by
    rw [Function.unifyPair, Function.unifiedBlocks_latch_phis]
    refine ⟨_, List.mem_map_of_mem hφ, rfl, ?_⟩
    rw [Function.lookup_filter (p := fun p => decide (p ∈ [P.outerLatch, P.innerLatch]))
      (decide_eq_true hb), hy]
  rw [← hdst, Function.enter_dst hnodup hψ hlookup, ← hdst', Function.enter_dst hlatch hχ hlookup']

omit hwf in
theorem enter_latch_of_notMem {x : Var} (hx : x < F.numVars)
    (hmem : x ∉ (F.block P.outer).phis.map PHINode.dst) :
    (F.unifyPair P).enter F.freshBlock P.outer ((F.unifyPair P).enter b F.freshBlock regs) x =
      regs x := by
  rw [Function.enter_of_notMem (P.unifyPair_phis_dst P.outer_mem ▸ hmem), P.enter_latch_of_lt hx]

/-- The outer back edge still gives the PHIs the values it gave them. -/
theorem enter_latch_outerLatch (hagree : ∀ x < F.numVars, regs x = regs' x) (x : Var)
    (hx : x < F.numVars) : F.enter P.outerLatch P.outer regs x =
      (F.unifyPair P).enter F.freshBlock P.outer
        ((F.unifyPair P).enter P.outerLatch F.freshBlock regs') x := by
  by_cases hmem : x ∈ (F.block P.outer).phis.map PHINode.dst
  · obtain ⟨φ, hφ, rfl⟩ := List.mem_map.mp hmem
    obtain ⟨y, hy, hin⟩ := Function.exists_lookup
      ((hwf.incoming _ P.outer_mem φ hφ _).mpr P.found.outerLatch.1.succ)
    rw [Function.enter_dst (nodup_phis hwf P.outer_mem) hφ hy, P.enter_latch_dst hwf hφ
      (List.mem_cons_self ..) (by rw [List.lookup_append, hy, Option.some_or])]
    exact hagree y ((hwf.phis_lt _ P.outer_mem φ hφ).2 _ hin)
  · rw [Function.enter_of_notMem hmem, P.enter_latch_of_notMem hx hmem, hagree x hx]

omit hwf in
/-- There is no edge from the latch of the inner loop to the outer header, unless the loops share
their latch. -/
theorem not_succ_innerLatch (hne : P.innerLatch ≠ P.outerLatch) :
    ¬F.Succ P.innerLatch P.outer := fun hsucc =>
  hne (P.found.outerLatch.2.2 _ ⟨hsucc, P.redirects.dominates_innerLatch,
    P.found.innerLatch.1.reachable⟩)

/-- The inner back edge leaves the PHIs as they are. -/
theorem enter_latch_innerLatch (hne : P.innerLatch ≠ P.outerLatch) (x : Var)
    (hx : x < F.numVars) : (F.unifyPair P).enter F.freshBlock P.outer
      ((F.unifyPair P).enter P.innerLatch F.freshBlock regs) x = regs x := by
  by_cases hmem : x ∈ (F.block P.outer).phis.map PHINode.dst
  · obtain ⟨φ, hφ, rfl⟩ := List.mem_map.mp hmem
    have hnone : φ.incoming.lookup P.innerLatch = none := Function.lookup_eq_none fun h =>
      P.not_succ_innerLatch hne ((hwf.incoming _ P.outer_mem φ hφ _).mp h)
    rw [P.enter_latch_dst hwf hφ (y := φ.dst) (by simp)]
    rw [List.lookup_append, hnone, Option.none_or, List.lookup_cons, beq_self_eq_true]
  · exact P.enter_latch_of_notMem hx hmem

/-! ### The inner loop keeps the values of the outer header -/

omit hwf in
/-- The inner header is dominated by the outer one, not the other way round. -/
theorem not_dominates_outer : ¬Dominates F.Succ F.entry P.inner P.outer := fun hdom =>
  P.outer_ne_inner (P.redirects.dominates_inner.antisymm hdom
    (P.redirects.reachable_outer.tail P.redirects.enter))

/-- Blocks behind the inner header define neither the values of the outer header nor their
operands. -/
theorem notMem_defs (hc : c ∈ F.blocks) (hreach : ReflTransGen F.Succ F.entry c)
    (hdom : Dominates F.Succ F.entry P.inner c) {I : Instruction V M ε}
    (hI : I ∈ (F.block P.outer).insts) {x : Var} (hx : x = I.dst ∨ x ∈ I.args) :
    x ∉ F.defs c := by
  intro hdef
  have hcontra : ¬P.outer = c := by
    rintro rfl
    exact P.not_dominates_outer hdom
  rcases hx with rfl | hx
  · have hmem : I.dst ∈ F.defs P.outer := List.mem_append_right _ (List.mem_map_of_mem hI)
    exact hcontra (hwf.unique _ P.outer_mem c hc _ hmem hdef)
  · have hbefore := hwf.dominates _ P.outer_mem I hI x hx c hc hdef
    exact hcontra ((P.redirects.dominates_inner.trans hdom).antisymm hbefore hreach)

/-- **Behind the inner header the instructions of the outer one still have their values.** -/
theorem holds_enter {m : M} (hb : b ∈ F.blocks) (hreach : ReflTransGen F.Succ F.entry b)
    (hsucc : F.Succ b c)
    (hholds : Dominates F.Succ F.entry P.inner b → Holds (F.block P.outer).insts regs)
    (hdom : Dominates F.Succ F.entry P.inner c) :
    Holds (F.block P.outer).insts
      (F.enter b c (runInstructions (F.block b).insts regs m).1) := by
  have hc : c ∈ F.blocks := (F.succ_mem b hsucc.1 c hsucc.2).1
  by_cases hb' : Dominates F.Succ F.entry P.inner b
  · refine (hholds hb').of_agree fun I hI x hx => ?_
    have hxb := P.notMem_defs hwf hb hreach hb' hI hx
    have hxc := P.notMem_defs hwf hc (hreach.tail hsucc) hdom hI hx
    rw [Function.enter_of_notMem fun h => hxc (List.mem_append_left _ h),
      runInstructions_of_notMem fun h => hxb (List.mem_append_right _ h)]
  · -- the inner header is entered from the outer one
    obtain rfl : c = P.inner := by
      by_contra hne
      exact hb' (hdom.of_succ hsucc hne)
    obtain rfl : b = P.outer := by
      refine (P.found.pred_inner b hsucc).resolve_right ?_
      rintro rfl
      exact hb' P.found.innerLatch.1.dominates
    rw [Function.enter_of_phis_eq_nil P.found.no_phis]
    exact holds_runInstructions P.found.safe ((hwf.nodup _ hb).of_append_right) (hwf.self _ hb)
      (hwf.later _ hb)

end WellFormed

/-! ### Runs -/

/-- **A harmless step.** When the inner loop goes on, the instructions of the outer header that read
from memory would give the values they have; and if the loops share their latch, the PHIs of the
outer header keep their values on both back edges, so that it does not matter which of its two
entries a PHI of the new latch takes. -/
def Harmless : Config V M υ → Prop
  | .block b regs m =>
    let s := runInstructions (F.block b).insts regs m
    (b = P.innerLatch → (F.block b).term.next s.1 = .inl P.inner →
      ∀ I ∈ (F.block P.outer).insts, I.mayReadFromMemory = true →
        s.1 I.dst = (I.run (I.args.map s.1) s.2.1).1) ∧
    (b = P.innerLatch → b = P.outerLatch →
      (F.block b).term.next s.1 = .inl P.inner ∨ (F.block b).term.next s.1 = .inl P.outer →
        F.enter b P.outer s.1 = s.1)
  | .returned _ => True

/-- Configurations of the function and of the one with unified loops. -/
inductive Matches : Config V M υ → Config V M υ → Prop
  | block {b regs regs' m} (hb : b ∈ F.blocks) (hreach : ReflTransGen F.Succ F.entry b)
      (hagree : ∀ x < F.numVars, regs x = regs' x)
      (hholds : Dominates F.Succ F.entry P.inner b → Holds (F.block P.outer).insts regs) :
      Matches (.block b regs m) (.block b regs' m)
  | returned (v : υ) : Matches (.returned v) (.returned v)

section Steps

variable {m : M}

theorem unifyPair_next (hb : b ∈ F.blocks) :
    ((F.unifyPair P).block b).term.next regs = ((F.block b).term.next regs).map
      (F.redirect P.outer P.outerLatch P.inner P.innerLatch b) id :=
  Function.unifiedBlocks_next (ne_freshBlock hb) regs

/-- An edge afterwards. -/
theorem step_unifyPair (hb : b ∈ F.blocks)
    (hnext : (F.block b).term.next (runInstructions (F.block b).insts regs m).1 = .inl c)
    {c' : Label} (hc' : F.redirect P.outer P.outerLatch P.inner P.innerLatch b c = c') :
    (F.unifyPair P).step (.block b regs m) =
      .block c' ((F.unifyPair P).enter b c' (runInstructions (F.block b).insts regs m).1)
        (runInstructions (F.block b).insts regs m).2.1 := by
  have hnext' : ((F.unifyPair P).block b).term.next
      (runInstructions ((F.unifyPair P).block b).insts regs m).1 = .inl c' := by
    rw [P.unifyPair_insts hb, P.unifyPair_next hb, hnext, Sum.map_inl, hc']
  rw [Function.step_of_next_inl hnext', P.unifyPair_insts hb]

/-- The new latch. -/
theorem step_latch : (F.unifyPair P).step (.block F.freshBlock regs m) =
    .block P.outer ((F.unifyPair P).enter F.freshBlock P.outer regs) m := by
  have hbr : ((F.unifyPair P).block F.freshBlock).term = .br P.outer :=
    Function.unifiedBlocks_latch_term
  have hnext : ((F.unifyPair P).block F.freshBlock).term.next
      (runInstructions ((F.unifyPair P).block F.freshBlock).insts regs m).1 = .inl P.outer := by
    rw [hbr]
    rfl
  rw [Function.step_of_next_inl hnext, P.insts_latch]
  rfl

/-- **The outer header again**: nothing changes. -/
theorem step_outer
    (hvalue : ∀ I ∈ (F.block P.outer).insts, regs I.dst = (I.run (I.args.map regs) m).1) :
    (F.unifyPair P).step (.block P.outer regs m) = .block P.inner regs m := by
  have hself := runInstructions_eq_self P.found.safe hvalue
  have hnext : (F.block P.outer).term.next
      (runInstructions (F.block P.outer).insts regs m).1 = .inl P.inner := by
    rw [P.found.headerBranch]
    rfl
  have hkeep : F.redirect P.outer P.outerLatch P.inner P.innerLatch P.outer P.inner = P.inner :=
    Function.redirect_of_ne (fun h => P.innerLatch_ne h.1.symm) fun h => P.outer_ne_inner h.2.symm
  have hphis : ((F.unifyPair P).block P.inner).phis = [] := by
    rw [P.unifyPair_phis P.inner_mem, if_neg P.outer_ne_inner.symm, P.found.no_phis]
  rw [P.step_unifyPair P.outer_mem hnext hkeep, hself, Function.enter_of_phis_eq_nil hphis]

theorem effects_unifyPair (hb : b ∈ F.blocks) :
    (F.unifyPair P).program.effects (.block b regs m) =
      (runInstructions (F.block b).insts regs m).2.2 := by
  rw [← P.unifyPair_insts hb]
  rfl

theorem effects_latch : (F.unifyPair P).program.effects (.block F.freshBlock regs m) = [] := by
  change (runInstructions ((F.unifyPair P).block F.freshBlock).insts regs m).2.2 = []
  rw [P.insts_latch]
  rfl

end Steps

section Follow

variable {m : M} (hwf : F.WellFormed) (hb : b ∈ F.blocks) (hreach : ReflTransGen F.Succ F.entry b)
  (hagree : ∀ x < F.numVars, regs x = regs' x)
  (hholds : Dominates F.Succ F.entry P.inner b → Holds (F.block P.outer).insts regs)
include hwf hb hagree

omit P in
/-- Both execute the block alike. -/
theorem runInstructions_agree :
    (∀ x < F.numVars, (runInstructions (F.block b).insts regs m).1 x =
        (runInstructions (F.block b).insts regs' m).1 x) ∧
      (runInstructions (F.block b).insts regs m).2 =
        (runInstructions (F.block b).insts regs' m).2 ∧
      (F.block b).term.next (runInstructions (F.block b).insts regs m).1 =
        (F.block b).term.next (runInstructions (F.block b).insts regs' m).1 := by
  obtain ⟨hregs, hrest⟩ := runInstructions_congr (m := m)
    (fun I hI => (hwf.insts_lt b hb I hI).2) hagree
  exact ⟨hregs, hrest, Terminator.next_congr fun x hx => hregs x (hwf.args_lt b hb x hx)⟩

theorem effects_follow : F.program.effects (.block b regs m) =
    (F.unifyPair P).program.effects (.block b regs' m) := by
  rw [P.effects_unifyPair hb, ← (runInstructions_agree hwf hb hagree).2.1]
  rfl

include hreach hholds

/-- The configurations behind an edge match if the registers agree. -/
theorem matches_enter (hsucc : F.Succ b c) (regs₂ : Var → V)
    (hagree₂ : ∀ x < F.numVars,
      F.enter b c (runInstructions (F.block b).insts regs m).1 x = regs₂ x) :
    P.Matches
      (.block c (F.enter b c (runInstructions (F.block b).insts regs m).1)
        (runInstructions (F.block b).insts regs m).2.1)
      (.block c regs₂ (runInstructions (F.block b).insts regs' m).2.1) := by
  rw [← (runInstructions_agree hwf hb hagree).2.1]
  exact .block (F.succ_mem b hb c hsucc.2).1 (hreach.tail hsucc) hagree₂
    (P.holds_enter hwf hb hreach hsucc hholds)

/-- An edge that stays. -/
theorem follow_keep
    (hnext : (F.block b).term.next (runInstructions (F.block b).insts regs m).1 = .inl c)
    (hinner : ¬(b = P.innerLatch ∧ c = P.inner))
    (houter : ¬((b = P.outerLatch ∨ b = P.innerLatch) ∧ c = P.outer)) :
    P.Matches (F.step (.block b regs m)) ((F.unifyPair P).step (.block b regs' m)) := by
  have hsucc : F.Succ b c := ⟨hb, Terminator.mem_successors_of_next hnext⟩
  obtain ⟨hregs, -, hterm⟩ := runInstructions_agree (m := m) hwf hb hagree
  rw [Function.step_of_next_inl hnext,
    P.step_unifyPair hb (hterm ▸ hnext) (Function.redirect_of_ne hinner houter)]
  exact P.matches_enter hwf hb hreach hagree hholds hsucc _
    (P.enter_unifyPair hwf hsucc houter hregs)

end Follow

/-- **The outer back edge** goes through the new latch. -/
theorem follow_outerLatch {m : M} (hwf : F.WellFormed)
    (hagree : ∀ x < F.numVars, regs x = regs' x)
    (hholds : Dominates F.Succ F.entry P.inner P.outerLatch → Holds (F.block P.outer).insts regs)
    (hnext : (F.block P.outerLatch).term.next
      (runInstructions (F.block P.outerLatch).insts regs m).1 = .inl P.outer) :
    ∃ d₁, (F.unifyPair P).step (.block P.outerLatch regs' m) = d₁ ∧
      (F.unifyPair P).program.effects d₁ = [] ∧
      P.Matches (F.step (.block P.outerLatch regs m)) ((F.unifyPair P).step d₁) := by
  obtain ⟨hregs, -, hterm⟩ := runInstructions_agree (m := m) hwf P.outerLatch_mem hagree
  refine ⟨_, P.step_unifyPair P.outerLatch_mem (hterm ▸ hnext)
    (Function.redirect_latch (.inr ⟨.inl rfl, rfl⟩)), P.effects_latch, ?_⟩
  rw [Function.step_of_next_inl hnext, P.step_latch]
  exact P.matches_enter hwf P.outerLatch_mem P.found.outerLatch.1.reachable hagree hholds
    P.found.outerLatch.1.succ _ (P.enter_latch_outerLatch hwf hregs)

/-- **The inner back edge** goes through the new latch and the outer header. -/
theorem follow_innerLatch {m : M} (hwf : F.WellFormed)
    (hagree : ∀ x < F.numVars, regs x = regs' x)
    (hholds : Dominates F.Succ F.entry P.inner P.innerLatch → Holds (F.block P.outer).insts regs)
    (hnext : (F.block P.innerLatch).term.next
      (runInstructions (F.block P.innerLatch).insts regs m).1 = .inl P.inner)
    (hharm : P.Harmless (.block P.innerLatch regs m)) :
    ∃ d₁ d₂, (F.unifyPair P).step (.block P.innerLatch regs' m) = d₁ ∧
      (F.unifyPair P).step d₁ = d₂ ∧
      (F.unifyPair P).program.effects d₁ = [] ∧ (F.unifyPair P).program.effects d₂ = [] ∧
      P.Matches (F.step (.block P.innerLatch regs m)) ((F.unifyPair P).step d₂) := by
  obtain ⟨hregs, hrest, hterm⟩ := runInstructions_agree (m := m) hwf P.innerLatch_mem hagree
  have hback := P.found.innerLatch.1
  have hpass := P.holds_enter (m := m) hwf P.innerLatch_mem hback.reachable hback.succ hholds
    (dominates_refl _ _ _)
  have hmatch := P.matches_enter (m := m) hwf P.innerLatch_mem hback.reachable hagree hholds
    hback.succ
  have hstep := P.step_unifyPair P.innerLatch_mem (hterm ▸ hnext)
    (Function.redirect_latch (.inl ⟨rfl, rfl⟩))
  rw [Function.enter_of_phis_eq_nil P.found.no_phis] at hpass
  simp only [Function.enter_of_phis_eq_nil P.found.no_phis] at hmatch
  rw [← hrest] at hstep hmatch
  obtain ⟨hread, hshared⟩ := hharm
  rw [Function.step_of_next_inl hnext, Function.enter_of_phis_eq_nil P.found.no_phis]
  generalize runInstructions (F.block P.innerLatch).insts regs m = s at *
  generalize (runInstructions (F.block P.innerLatch).insts regs' m).1 = t at *
  -- the PHIs of the outer header keep their values
  have hkeep : ∀ x < F.numVars, s.1 x = (F.unifyPair P).enter F.freshBlock P.outer
      ((F.unifyPair P).enter P.innerLatch F.freshBlock t) x := by
    intro x hx
    by_cases hlatch : P.innerLatch = P.outerLatch
    · have houter := P.enter_latch_outerLatch hwf hregs x hx
      rwa [← hlatch, hshared rfl hlatch (.inl hnext)] at houter
    · rw [P.enter_latch_innerLatch hwf hlatch x hx, hregs x hx]
  -- so do its instructions
  have hvalue : ∀ I ∈ (F.block P.outer).insts,
      (F.unifyPair P).enter F.freshBlock P.outer
          ((F.unifyPair P).enter P.innerLatch F.freshBlock t) I.dst =
        (I.run (I.args.map ((F.unifyPair P).enter F.freshBlock P.outer
          ((F.unifyPair P).enter P.innerLatch F.freshBlock t))) s.2.1).1 := by
    intro I hI
    have hlt := hwf.insts_lt _ P.outer_mem I hI
    rw [← hkeep _ hlt.1, ← List.map_congr_left fun x hx => hkeep x (hlt.2 x hx)]
    cases hmay : I.mayReadFromMemory with
    | false => exact hpass I hI hmay _
    | true => exact hread rfl hnext I hI hmay
  refine ⟨_, _, hstep, P.step_latch, P.effects_latch, ?_, ?_⟩
  · rw [P.effects_unifyPair P.outer_mem, runInstructions_eq_self P.found.safe hvalue]
  · rw [P.step_outer hvalue]
    exact hmatch _ hkeep

/-- **Every harmless step is followed.** -/
theorem exists_follow (hwf : F.WellFormed) {c d : Config V M υ} (hmatch : P.Matches c d)
    (hharm : P.Harmless c) : ∃ n, 0 < n ∧
      F.program.effects c = (F.unifyPair P).program.performed d n ∧
      P.Matches (F.program.step c) ((F.unifyPair P).program.step^[n] d) := by
  cases hmatch with
  | returned v => exact ⟨1, Nat.one_pos, rfl, .returned v⟩
  | @block b regs regs' m hb hreach hagree hholds =>
    have heffects := P.effects_follow (m := m) hwf hb hagree
    have hterm := (runInstructions_agree (m := m) hwf hb hagree).2.2
    cases hnext : (F.block b).term.next (runInstructions (F.block b).insts regs m).1 with
    | inr v =>
      refine ⟨1, Nat.one_pos, heffects.trans (List.append_nil _).symm, ?_⟩
      have hstep : (F.unifyPair P).step (.block b regs' m) = .returned v :=
        Function.step_of_next_inr (by
          rw [P.unifyPair_insts hb, P.unifyPair_next hb, ← hterm, hnext]
          rfl)
      rw [Function.iterate_one, Function.program_step, Function.program_step,
        Function.step_of_next_inr hnext, hstep]
      exact .returned v
    | inl c =>
      by_cases hinner : b = P.innerLatch ∧ c = P.inner
      · obtain ⟨rfl, rfl⟩ := hinner
        obtain ⟨d₁, d₂, rfl, rfl, he₁, he₂, hm⟩ :=
          P.follow_innerLatch hwf hagree hholds hnext hharm
        refine ⟨3, by omega, ?_, hm⟩
        simp only [EffectProgram.performed, Function.program_step, he₁, he₂, List.append_nil,
          heffects]
      · by_cases houter : (b = P.outerLatch ∨ b = P.innerLatch) ∧ c = P.outer
        · obtain ⟨hlatch, rfl⟩ := houter
          obtain rfl : b = P.outerLatch := by
            rcases hlatch with rfl | rfl
            · rfl
            · by_contra hne
              exact P.not_succ_innerLatch hne
                ⟨hb, Terminator.mem_successors_of_next hnext⟩
          obtain ⟨d₁, rfl, he₁, hm⟩ := P.follow_outerLatch hwf hagree hholds hnext
          refine ⟨2, by omega, ?_, hm⟩
          simp only [EffectProgram.performed, Function.program_step, he₁, List.append_nil,
            heffects]
        · exact ⟨1, Nat.one_pos, heffects.trans (List.append_nil _).symm,
            P.follow_keep hwf hb hreach hagree hholds hnext hinner houter⟩

/-! ### The next unification -/

theorem defs_latch : (F.unifyPair P).defs F.freshBlock =
    (F.block P.outer).phis.map fun φ => F.numVars + φ.dst := by
  rw [Function.defs, P.insts_latch, P.latch_phis_dst, List.map_nil, List.append_nil]

theorem succ_latch : (F.unifyPair P).Succ b F.freshBlock ↔ b = P.outerLatch ∨ b = P.innerLatch := by
  have hold : ¬F.Succ b F.freshBlock := (P.redirects.fresh b).1
  have hne : F.freshBlock ≠ P.outer := (ne_freshBlock P.outer_mem).symm
  rw [P.succ_unifyPair]
  tauto

theorem defs_lt (hwf : F.WellFormed) (hb : b ∈ F.blocks) {x : Var} (hx : x ∈ F.defs b) :
    x < F.numVars := by
  rcases List.mem_append.mp hx with h | h
  · obtain ⟨φ, hφ, rfl⟩ := List.mem_map.mp h
    exact (hwf.phis_lt b hb φ hφ).1
  · obtain ⟨I, hI, rfl⟩ := List.mem_map.mp h
    exact (hwf.insts_lt b hb I hI).1

/-- The instructions are where they were. -/
theorem mem_insts (hb : b ∈ (F.unifyPair P).blocks) {I : Instruction V M ε}
    (hI : I ∈ ((F.unifyPair P).block b).insts) : b ∈ F.blocks ∧ I ∈ (F.block b).insts := by
  rcases Finset.mem_insert.mp hb with rfl | hb
  · rw [P.insts_latch] at hI
    exact absurd hI List.not_mem_nil
  · exact ⟨hb, P.unifyPair_insts hb ▸ hI⟩

/-- The values are defined where they were, and those of the new latch are new. -/
theorem mem_defs (hb : b ∈ (F.unifyPair P).blocks) {x : Var} (hx : x ∈ (F.unifyPair P).defs b) :
    b = F.freshBlock ∧ F.numVars ≤ x ∨ b ∈ F.blocks ∧ x ∈ F.defs b := by
  rcases Finset.mem_insert.mp hb with rfl | hb
  · rw [P.defs_latch] at hx
    obtain ⟨φ, -, rfl⟩ := List.mem_map.mp hx
    exact .inl ⟨rfl, Nat.le_add_right _ _⟩
  · exact .inr ⟨hb, P.unifyPair_defs hb ▸ hx⟩

/-- The keys of the PHIs of the new latch. -/
private theorem keys_latch (hwf : F.WellFormed) {φ : PHINode} (hφ : φ ∈ (F.block P.outer).phis)
    (p : Label) :
    p ∈ ((φ.incoming ++ [(P.innerLatch, φ.dst)]).filter
        fun e => e.1 ∈ [P.outerLatch, P.innerLatch]).map Prod.fst ↔
      p = P.outerLatch ∨ p = P.innerLatch := by
  have hol : P.outerLatch ∈ φ.incoming.map Prod.fst :=
    (hwf.incoming _ P.outer_mem φ hφ _).mpr P.found.outerLatch.1.succ
  obtain ⟨e, he, heq⟩ := List.mem_map.mp hol
  constructor
  · intro hp
    obtain ⟨e, he, rfl⟩ := List.mem_map.mp hp
    simpa using (List.mem_filter.mp he).2
  · rintro (rfl | rfl)
    · refine List.mem_map.mpr ⟨e, List.mem_filter.mpr ⟨List.mem_append_left _ he, ?_⟩, heq⟩
      simp [heq]
    · exact List.mem_map.mpr ⟨(P.innerLatch, φ.dst), List.mem_filter.mpr
        ⟨List.mem_append_right _ (List.mem_singleton_self _), by simp⟩, rfl⟩

/-- The keys of the PHIs of the outer header. -/
private theorem keys_outer (hwf : F.WellFormed) {φ : PHINode} (hφ : φ ∈ (F.block P.outer).phis)
    (p : Label) :
    p ∈ (((φ.incoming ++ [(P.innerLatch, φ.dst)]).filter
        fun e => e.1 ∉ [P.outerLatch, P.innerLatch]) ++
          [(F.freshBlock, F.numVars + φ.dst)]).map Prod.fst ↔
      F.Succ p P.outer ∧ ¬(p = P.outerLatch ∨ p = P.innerLatch) ∨ p = F.freshBlock := by
  rw [List.map_append, List.mem_append, List.map_singleton, List.mem_singleton]
  refine or_congr ?_ Iff.rfl
  rw [← hwf.incoming _ P.outer_mem φ hφ p]
  constructor
  · intro hp
    obtain ⟨e, he, rfl⟩ := List.mem_map.mp hp
    obtain ⟨hmem, hne⟩ := List.mem_filter.mp he
    have hne' : ¬(e.1 = P.outerLatch ∨ e.1 = P.innerLatch) := by simpa using hne
    rcases List.mem_append.mp hmem with hmem | hmem
    · exact ⟨List.mem_map_of_mem hmem, hne'⟩
    · exact absurd (.inr (congrArg Prod.fst (List.mem_singleton.mp hmem))) hne'
  · rintro ⟨hp, hne⟩
    obtain ⟨e, he, rfl⟩ := List.mem_map.mp hp
    exact List.mem_map_of_mem
      (List.mem_filter.mpr ⟨List.mem_append_left _ he, by simpa using hne⟩)

theorem numVars_le : F.numVars ≤ (F.unifyPair P).numVars :=
  Nat.le_mul_of_pos_left _ Nat.zero_lt_two

/-- The PHIs of an old block use old values, and those of the new latch. -/
private theorem phis_lt_of_mem (hwf : F.WellFormed) (hb : b ∈ F.blocks) {φ : PHINode}
    (hφ : φ ∈ ((F.unifyPair P).block b).phis) : φ.dst < F.numVars ∧
      ∀ e ∈ φ.incoming, e.2 < F.numVars ∨ ∃ x < F.numVars, F.numVars + x = e.2 := by
  rw [P.unifyPair_phis hb] at hφ
  split_ifs at hφ with ho
  · obtain ⟨ψ, hψ, rfl⟩ := List.mem_map.mp hφ
    obtain ⟨hdst, hin⟩ := hwf.phis_lt b hb ψ hψ
    refine ⟨hdst, fun e he => ?_⟩
    rcases List.mem_append.mp he with he | he
    · rcases List.mem_append.mp (List.mem_of_mem_filter he) with he | he
      · exact .inl (hin e he)
      · exact .inl (List.mem_singleton.mp he ▸ hdst)
    · exact .inr ⟨ψ.dst, hdst, by rw [List.mem_singleton.mp he]⟩
  · obtain ⟨hdst, hin⟩ := hwf.phis_lt b hb φ hφ
    exact ⟨hdst, fun e he => .inl (hin e he)⟩

/-- **A unified function is well-formed again.** -/
theorem unifyPair_wellFormed (hwf : F.WellFormed) : (F.unifyPair P).WellFormed where
  incoming b hb φ hφ p := by
    rcases Finset.mem_insert.mp hb with rfl | hb
    · rw [Function.unifyPair, Function.unifiedBlocks_latch_phis] at hφ
      obtain ⟨ψ, hψ, rfl⟩ := List.mem_map.mp hφ
      rw [P.succ_latch]
      exact P.keys_latch hwf hψ p
    · rw [P.unifyPair_phis hb] at hφ
      have hfresh : b ≠ F.freshBlock := ne_freshBlock hb
      split_ifs at hφ with ho
      · subst ho
        obtain ⟨ψ, hψ, rfl⟩ := List.mem_map.mp hφ
        rw [P.succ_unifyPair]
        refine (P.keys_outer hwf hψ p).trans ?_
        have hne := P.outer_ne_inner
        tauto
      · -- the inner header has no PHIs, and no other edge is redirected
        have hi : b ≠ P.inner := by
          rintro rfl
          rw [P.found.no_phis] at hφ
          exact absurd hφ List.not_mem_nil
        rw [P.succ_unifyPair, hwf.incoming b hb φ hφ p]
        tauto
  phis_lt b hb φ hφ := by
    have hle : ∀ x < F.numVars, x < (F.unifyPair P).numVars :=
      fun x hx => hx.trans_le P.numVars_le
    have hadd : ∀ x < F.numVars, F.numVars + x < (F.unifyPair P).numVars := fun x hx =>
      (Nat.add_lt_add_left hx _).trans_eq (Nat.two_mul _).symm
    rcases Finset.mem_insert.mp hb with rfl | hb
    · rw [Function.unifyPair, Function.unifiedBlocks_latch_phis] at hφ
      obtain ⟨ψ, hψ, rfl⟩ := List.mem_map.mp hφ
      obtain ⟨hdst, hin⟩ := hwf.phis_lt P.outer P.outer_mem ψ hψ
      refine ⟨hadd _ hdst, fun e he => ?_⟩
      rcases List.mem_append.mp (List.mem_of_mem_filter he) with he | he
      · exact hle _ (hin e he)
      · rw [List.mem_singleton.mp he]
        exact hle _ hdst
    · obtain ⟨hdst, hin⟩ := P.phis_lt_of_mem hwf hb hφ
      refine ⟨hle _ hdst, fun e he => ?_⟩
      rcases hin e he with h | ⟨x, hx, h⟩
      · exact hle _ h
      · exact h ▸ hadd x hx
  insts_lt b hb I hI := by
    obtain ⟨hb, hI⟩ := P.mem_insts hb hI
    obtain ⟨hdst, hargs⟩ := hwf.insts_lt b hb I hI
    exact ⟨hdst.trans_le P.numVars_le, fun x hx => (hargs x hx).trans_le P.numVars_le⟩
  args_lt b hb x hx := by
    rcases Finset.mem_insert.mp hb with rfl | hb
    · rw [Function.unifyPair, Function.unifiedBlocks_latch_term] at hx
      exact absurd hx List.not_mem_nil
    · rw [Function.unifyPair, Function.unifiedBlocks_args (ne_freshBlock hb)] at hx
      exact (hwf.args_lt b hb x hx).trans_le P.numVars_le
  nodup b hb := by
    rcases Finset.mem_insert.mp hb with rfl | hb
    · rw [P.defs_latch]
      have hmap := (nodup_phis hwf P.outer_mem).map (add_right_injective F.numVars)
      rwa [List.map_map] at hmap
    · rw [P.unifyPair_defs hb]
      exact hwf.nodup b hb
  unique b hb c hc x hxb hxc := by
    rcases P.mem_defs hb hxb with ⟨rfl, hx⟩ | ⟨hb, hxb⟩
    · rcases P.mem_defs hc hxc with ⟨rfl, -⟩ | ⟨hc, hxc⟩
      · rfl
      · exact absurd (defs_lt hwf hc hxc) (Nat.not_lt.mpr hx)
    · rcases P.mem_defs hc hxc with ⟨-, hx⟩ | ⟨hc, hxc⟩
      · exact absurd (defs_lt hwf hb hxb) (Nat.not_lt.mpr hx)
      · exact hwf.unique b hb c hc x hxb hxc
  self b hb I hI := by
    obtain ⟨hb, hI⟩ := P.mem_insts hb hI
    exact hwf.self b hb I hI
  later b hb := by
    rcases Finset.mem_insert.mp hb with rfl | hb
    · rw [P.insts_latch]
      exact .nil
    · rw [P.unifyPair_insts hb]
      exact hwf.later b hb
  dominates b hb I hI x hx d hd hdef := by
    obtain ⟨hb, hI⟩ := P.mem_insts hb hI
    rcases P.mem_defs hd hdef with ⟨-, hge⟩ | ⟨hd, hdef⟩
    · exact absurd ((hwf.insts_lt b hb I hI).2 x hx) (Nat.not_lt.mpr hge)
    · exact P.redirects.dominates_redirect (ne_freshBlock hb)
        (hwf.dominates b hb I hI x hx d hd hdef)

end LoopPair

namespace Function

variable {find : ∀ F : Function V M ε υ, Option (LoopPair F)}

theorem unifyOnce_of_find {F : Function V M ε υ} {P : LoopPair F} (h : find F = some P) :
    unifyOnce find F = F.unifyPair P := by
  rw [unifyOnce, h]

variable (find) in
/-- Every round starts from a well-formed function with the same entry. -/
theorem unifyOnce_iterate {F : Function V M ε υ} (hwf : F.WellFormed) (k : ℕ) :
    ((unifyOnce find)^[k] F).WellFormed ∧ ((unifyOnce find)^[k] F).entry = F.entry := by
  induction k with
  | zero => exact ⟨hwf, rfl⟩
  | succ k ih =>
    rw [Function.iterate_succ_apply']
    cases hfind : find ((unifyOnce find)^[k] F) with
    | none =>
      rw [unifyOnce, hfind]
      exact ih
    | some P =>
      rw [unifyOnce_of_find hfind]
      exact ⟨P.unifyPair_wellFormed ih.1, ih.2⟩

end Function

/-- **Loop unification.** The pass terminates, and a unification keeps the behaviour of every
harmless run. -/
theorem unified_same_behaviour (find : ∀ F : Function V M ε υ, Option (LoopPair F))
    (F : Function V M ε υ) (hwf : F.WellFormed) :
    (∃ n ≤ F.headers.ncard, find ((Function.unifyOnce find)^[n] F) = none) ∧
      ∀ k P, find ((Function.unifyOnce find)^[k] F) = some P → ∀ regs m,
        (∀ j, P.Harmless (((Function.unifyOnce find)^[k] F).program.step^[j]
          (.block F.entry regs m))) →
        EffectProgram.SameBehaviour ((Function.unifyOnce find)^[k] F).program
          ((Function.unifyOnce find)^[k + 1] F).program (.block F.entry regs m)
          (.block F.entry regs m) := by
  refine ⟨Function.exists_unifyOnce_eq_none find F, fun k P hfind regs m hharm => ?_⟩
  obtain ⟨hwf, hentry⟩ := Function.unifyOnce_iterate find hwf k
  rw [Function.iterate_succ_apply', Function.unifyOnce_of_find hfind, ← hentry]
  rw [← hentry] at hharm
  generalize (Function.unifyOnce find)^[k] F = G at *
  refine EffectProgram.sameBehaviour_of_follows
    (R := fun c d => (∀ j, P.Harmless (G.program.step^[j] c)) ∧ P.Matches c d) ?_ ?_ ⟨hharm, ?_⟩
  · rintro c d ⟨hc, hmatch⟩
    obtain ⟨n, hpos, heffects, hnext⟩ := P.exists_follow hwf hmatch (hc 0)
    exact ⟨n, hpos, heffects, fun j => hc (j + 1), hnext⟩
  · rintro c d ⟨-, hmatch⟩
    cases hmatch <;> rfl
  · exact .block G.entry_mem .refl (fun _ _ => rfl)
      fun hdom => absurd .refl (hdom P.inner_ne_entry)

/-! ### A split loop -/

/-- The blocks of `splitLoop`. -/
def splitBlocks (read : Bool) : Label → BasicBlock ℕ ℕ ℕ ℕ
  | 0 => ⟨[], [], .br 1, none⟩
  | 1 => ⟨[], [⟨0, [], fun _ m => (if read then m else 0, m, []), true, read, fun _ _ _ => rfl,
      fun _ hread => by simp [hread]⟩], .br 2, none⟩
  | 2 => ⟨[], [⟨1, [], fun _ m => (m + 1, m + 1, [m + 1]), false, true, nofun, nofun⟩],
      .switch [1] (fun vals => if vals.headI < 2 then 0 else 1) 2 [3], some 0⟩
  | 3 => ⟨[], [], .switch [] (fun _ => 1) 1 [4], some 0⟩
  | _ => ⟨[], [], .ret [0] List.headI, none⟩

private theorem splitBlocks_successors (read : Bool) {b : ℕ} (hb : b < 5) :
    (splitBlocks read b).term.successors = [[1], [2], [2, 3], [1, 4], []].getD b [] := by
  interval_cases b <;> rfl

/-- `do { x = read ? *p : 0; do { ++*p; } while (*p < 2); } while (0); return x;` -/
def splitLoop (read : Bool) : Function ℕ ℕ ℕ ℕ where
  entry := 0
  blocks := Finset.range 5
  block := splitBlocks read
  numVars := 2
  entry_mem := by decide
  succ_mem b hb := by
    have hlt : b < 5 := Finset.mem_range.mp hb
    rw [splitBlocks_successors read hlt]
    interval_cases b <;> decide

section SplitLoop

variable {read : Bool}

private theorem splitLoop_succ_iff {b c : ℕ} : (splitLoop read).Succ b c ↔
    (b, c) ∈ [(0, 1), (1, 2), (2, 2), (2, 3), (3, 1), (3, 4)] := by
  have hsucc : (splitLoop read).Succ b c ↔
      b ∈ Finset.range 5 ∧ c ∈ (splitBlocks read b).term.successors := Iff.rfl
  rw [hsucc, Finset.mem_range]
  constructor
  · rintro ⟨hlt, hc⟩
    rw [splitBlocks_successors read hlt] at hc
    interval_cases b <;> simp_all
  · intro h
    have hlt : b < 5 := by
      simp at h
      omega
    refine ⟨hlt, ?_⟩
    rw [splitBlocks_successors read hlt]
    interval_cases b <;> simp_all

private theorem splitLoop_reachable {b : ℕ} (hb : b < 4) :
    ReflTransGen (splitLoop read).Succ 0 b := by
  have h₁ : (splitLoop read).Succ 0 1 := splitLoop_succ_iff.mpr (by decide)
  have h₂ : (splitLoop read).Succ 1 2 := splitLoop_succ_iff.mpr (by decide)
  have h₃ : (splitLoop read).Succ 2 3 := splitLoop_succ_iff.mpr (by decide)
  interval_cases b
  · exact .refl
  · exact .single h₁
  · exact .tail (.single h₁) h₂
  · exact .tail (.tail (.single h₁) h₂) h₃

/-- The blocks before a block are reached without it. -/
private theorem splitLoop_not_dominates {b c : ℕ} (hbc : b < c) (hb : b < 4) :
    ¬Dominates (splitLoop read).Succ 0 c b := by
  have h₁ : (splitLoop read).Succ 0 1 := splitLoop_succ_iff.mpr (by decide)
  have h₂ : (splitLoop read).Succ 1 2 := splitLoop_succ_iff.mpr (by decide)
  have h₃ : (splitLoop read).Succ 2 3 := splitLoop_succ_iff.mpr (by decide)
  have hne : ∀ x ≤ b, x ≠ c := fun x hx => (Nat.lt_of_le_of_lt hx hbc).ne
  intro hdom
  refine hdom (hne 0 (Nat.zero_le b)).symm ?_
  interval_cases b
  · exact .refl
  · exact .single ⟨h₁, hne 1 le_rfl⟩
  · exact .tail (.single ⟨h₁, hne 1 (by decide)⟩) ⟨h₂, hne 2 le_rfl⟩
  · exact .tail (.tail (.single ⟨h₁, hne 1 (by decide)⟩) ⟨h₂, hne 2 (by decide)⟩)
      ⟨h₃, hne 3 le_rfl⟩

/-- The preheader is left through the outer header only. -/
private theorem splitLoop_avoid_outer {b : ℕ} (hb : b ≠ 0) :
    ¬ReflTransGen (AvoidStep (splitLoop read).Succ 1) 0 b := by
  refine not_reaches_of_closed (S := {0}) (fun x hx y hxy => ?_) rfl hb
  obtain rfl : x = 0 := hx
  have hedge := splitLoop_succ_iff.mp hxy.1
  simp at hedge
  exact absurd hedge hxy.2

private theorem splitLoop_outerLatch : (splitLoop read).IsLoopLatch 3 1 := by
  refine ⟨⟨splitLoop_succ_iff.mpr (by decide), fun _ => splitLoop_avoid_outer (by decide),
    splitLoop_reachable (by decide)⟩,
    rfl, fun l hl => ?_⟩
  have hedge := splitLoop_succ_iff.mp hl.succ
  simp at hedge
  rcases hedge with rfl | rfl
  · exact absurd hl.dominates (splitLoop_not_dominates (by decide) (by decide))
  · rfl

private theorem splitLoop_innerLatch : (splitLoop read).IsLoopLatch 2 2 := by
  refine ⟨⟨splitLoop_succ_iff.mpr (by decide), dominates_refl _ _ _,
    splitLoop_reachable (by decide)⟩, rfl,
    fun l hl => ?_⟩
  have hedge := splitLoop_succ_iff.mp hl.succ
  simp at hedge
  rcases hedge with rfl | rfl
  · exact absurd hl.dominates (splitLoop_not_dominates (by decide) (by decide))
  · rfl

private theorem splitLoop_preheader : (splitLoop read).IsLoopPreheader 0 1 := by
  refine ⟨Finset.mem_range.mpr (by decide), rfl, ?_, fun p hp hnot => ?_⟩
  · rintro (h | ⟨-, -, l, hl, hpath⟩)
    · exact absurd h (by decide)
    · obtain rfl := splitLoop_outerLatch.2.2 l hl
      exact splitLoop_avoid_outer (by decide) hpath
  · have hedge := splitLoop_succ_iff.mp hp
    simp at hedge
    rcases hedge with rfl | rfl
    · rfl
    · exact absurd (.inr ⟨by decide, splitLoop_reachable (by decide), 3, splitLoop_outerLatch.1,
        .refl⟩) hnot

private theorem splitLoop_subLoop : (splitLoop read).IsSubLoop 1 2 := by
  have hstep : AvoidStep (splitLoop read).Succ 1 2 3 :=
    ⟨splitLoop_succ_iff.mpr (by decide), by decide⟩
  refine ⟨by decide, .inr ⟨by decide, splitLoop_reachable (by decide), 3, splitLoop_outerLatch.1,
    .single hstep⟩, fun h hh hne _ => ?_⟩
  obtain ⟨l, hl⟩ := hh
  have hedge := splitLoop_succ_iff.mp hl.succ
  simp at hedge
  rcases hedge with ⟨rfl, rfl⟩ | ⟨rfl, rfl⟩ | ⟨rfl, rfl⟩ | ⟨rfl, rfl⟩ | ⟨rfl, rfl⟩ | ⟨rfl, rfl⟩
  · exact .inl rfl
  · exact absurd rfl hne
  · exact absurd rfl hne
  · exact absurd hl.dominates (splitLoop_not_dominates (by decide) (by decide))
  · exact .inl rfl
  · exact absurd hl.dominates (splitLoop_not_dominates (by decide) (by decide))

/-- Both loops of `splitLoop`. -/
def splitPair (read : Bool) : LoopPair (splitLoop read) where
  outer := 1
  outerLatch := 3
  inner := 2
  innerLatch := 2
  found :=
    { loopID := ⟨0, rfl, rfl⟩
      preheader := ⟨0, splitLoop_preheader⟩
      outerLatch := splitLoop_outerLatch
      headerBranch := rfl
      safe := by simp [splitLoop, splitBlocks]
      no_phis := rfl
      subLoop := splitLoop_subLoop
      innerLatch := splitLoop_innerLatch
      pred_inner := fun p hp => by
        have hedge := splitLoop_succ_iff.mp hp
        simp at hedge
        exact hedge }

private theorem splitLoop_block {b : ℕ} (hb : b ∈ (splitLoop read).blocks) :
    b = 0 ∨ b = 1 ∨ b = 2 ∨ b = 3 ∨ b = 4 := by
  have hlt : b < 5 := Finset.mem_range.mp hb
  omega

theorem splitLoop_wellFormed : (splitLoop read).WellFormed where
  incoming b hb φ hφ := by
    rcases splitLoop_block hb with rfl | rfl | rfl | rfl | rfl <;> cases hφ
  phis_lt b hb φ hφ := by
    rcases splitLoop_block hb with rfl | rfl | rfl | rfl | rfl <;> cases hφ
  insts_lt b hb := by
    rcases splitLoop_block hb with rfl | rfl | rfl | rfl | rfl <;> simp [splitLoop, splitBlocks]
  args_lt b hb := by
    rcases splitLoop_block hb with rfl | rfl | rfl | rfl | rfl <;>
      simp [splitLoop, splitBlocks, Terminator.args]
  nodup b hb := by
    rcases splitLoop_block hb with rfl | rfl | rfl | rfl | rfl <;>
      simp [Function.defs, splitLoop, splitBlocks]
  unique b hb c hc x hxb hxc := by
    rcases splitLoop_block hb with rfl | rfl | rfl | rfl | rfl <;>
      rcases splitLoop_block hc with rfl | rfl | rfl | rfl | rfl <;>
      simp_all [Function.defs, splitLoop, splitBlocks]
  self b hb := by
    rcases splitLoop_block hb with rfl | rfl | rfl | rfl | rfl <;> simp [splitLoop, splitBlocks]
  later b hb := by
    rcases splitLoop_block hb with rfl | rfl | rfl | rfl | rfl <;> simp [splitLoop, splitBlocks]
  dominates b hb I hI x hx := by
    have hargs : I.args = [] := by
      rcases splitLoop_block hb with rfl | rfl | rfl | rfl | rfl <;>
        simp_all [splitLoop, splitBlocks]
    exact absurd (hargs ▸ hx) List.not_mem_nil

end SplitLoop

/-- Loops without a load in the outer header and with different latches are harmless. -/
theorem splitPair_harmless (c : Config ℕ ℕ ℕ) : (splitPair false).Harmless c := by
  cases c with
  | block b regs m =>
    refine ⟨fun _ _ I hI hread => ?_, fun hinner houter => ?_⟩
    · obtain rfl := List.mem_singleton.mp hI
      exact absurd hread (by decide)
    · exact absurd (hinner.symm.trans houter) (by decide)
  | returned v => trivial

/-- Without a load in the outer header the loops may be unified. -/
theorem unified_same_behaviour_splitLoop : EffectProgram.SameBehaviour (splitLoop false).program
    ((splitLoop false).unifyPair (splitPair false)).program (.block 0 (fun _ => 0) 0)
    (.block 0 (fun _ => 0) 0) := by
  classical
  let find (F : Function ℕ ℕ ℕ ℕ) : Option (LoopPair F) :=
    if h : splitLoop false = F then some (h ▸ splitPair false) else none
  have hfind : find (splitLoop false) = some (splitPair false) := dif_pos rfl
  have hsame := (unified_same_behaviour find (splitLoop false) splitLoop_wellFormed).2 0
    (splitPair false) hfind (fun _ => 0) 0 fun _ => splitPair_harmless _
  rwa [Function.iterate_one, Function.unifyOnce_of_find hfind] at hsame

/-- **A load in the outer header reads what the inner loop has stored.** The split loop returns `0`,
and the unified one returns `1`. -/
theorem unified_reads_later_store : (splitLoop true).WellFormed ∧
    ¬EffectProgram.SameBehaviour (splitLoop true).program
      ((splitLoop true).unifyPair (splitPair true)).program (.block 0 (fun _ => 0) 0)
      (.block 0 (fun _ => 0) 0) := by
  refine ⟨splitLoop_wellFormed, fun h => ?_⟩
  have hsplit : (splitLoop true).program.Returns (.block 0 (fun _ => 0) 0) 0 := ⟨6, by decide⟩
  have hunified : ((splitLoop true).unifyPair (splitPair true)).program.Returns
      (.block 0 (fun _ => 0) 0) 1 := ⟨8, by decide⟩
  exact absurd (((h.returns_iff 0).mp hsplit).unique hunified) (by decide)

end Bao.Milp.Unify
