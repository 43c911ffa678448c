import Bao.Graph.Walk
import Bao.Milp.Views

/-!
# Control flow graphs and loop nests

The concrete control flow graph of a function (`CFGAnalysis`) and the loop forest that
LLVM's `LoopInfo` computes over it. A loop is a tree: header, blocks and sub-loops, with the
two trip counts the passes read, the one scalar evolution derives (`0` if unknown) and the
one of the marker metadata. `getLoopLatch`, `getLoopPreheader` and `getExitBlocks` are
computed from the graph as LLVM does.

`LoopInfo` carries what LLVM guarantees of the forest: every loop is a natural loop, nested
loops are disjoint. `SimplifyForm` is the canonical shape that
`LoopSimplifyPass` establishes: preheader, single latch, dedicated exits.
-/

namespace Bao.Milp

/-- A basic block of the function. -/
abbrev BlockId := ℕ

/-- How a block ends. -/
inductive Terminator
  | ret
  | unreachable
  | branch (targets : List BlockId)
  deriving DecidableEq, Repr

/-- `llvm::successors`: the targets of a branch. -/
def Terminator.successors : Terminator → List BlockId
  | .branch targets => targets
  | _ => []

/-- `CFGAnalysis`: the blocks in function order with their names and energy costs. The entry
block has no predecessors, as LLVM requires. -/
structure CFGAnalysis where
  blocks : List BlockId
  terminator : BlockId → Terminator
  entryBlock : BlockId
  name : BlockId → String
  energyCost : BlockId → ℚ
  blocks_nodup : blocks.Nodup
  entry_mem : entryBlock ∈ blocks
  succ_mem : ∀ b, ∀ s ∈ (terminator b).successors, b ∈ blocks ∧ s ∈ blocks ∧ s ≠ entryBlock
  energyCost_nonneg : ∀ b, 0 ≤ energyCost b

namespace CFGAnalysis

variable (C : CFGAnalysis)

/-- The successors of a block. -/
def successors (b : BlockId) : List BlockId := (C.terminator b).successors

/-- The edges, one for each successor entry of a terminator. -/
def edges : List (BlockId × BlockId) :=
  C.blocks.flatMap fun b => (C.successors b).map fun s => (b, s)

/-- The blocks without successors. -/
def exitBlocks : List BlockId := C.blocks.filter fun b => C.successors b = []

/-- `llvm::predecessors`: the sources of the edges into a block. -/
def predecessors (b : BlockId) : List BlockId :=
  (C.edges.filter fun e => e.2 = b).map Prod.fst

/-- `b → s` is an edge. -/
def Succ (b s : BlockId) : Prop := s ∈ C.successors b

instance (b s : BlockId) : Decidable (C.Succ b s) :=
  inferInstanceAs (Decidable (s ∈ C.successors b))

/-- A block the entry reaches. -/
def Reachable (b : BlockId) : Prop := Relation.ReflTransGen C.Succ C.entryBlock b

variable {C}

@[simp] theorem mem_edges {b s : BlockId} : (b, s) ∈ C.edges ↔ C.Succ b s := by
  simp only [edges, List.mem_flatMap, List.mem_map, Prod.mk.injEq]
  constructor
  · rintro ⟨a, -, t, ht, rfl, rfl⟩
    exact ht
  · intro h
    exact ⟨b, (C.succ_mem b s h).1, s, h, rfl, rfl⟩

theorem Succ.src_mem {b s : BlockId} (h : C.Succ b s) : b ∈ C.blocks := (C.succ_mem b s h).1

theorem Succ.dst_mem {b s : BlockId} (h : C.Succ b s) : s ∈ C.blocks := (C.succ_mem b s h).2.1

/-- No edge leads back to the entry. -/
theorem Succ.ne_entry {b s : BlockId} (h : C.Succ b s) : s ≠ C.entryBlock :=
  (C.succ_mem b s h).2.2

theorem Reachable.mem {b : BlockId} (h : C.Reachable b) : b ∈ C.blocks := by
  rcases Relation.ReflTransGen.cases_tail h with rfl | ⟨c, -, hcb⟩
  · exact C.entry_mem
  · exact Succ.dst_mem hcb

@[simp] theorem mem_predecessors {p b : BlockId} : p ∈ C.predecessors b ↔ C.Succ p b := by
  simp only [predecessors, List.mem_map, List.mem_filter, decide_eq_true_eq, Prod.exists,
    exists_and_right, exists_eq_right, mem_edges]

@[simp] theorem mem_exitBlocks {b : BlockId} :
    b ∈ C.exitBlocks ↔ b ∈ C.blocks ∧ C.successors b = [] := by
  simp [exitBlocks]

/-- A function given by a table: block `i` ends and costs as entry `i` says, block `0` is the
entry. -/
def ofTable (table : List (Terminator × ℚ)) (hne : 0 < table.length)
    (hsucc : ∀ t ∈ table, ∀ s ∈ t.1.successors, s < table.length ∧ s ≠ 0)
    (hcost : ∀ t ∈ table, 0 ≤ t.2) : CFGAnalysis where
  blocks := List.range table.length
  terminator b := (table[b]?).elim .ret Prod.fst
  entryBlock := 0
  name b := "bb" ++ toString b
  energyCost b := (table[b]?).elim 0 Prod.snd
  blocks_nodup := List.nodup_range
  entry_mem := List.mem_range.mpr hne
  succ_mem := by
    intro b s hs
    cases hb : table[b]? with
    | none => simp [hb, Terminator.successors] at hs
    | some t =>
      rw [hb] at hs
      obtain ⟨hlt, hne⟩ := hsucc t (List.mem_of_getElem? hb) s hs
      obtain ⟨hb', -⟩ := List.getElem?_eq_some_iff.mp hb
      exact ⟨List.mem_range.mpr hb', List.mem_range.mpr hlt, hne⟩
  energyCost_nonneg := by
    intro b
    cases hb : table[b]? with
    | none => simp
    | some t => exact hcost t (List.mem_of_getElem? hb)

end CFGAnalysis

/-! ### Loops -/

/-- A loop of the nest, with its sub-loops. -/
inductive Loop
  | mk (header : BlockId) (blocks : List BlockId) (scevTripCount : ℕ)
      (markerTripCount : Option ℕ) (subLoops : List Loop)

namespace Loop

/-- The loop header. -/
def header : Loop → BlockId
  | .mk h _ _ _ _ => h

/-- All blocks of the loop, those of its sub-loops included. -/
def blocks : Loop → List BlockId
  | .mk _ bs _ _ _ => bs

/-- `ScalarEvolution::getSmallConstantTripCount`: the exact trip count, `0` if unknown. -/
def scevTripCount : Loop → ℕ
  | .mk _ _ n _ _ => n

/-- `getMarkerTripCount`: the trip count metadata, if any. -/
def markerTripCount : Loop → Option ℕ
  | .mk _ _ _ m _ => m

/-- `getSubLoops`: the direct children. -/
def subLoops : Loop → List Loop
  | .mk _ _ _ _ subs => subs

mutual

/-- `collectOutermostFirst`: the loop and all loops nested in it, outermost first. -/
def collectOutermostFirst : Loop → List Loop
  | L@(.mk _ _ _ _ subs) => L :: collectAll subs

/-- `collectOutermostFirst` over a list of siblings. -/
def collectAll : List Loop → List Loop
  | [] => []
  | L :: Ls => collectOutermostFirst L ++ collectAll Ls

end

theorem collectOutermostFirst_eq (L : Loop) :
    L.collectOutermostFirst = L :: collectAll L.subLoops := by
  cases L
  rfl

theorem mem_collectAll {T : Loop} {Ls : List Loop} :
    T ∈ collectAll Ls ↔ ∃ L ∈ Ls, T ∈ L.collectOutermostFirst := by
  induction Ls with
  | nil => simp [collectAll]
  | cons L Ls ih => simp [collectAll, ih]

/-- A loop of the nest is the loop itself or in the nest of a sub-loop. -/
theorem mem_collectOutermostFirst {T L : Loop} :
    T ∈ L.collectOutermostFirst ↔ T = L ∨ ∃ S ∈ L.subLoops, T ∈ S.collectOutermostFirst := by
  rw [collectOutermostFirst_eq, List.mem_cons, mem_collectAll]

theorem self_mem_nest (L : Loop) : L ∈ L.collectOutermostFirst :=
  mem_collectOutermostFirst.mpr (.inl rfl)

theorem sizeOf_subLoop_lt {S L : Loop} (hS : S ∈ L.subLoops) : sizeOf S < sizeOf L := by
  cases L with
  | mk h bs n m subs =>
    have hlt := List.sizeOf_lt_of_mem (show S ∈ subs from hS)
    rw [mk.sizeOf_spec]
    omega

/-- **Induction on loop nests.** -/
theorem nest_induction {P : Loop → Prop} (step : ∀ L, (∀ S ∈ L.subLoops, P S) → P L)
    (L : Loop) : P L :=
  step L fun S _ => nest_induction step S
termination_by sizeOf L
decreasing_by
  rename_i hS
  exact sizeOf_subLoop_lt hS

theorem mem_nest_trans {T S L : Loop} (hT : T ∈ S.collectOutermostFirst)
    (hS : S ∈ L.collectOutermostFirst) : T ∈ L.collectOutermostFirst := by
  induction L using nest_induction with
  | step L ih =>
    rcases mem_collectOutermostFirst.mp hS with rfl | ⟨M, hM, hSM⟩
    · exact hT
    · exact mem_collectOutermostFirst.mpr (.inr ⟨M, hM, ih M hM hSM⟩)

theorem subLoop_mem_nest {S L : Loop} (hS : S ∈ L.subLoops) : S ∈ L.collectOutermostFirst :=
  mem_collectOutermostFirst.mpr (.inr ⟨S, hS, S.self_mem_nest⟩)

/-! ### What LLVM computes from a loop -/

variable (C : CFGAnalysis) (L : Loop)

/-- `getLoopLatch`: the source of the only back edge, if there is just one. -/
def getLoopLatch : Option BlockId :=
  match (C.predecessors L.header).filter fun p => p ∈ L.blocks with
  | [latch] => some latch
  | _ => none

/-- `getLoopPreheader`: the only predecessor of the header from outside the loop, provided
the header is its only successor. -/
def getLoopPreheader : Option BlockId :=
  match (C.predecessors L.header).filter fun p => p ∉ L.blocks with
  | [] => none
  | p :: ps => if (∀ q ∈ ps, q = p) ∧ (C.successors p).length = 1 then some p else none

/-- `getExitBlocks`: the targets of the edges that leave the loop. -/
def getExitBlocks : List BlockId :=
  L.blocks.flatMap fun b => (C.successors b).filter fun s => s ∉ L.blocks

/-- `getExitingBlocks`: the blocks with an edge that leaves the loop. -/
def getExitingBlocks : List BlockId :=
  L.blocks.filter fun b => (C.successors b).any fun s => s ∉ L.blocks

/-- `getDirectChildLoop`: the sub-loop a block of the loop lies in. -/
def getDirectChildLoop (b : BlockId) : Option Loop := L.subLoops.find? fun S => b ∈ S.blocks

variable {C L}

theorem getLoopLatch_eq_some {latch : BlockId} (h : L.getLoopLatch C = some latch) :
    ∀ p, p ∈ L.blocks → (C.Succ p L.header ↔ p = latch) := by
  intro p hp
  have hmem : ∀ q, q ∈ (C.predecessors L.header).filter (fun p => p ∈ L.blocks) ↔
      C.Succ q L.header ∧ q ∈ L.blocks := by
    intro q
    simp
  rw [getLoopLatch] at h
  split at h
  · rename_i l heq
    rw [heq] at hmem
    obtain rfl : l = latch := by simpa using h
    have := hmem p
    simp only [List.mem_singleton, hp, and_true] at this
    exact this.symm
  · simp at h

theorem latch_mem {latch : BlockId} (h : L.getLoopLatch C = some latch) :
    latch ∈ L.blocks ∧ C.Succ latch L.header := by
  have hmem : latch ∈ (C.predecessors L.header).filter (fun p => p ∈ L.blocks) := by
    rw [getLoopLatch] at h
    split at h
    · rename_i l heq
      obtain rfl : l = latch := by simpa using h
      simp [heq]
    · simp at h
  simpa [and_comm] using hmem

theorem preheader_spec {ph : BlockId} (h : L.getLoopPreheader C = some ph) :
    ph ∉ L.blocks ∧ C.Succ ph L.header ∧ (C.successors ph).length = 1 ∧
      ∀ q, q ∉ L.blocks → C.Succ q L.header → q = ph := by
  have hmem : ∀ q, q ∈ (C.predecessors L.header).filter (fun p => p ∉ L.blocks) ↔
      C.Succ q L.header ∧ q ∉ L.blocks := by
    intro q
    simp
  rw [getLoopPreheader] at h
  split at h
  · simp at h
  · rename_i p ps heq
    rw [heq] at hmem
    split_ifs at h with hcond
    obtain rfl : p = ph := by simpa using h
    obtain ⟨hsucc, hout⟩ := (hmem p).mp List.mem_cons_self
    refine ⟨hout, hsucc, hcond.2, fun q hq hqs => ?_⟩
    rcases List.mem_cons.mp ((hmem q).mpr ⟨hqs, hq⟩) with rfl | hmem'
    · rfl
    · exact hcond.1 q hmem'

/-- The preheader leads to the header only. -/
theorem preheader_succ {ph s : BlockId} (h : L.getLoopPreheader C = some ph)
    (hs : C.Succ ph s) : s = L.header := by
  obtain ⟨-, hsucc, hlen, -⟩ := preheader_spec h
  obtain ⟨a, ha⟩ := List.length_eq_one_iff.mp hlen
  rw [CFGAnalysis.Succ, ha, List.mem_singleton] at hs hsucc
  rw [hs, hsucc]

@[simp] theorem mem_getExitBlocks {e : BlockId} :
    e ∈ L.getExitBlocks C ↔ e ∉ L.blocks ∧ ∃ b ∈ L.blocks, C.Succ b e := by
  simp only [getExitBlocks, List.mem_flatMap, List.mem_filter, decide_eq_true_eq]
  constructor
  · rintro ⟨b, hb, hs, he⟩
    exact ⟨he, b, hb, hs⟩
  · rintro ⟨he, b, hb, hs⟩
    exact ⟨b, hb, hs, he⟩

/-! ### Natural loops and the simplified form -/

/-- Two loops without a common block. -/
def Disjoint (S T : Loop) : Prop := ∀ b ∈ S.blocks, b ∉ T.blocks

instance : Std.Symm Disjoint := ⟨fun _ _ h b hbT hbS => h b hbS hbT⟩

/-- A step that stays in the loop. -/
def InnerStep (C : CFGAnalysis) (L : Loop) (b c : BlockId) : Prop := C.Succ b c ∧ c ∈ L.blocks

/-- What LLVM guarantees of every loop: it is a natural loop on reachable blocks, entered
through its header only, from each of whose blocks a back edge is reached inside the loop;
its sub-loops are disjoint and do not contain the header. The entry block has no predecessors,
so it is in no loop. -/
structure Natural (C : CFGAnalysis) (L : Loop) : Prop where
  header_mem : L.header ∈ L.blocks
  entry_not_mem : C.entryBlock ∉ L.blocks
  reachable : ∀ b ∈ L.blocks, C.Reachable b
  single_entry : ∀ u v, C.Reachable u → C.Succ u v → u ∉ L.blocks → v ∈ L.blocks →
    v = L.header
  reaches_back_edge : ∀ b ∈ L.blocks, ∃ p ∈ L.blocks, C.Succ p L.header ∧
    Relation.ReflTransGen (InnerStep C L) b p
  sub_subset : ∀ S ∈ L.subLoops, ∀ b ∈ S.blocks, b ∈ L.blocks
  sub_header : ∀ S ∈ L.subLoops, L.header ∉ S.blocks
  sub_disjoint : L.subLoops.Pairwise Disjoint

/-- **Loop-simplify form**: a preheader, a single latch and dedicated exits. -/
structure SimplifyForm (C : CFGAnalysis) (L : Loop) : Prop where
  preheader : (L.getLoopPreheader C).isSome
  latch : (L.getLoopLatch C).isSome
  dedicated_exits : ∀ e ∈ L.getExitBlocks C, ∀ p, C.Succ p e → p ∈ L.blocks

/-- In simplified form every block of a loop reaches its latch inside the loop. -/
theorem Natural.reaches_latch {latch : BlockId} (hn : L.Natural C)
    (hl : L.getLoopLatch C = some latch) {b : BlockId} (hb : b ∈ L.blocks) :
    Relation.ReflTransGen (InnerStep C L) b latch := by
  obtain ⟨p, hp, hsucc, hreach⟩ := hn.reaches_back_edge b hb
  rwa [(getLoopLatch_eq_some hl p hp).mp hsucc] at hreach

/-- Control does not return to the preheader from inside the loop: the preheader would be an
exit block, and as a dedicated exit it would be unreachable from outside. -/
theorem Natural.not_succ_preheader {ph u : BlockId} (hn : L.Natural C) (hs : L.SimplifyForm C)
    (hph : L.getLoopPreheader C = some ph) (hu : u ∈ L.blocks) : ¬C.Succ u ph := by
  intro hsucc
  obtain ⟨hout, -, -, huniq⟩ := preheader_spec hph
  have hexit : ph ∈ L.getExitBlocks C := mem_getExitBlocks.mpr ⟨hout, u, hu, hsucc⟩
  -- so neither the preheader nor the loop is ever reached
  have hnever : ∀ b, C.Reachable b → b ∉ L.blocks ∧ b ≠ ph := by
    intro b hb
    induction hb with
    | refl => exact ⟨hn.entry_not_mem, hsucc.ne_entry.symm⟩
    | @tail a c hreach hstep ih =>
      constructor
      · intro hc
        obtain rfl := hn.single_entry a c hreach hstep ih.1 hc
        exact ih.2 (huniq a ih.1 hstep)
      · rintro rfl
        exact ih.1 (hs.dedicated_exits _ hexit a hstep)
  exact (hnever L.header (hn.reachable _ hn.header_mem)).1 hn.header_mem

/-- The preheader is reached from the entry block without entering the loop. -/
theorem Natural.preheader_reachable {ph : BlockId} (hn : L.Natural C)
    (hph : L.getLoopPreheader C = some ph) :
    Relation.ReflTransGen (fun a c => C.Succ a c ∧ c ∉ L.blocks) C.entryBlock ph := by
  obtain ⟨-, -, -, huniq⟩ := preheader_spec hph
  have hout : ∀ b, Relation.ReflTransGen (fun a c => C.Succ a c ∧ c ∉ L.blocks) C.entryBlock b →
      b ∉ L.blocks := by
    intro b hb
    rcases Relation.ReflTransGen.cases_tail hb with rfl | ⟨a, -, hstep⟩
    · exact hn.entry_not_mem
    · exact hstep.2
  -- a path that enters the loop has passed the preheader before
  have hpass : ∀ b, C.Reachable b →
      Relation.ReflTransGen (fun a c => C.Succ a c ∧ c ∉ L.blocks) C.entryBlock b ∨
        Relation.ReflTransGen (fun a c => C.Succ a c ∧ c ∉ L.blocks) C.entryBlock ph := by
    intro b hb
    induction hb with
    | refl => exact .inl .refl
    | @tail a c hreach hstep ih =>
      refine ih.elim (fun ha => ?_) .inr
      by_cases hc : c ∈ L.blocks
      · obtain rfl := hn.single_entry a c hreach hstep (hout a ha) hc
        exact .inr (huniq a (hout a ha) hstep ▸ ha)
      · exact .inl (ha.tail ⟨hstep, hc⟩)
  exact (hpass L.header (hn.reachable _ hn.header_mem)).resolve_left
    fun h => hout _ h hn.header_mem

/-- The latch of a loop lies in none of its sub-loops: the back edge would leave the sub-loop
to an exit block that the preheader enters as well. -/
theorem latch_not_mem_subLoop {S : Loop} {latch : BlockId} (hn : L.Natural C)
    (hs : L.SimplifyForm C) (hS : S ∈ L.subLoops) (hsS : S.SimplifyForm C)
    (hl : L.getLoopLatch C = some latch) : latch ∉ S.blocks := by
  intro hmem
  obtain ⟨ph, hph⟩ := Option.isSome_iff_exists.mp hs.preheader
  obtain ⟨hout, hsucc, -, -⟩ := preheader_spec hph
  have hexit : L.header ∈ S.getExitBlocks C :=
    mem_getExitBlocks.mpr ⟨hn.sub_header S hS, latch, hmem, (latch_mem hl).2⟩
  exact hout (hn.sub_subset S hS _ (hsS.dedicated_exits _ hexit ph hsucc))

/-- A block lies in at most one sub-loop. -/
theorem Natural.subLoop_unique (hn : L.Natural C) {S T : Loop} (hS : S ∈ L.subLoops)
    (hT : T ∈ L.subLoops) {b : BlockId} (hbS : b ∈ S.blocks) (hbT : b ∈ T.blocks) : S = T := by
  by_contra hne
  exact hn.sub_disjoint.forall hS hT hne b hbS hbT

/-- The sub-loop found for a block is the one that contains it. -/
theorem Natural.getDirectChildLoop_eq (hn : L.Natural C) {S : Loop} (hS : S ∈ L.subLoops)
    {b : BlockId} (hb : b ∈ S.blocks) : L.getDirectChildLoop b = some S := by
  have hsome : (L.subLoops.find? fun T => b ∈ T.blocks).isSome :=
    List.find?_isSome.mpr ⟨S, hS, by simpa using hb⟩
  obtain ⟨T, hT⟩ := Option.isSome_iff_exists.mp hsome
  have hbT : b ∈ T.blocks := by simpa using List.find?_some hT
  rw [getDirectChildLoop, hT, hn.subLoop_unique (List.mem_of_find?_eq_some hT) hS hbT hb]

end Loop

/-! ### Deciding the shape of a loop -/

section Decidable

variable (C : CFGAnalysis) (L : Loop) (b : BlockId)

instance : Decidable (C.Reachable b) :=
  decidable_of_iff (b ∈ Graph.closure C.successors C.blocks [C.entryBlock]) <| by
    rw [Graph.mem_closure_iff (fun a c hc => CFGAnalysis.Succ.dst_mem hc)
      (by simp [C.entry_mem]) (by simp)]
    simp only [List.mem_singleton, exists_eq_left]
    rfl

/-- The successors of a block inside a loop. -/
def Loop.innerSuccs : List BlockId := (C.successors b).filter fun c => c ∈ L.blocks

theorem Loop.mem_closure_innerSuccs {p : BlockId} (hb : b ∈ L.blocks) :
    p ∈ Graph.closure (L.innerSuccs C) L.blocks [b] ↔
      Relation.ReflTransGen (L.InnerStep C) b p := by
  have hrel : (fun c d => d ∈ L.innerSuccs C c) = L.InnerStep C := by
    funext c d
    simp [Loop.innerSuccs, Loop.InnerStep, CFGAnalysis.Succ]
  rw [Graph.mem_closure_iff (fun a c hc => by simpa using (List.mem_filter.mp hc).2)
    (by simpa using hb) (by simp), hrel]
  simp

instance (S T : Loop) : Decidable (S.Disjoint T) :=
  inferInstanceAs (Decidable (∀ b ∈ S.blocks, b ∉ T.blocks))

instance : Decidable (L.Natural C) :=
  decidable_of_iff (L.header ∈ L.blocks ∧ C.entryBlock ∉ L.blocks ∧
    (∀ b ∈ L.blocks, C.Reachable b) ∧
    (∀ u ∈ C.blocks, ∀ v ∈ C.successors u, C.Reachable u → u ∉ L.blocks → v ∈ L.blocks →
      v = L.header) ∧
    (∀ b ∈ L.blocks, ∃ p ∈ L.blocks, C.Succ p L.header ∧
      p ∈ Graph.closure (L.innerSuccs C) L.blocks [b]) ∧
    (∀ S ∈ L.subLoops, ∀ b ∈ S.blocks, b ∈ L.blocks) ∧
    (∀ S ∈ L.subLoops, L.header ∉ S.blocks) ∧ L.subLoops.Pairwise Loop.Disjoint) <| by
    constructor
    · rintro ⟨h1, h0, h2, h3, h4, h5, h6, h7⟩
      refine ⟨h1, h0, h2, fun u v hu huv => h3 u (CFGAnalysis.Succ.src_mem huv) v huv hu,
        fun b hb => ?_, h5, h6, h7⟩
      obtain ⟨p, hp, hsucc, hreach⟩ := h4 b hb
      exact ⟨p, hp, hsucc, (L.mem_closure_innerSuccs C b hb).mp hreach⟩
    · intro h
      refine ⟨h.header_mem, h.entry_not_mem, h.reachable, fun u _ v huv hu =>
        h.single_entry u v hu huv,
        fun b hb => ?_, h.sub_subset, h.sub_header, h.sub_disjoint⟩
      obtain ⟨p, hp, hsucc, hreach⟩ := h.reaches_back_edge b hb
      exact ⟨p, hp, hsucc, (L.mem_closure_innerSuccs C b hb).mpr hreach⟩

instance : Decidable (L.SimplifyForm C) :=
  decidable_of_iff ((L.getLoopPreheader C).isSome ∧ (L.getLoopLatch C).isSome ∧
    ∀ e ∈ L.getExitBlocks C, ∀ p ∈ C.predecessors e, p ∈ L.blocks) <| by
    constructor
    · rintro ⟨h1, h2, h3⟩
      exact ⟨h1, h2, fun e he p hp => h3 e he p (CFGAnalysis.mem_predecessors.mpr hp)⟩
    · intro h
      exact ⟨h.preheader, h.latch, fun e he p hp =>
        h.dedicated_exits e he p (CFGAnalysis.mem_predecessors.mp hp)⟩

end Decidable

/-- The loop forest of a function. -/
structure LoopInfo (C : CFGAnalysis) where
  topLevelLoops : List Loop
  natural : ∀ L ∈ Loop.collectAll topLevelLoops, L.Natural C
  disjoint : topLevelLoops.Pairwise Loop.Disjoint

/-- A function without loops. -/
def LoopInfo.empty (C : CFGAnalysis) : LoopInfo C where
  topLevelLoops := []
  natural := by simp [Loop.collectAll]
  disjoint := List.Pairwise.nil

/-- All loops, outermost first. -/
def LoopInfo.loops {C : CFGAnalysis} (LI : LoopInfo C) : List Loop :=
  Loop.collectAll LI.topLevelLoops

/-- Every loop is in simplified form, as after `LoopSimplifyPass`. -/
def LoopInfo.Simplified {C : CFGAnalysis} (LI : LoopInfo C) : Prop :=
  ∀ L ∈ LI.loops, L.SimplifyForm C

instance {C : CFGAnalysis} (LI : LoopInfo C) : Decidable LI.Simplified :=
  inferInstanceAs (Decidable (∀ L ∈ LI.loops, L.SimplifyForm C))

end Bao.Milp
